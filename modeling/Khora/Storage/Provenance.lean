import Khora.Lib.Window
import Khora.Storage.EntityIds

/-!
# The documents that mention an entity

Each mention of an entity adds its document to the sources of the row and of the node.  The row
has each document once; the node has the last hundred mentions, with repeats.  The forget cascade
takes an entity for an orphan if its list has one element.

* `sourcesAt_nodes_upsertAll` — the node lists the last mentions.
* `ForgetState.Holds.attempt` — what one forgotten document does to an entity of the two stores.
* `provenance_iff` — for an entity that at most a hundred documents mention, both stores list every
  document at all times and forgetting documents removes the entity exactly with its last one, if and
  only if no document is mentioned twice within a hundred mentions of the entity and no mention closes
  its window.
* `reextraction_outlives` — a document that is extracted twice and then forgotten.
-/

namespace Khora

/-! ## Mentions -/

section Mentions

variable {I K A D : Type} [DecidableEq K]

/-- The documents of the mentions of a key, in order. -/
def docsOf (k : K) (mentions : List (EntityRecord I K A D)) : List D :=
  (mentions.filter fun e => decide (e.key = k)).flatMap EntityRecord.sources

/-- The stores after some mentions. -/
def upsertAll [DecidableEq D] [DecidableEq A] [EmptyCollection A] (mentions : List (EntityRecord I K A D)) :
    SplitEntities I K A D :=
  mentions.foldl (fun s e => s.upsertEntitiesBatch [e]) ⟨[], []⟩

end Mentions

section Forget

variable {I K A D : Type}

/-- The stores as the cascade has them, either of which may be the primary one. -/
def SplitEntities.forgetState (s : SplitEntities I K A D) (graphPrimary : Bool)
    (rowEdges nodeEdges : List (Extracted I D)) : ForgetState I D :=
  let vector : ExtractionStore I D := ⟨s.rows.map EntityRecord.extract, rowEdges⟩
  let graph : ExtractionStore I D := ⟨s.nodes.map EntityRecord.extract, nodeEdges⟩
  if graphPrimary then { primary := graph, mirror := vector } else { primary := vector, mirror := graph }

/-- `cascade_forget_extraction` for some documents. -/
def ForgetState.forgetAll [DecidableEq I] [DecidableEq D] (s : ForgetState I D) (now : ℕ) (docs : List D) :
    ForgetState I D :=
  docs.foldl (fun s d => s.attempt ⟨d, now, none⟩) s

def ExtractionStore.Present (s : ExtractionStore I D) (i : I) : Prop := ∃ x ∈ s.entities, x.id = i

variable [DecidableEq I] [DecidableEq K] [DecidableEq D] [DecidableEq A] [EmptyCollection A]

/-- Both stores list the documents that mentioned the entity, and the entity is there as long as one
of them is not forgotten. -/
structure KeepsProvenance (mentions : List (EntityRecord I K A D)) (k : K) : Prop where
  rows : ∀ d ∈ docsOf k mentions, ∃ r ∈ (upsertAll mentions).rows, r.key = k ∧ d ∈ r.sources
  nodes : ∀ d ∈ docsOf k mentions, ∃ n ∈ (upsertAll mentions).nodes, n.key = k ∧ d ∈ n.sources
  forgotten : ∀ i, idAt (upsertAll mentions).rows k = some i →
    ∀ graphPrimary now rowEdges nodeEdges docs,
      let s := ((upsertAll mentions).forgetState graphPrimary rowEdges nodeEdges).forgetAll now docs
      (s.primary.Present i ↔ ∃ d ∈ docsOf k mentions, d ∉ docs) ∧
      (s.mirror.Present i ↔ ∃ d ∈ docsOf k mentions, d ∉ docs)

end Forget

/-! ## One entity and the documents that are forgotten -/

section Fate

variable {D : Type} [DecidableEq D]

/-- The list of an entity of the primary store after a document is forgotten. -/
def fate (d : D) (sources : List D) : Option (List D) :=
  if d ∈ sources ∧ sources.length = 1 then none else some (stripSource d sources)

def fates (docs : List D) (o : Option (List D)) : Option (List D) := docs.foldl (fun o d => o.bind (fate d)) o

theorem fates_none (docs : List D) : fates docs none = none := by
  induction docs with
  | nil => rfl
  | cons d docs ih => exact ih

theorem mem_stripSource {d x : D} {sources : List D} : x ∈ stripSource d sources ↔ x ∈ sources ∧ x ≠ d := by
  unfold stripSource
  rw [List.mem_filter, decide_eq_true_eq]

/-- Another document is left. -/
theorem stripSource_ne_nil {d : D} {sources : List D} (hn : sources.Nodup) (hne : sources ≠ [])
    (hfate : ¬(d ∈ sources ∧ sources.length = 1)) : stripSource d sources ≠ [] := by
  intro hnil
  have hall : ∀ x ∈ sources, x = d := by
    intro x hx
    by_contra hxd
    have hmem := mem_stripSource.mpr ⟨hx, hxd⟩
    rw [hnil] at hmem
    cases hmem
  obtain ⟨x, hx⟩ := List.exists_mem_of_ne_nil sources hne
  have hd : d ∈ sources := hall x hx ▸ hx
  have hle := (List.subperm_of_subset hn (fun y hy => List.mem_singleton.mpr (hall y hy))).length_le
  have hpos := List.length_pos_of_mem hd
  rw [List.length_singleton] at hle
  exact hfate ⟨hd, Nat.le_antisymm hle hpos⟩

/-- **A list without repeats is emptied with its last document.** -/
theorem fates_of_nodup (docs : List D) : ∀ {sources : List D}, sources.Nodup → sources ≠ [] →
    ((fates docs (some sources)).isSome = true ↔ ∃ d ∈ sources, d ∉ docs) := by
  induction docs with
  | nil =>
      intro sources _ hne
      obtain ⟨x, hx⟩ := List.exists_mem_of_ne_nil sources hne
      exact iff_of_true rfl ⟨x, hx, List.not_mem_nil⟩
  | cons d docs ih =>
      intro sources hn hne
      show (fates docs (fate d sources)).isSome = true ↔ _
      unfold fate
      split
      case isTrue h =>
        rw [fates_none]
        apply iff_of_false Bool.false_ne_true
        rintro ⟨x, hx, hxd⟩
        obtain ⟨y, hy⟩ := List.length_eq_one_iff.mp h.2
        rw [hy, List.mem_singleton] at hx h
        exact hxd (hx.trans h.1.symm ▸ List.mem_cons_self)
      case isFalse h =>
        have hstrip : (stripSource d sources).Nodup := hn.filter _
        rw [ih hstrip (stripSource_ne_nil hn hne h)]
        simp only [mem_stripSource, List.mem_cons, not_or, and_assoc]

/-- A document that is listed twice: the list is emptied, and the entity stays. -/
theorem fates_of_repeat {d : D} (docs : List D) : ∀ {sources : List D}, 2 ≤ sources.count d → d ∉ docs →
    (fates (docs ++ [d]) (some sources)).isSome = true := by
  have hfate : ∀ (c : D) {sources : List D}, 2 ≤ sources.count d → fate c sources = some (stripSource c sources) := by
    intro c sources hcount
    unfold fate
    rw [if_neg]
    rintro ⟨-, hlen⟩
    have hle := List.count_le_length (a := d) (l := sources)
    omega
  induction docs with
  | nil =>
      intro sources hcount _
      show ((some sources).bind (fate d)).isSome = true
      rw [Option.bind_some, hfate d hcount]
      rfl
  | cons c docs ih =>
      intro sources hcount hd
      rw [List.mem_cons, not_or] at hd
      show (fates (docs ++ [d]) (fate c sources)).isSome = true
      rw [hfate c hcount]
      apply ih _ hd.2
      have hcounted : (stripSource c sources).count d = sources.count d := by
        unfold stripSource
        rw [List.count_filter]
        exact decide_eq_true hd.1
      rw [hcounted]
      exact hcount

end Fate

section Holds

variable {I D : Type} [DecidableEq I] [DecidableEq D] {s : ForgetState I D} {now : ℕ} {i : I} {shown : Bool}
  {o : Option (List D)} {d : D}

/-- The entity has this list in the primary store, which shows it or not, and is in the mirror if it is
there. -/
structure ForgetState.Holds (s : ForgetState I D) (now : ℕ) (i : I) (shown : Bool) (o : Option (List D)) : Prop where
  primaryIds : (s.primary.entities.map Extracted.id).Nodup
  mirrorIds : (s.mirror.entities.map Extracted.id).Nodup
  count : s.primary.entities.length ≤ scanLimit
  live : ∀ x, KeyedMerge.get Extracted.id s.primary.entities i = some x → x.live now = shown
  primary : (KeyedMerge.get Extracted.id s.primary.entities i).map Extracted.sources = o
  mirror : (KeyedMerge.get Extracted.id s.mirror.entities i).isSome = o.isSome

/-- The entities after a document is forgotten, in either store. -/
theorem ForgetState.entities_attempt (s : ForgetState I D) (d : D) (now : ℕ) :
    (s.attempt ⟨d, now, none⟩).primary.entities = stripIds (idsOf (isSurvivor d) (s.listEntities now)) d
      (deleteIds (idsOf (isOrphan d) (s.listEntities now)) s.primary.entities) ∧
    (s.attempt ⟨d, now, none⟩).mirror.entities = stripIds (idsOf (isSurvivor d) (s.listEntities now)) d
      (deleteIds (idsOf (isOrphan d) (s.listEntities now)) s.mirror.entities) := by
  unfold ForgetState.attempt
  dsimp only
  rw [foldl_stages]
  exact ⟨rfl, rfl⟩

omit [DecidableEq D] in
theorem ForgetState.mem_idsOf_iff {l : List (Extracted I D)} (hn : (l.map Extracted.id).Nodup)
    {p : Extracted I D → Bool} : i ∈ idsOf p l ↔ ∃ x, KeyedMerge.get Extracted.id l i = some x ∧ p x = true := by
  unfold idsOf
  constructor
  · intro h
    obtain ⟨x, hx, rfl⟩ := List.mem_map.mp h
    obtain ⟨hmem, hp⟩ := List.mem_filter.mp hx
    exact ⟨x, (KeyedMerge.mem_iff_get hn).mp hmem, hp⟩
  · rintro ⟨x, hget, hp⟩
    exact List.mem_map.mpr ⟨x, List.mem_filter.mpr ⟨KeyedMerge.mem_of_get hget, hp⟩, KeyedMerge.key_of_get hget⟩

omit [DecidableEq D] in
/-- An entity is classified by its own list, if it is shown. -/
theorem classified_iff {l : List (Extracted I D)} (hn : (l.map Extracted.id).Nodup) (hl : l.length ≤ scanLimit)
    (p : Extracted I D → Bool) {x : Extracted I D} (hget : KeyedMerge.get Extracted.id l i = some x) :
    i ∈ ForgetState.idsOf p (ForgetState.listing now l) ↔ x.live now = true ∧ p x = true := by
  unfold ForgetState.listing
  rw [List.take_of_length_le (Nat.le_trans (List.length_filter_le _ _) hl),
    ForgetState.mem_idsOf_iff (hn.sublist (List.filter_sublist.map _)), KeyedMerge.get_filter hn, hget]
  simp only [Option.filter_eq_some_iff, Option.some.injEq]
  constructor
  · rintro ⟨y, ⟨rfl, hlive⟩, hp⟩
    exact ⟨hlive, hp⟩
  · exact fun h => ⟨x, ⟨rfl, h.1⟩, h.2⟩

omit [DecidableEq I] in
/-- The list of an entity that is no orphan loses the document. -/
theorem sources_of_survivor {x : Extracted I D} (horphan : ¬isOrphan d x = true) :
    (if isSurvivor d x = true then x.strip d else x).sources = stripSource d x.sources := by
  split
  case isTrue => rfl
  case isFalse hsurvivor =>
    have hd : d ∉ x.sources := by
      intro hd
      have hpos := List.length_pos_of_mem hd
      have hone : x.sources.length ≠ 1 := fun hlen => horphan (decide_eq_true ⟨hd, hlen⟩)
      exact hsurvivor (decide_eq_true ⟨hd, by omega⟩)
    symm
    unfold stripSource
    rw [List.filter_eq_self]
    intro y hy
    apply decide_eq_true
    rintro rfl
    exact hd hy

theorem id_strip_ite (survivors : List I) (x : Extracted I D) :
    (if x.id ∈ survivors then x.strip d else x).id = x.id := by
  split
  · rfl
  · rfl

/-- What stands under an id after a deletion and a strip. -/
theorem get_stripIds_deleteIds {l : List (Extracted I D)} (hn : (l.map Extracted.id).Nodup)
    (orphans survivors : List I) :
    KeyedMerge.get Extracted.id (stripIds survivors d (deleteIds orphans l)) i =
      ((KeyedMerge.get Extracted.id l i).filter fun _ => decide (i ∉ orphans)).map fun x =>
        if i ∈ survivors then x.strip d else x := by
  unfold stripIds deleteIds
  rw [KeyedMerge.get_map (id_strip_ite survivors), KeyedMerge.get_filter hn]
  cases hget : KeyedMerge.get Extracted.id l i with
  | none => rfl
  | some x =>
      have hid := KeyedMerge.key_of_get hget
      rw [Option.filter_some, Option.filter_some, hid]
      split
      · rw [Option.map_some, Option.map_some, hid]
      · rfl

theorem nodup_stripIds_deleteIds {l : List (Extracted I D)} (hn : (l.map Extracted.id).Nodup)
    (orphans survivors : List I) :
    ((stripIds survivors d (deleteIds orphans l)).map Extracted.id).Nodup := by
  unfold stripIds deleteIds
  rw [KeyedMerge.map_key_map (id_strip_ite survivors)]
  exact hn.sublist (List.filter_sublist.map _)

omit [DecidableEq I] in
theorem fate_sources (x : Extracted I D) :
    fate d x.sources = if isOrphan d x = true then none else some (stripSource d x.sources) := by
  unfold fate isOrphan
  simp only [decide_eq_true_eq]

omit [DecidableEq D] in
/-- The ids that the cascade deletes or strips, for the entity. -/
theorem ForgetState.Holds.mem_idsOf_iff (h : s.Holds now i shown o) (p : Extracted I D → Bool) {x : Extracted I D}
    (hget : KeyedMerge.get Extracted.id s.primary.entities i = some x) :
    i ∈ ForgetState.idsOf p (s.listEntities now) ↔ shown = true ∧ p x = true :=
  h.live x hget ▸ classified_iff h.primaryIds h.count p hget

/-- What a forgotten document leaves of the list in the primary store. -/
theorem ForgetState.Holds.sources_attempt (h : s.Holds now i shown o) (d : D) :
    (KeyedMerge.get Extracted.id (s.attempt ⟨d, now, none⟩).primary.entities i).map Extracted.sources =
      if shown then o.bind (fate d) else o := by
  rw [(s.entities_attempt d now).1, get_stripIds_deleteIds h.primaryIds, ← h.primary]
  cases hget : KeyedMerge.get Extracted.id s.primary.entities i with
  | none => exact (ite_self none).symm
  | some x =>
      rw [Option.map_some, Option.bind_some, Option.filter_some, fate_sources]
      simp only [h.mem_idsOf_iff _ hget]
      cases shown with
      | false => simp
      | true =>
          simp only [true_and, if_true]
          by_cases horphan : isOrphan d x = true
          · rw [if_neg (by simp [horphan]), if_pos horphan]
            rfl
          · rw [if_pos (decide_eq_true horphan), if_neg horphan]
            show some (Extracted.sources _) = _
            congr 1
            exact sources_of_survivor horphan

/-- The mirror keeps the entity exactly if the primary store does. -/
theorem ForgetState.Holds.isSome_attempt (h : s.Holds now i shown o) (d : D) :
    (KeyedMerge.get Extracted.id (s.attempt ⟨d, now, none⟩).mirror.entities i).isSome =
      (if shown then o.bind (fate d) else o).isSome := by
  rw [(s.entities_attempt d now).2, get_stripIds_deleteIds h.mirrorIds, Option.isSome_map]
  cases hget : KeyedMerge.get Extracted.id s.primary.entities i with
  | none =>
      have ho : o = none := by
        rw [← h.primary, hget]
        rfl
      have hnone : KeyedMerge.get Extracted.id s.mirror.entities i = none := by
        rw [← Option.isNone_iff_eq_none, ← Option.not_isSome, h.mirror, ho]
        rfl
      rw [hnone, ho]
      exact (congrArg Option.isSome (ite_self (none : Option (List D)))).symm
  | some x =>
      have ho : o = some x.sources := by
        rw [← h.primary, hget]
        rfl
      have hsome : (KeyedMerge.get Extracted.id s.mirror.entities i).isSome = true := by
        rw [h.mirror, ho]
        rfl
      obtain ⟨y, hy⟩ := Option.isSome_iff_exists.mp hsome
      rw [hy, ho, Option.bind_some, Option.filter_some, fate_sources]
      simp only [h.mem_idsOf_iff _ hget]
      cases shown with
      | false => simp
      | true =>
          simp only [true_and, if_true]
          by_cases horphan : isOrphan d x = true
          · rw [if_neg (by simp [horphan]), if_pos horphan]
            rfl
          · rw [if_pos (decide_eq_true horphan), if_neg horphan]
            rfl

/-- **What one forgotten document does to an entity**: nothing, if the entity is hidden. -/
theorem ForgetState.Holds.attempt (h : s.Holds now i shown o) (d : D) :
    (s.attempt ⟨d, now, none⟩).Holds now i shown (if shown then o.bind (fate d) else o) := by
  obtain ⟨hprimary, hmirror⟩ := s.entities_attempt d now
  refine ⟨?_, ?_, ?_, ?_, h.sources_attempt d, h.isSome_attempt d⟩
  · rw [hprimary]
    exact nodup_stripIds_deleteIds h.primaryIds _ _
  · rw [hmirror]
    exact nodup_stripIds_deleteIds h.mirrorIds _ _
  · rw [hprimary]
    unfold stripIds deleteIds
    rw [List.length_map]
    exact Nat.le_trans (List.length_filter_le _ _) h.count
  · intro y hy
    rw [hprimary, get_stripIds_deleteIds h.primaryIds, Option.map_eq_some_iff] at hy
    obtain ⟨x, hx, rfl⟩ := hy
    rw [← h.live x (Option.filter_eq_some_iff.mp hx).1]
    split
    · rfl
    · rfl

theorem ForgetState.Holds.forgetAll (h : s.Holds now i shown o) (docs : List D) :
    (s.forgetAll now docs).Holds now i shown (if shown then fates docs o else o) := by
  induction docs generalizing s o with
  | nil =>
      cases shown with
      | false => exact h
      | true => exact h
  | cons d docs ih =>
      have hrest := ih (h.attempt d)
      cases shown with
      | false => exact hrest
      | true => exact hrest

omit [DecidableEq D] in
theorem present_iff {s : ExtractionStore I D} :
    s.Present i ↔ (KeyedMerge.get Extracted.id s.entities i).isSome = true := by
  unfold ExtractionStore.Present
  constructor
  · rintro ⟨x, hx, hid⟩
    rw [Option.isSome_iff_ne_none]
    intro hnone
    exact KeyedMerge.get_eq_none_iff.mp hnone x hx hid
  · intro h
    obtain ⟨x, hx⟩ := Option.isSome_iff_exists.mp h
    exact ⟨x, KeyedMerge.mem_of_get hx, KeyedMerge.key_of_get hx⟩

omit [DecidableEq D] in
theorem ForgetState.Holds.present_iff (h : s.Holds now i shown o) :
    (s.primary.Present i ↔ o.isSome = true) ∧ (s.mirror.Present i ↔ o.isSome = true) := by
  rw [Khora.present_iff, Khora.present_iff, h.mirror, ← h.primary, Option.isSome_map]
  exact ⟨Iff.rfl, Iff.rfl⟩

end Holds

/-! ## What the stores list -/

section Stores

variable {I K A D : Type} [DecidableEq K] [DecidableEq D] [DecidableEq A] [EmptyCollection A]
variable {mentions : List (EntityRecord I K A D)} {e : EntityRecord I K A D} {k : K}

theorem upsertAll_concat (mentions : List (EntityRecord I K A D)) (e : EntityRecord I K A D) :
    upsertAll (mentions ++ [e]) = (upsertAll mentions).upsertEntitiesBatch [e] := by
  unfold upsertAll
  rw [List.foldl_append]
  rfl

omit [DecidableEq D] [DecidableEq A] [EmptyCollection A] in
theorem docsOf_concat (k : K) (mentions : List (EntityRecord I K A D)) (e : EntityRecord I K A D) :
    docsOf k (mentions ++ [e]) = docsOf k mentions ++ if e.key = k then e.sources else [] := by
  unfold docsOf
  rw [List.filter_append, List.flatMap_append]
  congr 1
  by_cases h : e.key = k
  · simp [h]
  · simp [h]

/-- Ids and keys of the stores, which come from the mentions. -/
structure SplitEntities.Reflects (s : SplitEntities I K A D) (mentions : List (EntityRecord I K A D)) : Prop where
  row_keys : (s.rows.map EntityRecord.key).Nodup
  node_keys : (s.nodes.map EntityRecord.key).Nodup
  same : ∀ k, idAt s.rows k = idAt s.nodes k
  mentioned : ∀ k i, idAt s.rows k = some i → ∃ e ∈ mentions, e.key = k ∧ e.id = i

theorem reflects_upsertAll (mentions : List (EntityRecord I K A D)) : (upsertAll mentions).Reflects mentions := by
  induction mentions using List.reverseRecOn with
  | nil =>
      refine ⟨List.nodup_nil, List.nodup_nil, fun _ => rfl, fun k i hi => ?_⟩
      cases hi
  | append_singleton mentions e h =>
      rw [upsertAll_concat]
      refine ⟨nodup_upsertRows h.row_keys _, nodup_upsertNodes h.node_keys _, fun k => idAt_upsert_same (h.same k),
        fun k i hi => ?_⟩
      rw [show idAt ((upsertAll mentions).upsertEntitiesBatch [e]).rows k = _ from idAt_upsertRows _ _ _] at hi
      rcases Option.or_eq_some_iff.mp hi with hold | ⟨-, hnew⟩
      · obtain ⟨e', he', hkey⟩ := h.mentioned k i hold
        exact ⟨e', List.mem_append_left _ he', hkey⟩
      · obtain ⟨e', he', hkey⟩ := exists_of_find? hnew
        exact ⟨e', List.mem_append_right _ he', hkey⟩

/-- One mention, in the vector store. -/
theorem get_rows_upsert (s : SplitEntities I K A D) (e : EntityRecord I K A D) (k : K) :
    KeyedMerge.get EntityRecord.key (s.upsertEntitiesBatch [e]).rows k =
      if e.key = k then KeyedMerge.absorb onConflict id (KeyedMerge.get EntityRecord.key s.rows k) e
      else KeyedMerge.get EntityRecord.key s.rows k := by
  apply KeyedMerge.get_mergeOne
  · exact fun _ _ => rfl
  · exact fun _ => rfl

/-- One mention, in the graph, under the id of the row. -/
theorem get_nodes_upsert (s : SplitEntities I K A D) (e : EntityRecord I K A D) (k : K) :
    ∃ e' : EntityRecord I K A D, e'.sources = e.sources ∧ e'.validUntil = e.validUntil ∧
      KeyedMerge.get EntityRecord.key (s.upsertEntitiesBatch [e]).nodes k =
        if e.key = k then KeyedMerge.absorb onMatch id (KeyedMerge.get EntityRecord.key s.nodes k) e'
        else KeyedMerge.get EntityRecord.key s.nodes k := by
  refine ⟨{ e with id := (idAt (upsertRows s.rows [e]) e.key).getD e.id }, rfl, rfl, ?_⟩
  apply KeyedMerge.get_mergeOne
  · exact fun _ _ => rfl
  · exact fun _ => rfl

/-- The time from which the entity under a key is hidden. -/
def closesAt (l : List (EntityRecord I K A D)) (k : K) : Option ℕ :=
  (KeyedMerge.get EntityRecord.key l k).bind EntityRecord.validUntil

/-- Both stores always show the entity. -/
def SplitEntities.OpenAt (s : SplitEntities I K A D) (k : K) : Prop :=
  closesAt s.rows k = none ∧ closesAt s.nodes k = none

/-- The row takes the window of a mention. -/
theorem closesAt_rows (s : SplitEntities I K A D) (e : EntityRecord I K A D) (k : K) :
    closesAt (s.upsertEntitiesBatch [e]).rows k = if e.key = k then e.validUntil else closesAt s.rows k := by
  unfold closesAt
  rw [get_rows_upsert]
  split
  · cases KeyedMerge.get EntityRecord.key s.rows k with
    | none => rfl
    | some r => rfl
  · rfl

/-- The node keeps the window of the first one. -/
theorem closesAt_nodes (s : SplitEntities I K A D) (e : EntityRecord I K A D) (hopen : closesAt s.nodes k = none)
    (he : e.key = k → e.validUntil = none) : closesAt (s.upsertEntitiesBatch [e]).nodes k = none := by
  obtain ⟨e', -, hwindow, hget⟩ := get_nodes_upsert s e k
  unfold closesAt at hopen ⊢
  rw [hget]
  split
  case isTrue hk =>
    revert hopen
    cases KeyedMerge.get EntityRecord.key s.nodes k with
    | none => exact fun _ => hwindow.trans (he hk)
    | some n => exact id
  case isFalse => exact hopen

/-- **The entity is always shown**, if no mention closes its window. -/
theorem openAt_iff : (∀ n, (upsertAll (mentions.take n)).OpenAt k) ↔
    ∀ e ∈ mentions, e.key = k → e.validUntil = none := by
  constructor
  · intro h e he hk
    obtain ⟨i, hi⟩ := List.mem_iff_getElem?.mp he
    have hrow := (h (i + 1)).1
    rw [List.take_add_one, hi, Option.toList_some, upsertAll_concat, closesAt_rows, if_pos hk] at hrow
    exact hrow
  · intro h n
    replace h : ∀ e ∈ mentions.take n, e.key = k → e.validUntil = none := fun e he => h e (List.mem_of_mem_take he)
    generalize mentions.take n = mentions at h
    induction mentions using List.reverseRecOn with
    | nil => exact ⟨rfl, rfl⟩
    | append_singleton mentions e ih =>
        rw [List.forall_mem_append] at h
        obtain ⟨hrow, hnode⟩ := ih h.1
        have he := h.2 e List.mem_cons_self
        rw [upsertAll_concat]
        refine ⟨?_, closesAt_nodes _ e hnode he⟩
        rw [closesAt_rows]
        split
        case isTrue hk => exact he hk
        case isFalse => exact hrow

/-- The list under a key. -/
def sourcesAt (l : List (EntityRecord I K A D)) (k : K) : Option (List D) :=
  (KeyedMerge.get EntityRecord.key l k).map EntityRecord.sources

theorem sourcesAt_rows (s : SplitEntities I K A D) (e : EntityRecord I K A D) (k : K) :
    sourcesAt (s.upsertEntitiesBatch [e]).rows k =
      if e.key = k then
        some ((sourcesAt s.rows k).elim e.sources fun l => accumulateSourceIds sourceDocumentIdsCap l e.sources)
      else sourcesAt s.rows k := by
  unfold sourcesAt
  rw [get_rows_upsert]
  split
  · cases KeyedMerge.get EntityRecord.key s.rows k with
    | none => rfl
    | some r => rfl
  · rfl

theorem sourcesAt_nodes (s : SplitEntities I K A D) (e : EntityRecord I K A D) (k : K) :
    sourcesAt (s.upsertEntitiesBatch [e]).nodes k =
      if e.key = k then
        some ((sourcesAt s.nodes k).elim e.sources fun l => Window.last sourceDocumentIdsCap (l ++ e.sources))
      else sourcesAt s.nodes k := by
  obtain ⟨e', hsources, -, hget⟩ := get_nodes_upsert s e k
  unfold sourcesAt
  rw [hget]
  split
  · cases KeyedMerge.get EntityRecord.key s.nodes k with
    | none => exact congrArg some hsources
    | some n =>
        show some (Window.last sourceDocumentIdsCap (n.sources ++ e'.sources)) = _
        rw [hsources]
        rfl
  · rfl

/-- **The node lists the last mentions.** -/
theorem sourcesAt_nodes_upsertAll (hone : ∀ e ∈ mentions, e.sources.length = 1) (k : K) :
    sourcesAt (upsertAll mentions).nodes k =
      if docsOf k mentions = [] then none else some (Window.last sourceDocumentIdsCap (docsOf k mentions)) := by
  induction mentions using List.reverseRecOn with
  | nil => rfl
  | append_singleton mentions e ih =>
      rw [List.forall_mem_append] at hone
      have hlen : e.sources.length = 1 := hone.2 e List.mem_cons_self
      have hne : e.sources ≠ [] := List.ne_nil_of_length_pos (by omega)
      rw [upsertAll_concat, docsOf_concat, sourcesAt_nodes, ih hone.1]
      by_cases hk : e.key = k
      · rw [if_pos hk, if_pos hk, if_neg (List.append_ne_nil_of_right_ne_nil _ hne)]
        split
        case isTrue hnil =>
          rw [hnil, List.nil_append, Window.last_of_length_le (by rw [hlen]; decide)]
          rfl
        case isFalse =>
          rw [Option.elim_some, Window.last_append_last]
      · rw [if_neg hk, if_neg hk, List.append_nil]

/-- **The row lists each document once**, as long as there are no more than it has room for. -/
theorem sourcesAt_rows_upsertAll (hone : ∀ e ∈ mentions, e.sources.length = 1) {k : K}
    (hcap : (docsOf k mentions).dedup.length ≤ sourceDocumentIdsCap) :
    (docsOf k mentions = [] ∧ sourcesAt (upsertAll mentions).rows k = none) ∨
    ∃ l, sourcesAt (upsertAll mentions).rows k = some l ∧ l.Nodup ∧ ∀ d, d ∈ l ↔ d ∈ docsOf k mentions := by
  induction mentions using List.reverseRecOn with
  | nil => exact .inl ⟨rfl, rfl⟩
  | append_singleton mentions e ih =>
      rw [List.forall_mem_append] at hone
      have hlen : e.sources.length = 1 := hone.2 e List.mem_cons_self
      obtain ⟨d, hd⟩ := List.length_eq_one_iff.mp hlen
      rw [upsertAll_concat, docsOf_concat, sourcesAt_rows]
      rw [docsOf_concat] at hcap
      have hbefore : (docsOf k mentions).dedup.length ≤ sourceDocumentIdsCap := by
        refine Nat.le_trans (List.subperm_of_subset (List.nodup_dedup _) fun x hx => ?_).length_le hcap
        exact List.mem_dedup.mpr (List.mem_append_left _ (List.mem_dedup.mp hx))
      by_cases hk : e.key = k
      · right
        rw [if_pos hk]
        rw [if_pos hk] at hcap ⊢
        rcases ih hone.1 hbefore with ⟨hnil, hnone⟩ | ⟨l, hl, hnodup, hmem⟩
        · refine ⟨e.sources, ?_, ?_, fun x => ?_⟩
          · rw [hnone]
            rfl
          · rw [hd]
            exact List.nodup_singleton d
          · rw [hnil, List.nil_append]
        · have hmem' : ∀ x, x ∈ (l ++ e.sources).dedup ↔ x ∈ docsOf k mentions ++ e.sources := by
            intro x
            rw [List.mem_dedup, List.mem_append, List.mem_append, hmem]
          have hroom : (l ++ e.sources).dedup.length ≤ sourceDocumentIdsCap := by
            refine Nat.le_trans (List.subperm_of_subset (List.nodup_dedup _) fun x hx => ?_).length_le hcap
            exact List.mem_dedup.mpr ((hmem' x).mp hx)
          refine ⟨(l ++ e.sources).dedup, ?_, List.nodup_dedup _, hmem'⟩
          rw [hl, Option.elim_some]
          exact congrArg some (Window.last_of_length_le hroom)
      · rw [if_neg hk]
        rw [if_neg hk, List.append_nil]
        exact ih hone.1 hbefore

end Stores

/-! ## Listing and forgetting -/

section Provenance

variable {I K A D : Type} [DecidableEq I] [DecidableEq K] [DecidableEq D] [DecidableEq A] [EmptyCollection A]
variable {mentions : List (EntityRecord I K A D)} {k : K} {i : I}

/-- What a namespace gives the cascade: an id belongs to one entity, a mention has one document, and the
cascade scans all entities. -/
structure Extractions (mentions : List (EntityRecord I K A D)) : Prop where
  ids : ∀ e ∈ mentions, ∀ e' ∈ mentions, e.id = e'.id → e.key = e'.key
  one : ∀ e ∈ mentions, e.sources.length = 1
  count : (mentions.map EntityRecord.key).dedup.length ≤ scanLimit

omit [DecidableEq I] [DecidableEq D] [DecidableEq A] [EmptyCollection A] in
theorem Extractions.take (h : Extractions mentions) (n : ℕ) : Extractions (mentions.take n) where
  ids := fun e he e' he' => h.ids e (List.mem_of_mem_take he) e' (List.mem_of_mem_take he')
  one := fun e he => h.one e (List.mem_of_mem_take he)
  count := by
    rw [List.map_take]
    exact Nat.le_trans (Window.dedup_length_take_le _ n) h.count

/-- A store whose ids come from the mentions, as the cascade has it. -/
structure ReadyStore (mentions l : List (EntityRecord I K A D)) : Prop where
  keys : (l.map EntityRecord.key).Nodup
  mentioned : ∀ k i, idAt l k = some i → ∃ e ∈ mentions, e.key = k ∧ e.id = i

omit [DecidableEq I] in
theorem readyStore_upsertAll (mentions : List (EntityRecord I K A D)) :
    ReadyStore mentions (upsertAll mentions).rows ∧ ReadyStore mentions (upsertAll mentions).nodes := by
  have hreflects := reflects_upsertAll mentions
  refine ⟨⟨hreflects.row_keys, hreflects.mentioned⟩, hreflects.node_keys, fun k i hi => ?_⟩
  exact hreflects.mentioned k i ((hreflects.same k).trans hi)

omit [DecidableEq I] [DecidableEq D] [DecidableEq A] [EmptyCollection A] in
theorem idAt_of_mem {l : List (EntityRecord I K A D)} (hn : (l.map EntityRecord.key).Nodup) {r : EntityRecord I K A D}
    (hr : r ∈ l) : idAt l r.key = some r.id :=
  congrArg (Option.map EntityRecord.id) ((KeyedMerge.mem_iff_get hn).mp hr)

variable {l : List (EntityRecord I K A D)}

omit [DecidableEq I] [DecidableEq D] [DecidableEq A] [EmptyCollection A] in
theorem ReadyStore.ids_nodup (h : ReadyStore mentions l) (hm : Extractions mentions) :
    (l.map EntityRecord.id).Nodup := by
  apply (List.Nodup.of_map _ h.keys).map_on
  intro r hr r' hr' heq
  obtain ⟨e, he, hkey, hid⟩ := h.mentioned _ _ (idAt_of_mem h.keys hr)
  obtain ⟨e', he', hkey', hid'⟩ := h.mentioned _ _ (idAt_of_mem h.keys hr')
  apply List.inj_on_of_nodup_map h.keys hr hr'
  rw [← hkey, ← hkey']
  exact hm.ids e he e' he' (hid.trans (heq.trans hid'.symm))

omit [DecidableEq I] [DecidableEq D] [DecidableEq A] [EmptyCollection A] in
theorem ReadyStore.length_le (h : ReadyStore mentions l) (hm : Extractions mentions) : l.length ≤ scanLimit := by
  have hsub : l.map EntityRecord.key ⊆ (mentions.map EntityRecord.key).dedup := by
    intro k hk
    obtain ⟨r, hr, rfl⟩ := List.mem_map.mp hk
    obtain ⟨e, he, hkey, -⟩ := h.mentioned _ _ (idAt_of_mem h.keys hr)
    exact List.mem_dedup.mpr (hkey ▸ List.mem_map_of_mem he)
  have hle := (List.subperm_of_subset h.keys hsub).length_le
  rw [List.length_map] at hle
  exact Nat.le_trans hle hm.count

omit [DecidableEq I] [DecidableEq K] [DecidableEq D] [DecidableEq A] [EmptyCollection A] in
theorem map_id_extract (l : List (EntityRecord I K A D)) :
    (l.map EntityRecord.extract).map Extracted.id = l.map EntityRecord.id := by
  rw [List.map_map]
  rfl

omit [DecidableEq D] [DecidableEq A] [EmptyCollection A] in
/-- An entity, found by its id. -/
theorem ReadyStore.get_extract (h : ReadyStore mentions l) (hm : Extractions mentions) (hi : idAt l k = some i) :
    ∃ x, KeyedMerge.get Extracted.id (l.map EntityRecord.extract) i = some x ∧ sourcesAt l k = some x.sources ∧
      closesAt l k = x.validUntil := by
  obtain ⟨r, hget, rfl⟩ := Option.map_eq_some_iff.mp hi
  have hmem : r.extract ∈ l.map EntityRecord.extract := List.mem_map_of_mem (KeyedMerge.mem_of_get hget)
  refine ⟨r.extract, (KeyedMerge.mem_iff_get ((map_id_extract l).symm ▸ h.ids_nodup hm)).mp hmem, ?_, ?_⟩
  · unfold sourcesAt
    rw [hget]
    rfl
  · unfold closesAt
    rw [hget]
    rfl

/-- The store that is the primary one. -/
def SplitEntities.primary (s : SplitEntities I K A D) (graphPrimary : Bool) : List (EntityRecord I K A D) :=
  if graphPrimary then s.nodes else s.rows

/-- The cascade starts with the entity of the primary store. -/
theorem holds_forgetState (hm : Extractions mentions) (hi : idAt (upsertAll mentions).rows k = some i)
    (graphPrimary : Bool) (now : ℕ) (rowEdges nodeEdges : List (Extracted I D)) :
    ∃ sources, sourcesAt ((upsertAll mentions).primary graphPrimary) k = some sources ∧
      ((upsertAll mentions).forgetState graphPrimary rowEdges nodeEdges).Holds now i
        ((closesAt ((upsertAll mentions).primary graphPrimary) k).all fun t => decide (now < t)) (some sources) := by
  obtain ⟨hrows, hnodes⟩ := readyStore_upsertAll mentions
  have hi' : idAt (upsertAll mentions).nodes k = some i := ((reflects_upsertAll mentions).same k).symm.trans hi
  have hstore : ∀ {p q : List (EntityRecord I K A D)} (pE qE : List (Extracted I D)), ReadyStore mentions p →
      ReadyStore mentions q → idAt p k = some i → idAt q k = some i → ∃ sources, sourcesAt p k = some sources ∧
        ForgetState.Holds ⟨⟨p.map EntityRecord.extract, pE⟩, ⟨q.map EntityRecord.extract, qE⟩, [], []⟩ now i
          ((closesAt p k).all fun t => decide (now < t)) (some sources) := by
    intro p q pE qE hp hq hpi hqi
    obtain ⟨x, hget, hsources, hcloses⟩ := hp.get_extract hm hpi
    obtain ⟨y, hget', -, -⟩ := hq.get_extract hm hqi
    refine ⟨x.sources, hsources, ?_, ?_, ?_, ?_, ?_, ?_⟩
    · rw [map_id_extract]
      exact hp.ids_nodup hm
    · rw [map_id_extract]
      exact hq.ids_nodup hm
    · rw [List.length_map]
      exact hp.length_le hm
    · intro z hz
      rw [← Option.some.inj (hget.symm.trans hz), hcloses]
      rfl
    · exact congrArg (Option.map Extracted.sources) hget
    · exact congrArg Option.isSome hget'
  cases graphPrimary with
  | true => exact hstore nodeEdges rowEdges hnodes hrows hi' hi
  | false => exact hstore rowEdges nodeEdges hrows hnodes hi hi'

omit [DecidableEq I] in
/-- Both stores know the entity under the id of the row. -/
theorem idAt_primary (graphPrimary : Bool) :
    idAt ((upsertAll mentions).primary graphPrimary) k = idAt (upsertAll mentions).rows k := by
  cases graphPrimary with
  | true => exact ((reflects_upsertAll mentions).same k).symm
  | false => rfl

/-- A hidden entity is not forgotten. -/
theorem openAt_of_keepsProvenance (hm : Extractions mentions) (h : KeepsProvenance mentions k) :
    (upsertAll mentions).OpenAt k := by
  have hstore : ∀ graphPrimary, closesAt ((upsertAll mentions).primary graphPrimary) k = none := by
    intro graphPrimary
    by_contra hclosed
    obtain ⟨t, ht⟩ := Option.ne_none_iff_exists'.mp hclosed
    obtain ⟨r, hget, -⟩ := Option.bind_eq_some_iff.mp ht
    have hi : idAt (upsertAll mentions).rows k = some r.id :=
      (idAt_primary graphPrimary).symm.trans (congrArg (Option.map EntityRecord.id) hget)
    -- from that time on the cascade does not list it, whatever is forgotten
    obtain ⟨sources, -, hholds⟩ := holds_forgetState hm hi graphPrimary t [] []
    rw [ht, Option.all_some, decide_eq_false (Nat.lt_irrefl t)] at hholds
    have hpresent := (hholds.forgetAll (docsOf k mentions)).present_iff.1.mpr rfl
    obtain ⟨d, hd, hleft⟩ := (h.forgotten r.id hi graphPrimary t [] [] _).1.mp hpresent
    exact hleft hd
  exact ⟨hstore false, hstore true⟩

omit [DecidableEq I] in
/-- The node of an entity that is mentioned, with the last documents of its mentions. -/
theorem exists_node (hm : Extractions mentions) (hdocs : docsOf k mentions ≠ []) :
    ∃ n, KeyedMerge.get EntityRecord.key (upsertAll mentions).nodes k = some n ∧
      n.sources = Window.last sourceDocumentIdsCap (docsOf k mentions) ∧
      idAt (upsertAll mentions).rows k = some n.id := by
  have hnodes := sourcesAt_nodes_upsertAll hm.one k
  rw [if_neg hdocs] at hnodes
  obtain ⟨n, hn, hsources⟩ := Option.map_eq_some_iff.mp hnodes
  refine ⟨n, hn, hsources, ?_⟩
  rw [(reflects_upsertAll mentions).same k]
  exact congrArg (Option.map EntityRecord.id) hn

theorem keepsProvenance_unmentioned (hm : Extractions mentions) (hdocs : docsOf k mentions = []) :
    KeepsProvenance mentions k ∧ (upsertAll mentions).OpenAt k := by
  have hnodes := sourcesAt_nodes_upsertAll hm.one k
  rw [if_pos hdocs] at hnodes
  have hid : idAt (upsertAll mentions).rows k = none := by
    rw [(reflects_upsertAll mentions).same k]
    exact Option.map_eq_none_iff.mpr (Option.map_eq_none_iff.mp hnodes)
  refine ⟨⟨?_, ?_, fun i hi => ?_⟩, ?_, ?_⟩
  · simp [hdocs]
  · simp [hdocs]
  · rw [hid] at hi
    cases hi
  · exact congrArg (Option.bind · EntityRecord.validUntil) (Option.map_eq_none_iff.mp hid)
  · exact congrArg (Option.bind · EntityRecord.validUntil) (Option.map_eq_none_iff.mp hnodes)

/-- A document that the node lists twice is not forgotten. -/
theorem nodup_of_keepsProvenance (hm : Extractions mentions) (hdocs : docsOf k mentions ≠ [])
    (h : KeepsProvenance mentions k) : (Window.last sourceDocumentIdsCap (docsOf k mentions)).Nodup := by
  obtain ⟨n, -, -, hi⟩ := exists_node hm hdocs
  have hnodes := sourcesAt_nodes_upsertAll hm.one k
  rw [if_neg hdocs] at hnodes
  by_contra hrepeat
  rw [List.nodup_iff_count_le_one] at hrepeat
  simp only [not_forall, Nat.not_le] at hrepeat
  obtain ⟨d, hcount⟩ := hrepeat
  -- forget all documents, and the repeated one last
  obtain ⟨sources, hlist, hholds⟩ := holds_forgetState hm hi true 0 [] []
  obtain rfl := Option.some.inj (hnodes.symm.trans hlist)
  rw [show closesAt ((upsertAll mentions).primary true) k = none from (openAt_of_keepsProvenance hm h).2] at hholds
  have hstays := fates_of_repeat (stripSource d (docsOf k mentions)) hcount
    fun hin => (mem_stripSource.mp hin).2 rfl
  have hpresent := (hholds.forgetAll (stripSource d (docsOf k mentions) ++ [d])).present_iff.1.mpr hstays
  obtain ⟨c, hc, hleft⟩ := (h.forgotten n.id hi true 0 [] [] _).1.mp hpresent
  by_cases hcd : c = d
  · exact hleft (List.mem_append_right _ (List.mem_singleton.mpr hcd))
  · exact hleft (List.mem_append_left _ (mem_stripSource.mpr ⟨hc, hcd⟩))

/-- If both lists have each document once and both stores show the entity, then it goes with its last
document. -/
theorem keepsProvenance_of_nodup (hm : Extractions mentions)
    (hcap : (docsOf k mentions).dedup.length ≤ sourceDocumentIdsCap) (hdocs : docsOf k mentions ≠ [])
    (hnodup' : (Window.last sourceDocumentIdsCap (docsOf k mentions)).Nodup)
    (hcovers : ∀ d ∈ docsOf k mentions, d ∈ Window.last sourceDocumentIdsCap (docsOf k mentions))
    (hopen : (upsertAll mentions).OpenAt k) : KeepsProvenance mentions k := by
  have hnodes := sourcesAt_nodes_upsertAll hm.one k
  rw [if_neg hdocs] at hnodes
  obtain ⟨n, hn, hsources, -⟩ := exists_node hm hdocs
  rcases sourcesAt_rows_upsertAll hm.one hcap with ⟨hnil, -⟩ | ⟨l, hrow, hnodup, hmem⟩
  · exact absurd hnil hdocs
  have hmem' : ∀ d, d ∈ Window.last sourceDocumentIdsCap (docsOf k mentions) ↔ d ∈ docsOf k mentions :=
    fun d => ⟨Window.mem_of_mem_last, hcovers d⟩
  refine ⟨fun d hd => ?_, fun d hd => ?_, ?_⟩
  · obtain ⟨r, hr, rfl⟩ := Option.map_eq_some_iff.mp hrow
    exact ⟨r, KeyedMerge.mem_of_get hr, KeyedMerge.key_of_get hr, (hmem d).mpr hd⟩
  · refine ⟨n, KeyedMerge.mem_of_get hn, KeyedMerge.key_of_get hn, ?_⟩
    rw [hsources]
    exact hcovers d hd
  · intro i' hi' graphPrimary now rowEdges nodeEdges docs
    obtain ⟨S, hS, hholds⟩ := holds_forgetState hm hi' graphPrimary now rowEdges nodeEdges
    -- either list has each document once
    have hlist : closesAt ((upsertAll mentions).primary graphPrimary) k = none ∧ S.Nodup ∧
        ∀ d, d ∈ S ↔ d ∈ docsOf k mentions := by
      cases graphPrimary with
      | true =>
          obtain rfl := Option.some.inj (hnodes.symm.trans hS)
          exact ⟨hopen.2, hnodup', hmem'⟩
      | false =>
          obtain rfl := Option.some.inj (hrow.symm.trans hS)
          exact ⟨hopen.1, hnodup, hmem⟩
    obtain ⟨hshown, hSnodup, hSmem⟩ := hlist
    rw [hshown] at hholds
    replace hholds := hholds.forgetAll docs
    obtain ⟨d, hd⟩ := List.exists_mem_of_ne_nil _ hdocs
    have hfates := fates_of_nodup docs hSnodup (List.ne_nil_of_mem ((hSmem d).mpr hd))
    simp only [hSmem] at hfates
    exact ⟨hholds.present_iff.1.trans hfates, hholds.present_iff.2.trans hfates⟩

/-- At one time: the node must have each document exactly once, and both stores must show the entity. -/
theorem keepsProvenance_iff (hm : Extractions mentions)
    (hcap : (docsOf k mentions).dedup.length ≤ sourceDocumentIdsCap) :
    KeepsProvenance mentions k ↔ ((Window.last sourceDocumentIdsCap (docsOf k mentions)).Nodup ∧
      ∀ d ∈ docsOf k mentions, d ∈ Window.last sourceDocumentIdsCap (docsOf k mentions)) ∧
      (upsertAll mentions).OpenAt k := by
  by_cases hdocs : docsOf k mentions = []
  · obtain ⟨hkeeps, hopen⟩ := keepsProvenance_unmentioned hm hdocs
    refine iff_of_true hkeeps ⟨?_, hopen⟩
    rw [hdocs]
    exact ⟨List.nodup_nil, fun d hd => absurd hd List.not_mem_nil⟩
  constructor
  · intro h
    refine ⟨⟨nodup_of_keepsProvenance hm hdocs h, fun d hd => ?_⟩, openAt_of_keepsProvenance hm h⟩
    obtain ⟨n, hn, hsources, -⟩ := exists_node hm hdocs
    obtain ⟨n', hn', hkey, hd'⟩ := h.nodes d hd
    have hget := (KeyedMerge.mem_iff_get (reflects_upsertAll mentions).node_keys).mp hn'
    rw [hkey, hn] at hget
    rw [← hsources, Option.some.inj hget]
    exact hd'
  · rintro ⟨⟨hnodup, hcovers⟩, hopen⟩
    exact keepsProvenance_of_nodup hm hcap hdocs hnodup hcovers hopen

omit [DecidableEq I] [DecidableEq D] [DecidableEq A] [EmptyCollection A] in
/-- The documents of some of the mentions, and the other way round. -/
theorem docsOf_take (hone : ∀ e ∈ mentions, e.sources.length = 1) (k : K) :
    (∀ n, ∃ m, docsOf k (mentions.take n) = (docsOf k mentions).take m) ∧
      ∀ m, ∃ n, docsOf k (mentions.take n) = (docsOf k mentions).take m := by
  induction mentions with
  | nil => exact ⟨fun n => ⟨0, by simp [docsOf]⟩, fun m => ⟨0, by simp [docsOf]⟩⟩
  | cons e mentions ih =>
      rw [List.forall_mem_cons] at hone
      obtain ⟨hto, hfrom⟩ := ih hone.2
      obtain ⟨d, hd⟩ := List.length_eq_one_iff.mp hone.1
      have hcons : ∀ rest : List (EntityRecord I K A D),
          docsOf k (e :: rest) = if e.key = k then d :: docsOf k rest else docsOf k rest := by
        intro rest
        unfold docsOf
        by_cases hk : e.key = k
        · simp [hk, hd]
        · simp [hk]
      rw [hcons]
      constructor
      · intro n
        cases n with
        | zero => exact ⟨0, rfl⟩
        | succ n =>
            obtain ⟨m, hm⟩ := hto n
            rw [List.take_succ_cons, hcons, hm]
            by_cases hk : e.key = k
            · exact ⟨m + 1, by rw [if_pos hk, if_pos hk, List.take_succ_cons]⟩
            · exact ⟨m, by rw [if_neg hk, if_neg hk]⟩
      · intro m
        by_cases hk : e.key = k
        · cases m with
          | zero => exact ⟨0, rfl⟩
          | succ m =>
              obtain ⟨n, hn⟩ := hfrom m
              exact ⟨n + 1, by rw [List.take_succ_cons, hcons, hn, if_pos hk, if_pos hk, List.take_succ_cons]⟩
        · obtain ⟨n, hn⟩ := hfrom m
          exact ⟨n + 1, by rw [List.take_succ_cons, hcons, hn, if_neg hk, if_neg hk]⟩

/-- **The provenance of an entity that at most a hundred documents mention** is complete in both
stores and forgotten exactly with its last document, after every mention, if and only if no document
is mentioned twice within a hundred mentions of the entity and no mention closes its window. -/
theorem provenance_iff (mentions : List (EntityRecord I K A D)) (hm : Extractions mentions) (k : K)
    (hcap : (docsOf k mentions).dedup.length ≤ sourceDocumentIdsCap) :
    (∀ n, KeepsProvenance (mentions.take n) k) ↔
      Window.Spaced sourceDocumentIdsCap (docsOf k mentions) ∧ ∀ e ∈ mentions, e.key = k → e.validUntil = none := by
  obtain ⟨hto, hfrom⟩ := docsOf_take hm.one k
  have hat : ∀ n, (docsOf k (mentions.take n)).dedup.length ≤ sourceDocumentIdsCap := by
    intro n
    obtain ⟨m, hm'⟩ := hto n
    rw [hm']
    exact Nat.le_trans (Window.dedup_length_take_le _ m) hcap
  rw [← Window.spaced_iff hcap, ← openAt_iff]
  constructor
  · intro h
    refine ⟨fun m => ?_, fun n => ((keepsProvenance_iff (hm.take n) (hat n)).mp (h n)).2⟩
    obtain ⟨n, hn⟩ := hfrom m
    rw [← hn]
    exact ((keepsProvenance_iff (hm.take n) (hat n)).mp (h n)).1
  · rintro ⟨h, hopen⟩ n
    obtain ⟨m, hm'⟩ := hto n
    rw [keepsProvenance_iff (hm.take n) (hat n), hm']
    exact ⟨h m, hopen n⟩

end Provenance

/-- Two documents of an entity, one mention each, and in between another entity, whose window closes. -/
def twoDocuments : List (EntityRecord ℕ ℕ (List ℕ) ℕ) :=
  [mentionOf 10 1 5, { mentionOf 20 2 5 with validUntil := some 3 }, mentionOf 11 1 6]

theorem twoDocuments_kept : Extractions twoDocuments ∧ ∀ n, KeepsProvenance (twoDocuments.take n) 1 := by
  have hm : Extractions twoDocuments := ⟨by decide, by decide, by decide⟩
  refine ⟨hm, (provenance_iff _ hm 1 (by decide)).mpr ⟨?_, by decide⟩⟩
  apply Window.spaced_of_nodup
  decide

/-- **A document that is extracted twice and then forgotten**, with the graph as primary store: the
entity outlives its only document. -/
theorem reextraction_outlives : Extractions [mentionOf 10 1 5, mentionOf 11 1 5] ∧
    (docsOf 1 [mentionOf 10 1 5, mentionOf 11 1 5]).dedup.length ≤ sourceDocumentIdsCap ∧
    ¬∀ n, KeepsProvenance ([mentionOf 10 1 5, mentionOf 11 1 5].take n) 1 := by
  refine ⟨⟨by decide, by decide, by decide⟩, by decide, fun h => ?_⟩
  have hforgotten := (h 2).forgotten 10 (by decide) true 0 [] [] [5]
  have hpresent : ((upsertAll [mentionOf 10 1 5, mentionOf 11 1 5]).forgetState true [] []
      |>.forgetAll 0 [5]).primary.Present 10 := ⟨⟨10, [], [], none⟩, by decide, rfl⟩
  obtain ⟨d, hd, hleft⟩ := hforgotten.1.mp hpresent
  have hdoc : ∀ d ∈ docsOf 1 [mentionOf 10 1 5, mentionOf 11 1 5], d ∈ [5] := by decide
  exact hleft (hdoc d hd)

end Khora
