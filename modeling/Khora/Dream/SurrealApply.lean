import Khora.Dream.GraphMirror
import Mathlib.Data.Nat.Pairing

/-!
# Dedupe of entities on three stores

On the unified SurrealDB store an edge cannot be redirected in place: the handler
soft-deletes the edges of the absorbed entity and creates new ones at the canonical
entity, under ids made from the old ones.  The `UNIQUE` index on `rel_id` refuses an id
that is there, so the ids it makes have to be new.

* `fresh_surrealMerge` — where no live edge has an id made before, a merge goes through
  and this stays so.
* `surreal_triples` — the live edges after the handler are those of the substitution, up
  to their ids.
* `dedupe_substitutes` — the SQL store, the mirrored graph and SurrealDB have the live
  edges of one simultaneous substitution.
-/

namespace Khora

variable {Id T : Type}

/-! ## The handler -/

/-- The columns of `relates_to` that the handler reads or writes; those it copies to the
new edge are left out. -/
structure RelatesTo (Id T : Type) where
  relId : Id
  inId : Id
  outId : Id
  relationshipType : String
  validUntil : Option T
deriving DecidableEq

structure SurrealTables (Id T : Type) where
  relatesTo : Table Id (RelatesTo Id T) RelatesTo.relId
  entities : Table Id (Entity Id T) Entity.id

section Apply

theorem relId_retired (now : T) (e : RelatesTo Id T) : { e with validUntil := some now }.relId = e.relId := rfl

theorem id_retired (now : T) (e : Entity Id T) : { e with validUntil := some now }.id = e.id := rfl

variable [DecidableEq Id]

/-- The edge is live and has the entity at one of its ends. -/
def RelatesTo.touches (a : Id) (e : RelatesTo Id T) : Bool :=
  (decide (e.inId = a) || decide (e.outId = a)) && e.validUntil.isNone

/-- The edge at the canonical entity, under the id made from the old one. -/
def RelatesTo.repointed (mint : Id → Id → Id) (c a : Id) (e : RelatesTo Id T) : RelatesTo Id T :=
  ⟨mint e.relId c, redirect c a e.inId, redirect c a e.outId, e.relationshipType, none⟩

def RelatesTo.loops (c a : Id) (e : RelatesTo Id T) : Bool :=
  decide (redirect c a e.inId = redirect c a e.outId)

/-- The statements for one edge: the soft-delete, and the new edge unless it would be a
self-loop. -/
def repoint (mint : Id → Id → Id) (now : T) (c a : Id)
    (t : Table Id (RelatesTo Id T) RelatesTo.relId) (row : RelatesTo Id T) :
    Option (Table Id (RelatesTo Id T) RelatesTo.relId) :=
  let retired := t.update (fun e => decide (e.relId = row.relId) && e.validUntil.isNone)
    (fun e => { e with validUntil := some now }) (relId_retired now)
  if row.loops c a then some retired else retired.insert (row.repointed mint c a)

/-- One merge; `none` where the index refuses an id. -/
def surrealMerge (mint : Id → Id → Id) (now : T) (s : SurrealTables Id T) (entry : MergeEntry Id) :
    Option (SurrealTables Id T) := do
  let rows := s.relatesTo.rows.filter (RelatesTo.touches entry.absorbedId)
  let relatesTo ← rows.foldlM (repoint mint now entry.canonicalId entry.absorbedId) s.relatesTo
  let entities := s.entities.update (fun e => decide (e.id = entry.absorbedId) && e.validUntil.isNone)
    (fun e => { e with validUntil := some now }) (id_retired now)
  return ⟨relatesTo, entities⟩

/-- `_apply_dedupe_entities`: no verifier is run. -/
def surrealApplyDedupeEntities (mint : Id → Id → Id) (now : T) (op : DedupeOp Id)
    (s : SurrealTables Id T) : Option (SurrealTables Id T) :=
  op.merges.foldlM (surrealMerge mint now) s

end Apply

/-! ## One merge -/

section Merge

variable [DecidableEq Id] {mint : Id → Id → Id} {now : T} {c a : Id}

/-- The stamp on the edges of the ids. -/
def retireEdges (now : T) (ids : List Id) (e : RelatesTo Id T) : RelatesTo Id T :=
  if e.relId ∈ ids ∧ e.validUntil = none then { e with validUntil := some now } else e

theorem retireEdges_of_not_mem {ids : List Id} {e : RelatesTo Id T} (h : e.relId ∉ ids) :
    retireEdges now ids e = e := by
  unfold retireEdges
  rw [if_neg fun h' => h h'.1]

theorem retireEdges_cons (i : Id) (ids : List Id) (e : RelatesTo Id T) :
    retireEdges now ids (if (decide (e.relId = i) && e.validUntil.isNone) = true then
      { e with validUntil := some now } else e) = retireEdges now (i :: ids) e := by
  unfold retireEdges
  by_cases hi : e.relId = i
  · cases hv : e.validUntil
    · simp [hi]
    · simp [hi, hv]
  · simp [hi]

/-- The statements of one merge, where the ids they make are new. -/
theorem foldlM_repoint (hmint : Function.Injective2 mint) (rows : List (RelatesTo Id T)) :
    ∀ t : Table Id (RelatesTo Id T) RelatesTo.relId, (rows.map RelatesTo.relId).Nodup →
    (∀ row ∈ rows, row.relId ∈ t.rows.map RelatesTo.relId) →
    (∀ row ∈ rows, mint row.relId c ∉ t.rows.map RelatesTo.relId) →
    ∃ t', rows.foldlM (repoint mint now c a) t = some t' ∧
      t'.rows = t.rows.map (retireEdges now (rows.map RelatesTo.relId)) ++
        (rows.filter fun row => !row.loops c a).map (RelatesTo.repointed mint c a) := by
  induction rows with
  | nil =>
      intro t _ _ _
      refine ⟨t, rfl, ?_⟩
      have hid : ∀ e ∈ t.rows, retireEdges now [] e = e := fun e _ => retireEdges_of_not_mem (by simp)
      simp [Table.map_eq_self.mpr hid]
  | cons row rows ih =>
      intro t hn hin hnew
      rw [List.map_cons, List.nodup_cons] at hn
      have hkeys : ∀ p f hf, (t.update p f hf).rows.map RelatesTo.relId = t.rows.map RelatesTo.relId :=
        fun p f hf => Table.map_key_update p f hf t.rows
      have hin' : ∀ r ∈ rows, r.relId ∈ t.rows.map RelatesTo.relId :=
        fun r hr => hin r (List.mem_cons_of_mem _ hr)
      have hnew' : ∀ r ∈ rows, mint r.relId c ∉ t.rows.map RelatesTo.relId :=
        fun r hr => hnew r (List.mem_cons_of_mem _ hr)
      cases hloops : row.loops c a with
      | true =>
          have hstep : repoint mint now c a t row = some (t.update
              (fun e => decide (e.relId = row.relId) && e.validUntil.isNone)
              (fun e => { e with validUntil := some now }) fun _ => rfl) := by
            simp [repoint, hloops]
          obtain ⟨t', hfold, hrows⟩ := ih (t.update
            (fun e => decide (e.relId = row.relId) && e.validUntil.isNone)
            (fun e => { e with validUntil := some now }) fun _ => rfl) hn.2
            (by rw [hkeys]; exact hin') (by rw [hkeys]; exact hnew')
          refine ⟨t', ?_, ?_⟩
          · rw [List.foldlM_cons, hstep]
            exact hfold
          · rw [hrows, Table.rows_update, List.map_map, List.filter_cons_of_neg (by simp [hloops])]
            congr 1
            apply List.map_congr_left
            intro e _
            exact retireEdges_cons row.relId _ e
      | false =>
          have hfresh := hnew row List.mem_cons_self
          obtain ⟨t₁, hins, hrows₁⟩ := @Table.insert_of_fresh _ _ _ _ (t.update
            (fun e => decide (e.relId = row.relId) && e.validUntil.isNone)
            (fun e => { e with validUntil := some now }) fun _ => rfl) (row.repointed mint c a)
            (by rw [hkeys]; exact hfresh)
          have hkeys₁ : t₁.rows.map RelatesTo.relId = t.rows.map RelatesTo.relId ++ [mint row.relId c] := by
            rw [hrows₁, List.map_append, hkeys]
            rfl
          have hstep : repoint mint now c a t row = some t₁ := by
            simp only [repoint, hloops]
            exact hins
          have hin₁ : ∀ r ∈ rows, r.relId ∈ t₁.rows.map RelatesTo.relId := by
            intro r hr
            rw [hkeys₁]
            exact List.mem_append_left _ (hin' r hr)
          have hnew₁ : ∀ r ∈ rows, mint r.relId c ∉ t₁.rows.map RelatesTo.relId := by
            intro r hr h
            rw [hkeys₁, List.mem_append, List.mem_singleton] at h
            rcases h with h | h
            · exact hnew' r hr h
            · apply hn.1
              rw [← (hmint h).1]
              exact List.mem_map.mpr ⟨r, hr, rfl⟩
          obtain ⟨t', hfold, hrows⟩ := ih t₁ hn.2 hin₁ hnew₁
          refine ⟨t', ?_, ?_⟩
          · rw [List.foldlM_cons, hstep]
            exact hfold
          · -- the statements that follow do not reach the edge just made
            have hother : (row.repointed mint c a).relId ∉ rows.map RelatesTo.relId := by
              intro h
              obtain ⟨r, hr, hid⟩ := List.mem_map.mp h
              apply hfresh
              have hmem := hin' r hr
              rw [hid] at hmem
              exact hmem
            rw [hrows, hrows₁, List.map_append, List.map_singleton, retireEdges_of_not_mem hother,
              Table.rows_update, List.map_map, List.filter_cons_of_pos (by simp [hloops]),
              List.map_cons, List.append_assoc, List.singleton_append]
            congr 1
            apply List.map_congr_left
            intro e _
            exact retireEdges_cons row.relId _ e

/-! ## New ids -/

/-- No chain of ids made from a live edge's is in the table. -/
def SurrealTables.Fresh (mint : Id → Id → Id) (s : SurrealTables Id T) : Prop :=
  ∀ e ∈ s.relatesTo.rows, e.validUntil = none → ∀ (cs : List Id) (d : Id),
    mint (cs.foldl mint e.relId) d ∉ s.relatesTo.rows.map RelatesTo.relId

omit [DecidableEq Id] in
/-- A store none of whose ids was made by the handler. -/
theorem fresh_of_not_minted {s : SurrealTables Id T}
    (h : ∀ x d, mint x d ∉ s.relatesTo.rows.map RelatesTo.relId) : s.Fresh mint :=
  fun _ _ _ _ d => h _ d

/-- One merge on the edges. -/
theorem relatesTo_surrealMerge (hmint : Function.Injective2 mint) {s : SurrealTables Id T}
    (hfresh : s.Fresh mint) (entry : MergeEntry Id) :
    ∃ s', surrealMerge mint now s entry = some s' ∧
      s'.relatesTo.rows =
        s.relatesTo.rows.map (retireEdges now
          ((s.relatesTo.rows.filter (RelatesTo.touches entry.absorbedId)).map RelatesTo.relId)) ++
        ((s.relatesTo.rows.filter (RelatesTo.touches entry.absorbedId)).filter fun row =>
          !row.loops entry.canonicalId entry.absorbedId).map
          (RelatesTo.repointed mint entry.canonicalId entry.absorbedId) := by
  have hlive : ∀ row ∈ s.relatesTo.rows.filter (RelatesTo.touches entry.absorbedId),
      row ∈ s.relatesTo.rows ∧ row.validUntil = none := by
    intro row hrow
    rw [List.mem_filter, RelatesTo.touches, Bool.and_eq_true, Option.isNone_iff_eq_none] at hrow
    exact ⟨hrow.1, hrow.2.2⟩
  obtain ⟨t, ht, hrows⟩ := @foldlM_repoint _ _ _ mint now entry.canonicalId entry.absorbedId hmint
    (s.relatesTo.rows.filter (RelatesTo.touches entry.absorbedId)) s.relatesTo
    (Table.nodup_filter s.relatesTo.nodup _)
    (fun row hrow => List.mem_map.mpr ⟨row, (hlive row hrow).1, rfl⟩)
    (fun row hrow => hfresh row (hlive row hrow).1 (hlive row hrow).2 [] entry.canonicalId)
  refine ⟨⟨t, s.entities.update
    (fun e => decide (e.id = entry.absorbedId) && e.validUntil.isNone)
    (fun e => { e with validUntil := some now }) fun _ => rfl⟩, ?_, hrows⟩
  unfold surrealMerge
  simp only [ht]
  rfl

theorem touches_live {e : RelatesTo Id T} (h : e.touches a = true) :
    e.validUntil = none := by
  rw [RelatesTo.touches, Bool.and_eq_true, Option.isNone_iff_eq_none] at h
  exact h.2

/-- The live edges after some were retired and others made. -/
theorem live_moved {rows moved : List (RelatesTo Id T)} {ids : List Id} :
    (rows.map (retireEdges now ids) ++ moved.map (RelatesTo.repointed mint c a)).filter
        (fun e => e.validUntil.isNone) =
      (rows.filter fun e => e.validUntil.isNone && decide (e.relId ∉ ids)) ++
        moved.map (RelatesTo.repointed mint c a) := by
  rw [List.filter_append, List.filter_map]
  congr 1
  · have hp : ∀ e ∈ rows, ((fun e : RelatesTo Id T => e.validUntil.isNone) ∘ retireEdges now ids) e =
        (e.validUntil.isNone && decide (e.relId ∉ ids)) := by
      intro e _
      rw [Function.comp_apply]
      unfold retireEdges
      by_cases hmem : e.relId ∈ ids
      · cases hv : e.validUntil
        · simp [hmem]
        · simp [hmem, hv]
      · simp [hmem]
    rw [List.filter_congr hp, Table.map_eq_self]
    intro e he
    rw [List.mem_filter, Bool.and_eq_true, decide_eq_true_eq] at he
    exact retireEdges_of_not_mem he.2.2
  · rw [List.filter_eq_self]
    intro e he
    obtain ⟨row, -, rfl⟩ := List.mem_map.mp he
    rfl

/-- The live edges after a merge: those it left alone, and those it made. -/
theorem live_surrealMerge {s s' : SurrealTables Id T} {c a : Id}
    (hrows : s'.relatesTo.rows =
      s.relatesTo.rows.map (retireEdges now
        ((s.relatesTo.rows.filter (RelatesTo.touches a)).map RelatesTo.relId)) ++
      ((s.relatesTo.rows.filter (RelatesTo.touches a)).filter fun row => !row.loops c a).map
        (RelatesTo.repointed mint c a)) :
    s'.relatesTo.rows.filter (fun e => e.validUntil.isNone) =
      (s.relatesTo.rows.filter fun e => e.validUntil.isNone && !e.touches a) ++
      ((s.relatesTo.rows.filter (RelatesTo.touches a)).filter fun row => !row.loops c a).map
        (RelatesTo.repointed mint c a) := by
  rw [hrows, live_moved]
  congr 1
  apply List.filter_congr
  intro e he
  have hmem := @Table.key_mem_filter _ _ RelatesTo.relId _ s.relatesTo.nodup (RelatesTo.touches a) _ he
  simp [hmem]

/-- **The ids stay new** where edges are moved that were live. -/
theorem fresh_moved (hmint : Function.Injective2 mint) {s s' : SurrealTables Id T}
    (hfresh : s.Fresh mint) {moved : List (RelatesTo Id T)} {ids : List Id}
    (hmoved : ∀ row ∈ moved, (row ∈ s.relatesTo.rows ∧ row.validUntil = none) ∧ row.relId ∈ ids)
    (hrows : s'.relatesTo.rows = s.relatesTo.rows.map (retireEdges now ids) ++
      moved.map (RelatesTo.repointed mint c a)) : s'.Fresh mint := by
  have hids : ∀ x, x ∈ s'.relatesTo.rows.map RelatesTo.relId →
      x ∈ s.relatesTo.rows.map RelatesTo.relId ∨ ∃ row ∈ moved, x = mint row.relId c := by
    intro x hx
    rw [hrows, List.map_append, List.mem_append, List.map_map] at hx
    rcases hx with hx | hx
    · obtain ⟨e, he, rfl⟩ := List.mem_map.mp hx
      refine .inl (List.mem_map.mpr ⟨e, he, ?_⟩)
      unfold retireEdges
      simp only [Function.comp_apply]
      split
      · rfl
      · rfl
    · obtain ⟨e, he, rfl⟩ := List.mem_map.mp hx
      obtain ⟨row, hrow, rfl⟩ := List.mem_map.mp he
      exact .inr ⟨row, hrow, rfl⟩
  intro e he hv cs d hmem
  have he' : e ∈ s'.relatesTo.rows.filter fun e => e.validUntil.isNone :=
    List.mem_filter.mpr ⟨he, by simp [hv]⟩
  rw [hrows, live_moved, List.mem_append] at he'
  rcases he' with he' | he'
  · rw [List.mem_filter, Bool.and_eq_true, Option.isNone_iff_eq_none, decide_eq_true_eq] at he'
    rcases hids _ hmem with h | ⟨row, hrow, h⟩
    · exact hfresh e he'.1 he'.2.1 cs d h
    · -- the id made from `row` is that of a chain from `e`: then `row` is on the chain
      have hchain := (hmint h).1
      rcases List.eq_nil_or_concat cs with rfl | ⟨cs, d', rfl⟩
      · apply he'.2.2
        rw [show e.relId = row.relId from hchain]
        exact (hmoved row hrow).2
      · apply hfresh e he'.1 he'.2.1 cs d'
        rw [List.concat_eq_append, List.foldl_append] at hchain
        rw [show mint (cs.foldl mint e.relId) d' = row.relId from hchain]
        exact List.mem_map.mpr ⟨row, (hmoved row hrow).1.1, rfl⟩
  · obtain ⟨row₀, hrow₀, rfl⟩ := List.mem_map.mp he'
    obtain ⟨⟨hin₀, hv₀⟩, -⟩ := hmoved row₀ hrow₀
    rcases hids _ hmem with h | ⟨row, hrow, h⟩
    · exact hfresh row₀ hin₀ hv₀ (c :: cs) d h
    · have hchain := (hmint h).1
      have hin := (hmoved row hrow).1.1
      rcases List.eq_nil_or_concat cs with rfl | ⟨cs, d', rfl⟩
      · apply hfresh row₀ hin₀ hv₀ [] c
        rw [show mint (List.foldl mint row₀.relId []) c = row.relId from hchain]
        exact List.mem_map.mpr ⟨row, hin, rfl⟩
      · apply hfresh row₀ hin₀ hv₀ (c :: cs) d'
        rw [List.concat_eq_append, List.foldl_append] at hchain
        rw [show mint (List.foldl mint row₀.relId (c :: cs)) d' = row.relId from hchain]
        exact List.mem_map.mpr ⟨row, hin, rfl⟩

/-- **A merge goes through where the ids are new, and they stay new.** -/
theorem fresh_surrealMerge (hmint : Function.Injective2 mint) {s : SurrealTables Id T}
    (hfresh : s.Fresh mint) (entry : MergeEntry Id) :
    ∃ s', surrealMerge mint now s entry = some s' ∧ s'.Fresh mint := by
  obtain ⟨s', hs', hrows⟩ := @relatesTo_surrealMerge _ _ _ mint now hmint s hfresh entry
  refine ⟨s', hs', fresh_moved hmint hfresh ?_ hrows⟩
  intro row hrow
  have htouched := (List.mem_filter.mp hrow).1
  obtain ⟨hin, htouch⟩ := List.mem_filter.mp htouched
  exact ⟨⟨hin, touches_live htouch⟩, List.mem_map.mpr ⟨row, htouched, rfl⟩⟩

end Merge

/-! ## Triples -/

section Triples

variable [DecidableEq Id] {mint : Id → Id → Id} {now : T} {c a : Id} {as : List Id}

/-- The op on the source, target and type of an edge. -/
def substTriple (c : Id) (as : List Id) (e : Id × Id × String) : Option (Id × Id × String) :=
  if endsCollapse c as e.1 e.2.1 then none
  else some (canonicalOf c as e.1, canonicalOf c as e.2.1, e.2.2)

theorem canonicalOf_singleton (x : Id) : canonicalOf c [a] x = redirect c a x := by
  rw [canonicalOf_cons, canonicalOf_nil]

theorem endsCollapse_nil (x y : Id) : endsCollapse c [] x y = false := by simp [endsCollapse]

/-- Merge by merge, or all at once. -/
theorem substTriple_cons (e : Id × Id × String) :
    substTriple c (a :: as) e = (substTriple c [a] e).bind (substTriple c as) := by
  obtain ⟨x, y, k⟩ := e
  unfold substTriple
  simp only [canonicalOf_cons, canonicalOf_nil]
  by_cases h : x = a ∨ y = a
  · rw [endsCollapse_cons_of_eq h, endsCollapse_cons_of_eq h, endsCollapse_nil, Bool.or_false]
    by_cases heq : redirect c a x = redirect c a y
    · simp [heq]
    · simp [heq]
  · rw [not_or] at h
    rw [endsCollapse_cons_of_ne h.1 h.2, endsCollapse_cons_of_ne h.1 h.2, endsCollapse_nil]
    simp [redirect, h.1, h.2]

def RelatesTo.triple (e : RelatesTo Id T) : Id × Id × String := (e.inId, e.outId, e.relationshipType)

/-- The live edges of the store, without their ids. -/
def SurrealTables.liveTriples (s : SurrealTables Id T) : List (Id × Id × String) :=
  (s.relatesTo.rows.filter fun e => e.validUntil.isNone).map RelatesTo.triple

theorem substTriple_triple (mint : Id → Id → Id) {e : RelatesTo Id T} (hlive : e.validUntil = none) :
    substTriple c [a] e.triple =
      if e.touches a then
        if e.loops c a then none else some (e.repointed mint c a).triple
      else some e.triple := by
  unfold substTriple
  simp only [canonicalOf_singleton]
  by_cases h : e.inId = a ∨ e.outId = a
  · have htouch : e.touches a = true := by
      rw [RelatesTo.touches, hlive]
      rcases h with h | h
      · simp [h]
      · simp [h]
    rw [htouch, if_pos rfl]
    show (if endsCollapse c [a] e.inId e.outId = true then _ else _) = _
    rw [endsCollapse_cons_of_eq h, endsCollapse_nil, Bool.or_false]
    rfl
  · rw [not_or] at h
    have htouch : e.touches a = false := by simp [RelatesTo.touches, h.1, h.2]
    rw [htouch]
    show (if endsCollapse c [a] e.inId e.outId = true then _ else _) = _
    rw [endsCollapse_cons_of_ne h.1 h.2, endsCollapse_nil]
    simp [RelatesTo.triple, redirect, h.1, h.2]

/-- The triples of the live edges after a merge. -/
theorem liveTriples_surrealMerge (hmint : Function.Injective2 mint) {s : SurrealTables Id T}
    (hfresh : s.Fresh mint) (entry : MergeEntry Id) :
    ∃ s', surrealMerge mint now s entry = some s' ∧ s'.Fresh mint ∧
      s'.liveTriples.Perm
        (s.liveTriples.filterMap (substTriple entry.canonicalId [entry.absorbedId])) := by
  obtain ⟨s', hs', hrows⟩ := @relatesTo_surrealMerge _ _ _ mint now hmint s hfresh entry
  obtain ⟨s'', hs'', hfresh'⟩ := @fresh_surrealMerge _ _ _ mint now hmint s hfresh entry
  obtain rfl : s' = s'' := Option.some.inj (hs'.symm.trans hs'')
  refine ⟨s', hs', hfresh', ?_⟩
  unfold SurrealTables.liveTriples
  rw [live_surrealMerge hrows, List.filterMap_map]
  have hsplit := (List.filter_append_perm (RelatesTo.touches entry.absorbedId)
    (s.relatesTo.rows.filter fun e => e.validUntil.isNone)).filterMap
    (substTriple entry.canonicalId [entry.absorbedId] ∘ RelatesTo.triple)
  refine List.Perm.trans ?_ hsplit
  rw [List.filterMap_append, List.map_append]
  refine List.perm_append_comm.trans (List.Perm.append (.of_eq ?_) (.of_eq ?_))
  · have hfilter : (s.relatesTo.rows.filter fun e => e.validUntil.isNone).filter
        (RelatesTo.touches entry.absorbedId) = s.relatesTo.rows.filter (RelatesTo.touches entry.absorbedId) := by
      rw [List.filter_filter]
      apply List.filter_congr
      intro e _
      simp [RelatesTo.touches]
    rw [hfilter, List.map_map, ← List.filterMap_eq_map, ← List.filterMap_eq_filter,
      List.filterMap_filterMap]
    apply List.filterMap_congr
    intro e he
    rw [List.mem_filter] at he
    rw [Function.comp_apply, substTriple_triple mint (touches_live he.2), he.2]
    cases hl : e.loops entry.canonicalId entry.absorbedId
    · simp [hl]
    · simp [hl]
  · rw [List.filter_filter, ← List.filterMap_eq_map]
    have hfilter : (s.relatesTo.rows.filter fun e => e.validUntil.isNone && !e.touches entry.absorbedId) =
        s.relatesTo.rows.filter fun e => !e.touches entry.absorbedId && e.validUntil.isNone := by
      apply List.filter_congr
      intro e _
      rw [Bool.and_comm]
    rw [hfilter]
    apply List.filterMap_congr
    intro e he
    rw [List.mem_filter, Bool.and_eq_true, Bool.not_eq_true', Option.isNone_iff_eq_none] at he
    rw [Function.comp_apply, Function.comp_apply, substTriple_triple mint he.2.2, he.2.1]
    simp

/-- **The live edges after the handler are those of the substitution.** -/
theorem surreal_triples (hmint : Function.Injective2 mint) (entries : List (MergeEntry Id)) :
    ∀ {s : SurrealTables Id T}, s.Fresh mint → (∀ m ∈ entries, m.canonicalId = c) →
    ∃ s', entries.foldlM (surrealMerge mint now) s = some s' ∧ s'.Fresh mint ∧
      s'.liveTriples.Perm
        (s.liveTriples.filterMap (substTriple c (entries.map MergeEntry.absorbedId))) := by
  induction entries with
  | nil =>
      intro s hfresh _
      refine ⟨s, rfl, hfresh, .of_eq ?_⟩
      have hid : substTriple c ([] : List Id) = some := by
        funext e
        simp [substTriple, endsCollapse_nil]
      rw [List.map_nil, hid, List.filterMap_some]
  | cons entry entries ih =>
      intro s hfresh hc
      have hentry := hc entry List.mem_cons_self
      obtain ⟨s₁, hs₁, hfresh₁, hperm₁⟩ := @liveTriples_surrealMerge _ _ _ mint now hmint s hfresh entry
      obtain ⟨s', hs', hfresh', hperm⟩ := ih hfresh₁ fun m hm => hc m (List.mem_cons_of_mem _ hm)
      refine ⟨s', ?_, hfresh', ?_⟩
      · rw [List.foldlM_cons, hs₁]
        exact hs'
      · rw [hentry] at hperm₁
        refine hperm.trans ((hperm₁.filterMap _).trans (.of_eq ?_))
        rw [List.filterMap_filterMap]
        apply List.filterMap_congr
        intro e _
        exact (substTriple_cons e).symm

end Triples

/-! ## The three stores -/

section Stores

variable [DecidableEq Id] {now : T} {c : Id} {band : VerifierBand}
  {judge : MergeEntry Id → VerifierDecision} {op : DedupeOp Id} {s : DreamTables Id T}

def Relationship.triple (r : Relationship Id T) : Id × Id × String :=
  (r.sourceEntityId, r.targetEntityId, r.relationshipType)

/-- The live edges of the SQL store, without their ids. -/
def liveTriples (pruned : Id → Bool) (t : Table Id (Relationship Id T) Relationship.id) :
    List (Id × Id × String) :=
  (t.rows.filter (Relationship.shown pruned)).map Relationship.triple

theorem liveTriples_apply {pruned : Id → Bool} (hc : ∀ m ∈ op.merges, m.canonicalId = c) :
    liveTriples pruned (applyVectorcypherDedupeEntities band judge now op s).1.relationships =
      (liveTriples pruned s.relationships).filterMap
        (substTriple c (absorbedIds band judge op.merges)) := by
  unfold liveTriples
  show (((applyMerges band judge op.opId now op.merges s).1.relationships.rows.filter _).map _) = _
  rw [(rows_applyMerges op.merges s hc).1, rows_filter_map_applyRow, List.map_map,
    List.filterMap_map]
  have hfilter : (s.relationships.rows.filter fun r =>
      r.shown pruned && !r.collapses c (absorbedIds band judge op.merges)) =
      (s.relationships.rows.filter (Relationship.shown pruned)).filter fun r =>
        !r.collapses c (absorbedIds band judge op.merges) := by
    rw [List.filter_filter]
    apply List.filter_congr
    intro r _
    rw [Bool.and_comm]
  rw [hfilter, ← List.filterMap_eq_map, ← List.filterMap_eq_filter, List.filterMap_filterMap]
  apply List.filterMap_congr
  intro r _
  rw [Function.comp_apply, substTriple]
  show _ = if r.collapses c (absorbedIds band judge op.merges) = true then _ else _
  cases hcol : r.collapses c (absorbedIds band judge op.merges)
  · simp [hcol, Relationship.triple, Relationship.substituted]
  · simp [hcol]

/-- No end of an edge that the op leaves is absorbed. -/
theorem canonicalOf_not_mem {as : List Id} (hc : c ∉ as) (x : Id) : canonicalOf c as x ∉ as := by
  unfold canonicalOf
  split
  · exact hc
  · assumption

/-- **A dedupe is one simultaneous substitution on every store.**  The live edges of the
SQL store after the op are those that do not collapse, with the canonical entity at each
absorbed end; no live edge has an absorbed end; every row that is dead or has no absorbed
end, and every entity that is not absorbed, is as it was.  A graph with the same live edges
has them after the mirror of the undo record; and SurrealDB, from the same live triples,
has the same after its handler if the verifier withholds no merge. -/
theorem dedupe_substitutes (pruned : Id → Bool)
    (hc : ∀ m ∈ op.merges, MergeEntry.canonicalId m = c) :
    let as := absorbedIds band judge op.merges
    let s' := (applyVectorcypherDedupeEntities band judge now op s).1
    (liveEdges pruned s'.relationships =
      (s.relationships.rows.filter fun r => r.shown pruned && !r.collapses c as).map fun r =>
        (r.id, canonicalOf c as r.sourceEntityId, canonicalOf c as r.targetEntityId)) ∧
    (c ∉ op.merges.map MergeEntry.absorbedId → ∀ edge ∈ liveEdges pruned s'.relationships,
      edge.2.1 ∉ as ∧ edge.2.2 ∉ as) ∧
    (List.Forall₂ (fun r r' => r'.id = r.id ∧ r'.relationshipType = r.relationshipType ∧
      (r.live = false ∨ r.meets as = false → r' = r)) s.relationships.rows s'.relationships.rows ∧
      List.Forall₂ (fun e e' => e'.id = e.id ∧ (e.id ∉ as → e' = e)) s.entities.rows
        s'.entities.rows) ∧
    (∀ (g : MirrorGraph Id T) (stamp : T) (communities : List (CommunityNode Id)),
      (∀ edge, edge ∈ liveEdges pruned s.relationships ↔ edge ∈ g.liveEdges) →
      ∀ edge, edge ∈ liveEdges pruned s'.relationships ↔
        edge ∈ (g.applyMirrorTargets (extractMirrorTargets .vectorcypherDedupeEntities
          (dedupeUndo band judge now op s)) stamp communities).liveEdges) ∧
    ∀ (mint : Id → Id → Id) (t : SurrealTables Id T), Function.Injective2 mint → t.Fresh mint →
      (∀ m ∈ op.merges, authorized band judge m = true) →
      t.liveTriples.Perm (liveTriples pruned s.relationships) →
      ∃ t', surrealApplyDedupeEntities mint now op t = some t' ∧
        t'.liveTriples.Perm (liveTriples pruned s'.relationships) := by
  intro as s'
  obtain ⟨hrows, hents⟩ := @rows_applyMerges _ _ _ op.opId now c band judge op.merges s hc
  refine ⟨liveEdges_apply hc, ?_, ⟨?_, ?_⟩, ?_, ?_⟩
  · intro hother edge hedge
    have hcas : c ∉ as := by
      intro h
      obtain ⟨m, hm, rfl⟩ := List.mem_map.mp h
      exact hother (List.mem_map.mpr ⟨m, (List.mem_filter.mp hm).1, rfl⟩)
    rw [show liveEdges pruned s'.relationships = _ from liveEdges_apply hc] at hedge
    obtain ⟨r, -, rfl⟩ := List.mem_map.mp hedge
    exact ⟨canonicalOf_not_mem hcas _, canonicalOf_not_mem hcas _⟩
  · show List.Forall₂ _ s.relationships.rows
      (applyMerges band judge op.opId now op.merges s).1.relationships.rows
    rw [hrows, List.forall₂_map_right_iff, List.forall₂_same]
    intro r _
    refine ⟨id_applyRow _ r, relationshipType_applyRow r, ?_⟩
    rintro (hdead | hapart)
    · exact applyRow_of_dead hdead
    · apply Untouched.applyRow
      intro _
      rw [← not_or, ← meets_iff, hapart]
      exact Bool.false_ne_true
  · show List.Forall₂ _ s.entities.rows
      (applyMerges band judge op.opId now op.merges s).1.entities.rows
    rw [hents, List.forall₂_map_right_iff, List.forall₂_same]
    intro e _
    rw [foldl_retire]
    constructor
    · split
      · rfl
      · rfl
    · intro hnot
      rw [if_neg fun h => hnot h.1]
  · intro g stamp communities hsame edge
    exact sameEdges_mirror hc hsame stamp communities edge
  · intro mint t hmint hfresh hauth hperm
    have hall : as = op.merges.map MergeEntry.absorbedId := by
      show (op.merges.filter (authorized band judge)).map _ = _
      rw [List.filter_eq_self.mpr hauth]
    obtain ⟨t', ht', -, htriples⟩ := @surreal_triples _ _ _ mint now c hmint op.merges t hfresh hc
    refine ⟨t', ht', htriples.trans ((hperm.filterMap _).trans (.of_eq ?_))⟩
    rw [← hall]
    exact (liveTriples_apply hc).symm

end Stores

/-- Ids above those of the edges below, one for each pair. -/
def mintPair (x c : ℕ) : ℕ := 1000 + Nat.pair x c

theorem mintPair_injective : Function.Injective2 mintPair := by
  intro x y c d h
  exact Nat.pair_eq_pair.mp (Nat.add_left_cancel h)

/-- The edges of `mergeable` in SurrealDB, without the dead one. -/
def surrealMergeable : SurrealTables ℕ ℕ where
  relatesTo :=
    { rows := [⟨1, 11, 13, "KNOWS", none⟩, ⟨2, 10, 12, "KNOWS", none⟩], nodup := by decide }
  entities := liveEntities

theorem fresh_surrealMergeable : surrealMergeable.Fresh mintPair := by
  apply fresh_of_not_minted
  intro x d h
  have hrows : surrealMergeable.relatesTo.rows.map RelatesTo.relId = [1, 2] := rfl
  rw [hrows, List.mem_cons, List.mem_singleton, mintPair] at h
  omega

theorem dedupe_substitutes_mergeable :
    liveEdges (fun _ => false)
      (applyVectorcypherDedupeEntities defaultBand deferring 100 dedupeOp mergeable).1.relationships =
      [(1, 10, 13)] ∧
    ∃ t', surrealApplyDedupeEntities mintPair 100 dedupeOp surrealMergeable = some t' ∧
      t'.liveTriples.Perm [(10, 13, "KNOWS")] := by
  obtain ⟨hlive, -, -, -, hsurreal⟩ := @dedupe_substitutes _ _ _ 100 10 defaultBand deferring dedupeOp
    mergeable (fun _ => false) (by decide)
  refine ⟨hlive.trans (by decide), ?_⟩
  exact hsurreal mintPair surrealMergeable mintPair_injective fresh_surrealMergeable (by decide)
    (.of_eq (by decide))

end Khora
