import Khora.Lib.OrderedDict
import Mathlib.Data.List.Flatten
import Mathlib.Data.List.Induction

/-!
# Endpoints after deduplication and upsert

Stage 6 of `remember_batch` merges the entities of a window by name and type, gives the survivors the
ids of the store, and sends the endpoints of the relationships through one dictionary that composes the
two substitutions.

* `dedupEntities_spec` — what the survivors and the first substitution are.
* `get?_compose` — the dictionary is rewritten as if it were walked from a copy.
* `remapped_eq` — an endpoint gets the stored id of the survivor of its key.
* `remap_exact_iff` — that is the survivor of the same name and type exactly if no two keys are equal by
  chance.
* `colon_diverges` — a colon in a name or in a type.
-/

namespace Khora

namespace EndpointRemap

variable {Id C D : Type} [DecidableEq Id] [DecidableEq C] [DecidableEq D]

/-! ## The stage -/

structure Entity (Id C D : Type) where
  id : Id
  name : String
  entityType : String
  mentionCount : ℕ
  sourceDocumentIds : List D
  sourceChunkIds : List C
deriving DecidableEq

structure Relationship (Id : Type) where
  sourceEntityId : Id
  targetEntityId : Id
deriving DecidableEq

/-- The elements that are not there yet, appended one by one. -/
def appendNew {X : Type} [DecidableEq X] (xs ys : List X) : List X :=
  ys.foldl (fun xs y => if y ∈ xs then xs else xs ++ [y]) xs

def Entity.absorb (existing e : Entity Id C D) : Entity Id C D :=
  { existing with
    mentionCount := existing.mentionCount + e.mentionCount
    sourceDocumentIds := appendNew existing.sourceDocumentIds e.sourceDocumentIds
    sourceChunkIds := appendNew existing.sourceChunkIds e.sourceChunkIds }

variable (normalize : String → String)

/-- `f"{normalize_entity_name(entity.name)}:{entity.entity_type}"` -/
def dedupKey (e : Entity Id C D) : String := normalize e.name ++ ":" ++ e.entityType

/-- The survivors by key, and where the discarded ids went. -/
structure Dedup (Id C D : Type) where
  deduped : OrderedDict String (Entity Id C D)
  idRemap : OrderedDict Id Id

def dedupStep (s : Dedup Id C D) (e : Entity Id C D) : Dedup Id C D :=
  match s.deduped.get? (dedupKey normalize e) with
  | some existing =>
      ⟨s.deduped.set (dedupKey normalize e) (existing.absorb e),
        if e.id ≠ existing.id then s.idRemap.set e.id existing.id else s.idRemap⟩
  | none => ⟨s.deduped.set (dedupKey normalize e) e, s.idRemap⟩

/-- The dedup pass over the entities of a window. -/
def dedupEntities (entities : List (Entity Id C D)) : Dedup Id C D :=
  entities.foldl (dedupStep normalize) ⟨.empty, .empty⟩

/-- The ids that the upsert changed, entered into the dictionary. -/
def extendRemap (canonical : Id → Id) (survivors : List (Entity Id C D)) (idRemap : OrderedDict Id Id) :
    OrderedDict Id Id :=
  survivors.foldl (fun d e => if e.id ≠ canonical e.id then d.set e.id (canonical e.id) else d) idRemap

/-- `for src, tgt in list(id_remap.items()): if tgt in id_remap: id_remap[src] = id_remap[tgt]` -/
def compose (idRemap : OrderedDict Id Id) : OrderedDict Id Id :=
  idRemap.items.foldl (fun d p =>
    match d.get? p.2 with
    | some t => d.set p.1 t
    | none => d) idRemap

structure Stored (Id C D : Type) where
  entities : List (Entity Id C D)
  relationships : List (Relationship Id)
  links : List (Id × C)

/-- Stage 6, up to the writes; `canonical` is the id that the upsert gives an entity in place of its
own. -/
def storeEntities (canonical : Id → Id) (entities : List (Entity Id C D))
    (relationships : List (Relationship Id)) : Stored Id C D :=
  let dedup := dedupEntities normalize entities
  let survivors := dedup.deduped.items.map Prod.snd
  let upserted := survivors.map fun e => { e with id := canonical e.id }
  let idRemap := compose (extendRemap canonical survivors dedup.idRemap)
  ⟨upserted,
    relationships.map fun r => ⟨(idRemap.get? r.sourceEntityId).getD r.sourceEntityId,
      (idRemap.get? r.targetEntityId).getD r.targetEntityId⟩,
    upserted.flatMap fun e => e.sourceChunkIds.map fun c => (e.id, c)⟩

/-! ## The dedup pass -/

theorem mem_appendNew {X : Type} [DecidableEq X] {xs ys : List X} {x : X} :
    x ∈ appendNew xs ys ↔ x ∈ xs ∨ x ∈ ys := by
  unfold appendNew
  induction ys generalizing xs with
  | nil => simp
  | cons y ys ih =>
      rw [List.foldl_cons, ih, List.mem_cons]
      by_cases h : y ∈ xs
      · rw [if_pos h]
        constructor
        · exact fun hx => hx.imp_right Or.inr
        · rintro (hx | rfl | hx)
          · exact Or.inl hx
          · exact Or.inl h
          · exact Or.inr hx
      · rw [if_neg h, List.mem_append, List.mem_singleton, or_assoc]

/-- What the survivors are after the entities, and what the dictionary sends where. -/
structure DedupSpec (entities : List (Entity Id C D)) (s : Dedup Id C D) : Prop where
  covers : ∀ e ∈ entities, ∃ t, s.deduped.get? (dedupKey normalize e) = some t
  origin : ∀ k t, s.deduped.get? k = some t →
    ∃ e ∈ entities, e.id = t.id ∧ e.name = t.name ∧ e.entityType = t.entityType ∧ dedupKey normalize e = k
  chunks : ∀ k t, s.deduped.get? k = some t →
    ∀ c, c ∈ t.sourceChunkIds ↔ ∃ e ∈ entities, dedupKey normalize e = k ∧ c ∈ e.sourceChunkIds
  remap : ∀ i j, s.idRemap.get? i = some j ↔ i ≠ j ∧ ∃ e ∈ entities, e.id = i ∧
    ∃ t, s.deduped.get? (dedupKey normalize e) = some t ∧ t.id = j

variable {normalize}

theorem dedupStep_spec {before : List (Entity Id C D)} {e : Entity Id C D} {s : Dedup Id C D}
    (hfresh : ∀ x ∈ before, x.id ≠ e.id) (h : DedupSpec normalize before s) :
    DedupSpec normalize (before ++ [e]) (dedupStep normalize s e) := by
  cases hget : s.deduped.get? (dedupKey normalize e) with
  | some existing =>
      have hne : e.id ≠ existing.id := by
        obtain ⟨x, hx, hid, -⟩ := h.origin _ _ hget
        rw [← hid]
        exact (hfresh x hx).symm
      have hdeduped : ∀ k, (dedupStep normalize s e).deduped.get? k =
          if k = dedupKey normalize e then some (existing.absorb e) else s.deduped.get? k := by
        intro k
        simp only [dedupStep, hget]
        exact OrderedDict.get?_set _ _ _ _
      have hremap : ∀ i, (dedupStep normalize s e).idRemap.get? i =
          if i = e.id then some existing.id else s.idRemap.get? i := by
        intro i
        simp only [dedupStep, hget, if_pos hne]
        exact OrderedDict.get?_set _ _ _ _
      -- the survivor of a key keeps its id
      have hids : ∀ k j, (∃ t, (dedupStep normalize s e).deduped.get? k = some t ∧ t.id = j) ↔
          ∃ t, s.deduped.get? k = some t ∧ t.id = j := by
        intro k j
        rw [hdeduped]
        by_cases hk : k = dedupKey normalize e
        · rw [if_pos hk, hk, hget]
          simp [Entity.absorb]
        · rw [if_neg hk]
      constructor
      · intro x hx
        rw [hdeduped]
        by_cases hk : dedupKey normalize x = dedupKey normalize e
        · exact ⟨existing.absorb e, if_pos hk⟩
        · rw [if_neg hk]
          rcases List.mem_append.mp hx with hx | hx
          · exact h.covers x hx
          · exact absurd (by rw [List.mem_singleton.mp hx]) hk
      · intro k t ht
        rw [hdeduped] at ht
        by_cases hk : k = dedupKey normalize e
        · rw [if_pos hk] at ht
          cases ht
          obtain ⟨x, hx, hrest⟩ := h.origin _ _ hget
          rw [hk]
          exact ⟨x, List.mem_append_left _ hx, hrest⟩
        · rw [if_neg hk] at ht
          obtain ⟨x, hx, hrest⟩ := h.origin k t ht
          exact ⟨x, List.mem_append_left _ hx, hrest⟩
      · intro k t ht c
        simp only [List.mem_append, List.mem_singleton, or_and_right, exists_or, exists_eq_left]
        rw [hdeduped] at ht
        by_cases hk : k = dedupKey normalize e
        · rw [if_pos hk] at ht
          cases ht
          show c ∈ appendNew existing.sourceChunkIds e.sourceChunkIds ↔ _
          rw [mem_appendNew, h.chunks _ _ hget, hk]
          simp
        · rw [if_neg hk] at ht
          rw [h.chunks k t ht, or_iff_left]
          exact fun hand => hk hand.1.symm
      · intro i j
        simp only [hids]
        rw [hremap]
        by_cases hi : i = e.id
        · rw [if_pos hi]
          constructor
          · intro hj
            cases hj
            exact ⟨hi ▸ hne, e, List.mem_append_right _ List.mem_cons_self, hi.symm, existing, hget, rfl⟩
          · rintro ⟨-, x, hx, hxi, t, ht, rfl⟩
            rcases List.mem_append.mp hx with hx | hx
            · exact absurd (hxi.trans hi) (hfresh x hx)
            · rw [List.mem_singleton.mp hx, hget] at ht
              cases ht
              rfl
        · rw [if_neg hi, h.remap]
          apply and_congr_right
          intro _
          constructor
          · rintro ⟨x, hx, hrest⟩
            exact ⟨x, List.mem_append_left _ hx, hrest⟩
          · rintro ⟨x, hx, hxi, hrest⟩
            rcases List.mem_append.mp hx with hx | hx
            · exact ⟨x, hx, hxi, hrest⟩
            · exact absurd (by rw [← hxi, List.mem_singleton.mp hx]) hi
  | none =>
      have hdeduped : ∀ k, (dedupStep normalize s e).deduped.get? k =
          if k = dedupKey normalize e then some e else s.deduped.get? k := by
        intro k
        simp only [dedupStep, hget]
        exact OrderedDict.get?_set _ _ _ _
      have hremap : (dedupStep normalize s e).idRemap = s.idRemap := by simp only [dedupStep, hget]
      have hother : ∀ x ∈ before, dedupKey normalize x ≠ dedupKey normalize e := by
        intro x hx heq
        obtain ⟨t, ht⟩ := h.covers x hx
        rw [heq, hget] at ht
        cases ht
      constructor
      · intro x hx
        rw [hdeduped]
        rcases List.mem_append.mp hx with hx | hx
        · rw [if_neg (hother x hx)]
          exact h.covers x hx
        · exact ⟨e, if_pos (by rw [List.mem_singleton.mp hx])⟩
      · intro k t ht
        rw [hdeduped] at ht
        by_cases hk : k = dedupKey normalize e
        · rw [if_pos hk] at ht
          cases ht
          exact ⟨e, List.mem_append_right _ List.mem_cons_self, rfl, rfl, rfl, hk.symm⟩
        · rw [if_neg hk] at ht
          obtain ⟨x, hx, hrest⟩ := h.origin k t ht
          exact ⟨x, List.mem_append_left _ hx, hrest⟩
      · intro k t ht c
        simp only [List.mem_append, List.mem_singleton, or_and_right, exists_or, exists_eq_left]
        rw [hdeduped] at ht
        by_cases hk : k = dedupKey normalize e
        · rw [if_pos hk] at ht
          cases ht
          rw [or_iff_right, hk]
          · simp
          · rintro ⟨x, hx, hkey, -⟩
            exact hother x hx (hkey.trans hk)
        · rw [if_neg hk] at ht
          rw [h.chunks k t ht, or_iff_left]
          exact fun hand => hk hand.1.symm
      · intro i j
        rw [hremap, h.remap]
        apply and_congr_right
        intro hij
        constructor
        · rintro ⟨x, hx, hxi, t, ht, hid⟩
          exact ⟨x, List.mem_append_left _ hx, hxi, t, by rw [hdeduped, if_neg (hother x hx), ht], hid⟩
        · rintro ⟨x, hx, hxi, t, ht, hid⟩
          rw [hdeduped] at ht
          rcases List.mem_append.mp hx with hx | hx
          · rw [if_neg (hother x hx)] at ht
            exact ⟨x, hx, hxi, t, ht, hid⟩
          · -- the new survivor keeps its own id
            cases List.mem_singleton.mp hx
            rw [if_pos rfl] at ht
            cases ht
            exact absurd (hxi.symm.trans hid) hij

/-- **The dedup pass**: the first entity of a key survives with the chunks of all of them, and the ids
of the others lead to it. -/
theorem dedupEntities_spec {entities : List (Entity Id C D)} (hids : (entities.map Entity.id).Nodup) :
    DedupSpec normalize entities (dedupEntities normalize entities) := by
  unfold dedupEntities
  induction entities using List.reverseRecOn with
  | nil =>
      constructor
      · simp
      · intro k t ht
        cases ht
      · intro k t ht
        cases ht
      · intro i j
        simp
  | append_singleton before e ih =>
      rw [List.map_append, List.nodup_append] at hids
      rw [List.foldl_append]
      refine dedupStep_spec ?_ (ih hids.1)
      intro x hx
      exact hids.2.2 x.id (List.mem_map_of_mem hx) e.id (by simp)

/-! ## The composed dictionary -/

omit [DecidableEq C] [DecidableEq D] in
theorem get?_extendRemap {canonical : Id → Id} {survivors : List (Entity Id C D)}
    {idRemap : OrderedDict Id Id} (i : Id) :
    (extendRemap canonical survivors idRemap).get? i =
      if (∃ e ∈ survivors, e.id = i) ∧ i ≠ canonical i then some (canonical i) else idRemap.get? i := by
  unfold extendRemap
  induction survivors generalizing idRemap with
  | nil => simp
  | cons e survivors ih =>
      rw [List.foldl_cons, ih]
      by_cases hrest : (∃ x ∈ survivors, x.id = i) ∧ i ≠ canonical i
      · obtain ⟨⟨x, hx, hxi⟩, hne⟩ := hrest
        rw [if_pos ⟨⟨x, hx, hxi⟩, hne⟩, if_pos ⟨⟨x, List.mem_cons_of_mem _ hx, hxi⟩, hne⟩]
      · rw [if_neg hrest]
        by_cases hi : e.id = i
        · subst hi
          by_cases hne : e.id ≠ canonical e.id
          · rw [if_pos hne, OrderedDict.get?_set, if_pos rfl, if_pos ⟨⟨e, List.mem_cons_self, rfl⟩, hne⟩]
          · rw [if_neg hne, if_neg fun h => hne h.2]
        · have hsame : (if e.id ≠ canonical e.id then idRemap.set e.id (canonical e.id)
              else idRemap).get? i = idRemap.get? i := by
            split
            · rw [OrderedDict.get?_set, if_neg fun h => hi h.symm]
            · rfl
          rw [hsame, if_neg]
          rintro ⟨⟨x, hx, hxi⟩, hne⟩
          rcases List.mem_cons.mp hx with rfl | hx
          · exact hi hxi
          · exact hrest ⟨⟨x, hx, hxi⟩, hne⟩

/-- **The rewritten dictionary** answers with two steps of the one it was, if two steps end. -/
theorem get?_compose {d : OrderedDict Id Id}
    (hends : ∀ i j k, d.get? i = some j → d.get? j = some k → d.get? k = none) (i : Id) :
    (compose d).get? i = (d.get? i).map fun j => (d.get? j).getD j := by
  have hwalk : ∀ (ps : List (Id × Id)), (∀ p ∈ ps, p ∈ d.items) → ∀ (cur : OrderedDict Id Id),
      (∀ k, cur.get? k = d.get? k ∨ cur.get? k = (d.get? k).map fun j => (d.get? j).getD j) →
      (∀ k, cur.get? k = (d.get? k).map (fun j => (d.get? j).getD j) ∨ ∃ j, (k, j) ∈ ps ∧ cur.get? k = some j) →
      ∀ k, (ps.foldl (fun d p =>
        match d.get? p.2 with
        | some t => d.set p.1 t
        | none => d) cur).get? k = (d.get? k).map fun j => (d.get? j).getD j := by
    intro ps
    induction ps with
    | nil =>
        intro _ cur _ hdone k
        exact (hdone k).resolve_right fun ⟨_, hmem, _⟩ => List.not_mem_nil hmem
    | cons p ps ih =>
        intro hps cur hcur hdone
        have hp : d.get? p.1 = some p.2 := OrderedDict.get?_eq_some_iff.mpr (hps p List.mem_cons_self)
        -- a target that is a key has its one step, whether it was walked over or not
        have htarget : cur.get? p.2 = d.get? p.2 := by
          rcases hcur p.2 with h | h
          · exact h
          · rw [h]
            cases hj : d.get? p.2 with
            | none => rfl
            | some j => simp [hends p.1 p.2 j hp hj]
        rw [List.foldl_cons, htarget]
        have hstep : ∀ k, (match d.get? p.2 with
            | some t => cur.set p.1 t
            | none => cur).get? k =
              if k = p.1 ∧ d.get? p.2 ≠ none then (d.get? k).map fun j => (d.get? j).getD j
              else cur.get? k := by
          intro k
          cases hj : d.get? p.2 with
          | none => simp
          | some j =>
              show (cur.set p.1 j).get? k = _
              rw [OrderedDict.get?_set]
              by_cases hk : k = p.1
              · simp [hk, hp, hj]
              · simp [hk]
        apply ih fun q hq => hps q (List.mem_cons_of_mem _ hq)
        · intro k
          rw [hstep]
          by_cases hk : k = p.1 ∧ d.get? p.2 ≠ none
          · rw [if_pos hk]
            exact Or.inr rfl
          · rw [if_neg hk]
            exact hcur k
        · intro k
          rw [hstep]
          by_cases hk : k = p.1 ∧ d.get? p.2 ≠ none
          · rw [if_pos hk]
            exact Or.inl rfl
          · rw [if_neg hk]
            rcases hdone k with h | ⟨j, hj, hget⟩
            · exact Or.inl h
            · rcases List.mem_cons.mp hj with heq | hj
              · -- the pair that was walked over has a target that is no key
                obtain ⟨rfl, rfl⟩ := Prod.ext_iff.mp heq
                have hnone : d.get? p.2 = none := by
                  by_contra hne
                  exact hk ⟨rfl, hne⟩
                refine Or.inl ?_
                rw [hget, hp]
                simp [hnone]
              · exact Or.inr ⟨j, hj, hget⟩
  apply hwalk d.items (fun p hp => hp) d (fun k => Or.inl rfl)
  intro k
  cases hk : d.get? k with
  | none => exact Or.inl rfl
  | some j => exact Or.inr ⟨j, OrderedDict.get?_eq_some_iff.mp hk, rfl⟩

/-! ## Endpoints -/

/-- The survivors, with the ids they were extracted with. -/
def survivors (normalize : String → String) (entities : List (Entity Id C D)) : List (Entity Id C D) :=
  (dedupEntities normalize entities).deduped.items.map Prod.snd

/-- The upsert keeps an id or gives one that was not extracted in this window. -/
def Canonical (normalize : String → String) (canonical : Id → Id) (entities : List (Entity Id C D)) : Prop :=
  ∀ t ∈ survivors normalize entities, canonical t.id = t.id ∨ ∀ e ∈ entities, e.id ≠ canonical t.id

/-- The dictionary that the endpoints are sent through. -/
def finalRemap (normalize : String → String) (canonical : Id → Id) (entities : List (Entity Id C D)) :
    OrderedDict Id Id :=
  compose (extendRemap canonical (survivors normalize entities) (dedupEntities normalize entities).idRemap)

variable {entities : List (Entity Id C D)} {canonical : Id → Id}

theorem mem_survivors {t : Entity Id C D} : t ∈ survivors normalize entities ↔
    ∃ k, (dedupEntities normalize entities).deduped.get? k = some t := by
  simp [survivors, OrderedDict.get?_eq_some_iff]

/-- No survivor is sent to another one. -/
theorem idRemap_survivor (hids : (entities.map Entity.id).Nodup) {t : Entity Id C D}
    (ht : t ∈ survivors normalize entities) : (dedupEntities normalize entities).idRemap.get? t.id = none := by
  have hspec : DedupSpec normalize entities (dedupEntities normalize entities) := dedupEntities_spec hids
  obtain ⟨k, hk⟩ := mem_survivors.mp ht
  obtain ⟨f, hf, hfid, -, -, hfk⟩ := hspec.origin k t hk
  cases hget : (dedupEntities normalize entities).idRemap.get? t.id with
  | none => rfl
  | some j =>
      obtain ⟨hne, x, hx, hxid, t', ht', hj⟩ := (hspec.remap _ _).mp hget
      have hxf : x = f := List.inj_on_of_nodup_map hids hx hf (hxid.trans hfid.symm)
      rw [hxf, hfk, hk] at ht'
      cases ht'
      exact absurd hj hne

/-- **An endpoint** gets the stored id of the survivor of its key. -/
theorem remapped_eq (hids : (entities.map Entity.id).Nodup) (hcanon : Canonical normalize canonical entities)
    {e : Entity Id C D} (he : e ∈ entities) :
    ∃ t, (dedupEntities normalize entities).deduped.get? (dedupKey normalize e) = some t ∧
      ((finalRemap normalize canonical entities).get? e.id).getD e.id = canonical t.id := by
  have hspec : DedupSpec normalize entities (dedupEntities normalize entities) := dedupEntities_spec hids
  -- the keys are ids of the window
  have hkeys : ∀ i, (∀ x ∈ entities, x.id ≠ i) →
      (extendRemap canonical (survivors normalize entities)
        (dedupEntities normalize entities).idRemap).get? i = none := by
    intro i hi
    rw [get?_extendRemap, if_neg]
    · cases hget : (dedupEntities normalize entities).idRemap.get? i with
      | none => rfl
      | some j =>
          obtain ⟨-, x, hx, hxi, -⟩ := (hspec.remap _ _).mp hget
          exact absurd hxi (hi x hx)
    · rintro ⟨⟨t, ht, hti⟩, -⟩
      obtain ⟨k, hk⟩ := mem_survivors.mp ht
      obtain ⟨f, hf, hfid, -⟩ := hspec.origin k t hk
      exact hi f hf (hfid.trans hti)
  have hsurvivor : ∀ t ∈ survivors normalize entities,
      ((extendRemap canonical (survivors normalize entities)
        (dedupEntities normalize entities).idRemap).get? t.id) =
          if t.id ≠ canonical t.id then some (canonical t.id) else none := by
    intro t ht
    rw [get?_extendRemap]
    by_cases hne : t.id ≠ canonical t.id
    · rw [if_pos ⟨⟨t, ht, rfl⟩, hne⟩, if_pos hne]
    · rw [if_neg fun h => hne h.2, if_neg hne]
      exact idRemap_survivor hids ht
  have hends : ∀ i j k, (extendRemap canonical (survivors normalize entities)
        (dedupEntities normalize entities).idRemap).get? i = some j →
      (extendRemap canonical (survivors normalize entities)
        (dedupEntities normalize entities).idRemap).get? j = some k →
      (extendRemap canonical (survivors normalize entities)
        (dedupEntities normalize entities).idRemap).get? k = none := by
    intro i j k hi hj
    rw [get?_extendRemap] at hj
    split at hj
    · rename_i hchanged
      cases hj
      obtain ⟨⟨t, ht, rfl⟩, hne⟩ := hchanged
      exact hkeys _ ((hcanon t ht).resolve_left fun h => hne h.symm)
    · -- `j` was discarded, so nothing leads to it
      obtain ⟨-, x, hx, hxj, -⟩ := (hspec.remap _ _).mp hj
      rw [get?_extendRemap] at hi
      split at hi
      · rename_i hchanged
        cases hi
        obtain ⟨⟨t, ht, rfl⟩, hne⟩ := hchanged
        exact absurd hxj ((hcanon t ht).resolve_left (fun h => hne h.symm) x hx)
      · obtain ⟨-, y, -, -, t, ht, rfl⟩ := (hspec.remap _ _).mp hi
        rw [idRemap_survivor hids (mem_survivors.mpr ⟨_, ht⟩)] at hj
        cases hj
  obtain ⟨t, ht⟩ := hspec.covers e he
  have hmem : t ∈ survivors normalize entities := mem_survivors.mpr ⟨_, ht⟩
  refine ⟨t, ht, ?_⟩
  rw [finalRemap, get?_compose hends]
  by_cases hid : e.id = t.id
  · rw [hid, hsurvivor t hmem]
    by_cases hne : t.id ≠ canonical t.id
    · rw [if_pos hne, Option.map_some, Option.getD_some,
        hkeys _ ((hcanon t hmem).resolve_left fun h => hne h.symm), Option.getD_none]
    · rw [if_neg hne, Option.map_none, Option.getD_none]
      exact not_not.mp hne
  · have hdiscarded : (dedupEntities normalize entities).idRemap.get? e.id = some t.id :=
      (hspec.remap _ _).mpr ⟨hid, e, he, rfl, t, ht, rfl⟩
    rw [get?_extendRemap, if_neg, hdiscarded, Option.map_some, Option.getD_some, hsurvivor t hmem]
    · by_cases hne : t.id ≠ canonical t.id
      · rw [if_pos hne, Option.getD_some]
      · rw [if_neg hne, Option.getD_none]
        exact not_not.mp hne
    · rintro ⟨⟨s, hs, hse⟩, -⟩
      rw [← hse, idRemap_survivor hids hs] at hdiscarded
      cases hdiscarded

/-! ## Names and types -/

/-- The same normalized name and the same type. -/
def SameIdentity (normalize : String → String) (e x : Entity Id C D) : Prop :=
  normalize e.name = normalize x.name ∧ e.entityType = x.entityType

/-- The id of a stored entity of the same name and type. -/
def PersistedFor (normalize : String → String) (stored : List (Entity Id C D)) (e : Entity Id C D) (i : Id) :
    Prop :=
  ∃ s ∈ stored, SameIdentity normalize s e ∧ s.id = i

/-- Every endpoint and every link carries the id of the stored entity of its name and type, and the
links cover the chunks of the merged entities. -/
structure Reaches (normalize : String → String) (canonical : Id → Id) (entities : List (Entity Id C D)) :
    Prop where
  endpoints : ∀ relationships : List (Relationship Id),
    (∀ r ∈ relationships, r.sourceEntityId ∈ entities.map Entity.id ∧
      r.targetEntityId ∈ entities.map Entity.id) →
    List.Forall₂ (fun r r' : Relationship Id => ∀ e ∈ entities,
      (e.id = r.sourceEntityId → PersistedFor normalize
        (storeEntities normalize canonical entities relationships).entities e r'.sourceEntityId) ∧
      (e.id = r.targetEntityId → PersistedFor normalize
        (storeEntities normalize canonical entities relationships).entities e r'.targetEntityId))
      relationships (storeEntities normalize canonical entities relationships).relationships
  links : ∀ relationships i c, (i, c) ∈ (storeEntities normalize canonical entities relationships).links ↔
    ∃ e ∈ entities, c ∈ e.sourceChunkIds ∧ PersistedFor normalize
      (storeEntities normalize canonical entities relationships).entities e i

/-- No two entities of different names or types have one key. -/
def Unambiguous (normalize : String → String) (entities : List (Entity Id C D)) : Prop :=
  ∀ e ∈ entities, ∀ x ∈ entities, dedupKey normalize e = dedupKey normalize x → SameIdentity normalize e x

omit [DecidableEq Id] [DecidableEq C] [DecidableEq D] in
theorem dedupKey_congr {e x : Entity Id C D} (h : SameIdentity normalize e x) :
    dedupKey normalize e = dedupKey normalize x := by
  rw [dedupKey, dedupKey, h.1, h.2]

/-- A survivor has the key it is kept under. -/
theorem dedupKey_survivor (hids : (entities.map Entity.id).Nodup) {k : String} {t : Entity Id C D}
    (ht : (dedupEntities normalize entities).deduped.get? k = some t) : dedupKey normalize t = k := by
  obtain ⟨f, -, -, hname, htype, hk⟩ := (dedupEntities_spec hids).origin k t ht
  rw [← hk]
  exact (dedupKey_congr ⟨congrArg normalize hname, htype⟩).symm

theorem persistedFor_iff {relationships : List (Relationship Id)} {e : Entity Id C D} {i : Id} :
    PersistedFor normalize (storeEntities normalize canonical entities relationships).entities e i ↔
      ∃ t ∈ survivors normalize entities, SameIdentity normalize t e ∧ canonical t.id = i := by
  constructor
  · rintro ⟨s, hs, hsame, rfl⟩
    obtain ⟨t, ht, rfl⟩ := List.mem_map.mp hs
    exact ⟨t, ht, hsame, rfl⟩
  · rintro ⟨t, ht, hsame, rfl⟩
    exact ⟨_, List.mem_map_of_mem ht, hsame, rfl⟩

/-- With unambiguous keys the survivor of an entity has its name and type. -/
theorem sameIdentity_survivor (hids : (entities.map Entity.id).Nodup)
    (hkeys : Unambiguous normalize entities) {e t : Entity Id C D} (he : e ∈ entities)
    (ht : (dedupEntities normalize entities).deduped.get? (dedupKey normalize e) = some t) :
    SameIdentity normalize t e := by
  obtain ⟨f, hf, -, hname, htype, hk⟩ := (dedupEntities_spec hids).origin _ t ht
  have hsame := hkeys f hf e he hk
  exact ⟨hname ▸ hsame.1, htype ▸ hsame.2⟩

/-- **The remapping is right** exactly if no two keys are equal by chance. -/
theorem remap_exact_iff (normalize : String → String) (canonical : Id → Id)
    (entities : List (Entity Id C D)) (hids : (entities.map Entity.id).Nodup)
    (hcanon : Canonical normalize canonical entities) :
    Reaches normalize canonical entities ↔ Unambiguous normalize entities := by
  have hspec : DedupSpec normalize entities (dedupEntities normalize entities) := dedupEntities_spec hids
  constructor
  · intro h e he x hx hkey
    have hpersisted : ∀ y ∈ entities, ∃ t,
        (dedupEntities normalize entities).deduped.get? (dedupKey normalize y) = some t ∧
          SameIdentity normalize t y := by
      intro y hy
      have hy' : y.id ∈ entities.map Entity.id := List.mem_map_of_mem hy
      have hends := (List.forall₂_cons.mp (h.endpoints [⟨y.id, y.id⟩] (by simpa using hy'))).1
      obtain ⟨t, ht, hsame, -⟩ := persistedFor_iff.mp ((hends y hy).1 rfl)
      obtain ⟨k, hk⟩ := mem_survivors.mp ht
      refine ⟨t, ?_, hsame⟩
      rw [← dedupKey_congr hsame, dedupKey_survivor hids hk]
      exact hk
    obtain ⟨t, ht, hte⟩ := hpersisted e he
    obtain ⟨t', ht', htx⟩ := hpersisted x hx
    rw [← hkey, ht] at ht'
    cases ht'
    exact ⟨hte.1.symm.trans htx.1, hte.2.symm.trans htx.2⟩
  · intro hkeys
    have hend : ∀ relationships, ∀ e ∈ entities, PersistedFor normalize
        (storeEntities normalize canonical entities relationships).entities e
        (((finalRemap normalize canonical entities).get? e.id).getD e.id) := by
      intro relationships e he
      obtain ⟨t, ht, hremapped⟩ := remapped_eq hids hcanon he
      rw [hremapped]
      exact persistedFor_iff.mpr
        ⟨t, mem_survivors.mpr ⟨_, ht⟩, sameIdentity_survivor hids hkeys he ht, rfl⟩
    constructor
    · intro relationships _
      show List.Forall₂ _ relationships (relationships.map _)
      rw [List.forall₂_map_right_iff, List.forall₂_same]
      intro r _ e he
      constructor
      · intro heq
        rw [← heq]
        exact hend relationships e he
      · intro heq
        rw [← heq]
        exact hend relationships e he
    · intro relationships i c
      show (i, c) ∈ ((survivors normalize entities).map fun e => { e with id := canonical e.id }).flatMap
        (fun e => e.sourceChunkIds.map fun c => (e.id, c)) ↔ _
      simp only [persistedFor_iff, List.mem_flatMap, List.mem_map]
      constructor
      · rintro ⟨_, ⟨t, ht, rfl⟩, c', hc, heq⟩
        obtain ⟨rfl, rfl⟩ := Prod.ext_iff.mp heq
        obtain ⟨k, hk⟩ := mem_survivors.mp ht
        obtain ⟨e, he, hek, hce⟩ := (hspec.chunks k t hk _).mp hc
        rw [← hek] at hk
        exact ⟨e, he, hce, t, ht, sameIdentity_survivor hids hkeys he hk, rfl⟩
      · rintro ⟨e, he, hc, t, ht, hsame, rfl⟩
        obtain ⟨k, hk⟩ := mem_survivors.mp ht
        refine ⟨_, ⟨t, ht, rfl⟩, c, ?_, rfl⟩
        refine (hspec.chunks k t hk c).mpr ⟨e, he, ?_, hc⟩
        rw [← dedupKey_congr hsame, dedupKey_survivor hids hk]

/-! ## A colon -/

def entityOf (id : ℕ) (name entityType : String) (chunk : ℕ) : Entity ℕ ℕ ℕ :=
  ⟨id, name, entityType, 1, [], [chunk]⟩

/-- Two mentions of one entity, which the store knows. -/
theorem remap_acme : Reaches id (fun i => if i = 1 then 10 else i)
    [entityOf 1 "acme" "ORGANIZATION" 7, entityOf 2 "acme" "ORGANIZATION" 8] := by
  refine (remap_exact_iff id _ _ (by decide) ?_).mpr ?_
  · intro t ht
    have hsurvivors : survivors id [entityOf 1 "acme" "ORGANIZATION" 7, entityOf 2 "acme" "ORGANIZATION" 8] =
        [⟨1, "acme", "ORGANIZATION", 2, [], [7, 8]⟩] := by decide
    rw [hsurvivors] at ht
    cases List.mem_singleton.mp ht
    exact Or.inr (by decide)
  · intro e he x hx _
    simp only [List.mem_cons, List.not_mem_nil, or_false] at he hx
    rcases he with rfl | rfl <;> rcases hx with rfl | rfl <;> exact ⟨rfl, rfl⟩

/-- **Two entities of one key**: `"10:30" + ":" + "TIME"` and `"10" + ":" + "30:TIME"`. -/
theorem colon_diverges :
    ¬ Reaches id id [entityOf 1 "10:30" "TIME" 7, entityOf 2 "10" "30:TIME" 8] := by
  intro h
  have hends := (List.forall₂_cons.mp (h.endpoints [⟨2, 2⟩] (by decide))).1
  obtain ⟨s, hs, hsame, -⟩ := (hends (entityOf 2 "10" "30:TIME" 8) (by simp)).1 rfl
  have hstored : (storeEntities id id [entityOf 1 "10:30" "TIME" 7, entityOf 2 "10" "30:TIME" 8]
      [⟨2, 2⟩]).entities = [⟨1, "10:30", "TIME", 2, [], [7, 8]⟩] := by decide
  rw [hstored] at hs
  cases List.mem_singleton.mp hs
  exact absurd hsame.2 (by decide)

end EndpointRemap

end Khora
