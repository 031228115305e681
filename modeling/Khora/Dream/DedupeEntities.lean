import Khora.Lib.Table
import Khora.Lib.Runs
import Mathlib.Data.Rat.Defs
import Mathlib.Algebra.Order.Ring.Rat

/-!
# Dedupe of entities: apply and undo

A dedupe op merges entities into a canonical one.  For each merge the apply handler
takes a snapshot of the live relationships that touch the absorbed entity, redirects
them, invalidates those that become self-loops, and soft-deletes the entity; the
snapshot of a later merge is taken in the state the earlier ones left.  The reverse
handler restores from the snapshots, in the order of the apply.

* `dedupe_undo_exact` — the undo of an op restores every row exactly if no live
  relationship joins two entities that the op absorbs, no absorbed entity was retired
  before, and no relationship that becomes a self-loop carried an `invalidated_by`; and
  ops that meet this where they are applied are undone in reverse order.
* `absorbedPair_lost` — a relationship between two absorbed entities.
-/

namespace Khora

variable {Id T : Type}

/-! ## Tables -/

/-- The columns of `relationships` that the handlers read or write. -/
structure Relationship (Id T : Type) where
  id : Id
  sourceEntityId : Id
  targetEntityId : Id
  relationshipType : String
  invalidatedAt : Option T
  invalidatedBy : Option Id
deriving DecidableEq

/-- The columns of `entities`, likewise. -/
structure Entity (Id T : Type) where
  id : Id
  validUntil : Option T
deriving DecidableEq

structure DreamTables (Id T : Type) where
  relationships : Table Id (Relationship Id T) Relationship.id
  entities : Table Id (Entity Id T) Entity.id

@[ext] theorem DreamTables.ext {s s' : DreamTables Id T}
    (hr : s.relationships.rows = s'.relationships.rows) (he : s.entities.rows = s'.entities.rows) :
    s = s' := by
  cases s
  cases s'
  congr
  · exact Table.ext hr
  · exact Table.ext he

/-! ## Ops and undo records -/

inductive VerifierDecision where
  | merge
  | keepSeparate
  | defer
deriving DecidableEq

/-- One entry of `outputs[0]["merges"]`. -/
structure MergeEntry (Id : Type) where
  canonicalId : Id
  absorbedId : Id
  similarityScore : Option ℚ

/-- A planned dedupe op. -/
structure DedupeOp (Id : Type) where
  opId : Id
  merges : List (MergeEntry Id)

/-- The borderline band of `DreamConfig`. -/
structure VerifierBand where
  low : ℚ
  high : ℚ

/-- `_maybe_run_verifier`: the decision of the two-LLM judge on a pair in the band. -/
def maybeRunVerifier (band : VerifierBand) (judge : MergeEntry Id → VerifierDecision)
    (entry : MergeEntry Id) : Option VerifierDecision :=
  match entry.similarityScore with
  | none => none
  | some similarity =>
      if similarity < band.low ∨ band.high ≤ similarity then none else some (judge entry)

/-- One element of `previous_relationships`. -/
structure PreviousRelationship (Id : Type) where
  id : Id
  sourceEntityId : Id
  targetEntityId : Id
  relationshipType : String

/-- One element of `before["merges"]`. -/
structure MergeUndo (Id : Type) where
  canonicalId : Id
  absorbedId : Id
  previousRelationships : List (PreviousRelationship Id)
  selfLoopsInvalidated : List Id
  verifier : Option VerifierDecision
  applied : Bool

/-- An entry of `undo.json`; a record of the apply handler always has its `op_id`. -/
structure UndoRecord (Id : Type) where
  opId : Option Id
  merges : List (MergeUndo Id)

/-! ## Apply -/

section Apply

variable [DecidableEq Id]

/-- The row is live and has the entity as source or target. -/
def Relationship.touches (a : Id) (r : Relationship Id T) : Bool :=
  (decide (r.sourceEntityId = a) || decide (r.targetEntityId = a)) && r.invalidatedAt.isNone

/-- `_select_relationships_touching` -/
def selectRelationshipsTouching (t : Table Id (Relationship Id T) Relationship.id) (a : Id) :
    List (Relationship Id T) :=
  t.rows.filter (Relationship.touches a)

/-- The canonical id in place of the absorbed one. -/
def redirect (c a x : Id) : Id := if x = a then c else x

/-- The rewrite makes the row a self-loop. -/
def Relationship.loops (c a : Id) (r : Relationship Id T) : Bool :=
  decide (redirect c a r.sourceEntityId = redirect c a r.targetEntityId)

def Relationship.snapshot (r : Relationship Id T) : PreviousRelationship Id :=
  ⟨r.id, r.sourceEntityId, r.targetEntityId, r.relationshipType⟩

/-- The statement issued for one row that touches the absorbed entity. -/
def rewriteRelationship (opId : Id) (now : T) (c a : Id)
    (t : Table Id (Relationship Id T) Relationship.id) (row : Relationship Id T) :
    Table Id (Relationship Id T) Relationship.id :=
  if row.loops c a then
    t.update (fun r => r.id = row.id)
      (fun r => { r with invalidatedAt := some now, invalidatedBy := some opId }) fun _ => rfl
  else
    t.update (fun r => r.id = row.id)
      (fun r => { r with
        sourceEntityId := redirect c a row.sourceEntityId
        targetEntityId := redirect c a row.targetEntityId }) fun _ => rfl

/-- One authorized merge. -/
def applyMerge (opId : Id) (now : T) (verdict : Option VerifierDecision) (entry : MergeEntry Id)
    (s : DreamTables Id T) : DreamTables Id T × MergeUndo Id :=
  let c := entry.canonicalId
  let a := entry.absorbedId
  let prevRows := selectRelationshipsTouching s.relationships a
  ({ relationships := prevRows.foldl (rewriteRelationship opId now c a) s.relationships
     entities := s.entities.update (fun e => e.id = a && e.validUntil.isNone)
       (fun e => { e with validUntil := some now }) fun _ => rfl },
    { canonicalId := c
      absorbedId := a
      previousRelationships := prevRows.map Relationship.snapshot
      selfLoopsInvalidated := (prevRows.filter (Relationship.loops c a)).map Relationship.id
      verifier := verdict
      applied := true })

/-- The loop over the merges of an op. -/
def applyMerges (band : VerifierBand) (judge : MergeEntry Id → VerifierDecision) (opId : Id)
    (now : T) : List (MergeEntry Id) → DreamTables Id T → DreamTables Id T × List (MergeUndo Id)
  | [], s => (s, [])
  | entry :: entries, s =>
      let verdict := maybeRunVerifier band judge entry
      let (s', undo) :=
        if verdict.any fun d => d != .merge then
          (s, ⟨entry.canonicalId, entry.absorbedId, [], [], verdict, false⟩)
        else applyMerge opId now verdict entry s
      let (s'', undos) := applyMerges band judge opId now entries s'
      (s'', undo :: undos)

/-- `apply_vectorcypher_dedupe_entities` -/
def applyVectorcypherDedupeEntities (band : VerifierBand) (judge : MergeEntry Id → VerifierDecision)
    (now : T) (op : DedupeOp Id) (s : DreamTables Id T) : DreamTables Id T × UndoRecord Id :=
  let (s', undos) := applyMerges band judge op.opId now op.merges s
  (s', ⟨some op.opId, undos⟩)

end Apply

/-! ## Reverse -/

section Reverse

variable [DecidableEq Id]

/-- A table after a statement, and whether some row has changed so far. -/
def andChange {R : Type} {key : R → Id} (st : Table Id R key × Bool) (p : R → Bool) (f : R → R)
    (hf : ∀ r, key (f r) = key r) : Table Id R key × Bool :=
  (st.1.update p f hf, st.2 || st.1.affects p)

/-- The endpoints of a snapshot, on a row. -/
def repointed (prev : PreviousRelationship Id) (r : Relationship Id T) : Relationship Id T :=
  { r with sourceEntityId := prev.sourceEntityId, targetEntityId := prev.targetEntityId }

omit [DecidableEq Id] in
theorem id_repointed (prev : PreviousRelationship Id) (r : Relationship Id T) :
    (repointed prev r).id = r.id := rfl

/-- Each snapshot's endpoints, by the id of its row. -/
def restoreEndpoints (prevs : List (PreviousRelationship Id))
    (st : Table Id (Relationship Id T) Relationship.id × Bool) :
    Table Id (Relationship Id T) Relationship.id × Bool :=
  prevs.foldl (fun st prev => andChange st (fun r => r.id = prev.id) (repointed prev) (id_repointed prev)) st

/-- The row was invalidated by the op; without an `op_id` every row counts. -/
def Relationship.invalidatedByOp (opId : Option Id) (r : Relationship Id T) : Bool :=
  match opId with
  | some op => decide (r.invalidatedBy = some op)
  | none => true

/-- The invalidation of each self-loop, cleared. -/
def clearSelfLoops (opId : Option Id) (ids : List Id)
    (st : Table Id (Relationship Id T) Relationship.id × Bool) :
    Table Id (Relationship Id T) Relationship.id × Bool :=
  ids.foldl (fun st rid => andChange st (fun r => r.id = rid && r.invalidatedByOp opId)
    (fun r => { r with invalidatedAt := none, invalidatedBy := none }) fun _ => rfl) st

/-- One merge of the reverse handler: the tombstone, the endpoints, the self-loops. -/
def reverseMerge (opId : Option Id) (merge : MergeUndo Id) (st : DreamTables Id T × Bool) :
    DreamTables Id T × Bool :=
  if merge.applied then
    let entities := andChange (st.1.entities, st.2)
      (fun e => e.id = merge.absorbedId && e.validUntil.isSome)
      (fun e => { e with validUntil := none }) fun _ => rfl
    let restored := restoreEndpoints merge.previousRelationships (st.1.relationships, entities.2)
    let cleared := clearSelfLoops opId merge.selfLoopsInvalidated restored
    (⟨cleared.1, entities.1⟩, cleared.2)
  else st

/-- `reverse_vectorcypher_dedupe_entities`: the merges are taken in the order of the
record. -/
def reverseVectorcypherDedupeEntities (undo : UndoRecord Id) (s : DreamTables Id T) :
    DreamTables Id T × Bool :=
  undo.merges.foldl (fun st merge => reverseMerge undo.opId merge st) (s, false)

end Reverse

/-! ## What the handlers do to one row -/

section Rows

variable [DecidableEq Id] (opId : Id) (now : T) (c : Id)

/-- A row that touches the absorbed entity, after its statement. -/
def rewritten (a : Id) (row r : Relationship Id T) : Relationship Id T :=
  if row.loops c a then { r with invalidatedAt := some now, invalidatedBy := some opId }
  else { r with
    sourceEntityId := redirect c a row.sourceEntityId
    targetEntityId := redirect c a row.targetEntityId }

/-- One merge, on one row. -/
def stepRow (a : Id) (r : Relationship Id T) : Relationship Id T :=
  if r.touches a then rewritten opId now c a r r else r

/-- The merges of an op, on one row. -/
def applyRow (as : List Id) (r : Relationship Id T) : Relationship Id T :=
  as.foldl (fun r a => stepRow opId now c a r) r

/-- The invalidation by the op, cleared. -/
def revalidated (r : Relationship Id T) : Relationship Id T :=
  if r.invalidatedBy = some opId then { r with invalidatedAt := none, invalidatedBy := none } else r

/-- The undo of one merge, on the row that was `row` when the merge came to it. -/
def undoRow (a : Id) (row r : Relationship Id T) : Relationship Id T :=
  if row.touches a then
    if row.loops c a then revalidated opId (repointed row.snapshot r)
    else repointed row.snapshot r
  else r

/-- The undo of the merges of an op, in their order. -/
def undoRows : List Id → Relationship Id T → Relationship Id T → Relationship Id T
  | [], _, r => r
  | a :: as, row, r => undoRows as (stepRow opId now c a row) (undoRow opId c a row r)

variable {opId now c}

theorem id_rewritten (a : Id) (row r : Relationship Id T) :
    (rewritten opId now c a row r).id = r.id := by
  unfold rewritten
  split
  · rfl
  · rfl

theorem id_stepRow (a : Id) (r : Relationship Id T) : (stepRow opId now c a r).id = r.id := by
  unfold stepRow
  split
  · exact id_rewritten a r r
  · rfl

theorem id_applyRow (as : List Id) : ∀ r : Relationship Id T,
    (applyRow opId now c as r).id = r.id := by
  unfold applyRow
  induction as with
  | nil => exact fun r => rfl
  | cons a as ih =>
      intro r
      rw [List.foldl_cons, ih, id_stepRow]

theorem id_revalidated (r : Relationship Id T) : (revalidated opId r).id = r.id := by
  unfold revalidated
  split
  · rfl
  · rfl

theorem id_undoRow (a : Id) (row r : Relationship Id T) : (undoRow opId c a row r).id = r.id := by
  unfold undoRow
  split
  · split
    · exact id_revalidated _
    · rfl
  · rfl

theorem rewriteRelationship_eq (a : Id) (t : Table Id (Relationship Id T) Relationship.id)
    (row : Relationship Id T) :
    rewriteRelationship opId now c a t row =
      t.update (fun r => r.id = row.id) (rewritten opId now c a row) (id_rewritten a row) := by
  unfold rewriteRelationship
  apply Table.ext
  split
  · rename_i h
    simp [rewritten, h]
  · rename_i h
    simp [rewritten, h]

section Statements

variable {rows : List (Relationship Id T)} (hn : (rows.map Relationship.id).Nodup)
include hn

/-- A loop of statements by id over the rows that pass `p` changes exactly those rows. -/
theorem foldl_by_id {p : Relationship Id T → Bool}
    {f : Relationship Id T → Relationship Id T → Relationship Id T}
    (hf : ∀ row r, (f row r).id = r.id) {row : Relationship Id T} (hrow : row ∈ rows)
    {r : Relationship Id T} (hid : r.id = row.id) :
    (rows.filter p).foldl (fun r row => if r.id = row.id then f row r else r) r =
      if p row then f row r else r := by
  by_cases h : p row = true
  · rw [if_pos h]
    exact Table.foldl_key_of_mem hf (Table.nodup_filter hn p) (List.mem_filter.mpr ⟨hrow, h⟩) r hid
  · rw [if_neg h]
    apply Table.foldl_key_of_not_mem
    rw [hid, Table.key_mem_filter hn hrow]
    exact h

end Statements

/-- One merge acts on every row by `stepRow`. -/
theorem rows_applyMerge (verdict : Option VerifierDecision) (entry : MergeEntry Id)
    (s : DreamTables Id T) :
    (applyMerge opId now verdict entry s).1.relationships.rows =
      s.relationships.rows.map (stepRow opId now entry.canonicalId entry.absorbedId) := by
  have hfold : rewriteRelationship opId now entry.canonicalId entry.absorbedId =
      fun t row => t.update (fun r => r.id = row.id)
        (rewritten opId now entry.canonicalId entry.absorbedId row) (id_rewritten _ row) := by
    funext t row
    exact rewriteRelationship_eq _ t row
  show ((selectRelationshipsTouching s.relationships entry.absorbedId).foldl
    (rewriteRelationship opId now entry.canonicalId entry.absorbedId) s.relationships).rows = _
  rw [hfold, Table.rows_foldl_update (fun row r => decide (r.id = row.id))
    (rewritten opId now entry.canonicalId entry.absorbedId) (id_rewritten entry.absorbedId)]
  apply List.map_congr_left
  intro r hr
  simp only [decide_eq_true_eq]
  exact foldl_by_id s.relationships.nodup (id_rewritten entry.absorbedId) hr rfl

omit [DecidableEq Id] in
/-- The statements of `andChange` act on the table alone. -/
theorem foldl_andChange {R X : Type} {key : R → Id} (p : X → R → Bool) (f : X → R → R)
    (hf : ∀ x r, key (f x r) = key r) (xs : List X) : ∀ st : Table Id R key × Bool,
    (xs.foldl (fun st x => andChange st (p x) (f x) (hf x)) st).1.rows =
      st.1.rows.map fun r => xs.foldl (fun r x => if p x r then f x r else r) r := by
  intro st
  rw [← Table.rows_foldl_update p f hf]
  congr
  induction xs generalizing st with
  | nil => rfl
  | cons x xs ih => exact ih _

theorem rows_restoreEndpoints (rows : List (Relationship Id T))
    (st : Table Id (Relationship Id T) Relationship.id × Bool) :
    (restoreEndpoints (rows.map Relationship.snapshot) st).1.rows =
      st.1.rows.map fun r => rows.foldl
        (fun r row => if r.id = row.id then repointed row.snapshot r else r) r := by
  rw [restoreEndpoints, List.foldl_map,
    foldl_andChange (fun (row r : Relationship Id T) => decide (r.id = row.snapshot.id))
      (fun row => repointed row.snapshot)
      fun row => id_repointed row.snapshot]
  apply List.map_congr_left
  intro r _
  simp only [decide_eq_true_eq]
  rfl

theorem rows_clearSelfLoops (rows : List (Relationship Id T))
    (st : Table Id (Relationship Id T) Relationship.id × Bool) :
    (clearSelfLoops (some opId) (rows.map Relationship.id) st).1.rows =
      st.1.rows.map fun r => rows.foldl
        (fun r row => if r.id = row.id then revalidated opId r else r) r := by
  rw [clearSelfLoops, List.foldl_map,
    foldl_andChange (fun (row r : Relationship Id T) => decide (r.id = row.id) && r.invalidatedByOp (some opId))
      (fun _ r => { r with invalidatedAt := none, invalidatedBy := none }) fun _ _ => rfl]
  apply List.map_congr_left
  intro r _
  congr
  funext r row
  by_cases h : r.id = row.id
  · simp [h, revalidated, Relationship.invalidatedByOp]
  · simp [h]

/-- The undo of one merge acts on every row by `undoRow`, where the record was made of
the rows `F r` and the table has the rows `G r`. -/
theorem rows_reverseMerge {rows : List (Relationship Id T)} (hn : (rows.map Relationship.id).Nodup)
    {F G : Relationship Id T → Relationship Id T} (hF : ∀ r, (F r).id = r.id)
    (hG : ∀ r, (G r).id = r.id) (verdict : Option VerifierDecision) (entry : MergeEntry Id)
    {s s' : DreamTables Id T} (hs : s.relationships.rows = rows.map F)
    (b : Bool) (hs' : s'.relationships.rows = rows.map G) :
    (reverseMerge (some opId) (applyMerge opId now verdict entry s).2 (s', b)).1.relationships.rows =
      rows.map fun r => undoRow opId entry.canonicalId entry.absorbedId (F r) (G r) := by
  have hnF : ((rows.map F).map Relationship.id).Nodup := by
    have hcomp : Relationship.id ∘ F = Relationship.id := funext hF
    rw [List.map_map, hcomp]
    exact hn
  have happlied : (applyMerge opId now verdict entry s).2.applied = true := rfl
  have hprev : (applyMerge opId now verdict entry s).2.previousRelationships =
      ((rows.map F).filter (Relationship.touches entry.absorbedId)).map Relationship.snapshot := by
    rw [← hs]
    rfl
  have hloops : (applyMerge opId now verdict entry s).2.selfLoopsInvalidated =
      ((rows.map F).filter fun r => r.loops entry.canonicalId entry.absorbedId &&
        r.touches entry.absorbedId).map Relationship.id := by
    rw [← hs, ← List.filter_filter]
    rfl
  rw [reverseMerge, if_pos happlied]
  simp only [hprev, hloops]
  rw [rows_clearSelfLoops, rows_restoreEndpoints, List.map_map]
  show (s'.relationships.rows.map _) = _
  rw [hs', List.map_map]
  apply List.map_congr_left
  intro r hr
  have hmem : F r ∈ rows.map F := List.mem_map.mpr ⟨r, hr, rfl⟩
  have hid : (G r).id = (F r).id := by rw [hF, hG]
  simp only [Function.comp_apply]
  rw [@foldl_by_id _ _ _ _ hnF _ (fun row => repointed row.snapshot) (fun _ _ => rfl) _ hmem _ hid,
    @foldl_by_id _ _ _ _ hnF _ (fun _ => revalidated opId) (fun _ => id_revalidated) _ hmem]
  · rw [undoRow]
    cases (F r).touches entry.absorbedId
    · simp
    · cases (F r).loops entry.canonicalId entry.absorbedId
      · simp
      · simp
  · split
    · exact hid
    · exact hid

/-- `UPDATE entities SET valid_until = :ts WHERE id = :aid AND valid_until IS NULL`, on
one row. -/
def retire (now : T) (e : Entity Id T) (a : Id) : Entity Id T :=
  if e.id = a && e.validUntil.isNone then { e with validUntil := some now } else e

/-- The tombstone of an absorbed entity, cleared. -/
def revive (e : Entity Id T) (a : Id) : Entity Id T :=
  if e.id = a && e.validUntil.isSome then { e with validUntil := none } else e

/-- The verifier did not run on the entry, or said `merge`. -/
def authorized (band : VerifierBand) (judge : MergeEntry Id → VerifierDecision)
    (entry : MergeEntry Id) : Bool :=
  !((maybeRunVerifier band judge entry).any fun d => d != .merge)

/-- The entities that the op absorbs: those of the authorized merges. -/
def absorbedIds (band : VerifierBand) (judge : MergeEntry Id → VerifierDecision)
    (entries : List (MergeEntry Id)) : List Id :=
  (entries.filter (authorized band judge)).map MergeEntry.absorbedId

section Merges

variable {band : VerifierBand} {judge : MergeEntry Id → VerifierDecision}

omit [DecidableEq Id] in
theorem absorbedIds_cons (entry : MergeEntry Id) (entries : List (MergeEntry Id)) :
    absorbedIds band judge (entry :: entries) =
      if authorized band judge entry then entry.absorbedId :: absorbedIds band judge entries
      else absorbedIds band judge entries := by
  unfold absorbedIds
  cases h : authorized band judge entry
  · simp [h]
  · simp [h]

/-- One entry of the loop: an authorized merge, or a record that nothing was done. -/
theorem applyMerges_cons (entry : MergeEntry Id) (entries : List (MergeEntry Id))
    (s : DreamTables Id T) :
    (authorized band judge entry = true ∧
      applyMerges band judge opId now (entry :: entries) s =
        (let m := applyMerge opId now (maybeRunVerifier band judge entry) entry s
         let rest := applyMerges band judge opId now entries m.1
         (rest.1, m.2 :: rest.2))) ∨
    (authorized band judge entry = false ∧
      applyMerges band judge opId now (entry :: entries) s =
        (let rest := applyMerges band judge opId now entries s
         (rest.1, ⟨entry.canonicalId, entry.absorbedId, [], [], maybeRunVerifier band judge entry,
           false⟩ :: rest.2))) := by
  cases h : authorized band judge entry
  · have hd : ((maybeRunVerifier band judge entry).any fun d => d != .merge) = true := by
      simpa [authorized] using h
    exact .inr ⟨rfl, by simp [applyMerges, hd]⟩
  · have hd : ((maybeRunVerifier band judge entry).any fun d => d != .merge) = false := by
      simpa [authorized] using h
    exact .inl ⟨rfl, by simp [applyMerges, hd]⟩

/-- **The apply acts on every row by itself.** -/
theorem rows_applyMerges (entries : List (MergeEntry Id)) : ∀ s : DreamTables Id T,
    (∀ m ∈ entries, m.canonicalId = c) →
    (applyMerges band judge opId now entries s).1.relationships.rows =
      s.relationships.rows.map (applyRow opId now c (absorbedIds band judge entries)) ∧
    (applyMerges band judge opId now entries s).1.entities.rows =
      s.entities.rows.map fun e => (absorbedIds band judge entries).foldl (retire now) e := by
  induction entries with
  | nil =>
      intro s _
      refine ⟨?_, by simp [applyMerges, absorbedIds]⟩
      show s.relationships.rows = s.relationships.rows.map id
      rw [List.map_id]
  | cons entry entries ih =>
      intro s hc
      have hentry := hc entry List.mem_cons_self
      have hrest : ∀ m ∈ entries, m.canonicalId = c := fun m hm => hc m (List.mem_cons_of_mem _ hm)
      rw [absorbedIds_cons]
      rcases @applyMerges_cons _ _ _ opId now band judge entry entries s with ⟨hauth, heq⟩ | ⟨hauth, heq⟩
      · rw [heq, hauth, if_pos rfl]
        obtain ⟨hr, he⟩ := ih (applyMerge opId now (maybeRunVerifier band judge entry) entry s).1 hrest
        refine ⟨?_, ?_⟩
        · simp only
          rw [hr, rows_applyMerge, List.map_map, hentry]
          rfl
        · simp only
          rw [he]
          show ((s.entities.rows.map _).map _) = _
          rw [List.map_map]
          rfl
      · rw [heq, hauth]
        exact ih s hrest

/-- **The reverse acts on every row by itself**, where the records were made of the rows
`F r` and the table has the rows `G r`. -/
theorem rows_reverseMerges {rows : List (Relationship Id T)}
    (hn : (rows.map Relationship.id).Nodup) (entries : List (MergeEntry Id)) :
    ∀ (s : DreamTables Id T) (st : DreamTables Id T × Bool) (F G : Relationship Id T → Relationship Id T),
    (∀ m ∈ entries, m.canonicalId = c) → (∀ r, (F r).id = r.id) → (∀ r, (G r).id = r.id) →
    s.relationships.rows = rows.map F → st.1.relationships.rows = rows.map G →
    let out := (applyMerges band judge opId now entries s).2.foldl
      (fun st merge => reverseMerge (some opId) merge st) st
    out.1.relationships.rows = rows.map (fun r =>
      undoRows opId now c (absorbedIds band judge entries) (F r) (G r)) ∧
    out.1.entities.rows =
      st.1.entities.rows.map fun e => (absorbedIds band judge entries).foldl revive e := by
  induction entries with
  | nil =>
      intro s st F G _ _ _ _ hst
      simp [applyMerges, absorbedIds, undoRows, hst]
  | cons entry entries ih =>
      intro s st F G hc hF hG hs hst
      have hentry := hc entry List.mem_cons_self
      have hrest : ∀ m ∈ entries, m.canonicalId = c := fun m hm => hc m (List.mem_cons_of_mem _ hm)
      rw [absorbedIds_cons]
      rcases @applyMerges_cons _ _ _ opId now band judge entry entries s with ⟨hauth, heq⟩ | ⟨hauth, heq⟩
      · rw [heq, hauth, if_pos rfl]
        have hstep := @rows_reverseMerge _ _ _ opId now _ hn _ _ hF hG (maybeRunVerifier band judge entry)
          entry _ _ hs st.2 hst
        have happly := @rows_applyMerge _ _ _ opId now (maybeRunVerifier band judge entry) entry s
        rw [hs, List.map_map] at happly
        obtain ⟨hr, he⟩ := ih (applyMerge opId now (maybeRunVerifier band judge entry) entry s).1
          (reverseMerge (some opId)
            (applyMerge opId now (maybeRunVerifier band judge entry) entry s).2 st)
          (fun r => stepRow opId now entry.canonicalId entry.absorbedId (F r))
          (fun r => undoRow opId entry.canonicalId entry.absorbedId (F r) (G r)) hrest
          (fun r => by rw [id_stepRow, hF]) (fun r => by rw [id_undoRow, hG]) happly hstep
        refine ⟨?_, ?_⟩
        · simp only [List.foldl_cons]
          rw [hr, hentry]
          rfl
        · simp only [List.foldl_cons]
          rw [he]
          show ((st.1.entities.rows.map _).map _) = _
          rw [List.map_map]
          rfl
      · rw [heq, hauth]
        exact ih s st F G hrest hF hG hs hst

end Merges

/-! ## When one row comes back -/

variable {as : List Id} {r : Relationship Id T}

/-- The row is live. -/
def Relationship.live (r : Relationship Id T) : Bool := r.invalidatedAt.isNone

/-- The row touches none of the absorbed entities. -/
def Untouched (as : List Id) (r : Relationship Id T) : Prop :=
  r.live = true → r.sourceEntityId ∉ as ∧ r.targetEntityId ∉ as

theorem touches_iff {a : Id} : r.touches a = true ↔
    (r.sourceEntityId = a ∨ r.targetEntityId = a) ∧ r.live = true := by
  simp [Relationship.touches, Relationship.live]

theorem Untouched.not_touches (h : Untouched as r) {a : Id} (ha : a ∈ as) : r.touches a = false := by
  rw [← Bool.not_eq_true, touches_iff]
  rintro ⟨hend, hlive⟩
  obtain ⟨hs, ht⟩ := h hlive
  rcases hend with rfl | rfl
  · exact hs ha
  · exact ht ha

/-- Merges leave an untouched row alone. -/
theorem Untouched.applyRow (h : Untouched as r) : applyRow opId now c as r = r := by
  unfold Khora.applyRow
  induction as with
  | nil => rfl
  | cons a as ih =>
      rw [List.foldl_cons, stepRow, h.not_touches List.mem_cons_self]
      apply ih
      intro hlive
      obtain ⟨hs, ht⟩ := h hlive
      exact ⟨fun hm => hs (List.mem_cons_of_mem _ hm), fun hm => ht (List.mem_cons_of_mem _ hm)⟩

/-- So does their undo, whatever the row has become. -/
theorem Untouched.undoRows (h : Untouched as r) : ∀ r', undoRows opId now c as r r' = r' := by
  induction as with
  | nil => exact fun r' => rfl
  | cons a as ih =>
      intro r'
      have htouch := h.not_touches List.mem_cons_self
      rw [Khora.undoRows, stepRow, undoRow, htouch]
      apply ih
      intro hlive
      obtain ⟨hs, ht⟩ := h hlive
      exact ⟨fun hm => hs (List.mem_cons_of_mem _ hm), fun hm => ht (List.mem_cons_of_mem _ hm)⟩

/-- A live row between the canonical entity and one absorbed: the undo sets the
endpoints that the row has now. -/
theorem undoRows_canonical (hc : c ∉ as) (hn : as.Nodup) {b : Id} (hb : b ∈ as)
    (hlive : r.live = true)
    (hends : r.sourceEntityId = c ∧ r.targetEntityId = b ∨ r.sourceEntityId = b ∧ r.targetEntityId = c) :
    ∀ r', (undoRows opId now c as r r').sourceEntityId = r.sourceEntityId ∧
      (undoRows opId now c as r r').targetEntityId = r.targetEntityId := by
  induction as with
  | nil => cases hb
  | cons a as ih =>
      intro r'
      rw [List.mem_cons, not_or] at hc
      rw [List.nodup_cons] at hn
      rw [undoRows]
      by_cases hab : a = b
      · subst hab
        -- the merge of `b` makes the row a self-loop, and no later one touches it
        have htouch : r.touches a = true := by
          rw [touches_iff]
          rcases hends with ⟨-, h⟩ | ⟨h, -⟩
          · exact ⟨.inr h, hlive⟩
          · exact ⟨.inl h, hlive⟩
        have hloops : r.loops c a = true := by
          rcases hends with ⟨h, h'⟩ | ⟨h, h'⟩
          · simp [Relationship.loops, redirect, h, h']
          · simp [Relationship.loops, redirect, h, h']
        have hdead : Untouched as (stepRow opId now c a r) := by
          intro h
          simp [stepRow, htouch, rewritten, hloops, Relationship.live] at h
        rw [hdead.undoRows, undoRow, if_pos htouch, if_pos hloops]
        unfold revalidated
        split
        · exact ⟨rfl, rfl⟩
        · exact ⟨rfl, rfl⟩
      · have htouch : r.touches a = false := by
          rw [← Bool.not_eq_true, touches_iff]
          rintro ⟨h, -⟩
          rcases hends with ⟨h₁, h₂⟩ | ⟨h₁, h₂⟩
          · rcases h with h | h
            · exact hc.1 (h₁.symm.trans h)
            · exact hab (h.symm.trans h₂)
          · rcases h with h | h
            · exact hab (h.symm.trans h₁)
            · exact hc.1 (h₂.symm.trans h)
        have hb' : b ∈ as := by
          rcases List.mem_cons.mp hb with h | h
          · exact absurd h.symm hab
          · exact h
        rw [stepRow, htouch]
        exact ih hc.2 hn.2 hb' _

/-- What the row must meet: no other absorbed entity at its other end, and no
`invalidated_by` that the invalidation as a self-loop would overwrite. -/
def Relationship.Restorable (c : Id) (as : List Id) (r : Relationship Id T) : Prop :=
  r.live = true →
    ¬ (r.sourceEntityId ∈ as ∧ r.targetEntityId ∈ as ∧ r.sourceEntityId ≠ r.targetEntityId) ∧
    (r.sourceEntityId ∈ as ∨ r.targetEntityId ∈ as →
      r.sourceEntityId ∈ as ∨ r.sourceEntityId = c →
      r.targetEntityId ∈ as ∨ r.targetEntityId = c → r.invalidatedBy = none)

/-- A row that becomes a self-loop comes back without its `invalidated_by`. -/
theorem undoRow_of_loops {a : Id} (hlive : r.live = true) (htouch : r.touches a = true)
    (hloops : r.loops c a = true) :
    undoRow opId c a r (stepRow opId now c a r) = r ↔ r.invalidatedBy = none := by
  have hat : r.invalidatedAt = none := by simpa [Relationship.live] using hlive
  have hundo : undoRow opId c a r (stepRow opId now c a r) = { r with invalidatedBy := none } := by
    simp [undoRow, stepRow, htouch, rewritten, hloops, revalidated, repointed,
      Relationship.snapshot, hat]
  rw [hundo]
  constructor
  · intro h
    exact (congrArg Relationship.invalidatedBy h).symm
  · intro h
    cases r
    cases h
    rfl

/-- A row that is redirected comes back. -/
theorem undoRow_of_not_loops {a : Id} (htouch : r.touches a = true) (hloops : r.loops c a = false) :
    undoRow opId c a r (stepRow opId now c a r) = r := by
  simp [undoRow, stepRow, htouch, rewritten, hloops, repointed, Relationship.snapshot]

theorem restorable_cons_of_not_touches {a : Id} (htouch : r.touches a = false) :
    r.Restorable c (a :: as) ↔ r.Restorable c as := by
  have hends : r.live = true → r.sourceEntityId ≠ a ∧ r.targetEntityId ≠ a := by
    intro hlive
    rw [← Bool.not_eq_true, touches_iff] at htouch
    exact ⟨fun h => htouch ⟨.inl h, hlive⟩, fun h => htouch ⟨.inr h, hlive⟩⟩
  unfold Relationship.Restorable
  apply forall_congr'
  intro hlive
  obtain ⟨hs, ht⟩ := hends hlive
  simp only [List.mem_cons, hs, ht, false_or]

/-- The two ends of a row that a merge turns into a self-loop. -/
theorem ends_of_loops {a : Id} (htouch : r.touches a = true) (hloops : r.loops c a = true) :
    (r.sourceEntityId = a ∧ (r.targetEntityId = a ∨ r.targetEntityId = c)) ∨
      (r.targetEntityId = a ∧ r.sourceEntityId = c) := by
  rw [touches_iff] at htouch
  replace hloops : redirect c a r.sourceEntityId = redirect c a r.targetEntityId :=
    of_decide_eq_true hloops
  unfold redirect at hloops
  rcases htouch.1 with hs | ht
  · refine .inl ⟨hs, ?_⟩
    by_cases ht : r.targetEntityId = a
    · exact .inl ht
    · rw [if_pos hs, if_neg ht] at hloops
      exact .inr hloops.symm
  · by_cases hs : r.sourceEntityId = a
    · exact .inl ⟨hs, .inl ht⟩
    · rw [if_neg hs, if_pos ht] at hloops
      exact .inr ⟨ht, hloops⟩

/-- The two ends of a row that a merge redirects. -/
theorem ends_of_not_loops {a : Id} (htouch : r.touches a = true) (hloops : r.loops c a = false) :
    (r.sourceEntityId = a ∧ r.targetEntityId ≠ a ∧ r.targetEntityId ≠ c) ∨
      (r.targetEntityId = a ∧ r.sourceEntityId ≠ a ∧ r.sourceEntityId ≠ c) := by
  rw [touches_iff] at htouch
  replace hloops : ¬ redirect c a r.sourceEntityId = redirect c a r.targetEntityId :=
    of_decide_eq_false hloops
  unfold redirect at hloops
  rcases htouch.1 with hs | ht
  · rw [if_pos hs] at hloops
    refine .inl ⟨hs, fun ht => ?_, fun ht => ?_⟩
    · rw [if_pos ht] at hloops
      exact hloops rfl
    · by_cases hta : r.targetEntityId = a
      · rw [if_pos hta] at hloops
        exact hloops rfl
      · rw [if_neg hta, ht] at hloops
        exact hloops rfl
  · rw [if_pos ht] at hloops
    refine .inr ⟨ht, fun hs => ?_, fun hs => ?_⟩
    · rw [if_pos hs] at hloops
      exact hloops rfl
    · by_cases hsa : r.sourceEntityId = a
      · rw [if_pos hsa] at hloops
        exact hloops rfl
      · rw [if_neg hsa, hs] at hloops
        exact hloops rfl

theorem restorable_of_loops {a : Id} (hc : c ∉ a :: as) (hlive : r.live = true)
    (htouch : r.touches a = true) (hloops : r.loops c a = true) :
    r.Restorable c (a :: as) ↔ r.invalidatedBy = none := by
  have hends := ends_of_loops htouch hloops
  constructor
  · intro h
    apply (h hlive).2
    · rcases hends with ⟨hs, -⟩ | ⟨ht, -⟩
      · exact .inl (by simp [hs])
      · exact .inr (by simp [ht])
    · rcases hends with ⟨hs, -⟩ | ⟨-, hs⟩
      · exact .inl (by simp [hs])
      · exact .inr hs
    · rcases hends with ⟨-, ht | ht⟩ | ⟨ht, -⟩
      · exact .inl (by simp [ht])
      · exact .inr ht
      · exact .inl (by simp [ht])
  · intro hby _
    refine ⟨?_, fun _ _ _ => hby⟩
    rintro ⟨hs, ht, hne⟩
    rcases hends with ⟨hs', ht' | ht'⟩ | ⟨-, hs'⟩
    · exact hne (hs'.trans ht'.symm)
    · exact hc (ht' ▸ ht)
    · exact hc (hs' ▸ hs)

/-- **One row comes back exactly if it is restorable.** -/
theorem undoRows_applyRow_iff (hc : c ∉ as) (hn : as.Nodup) :
    undoRows opId now c as r (applyRow opId now c as r) = r ↔ r.Restorable c as := by
  induction as generalizing r with
  | nil => simp [undoRows, applyRow, Relationship.Restorable]
  | cons a as ih =>
      have hc' := hc
      rw [List.mem_cons, not_or] at hc'
      rw [List.nodup_cons] at hn
      have hstep : applyRow opId now c (a :: as) r = applyRow opId now c as (stepRow opId now c a r) := rfl
      rw [undoRows, hstep]
      cases htouch : r.touches a with
      | false =>
          rw [restorable_cons_of_not_touches htouch, stepRow, undoRow, htouch]
          exact ih hc'.2 hn.2
      | true =>
          have hlive := (touches_iff.mp htouch).2
          cases hloops : r.loops c a with
          | true =>
              -- invalidated by this merge: no later one touches the row
              have hdead : Untouched as (stepRow opId now c a r) := by
                intro h
                simp [stepRow, htouch, rewritten, hloops, Relationship.live] at h
              rw [hdead.applyRow, hdead.undoRows, undoRow_of_loops hlive htouch hloops,
                restorable_of_loops hc hlive htouch hloops]
          | false =>
              have hrow : stepRow opId now c a r = { r with
                  sourceEntityId := redirect c a r.sourceEntityId
                  targetEntityId := redirect c a r.targetEntityId } := by
                simp [stepRow, htouch, rewritten, hloops]
              have hlive' : (stepRow opId now c a r).live = true := by
                rw [hrow]
                exact hlive
              rcases ends_of_not_loops htouch hloops with ⟨hs, hta, htc⟩ | ⟨ht, hsa, hsc⟩
              · have hs' : (stepRow opId now c a r).sourceEntityId = c := by simp [hrow, redirect, hs]
                have ht' : (stepRow opId now c a r).targetEntityId = r.targetEntityId := by
                  simp [hrow, redirect, hta]
                by_cases hmem : r.targetEntityId ∈ as
                · -- the other end is absorbed later, and its snapshot has `c` for `a`
                  have hends := @undoRows_canonical _ _ _ opId now c _ _ hc'.2 hn.2 _ hmem hlive'
                    (.inl ⟨hs', ht'⟩)
                  refine iff_of_false (fun h => ?_) fun h => ?_
                  · have := (hends (undoRow opId c a r (applyRow opId now c as (stepRow opId now c a r)))).1
                    rw [h, hs', hs] at this
                    exact hc'.1 this.symm
                  · exact (h hlive).1 ⟨by simp [hs], by simp [hmem], fun heq => hta (heq ▸ hs)⟩
                · have hrest : Untouched as (stepRow opId now c a r) := by
                    intro _
                    rw [hs', ht']
                    exact ⟨hc'.2, hmem⟩
                  rw [hrest.applyRow, hrest.undoRows, undoRow_of_not_loops htouch hloops]
                  refine iff_of_true rfl fun _ => ⟨?_, ?_⟩
                  · rintro ⟨-, h, -⟩
                    simp [hta, hmem] at h
                  · intro _ _ h
                    simp [hta, hmem, htc] at h
              · have ht' : (stepRow opId now c a r).targetEntityId = c := by simp [hrow, redirect, ht]
                have hs' : (stepRow opId now c a r).sourceEntityId = r.sourceEntityId := by
                  simp [hrow, redirect, hsa]
                by_cases hmem : r.sourceEntityId ∈ as
                · have hends := @undoRows_canonical _ _ _ opId now c _ _ hc'.2 hn.2 _ hmem hlive'
                    (.inr ⟨hs', ht'⟩)
                  refine iff_of_false (fun h => ?_) fun h => ?_
                  · have := (hends (undoRow opId c a r (applyRow opId now c as (stepRow opId now c a r)))).2
                    rw [h, ht', ht] at this
                    exact hc'.1 this.symm
                  · exact (h hlive).1 ⟨by simp [hmem], by simp [ht], fun heq => hsa (heq.trans ht)⟩
                · have hrest : Untouched as (stepRow opId now c a r) := by
                    intro _
                    rw [hs', ht']
                    exact ⟨hmem, hc'.2⟩
                  rw [hrest.applyRow, hrest.undoRows, undoRow_of_not_loops htouch hloops]
                  refine iff_of_true rfl fun _ => ⟨?_, ?_⟩
                  · rintro ⟨h, -, -⟩
                    simp [hsa, hmem] at h
                  · intro _ h _
                    simp [hsa, hmem, hsc] at h

/-! ## When one entity comes back -/

theorem foldl_retire (now : T) (as : List Id) : ∀ e : Entity Id T,
    as.foldl (retire now) e =
      if e.id ∈ as ∧ e.validUntil = none then { e with validUntil := some now } else e := by
  induction as with
  | nil => simp
  | cons a as ih =>
      intro e
      rw [List.foldl_cons, ih, retire]
      by_cases ha : e.id = a
      · cases he : e.validUntil
        · simp [ha]
        · simp [ha, he]
      · simp [ha]

theorem foldl_revive (as : List Id) : ∀ e : Entity Id T,
    as.foldl revive e = if e.id ∈ as then { e with validUntil := none } else e := by
  induction as with
  | nil => simp
  | cons a as ih =>
      intro e
      rw [List.foldl_cons, ih, revive]
      by_cases ha : e.id = a
      · cases he : e.validUntil
        · obtain ⟨i, v⟩ := e
          subst ha
          cases he
          simp
        · simp [ha]
      · simp [ha]

/-- **An entity comes back exactly if it was not retired before it was absorbed.** -/
theorem revive_retire_iff {e : Entity Id T} :
    as.foldl revive (as.foldl (retire now) e) = e ↔ (e.id ∈ as → e.validUntil = none) := by
  rw [foldl_revive, foldl_retire]
  by_cases hmem : e.id ∈ as
  · have hid : (if e.id ∈ as ∧ e.validUntil = none then { e with validUntil := some now } else e).id =
        e.id := by
      split
      · rfl
      · rfl
    rw [hid, if_pos hmem]
    constructor
    · intro h _
      exact (congrArg Entity.validUntil h).symm
    · intro h
      obtain ⟨i, v⟩ := e
      cases h hmem
      simp
  · simp [hmem]

end Rows

/-! ## Undo -/

section Undo

variable [DecidableEq Id] (band : VerifierBand)

/-- The ops the property is about: one canonical entity, and distinct absorbed ones. -/
structure DedupeOp.Coherent (op : DedupeOp Id) (c : Id) : Prop where
  canonical : ∀ m ∈ op.merges, m.canonicalId = c
  distinct : (op.merges.map MergeEntry.absorbedId).Nodup
  other : c ∉ op.merges.map MergeEntry.absorbedId

/-- What the tables must meet for the undo of the op to restore them. -/
def DreamTables.Restorable (s : DreamTables Id T) (c : Id) (as : List Id) : Prop :=
  (∀ r ∈ s.relationships.rows, r.Restorable c as) ∧
    ∀ e ∈ s.entities.rows, e.id ∈ as → e.validUntil = none

/-- One op as it is applied, with the clock and the judge. -/
structure DedupeRun (Id T : Type) where
  op : DedupeOp Id
  now : T
  judge : MergeEntry Id → VerifierDecision

variable {band} in
/-- **The undo of one op restores the tables exactly if they are restorable.** -/
theorem reverse_apply_iff {judge : MergeEntry Id → VerifierDecision} {now : T} {op : DedupeOp Id}
    {c : Id} (hop : op.Coherent c) (s : DreamTables Id T) :
    (reverseVectorcypherDedupeEntities (applyVectorcypherDedupeEntities band judge now op s).2
      (applyVectorcypherDedupeEntities band judge now op s).1).1 = s ↔
      s.Restorable c (absorbedIds band judge op.merges) := by
  have hsub : (absorbedIds band judge op.merges).Sublist (op.merges.map MergeEntry.absorbedId) :=
    List.filter_sublist.map _
  have hn := hsub.nodup hop.distinct
  have hc : c ∉ absorbedIds band judge op.merges := fun h => hop.other (hsub.subset h)
  obtain ⟨hr, he⟩ := rows_applyMerges op.merges s hop.canonical
  have hid : ∀ r, (applyRow op.opId now c (absorbedIds band judge op.merges) r).id = r.id :=
    id_applyRow _
  obtain ⟨hr', he'⟩ := @rows_reverseMerges _ _ _ op.opId now c band judge _ s.relationships.nodup
    op.merges s ((applyMerges band judge op.opId now op.merges s).1, false) id _ hop.canonical
    (fun _ => rfl) hid (List.map_id _).symm hr
  rw [he, List.map_map] at he'
  have hrows : s.relationships.rows.map (fun r => undoRows op.opId now c
        (absorbedIds band judge op.merges) r
        (applyRow op.opId now c (absorbedIds band judge op.merges) r)) = s.relationships.rows ↔
      ∀ r ∈ s.relationships.rows, r.Restorable c (absorbedIds band judge op.merges) := by
    rw [Table.map_eq_self]
    apply forall₂_congr
    intro r _
    exact undoRows_applyRow_iff hc hn
  have hents : s.entities.rows.map ((fun e => (absorbedIds band judge op.merges).foldl revive e) ∘
        fun e => (absorbedIds band judge op.merges).foldl (retire now) e) = s.entities.rows ↔
      ∀ e ∈ s.entities.rows, e.id ∈ absorbedIds band judge op.merges → e.validUntil = none := by
    rw [Table.map_eq_self]
    apply forall₂_congr
    intro e _
    exact revive_retire_iff
  unfold DreamTables.Restorable
  rw [← hrows, ← hents]
  constructor
  · intro h
    refine ⟨hr'.symm.trans ?_, he'.symm.trans ?_⟩
    · exact congrArg (fun s => s.relationships.rows) h
    · exact congrArg (fun s => s.entities.rows) h
  · rintro ⟨h, h'⟩
    exact DreamTables.ext (hr'.trans h) (he'.trans h')

/-- The tables after one op. -/
def applyRun (s : DreamTables Id T) (run : DedupeRun Id T) : DreamTables Id T :=
  (applyVectorcypherDedupeEntities band run.judge run.now run.op s).1

/-- Ops applied one after another, with the undo records, the latest first. -/
def applyAll : List (DedupeRun Id T) → DreamTables Id T → DreamTables Id T × List (UndoRecord Id)
  | [], s => (s, [])
  | run :: runs, s =>
      let (s', undo) := applyVectorcypherDedupeEntities band run.judge run.now run.op s
      let (s'', undos) := applyAll runs s'
      (s'', undos ++ [undo])

/-- `dream_undo` of each record in turn. -/
def undoAll (undos : List (UndoRecord Id)) (s : DreamTables Id T) : DreamTables Id T :=
  undos.foldl (fun s undo => (reverseVectorcypherDedupeEntities undo s).1) s

/-- The op is one of those, and the state it is applied to is restorable. -/
def RestorableRun (s : DreamTables Id T) (run : DedupeRun Id T) : Prop :=
  ∃ c, run.op.Coherent c ∧ s.Restorable c (absorbedIds band run.judge run.op.merges)

/-- **Undo is the inverse of apply, exactly where the tables are restorable.**  For one op
the condition is also necessary; for a sequence of ops it is enough that each op meets it
in the state it is applied to. -/
theorem dedupe_undo_exact :
    (∀ (judge : MergeEntry Id → VerifierDecision) (now : T) (op : DedupeOp Id) (c : Id)
      (s : DreamTables Id T), op.Coherent c →
      ((reverseVectorcypherDedupeEntities (applyVectorcypherDedupeEntities band judge now op s).2
        (applyVectorcypherDedupeEntities band judge now op s).1).1 = s ↔
        s.Restorable c (absorbedIds band judge op.merges))) ∧
    ∀ (runs : List (DedupeRun Id T)) (s : DreamTables Id T),
      Runs.Guarded (applyRun band) (RestorableRun band) s runs →
      undoAll (applyAll band runs s).2 (applyAll band runs s).1 = s := by
  refine ⟨fun judge now op c s hop => reverse_apply_iff hop s, ?_⟩
  intro runs
  induction runs with
  | nil => exact fun s _ => rfl
  | cons run runs ih =>
      rintro s ⟨⟨c, hop, hs⟩, hrest⟩
      have hlater := ih _ hrest
      unfold undoAll applyRun at hlater
      simp only [applyAll, undoAll, List.foldl_append, List.foldl_cons, List.foldl_nil]
      rw [hlater]
      exact (reverse_apply_iff hop s).mpr hs

end Undo

/-! ## Runs -/

/-- Entity 10 absorbs 11 and 12, whose pairs carry no score. -/
def dedupeOp : DedupeOp ℕ :=
  { opId := 90, merges := [⟨10, 11, none⟩, ⟨10, 12, none⟩] }

theorem coherent_dedupeOp : dedupeOp.Coherent 10 where
  canonical := by decide
  distinct := by decide
  other := by decide

/-- The default band of `DreamConfig`. -/
def defaultBand : VerifierBand := ⟨78 / 100, 95 / 100⟩

/-- A judge that defers every pair it is asked about. -/
def deferring : MergeEntry ℕ → VerifierDecision := fun _ => .defer

/-- Entities 10 to 13, none of them retired. -/
def liveEntities : Table ℕ (Entity ℕ ℕ) Entity.id where
  rows := [⟨10, none⟩, ⟨11, none⟩, ⟨12, none⟩, ⟨13, none⟩]
  nodup := by decide

/-- A relationship to an outsider, one that becomes a self-loop, and one that is dead. -/
def mergeable : DreamTables ℕ ℕ where
  relationships :=
    { rows := [⟨1, 11, 13, "KNOWS", none, none⟩, ⟨2, 10, 12, "KNOWS", none, none⟩,
        ⟨3, 11, 12, "KNOWS", some 5, some 80⟩]
      nodup := by decide }
  entities := liveEntities

/-- A second op, which absorbs the canonical entity of the first one. -/
def secondOp : DedupeOp ℕ :=
  { opId := 91, merges := [⟨13, 10, none⟩] }

theorem coherent_secondOp : secondOp.Coherent 13 where
  canonical := by decide
  distinct := by decide
  other := by decide

def twoRuns : List (DedupeRun ℕ ℕ) := [⟨dedupeOp, 100, deferring⟩, ⟨secondOp, 200, deferring⟩]

theorem dedupe_undo_twoRuns :
    (applyAll defaultBand twoRuns mergeable).1 ≠ mergeable ∧
      undoAll (applyAll defaultBand twoRuns mergeable).2 (applyAll defaultBand twoRuns mergeable).1 =
        mergeable := by
  refine ⟨?_, (dedupe_undo_exact defaultBand).2 twoRuns mergeable
    ⟨⟨10, coherent_dedupeOp, ?_⟩, ⟨13, coherent_secondOp, ?_⟩, trivial⟩⟩
  · intro h
    have hrows := congrArg (fun s => s.entities.rows) h
    revert hrows
    decide
  · show mergeable.Restorable 10 [11, 12]
    unfold DreamTables.Restorable Relationship.Restorable
    decide
  · show (applyRun defaultBand mergeable ⟨dedupeOp, 100, deferring⟩).Restorable 13 [10]
    unfold DreamTables.Restorable Relationship.Restorable
    decide

/-- A live relationship between two entities that the op absorbs. -/
def absorbedPair : DreamTables ℕ ℕ where
  relationships := { rows := [⟨1, 11, 12, "KNOWS", none, none⟩], nodup := by decide }
  entities := liveEntities

/-- **A relationship between two absorbed entities comes back with the canonical entity
as its source**: the second snapshot, taken after the first rewrite, is restored last. -/
theorem absorbedPair_lost :
    dedupeOp.Coherent 10 ∧
    (reverseVectorcypherDedupeEntities
      (applyVectorcypherDedupeEntities defaultBand deferring 100 dedupeOp absorbedPair).2
      (applyVectorcypherDedupeEntities defaultBand deferring 100 dedupeOp absorbedPair).1).1.relationships.rows
      = [⟨1, 10, 12, "KNOWS", none, none⟩] ∧
    absorbedPair.relationships.rows = [⟨1, 11, 12, "KNOWS", none, none⟩] :=
  ⟨coherent_dedupeOp, by decide, rfl⟩

end Khora
