import Khora.Dream.SurrealApply
import Khora.Lib.Runs

/-!
# A dedupe on SurrealDB that is interrupted

The statements of one merge are sent as one batch, outside a transaction: a send can fail after
any of them, is sent again on a write conflict, and where it fails for good the whole op is
replayed later.  An edge is moved by two statements, its soft-delete and its re-creation.

* `run_take` — what a prefix of the batch leaves: edges moved, and at most one that is
  soft-deleted only.
* `executeBatch_eq` — sending prefixes again and again comes to the longest of them.
* `image_tries` — what the op makes of the live edges is what it makes of the first ones, but for
  the edges that were left behind.
* `replay_iff` — a replay comes to what one apply comes to if and only if every edge left behind
  is one that the op drops.
-/

namespace Khora

variable {Id T : Type}

/-! ## The batch -/

/-- A statement of the batch of one merge. -/
inductive DedupeStatement (Id T : Type) where
  | retireEdge (relId : Id)
  | relate (edge : RelatesTo Id T)
  | retireEntity (absorbedId : Id)

/-- What became of a batch: the number of statements that each failed send had executed, and
whether the last send returned. -/
structure BatchRun where
  sends : List ℕ
  returned : Bool

/-- One try of the handler. -/
structure DedupeTry (T : Type) where
  now : T
  batches : List BatchRun

section Batch

variable [DecidableEq Id]

/-- One statement; the index on `rel_id` refuses an edge whose id is there. -/
def execStatement (now : T) (s : SurrealTables Id T) :
    DedupeStatement Id T → SurrealTables Id T
  | .retireEdge relId =>
      ⟨s.relatesTo.update (fun e => decide (e.relId = relId) && e.validUntil.isNone)
        (fun e => { e with validUntil := some now }) (relId_retired now), s.entities⟩
  | .relate edge => ⟨(s.relatesTo.insert edge).getD s.relatesTo, s.entities⟩
  | .retireEntity a =>
      ⟨s.relatesTo, s.entities.update (fun e => decide (e.id = a) && e.validUntil.isNone)
        (fun e => { e with validUntil := some now }) (id_retired now)⟩

/-- The statements for one edge. -/
def edgeStatements (mint : Id → Id → Id) (c a : Id) (row : RelatesTo Id T) :
    List (DedupeStatement Id T) :=
  .retireEdge row.relId :: if row.loops c a then [] else [.relate (row.repointed mint c a)]

/-- The live edges of the absorbed entity, as the handler selects them. -/
def SurrealTables.incident (s : SurrealTables Id T) (a : Id) : List (RelatesTo Id T) :=
  s.relatesTo.rows.filter (RelatesTo.touches a)

/-- `batch_stmts` -/
def mergeBatch (mint : Id → Id → Id) (s : SurrealTables Id T) (entry : MergeEntry Id) :
    List (DedupeStatement Id T) :=
  (s.incident entry.absorbedId).flatMap
      (edgeStatements mint entry.canonicalId entry.absorbedId) ++
    [.retireEntity entry.absorbedId]

/-- `execute_batch`: the sends that failed, and then the one that returned. -/
def executeBatch (now : T) (batch : List (DedupeStatement Id T)) (b : BatchRun)
    (s : SurrealTables Id T) : SurrealTables Id T :=
  let failed := b.sends.foldl (fun s n => Runs.run (execStatement now) s (batch.take n)) s
  if b.returned then Runs.run (execStatement now) failed batch else failed

/-- `_apply_dedupe_entities`, and whether it returned; it stops at the first batch that does
not. -/
def tryDedupe (mint : Id → Id → Id) (now : T) :
    List (MergeEntry Id) → List BatchRun → SurrealTables Id T → SurrealTables Id T × Bool
  | [], _, s => (s, true)
  | _ :: _, [], s => (s, false)
  | entry :: merges, b :: batches, s =>
      let s' := executeBatch now (mergeBatch mint s entry) b s
      if b.returned then tryDedupe mint now merges batches s' else (s', false)

/-- The op tried again and again. -/
def triesDedupe (mint : Id → Id → Id) (op : DedupeOp Id) (tries : List (DedupeTry T))
    (s : SurrealTables Id T) : SurrealTables Id T :=
  tries.foldl (fun s t => (tryDedupe mint t.now op.merges t.batches s).1) s

end Batch

/-! ## A prefix of the batch -/

section Prefix

variable [DecidableEq Id] {mint : Id → Id → Id} {now : T} {c a : Id}

/-- The edges whose statements are among the first `n`, and the one that is soft-deleted but not
created. -/
def cutAt (c a : Id) : List (RelatesTo Id T) → ℕ → List (RelatesTo Id T) × Option (RelatesTo Id T)
  | [], _ => ([], none)
  | _ :: _, 0 => ([], none)
  | row :: rows, n + 1 =>
      if row.loops c a then (row :: (cutAt c a rows n).1, (cutAt c a rows n).2)
      else match n with
        | 0 => ([], some row)
        | n + 1 => (row :: (cutAt c a rows n).1, (cutAt c a rows n).2)

theorem cutAt_split (rows : List (RelatesTo Id T)) (n : ℕ) :
    ∃ rest, rows = (cutAt c a rows n).1 ++ (cutAt c a rows n).2.toList ++ rest := by
  induction rows generalizing n with
  | nil => exact ⟨[], rfl⟩
  | cons row rows ih =>
      cases n with
      | zero => exact ⟨row :: rows, rfl⟩
      | succ n =>
          unfold cutAt
          split
          · obtain ⟨rest, hrest⟩ := ih n
            exact ⟨rest, by rw [List.cons_append, List.cons_append, ← hrest]⟩
          · cases n with
            | zero => exact ⟨rows, rfl⟩
            | succ n =>
                obtain ⟨rest, hrest⟩ := ih n
                exact ⟨rest, by rw [List.cons_append, List.cons_append, ← hrest]⟩

/-- **The first statements of a batch**, by what they do. -/
theorem take_batch (rows : List (RelatesTo Id T)) (tail : List (DedupeStatement Id T)) (n : ℕ) :
    ∃ m, ((rows.flatMap (edgeStatements mint c a)) ++ tail).take n =
      (cutAt c a rows n).1.flatMap (edgeStatements mint c a) ++
        (cutAt c a rows n).2.toList.map (fun row => .retireEdge row.relId) ++ tail.take m := by
  induction rows generalizing n with
  | nil => exact ⟨n, rfl⟩
  | cons row rows ih =>
      cases n with
      | zero => exact ⟨0, rfl⟩
      | succ n =>
          unfold cutAt
          split
          · rename_i hloops
            obtain ⟨m, hm⟩ := ih n
            refine ⟨m, ?_⟩
            simp only [List.flatMap_cons, edgeStatements, hloops, if_true, List.cons_append,
              List.nil_append, List.take_succ_cons]
            rw [hm]
          · rename_i hloops
            cases n with
            | zero =>
                refine ⟨0, ?_⟩
                simp [edgeStatements]
            | succ n =>
                obtain ⟨m, hm⟩ := ih n
                refine ⟨m, ?_⟩
                simp only [List.flatMap_cons, edgeStatements, if_neg hloops, List.cons_append,
                  List.nil_append, List.take_succ_cons]
                rw [hm]

/-- The statements of edges that are moved are the turns of the loop. -/
theorem run_edges {rows : List (RelatesTo Id T)} {s : SurrealTables Id T}
    {t : Table Id (RelatesTo Id T) RelatesTo.relId}
    (h : rows.foldlM (repoint mint now c a) s.relatesTo = some t) :
    Runs.run (execStatement now) s (rows.flatMap (edgeStatements mint c a)) = ⟨t, s.entities⟩ := by
  induction rows generalizing s with
  | nil =>
      cases h
      rfl
  | cons row rows ih =>
      rw [List.foldlM_cons] at h
      cases hrow : repoint mint now c a s.relatesTo row with
      | none =>
          rw [hrow] at h
          cases h
      | some t₁ =>
          rw [hrow] at h
          have hstep : Runs.run (execStatement now) s (edgeStatements mint c a row) =
              ⟨t₁, s.entities⟩ := by
            unfold repoint at hrow
            simp only at hrow
            unfold edgeStatements
            cases hloops : row.loops c a with
            | true =>
                rw [hloops, if_pos rfl] at hrow
                cases hrow
                rfl
            | false =>
                rw [hloops, if_neg Bool.false_ne_true] at hrow
                have hins : (execStatement now s (.retireEdge row.relId)).relatesTo.insert
                    (row.repointed mint c a) = some t₁ := hrow
                show SurrealTables.mk (Option.getD _ _) s.entities = _
                rw [hins]
                rfl
          rw [List.flatMap_cons, Runs.run_append, hstep]
          exact ih h

theorem retireEdges_append (ids ids' : List Id) (e : RelatesTo Id T) :
    retireEdges now ids' (retireEdges now ids e) = retireEdges now (ids ++ ids') e := by
  unfold retireEdges
  by_cases h : e.relId ∈ ids ∧ e.validUntil = none
  · have happ : e.relId ∈ ids ++ ids' ∧ e.validUntil = none :=
      ⟨List.mem_append_left _ h.1, h.2⟩
    rw [if_pos h, if_pos happ, if_neg (fun h' => by cases h'.2)]
  · rw [if_neg h]
    by_cases h' : e.relId ∈ ids' ∧ e.validUntil = none
    · rw [if_pos h', if_pos ⟨List.mem_append_right _ h'.1, h'.2⟩]
    · rw [if_neg h', if_neg ?_]
      rintro ⟨hmem, hv⟩
      rcases List.mem_append.mp hmem with hmem | hmem
      · exact h ⟨hmem, hv⟩
      · exact h' ⟨hmem, hv⟩

/-- The soft-delete alone. -/
theorem retireEdges_singleton (i : Id) (e : RelatesTo Id T) :
    (if (decide (e.relId = i) && e.validUntil.isNone) = true then
      { e with validUntil := some now } else e) = retireEdges now [i] e := by
  unfold retireEdges
  by_cases hi : e.relId = i
  · cases hv : e.validUntil
    · simp [hi]
    · simp [hi]
  · simp [hi]

omit [DecidableEq Id] in
theorem incident_spec [DecidableEq Id] {s : SurrealTables Id T} {row : RelatesTo Id T}
    (h : row ∈ s.incident a) : row ∈ s.relatesTo.rows ∧ row.validUntil = none :=
  ⟨(List.mem_filter.mp h).1, touches_live (List.mem_filter.mp h).2⟩

/-- Where the ids are new, edges of the absorbed entity are moved. -/
theorem foldlM_incident (hmint : Function.Injective2 mint) {s : SurrealTables Id T}
    (hfresh : s.Fresh mint) {done : List (RelatesTo Id T)} (hsub : done.Sublist (s.incident a)) :
    ∃ t, done.foldlM (repoint mint now c a) s.relatesTo = some t ∧
      t.rows = s.relatesTo.rows.map (retireEdges now (done.map RelatesTo.relId)) ++
        (done.filter fun row => !row.loops c a).map (RelatesTo.repointed mint c a) := by
  apply foldlM_repoint hmint done s.relatesTo
  · exact (Table.nodup_filter s.relatesTo.nodup _).sublist (hsub.map _)
  · exact fun row hrow => List.mem_map.mpr ⟨row, (incident_spec (hsub.subset hrow)).1, rfl⟩
  · intro row hrow
    obtain ⟨hin, hlive⟩ := incident_spec (hsub.subset hrow)
    exact hfresh row hin hlive [] c

/-- **What a prefix of the batch leaves**: edges moved, and at most one that is soft-deleted
only. -/
theorem run_take (hmint : Function.Injective2 mint) {s : SurrealTables Id T} (hfresh : s.Fresh mint)
    (entry : MergeEntry Id) (n : ℕ) :
    let cut := cutAt entry.canonicalId entry.absorbedId (s.incident entry.absorbedId) n
    (Runs.run (execStatement now) s ((mergeBatch mint s entry).take n)).relatesTo.rows =
      s.relatesTo.rows.map
          (retireEdges now ((cut.1 ++ cut.2.toList).map RelatesTo.relId)) ++
        (cut.1.filter fun row => !row.loops entry.canonicalId entry.absorbedId).map
          (RelatesTo.repointed mint entry.canonicalId entry.absorbedId) := by
  intro cut
  obtain ⟨rest, hsplit⟩ := @cutAt_split Id T _ entry.canonicalId entry.absorbedId
    (s.incident entry.absorbedId) n
  obtain ⟨m, htake⟩ := @take_batch Id T _ mint entry.canonicalId entry.absorbedId
    (s.incident entry.absorbedId) [.retireEntity entry.absorbedId] n
  have hsub : cut.1.Sublist (s.incident entry.absorbedId) := by
    rw [hsplit, List.append_assoc]
    exact List.sublist_append_left _ _
  obtain ⟨t, ht, hrows⟩ := @foldlM_incident Id T _ mint now entry.canonicalId _ hmint s hfresh _ hsub
  have htail : ∀ s' : SurrealTables Id T, (Runs.run (execStatement now) s'
      ([DedupeStatement.retireEntity entry.absorbedId].take m)).relatesTo = s'.relatesTo := by
    intro s'
    cases m with
    | zero => rfl
    | succ m =>
        rw [List.take_succ_cons, List.take_nil]
        rfl
  rw [show (mergeBatch mint s entry).take n = _ from htake, Runs.run_append, Runs.run_append, htail,
    run_edges ht]
  cases htorn : cut.2 with
  | none =>
      rw [Option.toList_none, List.append_nil]
      exact hrows
  | some row =>
      -- the edges just made are not reached by the soft-delete that follows
      rw [Option.toList_some, List.map_append, List.map_singleton]
      show t.rows.map _ = _
      have hrow : row ∈ s.incident entry.absorbedId := by
        rw [hsplit, show (cutAt _ _ _ n).2 = some row from htorn]
        simp
      have hmade : ∀ e ∈ (cut.1.filter fun row => !row.loops entry.canonicalId entry.absorbedId).map
          (RelatesTo.repointed mint entry.canonicalId entry.absorbedId),
          retireEdges now [row.relId] e = e := by
        intro e he
        obtain ⟨row', hrow', rfl⟩ := List.mem_map.mp he
        apply retireEdges_of_not_mem
        intro hid
        obtain ⟨hin', hlive'⟩ := incident_spec (hsub.subset (List.mem_filter.mp hrow').1)
        apply hfresh row' hin' hlive' [] entry.canonicalId
        rw [List.mem_singleton] at hid
        rw [show mint (List.foldl mint row'.relId []) entry.canonicalId = row.relId from hid]
        exact List.mem_map.mpr ⟨row, (incident_spec hrow).1, rfl⟩
      have hretire : ∀ e : RelatesTo Id T, (if (decide (e.relId = row.relId) && e.validUntil.isNone) = true
          then { e with validUntil := some now } else e) = retireEdges now [row.relId] e :=
        retireEdges_singleton row.relId
      simp only [hretire]
      rw [hrows, List.map_append, Table.map_eq_self.mpr hmade, List.map_map]
      congr 1
      apply List.map_congr_left
      intro e _
      exact retireEdges_append _ _ e

/-- The whole batch is the merge. -/
theorem run_mergeBatch {s s' : SurrealTables Id T} {entry : MergeEntry Id}
    (h : surrealMerge mint now s entry = some s') :
    Runs.run (execStatement now) s (mergeBatch mint s entry) = s' := by
  unfold surrealMerge at h
  simp only at h
  cases hfold : (s.relatesTo.rows.filter (RelatesTo.touches entry.absorbedId)).foldlM
      (repoint mint now entry.canonicalId entry.absorbedId) s.relatesTo with
  | none =>
      rw [hfold] at h
      cases h
  | some t =>
      rw [hfold] at h
      cases h
      unfold mergeBatch SurrealTables.incident
      rw [Runs.run_append, run_edges hfold]
      rfl

end Prefix

/-! ## Batches sent again -/

section Sends

variable [DecidableEq Id] {mint : Id → Id → Id} {now : T}

/-- The statement has been executed, and does nothing any more. -/
def Executed (s : SurrealTables Id T) : DedupeStatement Id T → Prop
  | .retireEdge relId => ∀ e ∈ s.relatesTo.rows, e.relId = relId → e.validUntil ≠ none
  | .relate edge => edge.relId ∈ s.relatesTo.rows.map RelatesTo.relId
  | .retireEntity a => ∀ e ∈ s.entities.rows, e.id = a → e.validUntil ≠ none

theorem mem_mergeBatch {s : SurrealTables Id T} {entry : MergeEntry Id}
    {st : DedupeStatement Id T} (h : st ∈ mergeBatch mint s entry) :
    (∃ row ∈ s.incident entry.absorbedId, st = .retireEdge row.relId ∨
      st = .relate (row.repointed mint entry.canonicalId entry.absorbedId)) ∨
    st = .retireEntity entry.absorbedId := by
  rcases List.mem_append.mp h with h | h
  · obtain ⟨row, hrow, hst⟩ := List.mem_flatMap.mp h
    refine .inl ⟨row, hrow, ?_⟩
    rcases List.mem_cons.mp hst with hst | hst
    · exact .inl hst
    · split at hst
      · cases hst
      · exact .inr (List.mem_singleton.mp hst)
  · exact .inr (List.mem_singleton.mp h)

omit [DecidableEq Id] in
/-- No row with the key is live after a stamp, if it finds those that are. -/
theorem stamped_dead {R : Type} {key : R → Id} {window : R → Option T} {stamp : R → R} {p : R → Bool}
    {x : Id} {rows : List R} (hstamp : ∀ r, window (stamp r) ≠ none)
    (h : ∀ r ∈ rows, key r = x → window r ≠ none ∨ p r = true) :
    ∀ r ∈ rows.map (fun r => if p r = true then stamp r else r), key r = x → window r ≠ none := by
  intro r hr hx
  obtain ⟨r₀, hr₀, rfl⟩ := List.mem_map.mp hr
  by_cases hp : p r₀ = true
  · rw [if_pos hp]
    exact hstamp r₀
  · rw [if_neg hp] at hx ⊢
    exact (h r₀ hr₀ hx).resolve_right hp

theorem edges_stamped {t : Table Id (RelatesTo Id T) RelatesTo.relId} {x y : Id}
    (h : x = y ∨ ∀ e ∈ t.rows, e.relId = y → e.validUntil ≠ none) :
    ∀ e ∈ (t.update (fun e => decide (e.relId = x) && e.validUntil.isNone)
      (fun e => { e with validUntil := some now }) fun _ => rfl).rows,
      e.relId = y → e.validUntil ≠ none := by
  apply stamped_dead (fun _ h => by cases h)
  intro e he hid
  rcases h with rfl | h
  · cases hv : e.validUntil with
    | none => exact .inr (by simp [hid])
    | some t => exact .inl (fun h => by cases h)
  · exact .inl (h e he hid)

theorem entities_stamped {t : Table Id (Entity Id T) Entity.id} {x y : Id}
    (h : x = y ∨ ∀ e ∈ t.rows, e.id = y → e.validUntil ≠ none) :
    ∀ e ∈ (t.update (fun e => decide (e.id = x) && e.validUntil.isNone)
      (fun e => { e with validUntil := some now }) fun _ => rfl).rows,
      e.id = y → e.validUntil ≠ none := by
  apply stamped_dead (fun _ h => by cases h)
  intro e he hid
  rcases h with rfl | h
  · cases hv : e.validUntil with
    | none => exact .inr (by simp [hid])
    | some t => exact .inl (fun h => by cases h)
  · exact .inl (h e he hid)

/-- The ids after a `RELATE`. -/
theorem relate_ids (t : Table Id (RelatesTo Id T) RelatesTo.relId) (edge : RelatesTo Id T) :
    ((t.insert edge).getD t).rows = t.rows ∧ edge.relId ∈ t.rows.map RelatesTo.relId ∨
      ((t.insert edge).getD t).rows = t.rows ++ [edge] := by
  by_cases h : edge.relId ∈ t.rows.map RelatesTo.relId
  · left
    rw [show t.insert edge = none from dif_pos h]
    exact ⟨rfl, h⟩
  · right
    obtain ⟨t', ht', hrows⟩ := Table.insert_of_fresh h
    rw [ht']
    exact hrows

/-- A statement that was executed does nothing, and what was executed stays so. -/
theorem settles_mergeBatch {s : SurrealTables Id T} (hfresh : s.Fresh mint) (entry : MergeEntry Id) :
    Runs.Settles (execStatement now) (fun st s => Executed s st) (mergeBatch mint s entry) where
  fixed := by
    intro st _ s' h
    cases st with
    | retireEdge relId =>
        show SurrealTables.mk _ s'.entities = s'
        congr 1
        apply Table.ext
        rw [Table.rows_update, Table.map_eq_self]
        intro e he
        apply if_neg
        rw [Bool.and_eq_true, decide_eq_true_eq, Option.isNone_iff_eq_none]
        exact fun h' => h e he h'.1 h'.2
    | relate edge =>
        show SurrealTables.mk _ s'.entities = s'
        rw [show s'.relatesTo.insert edge = none from dif_pos h]
        rfl
    | retireEntity a =>
        show SurrealTables.mk s'.relatesTo _ = s'
        congr 1
        apply Table.ext
        rw [Table.rows_update, Table.map_eq_self]
        intro e he
        apply if_neg
        rw [Bool.and_eq_true, decide_eq_true_eq, Option.isNone_iff_eq_none]
        exact fun h' => h e he h'.1 h'.2
  done := by
    intro st _ s'
    cases st with
    | retireEdge relId =>
        exact edges_stamped (.inl rfl)
    | relate edge =>
        show edge.relId ∈ ((s'.relatesTo.insert edge).getD s'.relatesTo).rows.map RelatesTo.relId
        rcases relate_ids s'.relatesTo edge with ⟨hrows, hmem⟩ | hrows
        · rw [hrows]
          exact hmem
        · rw [hrows, List.map_append]
          exact List.mem_append_right _ List.mem_cons_self
    | retireEntity a =>
        exact entities_stamped (.inl rfl)
  kept := by
    intro st hst st' hst' s' h
    cases st' with
    | retireEdge relId =>
        cases st with
        | retireEdge x =>
            exact edges_stamped (.inr h)
        | relate edge =>
            have hkeys : (execStatement now s' (.retireEdge relId)).relatesTo.rows.map RelatesTo.relId =
                s'.relatesTo.rows.map RelatesTo.relId :=
              Table.map_key_update (fun e => decide (e.relId = relId) && e.validUntil.isNone)
                (fun e => { e with validUntil := some now }) (fun _ => rfl) s'.relatesTo.rows
            show edge.relId ∈ (execStatement now s' (.retireEdge relId)).relatesTo.rows.map RelatesTo.relId
            rw [hkeys]
            exact h
        | retireEntity a => exact h
    | relate edge =>
        cases st with
        | retireEdge x =>
            -- the new edge has an id that no edge of the batch has
            show ∀ e ∈ ((s'.relatesTo.insert edge).getD s'.relatesTo).rows, e.relId = x → _
            rcases relate_ids s'.relatesTo edge with ⟨hrows, -⟩ | hrows
            · rw [hrows]
              exact h
            · rw [hrows]
              intro e he hid
              rcases List.mem_append.mp he with he | he
              · exact h e he hid
              · exfalso
                obtain rfl := List.mem_singleton.mp he
                obtain ⟨row, hrow, hx | hx⟩ | hx := mem_mergeBatch hst
                · cases hx
                  obtain ⟨row', hrow', he' | he'⟩ | he' := mem_mergeBatch hst'
                  · cases he'
                  · cases he'
                    obtain ⟨hin', hlive'⟩ := incident_spec hrow'
                    apply hfresh row' hin' hlive' [] entry.canonicalId
                    rw [show mint (List.foldl mint row'.relId []) entry.canonicalId = row.relId from hid]
                    exact List.mem_map.mpr ⟨row, (incident_spec hrow).1, rfl⟩
                  · cases he'
                · cases hx
                · cases hx
        | relate edge' =>
            show edge'.relId ∈ ((s'.relatesTo.insert edge).getD s'.relatesTo).rows.map RelatesTo.relId
            rcases relate_ids s'.relatesTo edge with ⟨hrows, -⟩ | hrows
            · rw [hrows]
              exact h
            · rw [hrows, List.map_append]
              exact List.mem_append_left _ h
        | retireEntity a => exact h
    | retireEntity a =>
        cases st with
        | retireEdge x => exact h
        | relate edge => exact h
        | retireEntity x =>
            exact entities_stamped (.inr h)

/-- **Sending prefixes again and again comes to the longest of them.** -/
theorem executeBatch_eq {s : SurrealTables Id T} (hfresh : s.Fresh mint) (entry : MergeEntry Id)
    (b : BatchRun) :
    executeBatch now (mergeBatch mint s entry) b s =
      if b.returned then Runs.run (execStatement now) s (mergeBatch mint s entry)
      else Runs.run (execStatement now) s ((mergeBatch mint s entry).take (b.sends.foldl max 0)) := by
  have hsettles := @settles_mergeBatch Id T _ mint now s hfresh entry
  have hsends := hsettles.sends s 0 b.sends
  rw [List.take_zero, Runs.run_nil] at hsends
  unfold executeBatch
  simp only
  rw [hsends]
  split
  · have hwhole := hsettles.take_take s (b.sends.foldl max 0) (mergeBatch mint s entry).length
    rw [List.take_length, List.take_of_length_le (Nat.le_max_right _ _)] at hwhole
    exact hwhole
  · rfl

end Sends

/-! ## What is left behind -/

section Image

variable [DecidableEq Id] {mint : Id → Id → Id} {now : T} {c a : Id} {as : List Id}

/-- One merge of the op first. -/
theorem substTriple_of_mem (h : a ∈ as) (e : Id × Id × String) :
    substTriple c as e = (substTriple c [a] e).bind (substTriple c as) := by
  obtain ⟨x, y, k⟩ := e
  unfold substTriple
  simp only [canonicalOf_singleton]
  by_cases htouch : x = a ∨ y = a
  · rw [endsCollapse_cons_of_eq htouch, endsCollapse_nil, Bool.or_false]
    have hmem : x ∈ as ∨ y ∈ as := by
      rcases htouch with rfl | rfl
      · exact .inl h
      · exact .inr h
    have hcollapse : endsCollapse c as x y = decide (canonicalOf c as x = canonicalOf c as y) := by
      unfold endsCollapse
      rw [show (decide (x ∈ as) || decide (y ∈ as)) = true by simpa using hmem, Bool.true_and]
    rw [hcollapse]
    by_cases heq : redirect c a x = redirect c a y
    · have hcan : canonicalOf c as x = canonicalOf c as y := by
        rw [← canonicalOf_redirect h x, heq, canonicalOf_redirect h y]
      simp [heq, hcan]
    · have hre : endsCollapse c as (redirect c a x) (redirect c a y) =
          decide (canonicalOf c as x = canonicalOf c as y) := by
        unfold endsCollapse
        rw [canonicalOf_redirect h, canonicalOf_redirect h, Bool.and_eq_right_iff_imp,
          decide_eq_true_eq, Bool.or_eq_true, decide_eq_true_eq, decide_eq_true_eq]
        intro hcan
        by_contra hnone
        rw [not_or] at hnone
        apply heq
        rw [← canonicalOf_of_not_mem hnone.1, ← canonicalOf_of_not_mem hnone.2,
          canonicalOf_redirect h, canonicalOf_redirect h]
        exact hcan
      simp [heq, hre, canonicalOf_redirect h]
  · rw [not_or] at htouch
    rw [endsCollapse_cons_of_ne htouch.1 htouch.2, endsCollapse_nil]
    simp [redirect, htouch.1, htouch.2]

/-- What the op makes of the live edges. -/
def SurrealTables.image (c : Id) (as : List Id) (s : SurrealTables Id T) :
    List (Id × Id × String) :=
  s.liveTriples.filterMap (substTriple c as)

/-- The edge that a batch leaves soft-deleted but not created. -/
def tornEdge (s : SurrealTables Id T) (entry : MergeEntry Id) (b : BatchRun) :
    Option (RelatesTo Id T) :=
  if b.returned then none
  else (cutAt entry.canonicalId entry.absorbedId (s.incident entry.absorbedId)
    (b.sends.foldl max 0)).2

/-- The edges that are moved, in the terms of the op. -/
theorem image_moved (ha : a ∈ as) {done : List (RelatesTo Id T)}
    (hdone : ∀ row ∈ done, row.touches a = true) :
    ((done.filter fun row => !row.loops c a).map (RelatesTo.repointed mint c a)).filterMap
        (substTriple c as ∘ RelatesTo.triple) =
      done.filterMap (substTriple c as ∘ RelatesTo.triple) := by
  rw [List.filterMap_map, ← List.filterMap_eq_filter, List.filterMap_filterMap]
  apply List.filterMap_congr
  intro row hrow
  have htouch := hdone row hrow
  rw [Function.comp_apply, substTriple_of_mem ha, substTriple_triple mint (touches_live htouch), htouch,
    if_pos rfl]
  cases hloops : row.loops c a
  · simp [hloops]
  · simp [hloops]

/-- **What a batch that failed leaves of the op's image**: all but the edge left behind. -/
theorem image_take (hmint : Function.Injective2 mint) {s : SurrealTables Id T} (hfresh : s.Fresh mint)
    {entry : MergeEntry Id} (hc : entry.canonicalId = c) (ha : entry.absorbedId ∈ as) (n : ℕ) :
    let s' := Runs.run (execStatement now) s ((mergeBatch mint s entry).take n)
    let torn := (cutAt entry.canonicalId entry.absorbedId (s.incident entry.absorbedId) n).2
    s'.Fresh mint ∧
      (s.image c as).Perm (s'.image c as ++
        torn.toList.filterMap (substTriple c as ∘ RelatesTo.triple)) := by
  subst hc
  have hrows := @run_take Id T _ mint now hmint s hfresh entry n
  obtain ⟨rest, hsplit⟩ := @cutAt_split Id T _ entry.canonicalId entry.absorbedId
    (s.incident entry.absorbedId) n
  intro s' torn
  simp only at hrows
  generalize hdone : (cutAt entry.canonicalId entry.absorbedId (s.incident entry.absorbedId) n).1 = done
    at hrows hsplit
  rw [show (cutAt entry.canonicalId entry.absorbedId (s.incident entry.absorbedId) n).2 = torn from rfl]
    at hrows hsplit
  have hsub : (done ++ torn.toList).Sublist (s.incident entry.absorbedId) := by
    rw [hsplit]
    exact List.sublist_append_left _ _
  have hin : ∀ row ∈ done ++ torn.toList, row ∈ s.relatesTo.rows ∧ row.validUntil = none :=
    fun row hrow => incident_spec (hsub.subset hrow)
  have htouched : ∀ row ∈ done, row.touches entry.absorbedId = true := by
    intro row hrow
    exact (List.mem_filter.mp (hsub.subset (List.mem_append_left _ hrow))).2
  refine ⟨fresh_moved hmint hfresh ?_ hrows, ?_⟩
  · intro row hrow
    have hmem := List.mem_append_left torn.toList (List.mem_filter.mp hrow).1
    exact ⟨hin row hmem, List.mem_map.mpr ⟨row, hmem, rfl⟩⟩
  · -- the live edges are those with other ids, those moved and the one left behind
    have hsplitLive : (s.relatesTo.rows.filter fun e => e.validUntil.isNone).Perm
        ((s.relatesTo.rows.filter fun e => e.validUntil.isNone &&
            decide (e.relId ∉ (done ++ torn.toList).map RelatesTo.relId)) ++ (done ++ torn.toList)) := by
      refine (List.filter_append_perm
        (fun e => decide (e.relId ∉ (done ++ torn.toList).map RelatesTo.relId)) _).symm.trans ?_
      rw [List.filter_filter, List.filter_filter]
      apply List.Perm.append
      · apply List.Perm.of_eq
        apply List.filter_congr
        intro e _
        rw [Bool.and_comm]
      · have hnodup : s.relatesTo.rows.Nodup := List.Nodup.of_map _ s.relatesTo.nodup
        rw [List.perm_ext_iff_of_nodup (hnodup.filter _) ((hnodup.filter _).sublist hsub)]
        intro e
        rw [List.mem_filter, Bool.and_eq_true, Bool.not_eq_true', decide_eq_false_iff_not, not_not,
          Option.isNone_iff_eq_none]
        constructor
        · rintro ⟨he, hid, -⟩
          obtain ⟨row, hrow, heq⟩ := List.mem_map.mp hid
          rw [← List.inj_on_of_nodup_map s.relatesTo.nodup (hin row hrow).1 he heq]
          exact hrow
        · intro he
          exact ⟨(hin e he).1, List.mem_map.mpr ⟨e, he, rfl⟩, (hin e he).2⟩
    unfold SurrealTables.image SurrealTables.liveTriples
    rw [List.filterMap_map, List.filterMap_map, hrows, live_moved]
    refine (hsplitLive.filterMap _).trans (.of_eq ?_)
    rw [List.filterMap_append, List.filterMap_append, List.filterMap_append, image_moved ha htouched,
      List.append_assoc]

/-- A batch, whether it returned or not. -/
theorem image_executeBatch (hmint : Function.Injective2 mint) {s : SurrealTables Id T}
    (hfresh : s.Fresh mint) {entry : MergeEntry Id} (hc : entry.canonicalId = c)
    (ha : entry.absorbedId ∈ as) (b : BatchRun) :
    let s' := executeBatch now (mergeBatch mint s entry) b s
    s'.Fresh mint ∧ (s.image c as).Perm (s'.image c as ++
      (tornEdge s entry b).toList.filterMap (substTriple c as ∘ RelatesTo.triple)) := by
  intro s'
  have hs' : s' = _ := executeBatch_eq hfresh entry b
  unfold tornEdge
  cases hret : b.returned with
  | false =>
      rw [hs', hret, if_neg Bool.false_ne_true, if_neg Bool.false_ne_true]
      exact image_take hmint hfresh hc ha _
  | true =>
      obtain ⟨s'', hs'', hfresh', hperm⟩ := @liveTriples_surrealMerge Id T _ mint now hmint s hfresh entry
      rw [hs', hret, if_pos rfl, if_pos rfl, run_mergeBatch hs'']
      refine ⟨hfresh', ?_⟩
      rw [Option.toList_none, List.filterMap_nil, List.append_nil]
      unfold SurrealTables.image
      refine List.Perm.trans (.of_eq ?_) (hperm.filterMap _).symm
      rw [List.filterMap_filterMap]
      apply List.filterMap_congr
      intro e _
      rw [hc]
      exact substTriple_of_mem ha e

end Image

/-! ## Tries -/

section Tries

variable [DecidableEq Id] (mint : Id → Id → Id)

/-- The edges that one try leaves behind. -/
def tornTry (now : T) : List (MergeEntry Id) → List BatchRun → SurrealTables Id T →
    List (RelatesTo Id T)
  | entry :: merges, b :: batches, s =>
      (tornEdge s entry b).toList ++
        if b.returned then tornTry now merges batches (executeBatch now (mergeBatch mint s entry) b s)
        else []
  | _, _, _ => []

/-- The edges that the tries leave behind. -/
def tornEdges (op : DedupeOp Id) : List (DedupeTry T) → SurrealTables Id T → List (RelatesTo Id T)
  | [], _ => []
  | t :: tries, s => tornTry mint t.now op.merges t.batches s ++
      tornEdges op tries (tryDedupe mint t.now op.merges t.batches s).1

variable {mint} {now : T} {c : Id} {as : List Id}

/-- What one try leaves of the op's image. -/
theorem image_try (hmint : Function.Injective2 mint) (merges : List (MergeEntry Id)) :
    ∀ {batches : List BatchRun} {s : SurrealTables Id T}, s.Fresh mint →
      (∀ m ∈ merges, m.canonicalId = c ∧ m.absorbedId ∈ as) →
      (tryDedupe mint now merges batches s).1.Fresh mint ∧
        (s.image c as).Perm ((tryDedupe mint now merges batches s).1.image c as ++
          (tornTry mint now merges batches s).filterMap (substTriple c as ∘ RelatesTo.triple)) := by
  induction merges with
  | nil =>
      intro batches s hfresh _
      refine ⟨hfresh, .of_eq ?_⟩
      exact (List.append_nil _).symm
  | cons entry merges ih =>
      intro batches s hfresh hm
      cases batches with
      | nil => exact ⟨hfresh, .of_eq (List.append_nil _).symm⟩
      | cons b batches =>
          obtain ⟨hc, ha⟩ := hm entry List.mem_cons_self
          obtain ⟨hfresh', hperm⟩ := @image_executeBatch Id T _ mint now c as hmint s hfresh entry hc ha b
          unfold tryDedupe tornTry
          simp only
          cases hret : b.returned with
          | false =>
              rw [if_neg Bool.false_ne_true, if_neg Bool.false_ne_true, List.append_nil]
              exact ⟨hfresh', hperm⟩
          | true =>
              obtain ⟨hfresh'', hperm'⟩ := @ih batches _ hfresh'
                fun m h => hm m (List.mem_cons_of_mem _ h)
              rw [if_pos rfl, if_pos rfl, List.filterMap_append]
              refine ⟨hfresh'', hperm.trans ((hperm'.append_right _).trans ?_)⟩
              rw [List.append_assoc]
              exact List.perm_append_comm.append_left _

/-- **What the tries leave of the op's image**: all but the edges left behind. -/
theorem image_tries (hmint : Function.Injective2 mint) {op : DedupeOp Id}
    (hm : ∀ m ∈ op.merges, m.canonicalId = c ∧ m.absorbedId ∈ as) (tries : List (DedupeTry T)) :
    ∀ {s : SurrealTables Id T}, s.Fresh mint →
      (triesDedupe mint op tries s).Fresh mint ∧
        (s.image c as).Perm ((triesDedupe mint op tries s).image c as ++
          (tornEdges mint op tries s).filterMap (substTriple c as ∘ RelatesTo.triple)) := by
  induction tries with
  | nil => exact fun hfresh => ⟨hfresh, .of_eq (List.append_nil _).symm⟩
  | cons t tries ih =>
      intro s hfresh
      obtain ⟨hfresh', hperm⟩ := @image_try Id T _ mint t.now c as hmint op.merges t.batches s hfresh hm
      obtain ⟨hfresh'', hperm'⟩ := ih hfresh'
      refine ⟨hfresh'', hperm.trans ((hperm'.append_right _).trans ?_)⟩
      show ((triesDedupe mint op tries _).image c as ++ _ ++ _).Perm
        (_ ++ (tornTry mint t.now op.merges t.batches s ++ _).filterMap _)
      rw [List.filterMap_append, List.append_assoc]
      exact List.perm_append_comm.append_left _

/-- A try that returned is the handler without failures. -/
theorem foldlM_of_returned (hmint : Function.Injective2 mint) (merges : List (MergeEntry Id)) :
    ∀ {batches : List BatchRun} {s : SurrealTables Id T}, s.Fresh mint →
      (tryDedupe mint now merges batches s).2 = true →
      merges.foldlM (surrealMerge mint now) s = some (tryDedupe mint now merges batches s).1 := by
  induction merges with
  | nil => exact fun _ _ => rfl
  | cons entry merges ih =>
      intro batches s hfresh hret
      cases batches with
      | nil => cases hret
      | cons b batches =>
          unfold tryDedupe at hret ⊢
          simp only at hret ⊢
          cases hb : b.returned with
          | false =>
              rw [hb] at hret
              cases hret
          | true =>
              rw [hb, if_pos rfl] at hret
              obtain ⟨s', hs', hfresh'⟩ := @fresh_surrealMerge Id T _ mint now hmint s hfresh entry
              have hbatch : executeBatch now (mergeBatch mint s entry) b s = s' := by
                rw [executeBatch_eq hfresh entry b, hb, if_pos rfl, run_mergeBatch hs']
              rw [hbatch] at hret ⊢
              rw [if_pos rfl, List.foldlM_cons, hs']
              exact ih hfresh' hret

/-! ## Retired entities -/

/-- The entity is retired. -/
def SurrealTables.Retired (s : SurrealTables Id T) (x : Id) : Prop :=
  ∃ e ∈ s.entities.rows, e.id = x ∧ e.validUntil ≠ none

/-- What a list of statements retires. -/
theorem retired_run (sts : List (DedupeStatement Id T)) : ∀ s : SurrealTables Id T,
    (Runs.run (execStatement now) s sts).entities.rows.map Entity.id = s.entities.rows.map Entity.id ∧
      ∀ x, (Runs.run (execStatement now) s sts).Retired x ↔
        s.Retired x ∨ (.retireEntity x ∈ sts ∧ x ∈ s.entities.rows.map Entity.id) := by
  induction sts with
  | nil => exact fun s => ⟨rfl, fun x => by simp⟩
  | cons st sts ih =>
      intro s
      have hstep : (execStatement now s st).entities.rows.map Entity.id = s.entities.rows.map Entity.id ∧
          ∀ x, (execStatement now s st).Retired x ↔
            s.Retired x ∨ (st = .retireEntity x ∧ x ∈ s.entities.rows.map Entity.id) := by
        cases st with
        | retireEdge relId => exact ⟨rfl, fun x => ⟨.inl, fun h => h.resolve_right fun h => by cases h.1⟩⟩
        | relate edge => exact ⟨rfl, fun x => ⟨.inl, fun h => h.resolve_right fun h => by cases h.1⟩⟩
        | retireEntity a =>
            refine ⟨Table.map_key_update (fun e => decide (e.id = a) && e.validUntil.isNone)
              (fun e => { e with validUntil := some now }) (fun _ => rfl) s.entities.rows, fun x => ?_⟩
            unfold SurrealTables.Retired
            simp only [execStatement, Table.rows_update, List.mem_map]
            constructor
            · rintro ⟨_, ⟨e, he, rfl⟩, hid, hv⟩
              by_cases hp : (decide (e.id = a) && e.validUntil.isNone) = true
              · rw [if_pos hp] at hid
                rw [Bool.and_eq_true, decide_eq_true_eq] at hp
                exact .inr ⟨by rw [← hp.1, hid], e, he, hid⟩
              · rw [if_neg hp] at hid hv
                exact .inl ⟨e, he, hid, hv⟩
            · rintro (⟨e, he, hid, hv⟩ | ⟨hst, e, he, hid⟩)
              · refine ⟨e, ⟨e, he, if_neg ?_⟩, hid, hv⟩
                rw [Bool.and_eq_true, Option.isNone_iff_eq_none]
                exact fun h => hv h.2
              · cases hst
                by_cases hv : e.validUntil = none
                · refine ⟨{ e with validUntil := some now }, ⟨e, he, if_pos ?_⟩, hid, fun h => by cases h⟩
                  rw [hid, hv, decide_eq_true rfl]
                  rfl
                · refine ⟨e, ⟨e, he, if_neg ?_⟩, hid, hv⟩
                  rw [Bool.and_eq_true, Option.isNone_iff_eq_none]
                  exact fun h => hv h.2
      obtain ⟨hids, hret⟩ := ih (execStatement now s st)
      refine ⟨hids.trans hstep.1, fun x => ?_⟩
      rw [Runs.run_cons, hret, hstep.1, hstep.2, List.mem_cons, or_assoc, ← or_and_right]
      constructor
      · rintro (h | ⟨h, hx⟩)
        · exact .inl h
        · exact .inr ⟨h.imp_left Eq.symm, hx⟩
      · rintro (h | ⟨h, hx⟩)
        · exact .inl h
        · exact .inr ⟨h.imp_left Eq.symm, hx⟩

/-- Entities were retired that the op absorbs, and no others. -/
structure Retires (as : List Id) (s s' : SurrealTables Id T) : Prop where
  ids : s'.entities.rows.map Entity.id = s.entities.rows.map Entity.id
  kept : ∀ x, s.Retired x → s'.Retired x
  only : ∀ x, s'.Retired x → s.Retired x ∨ (x ∈ as ∧ x ∈ s.entities.rows.map Entity.id)

omit [DecidableEq Id] in
theorem Retires.refl (as : List Id) (s : SurrealTables Id T) : Retires as s s :=
  ⟨rfl, fun _ h => h, fun _ h => .inl h⟩

omit [DecidableEq Id] in
theorem Retires.trans {s s' s'' : SurrealTables Id T} (h : Retires as s s') (h' : Retires as s' s'') :
    Retires as s s'' := by
  refine ⟨h'.ids.trans h.ids, fun x hx => h'.kept x (h.kept x hx), fun x hx => ?_⟩
  rcases h'.only x hx with hx | ⟨hx, hid⟩
  · exact h.only x hx
  · exact .inr ⟨hx, h.ids ▸ hid⟩

/-- A batch retires the absorbed entity at most, and does if it returned. -/
theorem retires_executeBatch {s : SurrealTables Id T} (hfresh : s.Fresh mint) {entry : MergeEntry Id}
    (ha : entry.absorbedId ∈ as) (b : BatchRun) :
    let s' := executeBatch now (mergeBatch mint s entry) b s
    Retires as s s' ∧ (b.returned = true →
      entry.absorbedId ∈ s.entities.rows.map Entity.id → s'.Retired entry.absorbedId) := by
  have hrun : ∀ sts, sts ⊆ mergeBatch mint s entry →
      Retires as s (Runs.run (execStatement now) s sts) := by
    intro sts hsub
    obtain ⟨hids, hret⟩ := @retired_run Id T _ now sts s
    refine ⟨hids, fun x hx => (hret x).mpr (.inl hx), fun x hx => ?_⟩
    rcases (hret x).mp hx with hx | ⟨hx, hid⟩
    · exact .inl hx
    · refine .inr ⟨?_, hid⟩
      rcases mem_mergeBatch (hsub hx) with ⟨row, -, h | h⟩ | h
      · cases h
      · cases h
      · cases h
        exact ha
  intro s'
  rw [show s' = _ from executeBatch_eq hfresh entry b]
  cases hret : b.returned with
  | false => exact ⟨hrun _ (List.take_subset _ _), fun h => by cases h⟩
  | true =>
      refine ⟨hrun _ (List.Subset.refl _), fun _ hid => ?_⟩
      apply ((@retired_run Id T _ now (mergeBatch mint s entry) s).2 entry.absorbedId).mpr
      exact .inr ⟨List.mem_append_right _ List.mem_cons_self, hid⟩

theorem retires_try (hmint : Function.Injective2 mint) (merges : List (MergeEntry Id)) :
    ∀ {batches : List BatchRun} {s : SurrealTables Id T}, s.Fresh mint →
      (∀ m ∈ merges, m.canonicalId = c ∧ m.absorbedId ∈ as) →
      Retires as s (tryDedupe mint now merges batches s).1 ∧
        ((tryDedupe mint now merges batches s).2 = true → ∀ m ∈ merges,
          m.absorbedId ∈ s.entities.rows.map Entity.id →
            (tryDedupe mint now merges batches s).1.Retired m.absorbedId) := by
  induction merges with
  | nil => exact fun _ _ => ⟨Retires.refl as _, fun _ _ h => by cases h⟩
  | cons entry merges ih =>
      intro batches s hfresh hm
      cases batches with
      | nil => exact ⟨Retires.refl as _, fun h => by cases h⟩
      | cons b batches =>
          obtain ⟨hc, ha⟩ := hm entry List.mem_cons_self
          obtain ⟨hfresh', -⟩ := @image_executeBatch Id T _ mint now c as hmint s hfresh entry hc ha b
          obtain ⟨hbatch, hdone⟩ := @retires_executeBatch Id T _ mint now as s hfresh entry ha b
          unfold tryDedupe
          simp only
          cases hret : b.returned with
          | false =>
              rw [if_neg Bool.false_ne_true]
              exact ⟨hbatch, fun h => by cases h⟩
          | true =>
              rw [if_pos rfl]
              obtain ⟨hrest, hall⟩ := @ih batches _ hfresh' fun m h => hm m (List.mem_cons_of_mem _ h)
              refine ⟨hbatch.trans hrest, fun hlast m hmem hid => ?_⟩
              rcases List.mem_cons.mp hmem with rfl | hmem
              · exact hrest.kept _ (hdone hret hid)
              · apply hall hlast m hmem
                rw [hbatch.ids]
                exact hid

/-- A try that returned has retired the absorbed entities. -/
theorem retired_of_returned (hmint : Function.Injective2 mint) {merges : List (MergeEntry Id)}
    {batches : List BatchRun} {s : SurrealTables Id T} (hfresh : s.Fresh mint)
    (hc : ∀ m ∈ merges, m.canonicalId = c) (hret : (tryDedupe mint now merges batches s).2 = true)
    (x : Id) : (tryDedupe mint now merges batches s).1.Retired x ↔
      s.Retired x ∨ (x ∈ merges.map MergeEntry.absorbedId ∧ x ∈ s.entities.rows.map Entity.id) := by
  obtain ⟨hretires, hall⟩ := @retires_try Id T _ mint now c (merges.map MergeEntry.absorbedId) hmint merges
    batches s hfresh fun m hm => ⟨hc m hm, List.mem_map.mpr ⟨m, hm, rfl⟩⟩
  refine ⟨hretires.only x, ?_⟩
  rintro (hx | ⟨hx, hid⟩)
  · exact hretires.kept x hx
  · obtain ⟨m, hm, rfl⟩ := List.mem_map.mp hx
    exact hall hret m hm hid

theorem retires_tries (hmint : Function.Injective2 mint) {op : DedupeOp Id}
    (hm : ∀ m ∈ op.merges, m.canonicalId = c ∧ m.absorbedId ∈ as) (tries : List (DedupeTry T)) :
    ∀ {s : SurrealTables Id T}, s.Fresh mint → Retires as s (triesDedupe mint op tries s) := by
  induction tries with
  | nil => exact fun _ => Retires.refl as _
  | cons t tries ih =>
      intro s hfresh
      obtain ⟨hfresh', -⟩ := @image_try Id T _ mint t.now c as hmint op.merges t.batches s hfresh hm
      obtain ⟨htry, -⟩ := @retires_try Id T _ mint t.now c as hmint op.merges t.batches s hfresh hm
      exact htry.trans (ih hfresh')

/-! ## The replay -/

/-- The same live edges up to their ids, as often, and the same retired entities. -/
def SurrealTables.SameOutcome (s t : SurrealTables Id T) : Prop :=
  s.liveTriples.Perm t.liveTriples ∧ ∀ x, s.Retired x ↔ t.Retired x

/-- One apply without failures is a try that returned. -/
theorem apply_eq_try (hmint : Function.Injective2 mint) (op : DedupeOp Id) {s : SurrealTables Id T}
    (hfresh : s.Fresh mint) :
    ∃ batches, (tryDedupe mint now op.merges batches s).2 = true ∧
      surrealApplyDedupeEntities mint now op s =
        some (tryDedupe mint now op.merges batches s).1 := by
  have hreturns : ∀ (merges : List (MergeEntry Id)) (s : SurrealTables Id T),
      (tryDedupe mint now merges (merges.map fun _ => ⟨[], true⟩) s).2 = true := by
    intro merges
    induction merges with
    | nil => exact fun _ => rfl
    | cons entry merges ih => exact fun s => ih _
  exact ⟨_, hreturns op.merges s, foldlM_of_returned hmint op.merges hfresh (hreturns op.merges s)⟩

/-- **A replay comes to what one apply comes to if and only if every edge left behind is one that
the op drops.** -/
theorem replay_iff (hmint : Function.Injective2 mint) {op : DedupeOp Id}
    (hc : ∀ m ∈ op.merges, m.canonicalId = c) {s : SurrealTables Id T} (hfresh : s.Fresh mint)
    (tries : List (DedupeTry T)) {last : DedupeTry T}
    (hlast : (tryDedupe mint last.now op.merges last.batches (triesDedupe mint op tries s)).2 = true) :
    ∃ t, surrealApplyDedupeEntities mint now op s = some t ∧
      ((tryDedupe mint last.now op.merges last.batches (triesDedupe mint op tries s)).1.SameOutcome t ↔
        ∀ e ∈ tornEdges mint op tries s,
          endsCollapse c (op.merges.map MergeEntry.absorbedId) e.inId e.outId = true) := by
  have hm : ∀ m ∈ op.merges, m.canonicalId = c ∧ m.absorbedId ∈ op.merges.map MergeEntry.absorbedId :=
    fun m h => ⟨hc m h, List.mem_map.mpr ⟨m, h, rfl⟩⟩
  obtain ⟨batches, hret, happly⟩ := @apply_eq_try Id T _ mint now hmint op s hfresh
  refine ⟨_, happly, ?_⟩
  obtain ⟨hfresh₁, hperm⟩ := image_tries hmint hm tries hfresh
  have hretires := retires_tries hmint hm tries hfresh
  -- the live edges of both are what the op makes of the state they start from
  obtain ⟨t₁, ht₁, -, hlive₁⟩ := @surreal_triples Id T _ mint now c hmint op.merges s hfresh hc
  obtain rfl := Option.some.inj (happly.symm.trans ht₁)
  have hlast₁ := foldlM_of_returned hmint op.merges hfresh₁ hlast
  obtain ⟨t₂, ht₂, -, hlive₂⟩ := @surreal_triples Id T _ mint last.now c hmint op.merges _ hfresh₁ hc
  obtain rfl := Option.some.inj (hlast₁.symm.trans ht₂)
  have hsplit := hlive₁.trans (hperm.trans (hlive₂.symm.append_right _))
  have hnone : ∀ e : RelatesTo Id T, (substTriple c (op.merges.map MergeEntry.absorbedId) ∘
      RelatesTo.triple) e = none ↔
      endsCollapse c (op.merges.map MergeEntry.absorbedId) e.inId e.outId = true := by
    intro e
    show substTriple c (op.merges.map MergeEntry.absorbedId) e.triple = none ↔ _
    unfold substTriple
    cases hcol : endsCollapse c (op.merges.map MergeEntry.absorbedId) e.inId e.outId
    · simp [RelatesTo.triple, hcol]
    · simp [RelatesTo.triple, hcol]
  constructor
  · rintro ⟨hsame, -⟩
    have hlen := (hsame.trans hsplit).length_eq
    rw [List.length_append] at hlen
    have hnil : ((tornEdges mint op tries s).filterMap
        (substTriple c (op.merges.map MergeEntry.absorbedId) ∘ RelatesTo.triple)) = [] := by
      rw [← List.length_eq_zero_iff]
      omega
    rw [List.filterMap_eq_nil_iff] at hnil
    exact fun e he => (hnone e).mp (hnil e he)
  · intro h
    have hnil : ((tornEdges mint op tries s).filterMap
        (substTriple c (op.merges.map MergeEntry.absorbedId) ∘ RelatesTo.triple)) = [] := by
      rw [List.filterMap_eq_nil_iff]
      exact fun e he => (hnone e).mpr (h e he)
    rw [hnil, List.append_nil] at hsplit
    refine ⟨hsplit.symm, fun x => ?_⟩
    rw [retired_of_returned hmint hfresh₁ hc hlast, retired_of_returned hmint hfresh hc hret,
      hretires.ids]
    constructor
    · rintro (hx | hx)
      · exact hretires.only x hx
      · exact .inr hx
    · rintro (hx | hx)
      · exact .inl (hretires.kept x hx)
      · exact .inr hx

end Tries

/-! ## A move that is cut in two -/

/-- The handler without failures. -/
def untroubled : DedupeTry ℕ := ⟨102, [⟨[], true⟩, ⟨[], true⟩]⟩

/-- The first batch fails after its first statement. -/
def cutInTwo : List (DedupeTry ℕ) := [⟨101, [⟨[1], false⟩]⟩]

/-- The first batch is sent twice, and fails after the edge was moved. -/
def cutBetween : List (DedupeTry ℕ) := [⟨101, [⟨[1, 2], false⟩]⟩]

/-- **The edge of the absorbed entity is lost**: it is soft-deleted when the op is tried again,
and is not read any more. -/
theorem cutInTwo_loses :
    let s' := tryDedupe mintPair untroubled.now dedupeOp.merges untroubled.batches
      (triesDedupe mintPair dedupeOp cutInTwo surrealMergeable)
    s'.2 = true ∧ ∃ t, surrealApplyDedupeEntities mintPair 100 dedupeOp surrealMergeable = some t ∧
      t.liveTriples = [(10, 13, "KNOWS")] ∧ s'.1.liveTriples = [] ∧ ¬ s'.1.SameOutcome t := by
  have hlost : (tryDedupe mintPair untroubled.now dedupeOp.merges untroubled.batches
      (triesDedupe mintPair dedupeOp cutInTwo surrealMergeable)).1.liveTriples = [] := by
    decide
  have hkept : (surrealApplyDedupeEntities mintPair 100 dedupeOp surrealMergeable).map
      SurrealTables.liveTriples = some [(10, 13, "KNOWS")] := by
    decide
  obtain ⟨t, ht, hlive⟩ := Option.map_eq_some_iff.mp hkept
  refine ⟨by decide, t, ht, hlive, hlost, ?_⟩
  rintro ⟨hperm, -⟩
  rw [hlost, hlive] at hperm
  cases hperm.length_eq

theorem cutBetween_same :
    ∃ t, surrealApplyDedupeEntities mintPair 100 dedupeOp surrealMergeable = some t ∧
      (tryDedupe mintPair untroubled.now dedupeOp.merges untroubled.batches
        (triesDedupe mintPair dedupeOp cutBetween surrealMergeable)).1.SameOutcome t := by
  obtain ⟨t, ht, hiff⟩ := @replay_iff ℕ ℕ _ mintPair 100 10 mintPair_injective dedupeOp (by decide)
    surrealMergeable fresh_surrealMergeable cutBetween untroubled (by decide)
  exact ⟨t, ht, hiff.mpr (by decide)⟩

end Khora
