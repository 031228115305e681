import Khora.Dream.DreamUndo

/-!
# Undo once more

The reverse handler says whether it has restored a row, and `dream_undo` mirrors the undo
to the graph again if it says so.  Of its three statements one has a guard that tells the
op's own change from a later one: the self-loops.  The tombstone is cleared whatever set
it, and the endpoints of a snapshot are set whether they differ or not.

* `reverse_flag`, `reverse_quiet` — when an undo says `True`, and when it does nothing.
* `no_snapshots_iff` — a record is without snapshots exactly if the op met no live row.
* `reUndoQuiet_iff` — a repeated undo is a no-op exactly if the op had met no live
  relationship and no absorbed entity has been retired since.
-/

namespace Khora

variable {Id T : Type}

/-! ## Records -/

section ReUndo

variable [DecidableEq Id]

/-- The merges of the record that were carried out. -/
def UndoRecord.carriedOut (undo : UndoRecord Id) : List (MergeUndo Id) :=
  undo.merges.filter MergeUndo.applied

/-- The relationships that the undo restores. -/
def UndoRecord.relationshipIds (undo : UndoRecord Id) : List Id :=
  undo.carriedOut.flatMap fun m => m.previousRelationships.map PreviousRelationship.id

/-- The entities that the undo restores. -/
def UndoRecord.entityIds (undo : UndoRecord Id) : List Id :=
  undo.carriedOut.map MergeUndo.absorbedId

/-- Writes after the undo that leave the restored relationships alone; an entity may have
been retired by them. -/
def LaterWrites (undo : UndoRecord Id) (s later : DreamTables Id T) : Prop :=
  ∀ r, r.id ∈ undo.relationshipIds → (r ∈ later.relationships.rows ↔ r ∈ s.relationships.rows)

/-- A repeated undo says `False` and changes nothing, and an entity that was retired in the
meantime stays retired. -/
def ReUndoQuiet (undo : UndoRecord Id) (s : DreamTables Id T) : Prop :=
  ((∀ e ∈ s.entities.rows, e.id ∈ undo.entityIds → e.validUntil = none) →
    reverseVectorcypherDedupeEntities undo s = (s, false)) ∧
  ∀ e ∈ s.entities.rows, e.id ∈ undo.entityIds → e.validUntil ≠ none →
    e ∈ (reverseVectorcypherDedupeEntities undo s).1.entities.rows

/-- The entities after the undo of any record. -/
theorem entities_reverse (undo : UndoRecord Id) (s : DreamTables Id T) :
    (reverseVectorcypherDedupeEntities undo s).1.entities.rows =
      s.entities.rows.map fun e => if e.id ∈ undo.entityIds then { e with validUntil := none } else e := by
  have hfold : ∀ (ms : List (MergeUndo Id)) (st : DreamTables Id T × Bool),
      (ms.foldl (fun st m => reverseMerge undo.opId m st) st).1.entities.rows =
        st.1.entities.rows.map fun e =>
          ((ms.filter MergeUndo.applied).map MergeUndo.absorbedId).foldl revive e := by
    intro ms
    induction ms with
    | nil => simp
    | cons m ms ih =>
        intro st
        rw [List.foldl_cons, ih]
        cases h : m.applied with
        | false => rw [List.filter_cons_of_neg (by simp [h]), reverseMerge, if_neg (by simp [h])]
        | true =>
            rw [List.filter_cons_of_pos h, reverseMerge, if_pos h]
            show ((st.1.entities.rows.map _).map _) = _
            rw [List.map_map]
            rfl
  rw [reverseVectorcypherDedupeEntities, hfold]
  apply List.map_congr_left
  intro e _
  exact foldl_revive _ e

section Flag

variable {R X : Type} {key : R → Id} {p : X → R → Bool} {f : X → R → R}
  {hf : ∀ x r, key (f x r) = key r}

omit [DecidableEq Id] in
/-- A row that was changed stays counted. -/
theorem foldl_andChange_of_true (xs : List X) : ∀ st : Table Id R key × Bool, st.2 = true →
    (xs.foldl (fun st x => andChange st (p x) (f x) (hf x)) st).2 = true := by
  induction xs with
  | nil => exact fun st h => h
  | cons x xs ih =>
      intro st h
      apply ih
      simp [andChange, h]

omit [DecidableEq Id] in
/-- Statements by key count if the table has a row with one of the keys. -/
theorem foldl_andChange_by_key {keyOf : X → Id} (hp : ∀ x r, key r = keyOf x → p x r = true)
    (xs : List X) : ∀ st : Table Id R key × Bool, (∃ x ∈ xs, keyOf x ∈ st.1.rows.map key) →
    (xs.foldl (fun st x => andChange st (p x) (f x) (hf x)) st).2 = true := by
  induction xs with
  | nil => exact fun st h => (by cases h.choose_spec.1)
  | cons x xs ih =>
      rintro st ⟨y, hy, hmem⟩
      rw [List.foldl_cons]
      rcases List.mem_cons.mp hy with rfl | hy
      · apply foldl_andChange_of_true
        obtain ⟨r, hr, hkey⟩ := List.mem_map.mp hmem
        have haff : st.1.affects (p y) = true := List.any_eq_true.mpr ⟨r, hr, hp y r hkey⟩
        show (st.2 || st.1.affects (p y)) = true
        rw [haff, Bool.or_true]
      · apply ih
        refine ⟨y, hy, ?_⟩
        show keyOf y ∈ (st.1.rows.map fun r => if p x r then f x r else r).map key
        rw [Table.map_key_update _ _ (hf x)]
        exact hmem

end Flag

/-- A merge keeps what was counted and the ids of the rows, and counts if one of its
snapshots is of a row. -/
theorem reverseMerge_flag (opId : Option Id) (m : MergeUndo Id) (st : DreamTables Id T × Bool) :
    (reverseMerge opId m st).1.relationships.rows.map Relationship.id =
        st.1.relationships.rows.map Relationship.id ∧
      (st.2 = true → (reverseMerge opId m st).2 = true) ∧
      (m.applied = true → (∃ prev ∈ m.previousRelationships,
        prev.id ∈ st.1.relationships.rows.map Relationship.id) → (reverseMerge opId m st).2 = true) := by
  cases happ : m.applied with
  | false =>
      rw [reverseMerge, if_neg (by simp [happ])]
      exact ⟨rfl, fun h => h, fun h => (by cases h)⟩
  | true =>
      rw [reverseMerge, if_pos happ]
      have hids : ∀ {X : Type} (p : X → Relationship Id T → Bool)
          (f : X → Relationship Id T → Relationship Id T) (hf : ∀ x r, (f x r).id = r.id) (xs : List X)
          (st : Table Id (Relationship Id T) Relationship.id × Bool),
          (xs.foldl (fun st x => andChange st (p x) (f x) (hf x)) st).1.rows.map Relationship.id =
            st.1.rows.map Relationship.id := by
        intro X p f hf xs
        induction xs with
        | nil => exact fun _ => rfl
        | cons x xs ih =>
            intro st
            rw [List.foldl_cons, ih]
            exact Table.map_key_update _ _ (hf x) _
      refine ⟨?_, ?_, ?_⟩
      · exact (hids _ _ _ _ _).trans (hids _ _ _ _ _)
      · intro h
        apply foldl_andChange_of_true
        apply foldl_andChange_of_true
        show (st.2 || _) = true
        rw [h, Bool.true_or]
      · rintro - ⟨prev, hprev, hmem⟩
        apply foldl_andChange_of_true
        exact @foldl_andChange_by_key _ _ _ _ _ _ _ PreviousRelationship.id
          (fun x r h => decide_eq_true h) _ _ ⟨prev, hprev, hmem⟩

/-- An undo says `True` if a relationship of its record is still there. -/
theorem reverse_flag {undo : UndoRecord Id} {s : DreamTables Id T}
    (h : ∃ x ∈ undo.relationshipIds, x ∈ s.relationships.rows.map Relationship.id) :
    (reverseVectorcypherDedupeEntities undo s).2 = true := by
  have hkeeps : ∀ (ms : List (MergeUndo Id)) (st : DreamTables Id T × Bool), st.2 = true →
      (ms.foldl (fun st m => reverseMerge undo.opId m st) st).2 = true := by
    intro ms
    induction ms with
    | nil => exact fun st h => h
    | cons m ms ih => exact fun st h => ih _ ((reverseMerge_flag undo.opId m st).2.1 h)
  have hcounts : ∀ (ms : List (MergeUndo Id)) (st : DreamTables Id T × Bool),
      (∃ m ∈ ms.filter MergeUndo.applied, ∃ prev ∈ m.previousRelationships,
        prev.id ∈ st.1.relationships.rows.map Relationship.id) →
      (ms.foldl (fun st m => reverseMerge undo.opId m st) st).2 = true := by
    intro ms
    induction ms with
    | nil => simp
    | cons m ms ih =>
        rintro st ⟨m', hm', hprev⟩
        obtain ⟨hm', happ⟩ := List.mem_filter.mp hm'
        obtain ⟨hids, -, hflag⟩ := reverseMerge_flag undo.opId m st
        rcases List.mem_cons.mp hm' with rfl | hm'
        · exact hkeeps ms _ (hflag happ hprev)
        · apply ih
          rw [hids]
          exact ⟨m', List.mem_filter.mpr ⟨hm', happ⟩, hprev⟩
  obtain ⟨x, hx, hmem⟩ := h
  obtain ⟨m, hm, hx⟩ := List.mem_flatMap.mp hx
  obtain ⟨prev, hprev, rfl⟩ := List.mem_map.mp hx
  exact hcounts undo.merges (s, false) ⟨m, hm, prev, hprev, hmem⟩

/-- An undo with nothing to restore says `False`. -/
theorem reverse_quiet {undo : UndoRecord Id} {s : DreamTables Id T}
    (hnone : ∀ m ∈ undo.carriedOut, m.previousRelationships = [] ∧ m.selfLoopsInvalidated = [])
    (hlive : ∀ e ∈ s.entities.rows, e.id ∈ undo.entityIds → e.validUntil = none) :
    reverseVectorcypherDedupeEntities undo s = (s, false) := by
  have hfold : ∀ ms : List (MergeUndo Id),
      (∀ m ∈ ms.filter MergeUndo.applied,
        m.previousRelationships = [] ∧ m.selfLoopsInvalidated = []) →
      (∀ e ∈ s.entities.rows, e.id ∈ (ms.filter MergeUndo.applied).map MergeUndo.absorbedId →
        e.validUntil = none) →
      ms.foldl (fun st m => reverseMerge undo.opId m st) (s, false) = (s, false) := by
    intro ms
    induction ms with
    | nil => exact fun _ _ => rfl
    | cons m ms ih =>
        intro hnone hlive
        have hhere : reverseMerge undo.opId m (s, false) = (s, false) := by
          cases happ : m.applied with
          | false => rw [reverseMerge, if_neg (by simp [happ])]
          | true =>
              rw [List.filter_cons_of_pos happ] at hnone hlive
              obtain ⟨hprev, hloops⟩ := hnone m List.mem_cons_self
              have hdead : ∀ e ∈ s.entities.rows,
                  (decide (e.id = m.absorbedId) && e.validUntil.isSome) = false := by
                intro e he
                by_cases hid : e.id = m.absorbedId
                · rw [hlive e he (by simp [hid])]
                  simp
                · simp [hid]
              have haff : s.entities.affects
                  (fun e => decide (e.id = m.absorbedId) && e.validUntil.isSome) = false := by
                rw [Table.affects, List.any_eq_false]
                intro e he
                rw [hdead e he]
                decide
              rw [reverseMerge, if_pos happ, hprev, hloops]
              show ((⟨s.relationships, _⟩ : DreamTables Id T), (false || s.entities.affects _)) = _
              rw [haff, Bool.or_false]
              apply congrArg (·, false)
              refine DreamTables.ext rfl ?_
              show s.entities.rows.map _ = s.entities.rows
              apply Table.map_eq_self.mpr
              intro e he
              exact if_neg (Bool.eq_false_iff.mp (hdead e he))
        rw [List.foldl_cons, hhere]
        cases happ : m.applied with
        | false =>
            rw [List.filter_cons_of_neg (by simp [happ])] at hnone hlive
            exact ih hnone hlive
        | true =>
            rw [List.filter_cons_of_pos happ] at hnone hlive
            exact ih (fun m' hm' => hnone m' (List.mem_cons_of_mem _ hm'))
              fun e he hid => hlive e he (List.mem_cons_of_mem _ hid)
  exact hfold undo.merges hnone hlive

section Record

variable {opId : Id} {now : T} {band : VerifierBand} {judge : MergeEntry Id → VerifierDecision}

/-- The absorbed entities of a record are those of the authorized merges. -/
theorem absorbedIds_applyMerges (entries : List (MergeEntry Id)) : ∀ s : DreamTables Id T,
    ((applyMerges band judge opId now entries s).2.filter MergeUndo.applied).map
      MergeUndo.absorbedId = absorbedIds band judge entries := by
  induction entries with
  | nil => simp [applyMerges, absorbedIds]
  | cons entry entries ih =>
      intro s
      rw [absorbedIds_cons]
      rcases @applyMerges_cons _ _ _ opId now band judge entry entries s with ⟨hauth, heq⟩ | ⟨hauth, heq⟩
      · rw [heq, hauth, if_pos rfl]
        simp only
        rw [List.filter_cons_of_pos rfl, List.map_cons, ih]
        rfl
      · rw [heq, hauth]
        simp only
        rw [List.filter_cons_of_neg (by simp)]
        exact ih s

/-- The snapshots of a record are of rows of the tables, and its self-loops have one. -/
theorem snapshots_applyMerges (entries : List (MergeEntry Id)) : ∀ s : DreamTables Id T,
    ∀ m ∈ (applyMerges band judge opId now entries s).2.filter MergeUndo.applied,
      (∀ prev ∈ m.previousRelationships, prev.id ∈ s.relationships.rows.map Relationship.id) ∧
      (m.previousRelationships = [] → m.selfLoopsInvalidated = []) := by
  induction entries with
  | nil => simp [applyMerges]
  | cons entry entries ih =>
      intro s m hm
      rcases @applyMerges_cons _ _ _ opId now band judge entry entries s with ⟨-, heq⟩ | ⟨-, heq⟩
      · rw [heq] at hm
        simp only at hm
        rw [List.filter_cons_of_pos rfl] at hm
        rcases List.mem_cons.mp hm with rfl | hm
        · constructor
          · intro prev hprev
            obtain ⟨r, hr, rfl⟩ := List.mem_map.mp hprev
            exact List.mem_map.mpr ⟨r, (List.mem_filter.mp hr).1, rfl⟩
          · intro hnone
            have hrows : selectRelationshipsTouching s.relationships entry.absorbedId = [] :=
              List.map_eq_nil_iff.mp hnone
            show ((selectRelationshipsTouching _ _).filter _).map _ = _
            rw [hrows]
            rfl
        · obtain ⟨hids, hloops⟩ := ih _ m hm
          refine ⟨fun prev hprev => ?_, hloops⟩
          have hid := hids prev hprev
          rw [rows_applyMerge, List.map_map] at hid
          obtain ⟨r, hr, hrid⟩ := List.mem_map.mp hid
          rw [Function.comp_apply, id_stepRow] at hrid
          exact List.mem_map.mpr ⟨r, hr, hrid⟩
      · rw [heq] at hm
        simp only at hm
        rw [List.filter_cons_of_neg (by simp)] at hm
        exact ih s m hm

theorem untouched_cons_iff {a : Id} {as : List Id} {r : Relationship Id T} :
    Untouched (a :: as) r ↔ r.touches a = false ∧ Untouched as r := by
  constructor
  · intro h
    refine ⟨h.not_touches List.mem_cons_self, fun hlive => ?_⟩
    obtain ⟨hs, ht⟩ := h hlive
    exact ⟨fun hm => hs (List.mem_cons_of_mem _ hm), fun hm => ht (List.mem_cons_of_mem _ hm)⟩
  · rintro ⟨htouch, h⟩ hlive
    obtain ⟨hs, ht⟩ := ends_of_not_touches hlive htouch
    simpa [hs, ht] using h hlive

/-- **A record has no snapshot exactly if the op met no live relationship.** -/
theorem no_snapshots_iff (entries : List (MergeEntry Id)) : ∀ s : DreamTables Id T,
    (∀ m ∈ (applyMerges band judge opId now entries s).2.filter MergeUndo.applied,
      m.previousRelationships = []) ↔
      ∀ r ∈ s.relationships.rows, Untouched (absorbedIds band judge entries) r := by
  induction entries with
  | nil =>
      intro s
      simp [applyMerges, absorbedIds, Untouched]
  | cons entry entries ih =>
      intro s
      rw [absorbedIds_cons]
      rcases @applyMerges_cons _ _ _ opId now band judge entry entries s with ⟨hauth, heq⟩ | ⟨hauth, heq⟩
      · rw [heq, hauth, if_pos rfl]
        simp only
        rw [List.filter_cons_of_pos rfl, List.forall_mem_cons, ih, rows_applyMerge]
        have hhere : (applyMerge opId now (maybeRunVerifier band judge entry) entry
            s).2.previousRelationships = [] ↔
            ∀ r ∈ s.relationships.rows, r.touches entry.absorbedId = false := by
          show List.map _ (selectRelationshipsTouching _ _) = [] ↔ _
          rw [List.map_eq_nil_iff, selectRelationshipsTouching, List.filter_eq_nil_iff]
          simp only [Bool.not_eq_true]
        rw [hhere]
        constructor
        · rintro ⟨htouch, hrest⟩ r hr
          refine untouched_cons_iff.mpr ⟨htouch r hr, ?_⟩
          have hun := hrest _ (List.mem_map.mpr ⟨r, hr, rfl⟩)
          rw [stepRow_of_not_touches (htouch r hr)] at hun
          exact hun
        · intro h
          have hsplit := fun r hr => untouched_cons_iff.mp (h r hr)
          refine ⟨fun r hr => (hsplit r hr).1, ?_⟩
          intro r' hr'
          obtain ⟨r, hr, rfl⟩ := List.mem_map.mp hr'
          rw [stepRow_of_not_touches (hsplit r hr).1]
          exact (hsplit r hr).2
      · rw [heq, hauth]
        simp only
        rw [List.filter_cons_of_neg (by simp)]
        exact ih s

end Record

/-- The ids of the relationships stay as they are under the op. -/
theorem ids_applyMerges {opId : Id} {now : T} {band : VerifierBand}
    {judge : MergeEntry Id → VerifierDecision} (entries : List (MergeEntry Id)) :
    ∀ s : DreamTables Id T,
    (applyMerges band judge opId now entries s).1.relationships.rows.map Relationship.id =
      s.relationships.rows.map Relationship.id := by
  induction entries with
  | nil => exact fun _ => rfl
  | cons entry entries ih =>
      intro s
      rcases @applyMerges_cons _ _ _ opId now band judge entry entries s with ⟨-, heq⟩ | ⟨-, heq⟩
      · rw [heq]
        simp only
        rw [ih, rows_applyMerge, List.map_map]
        apply List.map_congr_left
        intro r _
        exact id_stepRow _ r
      · rw [heq]
        exact ih s

/-- The ids of the relationships stay as they are under the undo. -/
theorem ids_reverse (undo : UndoRecord Id) (s : DreamTables Id T) :
    (reverseVectorcypherDedupeEntities undo s).1.relationships.rows.map Relationship.id =
      s.relationships.rows.map Relationship.id := by
  have hfold : ∀ (ms : List (MergeUndo Id)) (st : DreamTables Id T × Bool),
      (ms.foldl (fun st m => reverseMerge undo.opId m st) st).1.relationships.rows.map
        Relationship.id = st.1.relationships.rows.map Relationship.id := by
    intro ms
    induction ms with
    | nil => exact fun _ => rfl
    | cons m ms ih =>
        intro st
        rw [List.foldl_cons, ih]
        exact (reverseMerge_flag undo.opId m st).1
  exact hfold undo.merges (s, false)

/-- **A repeated undo is a no-op exactly if the op had met no live relationship and no
absorbed entity has been retired since.**  The endpoints of a snapshot are set without a
guard, and the tombstone is cleared whatever set it. -/
theorem reUndoQuiet_iff (band : VerifierBand) (judge : MergeEntry Id → VerifierDecision) (now : T)
    (op : DedupeOp Id) (s later : DreamTables Id T)
    (hlater : LaterWrites (applyVectorcypherDedupeEntities band judge now op s).2
      (reverseVectorcypherDedupeEntities (applyVectorcypherDedupeEntities band judge now op s).2
        (applyVectorcypherDedupeEntities band judge now op s).1).1 later) :
    ReUndoQuiet (applyVectorcypherDedupeEntities band judge now op s).2 later ↔
      (∀ r ∈ s.relationships.rows, Untouched (absorbedIds band judge op.merges) r) ∧
        ∀ e ∈ later.entities.rows, e.id ∈ absorbedIds band judge op.merges → e.validUntil = none := by
  have hids : (applyVectorcypherDedupeEntities band judge now op s).2.entityIds =
      absorbedIds band judge op.merges := absorbedIds_applyMerges op.merges s
  have hsnap := @snapshots_applyMerges _ _ _ op.opId now band judge op.merges s
  rw [← @no_snapshots_iff _ _ _ op.opId now, ← hids]
  constructor
  · rintro ⟨hquiet, hkept⟩
    have hlive : ∀ e ∈ later.entities.rows,
        e.id ∈ (applyVectorcypherDedupeEntities band judge now op s).2.entityIds →
        e.validUntil = none := by
      intro e he hid
      by_contra hdead
      have hmem := hkept e he hid hdead
      rw [entities_reverse] at hmem
      obtain ⟨e', -, heq⟩ := List.mem_map.mp hmem
      by_cases hid' : e'.id ∈ (applyVectorcypherDedupeEntities band judge now op s).2.entityIds
      · rw [if_pos hid'] at heq
        exact hdead (heq ▸ rfl)
      · rw [if_neg hid'] at heq
        exact hid' (heq ▸ hid)
    refine ⟨fun m hm => ?_, hlive⟩
    -- a snapshot would be of a row that is there still, and the undo would count it
    rw [List.eq_nil_iff_forall_not_mem]
    intro prev hprev
    have hin : prev.id ∈ (applyVectorcypherDedupeEntities band judge now op s).2.relationshipIds :=
      List.mem_flatMap.mpr ⟨m, hm, List.mem_map.mpr ⟨prev, hprev, rfl⟩⟩
    have hrow := (hsnap m hm).1 prev hprev
    rw [← @ids_applyMerges _ _ _ op.opId now band judge op.merges s]
      at hrow
    have hrow' := hrow
    rw [← ids_reverse (applyVectorcypherDedupeEntities band judge now op s).2] at hrow'
    obtain ⟨r, hr, hrid⟩ := List.mem_map.mp hrow'
    have hthere := (hlater r (hrid ▸ hin)).mpr hr
    have hflag := reverse_flag ⟨prev.id, hin, List.mem_map.mpr ⟨r, hthere, hrid⟩⟩
    rw [hquiet hlive] at hflag
    cases hflag
  · rintro ⟨hnone, hlive⟩
    refine ⟨fun _ => reverse_quiet (fun m hm => ⟨hnone m hm, (hsnap m hm).2 (hnone m hm)⟩) hlive, ?_⟩
    intro e he hid hdead
    exact absurd (hlive e he hid) hdead

end ReUndo

/-- A relationship that the op does not meet, and the entities. -/
def unmet (entities : Table ℕ (Entity ℕ ℕ) Entity.id) : DreamTables ℕ ℕ where
  relationships := { rows := [⟨1, 10, 13, "KNOWS", none, none⟩], nodup := by decide }
  entities := entities

/-- Entity 11 is retired for another reason after the undo. -/
def retiredAgain : Table ℕ (Entity ℕ ℕ) Entity.id where
  rows := [⟨10, none⟩, ⟨11, some 300⟩, ⟨12, none⟩, ⟨13, none⟩]
  nodup := by decide

theorem reUndoQuiet_unmet :
    ReUndoQuiet (applyVectorcypherDedupeEntities defaultBand deferring 100 dedupeOp
      (unmet liveEntities)).2 (unmet liveEntities) := by
  refine (reUndoQuiet_iff defaultBand deferring 100 dedupeOp (unmet liveEntities)
    (unmet liveEntities) (fun r hr => ?_)).mpr ⟨?_, ?_⟩
  · revert hr
    simp [show (applyVectorcypherDedupeEntities defaultBand deferring 100 dedupeOp
      (unmet liveEntities)).2.relationshipIds = [] by decide]
  · unfold Untouched
    decide
  · decide

/-- **A repeated undo says `True` again, and clears a later tombstone.** -/
theorem reUndo_repeats :
    dedupeOp.Coherent 10 ∧ (reverseVectorcypherDedupeEntities
      (applyVectorcypherDedupeEntities defaultBand deferring 100 dedupeOp mergeable).2
      (reverseVectorcypherDedupeEntities
        (applyVectorcypherDedupeEntities defaultBand deferring 100 dedupeOp mergeable).2
        (applyVectorcypherDedupeEntities defaultBand deferring 100 dedupeOp mergeable).1).1).2 = true ∧
    (reverseVectorcypherDedupeEntities
      (applyVectorcypherDedupeEntities defaultBand deferring 100 dedupeOp (unmet liveEntities)).2
      (unmet retiredAgain)).1.entities.rows = liveEntities.rows := by
  refine ⟨coherent_dedupeOp, ?_, ?_⟩
  · decide
  · decide

end Khora
