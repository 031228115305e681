import Khora.Engine.RememberBatch

/-!
# The accounting of a batch

Every stage of `remember_batch` records some of the inputs; together they record each one once.

* `foldl_replaceStep` — the pre-pass records the inputs it handles.
* `skipDuplicates_spec` — what stage 0 skips, and what it leaves for creation.
* `runStages_trace` — the records of a whole batch.
* `batch_accounting` — the counters, the progress calls and the entries of the inputs agree.
-/

namespace Khora

namespace RememberBatch

variable {Id S K : Type} [DecidableEq Id] [DecidableEq S] [DecidableEq K] {env : Env Id S K}
  {docs : List (Entry S)}

/-! ## Stage 0a -/

/-- The record of an input that is replaced. -/
def IsReplacement (env : Env Id S K) (stored : List (Document Id S K)) (p : ℕ × Outcome Id) : Prop :=
  ∃ x existing, getDocumentByExternalId stored x = some existing ∧ p.2 = replaceOutcome env existing p.1

omit [DecidableEq S] [DecidableEq K] in
/-- **The pre-pass** records the inputs it handles, and nothing else. -/
theorem foldl_replaceStep {stored : List (Document Id S K)} {ps : List (String × ℕ)} {s : State Id S K}
    (hps : ∀ p ∈ ps, p.2 < docs.length) :
    ∃ recs : List (ℕ × Outcome Id),
      (ps.foldl (replaceStep env docs stored) s).batch = recs.foldl (record docs) s.batch ∧
      (ps.foldl (replaceStep env docs stored) s).handled = s.handled ++ recs.map Prod.fst ∧
      recs.map Prod.fst = (ps.filter fun p => (getDocumentByExternalId stored p.1).isSome).map Prod.snd ∧
      (∀ p ∈ recs, IsReplacement env stored p) ∧
      (ps.foldl (replaceStep env docs stored) s).winners = s.winners ∧
      (ps.foldl (replaceStep env docs stored) s).active = s.active ∧
      (ps.foldl (replaceStep env docs stored) s).dups = s.dups ∧
      (ps.foldl (replaceStep env docs stored) s).ids = s.ids := by
  induction ps generalizing s with
  | nil => exact ⟨[], rfl, by simp, rfl, by simp, rfl, rfl, rfl, rfl⟩
  | cons p ps ih =>
      rw [List.forall_mem_cons] at hps
      obtain ⟨e, he⟩ : ∃ e, docs[p.2]? = some e := ⟨_, List.getElem?_eq_getElem hps.1⟩
      obtain ⟨recs, hbatch, hhandled, hidx, hall, hrest⟩ := @ih (replaceStep env docs stored s p) hps.2
      rw [List.foldl_cons]
      cases hget : getDocumentByExternalId stored p.1 with
      | none =>
          have hstep : replaceStep env docs stored s p = s := by simp only [replaceStep, hget]
          rw [hstep] at hbatch hhandled hrest ⊢
          exact ⟨recs, hbatch, hhandled, by rw [hidx, List.filter_cons, hget]; rfl, hall, hrest⟩
      | some existing =>
          have hstep : replaceStep env docs stored s p = { s with
              store := replaceDocument env e p.2 existing s.store
              batch := record docs s.batch (p.2, replaceOutcome env existing p.2)
              handled := s.handled ++ [p.2] } := by
            simp only [replaceStep, hget, he]
          rw [hstep] at hbatch hhandled hrest ⊢
          refine ⟨(p.2, replaceOutcome env existing p.2) :: recs, hbatch, ?_, ?_, ?_, hrest⟩
          · rw [hhandled, List.append_assoc]
            rfl
          · rw [List.map_cons, hidx, List.filter_cons, hget]
            rfl
          · rw [List.forall_mem_cons]
            exact ⟨⟨p.1, existing, hget, rfl⟩, hall⟩

omit [DecidableEq Id] [DecidableEq S] [DecidableEq K] in
theorem mem_extIdToIdx {x : String} {i : ℕ} (h : (x, i) ∈ (extIdToIdx docs).items) :
    i < docs.length ∧ (docs[i]?).bind Entry.externalId = some x := by
  have hget := get?_extIdToIdx.mp (OrderedDict.get?_eq_some_iff.mpr h)
  refine ⟨?_, hget.2.1⟩
  by_contra hlt
  have hnone := hget.2.1
  rw [List.getElem?_eq_none (by omega)] at hnone
  cases hnone

omit [DecidableEq Id] [DecidableEq S] [DecidableEq K] in
/-- Every input is there under its own id only. -/
theorem nodup_extIdToIdx : ((extIdToIdx docs).items.map Prod.snd).Nodup := by
  have hitems : (extIdToIdx docs).items.Nodup := (extIdToIdx docs).nodup.of_map _
  refine hitems.map_on ?_
  intro p hp q hq heq
  have hx := (mem_extIdToIdx hp).2
  rw [heq, (mem_extIdToIdx hq).2] at hx
  exact Prod.ext (Option.some.inj hx).symm heq

/-! ## Stage 0 -/

/-- The same identity within the batch. -/
def SameKey (env : Env Id S K) (docs : List (Entry S)) (j i : ℕ) : Prop :=
  ∃ a b, docs[j]? = some a ∧ docs[i]? = some b ∧ identityKey env a = identityKey env b

/-- Stage 0 after the first `k` inputs. -/
structure Deduped (env : Env Id S K) (docs : List (Entry S)) (s₀ s : State Id S K) (k : ℕ)
    (recs : List (ℕ × Outcome Id)) : Prop where
  frame : s.store = s₀.store ∧ s.handled = s₀.handled ∧ s.ids = s₀.ids
  batch : s.batch = recs.foldl (record docs) s₀.batch
  bounds : ∀ i ∈ recs.map Prod.fst ++ s.active, i < k ∧ i ∉ s₀.handled
  nodup : (recs.map Prod.fst ++ s.active).Nodup
  cover : ∀ i < k, i ∈ s₀.handled ∨ i ∈ recs.map Prod.fst ∨ i ∈ s.active
  only : ∀ p ∈ recs,
    (∃ e d, docs[p.1]? = some e ∧ dbDup env s₀.store e = some d ∧ p.2 = .skipped (some d.id)) ∨
      ∃ e key j, docs[p.1]? = some e ∧ dbDup env s₀.store e = none ∧ p.2 = .skipped none ∧
        j ∈ s.active ∧ j < p.1 ∧ SameKey env docs j p.1 ∧ (p.1, key) ∈ s.dups ∧ (key, j) ∈ s.winners
  active : ∀ i ∈ s.active, ∃ e, docs[i]? = some e ∧ dbDup env s₀.store e = none ∧
    (identityKey env e, i) ∈ s.winners
  winners : ∀ key i, (key, i) ∈ s.winners → i ∈ s.active ∧ ∃ e, docs[i]? = some e ∧ identityKey env e = key
  keys : (s.winners.map Prod.fst).Nodup
  dups : ∀ q ∈ s.dups, (q.1, .skipped none) ∈ recs
  dups_nodup : (s.dups.map Prod.fst).Nodup

omit [DecidableEq Id] in
/-- One more input has an outcome of its own. -/
theorem Deduped.recorded {s₀ s : State Id S K} {k : ℕ} {recs : List (ℕ × Outcome Id)}
    (h : Deduped env docs s₀ s k recs) (hnot : k ∉ s₀.handled) (outcome : Outcome Id) :
    (∀ i ∈ (recs ++ [(k, outcome)]).map Prod.fst ++ s.active, i < k + 1 ∧ i ∉ s₀.handled) ∧
      ((recs ++ [(k, outcome)]).map Prod.fst ++ s.active).Nodup ∧
      ∀ i < k + 1, i ∈ s₀.handled ∨ i ∈ (recs ++ [(k, outcome)]).map Prod.fst ∨ i ∈ s.active := by
  have hperm : ((recs ++ [(k, outcome)]).map Prod.fst ++ s.active).Perm (k :: (recs.map Prod.fst ++ s.active)) := by
    rw [List.map_append, List.append_assoc]
    exact List.perm_middle
  refine ⟨fun i hi => ?_, ?_, fun i hi => ?_⟩
  · rcases List.mem_cons.mp (hperm.mem_iff.mp hi) with rfl | hi
    · exact ⟨Nat.lt_succ_self i, hnot⟩
    · exact ⟨Nat.lt_succ_of_lt (h.bounds i hi).1, (h.bounds i hi).2⟩
  · exact hperm.nodup_iff.mpr (List.nodup_cons.mpr ⟨fun hk => Nat.lt_irrefl k (h.bounds k hk).1, h.nodup⟩)
  · rw [List.map_append, List.mem_append]
    rcases Nat.lt_succ_iff_lt_or_eq.mp hi with hlt | rfl
    · exact (h.cover i hlt).imp_right fun hc => hc.imp_left Or.inl
    · exact Or.inr (Or.inl (Or.inr List.mem_cons_self))

omit [DecidableEq Id] in
theorem Deduped.step {s₀ s : State Id S K} {k : ℕ} {recs : List (ℕ × Outcome Id)} {e : Entry S}
    (h : Deduped env docs s₀ s k recs) (he : docs[k]? = some e) :
    ∃ recs', Deduped env docs s₀ (dedupStep env docs s (e, k)) (k + 1) recs' := by
  have hfresh : ∀ i ∈ recs.map Prod.fst ++ s.active, i ≠ k := fun i hi => Nat.ne_of_lt (h.bounds i hi).1
  have hbounds : ∀ i ∈ recs.map Prod.fst ++ s.active, i < k + 1 ∧ i ∉ s₀.handled :=
    fun i hi => ⟨Nat.lt_succ_of_lt (h.bounds i hi).1, (h.bounds i hi).2⟩
  by_cases hhandled : k ∈ s.handled
  · have hstep : dedupStep env docs s (e, k) = s := if_pos hhandled
    rw [hstep]
    refine ⟨recs, { h with bounds := hbounds, cover := ?_ }⟩
    intro i hi
    rcases Nat.lt_succ_iff_lt_or_eq.mp hi with hlt | rfl
    · exact h.cover i hlt
    · exact Or.inl (h.frame.2.1 ▸ hhandled)
  · have hnot : k ∉ s₀.handled := h.frame.2.1 ▸ hhandled
    cases hdup : dbDup env s.store e with
    | some d =>
        have hstep : dedupStep env docs s (e, k) =
            { s with batch := record docs s.batch (k, .skipped (some d.id)) } := by
          simp only [dedupStep, if_neg hhandled, hdup]
        rw [hstep]
        obtain ⟨hbounded, hnodup, hcover⟩ := h.recorded hnot (.skipped (some d.id))
        refine ⟨recs ++ [(k, .skipped (some d.id))], ⟨h.frame, ?_, hbounded, hnodup, hcover, ?_, h.active, h.winners,
          h.keys, fun q hq => List.mem_append_left _ (h.dups q hq), h.dups_nodup⟩⟩
        · rw [List.foldl_append, ← h.batch]
          rfl
        · intro p hp
          rcases List.mem_append.mp hp with hp | hp
          · exact h.only p hp
          · rw [List.mem_singleton.mp hp]
            exact Or.inl ⟨e, d, he, h.frame.1 ▸ hdup, rfl⟩
    | none =>
        by_cases hseen : identityKey env e ∈ s.winners.map Prod.fst
        · have hstep : dedupStep env docs s (e, k) = { s with
              batch := record docs s.batch (k, .skipped none)
              dups := s.dups ++ [(k, identityKey env e)] } := by
            simp only [dedupStep, if_neg hhandled, hdup, if_pos hseen]
          rw [hstep]
          obtain ⟨⟨key, j⟩, hwinner, hkey⟩ := List.mem_map.mp hseen
          obtain ⟨hj, a, ha, hakey⟩ := h.winners key j hwinner
          have hjk : j < k := (h.bounds j (List.mem_append_right _ hj)).1
          obtain ⟨hbounded, hnodup, hcover⟩ := h.recorded hnot (.skipped none)
          refine ⟨recs ++ [(k, .skipped none)], ⟨h.frame, ?_, hbounded, hnodup, hcover, ?_, h.active, h.winners,
            h.keys, ?_, ?_⟩⟩
          · rw [List.foldl_append, ← h.batch]
            rfl
          · intro p hp
            rcases List.mem_append.mp hp with hp | hp
            · refine (h.only p hp).imp_right ?_
              rintro ⟨e', key', j', he', hnone, hout, hj', hlt, hsame, hd, hw⟩
              exact ⟨e', key', j', he', hnone, hout, hj', hlt, hsame, List.mem_append_left _ hd, hw⟩
            · rw [List.mem_singleton.mp hp]
              refine Or.inr ⟨e, identityKey env e, j, he, h.frame.1 ▸ hdup, rfl, hj, hjk, ⟨a, e, ha, he, ?_⟩,
                List.mem_append_right _ List.mem_cons_self, hkey ▸ hwinner⟩
              rw [hakey]
              exact hkey
          · intro q hq
            rcases List.mem_append.mp hq with hq | hq
            · exact List.mem_append_left _ (h.dups q hq)
            · rw [List.mem_singleton.mp hq]
              exact List.mem_append_right _ List.mem_cons_self
          · rw [List.map_append]
            apply List.nodup_append.mpr
            refine ⟨h.dups_nodup, List.nodup_singleton _, ?_⟩
            intro i hi i' hi' heq
            obtain ⟨q, hq, rfl⟩ := List.mem_map.mp hi
            rw [List.mem_singleton.mp hi'] at heq
            exact hfresh q.1 (List.mem_append_left _ (List.mem_map_of_mem (h.dups q hq))) heq
        · have hstep : dedupStep env docs s (e, k) = { s with
              winners := s.winners ++ [(identityKey env e, k)]
              active := s.active ++ [k] } := by
            simp only [dedupStep, if_neg hhandled, hdup, if_neg hseen]
          rw [hstep]
          refine ⟨recs, ⟨h.frame, h.batch, ?_, ?_, ?_, ?_, ?_, ?_, ?_, h.dups, h.dups_nodup⟩⟩
          · intro i hi
            rw [← List.append_assoc] at hi
            rcases List.mem_append.mp hi with hi | hi
            · exact hbounds i hi
            · rw [List.mem_singleton.mp hi]
              exact ⟨Nat.lt_succ_self k, hnot⟩
          · rw [← List.append_assoc]
            apply List.nodup_append.mpr
            refine ⟨h.nodup, List.nodup_singleton _, ?_⟩
            intro i hi i' hi' heq
            rw [List.mem_singleton.mp hi'] at heq
            exact hfresh i hi heq
          · intro i hi
            rw [List.mem_append]
            rcases Nat.lt_succ_iff_lt_or_eq.mp hi with hlt | rfl
            · exact (h.cover i hlt).imp_right fun hc => hc.imp_right Or.inl
            · exact Or.inr (Or.inr (Or.inr List.mem_cons_self))
          · intro p hp
            refine (h.only p hp).imp_right ?_
            rintro ⟨e', key', j', he', hnone, hout, hj', hrest⟩
            exact ⟨e', key', j', he', hnone, hout, List.mem_append_left _ hj', hrest.1, hrest.2.1, hrest.2.2.1,
              List.mem_append_left _ hrest.2.2.2⟩
          · intro i hi
            rcases List.mem_append.mp hi with hi | hi
            · obtain ⟨a, ha, hnone, hw⟩ := h.active i hi
              exact ⟨a, ha, hnone, List.mem_append_left _ hw⟩
            · rw [List.mem_singleton.mp hi]
              exact ⟨e, he, h.frame.1 ▸ hdup, List.mem_append_right _ List.mem_cons_self⟩
          · intro key i hw
            rcases List.mem_append.mp hw with hw | hw
            · obtain ⟨hi, hrest⟩ := h.winners key i hw
              exact ⟨List.mem_append_left _ hi, hrest⟩
            · cases List.mem_singleton.mp hw
              exact ⟨List.mem_append_right _ List.mem_cons_self, e, he, rfl⟩
          · rw [List.map_append]
            apply List.nodup_append.mpr
            refine ⟨h.keys, List.nodup_singleton _, ?_⟩
            intro key hkey key' hkey' heq
            have hsame : key = identityKey env e := heq.trans (List.mem_singleton.mp hkey')
            exact hseen (hsame ▸ hkey)

omit [DecidableEq Id] in
/-- **Stage 0** skips what is stored and what repeats an earlier input, and leaves the rest. -/
theorem skipDuplicates_spec {s₀ : State Id S K} (hwinners : s₀.winners = []) (hactive : s₀.active = [])
    (hdups : s₀.dups = []) :
    ∃ recs, Deduped env docs s₀ (skipDuplicates env docs s₀) docs.length recs := by
  have hprefix : ∀ k ≤ docs.length, ∃ recs,
      Deduped env docs s₀ ((docs.take k).zipIdx.foldl (dedupStep env docs) s₀) k recs := by
    intro k
    induction k with
    | zero =>
        intro _
        refine ⟨[], ⟨⟨rfl, rfl, rfl⟩, rfl, ?_, ?_, ?_, ?_, ?_, ?_, ?_, ?_, ?_⟩⟩
        all_goals simp [hwinners, hactive, hdups]
    | succ k ih =>
        intro hk
        obtain ⟨recs, h⟩ := ih (Nat.le_of_succ_le hk)
        have he : docs[k]? = some docs[k] := List.getElem?_eq_getElem hk
        rw [List.take_add_one, he, List.zipIdx_append, List.foldl_append, List.length_take_of_le
          (Nat.le_of_succ_le hk)]
        simpa using h.step he
  have h := hprefix docs.length le_rfl
  rwa [List.take_length] at h

omit [DecidableEq Id] in
/-- Of one identity there is one input left. -/
theorem Deduped.unique {s₀ s : State Id S K} {k : ℕ} {recs : List (ℕ × Outcome Id)}
    (h : Deduped env docs s₀ s k recs) {j i : ℕ} (hj : j ∈ s.active) (hi : i ∈ s.active)
    (hsame : SameKey env docs j i) : j = i := by
  obtain ⟨a, b, ha, hb, hkey⟩ := hsame
  obtain ⟨a', ha', -, hw⟩ := h.active j hj
  obtain ⟨b', hb', -, hw'⟩ := h.active i hi
  cases ha.symm.trans ha'
  cases hb.symm.trans hb'
  rw [← hkey] at hw'
  exact congrArg Prod.snd (List.inj_on_of_nodup_map h.keys hw hw' rfl)

/-! ## Stage 1 and the windows -/

/-- The document ids of the inputs that are processed. -/
def processedIds (recs : List (ℕ × Outcome Id)) : List (ℕ × Id) :=
  recs.filterMap fun p =>
    match p.2 with
    | .processed id _ => some (p.1, id)
    | _ => none

def IsStored (store : List (Document Id S K)) (id : Id) : Prop := ∃ d ∈ store, d.id = id

/-- What is written of a document once: its identity and its content. -/
def Document.written (d : Document Id S K) : Id × String × K × Option String × Option S :=
  (d.id, d.content, d.checksum, d.externalId, d.sessionId)

omit [DecidableEq Id] [DecidableEq S] [DecidableEq K] in
theorem exists_written {store store' : List (Document Id S K)}
    (h : store'.map Document.written = store.map Document.written) {d : Document Id S K} (hd : d ∈ store) :
    ∃ d' ∈ store', d'.written = d.written :=
  List.mem_map.mp (h ▸ List.mem_map_of_mem hd)

omit [DecidableEq Id] [DecidableEq S] [DecidableEq K] in
theorem IsStored.of_written {store store' : List (Document Id S K)}
    (h : store'.map Document.written = store.map Document.written) {id : Id} (hid : IsStored store id) :
    IsStored store' id := by
  obtain ⟨d, hd, rfl⟩ := hid
  obtain ⟨d', hd', heq⟩ := exists_written h hd
  exact ⟨d', hd', congrArg Prod.fst heq⟩

/-- Steps that record the inputs of a list, and rewrite no document. -/
structure Traced (docs : List (Entry S)) (s s' : State Id S K) (recs : List (ℕ × Outcome Id)) : Prop where
  batch : s'.batch = recs.foldl (record docs) s.batch
  ids : s'.ids = s.ids ++ processedIds recs
  stored : s'.store.map Document.written = s.store.map Document.written
  frame : s'.winners = s.winners ∧ s'.dups = s.dups

omit [DecidableEq Id] [DecidableEq S] [DecidableEq K] in
theorem Traced.trans {s s' s'' : State Id S K} {recs recs' : List (ℕ × Outcome Id)}
    (h : Traced docs s s' recs) (h' : Traced docs s' s'' recs') : Traced docs s s'' (recs ++ recs') where
  batch := by rw [h'.batch, h.batch, List.foldl_append]
  ids := by rw [h'.ids, h.ids, List.append_assoc, processedIds, processedIds, processedIds, List.filterMap_append]
  stored := h'.stored.trans h.stored
  frame := ⟨h'.frame.1.trans h.frame.1, h'.frame.2.trans h.frame.2⟩

omit [DecidableEq Id] [DecidableEq S] [DecidableEq K] in
theorem Traced.refl (s : State Id S K) : Traced docs s s [] :=
  ⟨rfl, (List.append_nil _).symm, rfl, rfl, rfl⟩

omit [DecidableEq S] [DecidableEq K] in
theorem traced_complete (s : State Id S K) (p : ℕ × Id × ℕ) :
    Traced docs s (complete env docs s p) [(p.1, .processed p.2.1 p.2.2)] where
  batch := rfl
  ids := rfl
  stored := by
    show (markCompleted env s.store p.2.1 p.2.2).map Document.written = _
    rw [markCompleted, List.map_map]
    apply List.map_congr_left
    intro d _
    simp only [Function.comp_apply]
    split <;> rfl
  frame := ⟨rfl, rfl⟩

omit [DecidableEq S] [DecidableEq K] in
theorem traced_foldl_complete (oks : List (ℕ × Id × ℕ)) (s : State Id S K) :
    Traced docs s (oks.foldl (complete env docs) s) (oks.map fun p => (p.1, .processed p.2.1 p.2.2)) := by
  induction oks generalizing s with
  | nil => exact Traced.refl s
  | cons p oks ih => exact (traced_complete s p).trans (ih _)

/-- The inputs that stage 1 records itself. -/
def endsInStage1 (states : ℕ → DocState Id) (idx : ℕ) : Bool :=
  match states idx with
  | .created _ (_ + 1) => false
  | _ => true

/-- What stage 1 records of an input. -/
def stage1Outcome (states : ℕ → DocState Id) (idx : ℕ) : Outcome Id :=
  match states idx with
  | .failed document error => .failed document error
  | .created document n => .processed document n

omit [DecidableEq S] [DecidableEq K] in
theorem traced_foldl_failedStep (states : ℕ → DocState Id) (active : List ℕ) (s : State Id S K) :
    Traced docs s (active.foldl (failedStep env docs states) s)
      ((active.filter (endsInStage1 states)).map fun idx => (idx, stage1Outcome states idx)) := by
  induction active generalizing s with
  | nil => exact Traced.refl s
  | cons idx active ih =>
      rw [List.foldl_cons, List.filter_cons]
      cases hstate : states idx with
      | failed document error =>
          have hstep : Traced docs s (failedStep env docs states s idx) [(idx, .failed document error)] := by
            simp only [failedStep, hstate]
            exact ⟨rfl, (List.append_nil _).symm, rfl, rfl, rfl⟩
          simpa [endsInStage1, stage1Outcome, hstate] using hstep.trans (ih _)
      | created document n =>
          cases n with
          | zero =>
              have hstep : Traced docs s (failedStep env docs states s idx) [(idx, .processed document 0)] := by
                simp only [failedStep, hstate]
                exact traced_complete s (idx, document, 0)
              simpa [endsInStage1, stage1Outcome, hstate] using hstep.trans (ih _)
          | succ n =>
              have hstep : failedStep env docs states s idx = s := by simp only [failedStep, hstate]
              rw [hstep]
              simpa [endsInStage1, hstate] using ih s

omit [DecidableEq Id] [DecidableEq S] [DecidableEq K] in
theorem mem_of_createDocument {store store' : List (Document Id S K)} {d : Document Id S K}
    (h : createDocument store d = some store') : store' = store ++ [d] := by
  unfold createDocument at h
  split at h
  · cases h
  · exact (Option.some.inj h).symm

omit [DecidableEq Id] [DecidableEq S] [DecidableEq K] in
/-- **Stage 1** adds documents: those of the tasks that succeeded are among them. -/
theorem createStep_stored {store₀ : List (Document Id S K)}
    {s : List (Document Id S K) × (ℕ → DocState Id)}
    (h : (∀ d ∈ store₀, d ∈ s.1) ∧ ∀ i id n, s.2 i = .created id n → IsStored s.1 id) (idx : ℕ) :
    (∀ d ∈ store₀, d ∈ (createStep env docs s idx).1) ∧
      ∀ i id n, (createStep env docs s idx).2 i = .created id n → IsStored (createStep env docs s idx).1 id := by
  -- a task that adds its document, and one that does not
  have hadd : ∀ (d : Document Id S K) (o : DocState Id), (∀ id n, o = .created id n → d.id = id) →
      (∀ x ∈ store₀, x ∈ s.1 ++ [d]) ∧
        ∀ i id n, Function.update s.2 idx o i = .created id n → IsStored (s.1 ++ [d]) id := by
    intro d o ho
    refine ⟨fun x hx => List.mem_append_left _ (h.1 x hx), fun i id n hi => ?_⟩
    by_cases heq : i = idx
    · rw [heq, Function.update_self] at hi
      exact ⟨d, List.mem_append_right _ List.mem_cons_self, ho id n hi⟩
    · rw [Function.update_of_ne heq] at hi
      obtain ⟨x, hx, hid⟩ := h.2 i id n hi
      exact ⟨x, List.mem_append_left _ hx, hid⟩
  have hkeep : ∀ document error, (∀ x ∈ store₀, x ∈ s.1) ∧
      ∀ i id n, Function.update s.2 idx (.failed document error) i = .created id n → IsStored s.1 id := by
    intro document error
    refine ⟨h.1, fun i id n hi => ?_⟩
    by_cases heq : i = idx
    · rw [heq, Function.update_self] at hi
      cases hi
    · rw [Function.update_of_ne heq] at hi
      exact h.2 i id n hi
  unfold createStep
  split
  · exact hkeep _ _
  · exact h
  · split
    · rename_i hcreate
      rw [mem_of_createDocument hcreate]
      exact hadd _ _ nofun
    · exact hkeep _ _
  · split
    · rename_i hcreate
      rw [mem_of_createDocument hcreate]
      refine hadd _ _ ?_
      rintro id n ⟨⟩
      rfl
    · exact hkeep _ _

omit [DecidableEq Id] [DecidableEq S] [DecidableEq K] in
theorem createAll_stored (s : State Id S K) :
    (∀ d ∈ s.store, d ∈ (createAll env docs s).1) ∧
      ∀ i id n, (createAll env docs s).2 i = .created id n → IsStored (createAll env docs s).1 id := by
  unfold createAll
  generalize env.insertOrder s.active = order
  induction order using List.reverseRecOn with
  | nil => exact ⟨fun d hd => hd, nofun⟩
  | append_singleton order idx ih =>
      rw [List.foldl_append]
      exact createStep_stored ih idx

omit [DecidableEq Id] in
/-- The documents with chunks are those that stage 1 does not record. -/
theorem map_okStates (states : ℕ → DocState Id) (active : List ℕ) :
    (okStates states active).map (fun p => (p.1, Outcome.processed p.2.1 p.2.2)) =
      (active.filter fun idx => !endsInStage1 states idx).map fun idx => (idx, stage1Outcome states idx) := by
  induction active with
  | nil => rfl
  | cons idx active ih =>
      unfold okStates at ih ⊢
      rw [List.filterMap_cons, List.filter_cons]
      cases hstate : states idx with
      | failed document error => simpa [endsInStage1, hstate] using ih
      | created document n =>
          cases n with
          | zero => simpa [endsInStage1, hstate] using ih
          | succ n => simpa [endsInStage1, stage1Outcome, hstate] using ih

omit [DecidableEq S] [DecidableEq K] in
/-- **Stage 1 and the windows** record the inputs that are left, each one once. -/
theorem processActive_trace (s : State Id S K) :
    ∃ recs, Traced docs { s with store := (createAll env docs s).1 } (processActive env docs s) recs ∧
      recs.Perm (s.active.map fun idx => (idx, stage1Outcome (createAll env docs s).2 idx)) := by
  have hfailed := @traced_foldl_failedStep _ _ _ _ env docs (createAll env docs s).2 s.active
    { s with store := (createAll env docs s).1 }
  have hoks := map_okStates (createAll env docs s).2 s.active
  unfold processActive
  simp only
  split
  · rename_i hnil
    refine ⟨_, hfailed, ?_⟩
    rw [hnil] at hoks
    have hall : s.active.filter (endsInStage1 (createAll env docs s).2) = s.active := by
      rw [List.filter_eq_self]
      intro idx hidx
      by_contra hnot
      have hmem : idx ∈ s.active.filter fun idx => !endsInStage1 (createAll env docs s).2 idx :=
        List.mem_filter.mpr ⟨hidx, by rw [Bool.eq_false_iff.mpr hnot]; rfl⟩
      rw [List.map_eq_nil_iff.mp hoks.symm] at hmem
      cases hmem
    rw [hall]
  · rw [← List.foldl_flatten, flatten_buildWindows]
    refine ⟨_, hfailed.trans (traced_foldl_complete _ _), ?_⟩
    rw [hoks, ← List.map_append]
    exact (List.filter_append_perm _ _).map _

/-! ## The whole batch -/

omit [DecidableEq Id] [DecidableEq S] [DecidableEq K] in
theorem lookup_of_mem {X Y : Type} [BEq X] [LawfulBEq X] {l : List (X × Y)} (hn : (l.map Prod.fst).Nodup) {x : X}
    {y : Y} (h : (x, y) ∈ l) : l.lookup x = some y := by
  obtain ⟨l₁, l₂, rfl⟩ := List.append_of_mem h
  rw [List.map_append, List.map_cons, List.nodup_append] at hn
  refine List.lookup_eq_some_iff.mpr ⟨l₁, l₂, rfl, ?_⟩
  intro p hp
  rw [bne_iff_ne]
  exact (hn.2.2 p.1 (List.mem_map_of_mem hp) x List.mem_cons_self).symm

omit [DecidableEq Id] in
theorem lookup_processedIds {recs : List (ℕ × Outcome Id)} (hn : (recs.map Prod.fst).Nodup) {j : ℕ} {id : Id}
    {n : ℕ} (h : (j, .processed id n) ∈ recs) : (processedIds recs).lookup j = some id := by
  apply lookup_of_mem
  · refine List.Nodup.sublist ?_ hn
    unfold processedIds
    clear hn h
    induction recs with
    | nil => exact List.Sublist.slnil
    | cons p recs ih =>
        rcases p with ⟨i, o⟩
        cases o with
        | processed id' n' => exact ih.cons_cons _
        | skipped id' => exact ih.cons _
        | failed id' error => exact ih.cons _
  · exact List.mem_filterMap.mpr ⟨_, h, rfl⟩

omit [DecidableEq Id] in
theorem mem_of_dbDup {store : List (Document Id S K)} {e : Entry S} {d : Document Id S K}
    (h : dbDup env store e = some d) : d ∈ store := by
  unfold dbDup at h
  split at h
  · exact List.mem_reverse.mp (List.mem_of_find?_eq_some (Option.filter_eq_some_iff.mp h).1)
  · cases h

/-- The state after the pre-pass. -/
abbrev afterReplace (env : Env Id S K) (docs : List (Entry S)) (store : List (Document Id S K)) :
    State Id S K := replaceStored env docs (start docs store)

/-- The state after stage 0. -/
abbrev afterSkips (env : Env Id S K) (docs : List (Entry S)) (store : List (Document Id S K)) :
    State Id S K := skipDuplicates env docs (afterReplace env docs store)

/-- What the stages of a batch have recorded. -/
structure BatchTrace (env : Env Id S K) (docs : List (Entry S)) (store : List (Document Id S K))
    (s : State Id S K) (recs₀ recs₁ recs₂ : List (ℕ × Outcome Id)) : Prop where
  batch : s.batch = (recs₀ ++ recs₁ ++ recs₂).foldl (record docs) (start docs store).batch
  perm : ((recs₀ ++ recs₁ ++ recs₂).map Prod.fst).Perm (List.range docs.length)
  handled : (afterReplace env docs store).handled = recs₀.map Prod.fst
  replacedIdx : recs₀.map Prod.fst =
    ((extIdToIdx docs).items.filter fun p => (getDocumentByExternalId store p.1).isSome).map Prod.snd
  replaced : ∀ p ∈ recs₀, IsReplacement env store p
  deduped : Deduped env docs (afterReplace env docs store) (afterSkips env docs store) docs.length recs₁
  created : recs₂.Perm ((afterSkips env docs store).active.map fun idx =>
    (idx, stage1Outcome (createAll env docs (afterSkips env docs store)).2 idx))
  stored : s.store.map Document.written =
    (createAll env docs (afterSkips env docs store)).1.map Document.written
  frame : s.winners = (afterSkips env docs store).winners ∧ s.dups = (afterSkips env docs store).dups ∧
    s.ids = processedIds recs₂

theorem runStages_trace (env : Env Id S K) (docs : List (Entry S)) (store : List (Document Id S K)) :
    ∃ recs₀ recs₁ recs₂, BatchTrace env docs store (runStages env docs store) recs₀ recs₁ recs₂ := by
  have hlt : ∀ p ∈ (extIdToIdx docs).items, p.2 < docs.length := fun p hp => (mem_extIdToIdx hp).1
  obtain ⟨recs₀, hbatch₀, hhandled, hidx, hreplaced, hwinners, hactive, hdups, hids⟩ :=
    @foldl_replaceStep Id S K _ env docs store (extIdToIdx docs).items (start docs store) hlt
  obtain ⟨recs₁, h⟩ := @skipDuplicates_spec Id S K _ _ env docs (afterReplace env docs store) hwinners
    hactive hdups
  have hnodup₀ : (recs₀.map Prod.fst).Nodup := by
    rw [hidx]
    exact List.Nodup.sublist (List.filter_sublist.map _) nodup_extIdToIdx
  have hhandled₀ : (afterReplace env docs store).handled = recs₀.map Prod.fst := hhandled
  -- the replaced, the skipped and the active inputs are all inputs
  have hperm : (recs₀.map Prod.fst ++ (recs₁.map Prod.fst ++ (afterSkips env docs store).active)).Perm
      (List.range docs.length) := by
    refine (List.perm_ext_iff_of_nodup ?_ List.nodup_range).mpr ?_
    · refine List.nodup_append.mpr ⟨hnodup₀, h.nodup, ?_⟩
      intro i hi i' hi' heq
      exact (h.bounds i' hi').2 (by rw [hhandled₀, ← heq]; exact hi)
    · intro i
      rw [List.mem_range]
      constructor
      · intro hi
        rcases List.mem_append.mp hi with hi | hi
        · rw [hidx] at hi
          obtain ⟨p, hp, rfl⟩ := List.mem_map.mp hi
          exact hlt p (List.mem_of_mem_filter hp)
        · exact (h.bounds i hi).1
      · intro hi
        rw [List.mem_append, List.mem_append, ← hhandled₀]
        exact h.cover i hi
  have hbatch₁ : (afterSkips env docs store).batch =
      (recs₀ ++ recs₁).foldl (record docs) (start docs store).batch := by
    rw [List.foldl_append, h.batch]
    exact congrArg (recs₁.foldl (record docs)) hbatch₀
  have hids₁ : (afterSkips env docs store).ids = [] := h.frame.2.2.trans hids
  by_cases hnil : (afterSkips env docs store).active = []
  · have hrun : runStages env docs store = afterSkips env docs store := if_pos hnil
    rw [hrun]
    refine ⟨recs₀, recs₁, [], ?_, ?_, hhandled₀, hidx, hreplaced, h, ?_, ?_, rfl, rfl, hids₁⟩
    · rw [List.append_nil]
      exact hbatch₁
    · rw [List.append_nil, List.map_append]
      rwa [hnil, List.append_nil] at hperm
    · rw [hnil]
      exact List.Perm.refl _
    · have hnone : env.insertOrder [] = [] := List.perm_nil.mp (env.insertOrder_perm [])
      rw [createAll, hnil, hnone]
      rfl
  · have hrun : runStages env docs store = processActive env docs (afterSkips env docs store) := if_neg hnil
    rw [hrun]
    obtain ⟨recs₂, htraced, hperm₂⟩ := @processActive_trace Id S K _ env docs (afterSkips env docs store)
    have hidx₂ : (recs₂.map Prod.fst).Perm (afterSkips env docs store).active := by
      have hmap := hperm₂.map Prod.fst
      rwa [List.map_map, show Prod.fst ∘ (fun idx => (idx, stage1Outcome
        (createAll env docs (afterSkips env docs store)).2 idx)) = id from rfl, List.map_id] at hmap
    refine ⟨recs₀, recs₁, recs₂, ?_, ?_, hhandled₀, hidx, hreplaced, h, hperm₂, htraced.stored,
      htraced.frame.1, htraced.frame.2, ?_⟩
    · rw [htraced.batch, List.foldl_append, ← hbatch₁]
    · rw [List.map_append, List.map_append, List.append_assoc]
      exact ((hidx₂.append_left _).append_left _).trans hperm
    · rw [htraced.ids]
      show (afterSkips env docs store).ids ++ _ = _
      rw [hids₁]
      rfl

section Trace

variable {store : List (Document Id S K)} {s : State Id S K} {recs₀ recs₁ recs₂ : List (ℕ × Outcome Id)}

theorem BatchTrace.nodup (h : BatchTrace env docs store s recs₀ recs₁ recs₂) :
    ((recs₀ ++ recs₁ ++ recs₂).map Prod.fst).Nodup := h.perm.nodup_iff.mpr List.nodup_range

theorem BatchTrace.lt (h : BatchTrace env docs store s recs₀ recs₁ recs₂) :
    ∀ p ∈ recs₀ ++ recs₁ ++ recs₂, p.1 < docs.length := fun _ hp =>
  List.mem_range.mp (h.perm.mem_iff.mp (List.mem_map_of_mem hp))

/-- Only stage 0 skips. -/
theorem BatchTrace.skipped (h : BatchTrace env docs store s recs₀ recs₁ recs₂) {i : ℕ} {id : Option Id}
    (hmem : (i, .skipped id) ∈ recs₀ ++ recs₁ ++ recs₂) : (i, .skipped id) ∈ recs₁ := by
  rcases List.mem_append.mp hmem with hmem | hmem
  · refine (List.mem_append.mp hmem).resolve_left fun hmem => ?_
    obtain ⟨x, existing, -, hout⟩ := h.replaced _ hmem
    unfold replaceOutcome at hout
    split at hout <;> cases hout
  · obtain ⟨idx, -, heq⟩ := List.mem_map.mp (h.created.mem_iff.mp hmem)
    have hout := congrArg Prod.snd heq
    unfold stage1Outcome at hout
    simp only at hout
    split at hout <;> cases hout

/-- No stage loses a document. -/
theorem BatchTrace.isStored (h : BatchTrace env docs store s recs₀ recs₁ recs₂) {id : Id}
    (hid : IsStored (afterReplace env docs store).store id) : IsStored s.store id := by
  obtain ⟨d, hd, heq⟩ := hid
  have hcreated := (@createAll_stored Id S K env docs (afterSkips env docs store)).1 d
    (h.deduped.frame.1 ▸ hd)
  exact IsStored.of_written h.stored ⟨d, hcreated, heq⟩

/-- **A repeated input** leads to an earlier one of its identity, which failed or is stored. -/
theorem BatchTrace.repeated (h : BatchTrace env docs store s recs₀ recs₁ recs₂) {i : ℕ}
    (hmem : (i, .skipped none) ∈ recs₁) : ∃ key j, (i, key) ∈ s.dups ∧ s.winners.lookup key = some j ∧
      j < i ∧ SameKey env docs j i ∧ ((∃ document error, (j, .failed document error) ∈ recs₂) ∨
        ∃ id n, (j, .processed id n) ∈ recs₂ ∧ s.ids.lookup j = some id ∧ IsStored s.store id) := by
  rcases h.deduped.only _ hmem with ⟨e, d, -, -, hout⟩ | ⟨e, key, j, -, -, -, hj, hji, hsame, hd, hw⟩
  · cases hout
  · refine ⟨key, j, by rw [h.frame.2.1]; exact hd,
      by rw [h.frame.1]; exact lookup_of_mem h.deduped.keys hw, hji, hsame, ?_⟩
    have hrec : (j, stage1Outcome (createAll env docs (afterSkips env docs store)).2 j) ∈ recs₂ :=
      h.created.mem_iff.mpr (List.mem_map_of_mem hj)
    cases hstate : (createAll env docs (afterSkips env docs store)).2 j with
    | failed document error =>
        rw [show stage1Outcome (createAll env docs (afterSkips env docs store)).2 j = .failed document error by
          simp only [stage1Outcome, hstate]] at hrec
        exact Or.inl ⟨document, error, hrec⟩
    | created id n =>
        rw [show stage1Outcome (createAll env docs (afterSkips env docs store)).2 j = .processed id n by
          simp only [stage1Outcome, hstate]] at hrec
        have hn := h.nodup
        rw [List.map_append] at hn
        refine Or.inr ⟨id, n, hrec, ?_, ?_⟩
        · rw [h.frame.2.2]
          exact lookup_processedIds (List.nodup_append.mp hn).2.1 hrec
        · exact IsStored.of_written h.stored ((@createAll_stored Id S K env docs _).2 j id n hstate)

end Trace

/-! ## The entries of the inputs -/

omit [DecidableEq Id] in
theorem getElem?_resolveDup {s : State Id S K} {perDocument : List (Option (DocRecord Id))}
    {q : ℕ × IdentityKey S K} {j : ℕ} (hj : s.winners.lookup q.2 = some j) (i : ℕ) :
    (resolveDup s perDocument q)[i]? = if i = q.1 then
      (perDocument[i]?).map (Option.map fun r => { r with documentId := s.ids.lookup j })
      else perDocument[i]? := by
  simp only [resolveDup, hj, List.getElem?_modify]
  by_cases h : q.1 = i
  · rw [if_pos h.symm]
    cases perDocument[i]? <;> simp [h]
  · rw [if_neg fun heq => h heq.symm]
    cases perDocument[i]? <;> simp [h]

omit [DecidableEq Id] in
/-- **A resolved duplicate** has the id of its winner; nothing else changes. -/
theorem getElem?_foldl_resolveDup {s : State Id S K} {dups : List (ℕ × IdentityKey S K)}
    (hwinners : ∀ q ∈ dups, ∃ j, s.winners.lookup q.2 = some j) (hn : (dups.map Prod.fst).Nodup)
    {perDocument : List (Option (DocRecord Id))} (i : ℕ) :
    (i ∉ dups.map Prod.fst ∧ (dups.foldl (resolveDup s) perDocument)[i]? = perDocument[i]?) ∨
      ∃ key j, (i, key) ∈ dups ∧ s.winners.lookup key = some j ∧
        (dups.foldl (resolveDup s) perDocument)[i]? =
          (perDocument[i]?).map (Option.map fun r => { r with documentId := s.ids.lookup j }) := by
  induction dups generalizing perDocument with
  | nil => exact Or.inl ⟨List.not_mem_nil, rfl⟩
  | cons q dups ih =>
      rw [List.forall_mem_cons] at hwinners
      rw [List.map_cons, List.nodup_cons] at hn
      obtain ⟨j, hj⟩ := hwinners.1
      have hstep := @getElem?_resolveDup Id S K _ _ s perDocument q j hj i
      rw [List.foldl_cons]
      rcases @ih hwinners.2 hn.2 (resolveDup s perDocument q) with ⟨hnot, hget⟩ | ⟨key, j', hmem, hj', hget⟩
      · rw [hget, hstep]
        by_cases hi : i = q.1
        · refine Or.inr ⟨q.2, j, ?_, hj, if_pos hi⟩
          rw [hi]
          exact List.mem_cons_self
        · refine Or.inl ⟨?_, if_neg hi⟩
          rw [List.map_cons, List.mem_cons, not_or]
          exact ⟨hi, hnot⟩
      · have hi : i ≠ q.1 := by
          intro heq
          exact hn.1 (heq ▸ List.mem_map_of_mem hmem)
        rw [if_neg hi] at hstep
        rw [hstep] at hget
        exact Or.inr ⟨key, j', List.mem_cons_of_mem _ hmem, hj', hget⟩

/-- The entry that a batch reports of an input. -/
def EntryOf (docs : List (Entry S)) (s : State Id S K) (i : ℕ) (o : Outcome Id) : Prop :=
  ∃ id, (finish docs s).perDocument[i]? = some { entryOf docs i o with documentId := id } ∧
    (i ∉ s.dups.map Prod.fst → id = (entryOf docs i o).documentId) ∧
    ∀ key j, (i, key) ∈ s.dups → s.winners.lookup key = some j → id = s.ids.lookup j

section Entries

variable {store : List (Document Id S K)} {s : State Id S K} {recs₀ recs₁ recs₂ : List (ℕ × Outcome Id)}

theorem BatchTrace.filled (h : BatchTrace env docs store s recs₀ recs₁ recs₂) {i : ℕ} (hi : i < docs.length) :
    ∃ o, (i, o) ∈ recs₀ ++ recs₁ ++ recs₂ := by
  obtain ⟨⟨j, o⟩, hp, rfl⟩ := List.mem_map.mp (h.perm.mem_iff.mpr (List.mem_range.mpr hi))
  exact ⟨o, hp⟩

theorem BatchTrace.tally (h : BatchTrace env docs store s recs₀ recs₁ recs₂) :
    Tally docs (recs₀ ++ recs₁ ++ recs₂) s.batch := by
  rw [h.batch]
  exact tally_foldl h.lt h.nodup

theorem BatchTrace.resolve (h : BatchTrace env docs store s recs₀ recs₁ recs₂) (i : ℕ) :
    (i ∉ s.dups.map Prod.fst ∧
      (s.dups.foldl (resolveDup s) s.batch.perDocument)[i]? = s.batch.perDocument[i]?) ∨
      ∃ key j, (i, key) ∈ s.dups ∧ s.winners.lookup key = some j ∧
        (s.dups.foldl (resolveDup s) s.batch.perDocument)[i]? =
          (s.batch.perDocument[i]?).map (Option.map fun r => { r with documentId := s.ids.lookup j }) := by
  have hn : (s.dups.map Prod.fst).Nodup := h.frame.2.1 ▸ h.deduped.dups_nodup
  refine getElem?_foldl_resolveDup ?_ hn i
  intro q hq
  obtain ⟨key, j, hkey, hj, -⟩ := h.repeated (h.deduped.dups q (h.frame.2.1 ▸ hq))
  have heq := List.inj_on_of_nodup_map hn hkey hq rfl
  exact ⟨j, by rw [← heq]; exact hj⟩

omit [DecidableEq Id] in
theorem getElem?_finish (i : ℕ) : (finish docs s).perDocument[i]? =
    ((s.dups.foldl (resolveDup s) s.batch.perDocument)[i]?).map fun o : Option (DocRecord Id) =>
      o.getD ⟨none, sourceOf docs i, 0, false, none⟩ := by
  show ((s.dups.foldl (resolveDup s) s.batch.perDocument).zipIdx.map _)[i]? = _
  rw [List.getElem?_map, List.getElem?_zipIdx, Option.map_map, Nat.zero_add]
  rfl

/-- **An entry** is what was recorded, up to the id of a resolved duplicate. -/
theorem BatchTrace.entry (h : BatchTrace env docs store s recs₀ recs₁ recs₂) {i : ℕ} {o : Outcome Id}
    (ho : (i, o) ∈ recs₀ ++ recs₁ ++ recs₂) : EntryOf docs s i o := by
  have hn : (s.dups.map Prod.fst).Nodup := h.frame.2.1 ▸ h.deduped.dups_nodup
  have hrecorded := h.tally.entries (i, o) ho
  rcases h.resolve i with ⟨hnot, heq⟩ | ⟨key, j, hmem, hj, heq⟩
  · refine ⟨(entryOf docs i o).documentId, ?_, fun _ => rfl, ?_⟩
    · rw [getElem?_finish, heq, hrecorded]
      rfl
    · intro key j hkey
      exact absurd (List.mem_map_of_mem hkey) hnot
  · refine ⟨s.ids.lookup j, ?_, fun hnot => absurd (List.mem_map_of_mem hmem) hnot, ?_⟩
    · rw [getElem?_finish, heq, hrecorded]
      rfl
    · intro key' j' hkey' hj'
      cases List.inj_on_of_nodup_map hn hkey' hmem rfl
      rw [hj] at hj'
      cases hj'
      rfl

theorem BatchTrace.past (h : BatchTrace env docs store s recs₀ recs₁ recs₂) {i : ℕ} (hi : docs.length ≤ i) :
    (finish docs s).perDocument[i]? = none ∧ s.batch.perDocument[i]? = none := by
  have hnone : s.batch.perDocument[i]? = none := List.getElem?_eq_none (h.tally.slots ▸ hi)
  refine ⟨?_, hnone⟩
  rcases h.resolve i with ⟨-, heq⟩ | ⟨key, j, -, -, heq⟩
  · rw [getElem?_finish, heq, hnone]
    rfl
  · rw [getElem?_finish, heq, hnone]
    rfl

/-- What is counted over the entries was counted over the records. -/
theorem BatchTrace.count (h : BatchTrace env docs store s recs₀ recs₁ recs₂) {f : DocRecord Id → ℕ}
    (hf : ∀ r id, f { r with documentId := id } = f r) :
    ((finish docs s).perDocument.map f).sum = countOf f s.batch.perDocument := by
  unfold countOf
  congr 1
  apply List.ext_getElem?
  intro i
  rw [List.getElem?_map, List.getElem?_map]
  by_cases hi : i < docs.length
  · obtain ⟨o, ho⟩ := h.filled hi
    obtain ⟨id, hfinal, -⟩ := h.entry ho
    rw [hfinal, h.tally.entries (i, o) ho]
    exact congrArg some (hf _ id)
  · have hnone := h.past (Nat.le_of_not_lt hi)
    rw [hnone.1, hnone.2]
    rfl

end Entries

theorem sum_map_ite {X : Type} (p : X → Bool) (l : List X) :
    (l.map fun x => if p x then 1 else 0).sum = l.countP p := by
  induction l with
  | nil => rfl
  | cons x l ih =>
      rw [List.map_cons, List.sum_cons, ih, List.countP_cons, Nat.add_comm]

/-- The accounts of a batch are in order. -/
structure Accounted (env : Env Id S K) (docs : List (Entry S)) (r : BatchResult Id S K) : Prop where
  total : r.total = docs.length ∧ r.processed + r.skipped + r.failed = r.total
  slots : r.perDocument.length = docs.length
  order : ∀ i entry, r.perDocument[i]? = some entry → entry.source = sourceOf docs i ∧
    ∀ ext error, entry.error = some (ext, error) → ext = (docs[i]?).bind Entry.externalId
  skipped : r.perDocument.countP DocRecord.skipped = r.skipped
  failed : r.perDocument.countP (fun entry => entry.error.isSome) = r.failed
  chunks : (r.perDocument.map DocRecord.chunks).sum = r.chunks
  progress : r.progress = (List.range docs.length).map fun i => (i + 1, docs.length)
  duplicates : ∀ i entry, r.perDocument[i]? = some entry → entry.skipped = true →
    (∃ id, entry.documentId = some id ∧ IsStored r.store id) ∨
      ∃ j entry', j < i ∧ SameKey env docs j i ∧ r.perDocument[j]? = some entry' ∧ entry'.error.isSome = true

/-- **The accounting of a batch is exact**, whatever fails. -/
theorem batch_accounting (env : Env Id S K) (docs : List (Entry S)) (store : List (Document Id S K)) :
    Accounted env docs (rememberBatch env docs store) := by
  obtain ⟨recs₀, recs₁, recs₂, h⟩ := runStages_trace env docs store
  have hlength : (recs₀ ++ recs₁ ++ recs₂).length = docs.length := by
    rw [← List.length_map Prod.fst, h.perm.length_eq, List.length_range]
  have hlt : ∀ {i entry}, (rememberBatch env docs store).perDocument[i]? = some entry → i < docs.length := by
    intro i entry hi
    by_contra hge
    rw [rememberBatch, (h.past (Nat.le_of_not_lt hge)).1] at hi
    cases hi
  constructor
  · exact ⟨rfl, h.tally.total.trans hlength⟩
  · apply Nat.le_antisymm
    · by_contra hlong
      have := hlt (List.getElem?_eq_getElem (Nat.lt_of_not_le hlong))
      omega
    · by_contra hshort
      obtain ⟨o, ho⟩ := h.filled (Nat.lt_of_not_le hshort)
      obtain ⟨id, hfinal, -⟩ := h.entry ho
      have hnone := List.getElem?_eq_none (le_refl (rememberBatch env docs store).perDocument.length)
      cases hnone.symm.trans hfinal
  · intro i entry hi
    obtain ⟨o, ho⟩ := h.filled (hlt hi)
    obtain ⟨id, hfinal, -⟩ := h.entry ho
    cases hi.symm.trans hfinal
    cases o with
    | processed id n => exact ⟨rfl, nofun⟩
    | skipped id => exact ⟨rfl, nofun⟩
    | failed id error =>
        refine ⟨rfl, ?_⟩
        rintro ext error' ⟨⟩
        rfl
  · rw [← sum_map_ite]
    exact (h.count fun _ _ => rfl).trans h.tally.skipped.symm
  · rw [← sum_map_ite]
    exact (h.count fun _ _ => rfl).trans h.tally.failed.symm
  · exact (h.count fun _ _ => rfl).trans h.tally.chunks.symm
  · exact h.tally.progress.trans (by rw [hlength])
  · intro i entry hi hskipped
    obtain ⟨o, ho⟩ := h.filled (hlt hi)
    obtain ⟨id, hfinal, hown, hwinner⟩ := h.entry ho
    cases hi.symm.trans hfinal
    cases o with
    | processed id n => cases hskipped
    | failed id error => cases hskipped
    | skipped target =>
        have hrec := h.skipped ho
        cases target with
        | some target =>
            have hnot : i ∉ (runStages env docs store).dups.map Prod.fst := by
              intro hdup
              obtain ⟨q, hq, rfl⟩ := List.mem_map.mp hdup
              have hq' := h.deduped.dups q (h.frame.2.1 ▸ hq)
              cases List.inj_on_of_nodup_map h.nodup
                (List.mem_append_left _ (List.mem_append_right _ hq')) ho rfl
            rcases h.deduped.only _ hrec with ⟨e, d, -, hdup, hout⟩ | ⟨e, key, j, -, -, hout, -⟩
            · cases hout
              exact Or.inl ⟨d.id, hown hnot, h.isStored ⟨d, mem_of_dbDup hdup, rfl⟩⟩
            · cases hout
        | none =>
            obtain ⟨key, j, hdup, hj, hji, hsame, hfailed | ⟨id', n, -, hlookup, hstored⟩⟩ := h.repeated hrec
            · obtain ⟨document, error, hrec'⟩ := hfailed
              obtain ⟨idj, hfinalj, -⟩ := h.entry (List.mem_append_right _ hrec')
              exact Or.inr ⟨j, _, hji, hsame, hfinalj, rfl⟩
            · exact Or.inl ⟨id', (hwinner key j hdup hj).trans hlookup, hstored⟩

end RememberBatch

end Khora
