import Khora.Dream.ApplyPhase
import Mathlib.Data.List.Induction
import Mathlib.Data.List.Nodup
import Mathlib.Data.List.Count

/-!
# The undo file of a dream run

After every committed op `_apply_phase` writes the undo records of the attempt to
`{namespace}/{date}/{run_id}.undo.json`, as a whole.  The list starts empty in each
attempt, while the checkpoint that a resumed attempt starts from is in the database.

* `undo_covered_iff` — the file of each day has every op that an attempt of that day
  committed, after each attempt of the run, exactly if no attempt that commits an op comes
  after one of the same day that committed an op which it does not commit again; with a run
  store it never commits one again.
* `resumed_overwrites` — a resumed attempt that overwrites the record of an earlier one.
-/

namespace Khora

/-! ## One attempt -/

/-- The body of the op hands over to its handler and commits. -/
def commitsBody (events : List EventKind) : Bool :=
  events.contains .committed || events.contains .transacted

section Attempt

variable (stack : Stack) (budget : LlmBudget)

/-- The undo file of an attempt from op `seq` of the plan on, with `undo_records` and the
content of the file so far.  `write_undo_incremental` comes after the events of the op, so
that a process which stops after one more step than these has written.  An op is known by
its place in the plan. -/
def writeUndo (a : Attempt) (lastCommitted : ℤ) :
    ℕ → List OpKind → List ℕ → Option (List ℕ) → Option (List ℕ)
  | _, [], _, file => file
  | seq, op :: ops, records, file =>
      if a.cancelled seq then file
      else
        let events := opEvents stack budget a seq op
        if lastCommitted < seq ∧ commitsBody events = true then
          match a.crash seq with
          | some n => if events.length < n then some (records ++ [seq]) else file
          | none => writeUndo a lastCommitted (seq + 1) ops (records ++ [seq]) (some (records ++ [seq]))
        else
          match a.crash seq with
          | some _ => file
          | none => writeUndo a lastCommitted (seq + 1) ops records file

/-- The ops whose handler's writes became durable, in order. -/
def committedOps (events : List ApplyEvent) : List ℕ :=
  (events.filter fun e => e.commits e.seq).map ApplyEvent.seq

/-- The attempt comes to op `j` above the checkpoint and commits it: the op has a handler
that its stack and its budget let run, and the process does not stop before. -/
def Attempt.Commits (a : Attempt) (lastCommitted : ℤ) (ops : List OpKind) (j : ℕ) : Prop :=
  a.Reaches j ∧ lastCommitted < j ∧ ∃ op, ops[j]? = some op ∧
    commitsBody (opEvents stack budget a j op) = true ∧ ∀ n, a.crash j = some n → 2 ≤ n

/-- The process does not stop between a commit and the write of its record. -/
def Attempt.StopsAfterWrite (a : Attempt) (lastCommitted : ℤ) (ops : List OpKind) : Prop :=
  ∀ j, a.Commits stack budget lastCommitted ops j → ∀ op, ops[j]? = some op →
    ∀ n, a.crash j = some n → (opEvents stack budget a j op).length < n

end Attempt

/-! ## A run -/

/-- One attempt, with the UTC date of its start. -/
structure DatedAttempt extends Attempt where
  date : ℕ

/-- The database and the files of a run, and the ops that its attempts have committed. -/
structure RunState where
  events : List ApplyEvent
  files : ℕ → Option (List ℕ)
  history : List (ℕ × List ℕ)

def RunState.start : RunState := ⟨[], fun _ => none, []⟩

section Run

variable (stack : Stack) (budget : LlmBudget) (ops : List OpKind)

/-- One attempt of the run: the first, or one that resumes it with the same plan. -/
def runAttempt (s : RunState) (a : DatedAttempt) : RunState :=
  let last := readLastCommitted stack s.events
  let events := applyPhase stack budget a.toAttempt last 0 ops
  { events := s.events ++ events
    files := Function.update s.files a.date
      (writeUndo stack budget a.toAttempt last 0 ops [] (s.files a.date))
    history := s.history ++ [(a.date, committedOps events)] }

/-- A run from its start. -/
def runAttempts (as : List DatedAttempt) : RunState := as.foldl (runAttempt stack budget ops) .start

/-- An attempt that commits an op commits again what the attempts of its date have. -/
def NoOverwrite (s : RunState) (a : DatedAttempt) : Prop :=
  let last := readLastCommitted stack s.events
  (∃ j, a.Commits stack budget last ops j) →
    ∀ entry ∈ s.history, entry.1 = a.date → ∀ i ∈ entry.2, a.Commits stack budget last ops i

end Run

/-- `_locate_undo_op` on the files of the dates that it walks. -/
def locateUndoOp (files : ℕ → Option (List ℕ)) (dates : List ℕ) (op : ℕ) : Option ℕ :=
  dates.findSome? fun d => ((files d).getD []).find? fun entry => entry == op

/-- The file of each date has every op that an attempt of that date committed, and so the
walk finds it; no file has an op twice. -/
structure UndoCovered (s : RunState) : Prop where
  covered : ∀ entry ∈ s.history, ∀ i ∈ entry.2, ∃ file, s.files entry.1 = some file ∧ i ∈ file
  found : ∀ entry ∈ s.history, ∀ i ∈ entry.2, ∀ dates, entry.1 ∈ dates →
    locateUndoOp s.files dates i = some i
  once : ∀ d file, s.files d = some file → file.Nodup

/-! ## What an attempt leaves in the file -/

section Attempt

variable {stack : Stack} {budget : LlmBudget} {a : Attempt} {last : ℤ}

theorem committedOps_append (es es' : List ApplyEvent) :
    committedOps (es ++ es') = committedOps es ++ committedOps es' := by
  simp [committedOps]

theorem mem_committedOps {events : List ApplyEvent} {j : ℕ} :
    j ∈ committedOps events ↔ ∃ e ∈ events, e.commits j = true := by
  simp only [committedOps, List.mem_map, List.mem_filter]
  constructor
  · rintro ⟨e, ⟨he, hc⟩, rfl⟩
    exact ⟨e, he, hc⟩
  · rintro ⟨e, he, hc⟩
    have hseq : e.seq = j := by
      rw [ApplyEvent.commits, Bool.and_eq_true, beq_iff_eq] at hc
      exact hc.1
    exact ⟨e, ⟨he, hseq ▸ hc⟩, hseq⟩

/-- A body commits its op as its second event, if at all. -/
theorem committedOps_executed (seq : ℕ) (op : OpKind) :
    committedOps (executed stack budget a seq op) =
      if commitsBody (opEvents stack budget a seq op) = true ∧ ∀ n, a.crash seq = some n → 2 ≤ n
      then [seq] else [] := by
  have hbody : ∀ body ∈ [[.audited], [.throttled], [.declared], [.dispatched, .declared],
      [.dispatched, .transacted], [.dispatched, .committed, .checkpointed], [.dispatched, .committed]],
      opEvents stack budget a seq op = body →
      committedOps (executed stack budget a seq op) =
        if commitsBody (opEvents stack budget a seq op) = true ∧ ∀ n, a.crash seq = some n → 2 ≤ n
        then [seq] else [] := by
    intro body hmem h
    rw [executed, h]
    simp only [List.mem_cons, List.not_mem_nil, or_false] at hmem
    cases hc : a.crash seq with
    | none =>
        rcases hmem with rfl | rfl | rfl | rfl | rfl | rfl | rfl
        all_goals simp [committedOps, ApplyEvent.commits, commitsBody]
    | some n =>
        rcases hmem with rfl | rfl | rfl | rfl | rfl | rfl | rfl
        all_goals
          rcases n with _ | _ | _ | n
          all_goals simp [committedOps, ApplyEvent.commits, commitsBody]
  rcases opEvents_cases stack budget a seq op with ⟨-, -, h⟩ | ⟨-, h⟩ | ⟨-, -, h⟩
  · exact hbody _ (by simp) h
  · exact hbody _ (by simp) h
  · rcases h with ⟨h, -⟩ | ⟨h, -⟩ | ⟨h, -⟩ | ⟨h, -, -⟩ | ⟨h, -, -⟩
    all_goals exact hbody _ (by simp) h

/-- **The file of an attempt that does not stop before a write** has the ops that it
committed; an attempt that commits none leaves the file as it is. -/
theorem writeUndo_eq (ops : List OpKind) : ∀ (seq : ℕ) (records : List ℕ) (file : Option (List ℕ)),
    (∀ j ∈ committedOps (applyPhase stack budget a last seq ops), ∀ op, ops[j - seq]? = some op →
      ∀ n, a.crash j = some n → (opEvents stack budget a j op).length < n) →
    writeUndo stack budget a last seq ops records file =
      if committedOps (applyPhase stack budget a last seq ops) = [] then file
      else some (records ++ committedOps (applyPhase stack budget a last seq ops)) := by
  induction ops with
  | nil => exact fun seq records file _ => by simp [writeUndo, applyPhase, committedOps]
  | cons op ops ih =>
      intro seq records file hstop
      rw [writeUndo]
      rw [applyPhase] at hstop ⊢
      by_cases hcancel : a.cancelled seq = true
      · simp [hcancel, committedOps]
      simp only [hcancel, Bool.false_eq_true, if_false] at hstop ⊢
      have hrest : a.crash seq = none →
          ∀ j ∈ committedOps (applyPhase stack budget a last (seq + 1) ops), ∀ op',
            ops[j - (seq + 1)]? = some op' → ∀ n, a.crash j = some n →
              (opEvents stack budget a j op').length < n := by
        intro hnone j hj op' hop' n hn
        obtain ⟨e, he, hc⟩ := mem_committedOps.mp hj
        have hle := le_seq_of_mem ops (seq + 1) e he
        have hseq : e.seq = j := by
          rw [ApplyEvent.commits, Bool.and_eq_true, beq_iff_eq] at hc
          exact hc.1
        refine hstop j ?_ op' ?_ n hn
        · simp only [hnone, committedOps_append, List.mem_append]
          exact .inr hj
        · obtain ⟨m, hm⟩ : ∃ m, j - seq = m + 1 := ⟨j - seq - 1, by omega⟩
          rw [hm, List.getElem?_cons_succ, ← hop']
          congr 1
          omega
      by_cases hrun : last < seq ∧ commitsBody (opEvents stack budget a seq op) = true
      · have hnow : ¬ (seq : ℤ) ≤ last := by omega
        simp only [hrun, hnow, and_self, if_true, if_false] at hstop ⊢
        have hexec := @committedOps_executed stack budget a seq op
        cases hcrash : a.crash seq with
        | none =>
            rw [hcrash] at hexec
            simp only [hrun.2, true_and, reduceCtorEq, false_implies, implies_true, if_true] at hexec
            simp only [committedOps_append, hexec]
            rw [ih (seq + 1) _ _ (hrest hcrash)]
            split
            · rename_i hnil
              simp [hnil]
            · simp
        | some n =>
            simp only [hcrash] at hstop
            simp only
            rw [hexec] at hstop ⊢
            simp only [hrun.2, hcrash, Option.some.injEq, forall_eq', true_and] at hstop ⊢
            by_cases htwo : 2 ≤ n
            · have hlen := hstop seq (by simp [htwo]) op (by simp) n hcrash
              simp [hlen, htwo]
            · have hlen : ¬ (opEvents stack budget a seq op).length < n := by
                have := hrun.2
                rcases hb : opEvents stack budget a seq op with _ | ⟨k, _ | ⟨k', rest⟩⟩
                · simp [hb, commitsBody] at this
                · simp
                  omega
                · simp
                  omega
              simp [hlen, htwo]
      · have hquiet : committedOps (if (seq : ℤ) ≤ last then [] else executed stack budget a seq op) = [] := by
          split
          · rfl
          · rename_i hlast
            rw [committedOps_executed, if_neg]
            intro h
            exact hrun ⟨by omega, h.1⟩
        simp only [hrun, if_false]
        cases hcrash : a.crash seq with
        | none =>
            simp only [committedOps_append, hquiet, List.nil_append]
            exact ih (seq + 1) records file (hrest hcrash)
        | some n => simp [hquiet]

theorem mem_committedOps_applyPhase {ops : List OpKind} {j : ℕ} :
    j ∈ committedOps (applyPhase stack budget a last 0 ops) ↔ a.Commits stack budget last ops j := by
  have hexec : ∀ op, (∃ e ∈ executed stack budget a j op, e.commits j = true) ↔
      commitsBody (opEvents stack budget a j op) = true ∧ ∀ n, a.crash j = some n → 2 ≤ n := by
    intro op
    rw [← mem_committedOps, committedOps_executed]
    split
    · rename_i h
      exact iff_of_true (List.mem_singleton_self j) h
    · rename_i h
      exact iff_of_false List.not_mem_nil h
  rw [mem_committedOps, ← List.countP_pos_iff, exists_commit_iff]
  simp only [hexec]
  rfl

theorem Attempt.StopsAfterWrite.file {ops : List OpKind} (h : a.StopsAfterWrite stack budget last ops)
    (file : Option (List ℕ)) : writeUndo stack budget a last 0 ops [] file =
      if committedOps (applyPhase stack budget a last 0 ops) = [] then file
      else some (committedOps (applyPhase stack budget a last 0 ops)) := by
  rw [writeUndo_eq ops 0 [] file fun j hj op hop =>
    h j (mem_committedOps_applyPhase.mp hj) op (by simpa using hop), List.nil_append]

/-- An attempt commits an op once. -/
theorem nodup_committedOps (ops : List OpKind) :
    (committedOps (applyPhase stack budget a last 0 ops)).Nodup := by
  rw [List.nodup_iff_count_le_one]
  intro i
  have hcount : (committedOps (applyPhase stack budget a last 0 ops)).count i =
      (applyPhase stack budget a last 0 ops).countP (ApplyEvent.commits i) := by
    rw [committedOps, List.count_eq_countP, List.countP_map, List.countP_filter]
    apply List.countP_congr
    intro e _
    simp only [Function.comp_apply, ApplyEvent.commits, Bool.and_eq_true, beq_iff_eq]
    constructor
    · rintro ⟨rfl, h⟩
      exact ⟨rfl, h.2⟩
    · rintro ⟨rfl, h⟩
      exact ⟨rfl, trivial, h⟩
  rw [hcount]
  exact countP_commits_le i

end Attempt

/-! ## What a run leaves in the files -/

/-- The walk finds an op as soon as the file of some date has it. -/
theorem locateUndoOp_eq {files : ℕ → Option (List ℕ)} {dates : List ℕ} {d i : ℕ} {file : List ℕ}
    (hd : d ∈ dates) (hfile : files d = some file) (hi : i ∈ file) : locateUndoOp files dates i = some i := by
  have hentry : ∀ l : List ℕ, (l.find? fun entry => entry == i) = some i ∨
      (l.find? fun entry => entry == i) = none := by
    intro l
    cases hfind : l.find? fun entry => entry == i with
    | none => exact .inr rfl
    | some entry =>
        have := List.find?_some hfind
        rw [beq_iff_eq] at this
        exact .inl (by rw [this])
  cases hfound : locateUndoOp files dates i with
  | some entry =>
      obtain ⟨d', -, hd'⟩ := List.exists_of_findSome?_eq_some hfound
      rcases hentry ((files d').getD []) with h | h
      · rw [h] at hd'
        exact hd'.symm
      · rw [h] at hd'
        cases hd'
  | none =>
      have hnone := List.findSome?_eq_none_iff.mp hfound d hd
      rw [hfile, Option.getD_some, List.find?_eq_none] at hnone
      exact absurd (beq_self_eq_true i) (hnone i hi)

section Run

variable {stack : Stack} {budget : LlmBudget} {ops : List OpKind} {s : RunState} {a : DatedAttempt}

/-- **One attempt keeps the files covered exactly if it overwrites no other record.** -/
theorem undoCovered_runAttempt_iff (hs : UndoCovered s)
    (hstop : a.StopsAfterWrite stack budget (readLastCommitted stack s.events) ops) :
    UndoCovered (runAttempt stack budget ops s a) ↔ NoOverwrite stack budget ops s a := by
  have hfile : ∀ d, (runAttempt stack budget ops s a).files d = if d = a.date then
      if committedOps (applyPhase stack budget a.toAttempt (readLastCommitted stack s.events) 0 ops) = []
      then s.files d
      else some (committedOps
        (applyPhase stack budget a.toAttempt (readLastCommitted stack s.events) 0 ops))
      else s.files d := by
    intro d
    by_cases hd : d = a.date
    · subst hd
      simp [runAttempt, hstop.file]
    · simp [runAttempt, hd]
  have hhistory : (runAttempt stack budget ops s a).history = s.history ++ [(a.date,
      committedOps (applyPhase stack budget a.toAttempt (readLastCommitted stack s.events) 0 ops))] := rfl
  unfold NoOverwrite
  simp only [← mem_committedOps_applyPhase]
  have hnodup := @nodup_committedOps stack budget a.toAttempt (readLastCommitted stack s.events) ops
  generalize committedOps (applyPhase stack budget a.toAttempt (readLastCommitted stack s.events) 0 ops) =
    new at hfile hhistory hnodup ⊢
  constructor
  · rintro hcov ⟨j, hj⟩ entry hentry hdate i hi
    obtain ⟨file, hf, hmem⟩ := hcov.covered entry (by simp [hhistory, hentry]) i hi
    rw [hfile, if_pos hdate, if_neg (List.ne_nil_of_mem hj)] at hf
    cases hf
    exact hmem
  · intro hkeep
    have hcovered : ∀ entry ∈ (runAttempt stack budget ops s a).history, ∀ i ∈ entry.2,
        ∃ file, (runAttempt stack budget ops s a).files entry.1 = some file ∧ i ∈ file := by
      intro entry hentry i hi
      rw [hhistory, List.mem_append, List.mem_singleton] at hentry
      rcases hentry with hentry | rfl
      · obtain ⟨file, hf, hmem⟩ := hs.covered entry hentry i hi
        by_cases hdate : entry.1 = a.date ∧ new ≠ []
        · obtain ⟨j, hj⟩ := List.exists_mem_of_ne_nil new hdate.2
          refine ⟨new, by rw [hfile, if_pos hdate.1, if_neg hdate.2], ?_⟩
          exact hkeep ⟨j, hj⟩ entry hentry hdate.1 i hi
        · refine ⟨file, ?_, hmem⟩
          rw [hfile]
          split
          · rename_i hd
            rw [if_pos (by simpa [hd] using hdate), hf]
          · exact hf
      · exact ⟨new, by rw [hfile, if_pos rfl, if_neg (List.ne_nil_of_mem hi)], hi⟩
    refine ⟨hcovered, fun entry hentry i hi dates hd => ?_, fun d file hf => ?_⟩
    · obtain ⟨file, hf, hmem⟩ := hcovered entry hentry i hi
      exact locateUndoOp_eq hd hf hmem
    · rw [hfile] at hf
      split at hf
      · split at hf
        · exact hs.once d file hf
        · cases hf
          exact hnodup
      · exact hs.once d file hf

theorem undoCovered_start : UndoCovered .start where
  covered := by simp [RunState.start]
  found := by simp [RunState.start]
  once := by simp [RunState.start]

theorem runAttempts_concat (as : List DatedAttempt) (a : DatedAttempt) :
    runAttempts stack budget ops (as ++ [a]) =
      runAttempt stack budget ops (runAttempts stack budget ops as) a := by
  simp [runAttempts]

/-- With a run store the checkpoint is above every op that was committed. -/
theorem le_checkpoint (hstack : stack ≠ .embedded) {as : List DatedAttempt}
    (hstop : ∀ p a, p ++ [a] <+: as → a.StopsAfterWrite stack budget
      (readLastCommitted stack (runAttempts stack budget ops p).events) ops) :
    ∀ entry ∈ (runAttempts stack budget ops as).history, ∀ i ∈ entry.2,
      (i : ℤ) ≤ readLastCommitted stack (runAttempts stack budget ops as).events := by
  induction as using List.reverseRecOn with
  | nil => simp [runAttempts, RunState.start]
  | append_singleton as a ih =>
      rw [runAttempts_concat]
      have hpre : ∀ p b, p ++ [b] <+: as → p ++ [b] <+: as ++ [a] :=
        fun p b h => h.trans (List.prefix_append as [a])
      have ih := ih fun p b h => hstop p b (hpre p b h)
      have hstopa := hstop as a (List.prefix_refl _)
      generalize runAttempts stack budget ops as = s at ih hstopa ⊢
      -- the events of the attempt come in order, above the checkpoint it starts from
      have hspec := @readLastCommitted_spec stack
        (applyPhase stack budget a.toAttempt (readLastCommitted stack s.events) 0 ops)
        (readLastCommitted stack s.events) (applyPhase_sorted ops 0) fun e he =>
          Int.le_of_lt (mem_applyPhase.mp he).2.1
      have hfold : readLastCommitted stack (runAttempt stack budget ops s a).events =
          (applyPhase stack budget a.toAttempt (readLastCommitted stack s.events) 0 ops).foldl
            (fun last e => match e.checkpoint stack with
              | some seq => (seq : ℤ)
              | none => last) (readLastCommitted stack s.events) := by
        rw [readLastCommitted, runAttempt, List.foldl_append]
        rfl
      rw [hfold]
      intro entry hentry i hi
      rcases List.mem_append.mp hentry with hentry | hentry
      · exact Int.le_trans (ih entry hentry i hi) hspec.1
      · obtain rfl := List.mem_singleton.mp hentry
        obtain ⟨hreach, hlast, op, hop, hbody, hcrash⟩ := mem_committedOps_applyPhase.mp hi
        have hrefuses : a.toAttempt.refuses budget i op = false := by
          rcases opEvents_cases stack budget a.toAttempt i op with ⟨-, hr, -⟩ | ⟨-, h⟩ | ⟨-, hr, -⟩
          · exact hr
          · simp [h, commitsBody] at hbody
          · exact hr
        obtain ⟨e, he, seq, hseq⟩ := executed_checkpoint_iff.mpr ⟨hstack, hrefuses, fun n hn =>
          Nat.le_of_lt (hstopa i ⟨hreach, hlast, op, hop, hbody, hcrash⟩ op hop n hn)⟩
        obtain rfl := executed_seq he
        have := hspec.2.1 e (mem_applyPhase.mpr ⟨hreach, hlast, op, hop, he⟩) seq hseq
        rwa [checkpoint_eq_some hseq] at this

/-- **When the undo file covers the run.**  After every attempt of a run that never stops
between a commit and its record, the file of each date has the ops that were committed on
it, exactly if no attempt overwrites a record that it does not make again; with a run store
that is: if it commits an op, no attempt of its date has committed one. -/
theorem undo_covered_iff (stack : Stack) (budget : LlmBudget) (ops : List OpKind)
    (as : List DatedAttempt)
    (hstop : ∀ p a, p ++ [a] <+: as → a.StopsAfterWrite stack budget
      (readLastCommitted stack (runAttempts stack budget ops p).events) ops) :
    ((∀ p, p <+: as → UndoCovered (runAttempts stack budget ops p)) ↔
      ∀ p a, p ++ [a] <+: as → NoOverwrite stack budget ops (runAttempts stack budget ops p) a) ∧
    (stack ≠ .embedded → ∀ p a, p ++ [a] <+: as →
      (NoOverwrite stack budget ops (runAttempts stack budget ops p) a ↔
        ((∃ j, a.Commits stack budget
            (readLastCommitted stack (runAttempts stack budget ops p).events) ops j) →
          ∀ entry ∈ (runAttempts stack budget ops p).history, entry.1 = a.date → entry.2 = []))) := by
  refine ⟨⟨?_, ?_⟩, ?_⟩
  · intro hcov p a hp
    have hinit := hcov p ((List.prefix_append p [a]).trans hp)
    have hnext := hcov (p ++ [a]) hp
    rw [runAttempts_concat] at hnext
    exact (undoCovered_runAttempt_iff hinit (hstop p a hp)).mp hnext
  · intro hkeep p hp
    induction p using List.reverseRecOn with
    | nil => exact undoCovered_start
    | append_singleton p a ih =>
        rw [runAttempts_concat]
        exact (undoCovered_runAttempt_iff (ih ((List.prefix_append p [a]).trans hp))
          (hstop p a hp)).mpr (hkeep p a hp)
  · intro hstack p a hp
    have hle := @le_checkpoint stack budget ops hstack p fun q b hq =>
      hstop q b (hq.trans ((List.prefix_append p [a]).trans hp))
    refine imp_congr_right fun _ => forall₂_congr fun entry hentry => imp_congr_right fun _ => ?_
    rw [List.eq_nil_iff_forall_not_mem]
    refine forall₂_congr fun i hi => ?_
    constructor
    · intro hcom
      have := hcom.2.1
      have := hle entry hentry i hi
      omega
    · exact fun h => h.elim

end Run

/-! ## Runs -/

/-- The process stops at op 0, after its record is written. -/
def stopsAfterFirst : Attempt := { calmAttempt with crash := fun j => if j = 0 then some 3 else none }

/-- Two ops on Postgres. -/
def twoOps : List OpKind := [.vectorcypherDedupeEntities, .vectorcypherPruneEdges]

/-- Neither attempt stops between a commit and its record. -/
theorem stopsAfterWrite_twoOps (d d' : ℕ) :
    ∀ (p : List DatedAttempt) a, p ++ [a] <+: [⟨stopsAfterFirst, d⟩, ⟨calmAttempt, d'⟩] →
      a.StopsAfterWrite (.sql true) ⟨0, 0⟩
        (readLastCommitted (.sql true) (runAttempts (.sql true) ⟨0, 0⟩ twoOps p).events) twoOps := by
  intro p a hp j _ op hop n hn
  have ha : a = ⟨stopsAfterFirst, d⟩ ∨ a = ⟨calmAttempt, d'⟩ := by
    have hmem := hp.subset (List.mem_append_right p (List.mem_singleton_self a))
    simpa using hmem
  rcases ha with rfl | rfl
  · simp only [stopsAfterFirst] at hn
    split at hn
    · rename_i hj
      subst hj
      obtain rfl := Option.some.inj hn
      cases hop
      show (opEvents (.sql true) ⟨0, 0⟩ stopsAfterFirst 0 .vectorcypherDedupeEntities).length < 3
      decide
    · cases hn
  · cases hn

/-- A run that is resumed on the next day. -/
theorem undo_covered_iff_nextDay :
    UndoCovered (runAttempts (.sql true) ⟨0, 0⟩ twoOps [⟨stopsAfterFirst, 0⟩, ⟨calmAttempt, 1⟩]) := by
  refine (undo_covered_iff (.sql true) ⟨0, 0⟩ twoOps [⟨stopsAfterFirst, 0⟩, ⟨calmAttempt, 1⟩]
    (stopsAfterWrite_twoOps 0 1)).1.mpr ?_ _ (List.prefix_refl _)
  intro p a hp
  obtain ⟨rest, hrest⟩ := hp
  rcases p with _ | ⟨b, _ | ⟨b', p⟩⟩
  · rintro - entry hentry
    cases hentry
  · cases hrest
    rintro - entry hentry hdate
    obtain rfl := List.mem_singleton.mp hentry
    cases hdate
  · have := congrArg List.length hrest
    simp at this

/-- **A run that is resumed on the same day loses the record of its first op.** -/
theorem resumed_overwrites :
    (∀ (p : List DatedAttempt) a, p ++ [a] <+: [⟨stopsAfterFirst, 0⟩, ⟨calmAttempt, 0⟩] →
      a.StopsAfterWrite (.sql true) ⟨0, 0⟩
        (readLastCommitted (.sql true) (runAttempts (.sql true) ⟨0, 0⟩ twoOps p).events) twoOps) ∧
    (runAttempts (.sql true) ⟨0, 0⟩ twoOps [⟨stopsAfterFirst, 0⟩, ⟨calmAttempt, 0⟩]).history =
      [(0, [0]), (0, [1])] ∧
    (runAttempts (.sql true) ⟨0, 0⟩ twoOps [⟨stopsAfterFirst, 0⟩, ⟨calmAttempt, 0⟩]).files 0 = some [1] ∧
    ¬ UndoCovered (runAttempts (.sql true) ⟨0, 0⟩ twoOps [⟨stopsAfterFirst, 0⟩, ⟨calmAttempt, 0⟩]) := by
  refine ⟨stopsAfterWrite_twoOps 0 0, by decide, by decide, fun h => ?_⟩
  obtain ⟨file, hfile, hmem⟩ := h.covered (0, [0]) (by decide) 0 (by decide)
  have hone : (runAttempts (.sql true) ⟨0, 0⟩ twoOps [⟨stopsAfterFirst, 0⟩, ⟨calmAttempt, 0⟩]).files 0 =
      some [1] := by decide
  rw [hone] at hfile
  cases hfile
  revert hmem
  decide

end Khora
