import Mathlib.Data.List.Basic
import Mathlib.Data.List.Count
import Mathlib.Data.List.Pairwise
import Mathlib.Data.Int.Notation
import Mathlib.Order.Basic
import Mathlib.Tactic.Common

/-!
# The apply phase of a dream run

`_apply_phase` applies the ops of a plan in order.  Its progress is one integer, the
sequence number of the latest op that was committed or declared skipped; a resumed run
skips every op up to it.  An op that the LLM budget refuses does not advance it, so
that a later run can retry the op.

An attempt is described by what the loop meets: token counters, cancellations, handlers
that find the backend unsupported, and the point where the process stops.  What it does
is a list of events, and what survives a crash is the prefix that took place.

* `resume_exact` — over both attempts every handler commits at most once and every op
  left open is offered again, exactly if no op that the budget refused lies below a
  checkpoint of the first attempt and no commit of it is left without its checkpoint.
* `throttledOp_skipped` — an op refused by the budget, below a committed one.
-/

namespace Khora

/-! ## Operations -/

inductive OpKind where
  | dedupeEntities
  | pruneEdges
  | compactFacts
  | clusterEvents
  | recomputeCentroids
  | vectorcypherSchemaDriftReport
  | vectorcypherSourceChunkIdsAudit
  | vectorcypherSourceChunkIdsGc
  | chronicleAbstentionDriftReport
  | vectorcypherOrphanReport
  | chronicleTombstoneAudit
  | chronicleFactCompaction
  | vectorcypherCentroidRecompute
  | vectorcypherDedupeEntities
  | vectorcypherPruneEdges
  | chronicleEventClustering
  | vectorcypherCommunitySummary
  | vectorcypherContradictionDetect
  | vectorcypherContradictionReconcile
  | vectorcypherNormalizeSchema
deriving DecidableEq, Repr

namespace OpKind

/-- The keys of `_APPLY_HANDLER_NAMES`: the kinds `get_apply_handler` knows. -/
def hasHandler : OpKind → Bool
  | vectorcypherDedupeEntities | vectorcypherCentroidRecompute | vectorcypherSourceChunkIdsGc
  | vectorcypherPruneEdges | chronicleFactCompaction | chronicleEventClustering
  | vectorcypherCommunitySummary | vectorcypherContradictionDetect
  | vectorcypherContradictionReconcile | vectorcypherNormalizeSchema => true
  | _ => false

/-- `_LLM_OP_KINDS` -/
def usesLlm : OpKind → Bool
  | vectorcypherCommunitySummary | vectorcypherContradictionReconcile => true
  | _ => false

/-- `_POSTGRES_ONLY_OP_KINDS` -/
def postgresOnly : OpKind → Bool
  | vectorcypherCentroidRecompute | vectorcypherSourceChunkIdsGc
  | vectorcypherContradictionReconcile => true
  | _ => false

/-- `SURREALDB_NATIVE_APPLY_KINDS` -/
def surrealdbNative : OpKind → Bool
  | vectorcypherPruneEdges | vectorcypherDedupeEntities => true
  | _ => false

end OpKind

/-- The storage stack of a run. -/
inductive Stack where
  /-- A SQL backend: the handler and the checkpoint share one transaction. -/
  | sql (postgres : Bool)
  /-- SurrealDB-unified: the apply and the checkpoint are two writes. -/
  | surrealdb
  /-- No SQL and no SurrealDB: there is no run store. -/
  | embedded
deriving DecidableEq

/-- The LLM budgets of `DreamConfig`; 0 disables one. -/
structure LlmBudget where
  maxTokensPerRun : ℕ
  maxTokensPerNamespacePerDay : ℕ

/-- What the loop of one attempt meets at each op. -/
structure Attempt where
  /-- `_llm_tokens_this_run` -/
  tokensThisRun : ℕ → ℕ
  /-- The tokens in the namespace's rolling-day bucket. -/
  tokensToday : ℕ → ℕ
  /-- The cancel flag is set when the loop comes to the op. -/
  cancelled : ℕ → Bool
  /-- The handler raises `DreamBackendUnsupported`. -/
  unsupported : ℕ → Bool
  /-- The process stops at the op, after that many of its events. -/
  crash : ℕ → Option ℕ

/-- `_llm_budget_breach` -/
def llmBudgetBreach (budget : LlmBudget) (a : Attempt) (seq : ℕ) (op : OpKind) : Bool :=
  op.usesLlm &&
    ((budget.maxTokensPerRun != 0 && decide (budget.maxTokensPerRun ≤ a.tokensThisRun seq)) ||
      (budget.maxTokensPerNamespacePerDay != 0 &&
        decide (budget.maxTokensPerNamespacePerDay ≤ a.tokensToday seq)))

/-! ## The loop -/

inductive EventKind where
  /-- Refused by the LLM budget. -/
  | throttled
  /-- Handed to its handler. -/
  | dispatched
  /-- The handler's writes are durable. -/
  | committed
  /-- `_record_committed` after the handler. -/
  | checkpointed
  /-- The handler's writes and the checkpoint are durable, in one transaction. -/
  | transacted
  /-- An audit op: `_record_committed` and its event. -/
  | audited
  /-- Declared skipped for good: `_record_committed`. -/
  | declared
deriving DecidableEq, Repr

structure ApplyEvent where
  seq : ℕ
  kind : EventKind
deriving DecidableEq, Repr

section Loop

variable (stack : Stack) (budget : LlmBudget)

/-- The body of the loop for one op: the handler lookup, the budget, the SurrealDB path
and `_apply_one_op`. -/
def opEvents (a : Attempt) (seq : ℕ) (op : OpKind) : List EventKind :=
  if op.hasHandler = false then [.audited]
  else if llmBudgetBreach budget a seq op then [.throttled]
  else match stack with
    | .surrealdb =>
        if op.surrealdbNative then [.dispatched, .committed, .checkpointed] else [.declared]
    | .sql postgres =>
        if op.postgresOnly && !postgres then [.declared]
        else if a.unsupported seq then [.dispatched, .declared]
        else [.dispatched, .transacted]
    | .embedded =>
        if a.unsupported seq then [.dispatched, .declared] else [.dispatched, .committed]

/-- The events of an op that take place. -/
def executed (a : Attempt) (seq : ℕ) (op : OpKind) : List ApplyEvent :=
  let events := (opEvents stack budget a seq op).map (ApplyEvent.mk seq)
  match a.crash seq with
  | none => events
  | some n => events.take n

/-- `_apply_phase`, from op `seq` of the plan on. -/
def applyPhase (a : Attempt) (lastCommitted : ℤ) : ℕ → List OpKind → List ApplyEvent
  | _, [] => []
  | seq, op :: ops =>
      if a.cancelled seq then []
      else
        let now := if (seq : ℤ) ≤ lastCommitted then [] else executed stack budget a seq op
        match a.crash seq with
        | some _ => now
        | none => now ++ applyPhase a lastCommitted (seq + 1) ops

/-- The events that write `last_committed_op_seq`; without a run store none does. -/
def ApplyEvent.checkpoint (e : ApplyEvent) : Option ℕ :=
  match stack, e.kind with
  | .embedded, _ => none
  | _, .checkpointed | _, .transacted | _, .audited | _, .declared => some e.seq
  | _, _ => none

/-- `read_last_committed` after the events: `_advance_in_session` sets the number. -/
def readLastCommitted (events : List ApplyEvent) : ℤ :=
  events.foldl (fun last e => match e.checkpoint stack with
    | some seq => seq
    | none => last) (-1)

end Loop

/-- The handler's writes of op `i` became durable. -/
def ApplyEvent.commits (i : ℕ) (e : ApplyEvent) : Bool :=
  e.seq == i && (e.kind == .committed || e.kind == .transacted)

/-- The op is done for good: committed, declared skipped, or audited. -/
def Settled (events : List ApplyEvent) (i : ℕ) : Prop :=
  ∃ e ∈ events, e.seq = i ∧ e.kind ∈ [.committed, .transacted, .declared, .audited]

/-- The op was taken up: dispatched, declared skipped, or audited. -/
def TakenUp (events : List ApplyEvent) (i : ℕ) : Prop :=
  ∃ e ∈ events, e.seq = i ∧ e.kind ∈ [.dispatched, .declared, .audited]

/-! ## What one attempt does -/

section Trace

variable {stack : Stack} {budget : LlmBudget} {a : Attempt} {last : ℤ}

/-- The loop comes to the op. -/
def Attempt.Reaches (a : Attempt) (i : ℕ) : Prop :=
  (∀ j ≤ i, a.cancelled j = false) ∧ ∀ j < i, a.crash j = none

/-- The events of an op that take place are a prefix of its body. -/
theorem executed_sublist (seq : ℕ) (op : OpKind) :
    (executed stack budget a seq op).Sublist
      ((opEvents stack budget a seq op).map (ApplyEvent.mk seq)) := by
  rw [executed]
  split
  · exact List.Sublist.refl _
  · exact List.take_sublist _ _

/-- The body commits at most once. -/
theorem countP_executed_le (i : ℕ) (op : OpKind) :
    (executed stack budget a i op).countP (ApplyEvent.commits i) ≤ 1 := by
  apply Nat.le_trans (executed_sublist i op).countP_le
  rw [List.countP_map]
  unfold opEvents
  repeat' split
  all_goals simp [ApplyEvent.commits]

theorem executed_seq {seq : ℕ} {op : OpKind} {e : ApplyEvent}
    (h : e ∈ executed stack budget a seq op) : e.seq = seq := by
  have hmem := (executed_sublist seq op).subset h
  obtain ⟨k, -, rfl⟩ := List.mem_map.mp hmem
  rfl

/-- What the loop does at one op. -/
theorem filter_now {seq i : ℕ} {op : OpKind} :
    (if (seq : ℤ) ≤ last then [] else executed stack budget a seq op).filter (fun e => e.seq == i) =
      if seq = i ∧ last < seq then executed stack budget a seq op else [] := by
  by_cases hlast : (seq : ℤ) ≤ last
  · rw [if_pos hlast, if_neg (by omega)]
    rfl
  · rw [if_neg hlast]
    by_cases h : seq = i
    · rw [if_pos ⟨h, by omega⟩, List.filter_eq_self]
      intro e he
      rw [executed_seq he, h]
      exact beq_self_eq_true i
    · rw [if_neg (by omega), List.filter_eq_nil_iff]
      intro e he
      rw [executed_seq he]
      simpa using h

/-- Events from op `seq` on are events of ops from `seq` on. -/
theorem le_seq_of_mem (ops : List OpKind) : ∀ (seq : ℕ),
    ∀ e ∈ applyPhase stack budget a last seq ops, seq ≤ e.seq := by
  induction ops with
  | nil =>
      intro seq e he
      cases he
  | cons op ops ih =>
      intro seq e he
      have hnow : ∀ e ∈ (if (seq : ℤ) ≤ last then [] else executed stack budget a seq op),
          e.seq = seq := by
        intro e he
        split at he
        · cases he
        · exact executed_seq he
      rw [applyPhase] at he
      split at he
      · cases he
      · simp only at he
        split at he
        · exact Nat.le_of_eq (hnow e he).symm
        · rcases List.mem_append.mp he with he | he
          · exact Nat.le_of_eq (hnow e he).symm
          · have := ih (seq + 1) e he
            omega

/-- **The events of an attempt, op by op**: those of an op the loop comes to and does
not skip as committed. -/
theorem applyPhase_filter (ops : List OpKind) : ∀ (seq i : ℕ),
    (applyPhase stack budget a last seq ops).filter (fun e => e.seq == seq + i) =
      if ((∀ j ≤ i, a.cancelled (seq + j) = false) ∧ ∀ j < i, a.crash (seq + j) = none) ∧
          last < (seq + i : ℕ) then
        match ops[i]? with
        | none => []
        | some op => executed stack budget a (seq + i) op
      else [] := by
  induction ops with
  | nil => simp [applyPhase]
  | cons op ops ih =>
      intro seq i
      rw [applyPhase]
      by_cases hc : a.cancelled seq = true
      · rw [if_pos hc, if_neg]
        · rfl
        · rintro ⟨⟨h, -⟩, -⟩
          have := h 0 (by omega)
          simp [hc] at this
      · have hc' : a.cancelled seq = false := by simpa using hc
        rw [if_neg hc]
        cases i with
        | zero =>
            have hrest : (applyPhase stack budget a last (seq + 1) ops).filter
                (fun e => e.seq == seq + 0) = [] := by
              rw [List.filter_eq_nil_iff]
              intro e he
              have := le_seq_of_mem ops (seq + 1) e he
              simp only [beq_iff_eq]
              omega
            simp only [List.getElem?_cons_zero]
            split
            · rw [filter_now]
              simp [hc']
            · rw [List.filter_append, hrest, filter_now, List.append_nil]
              simp [hc']
        | succ i =>
            have hnow : (if (seq : ℤ) ≤ last then [] else executed stack budget a seq op).filter
                (fun e => e.seq == seq + (i + 1)) = [] := by
              rw [filter_now, if_neg (by omega)]
            simp only
            split
            · rename_i n hcrash
              rw [hnow, if_neg]
              rintro ⟨⟨-, h⟩, -⟩
              have := h 0 (by omega)
              rw [Nat.add_zero, hcrash] at this
              cases this
            · rename_i hcrash
              -- the conditions for the rest of the plan, and those for this op
              have hreach : ((∀ j ≤ i + 1, a.cancelled (seq + j) = false) ∧
                  ∀ j < i + 1, a.crash (seq + j) = none) ↔
                  (∀ j ≤ i, a.cancelled (seq + 1 + j) = false) ∧
                    ∀ j < i, a.crash (seq + 1 + j) = none := by
                constructor
                · rintro ⟨h, h'⟩
                  refine ⟨fun j hj => ?_, fun j hj => ?_⟩
                  · rw [Nat.add_assoc, Nat.add_comm 1 j]
                    exact h (j + 1) (by omega)
                  · rw [Nat.add_assoc, Nat.add_comm 1 j]
                    exact h' (j + 1) (by omega)
                · rintro ⟨h, h'⟩
                  refine ⟨fun j hj => ?_, fun j hj => ?_⟩
                  · cases j with
                    | zero => exact hc'
                    | succ j =>
                        rw [Nat.add_comm j 1, ← Nat.add_assoc]
                        exact h j (by omega)
                  · cases j with
                    | zero => exact hcrash
                    | succ j =>
                        rw [Nat.add_comm j 1, ← Nat.add_assoc]
                        exact h' j (by omega)
              have hindex : seq + (i + 1) = seq + 1 + i := by omega
              rw [List.filter_append, hnow, List.nil_append]
              simp only [hreach, hindex, List.getElem?_cons_succ]
              exact ih (seq + 1) i

/-- An event of an attempt is an event of an op the loop comes to. -/
theorem mem_applyPhase {ops : List OpKind} {e : ApplyEvent} :
    e ∈ applyPhase stack budget a last 0 ops ↔
      a.Reaches e.seq ∧ last < e.seq ∧ ∃ op, ops[e.seq]? = some op ∧
        e ∈ executed stack budget a e.seq op := by
  have hfilter := @applyPhase_filter stack budget a last ops 0 e.seq
  simp only [Nat.zero_add] at hfilter
  have hmem : e ∈ applyPhase stack budget a last 0 ops ↔
      e ∈ (applyPhase stack budget a last 0 ops).filter (fun e' => e'.seq == e.seq) := by
    rw [List.mem_filter]
    simp
  rw [hmem, hfilter]
  by_cases h : ((∀ j ≤ e.seq, a.cancelled j = false) ∧ ∀ j < e.seq, a.crash j = none) ∧ last < e.seq
  · rw [if_pos h]
    constructor
    · intro he
      split at he
      · cases he
      · rename_i op hop
        exact ⟨h.1, h.2, op, hop, he⟩
    · rintro ⟨-, -, op, hop, he⟩
      rw [hop]
      exact he
  · rw [if_neg h]
    constructor
    · intro he
      cases he
    · rintro ⟨hreach, hlast, -⟩
      exact absurd ⟨hreach, hlast⟩ h

/-- The commits of an op in one attempt are those of its body. -/
theorem countP_commits_le {ops : List OpKind} (i : ℕ) :
    (applyPhase stack budget a last 0 ops).countP (ApplyEvent.commits i) ≤ 1 := by
  have hfilter := @applyPhase_filter stack budget a last ops 0 i
  simp only [Nat.zero_add] at hfilter
  have hsub : (applyPhase stack budget a last 0 ops).countP (ApplyEvent.commits i) =
      ((applyPhase stack budget a last 0 ops).filter fun e => e.seq == i).countP
        (ApplyEvent.commits i) := by
    rw [List.countP_filter]
    apply List.countP_congr
    intro e _
    simp only [ApplyEvent.commits, Bool.and_eq_true, Bool.or_eq_true, beq_iff_eq]
    exact ⟨fun h => ⟨h, h.1⟩, fun h => h.1⟩
  rw [hsub, hfilter]
  split
  · split
    · exact Nat.zero_le _
    · exact countP_executed_le i _
  · exact Nat.zero_le _

/-- Events come in the order of the plan. -/
theorem applyPhase_sorted (ops : List OpKind) : ∀ (seq : ℕ),
    (applyPhase stack budget a last seq ops).Pairwise fun e e' => e.seq ≤ e'.seq := by
  induction ops with
  | nil => exact fun seq => List.Pairwise.nil
  | cons op ops ih =>
      intro seq
      have hnow : ∀ e ∈ (if (seq : ℤ) ≤ last then [] else executed stack budget a seq op),
          e.seq = seq := by
        intro e he
        split at he
        · cases he
        · exact executed_seq he
      have hsorted : (if (seq : ℤ) ≤ last then [] else executed stack budget a seq op).Pairwise
          fun e e' => e.seq ≤ e'.seq := by
        apply List.pairwise_of_forall_mem_list
        intro e he e' he'
        apply Nat.le_of_eq
        rw [hnow e he, hnow e' he']
      rw [applyPhase]
      split
      · exact List.Pairwise.nil
      · simp only
        split
        · exact hsorted
        · rw [List.pairwise_append]
          refine ⟨hsorted, ih (seq + 1), fun e he e' he' => ?_⟩
          have := le_seq_of_mem ops (seq + 1) e' he'
          rw [hnow e he]
          omega

end Trace

/-! ## The checkpoint -/

section Checkpoint

variable {stack : Stack} {budget : LlmBudget} {a : Attempt} {ops : List OpKind}

theorem checkpoint_eq_some {e : ApplyEvent} {s : ℕ} (h : e.checkpoint stack = some s) : s = e.seq := by
  unfold ApplyEvent.checkpoint at h
  split at h <;> simp_all

/-- The last checkpoint of events in order is the greatest one. -/
theorem readLastCommitted_spec (events : List ApplyEvent) : ∀ last : ℤ,
    events.Pairwise (fun e e' => e.seq ≤ e'.seq) → (∀ e ∈ events, last ≤ e.seq) →
    let r := events.foldl (fun last e => match e.checkpoint stack with
      | some seq => (seq : ℤ)
      | none => last) last
    last ≤ r ∧ (∀ e ∈ events, ∀ s, e.checkpoint stack = some s → (s : ℤ) ≤ r) ∧
      (r = last ∨ ∃ e ∈ events, ∃ s, e.checkpoint stack = some s ∧ r = s) := by
  induction events with
  | nil => exact fun last _ _ => ⟨Int.le_refl _, (by simp), Or.inl rfl⟩
  | cons e events ih =>
      intro last hsorted hlast
      rw [List.pairwise_cons] at hsorted
      simp only [List.foldl_cons]
      cases hc : e.checkpoint stack with
      | none =>
          obtain ⟨h₁, h₂, h₃⟩ := ih last hsorted.2 fun e' he' => hlast e' (List.mem_cons_of_mem _ he')
          refine ⟨h₁, ?_, ?_⟩
          · intro e' he' s hs
            rcases List.mem_cons.mp he' with rfl | he'
            · rw [hc] at hs
              cases hs
            · exact h₂ e' he' s hs
          · rcases h₃ with h₃ | ⟨e', he', s, hs, hr⟩
            · exact .inl h₃
            · exact .inr ⟨e', List.mem_cons_of_mem _ he', s, hs, hr⟩
      | some seq =>
          have hseq := checkpoint_eq_some hc
          obtain ⟨h₁, h₂, h₃⟩ := ih seq hsorted.2 fun e' he' => by
            rw [hseq]
            exact_mod_cast hsorted.1 e' he'
          refine ⟨?_, ?_, ?_⟩
          · have := hlast e List.mem_cons_self
            rw [← hseq] at this
            exact Int.le_trans this h₁
          · intro e' he' s hs
            rcases List.mem_cons.mp he' with rfl | he'
            · rw [hc, Option.some.injEq] at hs
              rw [← hs]
              exact h₁
            · exact h₂ e' he' s hs
          · rcases h₃ with h₃ | ⟨e', he', s, hs, hr⟩
            · exact .inr ⟨e, List.mem_cons_self, seq, hc, h₃⟩
            · exact .inr ⟨e', List.mem_cons_of_mem _ he', s, hs, hr⟩

end Checkpoint

/-! ## Crash and resume -/

/-- The budget refuses the op: audit ops are not asked for it. -/
def Attempt.refuses (budget : LlmBudget) (a : Attempt) (seq : ℕ) (op : OpKind) : Bool :=
  op.hasHandler && llmBudgetBreach budget a seq op

section Resume

variable (stack : Stack) (budget : LlmBudget) (ops : List OpKind)

/-- The attempt writes the checkpoint of op `j`: it comes to the op, the budget does not
refuse it, and the process does not stop before the end of its body. -/
def Attempt.Checkpoints (a : Attempt) (j : ℕ) : Prop :=
  stack ≠ .embedded ∧ a.Reaches j ∧ ∃ op, ops[j]? = some op ∧ a.refuses budget j op = false ∧
    ∀ n, a.crash j = some n → (opEvents stack budget a j op).length ≤ n

/-- The attempt commits op `j` without its checkpoint: on SurrealDB the process stops
between the two; without a run store there is no checkpoint. -/
def Attempt.CommitsBare (a : Attempt) (j : ℕ) : Prop :=
  a.Reaches j ∧ ∃ op, ops[j]? = some op ∧ op.hasHandler = true ∧ a.refuses budget j op = false ∧
    match stack with
    | .sql _ => False
    | .surrealdb => op.surrealdbNative = true ∧ a.crash j = some 2
    | .embedded => a.unsupported j = false ∧ ∀ n, a.crash j = some n → 2 ≤ n

variable {stack budget ops} {a : Attempt}

/-- The possible bodies of an op, each with what leads to it. -/
theorem opEvents_cases (stack : Stack) (budget : LlmBudget) (a : Attempt) (j : ℕ) (op : OpKind) :
    (op.hasHandler = false ∧ a.refuses budget j op = false ∧
      opEvents stack budget a j op = [.audited]) ∨
    (a.refuses budget j op = true ∧ opEvents stack budget a j op = [.throttled]) ∨
    (op.hasHandler = true ∧ a.refuses budget j op = false ∧
      (opEvents stack budget a j op = [.declared] ∧ stack ≠ .embedded ∨
        opEvents stack budget a j op = [.dispatched, .declared] ∧
          (stack = .embedded → a.unsupported j = true) ∨
        opEvents stack budget a j op = [.dispatched, .transacted] ∧ (∃ pg, stack = .sql pg) ∨
        opEvents stack budget a j op = [.dispatched, .committed, .checkpointed] ∧
          stack = .surrealdb ∧ op.surrealdbNative = true ∨
        opEvents stack budget a j op = [.dispatched, .committed] ∧ stack = .embedded ∧
          a.unsupported j = false)) := by
  cases hh : op.hasHandler with
  | false => simp [opEvents, Attempt.refuses, hh]
  | true =>
      cases hb : llmBudgetBreach budget a j op with
      | true => simp [opEvents, Attempt.refuses, hh, hb]
      | false =>
          refine .inr (.inr ⟨rfl, by simp [Attempt.refuses, hb], ?_⟩)
          cases stack with
          | sql pg =>
              by_cases hpg : (op.postgresOnly && !pg) = true
              · simp [opEvents, hh, hb, hpg]
              · by_cases hu : a.unsupported j = true
                · simp [opEvents, hh, hb, hpg, hu]
                · simp [opEvents, hh, hb, hpg, hu]
          | surrealdb =>
              by_cases hn : op.surrealdbNative = true
              · simp [opEvents, hh, hb, hn]
              · simp [opEvents, hh, hb, hn]
          | embedded =>
              by_cases hu : a.unsupported j = true
              · simp [opEvents, hh, hb, hu]
              · simp [opEvents, hh, hb, hu]

/-- Some event that takes place has `P`, where `x` is the first of the body that does. -/
theorem exists_executed_iff {j : ℕ} {op : OpKind} {P : ApplyEvent → Prop} {init rest : List EventKind}
    {x : EventKind} (hbody : opEvents stack budget a j op = init ++ x :: rest)
    (hinit : ∀ k ∈ init, ¬ P ⟨j, k⟩) (hx : P ⟨j, x⟩) :
    (∃ e ∈ executed stack budget a j op, P e) ↔ ∀ n, a.crash j = some n → init.length < n := by
  have hmap : (init ++ x :: rest).map (ApplyEvent.mk j) =
      init.map (ApplyEvent.mk j) ++ ⟨j, x⟩ :: rest.map (ApplyEvent.mk j) := by simp
  rw [executed, hbody, hmap]
  cases hc : a.crash j with
  | none =>
      refine ⟨fun _ n hn => (by cases hn), fun _ => ⟨⟨j, x⟩, by simp, hx⟩⟩
  | some n =>
      constructor
      · rintro ⟨e, he, hP⟩ m hm
        obtain rfl := Option.some.inj hm
        by_contra hlt
        simp only at he
        rw [List.take_append_of_le_length (by simp; omega)] at he
        obtain ⟨k, hk, rfl⟩ := List.mem_map.mp (List.mem_of_mem_take he)
        exact hinit k hk hP
      · intro h
        have hlt := h n rfl
        refine ⟨⟨j, x⟩, ?_, hx⟩
        simp only
        rw [List.take_append, List.mem_append]
        obtain ⟨m, hm⟩ : ∃ m, n - (init.map (ApplyEvent.mk j)).length = m + 1 :=
          ⟨n - init.length - 1, by simp; omega⟩
        rw [hm, List.take_succ_cons]
        exact .inr (.head _)

/-- No event that takes place has `P` if none of the body does. -/
theorem not_exists_executed {j : ℕ} {op : OpKind} {P : ApplyEvent → Prop}
    (hbody : ∀ k ∈ opEvents stack budget a j op, ¬ P ⟨j, k⟩) :
    ¬ ∃ e ∈ executed stack budget a j op, P e := by
  rintro ⟨e, he, hP⟩
  obtain ⟨k, hk, rfl⟩ := List.mem_map.mp ((executed_sublist j op).subset he)
  exact hbody k hk hP

/-- An op writes its checkpoint as the last event of its body. -/
theorem executed_checkpoint_iff {j : ℕ} {op : OpKind} :
    (∃ e ∈ executed stack budget a j op, ∃ s, e.checkpoint stack = some s) ↔
      stack ≠ .embedded ∧ a.refuses budget j op = false ∧
        ∀ n, a.crash j = some n → (opEvents stack budget a j op).length ≤ n := by
  by_cases hstack : stack = .embedded
  · simp [hstack, ApplyEvent.checkpoint]
  · have hkinds : ∀ k, (∃ s, (ApplyEvent.mk j k).checkpoint stack = some s) ↔
        k ∈ [.checkpointed, .transacted, .audited, .declared] := by
      intro k
      cases stack <;> cases k <;> simp_all [ApplyEvent.checkpoint]
    simp only [ne_eq, hstack, not_false_eq_true, true_and]
    rcases opEvents_cases stack budget a j op with ⟨-, hr, h⟩ | ⟨hr, h⟩ | ⟨-, hr, h⟩
    · rw [@exists_executed_iff _ _ _ _ _ _ [] [] .audited h (by simp) ((hkinds _).mpr (by simp)), hr, h]
      simp [Nat.succ_le_iff]
    · rw [hr]
      simp only [Bool.true_eq_false, false_and, iff_false]
      apply not_exists_executed
      intro k hk
      rw [h] at hk
      obtain rfl := List.mem_singleton.mp hk
      simp [hkinds]
    · rcases h with ⟨h, -⟩ | ⟨h, -⟩ | ⟨h, -⟩ | ⟨h, -, -⟩ | ⟨-, h, -⟩
      · rw [@exists_executed_iff _ _ _ _ _ _ [] [] .declared h (by simp) ((hkinds _).mpr (by simp)), hr, h]
        simp [Nat.succ_le_iff]
      · rw [@exists_executed_iff _ _ _ _ _ _ [.dispatched] [] .declared h
          (by simp [hkinds]) ((hkinds _).mpr (by simp)), hr, h]
        simp [Nat.succ_le_iff]
      · rw [@exists_executed_iff _ _ _ _ _ _ [.dispatched] [] .transacted h
          (by simp [hkinds]) ((hkinds _).mpr (by simp)), hr, h]
        simp [Nat.succ_le_iff]
      · rw [@exists_executed_iff _ _ _ _ _ _ [.dispatched, .committed] [] .checkpointed h
          (by simp [hkinds]) ((hkinds _).mpr (by simp)), hr, h]
        simp [Nat.succ_le_iff]
      · exact absurd h hstack

/-- An op commits as the second event of its body. -/
theorem executed_commits_iff {j : ℕ} {op : OpKind} :
    (∃ e ∈ executed stack budget a j op, e.commits j = true) ↔
      (∃ rest, opEvents stack budget a j op = .dispatched :: .committed :: rest ∨
        opEvents stack budget a j op = .dispatched :: .transacted :: rest) ∧
      ∀ n, a.crash j = some n → 2 ≤ n := by
  have hkinds : ∀ k, (ApplyEvent.mk j k).commits j = true ↔ k ∈ [.committed, .transacted] := by
    intro k
    cases k <;> simp [ApplyEvent.commits]
  have hnone : (∀ k ∈ opEvents stack budget a j op, k ∉ [.committed, .transacted]) →
      ¬ ∃ e ∈ executed stack budget a j op, e.commits j = true :=
    fun h => not_exists_executed fun k hk => by
      rw [hkinds]
      exact h k hk
  rcases opEvents_cases stack budget a j op with ⟨-, hr, h⟩ | ⟨hr, h⟩ | ⟨-, hr, h⟩
  · simp only [hnone (by simp [h]), h, false_iff]
    simp
  · simp only [hnone (by simp [h]), h, false_iff]
    simp
  · rcases h with ⟨h, -⟩ | ⟨h, -⟩ | ⟨h, -⟩ | ⟨h, -, -⟩ | ⟨h, -, -⟩
    · simp only [hnone (by simp [h]), h, false_iff]
      simp
    · simp only [hnone (by simp [h]), h, false_iff]
      simp
    · rw [@exists_executed_iff _ _ _ _ _ (fun e => e.commits j = true) [.dispatched] [] .transacted h
        (by simp [hkinds]) ((hkinds _).mpr (by simp)), h]
      simp [Nat.succ_le_iff]
    · rw [@exists_executed_iff _ _ _ _ _ (fun e => e.commits j = true) [.dispatched] [.checkpointed]
        .committed h (by simp [hkinds]) ((hkinds _).mpr (by simp)), h]
      simp [Nat.succ_le_iff]
    · rw [@exists_executed_iff _ _ _ _ _ (fun e => e.commits j = true) [.dispatched] [] .committed h
        (by simp [hkinds]) ((hkinds _).mpr (by simp)), h]
      simp [Nat.succ_le_iff]

/-- **The checkpoint after an attempt** is the last op whose checkpoint it writes. -/
theorem le_readLastCommitted_iff {i : ℕ} :
    (i : ℤ) ≤ readLastCommitted stack (applyPhase stack budget a (-1) 0 ops) ↔
      ∃ j, i ≤ j ∧ a.Checkpoints stack budget ops j := by
  -- an op's checkpoint is among the events exactly if the attempt writes it
  have hevent : ∀ j, (∃ e ∈ applyPhase stack budget a (-1) 0 ops, e.checkpoint stack = some j) ↔
      a.Checkpoints stack budget ops j := by
    intro j
    constructor
    · rintro ⟨e, he, hc⟩
      obtain rfl := checkpoint_eq_some hc
      obtain ⟨hreach, -, op, hop, hex⟩ := mem_applyPhase.mp he
      obtain ⟨hstack, hr, hcrash⟩ := executed_checkpoint_iff.mp ⟨e, hex, _, hc⟩
      exact ⟨hstack, hreach, op, hop, hr, hcrash⟩
    · rintro ⟨hstack, hreach, op, hop, hr, hcrash⟩
      obtain ⟨e, hex, s, hc⟩ := executed_checkpoint_iff.mpr ⟨hstack, hr, hcrash⟩
      obtain rfl : e.seq = j := executed_seq hex
      obtain rfl := checkpoint_eq_some hc
      exact ⟨e, mem_applyPhase.mpr ⟨hreach, by omega, op, hop, hex⟩, hc⟩
  obtain ⟨-, hle, hlast⟩ := @readLastCommitted_spec stack (applyPhase stack budget a (-1) 0 ops) (-1)
    (applyPhase_sorted ops 0) (fun e _ => by omega)
  constructor
  · intro hi
    rcases hlast with hlast | ⟨e, he, s, hc, hlast⟩
    · rw [readLastCommitted] at hi
      rw [hlast] at hi
      omega
    · rw [readLastCommitted] at hi
      rw [hlast] at hi
      exact ⟨s, by omega, (hevent s).mp ⟨e, he, hc⟩⟩
  · rintro ⟨j, hij, hj⟩
    obtain ⟨e, he, hc⟩ := (hevent j).mpr hj
    have := hle e he j hc
    rw [readLastCommitted]
    omega

/-- A whole body settles its op, unless the budget refused it. -/
theorem opEvents_settles {j : ℕ} {op : OpKind} (hr : a.refuses budget j op = false) :
    ∃ k ∈ opEvents stack budget a j op, k ∈ [.committed, .transacted, .declared, .audited] := by
  rcases opEvents_cases stack budget a j op with ⟨-, -, h⟩ | ⟨hr', -⟩ | ⟨-, -, h⟩
  · simp [h]
  · rw [hr] at hr'
    cases hr'
  · rcases h with ⟨h, -⟩ | ⟨h, -⟩ | ⟨h, -⟩ | ⟨h, -⟩ | ⟨h, -⟩
    all_goals simp [h]

/-- A body takes its op up, unless the budget refused it. -/
theorem opEvents_takesUp {j : ℕ} {op : OpKind} (hr : a.refuses budget j op = false) :
    ∃ k ∈ opEvents stack budget a j op, k ∈ [.dispatched, .declared, .audited] := by
  rcases opEvents_cases stack budget a j op with ⟨-, -, h⟩ | ⟨hr', -⟩ | ⟨-, -, h⟩
  · simp [h]
  · rw [hr] at hr'
    cases hr'
  · rcases h with ⟨h, -⟩ | ⟨h, -⟩ | ⟨h, -⟩ | ⟨h, -⟩ | ⟨h, -⟩
    all_goals simp [h]

/-- A refused op only leaves the event of its refusal. -/
theorem executed_refused {j : ℕ} {op : OpKind} (hr : a.refuses budget j op = true) {e : ApplyEvent}
    (he : e ∈ executed stack budget a j op) : e.kind = .throttled := by
  obtain ⟨k, hk, rfl⟩ := List.mem_map.mp ((executed_sublist j op).subset he)
  rcases opEvents_cases stack budget a j op with ⟨-, hr', -⟩ | ⟨-, h⟩ | ⟨-, hr', -⟩
  · rw [hr] at hr'
    cases hr'
  · rw [h] at hk
    exact List.mem_singleton.mp hk
  · rw [hr] at hr'
    cases hr'

theorem executed_of_not_crash {j : ℕ} {op : OpKind} (hc : a.crash j = none) :
    executed stack budget a j op = (opEvents stack budget a j op).map (ApplyEvent.mk j) := by
  rw [executed, hc]

end Resume

section Attempts

variable (stack : Stack) (budget : LlmBudget) (ops : List OpKind)

/-- The events of the first attempt. -/
def firstAttempt (a : Attempt) : List ApplyEvent := applyPhase stack budget a (-1) 0 ops

/-- The events of the attempt that resumes the run with the same plan. -/
def resumedAttempt (a₁ a₂ : Attempt) : List ApplyEvent :=
  applyPhase stack budget a₂ (readLastCommitted stack (firstAttempt stack budget ops a₁)) 0 ops

/-- Crash and resume are safe: no handler commits twice, and an op that the first
attempt left open is taken up by a resumed attempt that comes to it with budget left. -/
structure ResumeSafe (a₁ a₂ : Attempt) : Prop where
  once : ∀ i, (firstAttempt stack budget ops a₁ ++
    resumedAttempt stack budget ops a₁ a₂).countP (ApplyEvent.commits i) ≤ 1
  retried : ∀ i op, ops[i]? = some op → ¬ Settled (firstAttempt stack budget ops a₁) i →
    a₂.Reaches i → a₂.crash i = none → a₂.refuses budget i op = false →
    TakenUp (resumedAttempt stack budget ops a₁ a₂) i

/-- An attempt that nothing disturbs. -/
def calmAttempt : Attempt where
  tokensThisRun := fun _ => 0
  tokensToday := fun _ => 0
  cancelled := fun _ => false
  unsupported := fun _ => false
  crash := fun _ => none

variable {stack budget ops} {a₁ a₂ : Attempt}

theorem calmAttempt_reaches (i : ℕ) : calmAttempt.Reaches i := ⟨fun _ _ => rfl, fun _ _ => rfl⟩

theorem calmAttempt_refuses (i : ℕ) (op : OpKind) : calmAttempt.refuses budget i op = false := by
  simp [Attempt.refuses, llmBudgetBreach, calmAttempt]

/-- A commit that counts is an event of its op's body. -/
theorem exists_commit_iff {a : Attempt} {last : ℤ} {i : ℕ} :
    0 < (applyPhase stack budget a last 0 ops).countP (ApplyEvent.commits i) ↔
      a.Reaches i ∧ last < i ∧ ∃ op, ops[i]? = some op ∧
        ∃ e ∈ executed stack budget a i op, e.commits i = true := by
  rw [List.countP_pos_iff]
  constructor
  · rintro ⟨e, he, hc⟩
    have hseq : e.seq = i := by
      rw [ApplyEvent.commits, Bool.and_eq_true, beq_iff_eq] at hc
      exact hc.1
    subst hseq
    obtain ⟨hreach, hlast, op, hop, hex⟩ := mem_applyPhase.mp he
    exact ⟨hreach, hlast, op, hop, e, hex, hc⟩
  · rintro ⟨hreach, hlast, op, hop, e, hex, hc⟩
    obtain rfl := executed_seq hex
    exact ⟨e, mem_applyPhase.mpr ⟨hreach, hlast, op, hop, hex⟩, hc⟩

/-- A commit of the first attempt has its checkpoint, or is bare. -/
theorem checkpoints_or_bare {a : Attempt} {i : ℕ} {op : OpKind} (hop : ops[i]? = some op)
    (hreach : a.Reaches i) (h : ∃ e ∈ executed stack budget a i op, e.commits i = true) :
    a.Checkpoints stack budget ops i ∨ a.CommitsBare stack budget ops i := by
  obtain ⟨⟨rest, hbody⟩, hcrash⟩ := executed_commits_iff.mp h
  rcases opEvents_cases stack budget a i op with ⟨-, -, h⟩ | ⟨-, h⟩ | ⟨hh, hr, h⟩
  · simp [h] at hbody
  · simp [h] at hbody
  · rcases h with ⟨h, -⟩ | ⟨h, -⟩ | ⟨h, pg, rfl⟩ | ⟨h, rfl, hn⟩ | ⟨-, rfl, hu⟩
    · simp [h] at hbody
    · simp [h] at hbody
    · exact .inl ⟨by simp, hreach, op, hop, hr, by simpa [h] using hcrash⟩
    · by_cases h2 : a.crash i = some 2
      · exact .inr ⟨hreach, op, hop, hh, hr, hn, h2⟩
      · refine .inl ⟨by simp, hreach, op, hop, hr, ?_⟩
        intro n hcn
        have hle := hcrash n hcn
        have hne : n ≠ 2 := by
          rintro rfl
          exact h2 hcn
        rw [h]
        simp only [List.length_cons, List.length_nil]
        omega
    · exact .inr ⟨hreach, op, hop, hh, hr, hu, hcrash⟩

/-- A bare commit is one that counts, and an undisturbed attempt that comes to the op
commits it too. -/
theorem CommitsBare.commits {a : Attempt} {i : ℕ} (h : a.CommitsBare stack budget ops i) :
    ∃ op, ops[i]? = some op ∧ (∃ e ∈ executed stack budget a i op, e.commits i = true) ∧
      ∃ e ∈ executed stack budget calmAttempt i op, e.commits i = true := by
  obtain ⟨-, op, hop, hh, hr, hstack⟩ := h
  have hcalm : calmAttempt.refuses budget i op = false := calmAttempt_refuses i op
  have hb : llmBudgetBreach budget a i op = false := by simpa [Attempt.refuses, hh] using hr
  have hb' : llmBudgetBreach budget calmAttempt i op = false := by
    simpa [Attempt.refuses, hh] using hcalm
  refine ⟨op, hop, ?_⟩
  rw [executed_commits_iff, executed_commits_iff]
  cases stack with
  | sql pg => exact hstack.elim
  | surrealdb =>
      obtain ⟨hn, hcrash⟩ := hstack
      refine ⟨⟨⟨[.checkpointed], .inl ?_⟩, ?_⟩, ⟨[.checkpointed], .inl ?_⟩, ?_⟩
      · simp [opEvents, hh, hb, hn]
      · intro n hcn
        rw [hcrash, Option.some.injEq] at hcn
        omega
      · simp [opEvents, hh, hb', hn]
      · intro n hcn
        cases hcn
  | embedded =>
      obtain ⟨hu, hcrash⟩ := hstack
      refine ⟨⟨⟨[], .inl ?_⟩, hcrash⟩, ⟨[], .inl ?_⟩, ?_⟩
      · simp [opEvents, hh, hb, hu]
      · have hu' : calmAttempt.unsupported i = false := rfl
        simp [opEvents, hh, hb', hu']
      · intro n hcn
        cases hcn

/-- The checkpoint of the first attempt stays below a bare commit. -/
theorem CommitsBare.lt {a : Attempt} {i : ℕ} (h : a.CommitsBare stack budget ops i) :
    readLastCommitted stack (firstAttempt stack budget ops a) < i := by
  rw [← Int.not_le]
  intro hle
  obtain ⟨j, hij, hj⟩ := le_readLastCommitted_iff.mp hle
  obtain ⟨hstack, hreach, op, hop, hr, hcrash⟩ := hj
  obtain ⟨-, op', hop', hh, hr', hbare⟩ := h
  cases stack with
  | sql pg => exact hbare
  | embedded => exact hstack rfl
  | surrealdb =>
      obtain ⟨hn, hc⟩ := hbare
      rcases Nat.lt_or_eq_of_le hij with hlt | rfl
      · rw [hreach.2 i hlt] at hc
        cases hc
      · obtain rfl := Option.some.inj (hop.symm.trans hop')
        have hb : llmBudgetBreach budget a i op = false := by simpa [Attempt.refuses, hh] using hr
        have hlen := hcrash 2 hc
        simp [opEvents, hh, hb, hn] at hlen

/-- An op that was neither settled nor refused lies above every checkpoint. -/
theorem lt_of_open {i : ℕ} {op : OpKind} (hop : ops[i]? = some op)
    (hopen : ¬ Settled (firstAttempt stack budget ops a₁) i)
    (hhole : ∀ i j op, i < j → ops[i]? = some op → a₁.refuses budget i op = true →
      ¬ a₁.Checkpoints stack budget ops j) :
    readLastCommitted stack (firstAttempt stack budget ops a₁) < i := by
  rw [← Int.not_le]
  intro hle
  obtain ⟨j, hij, hj⟩ := le_readLastCommitted_iff.mp hle
  obtain ⟨hstack, hreach, op', hop', hr', hcrash⟩ := hj
  -- the loop went past op `i`, so its whole body took place
  have hreachi : a₁.Reaches i :=
    ⟨fun k hk => hreach.1 k (Nat.le_trans hk hij), fun k hk => hreach.2 k (Nat.lt_of_lt_of_le hk hij)⟩
  have hr : a₁.refuses budget i op = false := by
    rcases Nat.lt_or_eq_of_le hij with hlt | rfl
    · by_contra hne
      exact hhole i j op hlt hop (by simpa using hne) ⟨hstack, hreach, op', hop', hr', hcrash⟩
    · obtain rfl := Option.some.inj (hop.symm.trans hop')
      exact hr'
  have hbody : executed stack budget a₁ i op =
      (opEvents stack budget a₁ i op).map (ApplyEvent.mk i) := by
    rcases Nat.lt_or_eq_of_le hij with hlt | rfl
    · exact executed_of_not_crash (hreach.2 i hlt)
    · obtain rfl := Option.some.inj (hop.symm.trans hop')
      cases hc : a₁.crash i with
      | none => exact executed_of_not_crash hc
      | some n =>
          rw [executed, hc]
          simp only
          exact List.take_of_length_le (by simpa using hcrash n hc)
  obtain ⟨k, hk, hset⟩ := @opEvents_settles stack budget a₁ i op hr
  refine hopen ⟨⟨i, k⟩, mem_applyPhase.mpr ⟨hreachi, by omega, op, hop, ?_⟩, rfl, hset⟩
  rw [hbody]
  exact List.mem_map.mpr ⟨k, hk, rfl⟩

end Attempts

/-- **Crash and resume.**  Every resumed attempt is safe exactly if the first one wrote
no checkpoint above an op that the budget had refused, and made no commit without its
checkpoint. -/
theorem resume_exact (stack : Stack) (budget : LlmBudget) (ops : List OpKind) (a₁ : Attempt) :
    (∀ a₂, ResumeSafe stack budget ops a₁ a₂) ↔
      (∀ i j op, i < j → ops[i]? = some op → a₁.refuses budget i op = true →
        ¬ a₁.Checkpoints stack budget ops j) ∧
      ∀ j, ¬ a₁.CommitsBare stack budget ops j := by
  constructor
  · intro hsafe
    refine ⟨?_, ?_⟩
    · intro i j op hij hop hr hj
      have hopen : ¬ Settled (firstAttempt stack budget ops a₁) i := by
        rintro ⟨e, he, rfl, hset⟩
        obtain ⟨-, -, op', hop', hex⟩ := mem_applyPhase.mp he
        obtain rfl := Option.some.inj (hop.symm.trans hop')
        simp [executed_refused hr hex] at hset
      obtain ⟨e, he, rfl, -⟩ := (hsafe calmAttempt).retried i op hop hopen (calmAttempt_reaches i) rfl
        (calmAttempt_refuses i op)
      obtain ⟨-, hlt, -⟩ := mem_applyPhase.mp he
      have hle := le_readLastCommitted_iff.mpr ⟨j, Nat.le_of_lt hij, hj⟩
      rw [firstAttempt] at hlt
      omega
    · intro j hj
      obtain ⟨op, hop, hfirst, hcalm⟩ := CommitsBare.commits hj
      have hone := (hsafe calmAttempt).once j
      rw [List.countP_append] at hone
      have h₁ : 0 < (firstAttempt stack budget ops a₁).countP (ApplyEvent.commits j) :=
        exists_commit_iff.mpr ⟨hj.1, by omega, op, hop, hfirst⟩
      have h₂ : 0 < (resumedAttempt stack budget ops a₁ calmAttempt).countP (ApplyEvent.commits j) :=
        exists_commit_iff.mpr ⟨calmAttempt_reaches j, CommitsBare.lt hj, op, hop, hcalm⟩
      omega
  · rintro ⟨hhole, hbare⟩ a₂
    refine ⟨?_, ?_⟩
    · intro i
      rw [List.countP_append]
      have h₁ : (firstAttempt stack budget ops a₁).countP (ApplyEvent.commits i) ≤ 1 :=
        countP_commits_le i
      have h₂ : (resumedAttempt stack budget ops a₁ a₂).countP (ApplyEvent.commits i) ≤ 1 :=
        countP_commits_le i
      by_contra hgt
      obtain ⟨hreach, -, op, hop, hcommit⟩ := (@exists_commit_iff stack budget ops a₁ (-1) i).mp
        (show 0 < (firstAttempt stack budget ops a₁).countP _ by omega)
      obtain ⟨-, hlt, -⟩ := exists_commit_iff.mp
        (show 0 < (resumedAttempt stack budget ops a₁ a₂).countP (ApplyEvent.commits i) by omega)
      rcases checkpoints_or_bare hop hreach hcommit with hc | hb
      · have hle := le_readLastCommitted_iff.mpr ⟨i, Nat.le_refl i, hc⟩
        rw [firstAttempt] at hlt
        omega
      · exact hbare i hb
    · intro i op hop hopen hreach hcrash hr
      obtain ⟨k, hk, htake⟩ := @opEvents_takesUp stack budget a₂ i op hr
      refine ⟨⟨i, k⟩, mem_applyPhase.mpr ⟨hreach, lt_of_open hop hopen hhole, op, hop, ?_⟩, rfl, htake⟩
      rw [executed_of_not_crash hcrash]
      exact List.mem_map.mpr ⟨k, hk, rfl⟩

/-! ## A hole below the checkpoint -/

/-- A budget of ten tokens a run. -/
def tenTokens : LlmBudget := ⟨10, 0⟩

/-- Two LLM ops, the first of which spends the budget, and an edge prune. -/
def summariesThenPrune : List OpKind :=
  [.vectorcypherCommunitySummary, .vectorcypherCommunitySummary, .vectorcypherPruneEdges]

/-- The counter stands at ten from the second op on. -/
def spentAttempt : Attempt := { calmAttempt with tokensThisRun := fun seq => if seq = 0 then 0 else 10 }

/-- **An op is lost.**  The second op was refused and left open; the third was committed;
the resumed attempt, with a fresh budget, does nothing. -/
theorem throttledOp_skipped :
    firstAttempt (.sql true) tenTokens summariesThenPrune spentAttempt =
      [⟨0, .dispatched⟩, ⟨0, .transacted⟩, ⟨1, .throttled⟩, ⟨2, .dispatched⟩, ⟨2, .transacted⟩] ∧
    resumedAttempt (.sql true) tenTokens summariesThenPrune spentAttempt calmAttempt = [] ∧
    ¬ ResumeSafe (.sql true) tenTokens summariesThenPrune spentAttempt calmAttempt := by
  have hfirst : firstAttempt (.sql true) tenTokens summariesThenPrune spentAttempt =
      [⟨0, .dispatched⟩, ⟨0, .transacted⟩, ⟨1, .throttled⟩, ⟨2, .dispatched⟩, ⟨2, .transacted⟩] := by
    decide
  have hresumed :
      resumedAttempt (.sql true) tenTokens summariesThenPrune spentAttempt calmAttempt = [] := by
    decide
  refine ⟨hfirst, hresumed, fun hsafe => ?_⟩
  have hopen : ¬ Settled (firstAttempt (.sql true) tenTokens summariesThenPrune spentAttempt) 1 := by
    rw [hfirst]
    simp [Settled]
  obtain ⟨e, he, -⟩ := hsafe.retried 1 .vectorcypherCommunitySummary rfl hopen
    (calmAttempt_reaches 1) rfl (calmAttempt_refuses 1 _)
  rw [hresumed] at he
  cases he

end Khora
