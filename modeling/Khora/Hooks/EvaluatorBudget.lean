import Khora.Lib.Runs
import Mathlib.Algebra.Order.Ring.Rat
import Mathlib.Data.List.Induction
import Mathlib.Logic.Function.Basic
import Mathlib.Tactic.Linarith

/-!
# The token budgets of the filter evaluator

`_charge_budget` checks the bucket of the subscription and that of the namespace, and then charges both. Each
check and each charge reads the clock for itself, and a refusal charges the bucket that refused to have its
warning logged.

* `Accounts.accept` — an accepted charge keeps the books of a bucket.
* `chargeBudget_right` — a call is right if the window of the bucket that refuses it does not end before the
  second look.
* `budgetsRight_iff` — the exact condition, over whole runs.
* `rollover_diverges` — a refused call that is charged.
-/

namespace Khora

namespace EvaluatorBudget

variable {K N S : Type} [DecidableEq K] [DecidableEq N] [DecidableEq S]

/-! ## The program -/

/-- A `_NamespaceBudget`. -/
structure NamespaceBudget where
  tokensUsed : ℕ
  windowStartedAt : ℚ
  warnedInWindow : Bool

/-- `_BUDGET_WINDOW_SECONDS` -/
def budgetWindowSeconds : ℚ := 3600

/-- A dictionary of buckets. -/
abbrev Buckets (K : Type) := K → Option NamespaceBudget

/-- `(now - bucket.window_started_at) >= _BUDGET_WINDOW_SECONDS` -/
def NamespaceBudget.over (b : NamespaceBudget) (now : ℚ) : Prop := budgetWindowSeconds ≤ now - b.windowStartedAt

instance (b : NamespaceBudget) (now : ℚ) : Decidable (b.over now) :=
  inferInstanceAs (Decidable (budgetWindowSeconds ≤ now - b.windowStartedAt))

/-- `_would_fit_bucket` -/
def wouldFitBucket (store : Buckets K) (key : K) (charge : ℕ) (cap : ℤ) (now : ℚ) : Bool :=
  match store key with
  | none => decide ((charge : ℤ) ≤ cap)
  | some bucket =>
      if bucket.over now then decide ((charge : ℤ) ≤ cap) else decide ((bucket.tokensUsed + charge : ℤ) ≤ cap)

/-- The bucket of `_charge_bucket`: the stored one, or a new one if there is none or its window is over. -/
def currentBucket (store : Buckets K) (key : K) (now : ℚ) : NamespaceBudget :=
  match store key with
  | none => ⟨0, now, false⟩
  | some bucket => if bucket.over now then ⟨0, now, false⟩ else bucket

/-- `_charge_bucket` -/
def chargeBucket (store : Buckets K) (key : K) (charge : ℕ) (cap : ℤ) (now : ℚ) : Buckets K × Bool :=
  let bucket := currentBucket store key now
  let projected := bucket.tokensUsed + charge
  if cap < projected then (Function.update store key (some { bucket with warnedInWindow := true }), false)
  else (Function.update store key (some { bucket with tokensUsed := projected }), true)

/-- The caps; one that is not positive caps nothing. -/
structure SemanticHooksConfig where
  llmMaxTokensPerNamespacePerHour : ℤ
  llmMaxTokensPerSubscriptionPerHour : ℤ

/-- The arguments of a `_charge_budget` call. -/
structure BudgetCall (N S : Type) where
  namespaceId : N
  inputTokens : ℕ
  outputTokens : ℕ
  subscriptionId : Option S

/-- `total_charge` -/
def BudgetCall.total (c : BudgetCall N S) : ℕ := c.inputTokens + c.outputTokens

/-- The capped bucket of the subscription, if there is one. -/
def subscriptionKey (config : SemanticHooksConfig) (c : BudgetCall N S) : Option S :=
  if 0 < config.llmMaxTokensPerSubscriptionPerHour then c.subscriptionId else none

/-- The capped bucket of the namespace, if there is one. -/
def namespaceKey (config : SemanticHooksConfig) (c : BudgetCall N S) : Option N :=
  if 0 < config.llmMaxTokensPerNamespacePerHour then some c.namespaceId else none

/-- A check, where there is a cap. -/
def fits (store : Buckets K) (key : Option K) (charge : ℕ) (cap : ℤ) (now : ℚ) : Bool :=
  match key with
  | none => true
  | some k => wouldFitBucket store k charge cap now

/-- A charge, where there is a cap. -/
def chargeKey (store : Buckets K) (key : Option K) (charge : ℕ) (cap : ℤ) (now : ℚ) : Buckets K :=
  match key with
  | none => store
  | some k => (chargeBucket store k charge cap now).1

/-- How often a check or a charge reads the clock. -/
def ticks (key : Option K) : ℕ := if key.isSome then 1 else 0

/-- The buckets, and how often the clock was read. -/
structure Evaluator (N S : Type) where
  budgets : Buckets N
  subscriptionBudgets : Buckets S
  reads : ℕ

variable (config : SemanticHooksConfig) (clock : ℕ → ℚ)

/-- The reading that checks the namespace. -/
def namespaceCheck (e : Evaluator N S) (c : BudgetCall N S) : ℕ := e.reads + ticks (subscriptionKey config c)

/-- The reading behind both checks, which charges the subscription. -/
def subscriptionCharge (e : Evaluator N S) (c : BudgetCall N S) : ℕ :=
  namespaceCheck config e c + ticks (namespaceKey config c)

/-- The reading that charges the namespace. -/
def namespaceCharge (e : Evaluator N S) (c : BudgetCall N S) : ℕ :=
  subscriptionCharge config e c + ticks (subscriptionKey config c)

/-- `_charge_budget`; `clock` is what `time.monotonic` says, reading by reading. -/
def chargeBudget (e : Evaluator N S) (c : BudgetCall N S) : Evaluator N S × Bool :=
  let sub := subscriptionKey config c
  let subCap := config.llmMaxTokensPerSubscriptionPerHour
  let ns := namespaceKey config c
  let nsCap := config.llmMaxTokensPerNamespacePerHour
  if !fits e.subscriptionBudgets sub c.total subCap (clock e.reads) then
    -- the charge logs the warning
    let warn := namespaceCheck config e c
    ({ e with
        subscriptionBudgets := chargeKey e.subscriptionBudgets sub c.total subCap (clock warn)
        reads := warn + 1 }, false)
  else if !fits e.budgets ns c.total nsCap (clock (namespaceCheck config e c)) then
    let warn := subscriptionCharge config e c
    ({ e with
        budgets := chargeKey e.budgets ns c.total nsCap (clock warn)
        reads := warn + 1 }, false)
  else
    (⟨chargeKey e.budgets ns c.total nsCap (clock (namespaceCharge config e c)),
      chargeKey e.subscriptionBudgets sub c.total subCap (clock (subscriptionCharge config e c)),
      namespaceCharge config e c + ticks ns⟩, true)

/-! ## The books -/

/-- A charge that was accepted. -/
structure Charge (K : Type) where
  key : K
  tokens : ℕ
  chargedAt : ℚ

/-- The evaluator with the charges it has accepted. -/
structure Ledger (N S : Type) where
  evaluator : Evaluator N S
  namespaces : List (Charge N)
  subscriptions : List (Charge S)

def entry (key : Option K) (tokens : ℕ) (now : ℚ) : List (Charge K) := key.toList.map fun k => ⟨k, tokens, now⟩

/-- A call, entered into the books if it is accepted. -/
def record (l : Ledger N S) (c : BudgetCall N S) : Ledger N S :=
  let result := chargeBudget config clock l.evaluator c
  if result.2 then
    ⟨result.1,
      l.namespaces ++ entry (namespaceKey config c) c.total (clock (namespaceCharge config l.evaluator c)),
      l.subscriptions ++
        entry (subscriptionKey config c) c.total (clock (subscriptionCharge config l.evaluator c))⟩
  else { l with evaluator := result.1 }

def start : Ledger N S := ⟨⟨fun _ => none, fun _ => none, 0⟩, [], []⟩

/-- What was accepted for a bucket since a time. -/
def spent (log : List (Charge K)) (key : K) (since : ℚ) : ℕ :=
  ((log.filter fun c => decide (c.key = key ∧ since ≤ c.chargedAt)).map Charge.tokens).sum

/-- What a bucket counts at a time. -/
def used (store : Buckets K) (key : K) (now : ℚ) : ℕ := (currentBucket store key now).tokensUsed

/-- Each bucket counts what was accepted since its window started, and that is within the cap. -/
def Balanced (cap : ℤ) (store : Buckets K) (log : List (Charge K)) : Prop :=
  ∀ key bucket, store key = some bucket →
    bucket.tokensUsed = spent log key bucket.windowStartedAt ∧ (bucket.tokensUsed : ℤ) ≤ cap

/-- A call is right: it is accepted exactly if it fits, a refusal adds to no bucket, and the books are balanced
after it. -/
structure CallRight (l : Ledger N S) (c : BudgetCall N S) : Prop where
  accepted : (chargeBudget config clock l.evaluator c).2 = true ↔
    fits l.evaluator.subscriptionBudgets (subscriptionKey config c) c.total
        config.llmMaxTokensPerSubscriptionPerHour (clock l.evaluator.reads) = true ∧
      fits l.evaluator.budgets (namespaceKey config c) c.total config.llmMaxTokensPerNamespacePerHour
        (clock (namespaceCheck config l.evaluator c)) = true
  refused : (chargeBudget config clock l.evaluator c).2 = false →
    ∀ now, (∀ k < (chargeBudget config clock l.evaluator c).1.reads, clock k ≤ now) →
      (∀ key, used (chargeBudget config clock l.evaluator c).1.subscriptionBudgets key now =
        used l.evaluator.subscriptionBudgets key now) ∧
      ∀ key, used (chargeBudget config clock l.evaluator c).1.budgets key now = used l.evaluator.budgets key now
  subscriptions : Balanced config.llmMaxTokensPerSubscriptionPerHour
    (record config clock l c).evaluator.subscriptionBudgets (record config clock l c).subscriptions
  namespaces : Balanced config.llmMaxTokensPerNamespacePerHour (record config clock l c).evaluator.budgets
    (record config clock l c).namespaces

/-- Every call of a run is right. -/
def BudgetsRight (calls : List (BudgetCall N S)) : Prop :=
  ∀ front c rest, calls = front ++ c :: rest →
    CallRight config clock (Runs.run (record config clock) start front) c

/-- A bucket that refuses a charge is not out of its window at the second look, or the charge is beyond the cap
anyway. -/
def KeepsWindow (store : Buckets K) (key : Option K) (charge : ℕ) (cap : ℤ) (check warn : ℚ) : Prop :=
  fits store key charge cap check = false →
    ∀ k bucket, key = some k → store k = some bucket → bucket.over warn → cap < charge

/-- Neither bucket that may refuse the call rolls over between the check and the warning. -/
def NoRollover (e : Evaluator N S) (c : BudgetCall N S) : Prop :=
  KeepsWindow e.subscriptionBudgets (subscriptionKey config c) c.total config.llmMaxTokensPerSubscriptionPerHour
      (clock e.reads) (clock (namespaceCheck config e c)) ∧
    (fits e.subscriptionBudgets (subscriptionKey config c) c.total config.llmMaxTokensPerSubscriptionPerHour
        (clock e.reads) = true →
      KeepsWindow e.budgets (namespaceKey config c) c.total config.llmMaxTokensPerNamespacePerHour
        (clock (namespaceCheck config e c)) (clock (subscriptionCharge config e c)))

/-! ## One bucket -/

section Bucket

variable {store : Buckets K} {log : List (Charge K)} {key : K} {charge : ℕ} {cap : ℤ} {t now : ℚ}

omit [DecidableEq K] in
/-- The check asks what the bucket counts. -/
theorem wouldFitBucket_iff : wouldFitBucket store key charge cap now = true ↔
    (used store key now + charge : ℤ) ≤ cap := by
  unfold wouldFitBucket used currentBucket
  split
  · simp
  · split <;> simp

omit [DecidableEq K] in
theorem used_of_over {bucket : NamespaceBudget} (h : store key = some bucket) (hover : bucket.over now) :
    used store key now = 0 := by
  simp [used, currentBucket, h, hover]

omit [DecidableEq K] in
theorem used_of_none (h : store key = none) : used store key now = 0 := by
  simp [used, currentBucket, h]

omit [DecidableEq K] in
theorem used_of_not_over {bucket : NamespaceBudget} (h : store key = some bucket) (hover : ¬bucket.over now) :
    used store key now = bucket.tokensUsed := by
  simp [used, currentBucket, h, hover]

theorem used_update_self (store : Buckets K) (key : K) (bucket : NamespaceBudget) (now : ℚ) :
    used (Function.update store key (some bucket)) key now =
      if bucket.over now then 0 else bucket.tokensUsed := by
  have hself : Function.update store key (some bucket) key = some bucket := Function.update_self _ _ _
  split
  · exact used_of_over hself ‹_›
  · exact used_of_not_over hself ‹_›

theorem NamespaceBudget.over_mono {bucket : NamespaceBudget} (h : bucket.over t) (hle : t ≤ now) :
    bucket.over now := by
  unfold NamespaceBudget.over at h ⊢
  linarith

omit [DecidableEq K] in
/-- A bucket counts no more later on. -/
theorem used_antitone (store : Buckets K) (key : K) (hle : t ≤ now) : used store key now ≤ used store key t := by
  cases h : store key with
  | none => rw [used_of_none h, used_of_none h]
  | some bucket =>
      by_cases hover : bucket.over now
      · rw [used_of_over h hover]
        exact Nat.zero_le _
      · have hnot : ¬bucket.over t := fun ht => hover (NamespaceBudget.over_mono ht hle)
        rw [used_of_not_over h hover, used_of_not_over h hnot]

/-- The books of a bucket dictionary that was last used before `now`: besides the balance, every charge is within
the window of the bucket it was accepted for, or an earlier one. -/
structure Accounts (cap : ℤ) (now : ℚ) (store : Buckets K) (log : List (Charge K)) : Prop where
  balanced : Balanced cap store log
  started : ∀ key bucket, store key = some bucket → bucket.windowStartedAt ≤ now
  within : ∀ c ∈ log, ∃ bucket, store c.key = some bucket ∧ c.chargedAt < bucket.windowStartedAt + budgetWindowSeconds

theorem Accounts.later (h : Accounts cap t store log) (hle : t ≤ now) : Accounts cap now store log :=
  ⟨h.balanced, fun key bucket hb => (h.started key bucket hb).trans hle, h.within⟩

theorem spent_of_before (h : ∀ c ∈ log, c.key = key → c.chargedAt < now) : spent log key now = 0 := by
  have hnil : log.filter (fun c => decide (c.key = key ∧ now ≤ c.chargedAt)) = [] := by
    apply List.filter_eq_nil_iff.mpr
    intro c hc
    rw [decide_eq_true_iff]
    rintro ⟨hkey, hle⟩
    exact absurd (h c hc hkey) (not_lt.mpr hle)
  rw [spent, hnil]
  rfl

/-- The bucket that is about to be charged is balanced, and every charge for it is in front of its end. -/
theorem Accounts.current (h : Accounts cap t store log) (hcap : 0 ≤ cap) (hle : t ≤ now) (key : K) :
    (currentBucket store key now).windowStartedAt ≤ now ∧ ((currentBucket store key now).tokensUsed : ℤ) ≤ cap ∧
      (currentBucket store key now).tokensUsed = spent log key (currentBucket store key now).windowStartedAt ∧
      ∀ c ∈ log, c.key = key →
        c.chargedAt < (currentBucket store key now).windowStartedAt + budgetWindowSeconds := by
  have hpositive : (0 : ℚ) < budgetWindowSeconds := by norm_num [budgetWindowSeconds]
  -- a new window has nothing in it
  have hnew : (∀ c ∈ log, c.key = key → c.chargedAt < now) →
      (⟨0, now, false⟩ : NamespaceBudget).windowStartedAt ≤ now ∧
        (((⟨0, now, false⟩ : NamespaceBudget).tokensUsed : ℕ) : ℤ) ≤ cap ∧
        (⟨0, now, false⟩ : NamespaceBudget).tokensUsed = spent log key now ∧
        ∀ c ∈ log, c.key = key → c.chargedAt < now + budgetWindowSeconds := by
    intro hbefore
    refine ⟨le_refl _, by simpa using hcap, (spent_of_before hbefore).symm, fun c hc hkey => ?_⟩
    linarith [hbefore c hc hkey]
  unfold currentBucket
  split
  · rename_i hnone
    refine hnew fun c hc hkey => ?_
    obtain ⟨bucket, hbucket, -⟩ := h.within c hc
    rw [hkey, hnone] at hbucket
    cases hbucket
  · rename_i bucket hsome
    split
    · rename_i hover
      refine hnew fun c hc hkey => ?_
      obtain ⟨bucket', hbucket, hlt⟩ := h.within c hc
      rw [hkey, hsome] at hbucket
      obtain rfl := Option.some.inj hbucket
      unfold NamespaceBudget.over at hover
      linarith
    · obtain ⟨hspent, hwithin⟩ := h.balanced key bucket hsome
      refine ⟨(h.started key bucket hsome).trans hle, hwithin, hspent, fun c hc hkey => ?_⟩
      obtain ⟨bucket', hbucket, hlt⟩ := h.within c hc
      rw [hkey, hsome] at hbucket
      obtain rfl := Option.some.inj hbucket
      exact hlt

theorem spent_append_entry (log : List (Charge K)) (key k : K) (charge : ℕ) (since : ℚ) :
    spent (log ++ [⟨k, charge, now⟩]) key since =
      spent log key since + if k = key ∧ since ≤ now then charge else 0 := by
  rw [spent, List.filter_append, List.map_append, List.sum_append]
  congr 1
  by_cases h : k = key ∧ since ≤ now
  · simp [h]
  · simp [h]

/-- **An accepted charge keeps the books.** -/
theorem Accounts.accept (h : Accounts cap t store log) (hcap : 0 ≤ cap) (hle : t ≤ now)
    (hfits : (used store key now + charge : ℤ) ≤ cap) :
    Accounts cap now (chargeBucket store key charge cap now).1 (log ++ [⟨key, charge, now⟩]) := by
  obtain ⟨hstart, -, hspent, hbefore⟩ := h.current hcap hle key
  have hpositive : (0 : ℚ) < budgetWindowSeconds := by norm_num [budgetWindowSeconds]
  have hstore : (chargeBucket store key charge cap now).1 = Function.update store key
      (some { currentBucket store key now with tokensUsed := used store key now + charge }) := by
    unfold chargeBucket
    rw [if_neg]
    · rfl
    · exact not_lt.mpr (by exact_mod_cast hfits)
  rw [hstore]
  refine ⟨fun k bucket hb => ?_, fun k bucket hb => ?_, fun c hc => ?_⟩
  · rw [spent_append_entry]
    by_cases hk : k = key
    · subst hk
      obtain rfl : _ = bucket := Option.some.inj (by simpa using hb)
      refine ⟨?_, by exact_mod_cast hfits⟩
      rw [if_pos ⟨rfl, hstart⟩, ← hspent]
      rfl
    · rw [Function.update_of_ne hk] at hb
      rw [if_neg fun heq => hk heq.1.symm]
      exact h.balanced k bucket hb
  · by_cases hk : k = key
    · subst hk
      obtain rfl : _ = bucket := Option.some.inj (by simpa using hb)
      exact hstart
    · rw [Function.update_of_ne hk] at hb
      exact (h.started k bucket hb).trans hle
  · rcases List.mem_append.mp hc with hc | hc
    · by_cases hk : c.key = key
      · rw [hk]
        exact ⟨_, Function.update_self _ _ _, hbefore c hc hk⟩
      · rw [Function.update_of_ne hk]
        exact h.within c hc
    · rw [List.mem_singleton.mp hc]
      refine ⟨_, Function.update_self _ _ _, ?_⟩
      show now < (currentBucket store key now).windowStartedAt + budgetWindowSeconds
      cases hb : store key with
      | none =>
          simp only [currentBucket, hb]
          linarith
      | some bucket =>
          by_cases hover : bucket.over now
          · simp only [currentBucket, hb, if_pos hover]
            linarith
          · simp only [currentBucket, hb, if_neg hover]
            unfold NamespaceBudget.over at hover
            linarith [not_le.mp hover]

/-- A refused charge keeps the books, and no bucket counts more. -/
theorem Accounts.refuse (h : Accounts cap t store log) (hcap : 0 ≤ cap) (hle : t ≤ now)
    (hbreach : cap < (used store key now + charge : ℤ)) :
    Accounts cap now (chargeBucket store key charge cap now).1 log ∧
      ∀ k, ∀ later, now ≤ later →
        used (chargeBucket store key charge cap now).1 k later = used store k later := by
  obtain ⟨hstart, hwithin, hspent, hbefore⟩ := h.current hcap hle key
  have hstore : (chargeBucket store key charge cap now).1 = Function.update store key
      (some { currentBucket store key now with warnedInWindow := true }) := by
    unfold chargeBucket
    rw [if_pos]
    exact_mod_cast hbreach
  rw [hstore]
  refine ⟨⟨fun k bucket hb => ?_, fun k bucket hb => ?_, fun c hc => ?_⟩, fun k later hlater => ?_⟩
  · by_cases hk : k = key
    · subst hk
      obtain rfl : _ = bucket := Option.some.inj (by simpa using hb)
      exact ⟨hspent, hwithin⟩
    · rw [Function.update_of_ne hk] at hb
      exact h.balanced k bucket hb
  · by_cases hk : k = key
    · subst hk
      obtain rfl : _ = bucket := Option.some.inj (by simpa using hb)
      exact hstart
    · rw [Function.update_of_ne hk] at hb
      exact (h.started k bucket hb).trans hle
  · by_cases hk : c.key = key
    · rw [hk]
      exact ⟨_, Function.update_self _ _ _, hbefore c hc hk⟩
    · rw [Function.update_of_ne hk]
      exact h.within c hc
  · by_cases hk : k = key
    · subst hk
      rw [used_update_self]
      cases hb : store k with
      | none => simp [used, currentBucket, hb]
      | some bucket =>
          by_cases hover : bucket.over now
          · rw [used_of_over hb (NamespaceBudget.over_mono hover hlater)]
            simp [currentBucket, hb, hover]
          · simp only [currentBucket, hb, if_neg hover]
            by_cases hover' : bucket.over later
            · exact (if_pos hover').trans (used_of_over hb hover').symm
            · exact (if_neg hover').trans (used_of_not_over hb hover').symm
    · simp only [used, currentBucket, Function.update_of_ne hk]

/-! ## A bucket that may not be capped -/

theorem Accounts.acceptKey {key : Option K} {check : ℚ} (h : Accounts cap t store log)
    (hcap : ∀ k, key = some k → 0 ≤ cap) (hle : t ≤ now) (hcheck : check ≤ now)
    (hfits : fits store key charge cap check = true) :
    Accounts cap now (chargeKey store key charge cap now) (log ++ entry key charge now) := by
  cases key with
  | none =>
      show Accounts cap now store (log ++ [])
      rw [List.append_nil]
      exact h.later hle
  | some k =>
      refine h.accept (hcap k rfl) hle ?_
      have hused : (used store k now : ℤ) ≤ used store k check := by exact_mod_cast used_antitone store k hcheck
      have hwould : (used store k check + charge : ℤ) ≤ cap := wouldFitBucket_iff.mp hfits
      omega

theorem Accounts.refuseKey {key : Option K} {check : ℚ} (h : Accounts cap t store log)
    (hcap : ∀ k, key = some k → 0 ≤ cap) (hle : t ≤ now) (hcheck : check ≤ now)
    (hfits : fits store key charge cap check = false) (hkeeps : KeepsWindow store key charge cap check now) :
    Accounts cap now (chargeKey store key charge cap now) log ∧
      ∀ k, ∀ later, now ≤ later → used (chargeKey store key charge cap now) k later = used store k later := by
  cases key with
  | none => cases hfits
  | some k =>
      refine h.refuse (hcap k rfl) hle ?_
      have hwould : cap < (used store k check + charge : ℤ) := by
        rw [← not_le, ← wouldFitBucket_iff]
        exact Bool.eq_false_iff.mp hfits
      cases hb : store k with
      | none =>
          rw [used_of_none hb] at hwould ⊢
          exact hwould
      | some bucket =>
          by_cases hover : bucket.over now
          · rw [used_of_over hb hover]
            simpa using hkeeps hfits k bucket rfl hb hover
          · have hnot : ¬bucket.over check := fun hc => hover (NamespaceBudget.over_mono hc hcheck)
            rw [used_of_not_over hb hnot] at hwould
            rw [used_of_not_over hb hover]
            exact hwould

/-- **A refusal whose window ends is charged.** -/
theorem keepsWindow_of_kept {key : Option K} {check : ℚ} (hbalanced : Balanced cap store log)
    (hcap : ∀ k, key = some k → 0 ≤ cap)
    (hkept : ∀ k, used (chargeKey store key charge cap now) k now = used store k now) :
    KeepsWindow store key charge cap check now := by
  intro hfits k bucket hkey hb hover
  subst hkey
  by_contra hle
  have hpositive : (0 : ℚ) < budgetWindowSeconds := by norm_num [budgetWindowSeconds]
  have hcurrent : currentBucket store k now = ⟨0, now, false⟩ := by simp [currentBucket, hb, hover]
  have hcharged : chargeKey store (some k) charge cap now =
      Function.update store k (some ⟨0 + charge, now, false⟩) := by
    simp only [chargeKey, chargeBucket, hcurrent]
    rw [if_neg (by simpa using hle)]
  have hnew : ¬(⟨0 + charge, now, false⟩ : NamespaceBudget).over now := by
    unfold NamespaceBudget.over
    rw [sub_self]
    exact not_le.mpr hpositive
  have hzero : charge = 0 := by
    have hused := hkept k
    rw [hcharged, used_update_self, if_neg hnew, used_of_over hb hover] at hused
    simpa using hused
  -- a charge of nothing fits
  have hwould : ¬(used store k check + charge : ℤ) ≤ cap := by
    rw [← wouldFitBucket_iff]
    exact Bool.eq_false_iff.mp hfits
  apply hwould
  have hwithin := (hbalanced k bucket hb).2
  by_cases hover' : bucket.over check
  · rw [used_of_over hb hover', hzero]
    simpa using hcap k rfl
  · rw [used_of_not_over hb hover', hzero]
    simpa using hwithin

end Bucket

/-! ## A call -/

section Call

variable {config : SemanticHooksConfig} {clock : ℕ → ℚ} {l : Ledger N S} {c : BudgetCall N S}

omit [DecidableEq N] [DecidableEq S] in
theorem cap_nonneg_of_subscriptionKey {k : S} (h : subscriptionKey config c = some k) :
    0 ≤ config.llmMaxTokensPerSubscriptionPerHour := by
  unfold subscriptionKey at h
  split at h
  · exact le_of_lt ‹_›
  · cases h

omit [DecidableEq N] [DecidableEq S] in
theorem cap_nonneg_of_namespaceKey {k : N} (h : namespaceKey config c = some k) :
    0 ≤ config.llmMaxTokensPerNamespacePerHour := by
  unfold namespaceKey at h
  split at h
  · exact le_of_lt ‹_›
  · cases h

theorem chargeBudget_of_subscription (h : fits l.evaluator.subscriptionBudgets (subscriptionKey config c) c.total
      config.llmMaxTokensPerSubscriptionPerHour (clock l.evaluator.reads) = false) :
    chargeBudget config clock l.evaluator c = ({ l.evaluator with
      subscriptionBudgets := chargeKey l.evaluator.subscriptionBudgets (subscriptionKey config c) c.total
        config.llmMaxTokensPerSubscriptionPerHour (clock (namespaceCheck config l.evaluator c))
      reads := namespaceCheck config l.evaluator c + 1 }, false) := by
  rw [chargeBudget]
  simp only [h, Bool.not_false, if_true]

theorem chargeBudget_of_namespace (h : fits l.evaluator.subscriptionBudgets (subscriptionKey config c) c.total
      config.llmMaxTokensPerSubscriptionPerHour (clock l.evaluator.reads) = true)
    (h' : fits l.evaluator.budgets (namespaceKey config c) c.total config.llmMaxTokensPerNamespacePerHour
      (clock (namespaceCheck config l.evaluator c)) = false) :
    chargeBudget config clock l.evaluator c = ({ l.evaluator with
      budgets := chargeKey l.evaluator.budgets (namespaceKey config c) c.total
        config.llmMaxTokensPerNamespacePerHour (clock (subscriptionCharge config l.evaluator c))
      reads := subscriptionCharge config l.evaluator c + 1 }, false) := by
  rw [chargeBudget]
  simp only [h, h', Bool.not_true, Bool.not_false, Bool.false_eq_true, if_false, if_true]

theorem chargeBudget_of_fits (h : fits l.evaluator.subscriptionBudgets (subscriptionKey config c) c.total
      config.llmMaxTokensPerSubscriptionPerHour (clock l.evaluator.reads) = true)
    (h' : fits l.evaluator.budgets (namespaceKey config c) c.total config.llmMaxTokensPerNamespacePerHour
      (clock (namespaceCheck config l.evaluator c)) = true) :
    chargeBudget config clock l.evaluator c =
      (⟨chargeKey l.evaluator.budgets (namespaceKey config c) c.total config.llmMaxTokensPerNamespacePerHour
          (clock (namespaceCharge config l.evaluator c)),
        chargeKey l.evaluator.subscriptionBudgets (subscriptionKey config c) c.total
          config.llmMaxTokensPerSubscriptionPerHour (clock (subscriptionCharge config l.evaluator c)),
        namespaceCharge config l.evaluator c + ticks (namespaceKey config c)⟩, true) := by
  rw [chargeBudget]
  simp only [h, h', Bool.not_true, Bool.false_eq_true, if_false]

/-- The books of both dictionaries, up to the next reading. -/
structure Books (config : SemanticHooksConfig) (clock : ℕ → ℚ) (l : Ledger N S) : Prop where
  namespaces : Accounts config.llmMaxTokensPerNamespacePerHour (clock l.evaluator.reads) l.evaluator.budgets
    l.namespaces
  subscriptions : Accounts config.llmMaxTokensPerSubscriptionPerHour (clock l.evaluator.reads)
    l.evaluator.subscriptionBudgets l.subscriptions

omit [DecidableEq N] [DecidableEq S] in
theorem namespaceCheck_le : l.evaluator.reads ≤ namespaceCheck config l.evaluator c ∧
    namespaceCheck config l.evaluator c ≤ subscriptionCharge config l.evaluator c ∧
    subscriptionCharge config l.evaluator c ≤ namespaceCharge config l.evaluator c :=
  ⟨Nat.le_add_right _ _, Nat.le_add_right _ _, Nat.le_add_right _ _⟩

/-- **A call without a rollover is right**, and keeps the books. -/
theorem chargeBudget_right (hclock : Monotone clock) (hbooks : Books config clock l)
    (hno : NoRollover config clock l.evaluator c) :
    CallRight config clock l c ∧ Books config clock (record config clock l c) := by
  obtain ⟨hreads₁, hreads₂, hreads₃⟩ := @namespaceCheck_le N S config l c
  by_cases hsub : fits l.evaluator.subscriptionBudgets (subscriptionKey config c) c.total
      config.llmMaxTokensPerSubscriptionPerHour (clock l.evaluator.reads) = true
  · by_cases hns : fits l.evaluator.budgets (namespaceKey config c) c.total
        config.llmMaxTokensPerNamespacePerHour (clock (namespaceCheck config l.evaluator c)) = true
    -- both fit, and both are charged
    · have hresult := chargeBudget_of_fits hsub hns
      have hsubs := hbooks.subscriptions.acceptKey (fun k hk => cap_nonneg_of_subscriptionKey hk)
        (hclock (hreads₁.trans hreads₂)) (hclock (hreads₁.trans hreads₂)) hsub
      have hnss := hbooks.namespaces.acceptKey (fun k hk => cap_nonneg_of_namespaceKey hk)
        (hclock (hreads₁.trans (hreads₂.trans hreads₃))) (hclock (hreads₂.trans hreads₃)) hns
      refine ⟨⟨?_, ?_, ?_, ?_⟩, ?_⟩
      · rw [hresult]
        exact iff_of_true rfl ⟨hsub, hns⟩
      · rw [hresult]
        exact fun h => by cases h
      · simp only [record, hresult, if_true]
        exact hsubs.balanced
      · simp only [record, hresult, if_true]
        exact hnss.balanced
      · simp only [record, hresult, if_true]
        exact ⟨hnss.later (hclock (Nat.le_add_right _ _)),
          hsubs.later (hclock (hreads₃.trans (Nat.le_add_right _ _)))⟩
    -- the namespace refuses
    · rw [Bool.not_eq_true] at hns
      have hresult := chargeBudget_of_namespace hsub hns
      obtain ⟨hkept, hused⟩ := hbooks.namespaces.refuseKey (fun k hk => cap_nonneg_of_namespaceKey hk)
        (hclock (hreads₁.trans hreads₂)) (hclock hreads₂) hns (hno.2 hsub)
      refine ⟨⟨?_, ?_, ?_, ?_⟩, ?_⟩
      · rw [hresult]
        exact iff_of_false Bool.false_ne_true fun h => by rw [hns] at h; cases h.2
      · rw [hresult]
        exact fun _ now hnow => ⟨fun _ => rfl, fun key => hused key now (hnow _ (Nat.lt_succ_self _))⟩
      · simp only [record, hresult, Bool.false_eq_true, if_false]
        exact hbooks.subscriptions.balanced
      · simp only [record, hresult, Bool.false_eq_true, if_false]
        exact hkept.balanced
      · simp only [record, hresult, Bool.false_eq_true, if_false]
        exact ⟨hkept.later (hclock (Nat.le_succ _)),
          hbooks.subscriptions.later (hclock (hreads₁.trans (hreads₂.trans (Nat.le_succ _))))⟩
  -- the subscription refuses
  · rw [Bool.not_eq_true] at hsub
    have hresult := chargeBudget_of_subscription hsub
    obtain ⟨hkept, hused⟩ := hbooks.subscriptions.refuseKey (fun k hk => cap_nonneg_of_subscriptionKey hk)
      (hclock hreads₁) (hclock hreads₁) hsub hno.1
    refine ⟨⟨?_, ?_, ?_, ?_⟩, ?_⟩
    · rw [hresult]
      exact iff_of_false Bool.false_ne_true fun h => by rw [hsub] at h; cases h.1
    · rw [hresult]
      exact fun _ now hnow => ⟨fun key => hused key now (hnow _ (Nat.lt_succ_self _)), fun _ => rfl⟩
    · simp only [record, hresult, Bool.false_eq_true, if_false]
      exact hkept.balanced
    · simp only [record, hresult, Bool.false_eq_true, if_false]
      exact hbooks.namespaces.balanced
    · simp only [record, hresult, Bool.false_eq_true, if_false]
      exact ⟨hbooks.namespaces.later (hclock (hreads₁.trans (Nat.le_succ _))),
        hkept.later (hclock (Nat.le_succ _))⟩

/-- **A right call had no rollover.** -/
theorem noRollover_of_right (hclock : Monotone clock)
    (hsubs : Balanced config.llmMaxTokensPerSubscriptionPerHour l.evaluator.subscriptionBudgets l.subscriptions)
    (hnss : Balanced config.llmMaxTokensPerNamespacePerHour l.evaluator.budgets l.namespaces)
    (hright : CallRight config clock l c) : NoRollover config clock l.evaluator c := by
  have hrefused := hright.refused
  constructor
  · intro hsub
    rw [chargeBudget_of_subscription hsub] at hrefused
    obtain ⟨hkept, -⟩ := hrefused rfl _ fun k hk => hclock (Nat.le_of_lt_succ hk)
    exact keepsWindow_of_kept hsubs (fun k hk => cap_nonneg_of_subscriptionKey hk) hkept hsub
  · intro hsub hns
    rw [chargeBudget_of_namespace hsub hns] at hrefused
    obtain ⟨-, hkept⟩ := hrefused rfl _ fun k hk => hclock (Nat.le_of_lt_succ hk)
    exact keepsWindow_of_kept hnss (fun k hk => cap_nonneg_of_namespaceKey hk) hkept hns

end Call

/-! ## Runs -/

section Runs

variable {config : SemanticHooksConfig} {clock : ℕ → ℚ}

theorem books_start : Books config clock (start : Ledger N S) := by
  constructor
  · exact ⟨fun _ _ h => (nomatch h), fun _ _ h => (nomatch h), fun _ h => (nomatch h)⟩
  · exact ⟨fun _ _ h => (nomatch h), fun _ _ h => (nomatch h), fun _ h => (nomatch h)⟩

/-- **The exact condition**: the calls of a run are right if and only if, in each of them, no window that refuses
the charge ends before the second look, unless the charge is beyond the cap anyway. -/
theorem budgetsRight_iff (config : SemanticHooksConfig) {clock : ℕ → ℚ} (hclock : Monotone clock)
    (calls : List (BudgetCall N S)) : BudgetsRight config clock calls ↔
      ∀ front c rest, calls = front ++ c :: rest →
        NoRollover config clock (Runs.run (record config clock) start front).evaluator c := by
  constructor
  · intro h front c rest heq
    have hbalanced : Balanced config.llmMaxTokensPerSubscriptionPerHour
          (Runs.run (record config clock) start front).evaluator.subscriptionBudgets
          (Runs.run (record config clock) start front).subscriptions ∧
        Balanced config.llmMaxTokensPerNamespacePerHour
          (Runs.run (record config clock) start front).evaluator.budgets
          (Runs.run (record config clock) start front).namespaces := by
      cases front using List.reverseRecOn with
      | nil =>
          have hbooks : Books config clock (start : Ledger N S) := books_start
          exact ⟨hbooks.subscriptions.balanced, hbooks.namespaces.balanced⟩
      | append_singleton front c' =>
          have hlast := h front c' (c :: rest) (by rw [heq, List.append_assoc]; rfl)
          rw [Runs.run_append]
          exact ⟨hlast.subscriptions, hlast.namespaces⟩
    exact noRollover_of_right hclock hbalanced.1 hbalanced.2 (h front c rest heq)
  · intro h front c rest heq
    have hguarded : Runs.Guarded (record config clock) (fun l c => NoRollover config clock l.evaluator c) start
        calls := Runs.guarded_iff_split.mpr h
    rw [heq, Runs.guarded_append] at hguarded
    have hstep : ∀ (l : Ledger N S) (c : BudgetCall N S), Books config clock l →
        NoRollover config clock l.evaluator c → Books config clock (record config clock l c) :=
      fun l c hbooks hno => (chargeBudget_right hclock hbooks hno).2
    have hbooks := Runs.run_invariant hstep books_start hguarded.1
    exact (chargeBudget_right hclock hbooks hguarded.2.1).1

/-- A cap of ten tokens for a namespace, and no cap for subscriptions. -/
def tenTokens : SemanticHooksConfig := ⟨10, 0⟩

/-- The clock of a call that is refused just before the hour and warned of at the hour. -/
def hourClock (k : ℕ) : ℚ := if k < 2 then 0 else if k = 2 then 3599 else 3600

theorem monotone_hourClock : Monotone hourClock := by
  intro j k hle
  unfold hourClock
  split_ifs <;> first | omega | norm_num

def tenCall : BudgetCall ℕ ℕ := ⟨0, 4, 6, none⟩

/-- Two calls in one window, and one when it is over. -/
def secondWindow (k : ℕ) : ℚ := if k < 2 then 0 else if k < 4 then 600 else 3600

theorem monotone_secondWindow : Monotone secondWindow := by
  intro j k hle
  unfold secondWindow
  split_ifs <;> first | omega | norm_num

/-- A call is accepted, the next one is refused in the same window, and the third is accepted in a new one. -/
theorem budgetsRight_secondWindow : BudgetsRight tenTokens secondWindow [tenCall, tenCall, tenCall] := by
  refine (budgetsRight_iff tenTokens monotone_secondWindow [tenCall, tenCall, tenCall]).mpr
    fun front c rest heq => ?_
  have hsub : ∀ (store : Buckets ℕ) (check warn : ℚ), KeepsWindow store
      (subscriptionKey tenTokens tenCall) tenCall.total 0 check warn := fun _ _ _ hfits => by cases hfits
  match front with
  | [] =>
      obtain rfl : tenCall = c := (List.cons.inj heq).1
      exact ⟨hsub _ _ _, fun _ hfits => absurd hfits (by decide +kernel)⟩
  | [_] =>
      obtain ⟨rfl, hrest⟩ := List.cons.inj heq
      obtain rfl : tenCall = c := (List.cons.inj hrest).1
      refine ⟨hsub _ _ _, fun _ _ k bucket hkey hbucket hover => ?_⟩
      -- the window is ten minutes old at both looks
      have hold : (((Runs.run (record tenTokens secondWindow) start [tenCall]).evaluator.budgets
          tenCall.namespaceId).all fun b => !decide (b.over 600)) = true := by decide +kernel
      cases hkey
      rw [hbucket] at hold
      have hover : bucket.over 600 := hover
      simp [hover] at hold
  | [_, _] =>
      obtain ⟨rfl, hsecond⟩ := List.cons.inj heq
      obtain ⟨rfl, hthird⟩ := List.cons.inj hsecond
      obtain rfl : tenCall = c := (List.cons.inj hthird).1
      exact ⟨hsub _ _ _, fun _ hfits => absurd hfits (by decide +kernel)⟩
  | _ :: _ :: _ :: front => simp at heq

/-- The second call is refused at 3599 seconds and charged at 3600. -/
theorem rollover_diverges : Monotone hourClock ∧ ¬BudgetsRight tenTokens hourClock [tenCall, tenCall] := by
  refine ⟨monotone_hourClock, fun h => ?_⟩
  have hright := (h [tenCall] tenCall [] rfl).refused
  have hnow : ∀ k < (chargeBudget tenTokens hourClock
      (Runs.run (record tenTokens hourClock) start [tenCall]).evaluator tenCall).1.reads, hourClock k ≤ 3600 := by
    intro k _
    unfold hourClock
    split_ifs <;> norm_num
  obtain ⟨-, hused⟩ := hright (by decide +kernel) 3600 hnow
  exact absurd (hused 0) (by decide +kernel)

end Runs

end EvaluatorBudget

end Khora
