import Khora.Lib.Pages
import Khora.Lib.SortBy
import Khora.Lib.Table
import Khora.Pending.Submission
import Mathlib.Data.Int.Order.Basic

/-!
# Claiming orphaned documents

`claim_orphaned_documents` of the SurrealDB backend reads the stale PENDING and the stale PROCESSING documents
with one limited statement each, merges the answers, and stamps what it takes. The sweep claims until a claim
is short, namespace by namespace.

* `claim_exact` — a claim takes the oldest eligible documents, and stamps them.
* `orphanRows_nodup` — no document comes twice, whatever happens between the statements.
* `enqueueOrphaned_exact` — the sweep ends, and every eligible document is queued once.
* `negativeAge_diverges` — a stamp that is stale when it is set.
-/

namespace Khora

namespace OrphanSweep

variable {Id N : Type}

/-! ## The claim -/

/-- A row of `document`. -/
structure Document (Id N : Type) where
  id : Id
  namespaceId : N
  status : DocumentStatus
  updatedAt : ℤ
deriving DecidableEq

/-- The table; record ids are unique. -/
abbrev Documents (Id N : Type) := Table Id (Document Id N) Document.id

/-- `ORDER BY updated_at`; the order of ties is the store's. -/
structure OrderBy (Id N : Type) where
  sort : List (Document Id N) → List (Document Id N)
  perm : ∀ rows, (sort rows).Perm rows
  sorted : ∀ rows, (sort rows).Pairwise fun a b => a.updatedAt ≤ b.updatedAt

structure Cutoffs where
  pendingBefore : ℤ
  processingBefore : ℤ

/-- The settings of the sweep, none of them bounded. -/
structure PipelineSettings where
  pendingProcessorGracePeriodMinutes : ℤ
  pendingRecoveryGracePeriodMinutes : Option ℤ
  pendingProcessorOrphanStaleAfterSeconds : ℤ

inductive PyErr where
  | overflowError
deriving DecidableEq

/-- The first microsecond after the year 9999, counted from the year 1. -/
def datetimeEnd : ℤ := 315537897600000000

/-- `now - timedelta(…)`, in microseconds. -/
def minusAge (now age : ℤ) : Except PyErr ℤ :=
  if 0 ≤ now - age ∧ now - age < datetimeEnd then .ok (now - age) else .error .overflowError

def PipelineSettings.cutoffs (settings : PipelineSettings) (now : ℤ) : Except PyErr Cutoffs := do
  let graceMinutes := settings.pendingRecoveryGracePeriodMinutes.getD settings.pendingProcessorGracePeriodMinutes
  let pendingBefore ← minusAge now (graceMinutes * 60000000)
  let processingBefore ← minusAge now (settings.pendingProcessorOrphanStaleAfterSeconds * 1000000)
  .ok ⟨pendingBefore, processingBefore⟩

variable [DecidableEq Id] [LinearOrder N]

local instance lawfulNamespace : LawfulBEq N := inferInstance

/-- `namespace_id = $ns AND status = $status AND updated_at < $cutoff` -/
def legKeeps (ns : N) (status : DocumentStatus) (cutoff : ℤ) (d : Document Id N) : Bool :=
  decide (d.namespaceId = ns ∧ d.status = status ∧ d.updatedAt < cutoff)

/-- One statement. -/
def leg (order : OrderBy Id N) (ns : N) (status : DocumentStatus) (cutoff : ℤ) (limit : ℕ)
    (rows : List (Document Id N)) : List (Document Id N) :=
  (order.sort (rows.filter (legKeeps ns status cutoff))).take limit

/-- `by_id.setdefault(str(row["id"]), row)`, row by row. -/
def byId (rows : List (Document Id N)) : List (Document Id N) :=
  rows.foldl (fun kept r => if r.id ∈ kept.map Document.id then kept else kept ++ [r]) []

/-- The rows of a claim, with the tables that the two statements see. -/
def orphanRows (order : OrderBy Id N) (ns : N) (cutoffs : Cutoffs) (limit : ℕ)
    (rows rows' : List (Document Id N)) : List (Document Id N) :=
  ((byId (leg order ns .pending cutoffs.pendingBefore limit rows ++
    leg order ns .processing cutoffs.processingBefore limit rows')).mergeSort
      fun a b => decide (a.updatedAt ≤ b.updatedAt)).take limit

/-- `SET status = $status, updated_at = $updated_at` -/
def stamped (now : ℤ) (d : Document Id N) : Document Id N :=
  { d with status := .processing, updatedAt := now }

/-- A document as the claim returns it. -/
structure Claimed (Id N : Type) where
  document : Document Id N
  orphanPriorStatus : DocumentStatus
deriving DecidableEq

/-- `claim_orphaned_documents`, without another writer. -/
def claimOrphanedDocuments (order : OrderBy Id N) (ns : N) (cutoffs : Cutoffs) (limit : ℕ) (now : ℤ)
    (documents : Documents Id N) : Documents Id N × List (Claimed Id N) :=
  let docs := orphanRows order ns cutoffs limit documents.rows documents.rows
  (documents.update (fun d => decide (d.id ∈ docs.map Document.id)) (stamped now) fun _ => rfl,
    docs.map fun d => ⟨stamped now d, d.status⟩)

/-- What a claim may take. -/
def eligible (ns : N) (cutoffs : Cutoffs) (d : Document Id N) : Bool :=
  legKeeps ns .pending cutoffs.pendingBefore d || legKeeps ns .processing cutoffs.processingBefore d

def eligibleRows (ns : N) (cutoffs : Cutoffs) (documents : Documents Id N) : List (Document Id N) :=
  documents.rows.filter (eligible ns cutoffs)

/-! ## The sweep -/

/-- The table, the queue of the processor, and the number of claims. -/
structure Sweep (Id N : Type) where
  documents : Documents Id N
  queue : List (Id × N)
  claims : ℕ

def claimSize : ℕ := 100

def namespacePage : ℕ := 100

variable (order : OrderBy Id N) (cutoffs : Cutoffs) (clock : ℕ → ℤ)

/-- One claim of the sweep, and its documents in the queue; `clock` is what `datetime.now` says. -/
def claimOnce (ns : N) (s : Sweep Id N) : Sweep Id N × ℕ :=
  let claim := claimOrphanedDocuments order ns cutoffs claimSize (clock s.claims) s.documents
  (⟨claim.1, s.queue ++ claim.2.map fun c => (c.document.id, c.document.namespaceId), s.claims + 1⟩,
    claim.2.length)

/-- The claims of a namespace, until one is short. -/
def sweepNamespace : ℕ → Sweep Id N → N → Option (Sweep Id N)
  | 0, _, _ => none
  | fuel + 1, s, ns =>
      let claim := claimOnce order cutoffs clock ns s
      if claim.2 = 0 then some claim.1
      else if claim.2 < claimSize then some claim.1
      else sweepNamespace fuel claim.1 ns

/-- The namespaces of `list_namespaces`, page by page. -/
def sweepPages (claims : ℕ) (namespaces : List N) : ℕ → ℕ → Sweep Id N → Option (Sweep Id N)
  | 0, _, _ => none
  | fuel + 1, offset, s =>
      let page := Pages.page namespacePage namespaces offset
      if page = [] then some s
      else do
        let s ← page.foldlM (sweepNamespace order cutoffs clock claims) s
        if page.length < namespacePage then some s
        else sweepPages claims namespaces fuel (offset + page.length) s

structure Namespace (N : Type) where
  id : N
  isActive : Bool

/-- The active namespaces, `ORDER BY id ASC`. -/
def activeNamespaces (namespaces : Table N (Namespace N) Namespace.id) : List N :=
  ((namespaces.rows.filter Namespace.isActive).map Namespace.id).mergeSort fun a b => decide (a ≤ b)

/-- `_enqueue_orphaned_pending_docs` at `now`, with fuel for the loops. -/
def enqueueOrphanedPendingDocs (settings : PipelineSettings) (now : ℤ) (fuel : ℕ)
    (namespaces : Table N (Namespace N) Namespace.id) (documents : Documents Id N) :
    Except PyErr (Option (Sweep Id N)) := do
  let cutoffs ← settings.cutoffs now
  .ok (sweepPages order cutoffs clock fuel (activeNamespaces namespaces) fuel 0 ⟨documents, [], 0⟩)

/-- The documents that the sweep is for. -/
def orphaned (namespaces : Table N (Namespace N) Namespace.id) (documents : Documents Id N) :
    List (Document Id N) :=
  documents.rows.filter fun d =>
    decide (d.namespaceId ∈ activeNamespaces namespaces) && eligible d.namespaceId cutoffs d

/-! ## Merging the statements -/

variable {order} {cutoffs} {clock} {ns : N} {limit : ℕ}

omit [LinearOrder N] in
theorem byId_concat (rows : List (Document Id N)) (r : Document Id N) :
    byId (rows ++ [r]) = if r.id ∈ (byId rows).map Document.id then byId rows else byId rows ++ [r] := by
  rw [byId, List.foldl_append]
  rfl

omit [LinearOrder N] in
theorem nodup_byId (rows : List (Document Id N)) : ((byId rows).map Document.id).Nodup := by
  induction rows using List.reverseRecOn with
  | nil => exact List.nodup_nil
  | append_singleton rows r ih =>
      rw [byId_concat]
      split
      · exact ih
      · rename_i hnew
        rw [List.map_append, List.nodup_append]
        refine ⟨ih, List.nodup_singleton _, ?_⟩
        rintro id hid id' hid' rfl
        rw [List.map_singleton, List.mem_singleton] at hid'
        exact hnew (hid' ▸ hid)

omit [LinearOrder N] in
/-- Rows of different ids are all kept. -/
theorem byId_eq_self {rows : List (Document Id N)} (h : (rows.map Document.id).Nodup) : byId rows = rows := by
  induction rows using List.reverseRecOn with
  | nil => rfl
  | append_singleton rows r ih =>
      rw [List.map_append, List.nodup_append] at h
      rw [byId_concat, ih h.1, if_neg]
      intro hmem
      exact h.2.2 r.id hmem r.id (by simp) rfl

/-- **No document comes twice**, whatever tables the two statements see. -/
theorem orphanRows_nodup (order : OrderBy Id N) (ns : N) (cutoffs : Cutoffs) (limit : ℕ)
    (rows rows' : List (Document Id N)) : ((orphanRows order ns cutoffs limit rows rows').map Document.id).Nodup := by
  have hsorted := (List.mergeSort_perm (byId (leg order ns .pending cutoffs.pendingBefore limit rows ++
    leg order ns .processing cutoffs.processingBefore limit rows'))
      fun a b => decide (a.updatedAt ≤ b.updatedAt)).map Document.id
  exact (hsorted.nodup_iff.mpr (nodup_byId _)).sublist ((List.take_sublist _ _).map _)

omit [DecidableEq Id] in
theorem leg_least (documents : Documents Id N) (status : DocumentStatus) (cutoff : ℤ) :
    SortBy.Least Document.updatedAt limit (documents.rows.filter (legKeeps ns status cutoff))
      (leg order ns status cutoff limit documents.rows) :=
  SortBy.least_take (documents.nodup.of_map.filter _) (order.perm _) (order.sorted _) limit

omit [DecidableEq Id] in
theorem mem_leg {documents : Documents Id N} {status : DocumentStatus} {cutoff : ℤ} {d : Document Id N}
    (h : d ∈ leg order ns status cutoff limit documents.rows) : d ∈ documents.rows ∧
      d.namespaceId = ns ∧ d.status = status ∧ d.updatedAt < cutoff := by
  obtain ⟨hmem, hkeeps⟩ := List.mem_filter.mp ((leg_least documents status cutoff).subset h)
  exact ⟨hmem, by simpa [legKeeps] using hkeeps⟩

/-- **A claim takes the oldest** of the eligible documents. -/
theorem orphanRows_least (documents : Documents Id N) :
    SortBy.Least Document.updatedAt limit (eligibleRows ns cutoffs documents)
      (orphanRows order ns cutoffs limit documents.rows documents.rows) := by
  have hn := documents.nodup.of_map
  -- at one instant a row is in one leg only
  have hdisjoint : ∀ d, d ∈ leg order ns .pending cutoffs.pendingBefore limit documents.rows →
      d ∉ leg order ns .processing cutoffs.processingBefore limit documents.rows := by
    intro d hd hd'
    have hstatus := (mem_leg hd).2.2.1
    rw [(mem_leg hd').2.2.1] at hstatus
    cases hstatus
  have hlegs : (leg order ns .pending cutoffs.pendingBefore limit documents.rows ++
      leg order ns .processing cutoffs.processingBefore limit documents.rows).Nodup := by
    refine List.nodup_append.mpr ⟨(leg_least documents _ _).nodup, (leg_least documents _ _).nodup, ?_⟩
    rintro d hd d' hd' rfl
    exact hdisjoint d hd hd'
  have hids : ((leg order ns .pending cutoffs.pendingBefore limit documents.rows ++
      leg order ns .processing cutoffs.processingBefore limit documents.rows).map Document.id).Nodup := by
    refine hlegs.map_on fun d hd d' hd' heq => ?_
    have hrows : ∀ e ∈ leg order ns .pending cutoffs.pendingBefore limit documents.rows ++
        leg order ns .processing cutoffs.processingBefore limit documents.rows, e ∈ documents.rows := by
      intro e he
      rcases List.mem_append.mp he with he | he
      · exact (mem_leg he).1
      · exact (mem_leg he).1
    exact List.inj_on_of_nodup_map documents.nodup (hrows d hd) (hrows d' hd') heq
  have hmerged : SortBy.Least Document.updatedAt limit
      (leg order ns .pending cutoffs.pendingBefore limit documents.rows ++
        leg order ns .processing cutoffs.processingBefore limit documents.rows)
      (orphanRows order ns cutoffs limit documents.rows documents.rows) := by
    rw [orphanRows, byId_eq_self hids]
    exact SortBy.least_take hlegs (List.mergeSort_perm _ _) (SortBy.pairwise_mergeSort _ _) limit
  refine ((leg_least documents _ _).append (leg_least documents _ _) hmerged).of_perm ?_
  refine (List.perm_ext_iff_of_nodup ?_ (hn.filter _)).mpr fun d => ?_
  · refine List.nodup_append.mpr ⟨hn.filter _, hn.filter _, ?_⟩
    rintro d hd d' hd' rfl
    have hstatus := (List.mem_filter.mp hd).2
    have hstatus' := (List.mem_filter.mp hd').2
    simp only [legKeeps, decide_eq_true_eq] at hstatus hstatus'
    rw [hstatus.2.1] at hstatus'
    cases hstatus'.2.1
  · rw [List.mem_append, List.mem_filter, List.mem_filter, List.mem_filter, eligible, Bool.or_eq_true]
    exact and_or_left.symm

/-- The rows that a claim takes. -/
abbrev claimedRows (order : OrderBy Id N) (ns : N) (cutoffs : Cutoffs) (limit : ℕ) (documents : Documents Id N) :
    List (Document Id N) := orphanRows order ns cutoffs limit documents.rows documents.rows

theorem mem_claimedRows {documents : Documents Id N} {d : Document Id N}
    (h : d ∈ claimedRows order ns cutoffs limit documents) :
    d ∈ documents.rows ∧ eligible ns cutoffs d = true :=
  List.mem_filter.mp ((orphanRows_least documents).subset h)

/-- **The claim stamps what it takes**, and nothing else. -/
theorem rows_claim (documents : Documents Id N) (now : ℤ) :
    (claimOrphanedDocuments order ns cutoffs limit now documents).1.rows = documents.rows.map fun d =>
      if d ∈ claimedRows order ns cutoffs limit documents then stamped now d else d := by
  apply List.map_congr_left
  intro d hd
  have hiff : d.id ∈ (claimedRows order ns cutoffs limit documents).map Document.id ↔
      d ∈ claimedRows order ns cutoffs limit documents := by
    refine ⟨fun hid => ?_, fun hmem => List.mem_map_of_mem hmem⟩
    obtain ⟨d', hd', heq⟩ := List.mem_map.mp hid
    rw [← List.inj_on_of_nodup_map documents.nodup (mem_claimedRows hd').1 hd heq]
    exact hd'
  by_cases hmem : d ∈ claimedRows order ns cutoffs limit documents
  · rw [if_pos (decide_eq_true (hiff.mpr hmem)), if_pos hmem]
  · rw [if_neg fun h => hmem (hiff.mp (of_decide_eq_true h)), if_neg hmem]

/-- The claim is exact: it returns the oldest eligible documents, stamped, with the status they had, and
stamps just these. -/
structure ClaimsOldest (ns : N) (cutoffs : Cutoffs) (limit : ℕ) (now : ℤ) (documents : Documents Id N)
    (taken : List (Document Id N)) (claim : Documents Id N × List (Claimed Id N)) : Prop where
  oldest : SortBy.Least Document.updatedAt limit (eligibleRows ns cutoffs documents) taken
  returned : claim.2 = taken.map fun d => ⟨stamped now d, d.status⟩
  stored : claim.1.rows = documents.rows.map fun d => if d ∈ taken then stamped now d else d

theorem claim_exact (order : OrderBy Id N) (ns : N) (cutoffs : Cutoffs) (limit : ℕ) (now : ℤ)
    (documents : Documents Id N) : ClaimsOldest ns cutoffs limit now documents
      (claimedRows order ns cutoffs limit documents)
      (claimOrphanedDocuments order ns cutoffs limit now documents) :=
  ⟨orphanRows_least documents, rfl, rows_claim documents now⟩

/-! ## One claim of the sweep -/

omit [DecidableEq Id] in
theorem namespaceId_of_eligible {d : Document Id N} (h : eligible ns cutoffs d = true) : d.namespaceId = ns := by
  simp only [eligible, legKeeps, Bool.or_eq_true, decide_eq_true_eq] at h
  exact h.elim And.left And.left

omit [DecidableEq Id] in
/-- A stamp that is not stale makes a document ineligible, in every namespace. -/
theorem eligible_stamped {now : ℤ} (hnow : cutoffs.processingBefore ≤ now) (ns : N) (d : Document Id N) :
    eligible ns cutoffs (stamped now d) = false := by
  rw [Bool.eq_false_iff]
  intro h
  rcases Bool.or_eq_true_iff.mp h with h | h
  · cases (of_decide_eq_true h).2.1
  · exact absurd (of_decide_eq_true h).2.2 (not_lt.mpr hnow)

/-- What a claim leaves to be claimed. -/
theorem eligibleRows_claim {documents : Documents Id N} {now : ℤ} (hnow : cutoffs.processingBefore ≤ now) (ns' : N) :
    eligibleRows ns' cutoffs (claimOrphanedDocuments order ns cutoffs limit now documents).1 =
      (eligibleRows ns' cutoffs documents).filter
        fun d => decide (d ∉ claimedRows order ns cutoffs limit documents) := by
  rw [eligibleRows, rows_claim, List.filter_map, eligibleRows, List.filter_filter]
  have hkeeps : documents.rows.filter (eligible ns' cutoffs ∘ fun d =>
      if d ∈ claimedRows order ns cutoffs limit documents then stamped now d else d) =
      documents.rows.filter fun d => decide (d ∉ claimedRows order ns cutoffs limit documents) &&
        eligible ns' cutoffs d := by
    apply List.filter_congr
    intro d _
    rw [Function.comp_apply]
    by_cases h : d ∈ claimedRows order ns cutoffs limit documents
    · rw [if_pos h, eligible_stamped hnow, decide_eq_false (not_not.mpr h), Bool.false_and]
    · rw [if_neg h, decide_eq_true h, Bool.true_and]
  rw [hkeeps]
  refine (List.map_congr_left fun d hd => ?_).trans (List.map_id _)
  have hnot := (Bool.and_eq_true_iff.mp (List.mem_filter.mp hd).2).1
  exact if_neg (of_decide_eq_true hnot)

/-- Another namespace is left alone. -/
theorem eligibleRows_claim_of_ne {documents : Documents Id N} {now : ℤ} (hnow : cutoffs.processingBefore ≤ now)
    {ns' : N} (hne : ns' ≠ ns) :
    eligibleRows ns' cutoffs (claimOrphanedDocuments order ns cutoffs limit now documents).1 =
      eligibleRows ns' cutoffs documents := by
  rw [eligibleRows_claim hnow, List.filter_eq_self]
  intro d hd
  refine decide_eq_true fun hclaimed => hne ?_
  exact (namespaceId_of_eligible (List.mem_filter.mp hd).2).symm.trans
    (namespaceId_of_eligible (mem_claimedRows hclaimed).2)

/-- What is claimed and what is left are what was there. -/
theorem perm_claim (documents : Documents Id N) {now : ℤ} (hnow : cutoffs.processingBefore ≤ now) :
    (claimedRows order ns cutoffs limit documents ++
      eligibleRows ns cutoffs (claimOrphanedDocuments order ns cutoffs limit now documents).1).Perm
      (eligibleRows ns cutoffs documents) := by
  have hleast := @orphanRows_least Id N _ _ order cutoffs ns limit documents
  have hn : (eligibleRows ns cutoffs documents).Nodup := documents.nodup.of_map.filter _
  rw [eligibleRows_claim hnow]
  refine (List.perm_ext_iff_of_nodup ?_ hn).mpr fun d => ?_
  · refine List.nodup_append.mpr ⟨hleast.nodup, hn.filter _, ?_⟩
    rintro d hd d' hd' rfl
    exact of_decide_eq_true (List.mem_filter.mp hd').2 hd
  · rw [List.mem_append, List.mem_filter, decide_eq_true_iff]
    constructor
    · rintro (hd | ⟨hd, -⟩)
      · exact hleast.subset hd
      · exact hd
    · intro hd
      by_cases hmem : d ∈ claimedRows order ns cutoffs limit documents
      · exact Or.inl hmem
      · exact Or.inr ⟨hd, hmem⟩

/-! ## The whole sweep -/

/-- The entry of a document in the queue. -/
def item (d : Document Id N) : Id × N := (d.id, d.namespaceId)

/-- What a part of the sweep has queued. -/
structure Queued (s s' : Sweep Id N) (taken : List (Document Id N)) : Prop where
  queue : s'.queue = s.queue ++ taken.map item
  size : s'.documents.rows.length = s.documents.rows.length

omit [DecidableEq Id] [LinearOrder N] in
theorem Queued.trans {s s' s'' : Sweep Id N} {taken taken' : List (Document Id N)} (h : Queued s s' taken)
    (h' : Queued s' s'' taken') : Queued s s'' (taken ++ taken') :=
  ⟨by rw [h'.queue, h.queue, List.map_append, List.append_assoc], h'.size.trans h.size⟩

theorem claimOnce_queued (order : OrderBy Id N) (cutoffs : Cutoffs) (clock : ℕ → ℤ) (ns : N) (s : Sweep Id N) :
    Queued s (claimOnce order cutoffs clock ns s).1 (claimedRows order ns cutoffs claimSize s.documents) := by
  constructor
  · show s.queue ++ ((claimedRows order ns cutoffs claimSize s.documents).map fun d =>
      (⟨stamped (clock s.claims) d, d.status⟩ : Claimed Id N)).map _ = _
    rw [List.map_map]
    rfl
  · exact List.length_map _

/-- **A namespace is swept**: its eligible documents are queued, and the others stay. -/
theorem sweepNamespace_spec (hclock : ∀ k, cutoffs.processingBefore ≤ clock k) {fuel : ℕ} {s : Sweep Id N}
    (hfuel : (eligibleRows ns cutoffs s.documents).length < fuel) :
    ∃ s' taken, sweepNamespace order cutoffs clock fuel s ns = some s' ∧ Queued s s' taken ∧
      taken.Perm (eligibleRows ns cutoffs s.documents) ∧
      ∀ ns' ≠ ns, eligibleRows ns' cutoffs s'.documents = eligibleRows ns' cutoffs s.documents := by
  induction fuel generalizing s with
  | zero => exact absurd hfuel (Nat.not_lt_zero _)
  | succ fuel ih =>
      have hqueued := claimOnce_queued order cutoffs clock ns s
      have hperm : (claimedRows order ns cutoffs claimSize s.documents ++
          eligibleRows ns cutoffs (claimOnce order cutoffs clock ns s).1.documents).Perm
            (eligibleRows ns cutoffs s.documents) := perm_claim s.documents (hclock s.claims)
      have hothers : ∀ ns' ≠ ns, eligibleRows ns' cutoffs (claimOnce order cutoffs clock ns s).1.documents =
          eligibleRows ns' cutoffs s.documents := fun ns' hne => eligibleRows_claim_of_ne (hclock s.claims) hne
      have hcount : (claimOnce order cutoffs clock ns s).2 =
          (claimedRows order ns cutoffs claimSize s.documents).length := List.length_map _
      have hleast : (claimedRows order ns cutoffs claimSize s.documents).length =
          min claimSize (eligibleRows ns cutoffs s.documents).length := (orphanRows_least s.documents).length
      have hlength := hperm.length_eq
      rw [List.length_append] at hlength
      by_cases hshort : (claimOnce order cutoffs clock ns s).2 < claimSize
      -- a short claim has left nothing
      · have hnil : eligibleRows ns cutoffs (claimOnce order cutoffs clock ns s).1.documents = [] := by
          rw [← List.length_eq_zero_iff]
          omega
        rw [hnil, List.append_nil] at hperm
        refine ⟨_, _, ?_, hqueued, hperm, hothers⟩
        unfold sweepNamespace
        simp only [if_pos hshort, ite_self]
      · have hpos : 0 < claimSize := by decide
        have hlt : (eligibleRows ns cutoffs (claimOnce order cutoffs clock ns s).1.documents).length < fuel := by
          omega
        obtain ⟨s', taken, hrun, hqueued', hperm', hothers'⟩ := ih hlt
        refine ⟨s', claimedRows order ns cutoffs claimSize s.documents ++ taken, ?_, hqueued.trans hqueued',
          (hperm'.append_left _).trans hperm, fun ns' hne => (hothers' ns' hne).trans (hothers ns' hne)⟩
        have hne : (claimOnce order cutoffs clock ns s).2 ≠ 0 := by omega
        unfold sweepNamespace
        simp only [if_neg hshort, if_neg hne]
        exact hrun

theorem foldlM_sweepNamespace (hclock : ∀ k, cutoffs.processingBefore ≤ clock k) {fuel : ℕ} {namespaces : List N}
    (hn : namespaces.Nodup) {s : Sweep Id N} (hfuel : s.documents.rows.length < fuel) :
    ∃ s' taken, namespaces.foldlM (sweepNamespace order cutoffs clock fuel) s = some s' ∧ Queued s s' taken ∧
      taken.Perm (namespaces.flatMap fun ns => eligibleRows ns cutoffs s.documents) := by
  induction namespaces generalizing s with
  | nil => exact ⟨s, [], rfl, ⟨(List.append_nil _).symm, rfl⟩, List.Perm.refl _⟩
  | cons ns namespaces ih =>
      obtain ⟨hnew, hn⟩ := List.nodup_cons.mp hn
      have hlt : (eligibleRows ns cutoffs s.documents).length < fuel :=
        (List.length_filter_le _ _).trans_lt hfuel
      obtain ⟨s₁, taken, hrun, hqueued, hperm, hothers⟩ :=
        @sweepNamespace_spec Id N _ _ order cutoffs clock ns hclock fuel s hlt
      obtain ⟨s₂, taken', hrun', hqueued', hperm'⟩ := @ih hn s₁ (hqueued.size ▸ hfuel)
      refine ⟨s₂, taken ++ taken', ?_, hqueued.trans hqueued', ?_⟩
      · rw [List.foldlM_cons, hrun]
        exact hrun'
      · have hrest : (namespaces.flatMap fun ns => eligibleRows ns cutoffs s₁.documents) =
            namespaces.flatMap fun ns => eligibleRows ns cutoffs s.documents := by
          refine List.flatMap_congr fun ns' hns' => hothers ns' ?_
          rintro rfl
          exact hnew hns'
        rw [List.flatMap_cons, ← hrest]
        exact hperm.append hperm'

/-- **The pages are the namespaces.** -/
theorem sweepPages_eq (claims : ℕ) (namespaces : List N) {fuel offset : ℕ}
    (hfuel : namespaces.length - offset < fuel) (s : Sweep Id N) :
    sweepPages order cutoffs clock claims namespaces fuel offset s =
      (namespaces.drop offset).foldlM (sweepNamespace order cutoffs clock claims) s := by
  have hsize : 0 < namespacePage := by decide
  induction fuel generalizing offset s with
  | zero => exact absurd hfuel (Nat.not_lt_zero _)
  | succ fuel ih =>
      unfold sweepPages
      by_cases hnil : Pages.page namespacePage namespaces offset = []
      · rw [if_pos hnil, Pages.drop_of_page_nil hsize hnil]
        rfl
      · rw [if_neg hnil]
        by_cases hshort : (Pages.page namespacePage namespaces offset).length < namespacePage
        · simp only [if_pos hshort]
          rw [Pages.page_eq_drop hshort]
          exact bind_pure _
        · have hfull := Pages.le_of_full_page hshort
          have hlength : (Pages.page namespacePage namespaces offset).length = namespacePage := by
            rw [Pages.page, List.length_take, List.length_drop]
            omega
          simp only [if_neg hshort]
          rw [Pages.drop_eq_page_append namespacePage offset, List.foldlM_append, hlength]
          congr 1
          funext s
          exact ih (by omega) s

omit [DecidableEq Id] in
theorem nodup_activeNamespaces (namespaces : Table N (Namespace N) Namespace.id) :
    (activeNamespaces namespaces).Nodup :=
  (List.mergeSort_perm _ _).nodup_iff.mpr (namespaces.nodup.sublist (List.filter_sublist.map _))

omit [DecidableEq Id] in
/-- What the namespaces hold together. -/
theorem flatMap_eligibleRows_perm (namespaces : Table N (Namespace N) Namespace.id) (documents : Documents Id N) :
    ((activeNamespaces namespaces).flatMap fun ns => eligibleRows ns cutoffs documents).Perm
      (orphaned cutoffs namespaces documents) := by
  have hn := documents.nodup.of_map
  refine (List.perm_ext_iff_of_nodup ?_ (hn.filter _)).mpr fun d => ?_
  · refine List.nodup_flatMap.mpr ⟨fun ns _ => hn.filter _, ?_⟩
    refine (nodup_activeNamespaces namespaces).imp fun {ns ns'} hne d hd hd' => hne ?_
    exact (namespaceId_of_eligible (List.mem_filter.mp hd).2).symm.trans
      (namespaceId_of_eligible (List.mem_filter.mp hd').2)
  · rw [List.mem_flatMap, List.mem_filter, Bool.and_eq_true, decide_eq_true_iff]
    constructor
    · rintro ⟨ns, hns, hd⟩
      obtain ⟨hrow, heligible⟩ := List.mem_filter.mp hd
      obtain rfl := namespaceId_of_eligible heligible
      exact ⟨hrow, hns, heligible⟩
    · rintro ⟨hrow, hns, heligible⟩
      exact ⟨_, hns, List.mem_filter.mpr ⟨hrow, heligible⟩⟩

/-- **The orphan claim is exact, and the sweep queues every orphaned document once**, when no stamp of a
claim is stale at once. -/
theorem enqueueOrphaned_exact (order : OrderBy Id N) (settings : PipelineSettings) (now : ℤ) (clock : ℕ → ℤ)
    {cutoffs : Cutoffs} (hcutoffs : settings.cutoffs now = .ok cutoffs)
    (hclock : ∀ k, cutoffs.processingBefore ≤ clock k)
    (namespaces : Table N (Namespace N) Namespace.id) (documents : Documents Id N) (fuel : ℕ)
    (hnamespaces : namespaces.rows.length < fuel) (hdocuments : documents.rows.length < fuel) :
    (∀ (ns : N) (cutoffs : Cutoffs) (limit : ℕ) (stamp : ℤ) (table : Documents Id N),
      ClaimsOldest ns cutoffs limit stamp table (orphanRows order ns cutoffs limit table.rows table.rows)
        (claimOrphanedDocuments order ns cutoffs limit stamp table)) ∧
    (∀ (ns : N) (cutoffs : Cutoffs) (limit : ℕ) (table table' : Documents Id N),
      ((orphanRows order ns cutoffs limit table.rows table'.rows).map Document.id).Nodup) ∧
    ∃ s, enqueueOrphanedPendingDocs order clock settings now fuel namespaces documents = .ok (some s) ∧
      s.queue.Perm ((orphaned cutoffs namespaces documents).map item) := by
  refine ⟨fun ns cutoffs limit stamp table => claim_exact order ns cutoffs limit stamp table,
    fun ns cutoffs limit table table' => orphanRows_nodup order ns cutoffs limit _ _, ?_⟩
  obtain ⟨s, taken, hrun, hqueued, hperm⟩ := @foldlM_sweepNamespace Id N _ _ order _ clock hclock fuel
    (activeNamespaces namespaces) (nodup_activeNamespaces namespaces) ⟨documents, [], 0⟩ hdocuments
  refine ⟨s, ?_, ?_⟩
  · have hlength : (activeNamespaces namespaces).length ≤ namespaces.rows.length := by
      rw [activeNamespaces, List.length_mergeSort, List.length_map]
      exact List.length_filter_le _ _
    rw [enqueueOrphanedPendingDocs, hcutoffs]
    show Except.ok (sweepPages order cutoffs clock fuel _ fuel 0 _) = _
    rw [sweepPages_eq fuel _ (by omega), List.drop_zero, hrun]
  · rw [hqueued.queue, List.nil_append]
    exact (hperm.trans (flatMap_eligibleRows_perm namespaces documents)).map item

/-- The order of the index, ties by record id. -/
def indexOrder : OrderBy ℕ ℕ :=
  ⟨fun rows => rows.mergeSort fun a b => decide (a.updatedAt ≤ b.updatedAt), fun rows => List.mergeSort_perm rows _,
    fun rows => SortBy.pairwise_mergeSort Document.updatedAt rows⟩

def oneNamespace : Table ℕ (Namespace ℕ) Namespace.id := ⟨[⟨0, true⟩], List.nodup_singleton _⟩

theorem activeNamespaces_oneNamespace : activeNamespaces oneNamespace = [0] := List.mergeSort_singleton _

/-- A stale document of each kind, and a fresh one. -/
def threeDocuments : Documents ℕ ℕ :=
  ⟨[⟨0, 0, .pending, 0⟩, ⟨1, 0, .processing, 7⟩, ⟨2, 0, .processing, 999999999⟩], by decide⟩

theorem enqueueOrphaned_threeDocuments : ∃ s, enqueueOrphanedPendingDocs indexOrder (fun k => 1000000000 + k)
    ⟨5, none, 900⟩ 1000000000 4 oneNamespace threeDocuments = .ok (some s) ∧ s.queue.Perm [(0, 0), (1, 0)] := by
  obtain ⟨-, -, s, hrun, hperm⟩ := @enqueueOrphaned_exact ℕ ℕ _ _ indexOrder ⟨5, none, 900⟩ 1000000000
    (fun k => 1000000000 + k) ⟨700000000, 100000000⟩ rfl
    (fun k => (by decide : (100000000 : ℤ) ≤ 1000000000).trans (Int.le_add_of_nonneg_right (Int.natCast_nonneg k)))
    oneNamespace threeDocuments 4 (by decide) (by decide)
  refine ⟨s, hrun, ?_⟩
  rw [orphaned, activeNamespaces_oneNamespace] at hperm
  exact hperm

/-! ## A stamp that is stale when it is set -/

/-- Such a claim leaves as many eligible documents as there were. -/
theorem length_eligibleRows_claim {documents : Documents Id N} {now : ℤ} (hnow : now < cutoffs.processingBefore) :
    (eligibleRows ns cutoffs (claimOrphanedDocuments order ns cutoffs limit now documents).1).length =
      (eligibleRows ns cutoffs documents).length := by
  rw [eligibleRows, rows_claim, List.filter_map, List.length_map, eligibleRows]
  congr 1
  apply List.filter_congr
  intro d _
  rw [Function.comp_apply]
  split
  · rename_i hclaimed
    have heligible := (mem_claimedRows hclaimed).2
    have hnamespace := namespaceId_of_eligible heligible
    rw [heligible, eligible, Bool.or_eq_true]
    exact Or.inr (decide_eq_true ⟨hnamespace, rfl, hnow⟩)
  · rfl

/-- A claim takes a full batch where there is one. -/
theorem length_claimOnce {s : Sweep Id N} (h : claimSize ≤ (eligibleRows ns cutoffs s.documents).length) :
    (claimOnce order cutoffs clock ns s).2 = claimSize ∧
      (claimOnce order cutoffs clock ns s).1.queue.length = s.queue.length + claimSize := by
  have hleast : (claimedRows order ns cutoffs claimSize s.documents).length = claimSize :=
    (orphanRows_least s.documents).length.trans (min_eq_left h)
  rw [(claimOnce_queued order cutoffs clock ns s).queue, List.length_append, List.length_map, hleast]
  exact ⟨(List.length_map _).trans hleast, rfl⟩

theorem queue_le_of_sweepNamespace {fuel : ℕ} {s s' : Sweep Id N}
    (h : sweepNamespace order cutoffs clock fuel s ns = some s') : s.queue.length ≤ s'.queue.length := by
  induction fuel generalizing s with
  | zero => cases h
  | succ fuel ih =>
      have hclaim : s.queue.length ≤ (claimOnce order cutoffs clock ns s).1.queue.length := by
        rw [(claimOnce_queued order cutoffs clock ns s).queue, List.length_append]
        exact Nat.le_add_right _ _
      simp only [sweepNamespace] at h
      split at h
      · exact Option.some.inj h ▸ hclaim
      · split at h
        · exact Option.some.inj h ▸ hclaim
        · exact hclaim.trans (ih h)

/-- **A full batch that is stamped stale is claimed again.** -/
theorem queue_add_le_of_stale {fuel : ℕ} {s s' : Sweep Id N}
    (hrows : claimSize ≤ (eligibleRows ns cutoffs s.documents).length)
    (hstale : clock s.claims < cutoffs.processingBefore)
    (h : sweepNamespace order cutoffs clock fuel s ns = some s') :
    s.queue.length + claimSize + claimSize ≤ s'.queue.length := by
  have hsize : claimSize ≠ 0 := by decide
  cases fuel with
  | zero => cases h
  | succ fuel =>
      have hcount := @length_claimOnce Id N _ _ order cutoffs clock ns s hrows
      simp only [sweepNamespace, hcount.1, if_neg hsize, if_neg (Nat.lt_irrefl _)] at h
      have hrows' : claimSize ≤ (eligibleRows ns cutoffs (claimOnce order cutoffs clock ns s).1.documents).length :=
        hrows.trans (length_eligibleRows_claim hstale).ge
      cases fuel with
      | zero => cases h
      | succ fuel =>
          have hcount' := @length_claimOnce Id N _ _ order cutoffs clock ns _ hrows'
          simp only [sweepNamespace, hcount'.1, if_neg hsize, if_neg (Nat.lt_irrefl _)] at h
          have hle := queue_le_of_sweepNamespace h
          rw [hcount'.2, hcount.2] at hle
          exact hle

/-- An age of minus one minute. -/
def negativeAge : PipelineSettings := ⟨5, none, -60⟩

def negativeAgeCutoffs : Cutoffs := ⟨700000000, 1060000000⟩

/-- A hundred old documents. -/
def oldDocuments : Documents ℕ ℕ :=
  ⟨(List.range 100).map fun i => ⟨i, 0, .pending, 0⟩, by
    rw [List.map_map]
    exact List.nodup_range.map fun _ _ h => h⟩

/-- With a negative age, the documents that were just claimed are claimed again: no run of the sweep queues just
the orphaned documents, each once. And an age of more than 9999 years ends the sweep before its first claim. -/
theorem negativeAge_diverges :
    negativeAge.cutoffs 1000000000 = .ok negativeAgeCutoffs ∧
    (¬∃ (order : OrderBy ℕ ℕ) (fuel : ℕ) (s : Sweep ℕ ℕ),
      enqueueOrphanedPendingDocs order (fun k => 1000000000 + 1000000 * k) negativeAge 1000000000 fuel oneNamespace
        oldDocuments = .ok (some s) ∧
      s.queue.Perm ((orphaned negativeAgeCutoffs oneNamespace oldDocuments).map item)) ∧
    ∀ (order : OrderBy ℕ ℕ) (clock : ℕ → ℤ) (fuel : ℕ), enqueueOrphanedPendingDocs order clock
      ⟨5, none, 1000000000000⟩ 1000000000 fuel oneNamespace oldDocuments = .error .overflowError := by
  refine ⟨rfl, ?_, fun _ _ _ => rfl⟩
  rintro ⟨order, fuel, s, hrun, hperm⟩
  cases fuel with
  | zero => cases hrun
  | succ fuel =>
      have hsweep : sweepNamespace order negativeAgeCutoffs (fun k => 1000000000 + 1000000 * k)
          (fuel + 1) ⟨oldDocuments, [], 0⟩ 0 = some s := by
        have hpages : sweepPages order negativeAgeCutoffs (fun k => 1000000000 + 1000000 * k) (fuel + 1)
            (activeNamespaces oneNamespace) (fuel + 1) 0 ⟨oldDocuments, [], 0⟩ = some s := Except.ok.inj hrun
        rw [activeNamespaces_oneNamespace] at hpages
        simpa [sweepPages, Pages.page, namespacePage] using hpages
      have hrows : claimSize ≤ (eligibleRows 0 negativeAgeCutoffs oldDocuments).length := by decide
      have hle := queue_add_le_of_stale hrows (by decide) hsweep
      have hlength := hperm.length_eq
      rw [List.length_map] at hlength
      have hbound := List.length_filter_le (fun d : Document ℕ ℕ => decide (d.namespaceId ∈
        activeNamespaces oneNamespace) && eligible d.namespaceId negativeAgeCutoffs d) oldDocuments.rows
      have hold : oldDocuments.rows.length = 100 := by
        rw [oldDocuments, List.length_map, List.length_range]
      rw [orphaned] at hlength
      rw [claimSize, List.length_nil] at hle
      omega

end OrphanSweep

end Khora
