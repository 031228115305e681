import Khora.Storage.DocumentScan

/-!
# The document walk under concurrent writes

Other clients insert and delete documents while a walk runs.  A schedule says which
writes commit before each statement of the walk; a relational store reads a window
with one statement, the SurrealDB store with two: the ties at the cursor instant,
then the rows below it, with writes in between.

* `scanDocuments_scans` — under every schedule each store answers with windows over
  the documents that stay.
* `concurrent_walk` — no position is handed out twice, and in a walk that ends a
  document of the filter that stays is handed out exactly once, unless the fragment
  pushed to the store rejects it.
-/

namespace Khora

open Fallible Keyset

/-! ## Writes -/

/-- A committed write of another client. -/
inductive Mutation where
  | insert (d : Document)
  | delete (id : ℕ)

/-- The primary key turns an insert of an id that is there into an error. -/
def Mutation.apply (table : List Document) : Mutation → List Document
  | .insert d => if d.id ∈ table.map Document.id then table else d :: table
  | .delete id => table.filter fun d => d.id != id

/-- The table the `n`-th statement of the walk reads; `schedule n` are the writes that
commit after the statement before it. -/
def tableAt (initial : List Document) (schedule : ℕ → List Mutation) : ℕ → List Document
  | 0 => (schedule 0).foldl Mutation.apply initial
  | n + 1 => (schedule (n + 1)).foldl Mutation.apply (tableAt initial schedule n)

theorem Mutation.ids_nodup {table : List Document} (h : (table.map Document.id).Nodup)
    (m : Mutation) : ((m.apply table).map Document.id).Nodup := by
  cases m with
  | insert d =>
      rw [Mutation.apply]
      split
      · exact h
      · rename_i hd
        exact List.nodup_cons.mpr ⟨hd, h⟩
  | delete id => exact h.sublist (List.filter_sublist.map _)

theorem Mutation.foldl_ids_nodup (ms : List Mutation) :
    ∀ table : List Document, (table.map Document.id).Nodup →
      ((ms.foldl Mutation.apply table).map Document.id).Nodup := by
  induction ms with
  | nil => exact fun _ h => h
  | cons m ms ih => exact fun table h => ih _ (m.ids_nodup h)

theorem tableAt_ids_nodup {initial : List Document} (h : (initial.map Document.id).Nodup)
    (schedule : ℕ → List Mutation) (n : ℕ) :
    ((tableAt initial schedule n).map Document.id).Nodup := by
  induction n with
  | zero => exact Mutation.foldl_ids_nodup _ _ h
  | succ n ih => exact Mutation.foldl_ids_nodup _ _ ih

/-! ## The stores -/

/-- The two ways a store runs `scan_documents`. -/
inductive Store where
  /-- PostgreSQL and the two SQLite tiers: one row-value comparison. -/
  | relational
  | surrealdb
deriving DecidableEq, Repr

section Stores

variable (tables : ℕ → List Document) (keep : Document → Bool)

/-- Q1: the tie block at the cursor instant. -/
def tieRows (n : ℕ) (cursor : ScanKey) (scanLimit : ℕ) : List Document :=
  Keyset.select Document.id
    (fun d => (keep d && decide (d.createdAt = (ofLex cursor).1)) &&
      decide (Below (some (ofLex cursor).2) d.id)) scanLimit (tables n)

/-- Q2: strictly below the cursor instant. -/
def olderRows (n : ℕ) (cursor : ScanKey) (scanLimit : ℕ) : List Document :=
  Keyset.select Document.scanKey
    (fun d => (keep d && decide (d.createdAt < (ofLex cursor).1)) &&
      decide (Below none d.scanKey)) scanLimit (tables n)

/-- The rows of one SurrealDB step and the number of statements it ran. -/
def surrealdbRows (n : ℕ) (after : Option ScanKey) (scanLimit : ℕ) : List Document × ℕ :=
  match after with
  | none => (scanWindow (tables n) keep none scanLimit, 1)
  | some cursor =>
      let ties := tieRows tables keep n cursor scanLimit
      if 0 < scanLimit - ties.length then
        (ties ++ olderRows tables keep (n + 1) cursor (scanLimit - ties.length), 2)
      else (ties, 1)

/-- The raw window of a step and the number of statements it ran. -/
def rawRows (store : Store) (n : ℕ) (after : Option ScanKey) (scanLimit : ℕ) : List Document × ℕ :=
  match store with
  | .relational => (scanWindow (tables n) keep after scanLimit, 1)
  | .surrealdb => surrealdbRows tables keep n after scanLimit

/-- `scan_documents`. -/
def scanDocuments (store : Store) (consumedKeys : List String) (n : ℕ) (after : Option ScanKey)
    (scanLimit : ℕ) : Except PyErr (DocumentScanStep × ℕ) :=
  if scanLimit < 1 then .error .valueError
  else
    let rows := (rawRows tables keep store n after scanLimit).1
    .ok (buildScanStep rows (rows.getLast?.map Document.scanKey) rows.length scanLimit
      consumedKeys, n + (rawRows tables keep store n after scanLimit).2)

variable {tables keep}

theorem scanDocuments_eq {store : Store} {n m k : ℕ} {after : Option ScanKey} {rows : List Document}
    (hm : 1 ≤ m) (hrows : rawRows tables keep store n after m = (rows, k)) (consumedKeys : List String) :
    scanDocuments tables keep store consumedKeys n after m =
      .ok (buildScanStep rows (rows.getLast?.map Document.scanKey) rows.length m consumedKeys, n + k) := by
  rw [scanDocuments, if_neg (by omega), hrows]

end Stores

section Contract

variable {tables : ℕ → List Document} {keep : Document → Bool}

/-- The document is in the table at each of the first `bound` statements. -/
def Stays (tables : ℕ → List Document) (bound : ℕ) (d : Document) : Prop :=
  ∀ k < bound, d ∈ tables k

/-- The document was in the table at one of the first `bound` statements. -/
def Seen (tables : ℕ → List Document) (bound : ℕ) (d : Document) : Prop :=
  ∃ k < bound, d ∈ tables k

theorem tieRows_window (h : ∀ n, ((tables n).map Document.id).Nodup) (n : ℕ) (cursor : ScanKey)
    (m : ℕ) :
    Window Document.id
      (fun d => (d ∈ tables n ∧ keep d = true) ∧ d.createdAt = (ofLex cursor).1)
      (some (ofLex cursor).2) m (tieRows tables keep n cursor m) := by
  refine (select_window (h n) fun d => keep d && decide (d.createdAt = (ofLex cursor).1)).mono ?_
  rintro d ⟨⟨hd, hk⟩, heq⟩
  exact ⟨hd, by simp [hk, heq]⟩

theorem olderRows_window (h : ∀ n, ((tables n).map Document.id).Nodup) (n : ℕ) (cursor : ScanKey)
    (m : ℕ) :
    Window Document.scanKey
      (fun d => (d ∈ tables n ∧ keep d = true) ∧ d.createdAt < (ofLex cursor).1) none m
      (olderRows tables keep n cursor m) := by
  refine (select_window (scanKey_nodup (h n))
    fun d => keep d && decide (d.createdAt < (ofLex cursor).1)).mono ?_
  rintro d ⟨⟨hd, hk⟩, hlt⟩
  exact ⟨hd, by simp [hk, hlt]⟩

theorem mem_tieRows {n m : ℕ} {cursor : ScanKey} {d : Document}
    (h : d ∈ tieRows tables keep n cursor m) :
    d ∈ tables n ∧ keep d = true ∧ d.createdAt = (ofLex cursor).1 := by
  obtain ⟨hd, hp⟩ := mem_of_mem_select h
  simp only [Bool.and_eq_true, decide_eq_true_eq] at hp
  exact ⟨hd, hp.1.1, hp.1.2⟩

theorem mem_olderRows {n m : ℕ} {cursor : ScanKey} {d : Document}
    (h : d ∈ olderRows tables keep n cursor m) :
    d ∈ tables n ∧ keep d = true ∧ d.createdAt < (ofLex cursor).1 := by
  obtain ⟨hd, hp⟩ := mem_of_mem_select h
  simp only [Bool.and_eq_true, decide_eq_true_eq] at hp
  exact ⟨hd, hp.1.1, hp.1.2⟩

theorem mem_scanWindow {table : List Document} {after : Option ScanKey} {m : ℕ} {d : Document}
    (h : d ∈ scanWindow table keep after m) : d ∈ table ∧ keep d = true := by
  obtain ⟨hd, hp⟩ := mem_of_mem_select h
  exact ⟨hd, (Bool.and_eq_true_iff.mp hp).1⟩

/-- **The two statements of a SurrealDB step read one window**, over the documents that are
there at both. -/
theorem surrealdbRows_window (h : ∀ n, ((tables n).map Document.id).Nodup) (n : ℕ)
    (after : Option ScanKey) (m : ℕ) :
    Window Document.scanKey
      (fun d => keep d = true ∧ ∀ k, n ≤ k → k < n + (surrealdbRows tables keep n after m).2 →
        d ∈ tables k) after m (surrealdbRows tables keep n after m).1 := by
  cases after with
  | none =>
      refine (select_window (scanKey_nodup (h n)) keep).mono ?_
      rintro d ⟨hk, hd⟩
      exact ⟨hd n le_rfl (by simp [surrealdbRows]), hk⟩
  | some cursor =>
      simp only [surrealdbRows]
      by_cases hroom : 0 < m - (tieRows tables keep n cursor m).length
      · rw [if_pos hroom]
        refine @window_of_ties _ _ _ _ _ Document.createdAt Document.id _ _ _ (ofLex cursor).1
          (ofLex cursor).2 _ ((tieRows_window h n cursor m).mono ?_)
          (fun d hd => (mem_tieRows hd).2.2)
          (fun _ => (olderRows_window h (n + 1) cursor _).mono ?_)
          (fun d hd => (mem_olderRows hd).2.2) (fun hn => absurd hn (by omega))
        · rintro d ⟨⟨hk, hd⟩, heq⟩
          exact ⟨⟨hd n le_rfl (by omega), hk⟩, heq⟩
        · rintro d ⟨⟨hk, hd⟩, hlt⟩
          exact ⟨⟨hd (n + 1) (by omega) (by omega), hk⟩, hlt⟩
      · rw [if_neg hroom]
        have hfull : ¬ (tieRows tables keep n cursor m).length < m := by omega
        rw [← List.append_nil (tieRows tables keep n cursor m)]
        refine @window_of_ties _ _ _ _ _ Document.createdAt Document.id _ [] _ (ofLex cursor).1
          (ofLex cursor).2 _ ((tieRows_window h n cursor m).mono ?_)
          (fun d hd => (mem_tieRows hd).2.2) (fun hn => absurd hn hfull) (by simp) (fun _ => rfl)
        rintro d ⟨⟨hk, hd⟩, heq⟩
        exact ⟨⟨hd n le_rfl (by omega), hk⟩, heq⟩

theorem mem_surrealdbRows {n m : ℕ} {after : Option ScanKey} {d : Document}
    (h : d ∈ (surrealdbRows tables keep n after m).1) :
    keep d = true ∧ ∃ k < n + (surrealdbRows tables keep n after m).2, d ∈ tables k := by
  cases after with
  | none =>
      obtain ⟨hd, hk⟩ := mem_scanWindow h
      exact ⟨hk, n, by simp [surrealdbRows], hd⟩
  | some cursor =>
      simp only [surrealdbRows] at h ⊢
      split at h
      · rename_i hroom
        rw [if_pos hroom]
        rcases List.mem_append.mp h with h | h
        · exact ⟨(mem_tieRows h).2.1, n, by omega, (mem_tieRows h).1⟩
        · exact ⟨(mem_olderRows h).2.1, n + 1, by omega, (mem_olderRows h).1⟩
      · rename_i hroom
        rw [if_neg hroom]
        exact ⟨(mem_tieRows h).2.1, n, by omega, (mem_tieRows h).1⟩

/-- **Both stores answer with windows over the documents that stay.** -/
theorem scanDocuments_scans (h : ∀ n, ((tables n).map Document.id).Nodup) (store : Store)
    (consumedKeys : List String) (bound : ℕ) :
    Scans bound (fun d => Stays tables bound d ∧ keep d = true)
      (fun d => Seen tables bound d ∧ keep d = true)
      (scanDocuments tables keep store consumedKeys) := by
  constructor
  · intro n after m step n' hm hc
    rw [scanDocuments, if_neg (by omega)] at hc
    obtain ⟨-, rfl⟩ := Prod.mk.inj (Except.ok.inj hc)
    omega
  · intro n after m step n' hm hc hn
    rw [scanDocuments, if_neg (by omega)] at hc
    obtain ⟨rfl, rfl⟩ := Prod.mk.inj (Except.ok.inj hc)
    cases store with
    | relational =>
        have hlt : n < bound := hn
        refine ⟨(select_window (scanKey_nodup (h n)) keep).mono ?_, fun d hd => ?_, rfl, rfl⟩
        · rintro d ⟨hs, hk⟩
          exact ⟨hs n hlt, hk⟩
        · obtain ⟨hd, hk⟩ := mem_scanWindow hd
          exact ⟨⟨n, hlt, hd⟩, hk⟩
    | surrealdb =>
        refine ⟨(surrealdbRows_window h n after m).mono ?_, fun d hd => ?_, rfl, rfl⟩
        · rintro d ⟨hs, hk⟩
          exact ⟨hk, fun k _ hlt => hs k (lt_of_lt_of_le hlt hn)⟩
        · obtain ⟨hk, k, hlt, hd⟩ := mem_surrealdbRows hd
          exact ⟨⟨k, lt_of_lt_of_le hlt hn, hd⟩, hk⟩

/-- **A resumed SurrealDB step is one keyset window** of a table that does not change. -/
theorem surrealdb_step_eq_window {table : List Document} (h : (table.map Document.id).Nodup)
    (keep : Document → Bool) (consumedKeys : List String) (n : ℕ) (t : Int) (i : ℕ) {m : ℕ}
    (hm : 1 ≤ m) :
    ∃ step k, scanDocuments (fun _ => table) keep .surrealdb consumedKeys n (some (toLex (t, i))) m =
        .ok (step, k) ∧
      step.documents =
        Keyset.select Document.scanKey (fun d => keep d && decide (d.scanKey < toLex (t, i))) m table ∧
      (step.exhausted = true ↔
        (table.filter fun d => keep d && decide (d.scanKey < toLex (t, i))).length < m) := by
  have hwindow : Window Document.scanKey (fun d => d ∈ table ∧ keep d = true) (some (toLex (t, i))) m
      (surrealdbRows (fun _ => table) keep n (some (toLex (t, i))) m).1 :=
    (surrealdbRows_window (fun _ => h) n _ m).mono fun d hd => ⟨hd.2, fun _ _ _ => hd.1⟩
  have hselect : Window Document.scanKey (fun d => d ∈ table ∧ keep d = true) (some (toLex (t, i))) m
      (scanWindow table keep (some (toLex (t, i))) m) :=
    select_window (scanKey_nodup h) keep
  have hrows : (surrealdbRows (fun _ => table) keep n (some (toLex (t, i))) m).1 =
      scanWindow table keep (some (toLex (t, i))) m := by
    apply hwindow.eq hselect
    · intro d hd
      obtain ⟨hk, _, _, hd⟩ := mem_surrealdbRows hd
      exact ⟨hd, hk⟩
    · exact fun d hd => mem_scanWindow hd
  refine ⟨_, _, if_neg (by omega), hrows, ?_⟩
  show decide ((surrealdbRows (fun _ => table) keep n (some (toLex (t, i))) m).1.length < m) = true ↔ _
  rw [hrows, decide_eq_true_eq, scanWindow, length_select]
  show min m (table.filter fun d => keep d && decide (d.scanKey < toLex (t, i))).length < m ↔ _
  omega

def documentAt (createdAt : ℤ) (id : ℕ) : Document := ⟨createdAt, id, metadataRecord []⟩

/-- Three documents of one instant, and others below them. -/
def tiedTable : List Document :=
  [documentAt 4 8, documentAt 5 1, documentAt 5 6, documentAt 5 3, documentAt 2 7, documentAt 4 9]

/-- Below the id 4 of the instant: two ties, and one of the two rows of the instant before. -/
theorem surrealdb_step_tied :
    ∃ step k, scanDocuments (fun _ => tiedTable) (fun _ => true) .surrealdb [] 0 (some (toLex (5, 4))) 3 =
        .ok (step, k) ∧
      step.documents = [documentAt 5 3, documentAt 5 1, documentAt 4 9] ∧ step.exhausted = false := by
  obtain ⟨step, k, hstep, hdocuments, hexhausted⟩ :=
    surrealdb_step_eq_window (by decide : (tiedTable.map Document.id).Nodup) (fun _ => true) [] 0 5 4
      (by decide : 1 ≤ 3)
  refine ⟨step, k, hstep, hdocuments.trans ?_, Bool.eq_false_iff.mpr fun h => ?_⟩
  · simp [Keyset.select, tiedTable, documentAt, Document.scanKey, stampKey, Prod.Lex.toLex_lt_toLex,
      Prod.Lex.toLex_le_toLex, List.mergeSort, List.MergeSort.Internal.splitInTwo]
  · exact absurd (hexhausted.mp h) (by decide)

end Contract

/-! ## The walk -/

section Walk

variable {initial : List Document} {schedule : ℕ → List Mutation} {keep : Document → Bool}
  {filterAst : Option Ast} {limit : ℕ} {scanBound : Option ℕ}

/-- The pages hand out the document once: it is the only one at its position. -/
def ReturnedOnce (pages : List DocumentPage) (d : Document) : Prop :=
  (pages.flatMap DocumentPage.documents).filter (fun e => decide (e.scanKey = d.scanKey)) = [d]

/-- A list of one position holds a row at most once. -/
theorem filter_eq_singleton {rows : List Document} (h : Descending Document.scanKey rows)
    {d : Document} (hd : d ∈ rows) :
    rows.filter (fun e => decide (e.scanKey = d.scanKey)) = [d] := by
  obtain ⟨l, r, rfl⟩ := List.append_of_mem hd
  obtain ⟨-, hr, hlr⟩ := List.pairwise_append.mp h
  have hl : ∀ e ∈ l, ¬ e.scanKey = d.scanKey := fun e he => (hlr e he d (by simp)).ne'
  have hrd : ∀ e ∈ r, ¬ e.scanKey = d.scanKey :=
    fun e he => ((List.pairwise_cons.mp hr).1 e he).ne
  rw [List.filter_append, List.filter_cons_of_pos (by simp),
    List.filter_eq_nil_iff.mpr (by simpa using hl), List.filter_eq_nil_iff.mpr (by simpa using hrd)]
  rfl

/-- A table nobody writes to any more stays as it is. -/
theorem tableAt_quiet {n : ℕ} (hquiet : ∀ k, n < k → schedule k = []) :
    ∀ k, n ≤ k → tableAt initial schedule k = tableAt initial schedule n := by
  intro k hk
  induction k, hk using Nat.le_induction with
  | base => rfl
  | succ k hk ih => rw [tableAt, hquiet (k + 1) (by omega), List.foldl_nil, ih]

section Runs

variable {post : Document → Except PyErr Bool} {store : Store} {consumedKeys : List String}

/-- Once the writes stop, a walk whose post-filter returns comes to its end. -/
theorem concurrent_walk_ends (hids : (initial.map Document.id).Nodup) (hlimit : 1 ≤ limit)
    (hbound : ∀ b, scanBound = some b → 1 ≤ b) (hpost : compilePostFilter filterAst = .ok post)
    {last : ℕ} (hquiet : ∀ k, last < k → schedule k = [])
    (hret : ∀ k, ∀ d ∈ tableAt initial schedule k, keep d = true → Returns (post d)) :
    ∃ fuel pages n, walkPages (scanDocuments (tableAt initial schedule) keep store consumedKeys) limit
      filterAst scanBound fuel 0 none = .ok (pages, n) ∧ Finished pages := by
  set tables := tableAt initial schedule with htables
  have hscans : ∀ b, Scans b (fun d => (∀ k, d ∈ tables k) ∧ keep d = true)
      (fun d => (∃ k, d ∈ tables k) ∧ keep d = true) (scanDocuments tables keep store consumedKeys) := by
    intro b
    refine (scanDocuments_scans (tableAt_ids_nodup hids schedule) store consumedKeys b).imp ?_ ?_
    · rintro d ⟨hd, hk⟩
      exact ⟨fun k _ => hd k, hk⟩
    · rintro d ⟨⟨k, -, hd⟩, hk⟩
      exact ⟨⟨k, hd⟩, hk⟩
  have hcall : ∀ n after m, 1 ≤ m → Returns (scanDocuments tables keep store consumedKeys n after m) :=
    fun n after m hm => ⟨_, scanDocuments_eq hm rfl consumedKeys⟩
  -- every row the walk can read is in one of the tables up to the last write
  set rows := (List.range (last + 1)).flatMap tables
  have hrows : ∀ k, ∀ d ∈ tables k, d ∈ rows := by
    intro k d hd
    by_cases hk : k < last + 1
    · exact List.mem_flatMap.mpr ⟨k, List.mem_range.mpr hk, hd⟩
    · refine List.mem_flatMap.mpr ⟨last, List.mem_range.mpr (Nat.lt_succ_self last), ?_⟩
      rwa [htables, ← tableAt_quiet hquiet k (by omega)]
  obtain ⟨⟨pages, n⟩, hwalk⟩ := returns_walkPages hscans hcall hlimit hbound hpost
    (fun d hd => hret hd.1.choose d hd.1.choose_spec hd.2) (rows.length + 1) 0 none
  obtain ⟨window, hw⟩ := walk_spec (hscans n) hlimit hbound hpost _ _ _ [] _ _ hwalk le_rfl .start
  have hdesc : Descending Document.scanKey window := by simpa using hw.descending
  refine ⟨_, pages, n, hwalk, ?_⟩
  by_contra hnf
  have hlong := hw.advance hnf
  have hsub : window ⊆ rows := fun d hd => by
    obtain ⟨⟨k, hk⟩, -⟩ := hw.valid d hd
    exact hrows k d hk
  have hshort := (List.subperm_of_subset hdesc.nodup hsub).length_le
  omega

/-- **The walk under concurrent writes.**  Whatever commits between its statements, a walk
hands out strictly descending positions, so none twice; and when it ends, a document of
the filter that stayed all along was handed out exactly once, if and only if the pushed
fragment keeps it.  It does end once the writes stop, when the post-filter returns. -/
theorem concurrent_walk (hids : (initial.map Document.id).Nodup) (hlimit : 1 ≤ limit)
    (hbound : ∀ b, scanBound = some b → 1 ≤ b) (hpost : compilePostFilter filterAst = .ok post) :
    (∀ fuel pages n, walkPages (scanDocuments (tableAt initial schedule) keep store consumedKeys) limit
        filterAst scanBound fuel 0 none = .ok (pages, n) →
      Descending Document.scanKey (pages.flatMap DocumentPage.documents) ∧
        (Finished pages → ∀ d, Stays (tableAt initial schedule) n d → post d = .ok true →
          (ReturnedOnce pages d ↔ keep d = true))) ∧
    ((∃ last, ∀ k, last < k → schedule k = []) →
      (∀ k, ∀ d ∈ tableAt initial schedule k, keep d = true → Returns (post d)) →
      ∃ fuel pages n, walkPages (scanDocuments (tableAt initial schedule) keep store consumedKeys) limit
        filterAst scanBound fuel 0 none = .ok (pages, n) ∧ Finished pages) := by
  refine ⟨fun fuel pages n hwalk => ?_, fun ⟨last, hquiet⟩ hret =>
    concurrent_walk_ends hids hlimit hbound hpost hquiet hret⟩
  have htables := tableAt_ids_nodup hids schedule
  obtain ⟨window, hw⟩ := walk_spec (scanDocuments_scans htables store consumedKeys n) hlimit hbound
    hpost fuel _ _ [] _ _ hwalk le_rfl .start
  have hwindow : Descending Document.scanKey window := by simpa using hw.descending
  have hdesc : Descending Document.scanKey (pages.flatMap DocumentPage.documents) := by
    rw [hw.documents]
    exact hwindow.sublist List.filter_sublist
  refine ⟨hdesc, fun hfin d hstays hpd => ⟨fun honce => ?_, fun hk => ?_⟩⟩
  · have hmem : d ∈ pages.flatMap DocumentPage.documents := by
      refine List.mem_of_mem_filter (p := fun e => decide (e.scanKey = d.scanKey)) ?_
      rw [show List.filter _ _ = [d] from honce]
      exact List.mem_singleton_self d
    rw [hw.documents] at hmem
    exact (hw.valid d (List.mem_of_mem_filter hmem)).2
  · refine filter_eq_singleton hdesc ?_
    rw [hw.documents]
    have hin : d ∈ window := by simpa using hw.complete hfin d ⟨hstays, hk⟩
    exact List.mem_filter.mpr ⟨hin, accepts_iff.mpr hpd⟩

end Runs

def driftTable : List Document :=
  [documentAt 5 3, documentAt 5 1, documentAt 4 9, documentAt 4 8, documentAt 2 7]

/-- Behind the first page one of the two rows left is deleted, and one is inserted. -/
def drift : ℕ → List Mutation
  | 1 => [.delete 7, .insert (documentAt 3 2)]
  | _ => []

def driftScan : ScanPrimitive := scanDocuments (tableAt driftTable drift) (fun _ => true) .surrealdb []

def driftPages : List DocumentPage :=
  [⟨[documentAt 5 3, documentAt 5 1, documentAt 4 9], some (toLex (4, 9)), false, []⟩,
    ⟨[documentAt 4 8, documentAt 3 2], none, true, []⟩]

theorem walkPages_drift : walkPages driftScan 3 none (some 3) 2 0 none = .ok (driftPages, 3) := by
  have hfirst : rawRows (tableAt driftTable drift) (fun _ => true) .surrealdb 0 none 3 =
      ([documentAt 5 3, documentAt 5 1, documentAt 4 9], 1) := by
    show ((driftTable.mergeSort _).take 3, 1) = _
    rw [List.mergeSort_of_pairwise (by decide)]
    rfl
  have hties : tieRows (tableAt driftTable drift) (fun _ => true) 1 (toLex (4, 9)) 3 = [documentAt 4 8] := by
    show ([documentAt 4 8].mergeSort _).take 3 = _
    rw [List.mergeSort_singleton]
    rfl
  have holder : olderRows (tableAt driftTable drift) (fun _ => true) 2 (toLex (4, 9)) 2 = [documentAt 3 2] := by
    show ([documentAt 3 2].mergeSort _).take 2 = _
    rw [List.mergeSort_singleton]
    rfl
  have hrest : rawRows (tableAt driftTable drift) (fun _ => true) .surrealdb 1 (some (toLex (4, 9))) 3 =
      ([documentAt 4 8, documentAt 3 2], 2) := by
    simp only [rawRows, surrealdbRows, hties]
    exact congrArg (fun rows => ([documentAt 4 8] ++ rows, 2)) holder
  have hpage : scanDocumentsPage driftScan 3 none (some 3) 0 none =
      .ok (⟨[documentAt 5 3, documentAt 5 1, documentAt 4 9], some (toLex (4, 9)), false, []⟩, 1) := by
    show (pageLoop _ _ 3 3 _ >>= _) = _
    rw [pageLoop_step 2 _ (by decide)]
    show ((scanDocuments _ _ _ _ 0 none 3 >>= _) >>= _) = _
    rw [scanDocuments_eq (by decide) hfirst []]
    rfl
  rw [walkPages_succ, hpage]
  show ((fun q => _) <$> walkPages _ _ _ _ 1 1 (some (toLex (4, 9)))) = _
  rw [walkPages_exhausted (by decide) (by simp) rfl (scanDocuments_eq (by decide) hrest []) rfl rfl]
  rfl

/-- Two pages, and a document between them that stays. -/
theorem concurrent_walk_twoPages :
    walkPages driftScan 3 none (some 3) 2 0 none = .ok (driftPages, 3) ∧
      Descending Document.scanKey (driftPages.flatMap DocumentPage.documents) ∧ Finished driftPages ∧
      Stays (tableAt driftTable drift) 3 (documentAt 4 8) ∧ ReturnedOnce driftPages (documentAt 4 8) := by
  have hstays : Stays (tableAt driftTable drift) 3 (documentAt 4 8) := by
    intro k hk
    interval_cases k <;> simp [tableAt, drift, Mutation.apply, driftTable, documentAt]
  have hfinished : Finished driftPages := ⟨_, .tail _ (.head _), rfl⟩
  have hwalk := (concurrent_walk (by decide) (by decide) (by simp) rfl).1 _ _ _ walkPages_drift
  exact ⟨walkPages_drift, hwalk.1, hfinished, hstays, (hwalk.2 hfinished _ hstays rfl).mpr rfl⟩

end Walk

end Khora
