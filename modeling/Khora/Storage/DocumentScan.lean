import Khora.Filter.Python
import Khora.Lib.Keyset

/-!
# The document walk

`StorageCoordinator.scan_documents_page` drives a relational store's
`scan_documents` one bounded step at a time, post-filters each step's rows in
memory, and hands out pages; a caller feeds `next_after` back until the page says
`exhausted`.  No transaction spans the steps, so a store is modelled by the
answers it gives to its successive statements: a primitive is told how many
statements ran before the call and says how many ran after it.

* `pageLoop_spec`, `page_spec`, `walk_spec` — what a step, a page and a walk add to
  the rows read so far, over any store that answers with windows.
* `walk_exactly_once` — over an unchanging table the walk ends and its pages are
  the documents of the filter, each once, in descending order.
-/

namespace Khora

open Fallible Keyset

/-! ## Documents and steps -/

/-- `DocumentScanKey`: the `created_at` instant and the id. -/
abbrev ScanKey := Int ×ₗ ℕ

/-- A document as the walk sees it: its position and what the post-filter reads. -/
structure Document where
  createdAt : Int
  id : ℕ
  record : Record

def Document.scanKey (d : Document) : ScanKey := stampKey Document.createdAt Document.id d

structure DocumentScanStep where
  documents : List Document
  lastScanned : Option ScanKey
  exhausted : Bool
  consumedKeys : List String

/-- `build_scan_step`: exhaustion is read off the raw row count. -/
def buildScanStep (documents : List Document) (lastScanned : Option ScanKey)
    (rawRowCount scanLimit : ℕ) (consumedKeys : List String) : DocumentScanStep where
  documents := documents
  lastScanned := lastScanned
  exhausted := decide (rawRowCount < scanLimit)
  consumedKeys := consumedKeys

/-- A page handed to the caller. -/
structure DocumentPage where
  documents : List Document
  nextAfter : Option ScanKey
  exhausted : Bool
  postFilteredKeys : List String

/-- A store's `scan_documents(after, scan_limit)`.  The first argument is the number of
statements the walk has run so far, the last component of the answer the number after. -/
abbrev ScanPrimitive := ℕ → Option ScanKey → ℕ → Except PyErr (DocumentScanStep × ℕ)

/-! ## One page -/

/-- `build_compile_context("documents", on_unsupported="split")`. -/
def documentsContext : CompileContext where
  backendTarget := "documents"
  tableAlias := none
  paramNamespace := "f"
  fieldMapping := none
  schemaCapabilities := ⟨false, false, false, false⟩
  onUnsupported := .split

/-- The post-filter of a page; without a filter every row is kept. -/
def compilePostFilter (filterAst : Option Ast) : Except PyErr (Document → Except PyErr Bool) :=
  match filterAst with
  | none => .ok fun _ => .ok true
  | some ast => do
      let predicate ← compilePython documentsContext ast
      .ok fun d => predicate d.record

/-- The locals of the page loop. -/
structure PageState where
  matched : List Document
  consumedKeys : List String
  cursor : Option ScanKey
  lastScanned : Option ScanKey
  remaining : ℕ
  exhausted : Bool
  statements : ℕ

section Page

variable (scan : ScanPrimitive) (post : Document → Except PyErr Bool) (limit : ℕ)

/-- `min(need, remaining)`. -/
def PageState.stepLimit (s : PageState) : ℕ := min (limit - s.matched.length) s.remaining

/-- The loop's update after one step. -/
def PageState.absorb (s : PageState) (step : DocumentScanStep) (rows : List Document)
    (statements : ℕ) : PageState where
  matched := s.matched ++ rows
  consumedKeys := s.consumedKeys ++ step.consumedKeys
  cursor := if step.exhausted then s.cursor else step.lastScanned
  lastScanned := step.lastScanned.or s.lastScanned
  remaining := s.remaining - step.documents.length
  exhausted := step.exhausted
  statements := statements

/-- The `while True` loop.  A step that does not end the loop reads at least one row, so
a fuel of the scan bound is never what stops it. -/
def pageLoop : ℕ → PageState → Except PyErr PageState
  | fuel, s =>
      if s.stepLimit limit = 0 then .ok s
      else match fuel with
        | 0 => .ok s
        | fuel + 1 => do
            let (step, statements) ← scan s.statements s.cursor (s.stepLimit limit)
            let rows ← filterE post step.documents
            let s := s.absorb step rows statements
            if step.exhausted then .ok s else pageLoop fuel s

/-- `max(limit x 10, 1000)` unless given. -/
def scanBoundOf (scanBound : Option ℕ) : ℕ := scanBound.getD (max (limit * 10) 1000)

def initialPage (after : Option ScanKey) (scanBound : Option ℕ) (statements : ℕ) : PageState where
  matched := []
  consumedKeys := []
  cursor := after
  lastScanned := none
  remaining := scanBoundOf limit scanBound
  exhausted := false
  statements := statements

/-- `sorted(leaf_keys - consumed_keys)`. -/
def postFilteredKeys (filterAst : Option Ast) (consumedKeys : List String) : List String :=
  match filterAst with
  | none => []
  | some ast => ((ast.leafPaths.filter (· ∉ consumedKeys)).dedup).mergeSort (· ≤ ·)

/-- `StorageCoordinator.scan_documents_page`. -/
def scanDocumentsPage (filterAst : Option Ast) (scanBound : Option ℕ) (statements : ℕ)
    (after : Option ScanKey) : Except PyErr (DocumentPage × ℕ) :=
  if limit < 1 then .error .valueError
  else if scanBoundOf limit scanBound < 1 then .error .valueError
  else do
    let post ← compilePostFilter filterAst
    let s ← pageLoop scan post limit (scanBoundOf limit scanBound)
      (initialPage limit after scanBound statements)
    .ok (⟨s.matched, if s.exhausted then none else s.lastScanned, s.exhausted,
      postFilteredKeys filterAst s.consumedKeys⟩, s.statements)

/-- A caller's walk: at most `fuel` pages, each resumed where the last one stopped. -/
def walkPages (filterAst : Option Ast) (scanBound : Option ℕ) :
    ℕ → ℕ → Option ScanKey → Except PyErr (List DocumentPage × ℕ)
  | 0, statements, _ => .ok ([], statements)
  | fuel + 1, statements, after => do
      let (page, statements) ← scanDocumentsPage scan limit filterAst scanBound statements after
      if page.exhausted then .ok ([page], statements)
      else do
        let (pages, statements) ← walkPages filterAst scanBound fuel statements page.nextAfter
        .ok (page :: pages, statements)

end Page

/-- The walk reached its end. -/
def Finished (pages : List DocumentPage) : Prop := ∃ p ∈ pages, p.exhausted = true

/-! ## The contract of a store -/

/-- The answer to one call: a window over the rows that are there, its last key, and
exhaustion exactly when the window is not full. -/
structure StepOk (present valid : Document → Prop) (after : Option ScanKey) (scanLimit : ℕ)
    (step : DocumentScanStep) : Prop where
  window : Window Document.scanKey present after scanLimit step.documents
  valid : ∀ d ∈ step.documents, valid d
  lastScanned : step.lastScanned = step.documents.getLast?.map Document.scanKey
  exhausted : step.exhausted = decide (step.documents.length < scanLimit)

/-- A store whose answers, as long as no more than `bound` statements ran, are windows over
the rows that are `present`. -/
structure Scans (bound : ℕ) (present valid : Document → Prop) (scan : ScanPrimitive) : Prop where
  mono : ∀ {n after m step n'}, 1 ≤ m → scan n after m = .ok (step, n') → n ≤ n'
  step : ∀ {n after m step n'}, 1 ≤ m → scan n after m = .ok (step, n') → n' ≤ bound →
    StepOk present valid after m step

theorem Scans.imp {bound : ℕ} {present present' valid valid' : Document → Prop} {scan : ScanPrimitive}
    (h : Scans bound present valid scan) (hp : ∀ d, present' d → present d)
    (hv : ∀ d, valid d → valid' d) : Scans bound present' valid' scan where
  mono := h.mono
  step := fun hm hc hn =>
    let s := h.step hm hc hn
    ⟨s.window.mono hp, fun d hd => hv d (s.valid d hd), s.lastScanned, s.exhausted⟩

/-! ## What the loop keeps -/

section Spec

variable {bound : ℕ} {present valid : Document → Prop} {scan : ScanPrimitive}
  {post : Document → Except PyErr Bool} {limit : ℕ}

/-- The keys a page state has yet to read. -/
def PageState.Unread (s : PageState) (k : ScanKey) : Prop :=
  if s.exhausted then False else Below s.cursor k

theorem PageState.unread_eq {s : PageState} (h : s.exhausted = false) :
    s.Unread = Below s.cursor := by
  funext k
  simp [PageState.Unread, h]

/-- What reading `window` did to a page state. -/
structure Read (present valid : Document → Prop) (post : Document → Except PyErr Bool)
    (before window : List Document) (s s' : PageState) : Prop where
  returns : ∀ d ∈ window, Returns (post d)
  valid : ∀ d ∈ window, valid d
  matched : s'.matched = s.matched ++ window.filter fun d => accepts (post d)
  covers : Covers Document.scanKey present s'.Unread (before ++ window)
  position : s'.exhausted = false →
    (window = [] ∧ s'.cursor = s.cursor ∧ s'.lastScanned = s.lastScanned) ∨
      (s'.cursor = s'.lastScanned ∧ s'.cursor.isSome = true)

/-- Reading nothing. -/
theorem Read.refl {before : List Document} {s : PageState}
    (h : Covers Document.scanKey present s.Unread before) :
    Read present valid post before [] s s where
  returns := by simp
  valid := by simp
  matched := by simp
  covers := by simpa using h
  position := fun _ => .inl ⟨rfl, rfl, rfl⟩

/-- Reading one window after another. -/
theorem Read.trans {before w w' : List Document} {s s' s'' : PageState}
    (h : Read present valid post before w s s') (hex : s'.exhausted = false)
    (h' : Read present valid post (before ++ w) w' s' s'') :
    Read present valid post before (w ++ w') s s'' where
  returns := List.forall_mem_append.mpr ⟨h.returns, h'.returns⟩
  valid := List.forall_mem_append.mpr ⟨h.valid, h'.valid⟩
  matched := by rw [h'.matched, h.matched, List.filter_append, List.append_assoc]
  covers := by simpa using h'.covers
  position := by
    intro hx
    rcases h'.position hx with ⟨rfl, hcur, hlast⟩ | hpos
    · rw [hcur, hlast, List.append_nil]
      exact h.position hex
    · exact .inr hpos

/-- One iteration of the loop. -/
theorem pageLoop_step (fuel : ℕ) (s : PageState) (hlim : s.stepLimit limit ≠ 0) :
    pageLoop scan post limit (fuel + 1) s =
      scan s.statements s.cursor (s.stepLimit limit) >>= fun r =>
        filterE post r.1.documents >>= fun rows =>
          if r.1.exhausted then .ok (s.absorb r.1 rows r.2)
          else pageLoop scan post limit fuel (s.absorb r.1 rows r.2) := by
  rw [pageLoop, if_neg hlim]

theorem pageLoop_done (fuel : ℕ) (s : PageState) (hlim : s.stepLimit limit = 0) :
    pageLoop scan post limit fuel s = .ok s := by
  cases fuel <;> rw [pageLoop, if_pos hlim]

theorem pageLoop_zero (s : PageState) : pageLoop scan post limit 0 s = .ok s := by
  rw [pageLoop]
  split <;> rfl

/-- **One step of a page.**  The rows of the step are read, and those the post-filter
accepts are appended. -/
theorem read_absorb {s : PageState} {before : List Document} {step : DocumentScanStep} {n : ℕ}
    (hs : Covers Document.scanKey present s.Unread before) (hex : s.exhausted = false)
    {m : ℕ} (hm : 1 ≤ m) (hstep : StepOk present valid s.cursor m step)
    (hret : ∀ d ∈ step.documents, Returns (post d)) :
    Read present valid post before step.documents s
      (s.absorb step (step.documents.filter fun d => accepts (post d)) n) := by
  have hcov : Covers Document.scanKey present (Below s.cursor) before := PageState.unread_eq hex ▸ hs
  refine ⟨hret, hstep.valid, rfl, ?_, ?_⟩
  · by_cases hfull : step.documents.length < m
    · have hun : (s.absorb step (step.documents.filter fun d => accepts (post d)) n).Unread =
          fun _ => False := by
        funext k
        simp [PageState.Unread, PageState.absorb, hstep.exhausted, hfull]
      rw [hun]
      exact hcov.short hstep.window hfull
    · obtain ⟨e, he⟩ : ∃ e, step.documents.getLast? = some e := by
        refine Option.isSome_iff_exists.mp ?_
        rw [List.getLast?_isSome]
        exact List.ne_nil_of_length_pos (by omega)
      have hun : (s.absorb step (step.documents.filter fun d => accepts (post d)) n).Unread =
          Below (some e.scanKey) := by
        funext k
        simp [PageState.Unread, PageState.absorb, hstep.exhausted, hfull, hstep.lastScanned, he]
      rw [hun]
      exact hcov.full hstep.window he
  · intro hnx
    have hfull : ¬ step.documents.length < m := by
      have : step.exhausted = false := hnx
      simpa [hstep.exhausted] using this
    have hsome : step.lastScanned.isSome = true := by
      rw [hstep.lastScanned, Option.isSome_map, List.getLast?_isSome]
      exact List.ne_nil_of_length_pos (by omega)
    obtain ⟨k, hk⟩ := Option.isSome_iff_exists.mp hsome
    have hnx' : step.exhausted = false := hnx
    exact .inr (by simp [PageState.absorb, hnx', hk])

/-- A page never holds more than the limit. -/
theorem length_absorb_le {s : PageState} {step : DocumentScanStep} {rows : List Document} {n : ℕ}
    (hstep : StepOk present valid s.cursor (s.stepLimit limit) step)
    (hrows : rows.length ≤ step.documents.length) (hs : s.matched.length ≤ limit) :
    (s.absorb step rows n).matched.length ≤ limit := by
  have hlen := hstep.window.length_le
  have hmin : s.stepLimit limit ≤ limit - s.matched.length := Nat.min_le_left _ _
  have : (s.absorb step rows n).matched.length = s.matched.length + rows.length := by
    simp [PageState.absorb]
  omega

theorem statements_mono (hscan : Scans bound present valid scan) (fuel : ℕ) :
    ∀ s s', pageLoop scan post limit fuel s = .ok s' → s.statements ≤ s'.statements := by
  induction fuel with
  | zero =>
      intro s s' h
      rw [pageLoop_zero] at h
      cases h
      exact le_rfl
  | succ fuel ih =>
      intro s s' h
      by_cases hlim : s.stepLimit limit = 0
      · rw [pageLoop_done _ _ hlim] at h
        cases h
        exact le_rfl
      · rw [pageLoop_step _ _ hlim] at h
        obtain ⟨⟨step, n⟩, hcall, h⟩ := bind_eq_ok.mp h
        obtain ⟨rows, -, h⟩ := bind_eq_ok.mp h
        have hn : s.statements ≤ n := hscan.mono (Nat.one_le_iff_ne_zero.mpr hlim) hcall
        by_cases hex : step.exhausted = true
        · simp only [hex, if_true, Except.ok.injEq] at h
          exact h ▸ hn
        · simp only [hex] at h
          exact hn.trans (ih _ _ h)

/-- **What a run of the page loop reads.** -/
theorem pageLoop_spec (hscan : Scans bound present valid scan) (fuel : ℕ) :
    ∀ s before s', pageLoop scan post limit fuel s = .ok s' → s'.statements ≤ bound →
      s.exhausted = false → s.matched.length ≤ limit →
      Covers Document.scanKey present s.Unread before →
      ∃ window, Read present valid post before window s s' ∧ s'.matched.length ≤ limit ∧
        (s.stepLimit limit ≠ 0 → fuel ≠ 0 → s'.exhausted = true ∨ window ≠ []) := by
  induction fuel with
  | zero =>
      intro s before s' h _ hex hlen hcov
      rw [pageLoop_zero] at h
      cases h
      exact ⟨[], .refl hcov, hlen, by simp⟩
  | succ fuel ih =>
      intro s before s' h hb hex hlen hcov
      by_cases hlim : s.stepLimit limit = 0
      · rw [pageLoop_done _ _ hlim] at h
        cases h
        exact ⟨[], .refl hcov, hlen, by simp [hlim]⟩
      · rw [pageLoop_step _ _ hlim] at h
        obtain ⟨⟨step, n⟩, hcall, h⟩ := bind_eq_ok.mp h
        obtain ⟨rows, hrows, h⟩ := bind_eq_ok.mp h
        obtain ⟨hret, rfl⟩ := filterE_eq_ok.mp hrows
        set rows := step.documents.filter fun d => accepts (post d) with hdef
        have hm : 1 ≤ s.stepLimit limit := Nat.one_le_iff_ne_zero.mpr hlim
        have hn : n ≤ bound := by
          by_cases hx : step.exhausted = true
          · simp only [hx, if_true, Except.ok.injEq] at h
            subst h
            exact hb
          · simp only [hx] at h
            exact (statements_mono hscan fuel _ _ h).trans hb
        have hstep := hscan.step hm hcall hn
        have hread := read_absorb (n := n) hcov hex hm hstep hret
        have hlen' : (s.absorb step rows n).matched.length ≤ limit :=
          length_absorb_le hstep (List.length_filter_le _ _) hlen
        by_cases hx : step.exhausted = true
        · simp only [hx, if_true, Except.ok.injEq] at h
          subst h
          exact ⟨step.documents, hread, hlen', fun _ _ => .inl hx⟩
        · have hx : step.exhausted = false := by simpa using hx
          simp only [hx] at h
          obtain ⟨window, hw, hmax, -⟩ := ih _ _ _ h hb hx hlen' hread.covers
          have hne : step.documents ≠ [] := by
            have := hstep.exhausted
            rw [hx] at this
            exact List.ne_nil_of_length_pos (by simp at this; omega)
          exact ⟨step.documents ++ window, hread.trans hx hw, hmax, fun _ _ => .inr (by simp [hne])⟩

/-- The loop returns when the store and the post-filter do. -/
theorem returns_pageLoop (hscan : ∀ b, Scans b present valid scan)
    (hcall : ∀ n after m, 1 ≤ m → Returns (scan n after m))
    (hpost : ∀ d, valid d → Returns (post d)) (fuel : ℕ) :
    ∀ s, Returns (pageLoop scan post limit fuel s) := by
  induction fuel with
  | zero =>
      intro s
      exact ⟨s, pageLoop_zero s⟩
  | succ fuel ih =>
      intro s
      by_cases hlim : s.stepLimit limit = 0
      · exact ⟨s, pageLoop_done _ _ hlim⟩
      · have hm := Nat.one_le_iff_ne_zero.mpr hlim
        obtain ⟨⟨step, n⟩, hc⟩ := hcall s.statements s.cursor _ hm
        have hstep := (hscan n).step hm hc le_rfl
        obtain ⟨rows, hrows⟩ := returns_filterE fun d hd => hpost d (hstep.valid d hd)
        rw [pageLoop_step _ _ hlim, hc]
        show Returns (filterE post step.documents >>= _)
        rw [hrows]
        show Returns (if step.exhausted = true then _ else _)
        split
        · exact ⟨_, rfl⟩
        · exact ih _

/-! ## Pages and walks -/

variable {filterAst : Option Ast} {scanBound : Option ℕ}

theorem scanBoundOf_pos (limit : ℕ) (hbound : ∀ b, scanBound = some b → 1 ≤ b) :
    1 ≤ scanBoundOf limit scanBound := by
  cases scanBound with
  | none =>
      show 1 ≤ max (limit * 10) 1000
      omega
  | some b => exact hbound b rfl

/-- The page of a valid request. -/
theorem scanDocumentsPage_eq (hlimit : 1 ≤ limit) (hbound : ∀ b, scanBound = some b → 1 ≤ b)
    (hpost : compilePostFilter filterAst = .ok post) (n : ℕ) (after : Option ScanKey) :
    scanDocumentsPage scan limit filterAst scanBound n after =
      (fun s => (⟨s.matched, if s.exhausted then none else s.lastScanned, s.exhausted,
        postFilteredKeys filterAst s.consumedKeys⟩, s.statements)) <$>
        pageLoop scan post limit (scanBoundOf limit scanBound)
          (initialPage limit after scanBound n) := by
  have hb := scanBoundOf_pos limit hbound
  rw [scanDocumentsPage, if_neg (by omega), if_neg (by omega), hpost]
  show (pageLoop scan post limit _ _ >>= _) = _
  cases pageLoop scan post limit (scanBoundOf limit scanBound)
    (initialPage limit after scanBound n) <;> rfl

/-- The keys a caller that got this page has yet to see. -/
def DocumentPage.Unread (page : DocumentPage) (k : ScanKey) : Prop :=
  if page.exhausted then False else Below page.nextAfter k

/-- What a page says: it holds the accepted rows of what it read, at most `limit` of
them, and carries a position exactly when the walk goes on. -/
structure PageOk (limit : ℕ) (page : DocumentPage) : Prop where
  length_le : page.documents.length ≤ limit
  nextAfter_none : page.nextAfter = none ↔ page.exhausted = true

theorem page_statements_mono (hscan : Scans bound present valid scan) (hlimit : 1 ≤ limit)
    (hbound : ∀ b, scanBound = some b → 1 ≤ b) (hpost : compilePostFilter filterAst = .ok post)
    {n n' : ℕ} {after : Option ScanKey} {page : DocumentPage}
    (h : scanDocumentsPage scan limit filterAst scanBound n after = .ok (page, n')) : n ≤ n' := by
  rw [scanDocumentsPage_eq hlimit hbound hpost, map_eq_ok] at h
  obtain ⟨s, hs, heq⟩ := h
  obtain ⟨-, rfl⟩ := Prod.mk.inj heq
  exact statements_mono hscan _ _ _ hs

/-- **What one page reads.** -/
theorem page_spec (hscan : Scans bound present valid scan) (hlimit : 1 ≤ limit)
    (hbound : ∀ b, scanBound = some b → 1 ≤ b) (hpost : compilePostFilter filterAst = .ok post)
    {n n' : ℕ} {after : Option ScanKey} {page : DocumentPage} {before : List Document}
    (h : scanDocumentsPage scan limit filterAst scanBound n after = .ok (page, n'))
    (hn : n' ≤ bound) (hcov : Covers Document.scanKey present (Below after) before) :
    PageOk limit page ∧ ∃ window, (∀ d ∈ window, Returns (post d)) ∧
      (∀ d ∈ window, valid d) ∧ page.documents = window.filter (fun d => accepts (post d)) ∧
      Covers Document.scanKey present page.Unread (before ++ window) ∧
      (page.exhausted = false → window ≠ []) := by
  rw [scanDocumentsPage_eq hlimit hbound hpost, map_eq_ok] at h
  obtain ⟨s, hs, heq⟩ := h
  obtain ⟨rfl, rfl⟩ := Prod.mk.inj heq
  have hb := scanBoundOf_pos limit hbound
  obtain ⟨window, hread, hlen, hprog⟩ := pageLoop_spec hscan _ _ before _ hs hn rfl
    (by simp [initialPage]) (by rw [PageState.unread_eq rfl]; exact hcov)
  have hstart : (initialPage limit after scanBound n).stepLimit limit ≠ 0 := by
    show min (limit - 0) (scanBoundOf limit scanBound) ≠ 0
    omega
  have hprog := hprog hstart (by omega)
  have hpos : s.exhausted = false → s.cursor = s.lastScanned ∧ s.cursor.isSome = true := by
    intro hx
    rcases hread.position hx with ⟨hw, -⟩ | hp
    · rcases hprog with hxt | hne
      · simp [hx] at hxt
      · exact absurd hw hne
    · exact hp
  refine ⟨⟨hlen, ?_⟩, window, hread.returns, hread.valid,
    by simpa [initialPage] using hread.matched, ?_, ?_⟩
  · cases hx : s.exhausted with
    | true => simp
    | false =>
        obtain ⟨hc, hsome⟩ := hpos hx
        rw [hc] at hsome
        simp [Option.isSome_iff_ne_none.mp hsome]
  · have hun : DocumentPage.Unread ⟨s.matched, if s.exhausted then none else s.lastScanned,
        s.exhausted, postFilteredKeys filterAst s.consumedKeys⟩ = s.Unread := by
      funext k
      cases hx : s.exhausted with
      | true => simp [DocumentPage.Unread, PageState.Unread, hx]
      | false => simp [DocumentPage.Unread, PageState.Unread, hx, (hpos hx).1]
    rw [hun]
    exact hread.covers
  · intro hx
    rcases hprog with hxt | hne
    · have : s.exhausted = false := hx
      simp [this] at hxt
    · exact hne

/-- One page of a walk. -/
theorem walkPages_succ (fuel n : ℕ) (after : Option ScanKey) :
    walkPages scan limit filterAst scanBound (fuel + 1) n after =
      scanDocumentsPage scan limit filterAst scanBound n after >>= fun r =>
        if r.1.exhausted then .ok ([r.1], r.2)
        else (fun q => (r.1 :: q.1, q.2)) <$>
          walkPages scan limit filterAst scanBound fuel r.2 r.1.nextAfter := by
  rw [walkPages]
  cases scanDocumentsPage scan limit filterAst scanBound n after with
  | error e => rfl
  | ok r =>
      obtain ⟨page, n'⟩ := r
      show (if page.exhausted = true then _ else _) = (if page.exhausted = true then _ else _)
      split
      · rfl
      · show (walkPages scan limit filterAst scanBound fuel n' page.nextAfter >>= _) = _
        cases walkPages scan limit filterAst scanBound fuel n' page.nextAfter <;> rfl

/-- A walk whose first step reads the table to its end is one page. -/
theorem walkPages_exhausted (hlimit : 1 ≤ limit) (hbound : ∀ b, scanBound = some b → 1 ≤ b)
    (hpost : compilePostFilter filterAst = .ok post) {fuel n n' : ℕ} {after : Option ScanKey}
    {step : DocumentScanStep} {rows : List Document}
    (hstep : scan n after (min limit (scanBoundOf limit scanBound)) = .ok (step, n'))
    (hex : step.exhausted = true) (hrows : filterE post step.documents = .ok rows) :
    walkPages scan limit filterAst scanBound (fuel + 1) n after =
      .ok ([⟨rows, none, true, postFilteredKeys filterAst step.consumedKeys⟩], n') := by
  have hpos := scanBoundOf_pos limit hbound
  obtain ⟨b, hb⟩ : ∃ b, scanBoundOf limit scanBound = b + 1 := ⟨_, (Nat.sub_add_cancel hpos).symm⟩
  have hlim : (initialPage limit after scanBound n).stepLimit limit = min limit (scanBoundOf limit scanBound) :=
    rfl
  have hloop : pageLoop scan post limit (scanBoundOf limit scanBound) (initialPage limit after scanBound n) =
      .ok ((initialPage limit after scanBound n).absorb step rows n') := by
    rw [show pageLoop scan post limit (scanBoundOf limit scanBound) = pageLoop scan post limit (b + 1) by rw [hb],
      pageLoop_step b _ (by rw [hlim]; omega), hlim]
    show (scan n after _ >>= _) = _
    rw [hstep]
    show (filterE post step.documents >>= _) = _
    rw [hrows]
    show (if step.exhausted = true then _ else _) = _
    rw [if_pos hex]
  rw [walkPages_succ, scanDocumentsPage_eq hlimit hbound hpost, hloop]
  simp [PageState.absorb, initialPage, hex, bind, Except.bind]

theorem walk_statements_mono (hscan : Scans bound present valid scan) (hlimit : 1 ≤ limit)
    (hbound : ∀ b, scanBound = some b → 1 ≤ b) (hpost : compilePostFilter filterAst = .ok post)
    (fuel : ℕ) : ∀ n after r, walkPages scan limit filterAst scanBound fuel n after = .ok r →
      n ≤ r.2 := by
  induction fuel with
  | zero =>
      intro n after r h
      cases h
      exact le_rfl
  | succ fuel ih =>
      intro n after r h
      rw [walkPages_succ] at h
      obtain ⟨⟨page, n₁⟩, hpage, h⟩ := bind_eq_ok.mp h
      have hn := page_statements_mono hscan hlimit hbound hpost hpage
      by_cases hx : page.exhausted = true
      · simp only [hx, if_true, Except.ok.injEq] at h
        subst h
        exact hn
      · simp only [hx] at h
        obtain ⟨q, hq, rfl⟩ := map_eq_ok.mp h
        exact hn.trans (ih n₁ page.nextAfter q hq)

/-- What a walk read, page after page. -/
structure Walked (present valid : Document → Prop) (post : Document → Except PyErr Bool)
    (limit fuel : ℕ) (before window : List Document) (pages : List DocumentPage) : Prop where
  returns : ∀ d ∈ window, Returns (post d)
  valid : ∀ d ∈ window, valid d
  documents : pages.flatMap DocumentPage.documents = window.filter fun d => accepts (post d)
  descending : Descending Document.scanKey (before ++ window)
  pageOk : ∀ p ∈ pages, PageOk limit p
  complete : Finished pages → ∀ d, present d → d ∈ before ++ window
  advance : ¬ Finished pages → fuel ≤ window.length

/-- **What a whole walk reads.**  Induction over its pages; the rows read before each
page cover everything at or above its position. -/
theorem walk_spec (hscan : Scans bound present valid scan) (hlimit : 1 ≤ limit)
    (hbound : ∀ b, scanBound = some b → 1 ≤ b) (hpost : compilePostFilter filterAst = .ok post)
    (fuel : ℕ) : ∀ n after before pages n',
      walkPages scan limit filterAst scanBound fuel n after = .ok (pages, n') → n' ≤ bound →
      Covers Document.scanKey present (Below after) before →
      ∃ window, Walked present valid post limit fuel before window pages := by
  induction fuel with
  | zero =>
      intro n after before pages n' h _ hcov
      cases h
      exact ⟨[], by simp, by simp, by simp, by simpa using hcov.descending, by simp,
        by simp [Finished], by simp⟩
  | succ fuel ih =>
      intro n after before pages n' h hn hcov
      rw [walkPages_succ] at h
      obtain ⟨⟨page, n₁⟩, hpage, h⟩ := bind_eq_ok.mp h
      by_cases hx : page.exhausted = true
      · simp only [hx, if_true, Except.ok.injEq, Prod.mk.injEq] at h
        obtain ⟨rfl, rfl⟩ := h
        obtain ⟨hok, window, hret, hval, hdocs, hc, -⟩ :=
          page_spec hscan hlimit hbound hpost hpage hn hcov
        refine ⟨window, hret, hval, by simpa using hdocs, hc.descending, by simpa using hok, ?_, ?_⟩
        · intro _ d hd
          rcases hc.complete d hd with hu | hin
          · simp [DocumentPage.Unread, hx] at hu
          · exact hin
        · exact fun hnf => absurd ⟨page, by simp, hx⟩ hnf
      · have hx : page.exhausted = false := by simpa using hx
        simp only [hx] at h
        obtain ⟨⟨rest, n₂⟩, hrest, heq⟩ := map_eq_ok.mp h
        obtain ⟨rfl, rfl⟩ := Prod.mk.inj heq
        have hn₁ := walk_statements_mono hscan hlimit hbound hpost fuel _ _ _ hrest
        obtain ⟨hok, window, hret, hval, hdocs, hc, hne⟩ :=
          page_spec hscan hlimit hbound hpost hpage (hn₁.trans hn) hcov
        have hun : page.Unread = Below page.nextAfter := by
          funext k
          simp [DocumentPage.Unread, hx]
        obtain ⟨window', hw⟩ := ih _ _ _ _ _ hrest hn (hun ▸ hc)
        refine ⟨window ++ window', ?_, ?_, ?_, ?_, ?_, ?_, ?_⟩
        · exact List.forall_mem_append.mpr ⟨hret, hw.returns⟩
        · exact List.forall_mem_append.mpr ⟨hval, hw.valid⟩
        · rw [List.flatMap_cons, hdocs, hw.documents, List.filter_append]
        · simpa using hw.descending
        · exact List.forall_mem_cons.mpr ⟨hok, hw.pageOk⟩
        · rintro ⟨p, hp, hpx⟩
          rcases List.mem_cons.mp hp with rfl | hp
          · simp [hx] at hpx
          · simpa using hw.complete ⟨p, hp, hpx⟩
        · intro hnf
          have hlen := hw.advance fun ⟨p, hp, hpx⟩ => hnf ⟨p, List.mem_cons_of_mem _ hp, hpx⟩
          have hpos := List.length_pos_of_ne_nil (hne hx)
          rw [List.length_append]
          omega

/-- More fuel does not change a finished walk. -/
theorem walkPages_of_finished (fuel : ℕ) : ∀ n after pages n',
    walkPages scan limit filterAst scanBound fuel n after = .ok (pages, n') → Finished pages →
      walkPages scan limit filterAst scanBound (fuel + 1) n after = .ok (pages, n') := by
  induction fuel with
  | zero =>
      intro n after pages n' h hf
      cases h
      simp [Finished] at hf
  | succ fuel ih =>
      intro n after pages n' h hf
      rw [walkPages_succ] at h ⊢
      obtain ⟨⟨page, n₁⟩, hpage, h⟩ := bind_eq_ok.mp h
      refine bind_eq_ok.mpr ⟨(page, n₁), hpage, ?_⟩
      by_cases hx : page.exhausted = true
      · simpa only [hx, if_true] using h
      · simp only [hx] at h ⊢
        obtain ⟨⟨rest, n₂⟩, hrest, heq⟩ := map_eq_ok.mp h
        obtain ⟨rfl, rfl⟩ := Prod.mk.inj heq
        refine map_eq_ok.mpr ⟨(rest, n₂), ih _ _ _ _ hrest ?_, rfl⟩
        obtain ⟨p, hp, hpx⟩ := hf
        rcases List.mem_cons.mp hp with rfl | hp
        · exact absurd hpx hx
        · exact ⟨p, hp, hpx⟩

/-- A walk returns when the store and the post-filter do. -/
theorem returns_walkPages (hscan : ∀ b, Scans b present valid scan)
    (hcall : ∀ n after m, 1 ≤ m → Returns (scan n after m)) (hlimit : 1 ≤ limit)
    (hbound : ∀ b, scanBound = some b → 1 ≤ b) (hpost : compilePostFilter filterAst = .ok post)
    (hret : ∀ d, valid d → Returns (post d)) (fuel : ℕ) :
    ∀ n after, Returns (walkPages scan limit filterAst scanBound fuel n after) := by
  induction fuel with
  | zero =>
      intro n after
      exact ⟨_, rfl⟩
  | succ fuel ih =>
      intro n after
      obtain ⟨⟨page, n₁⟩, hpage⟩ : Returns (scanDocumentsPage scan limit filterAst scanBound n after) := by
        rw [scanDocumentsPage_eq hlimit hbound hpost, returns_map]
        exact returns_pageLoop hscan hcall hret _ _
      rw [walkPages_succ, hpage]
      show Returns (if page.exhausted = true then _ else _)
      split
      · exact ⟨_, rfl⟩
      · rw [returns_map]
        exact ih _ _

end Spec

/-! ## The walk over an unchanging table -/

section Unchanging

variable (table : List Document) (keep : Document → Bool)

/-- The first `scanLimit` rows below a position among the kept rows, newest first. -/
def scanWindow (after : Option ScanKey) (scanLimit : ℕ) : List Document :=
  Keyset.select Document.scanKey (fun d => keep d && decide (Below after d.scanKey)) scanLimit table

/-- The contract of `scan_documents` over a table that does not change. -/
def MeetsScanContract (scan : ScanPrimitive) : Prop :=
  ∀ n after m, 1 ≤ m → ∃ keys n', n ≤ n' ∧ scan n after m =
    .ok (buildScanStep (scanWindow table keep after m)
      ((scanWindow table keep after m).getLast?.map Document.scanKey)
      (scanWindow table keep after m).length m keys, n')

/-- The documents of a filter in descending `(created_at, id)` order. -/
def enumerate (p : Document → Bool) : List Document :=
  (table.filter p).mergeSort fun a b => decide (b.scanKey ≤ a.scanKey)

/-- The walk from the start ends, and its pages are the documents of the filter. -/
def WalksExactlyOnce (scan : ScanPrimitive) (filterAst : Option Ast) (limit : ℕ)
    (scanBound : Option ℕ) : Prop :=
  ∃ post pages n fuel₀, compilePostFilter filterAst = .ok post ∧
    (∀ fuel, fuel₀ ≤ fuel →
      walkPages scan limit filterAst scanBound fuel 0 none = .ok (pages, n)) ∧
    Finished pages ∧
    pages.flatMap DocumentPage.documents = enumerate table (fun d => accepts (post d)) ∧
    ∀ p ∈ pages, PageOk limit p

variable {table keep}

theorem scanKey_nodup (hids : (table.map Document.id).Nodup) :
    (table.map Document.scanKey).Nodup := by
  rw [List.Nodup, List.pairwise_map] at hids ⊢
  refine hids.imp fun {a b} hne heq => hne ?_
  have : (a.createdAt, a.id) = (b.createdAt, b.id) := toLex_inj.mp heq
  exact (Prod.mk.inj this).2

theorem MeetsScanContract.scans {scan : ScanPrimitive} (h : MeetsScanContract table keep scan)
    (hids : (table.map Document.id).Nodup) (bound : ℕ) :
    Scans bound (fun d => d ∈ table ∧ keep d = true) (fun d => d ∈ table ∧ keep d = true) scan where
  mono := by
    intro n after m step n' hm hc
    obtain ⟨keys, n₁, hn, heq⟩ := h n after m hm
    rw [heq] at hc
    obtain ⟨-, rfl⟩ := Prod.mk.inj (Except.ok.inj hc)
    exact hn
  step := by
    intro n after m step n' hm hc _
    obtain ⟨keys, n₁, -, heq⟩ := h n after m hm
    rw [heq] at hc
    obtain ⟨rfl, rfl⟩ := Prod.mk.inj (Except.ok.inj hc)
    refine ⟨select_window (scanKey_nodup hids) keep, fun d hd => ?_, rfl, rfl⟩
    obtain ⟨hd, hk⟩ := mem_of_mem_select hd
    exact ⟨hd, (Bool.and_eq_true_iff.mp hk).1⟩

/-- **The exactly-once walk.**  Over any store that meets the scan contract with a pushed
predicate wider than the filter, the walk does what it says exactly when the
post-filter returns on every row the store hands out. -/
theorem walk_exactly_once {scan : ScanPrimitive} {filterAst : Option Ast} {limit : ℕ}
    {scanBound : Option ℕ} (hids : (table.map Document.id).Nodup)
    (hscan : MeetsScanContract table keep scan)
    (hsuper : ∀ post, compilePostFilter filterAst = .ok post →
      ∀ d ∈ table, post d = .ok true → keep d = true)
    (hlimit : 1 ≤ limit) (hbound : ∀ b, scanBound = some b → 1 ≤ b) :
    WalksExactlyOnce table scan filterAst limit scanBound ↔
      ∃ post, compilePostFilter filterAst = .ok post ∧
        ∀ d ∈ table, keep d = true → Returns (post d) := by
  constructor
  · rintro ⟨post, pages, n, fuel, hpost, hwalk, hfin, -, -⟩
    obtain ⟨window, hw⟩ := walk_spec (hscan.scans hids n) hlimit hbound hpost fuel _ _ [] _ _
      (hwalk fuel le_rfl) le_rfl .start
    refine ⟨post, hpost, fun d hd hk => hw.returns d ?_⟩
    simpa using hw.complete hfin d ⟨hd, hk⟩
  · rintro ⟨post, hpost, hret⟩
    have hcall : ∀ n after m, 1 ≤ m → Returns (scan n after m) := by
      intro n after m hm
      obtain ⟨keys, n', -, heq⟩ := hscan n after m hm
      exact ⟨_, heq⟩
    obtain ⟨⟨pages, n⟩, hwalk⟩ := returns_walkPages (hscan.scans hids) hcall hlimit hbound hpost
      (fun d hd => hret d hd.1 hd.2) (table.length + 1) 0 none
    obtain ⟨window, hw⟩ := walk_spec (hscan.scans hids n) hlimit hbound hpost _ _ _ [] _ _ hwalk
      le_rfl .start
    have hdesc : Descending Document.scanKey window := by simpa using hw.descending
    have hsub : window ⊆ table := fun d hd => (hw.valid d hd).1
    have hfin : Finished pages := by
      by_contra hnf
      have hlong := hw.advance hnf
      have hshort := (List.subperm_of_subset hdesc.nodup hsub).length_le
      omega
    refine ⟨post, pages, n, table.length + 1, hpost, ?_, hfin, ?_, hw.pageOk⟩
    · intro fuel hfuel
      induction fuel, hfuel using Nat.le_induction with
      | base => exact hwalk
      | succ fuel _ ih => exact walkPages_of_finished fuel _ _ _ _ ih hfin
    · rw [hw.documents]
      refine (hdesc.sublist List.filter_sublist).eq_of_mem_iff
        (sorted_descending (scanKey_nodup hids)) fun d => ?_
      rw [List.mem_filter, enumerate, List.mem_mergeSort, List.mem_filter]
      constructor
      · rintro ⟨hd, ha⟩
        exact ⟨hsub hd, ha⟩
      · rintro ⟨hd, ha⟩
        have hk := hsuper post hpost d hd (accepts_iff.mp ha)
        exact ⟨by simpa using hw.complete hfin d ⟨hd, hk⟩, ha⟩

/-- A store over an unchanging table, one statement a call. -/
def tableScan (table : List Document) (keep : Document → Bool) : ScanPrimitive :=
  fun n after m => .ok (buildScanStep (scanWindow table keep after m)
    ((scanWindow table keep after m).getLast?.map Document.scanKey)
    (scanWindow table keep after m).length m [], n + 1)

theorem tableScan_meets (table : List Document) (keep : Document → Bool) :
    MeetsScanContract table keep (tableScan table keep) :=
  fun n _ _ _ => ⟨[], n + 1, Nat.le_succ n, rfl⟩

/-- Two documents of one instant and an older one, with their metadata. -/
def tiedDocuments : List Document :=
  [⟨7, 1, metadataRecord [(.str "k", .int 1)]⟩, ⟨7, 2, metadataRecord [(.str "k", .int 2)]⟩,
    ⟨5, 3, metadataRecord []⟩]

theorem walk_exactly_once_tiedDocuments :
    WalksExactlyOnce tiedDocuments (tableScan tiedDocuments fun _ => true)
      (some (.node .and [.clause ⟨["metadata", "k"], .eq, .int 1⟩])) 1 (some 2) := by
  refine (walk_exactly_once (by decide) (tableScan_meets _ _) (fun _ _ _ _ _ => rfl) (by decide)
    (by simp)).mpr ⟨_, rfl, ?_⟩
  intro d _ _
  show Returns ([mdEqFn ["k"] (.int 1)].allM fun fn => fn d.record)
  rw [allM_singleton]
  exact ⟨_, rfl⟩

/-- A document whose `metadata.k` is null. -/
def nullDocument : Document := ⟨7, 1, metadataRecord [(.str "k", .none)]⟩

/-- The AST of `metadata.k > null`. -/
def nullRangeAst : Ast := .node .and [.clause ⟨["metadata", "k"], .gt, .none⟩]

/-- The post-filter of `metadata.k > null` raises on it, and so does the first page. -/
theorem nullRangeFilter_walk_raises : ∃ f, nullRangeFilter.validate = .ok f ∧
    parseToAst f = .ok nullRangeAst ∧
    (∀ fuel, walkPages (tableScan [nullDocument] fun _ => true) 1 (some nullRangeAst) (some 1) (fuel + 1) 0
      none = .error .typeError) ∧
    ¬ WalksExactlyOnce [nullDocument] (tableScan [nullDocument] fun _ => true) (some nullRangeAst) 1
      (some 1) := by
  refine ⟨_, rfl, rfl, ?_⟩
  have hrows : scanWindow [nullDocument] (fun _ => true) none 1 = [nullDocument] := by
    show ([nullDocument].mergeSort _).take 1 = [nullDocument]
    rw [List.mergeSort_singleton]
    rfl
  have hraise : ∀ fuel, walkPages (tableScan [nullDocument] fun _ => true) 1
      (some nullRangeAst) (some 1) (fuel + 1) 0 none = .error .typeError := by
    intro fuel
    have hbound : scanBoundOf 1 (some 1) = 0 + 1 := rfl
    rw [walkPages_succ, scanDocumentsPage_eq (by decide) (by simp) rfl, hbound,
      pageLoop_step 0 (initialPage 1 none (some 1) 0) (by decide)]
    show ((_ <$> (filterE _ (scanWindow [nullDocument] (fun _ => true) none 1) >>= _)) >>= _) = _
    rw [hrows]
    rfl
  refine ⟨hraise, ?_⟩
  rintro ⟨post, pages, n, fuel, -, hwalk, -⟩
  have := hwalk (fuel + 1) (Nat.le_succ fuel)
  rw [hraise] at this
  cases this

end Unchanging

end Khora
