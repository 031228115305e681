import Mathlib.Data.List.Basic
import Mathlib.Data.List.Infix
import Mathlib.Tactic.Common

/-!
# Slices, searches and splits of Python sequences

`s[i:j]`, `s.find(sub, lo)` and `s.rfind(sub, lo, hi)`, with indices that count from the end when
they are negative; `s.split(sep)`, and `re.split` for a pattern given by the length of its match.

* `slice_eq` — a slice between indices that are not negative.
* `rfind_cases` — `rfind` gives -1, or a place between its bounds.
* `flatten_withSep_splitOn` — the pieces of `split`, the separator put back, are the string.
-/

namespace PySeq

variable {α : Type*}

/-! ## Slices -/

/-- The place an index means in a sequence of length `n`: negative ones count from the end. -/
def place (n : ℕ) (i : ℤ) : ℕ := (if i < 0 then i + n else i).toNat

/-- `s[i:j]` -/
def slice (s : List α) (i j : ℤ) : List α := (s.take (place s.length j)).drop (place s.length i)

theorem place_of_nonneg (n : ℕ) {i : ℤ} (h : 0 ≤ i) : place n i = i.toNat := by
  unfold place
  rw [if_neg (by omega)]

theorem slice_eq (s : List α) {i j : ℤ} (hi : 0 ≤ i) (hj : 0 ≤ j) :
    slice s i j = (s.take j.toNat).drop i.toNat := by
  unfold slice
  rw [place_of_nonneg _ hi, place_of_nonneg _ hj]

theorem length_slice_le (s : List α) {i j : ℤ} (hi : 0 ≤ i) (hij : i ≤ j) :
    ((slice s i j).length : ℤ) ≤ j - i := by
  rw [slice_eq s hi (by omega), List.length_drop, List.length_take]
  omega

/-- What stands between the two indices is in the slice. -/
theorem mem_slice {s : List α} {i j : ℤ} (hi : 0 ≤ i) {k : ℕ} {x : α} (hk : s[k]? = some x)
    (hik : i ≤ k) (hkj : k < j) : x ∈ slice s i j := by
  rw [slice_eq s hi (by omega), List.mem_iff_getElem?]
  refine ⟨k - i.toNat, ?_⟩
  rw [List.getElem?_drop, List.getElem?_take, if_pos (by omega)]
  have hplace : i.toNat + (k - i.toNat) = k := by omega
  rw [hplace, hk]

/-! ## Places -/

/-- `sub` stands at the place `i` of `s`. -/
def Occurs (s sub : List α) (i : ℕ) : Prop := i ≤ s.length ∧ sub <+: s.drop i

theorem occurs_singleton {s : List α} {x : α} {i : ℕ} : Occurs s [x] i ↔ s[i]? = some x := by
  unfold Occurs
  rw [← List.head?_drop]
  cases h : s.drop i with
  | nil => simp
  | cons y ys =>
      have hlen := congrArg List.length h
      rw [List.length_drop, List.length_cons] at hlen
      rw [List.head?_cons, Option.some.injEq, List.cons_prefix_cons, and_iff_right (by omega),
        and_iff_left List.nil_prefix, eq_comm]

/-! ## Searches -/

variable [BEq α]

/-- `s.find(sub, lo)` -/
def find (s sub : List α) (lo : ℤ) : ℤ :=
  match (List.range (s.length + 1)).find? fun i => place s.length lo ≤ i && sub.isPrefixOf (s.drop i) with
  | some i => i
  | none => -1

/-- `s.rfind(sub, lo, hi)` -/
def rfind (s sub : List α) (lo hi : ℤ) : ℤ :=
  match (List.range (s.length + 1)).reverse.find? fun i =>
    place s.length lo ≤ i && i + sub.length ≤ place s.length hi && sub.isPrefixOf (s.drop i) with
  | some i => i
  | none => -1

variable [LawfulBEq α]

/-- **`rfind` gives -1 or a place between its bounds.** -/
theorem rfind_cases (s sub : List α) (lo hi : ℤ) :
    rfind s sub lo hi = -1 ∨
      ∃ i : ℕ, rfind s sub lo hi = i ∧ place s.length lo ≤ i ∧ i + sub.length ≤ place s.length hi ∧
        Occurs s sub i := by
  unfold rfind
  split
  case h_1 i hi =>
    have hspec := List.find?_some hi
    have hmem := List.mem_of_find?_eq_some hi
    rw [List.mem_reverse, List.mem_range] at hmem
    simp only [Bool.and_eq_true, decide_eq_true_eq, List.isPrefixOf_iff_prefix] at hspec
    exact .inr ⟨i, rfl, hspec.1.1, hspec.1.2, by omega, hspec.2⟩
  case h_2 => exact .inl rfl

/-- `rfind` finds nothing. -/
theorem rfind_eq_neg_one_iff {s sub : List α} {lo hi : ℤ} :
    rfind s sub lo hi = -1 ↔
      ∀ i, place s.length lo ≤ i → i + sub.length ≤ place s.length hi → ¬Occurs s sub i := by
  unfold rfind
  split
  case h_1 i hi =>
    have hspec := List.find?_some hi
    have hmem := List.mem_of_find?_eq_some hi
    rw [List.mem_reverse, List.mem_range] at hmem
    simp only [Bool.and_eq_true, decide_eq_true_eq, List.isPrefixOf_iff_prefix] at hspec
    constructor
    · intro h
      omega
    · intro h
      exact absurd ⟨by omega, hspec.2⟩ (h i hspec.1.1 hspec.1.2)
  case h_2 hnone =>
    rw [List.find?_eq_none] at hnone
    refine iff_of_true rfl ?_
    intro i hlo hhi hoccurs
    have := hoccurs.1
    apply hnone i (List.mem_reverse.mpr (List.mem_range.mpr (by omega)))
    simp only [Bool.and_eq_true, decide_eq_true_eq, List.isPrefixOf_iff_prefix]
    exact ⟨⟨hlo, hhi⟩, hoccurs.2⟩

/-! ## Splits -/

section Splits

/-- `re.split`: `m` gives the length of the match at a place, from the character before it and what
follows; 0 is no match.  The arguments after it are the character before, how much of a match is still
to be left out, and the piece so far. -/
def splitGo (m : Option α → List α → ℕ) : Option α → ℕ → List α → List α → List (List α)
  | _, _, piece, [] => [piece]
  | _, k + 1, piece, x :: xs => splitGo m (some x) k piece xs
  | prev, 0, piece, x :: xs =>
      match m prev (x :: xs) with
      | 0 => splitGo m (some x) 0 (piece ++ [x]) xs
      | k + 1 => piece :: splitGo m (some x) k [] xs

/-- `re.split(pattern, s)` -/
def splitBy (m : Option α → List α → ℕ) (s : List α) : List (List α) := splitGo m none 0 [] s

/-- `s.split(sep)`, for a separator that is not empty. -/
def splitOn (sep s : List α) : List (List α) :=
  splitBy (fun _ rest => if sep.isPrefixOf rest then sep.length else 0) s

/-- The separator after every piece but the last. -/
def withSep (sep : List α) : List (List α) → List (List α)
  | [] => []
  | [s] => [s]
  | s :: t :: rest => (s ++ sep) :: withSep sep (t :: rest)

omit [BEq α] [LawfulBEq α] in
theorem splitGo_ne_nil (m : Option α → List α → ℕ) (prev : Option α) (k : ℕ) (piece s : List α) :
    splitGo m prev k piece s ≠ [] := by
  induction s generalizing prev k piece with
  | nil => exact List.cons_ne_nil _ _
  | cons x xs ih =>
      cases k with
      | succ k => exact ih _ _ _
      | zero =>
          rw [splitGo]
          split
          · exact ih _ _ _
          · exact List.cons_ne_nil _ _

omit [BEq α] [LawfulBEq α] in
theorem flatten_withSep_cons {sep s : List α} {rest : List (List α)} (h : rest ≠ []) :
    (withSep sep (s :: rest)).flatten = s ++ sep ++ (withSep sep rest).flatten := by
  cases rest with
  | nil => exact absurd rfl h
  | cons t rest => rfl

/-- **Nothing is lost in a split**: with the separator put back, the pieces are the string. -/
theorem flatten_withSep_splitOn (sep s : List α) : (withSep sep (splitOn sep s)).flatten = s := by
  suffices h : ∀ (prev : Option α) (k : ℕ) (piece : List α),
      (withSep sep (splitGo (fun _ rest => if sep.isPrefixOf rest then sep.length else 0) prev k piece s)).flatten
        = piece ++ s.drop k from h none 0 []
  induction s with
  | nil =>
      intro prev k piece
      rw [splitGo, List.drop_nil, List.append_nil]
      exact List.append_nil _
  | cons x xs ih =>
      intro prev k piece
      cases k with
      | succ k => exact ih _ _ _
      | zero =>
          rw [splitGo]
          split
          case h_1 =>
            rw [ih, List.append_assoc]
            rfl
          case h_2 k hk =>
            -- the match is the separator
            by_cases hbegins : sep.isPrefixOf (x :: xs) = true
            · rw [if_pos hbegins] at hk
              have hsep : sep = (x :: xs).take (k + 1) := by
                have hlen : k + 1 = sep.length := hk.symm
                rw [hlen]
                exact List.prefix_iff_eq_take.mp (List.isPrefixOf_iff_prefix.mp hbegins)
              rw [flatten_withSep_cons (splitGo_ne_nil _ _ _ _ _), ih, List.nil_append, List.append_assoc]
              congr 1
              rw [hsep]
              exact List.take_append_drop (k + 1) (x :: xs)
            · rw [if_neg hbegins] at hk
              cases hk

/-- Up to its first occurrence a separator of one element splits nothing off. -/
theorem splitGo_of_notMem {x : α} {s : List α} (hs : x ∉ s) (rest : List α) (prev : Option α) (piece : List α) :
    ∃ prev', splitGo (fun _ rest => if [x].isPrefixOf rest then 1 else 0) prev 0 piece (s ++ rest) =
      splitGo (fun _ rest => if [x].isPrefixOf rest then 1 else 0) prev' 0 (piece ++ s) rest := by
  induction s generalizing prev piece with
  | nil => exact ⟨prev, by rw [List.nil_append, List.append_nil]⟩
  | cons y s ih =>
      rw [List.mem_cons, not_or] at hs
      obtain ⟨prev', h⟩ := ih hs.2 (some y) (piece ++ [y])
      refine ⟨prev', ?_⟩
      have hno : [x].isPrefixOf (y :: (s ++ rest)) = false := by
        rw [List.isPrefixOf_cons₂, beq_eq_false_iff_ne.mpr hs.1, Bool.false_and]
      rw [List.cons_append, splitGo]
      simp only [hno, Bool.false_eq_true, if_false]
      rw [h, List.append_assoc]
      rfl

/-- **One separator, two pieces.** -/
theorem splitOn_append_cons {x : α} {s t : List α} (hs : x ∉ s) (ht : x ∉ t) : splitOn [x] (s ++ x :: t) = [s, t] := by
  obtain ⟨prev, h⟩ := splitGo_of_notMem hs (x :: t) none []
  obtain ⟨prev', h'⟩ := splitGo_of_notMem ht [] (some x) []
  rw [List.append_nil] at h'
  show splitGo (fun _ rest => if [x].isPrefixOf rest then 1 else 0) none 0 [] (s ++ x :: t) = [s, t]
  rw [h, splitGo]
  have hyes : [x].isPrefixOf (x :: t) = true := by
    rw [List.isPrefixOf_cons₂, beq_self_eq_true, Bool.true_and, List.isPrefixOf_nil_left]
  simp only [hyes, if_true]
  rw [h', splitGo]
  rfl

end Splits

end PySeq
