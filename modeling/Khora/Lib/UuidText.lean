import Mathlib.Algebra.Group.Nat.Defs
import Mathlib.Data.List.Basic
import Mathlib.Tactic.Common

/-!
# The text of a UUID

A UUID is a number below `2 ^ 128`; its text has thirty-two hexadecimal digits in five groups. Reading accepts the
optional URN prefix, braces and hyphens.

* `parse?_str` — what is written is read back.
-/

/-- A UUID, as its integer. -/
structure UuidInt where
  int : Nat
  int_lt : int < 2 ^ 128
deriving DecidableEq

namespace UuidInt

/-! ## Writing -/

/-- The last `k` hexadecimal digits of a number. -/
def hexPad : Nat → Nat → List Char
  | 0, _ => []
  | k + 1, n => hexPad k (n / 16) ++ [Nat.digitChar (n % 16)]

/-- Five groups of digits, of eight, four, four, four and the rest. -/
def group (hex : List Char) : List Char :=
  hex.take 8 ++ ('-' :: ((hex.drop 8).take 4 ++ ('-' :: ((hex.drop 12).take 4 ++
    ('-' :: ((hex.drop 16).take 4 ++ ('-' :: hex.drop 20)))))))

/-- `str(uuid)` -/
def str (u : UuidInt) : String := String.ofList (group (hexPad 32 u.int))

/-! ## Reading -/

/-- The value of a hexadecimal digit. -/
def hexDigit? (c : Char) : Option Nat :=
  if '0' ≤ c ∧ c ≤ '9' then some (c.toNat - '0'.toNat)
  else if 'a' ≤ c ∧ c ≤ 'f' then some (c.toNat - 'a'.toNat + 10)
  else if 'A' ≤ c ∧ c ≤ 'F' then some (c.toNat - 'A'.toNat + 10)
  else none

def hexNumber? (acc : Nat) : List Char → Option Nat
  | [] => some acc
  | c :: cs => do
      let d ← hexDigit? c
      hexNumber? (acc * 16 + d) cs

/-- `text.replace(pat, '')`, for a pattern of `k + 1` characters. -/
def removeAll (pat : List Char) (k : Nat) : List Char → List Char
  | [] => []
  | c :: cs => if pat.isPrefixOf (c :: cs) then removeAll pat k (cs.drop k) else c :: removeAll pat k cs
termination_by cs => cs.length
decreasing_by
  · simp only [List.length_drop, List.length_cons]
    omega
  · simp

/-- `text.strip('{}')` -/
def stripBraces (cs : List Char) : List Char :=
  ((cs.dropWhile fun c => c == '{' || c == '}').reverse.dropWhile fun c => c == '{' || c == '}').reverse

/-- `UUID(text)` -/
def parse? (text : String) : Option UuidInt :=
  let bare := removeAll ['u', 'u', 'i', 'd', ':'] 4 (removeAll ['u', 'r', 'n', ':'] 3 text.toList)
  let hex := (stripBraces bare).filter fun c => c != '-'
  if hex.length ≠ 32 then none
  else (hexNumber? 0 hex).bind fun n => if h : n < 2 ^ 128 then some ⟨n, h⟩ else none

/-! ## What is written is read back -/

@[simp] theorem length_hexPad (k n : Nat) : (hexPad k n).length = k := by
  induction k generalizing n with
  | zero => rfl
  | succ k ih => simp [hexPad, ih]

/-- What the digits have to do with the syntax around them. -/
structure Plain (c : Char) : Prop where
  noHyphen : c ≠ '-'
  noBrace : (c == '{' || c == '}') = false
  noPrefix : c ≠ 'u'

theorem digitChar_facts : ∀ d : Fin 16, hexDigit? (Nat.digitChar d) = some d.val ∧ Nat.digitChar d ≠ '-' ∧
    (Nat.digitChar d == '{' || Nat.digitChar d == '}') = false ∧ Nat.digitChar d ≠ 'u' := by
  decide

theorem hexDigit?_digitChar {d : Nat} (h : d < 16) : hexDigit? (Nat.digitChar d) = some d :=
  (digitChar_facts ⟨d, h⟩).1

theorem plain_of_mem_hexPad {k n : Nat} {c : Char} (h : c ∈ hexPad k n) : Plain c := by
  induction k generalizing n with
  | zero => cases h
  | succ k ih =>
      rcases List.mem_append.mp h with h | h
      · exact ih h
      · obtain ⟨-, h1, h2, h3⟩ := digitChar_facts ⟨n % 16, Nat.mod_lt n (by decide)⟩
        rw [List.mem_singleton.mp h]
        exact ⟨h1, h2, h3⟩

theorem hexNumber?_append (acc : Nat) (xs ys : List Char) :
    hexNumber? acc (xs ++ ys) = (hexNumber? acc xs).bind fun a => hexNumber? a ys := by
  induction xs generalizing acc with
  | nil => rfl
  | cons x xs ih =>
      simp only [List.cons_append, hexNumber?]
      cases hexDigit? x with
      | none => rfl
      | some d => exact ih _

theorem hexNumber?_hexPad {k n : Nat} (h : n < 16 ^ k) : hexNumber? 0 (hexPad k n) = some n := by
  induction k generalizing n with
  | zero =>
      obtain rfl : n = 0 := by simpa using h
      rfl
  | succ k ih =>
      rw [Nat.pow_succ] at h
      rw [hexPad, hexNumber?_append, ih (by omega)]
      simp only [Option.bind_some, hexNumber?, hexDigit?_digitChar (Nat.mod_lt n (by decide)), bind]
      congr 1
      omega

/-- The characters of a group are digits or hyphens. -/
theorem mem_group {hex : List Char} {c : Char} (h : c ∈ group hex) : c = '-' ∨ c ∈ hex := by
  have htake : ∀ k m, c ∈ (hex.drop k).take m → c ∈ hex := fun k m hc =>
    List.mem_of_mem_drop (List.mem_of_mem_take hc)
  simp only [group, List.mem_append, List.mem_cons] at h
  rcases h with h | h | h | h | h | h | h | h | h
  · exact Or.inr (List.mem_of_mem_take h)
  · exact Or.inl h
  · exact Or.inr (htake _ _ h)
  · exact Or.inl h
  · exact Or.inr (htake _ _ h)
  · exact Or.inl h
  · exact Or.inr (htake _ _ h)
  · exact Or.inl h
  · exact Or.inr (List.mem_of_mem_drop h)

theorem filter_group {hex : List Char} (h : ∀ c ∈ hex, c ≠ '-') :
    (group hex).filter (fun c => c != '-') = hex := by
  have hkeep : ∀ l : List Char, (∀ c ∈ l, c ∈ hex) → l.filter (fun c => c != '-') = l := by
    intro l hl
    rw [List.filter_eq_self]
    intro c hc
    simpa using h c (hl c hc)
  have htake : ∀ k m, ((hex.drop k).take m).filter (fun c => c != '-') = (hex.drop k).take m := fun k m =>
    hkeep _ fun c hc => List.mem_of_mem_drop (List.mem_of_mem_take hc)
  simp only [group, List.filter_append, List.filter_cons, bne_self_eq_false, Bool.false_eq_true, if_false, htake,
    hkeep _ fun c hc => List.mem_of_mem_take hc, hkeep _ fun c hc => List.mem_of_mem_drop hc]
  have hsplit : ∀ k m, (hex.drop k).take m ++ hex.drop (k + m) = hex.drop k := by
    intro k m
    rw [← List.drop_drop, List.take_append_drop]
  rw [hsplit 16 4, hsplit 12 4, hsplit 8 4, List.take_append_drop]

theorem removeAll_eq_self {pat : List Char} {p : Char} {k : Nat} {cs : List Char} (hp : pat.head? = some p)
    (h : ∀ c ∈ cs, c ≠ p) : removeAll pat k cs = cs := by
  induction cs with
  | nil => rw [removeAll]
  | cons c cs ih =>
      have hno : pat.isPrefixOf (c :: cs) = false := by
        cases pat with
        | nil => simp at hp
        | cons q pat =>
            obtain rfl : q = p := by simpa using hp
            have hq : (q == c) = false := by simpa using (h c List.mem_cons_self).symm
            rw [List.isPrefixOf_cons_cons, hq, Bool.false_and]
      rw [removeAll, hno, if_neg (by simp), ih fun c' hc' => h c' (List.mem_cons_of_mem _ hc')]

theorem dropWhile_eq_self {cs : List Char} {p : Char → Bool} (h : ∀ c ∈ cs, p c = false) : cs.dropWhile p = cs := by
  cases cs with
  | nil => rfl
  | cons c cs => rw [List.dropWhile_cons, h c List.mem_cons_self, if_neg (by simp)]

theorem stripBraces_eq_self {cs : List Char} (h : ∀ c ∈ cs, (c == '{' || c == '}') = false) :
    stripBraces cs = cs := by
  unfold stripBraces
  rw [dropWhile_eq_self h, dropWhile_eq_self, List.reverse_reverse]
  intro c hc
  exact h c (List.mem_reverse.mp hc)

/-- **The text of a UUID is read back as the UUID.** -/
theorem parse?_str (u : UuidInt) : parse? u.str = some u := by
  have hplain : ∀ c ∈ group (hexPad 32 u.int), c = '-' ∨ Plain c := by
    intro c hc
    exact (mem_group hc).imp id plain_of_mem_hexPad
  have hu : ∀ c ∈ group (hexPad 32 u.int), c ≠ 'u' := by
    intro c hc
    rcases hplain c hc with rfl | h
    · decide
    · exact h.noPrefix
  have hbrace : ∀ c ∈ group (hexPad 32 u.int), (c == '{' || c == '}') = false := by
    intro c hc
    rcases hplain c hc with rfl | h
    · decide
    · exact h.noBrace
  have hhex : (group (hexPad 32 u.int)).filter (fun c => c != '-') = hexPad 32 u.int :=
    filter_group fun c hc => (plain_of_mem_hexPad hc).noHyphen
  have hint : u.int < 16 ^ 32 := lt_of_lt_of_eq u.int_lt (by decide)
  simp only [parse?, str, String.toList_ofList, @removeAll_eq_self ['u', 'r', 'n', ':'] _ _ _ rfl hu,
    @removeAll_eq_self ['u', 'u', 'i', 'd', ':'] _ _ _ rfl hu, stripBraces_eq_self hbrace, hhex, length_hexPad,
    hexNumber?_hexPad hint, Option.bind_some, u.int_lt, dif_pos]
  simp

end UuidInt
