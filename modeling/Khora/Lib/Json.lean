import Mathlib.Data.String.Basic
import Mathlib.Data.Rat.Defs
import Mathlib.Tactic.IntervalCases
import Mathlib.Tactic.Tauto

/-!
# JSON trees and their compact text

A tree keeps what a JSON text says: the members of an object in their order, an
integer as a number and a float as its literal.  `Json.dumps` writes the compact
text, with the two treatments of non-ASCII characters that serializers offer.

* `Json.dumps_injective` — the compact text determines the tree.
-/

/-! ## Decimal literals -/

namespace Decimal

def isDigit (c : Char) : Bool := decide ('0' ≤ c) && decide (c ≤ '9')

/-- The number a run of digits denotes. -/
def ofDigits (cs : List Char) : Nat := cs.foldl (fun n c => n * 10 + (c.toNat - '0'.toNat)) 0

/-- `[+-]digits`, to the end of the text. -/
def exponent? : List Char → Option Int
  | '-' :: cs => if cs ≠ [] ∧ cs.all isDigit then some (-(ofDigits cs : Int)) else none
  | '+' :: cs => if cs ≠ [] ∧ cs.all isDigit then some (ofDigits cs) else none
  | cs => if cs ≠ [] ∧ cs.all isDigit then some (ofDigits cs) else none

def scale (n : ℚ) (e : Int) : ℚ := if 0 ≤ e then n * 10 ^ e.toNat else n / 10 ^ (-e).toNat

/-- `digits[.digits][e[+-]digits]` as an exact number. -/
def unsigned? (cs : List Char) : Option ℚ :=
  let whole := cs.takeWhile isDigit
  let rest := cs.dropWhile isDigit
  let (frac, rest) := match rest with
    | '.' :: r => (r.takeWhile isDigit, r.dropWhile isDigit)
    | r => ([], r)
  if whole = [] then none
  else match rest with
    | [] => some (scale (ofDigits (whole ++ frac)) (-frac.length))
    | 'e' :: r => (exponent? r).map fun e => scale (ofDigits (whole ++ frac)) (e - frac.length)
    | _ => none

def value? : List Char → Option ℚ
  | '-' :: cs => (unsigned? cs).map (- ·)
  | cs => unsigned? cs

/-- Characters a number may be written with. -/
def isNumberChar (c : Char) : Bool :=
  isDigit c || c == '-' || c == '+' || c == '.' || c == 'e'

/-- A literal with a point or an exponent, which is what tells a float from an
integer. -/
def isFloatText (cs : List Char) : Bool :=
  cs.all isNumberChar && cs.any (fun c => c == '.' || c == 'e') && (value? cs).isSome

end Decimal

/-- A finite float, given by its literal.  `value` is the exact number the literal
denotes. -/
structure FloatLit where
  text : String
  isFloat : Decimal.isFloatText text.toList = true
deriving DecidableEq

namespace FloatLit

def value (f : FloatLit) : ℚ := (Decimal.value? f.text.toList).getD 0

theorem ext_text {a b : FloatLit} (h : a.text.toList = b.text.toList) : a = b := by
  cases a
  cases b
  simp_all [String.toList_inj]

end FloatLit

/-! ## Trees -/

inductive Json where
  | null
  | bool (b : Bool)
  | int (n : Int)
  | float (f : FloatLit)
  | str (s : String)
  | arr (items : List Json)
  | obj (fields : List (String × Json))

/-- Structural induction over a tree, its items and its members. -/
theorem Json.induct {P : Json → Prop} (null : P .null) (bool : ∀ b, P (.bool b))
    (int : ∀ n, P (.int n)) (float : ∀ f, P (.float f)) (str : ∀ s, P (.str s))
    (arr : ∀ xs, (∀ x ∈ xs, P x) → P (.arr xs)) (obj : ∀ fs, (∀ f ∈ fs, P f.2) → P (.obj fs))
    (j : Json) : P j := by
  refine @Json.rec P (fun xs => ∀ x ∈ xs, P x) (fun fs => ∀ f ∈ fs, P f.2) (fun f => P f.2)
    null bool int float str arr obj ?_ ?_ ?_ ?_ ?_ j
  · simp
  · intro x xs hx hxs
    exact List.forall_mem_cons.mpr ⟨hx, hxs⟩
  · simp
  · intro f fs hf hfs
    exact List.forall_mem_cons.mpr ⟨hf, hfs⟩
  · intro k v hv
    exact hv

namespace Json

/-! ## Text of a string -/

def hexChar (d : Nat) : Char := Nat.digitChar d

def hex4 (n : Nat) : List Char :=
  [hexChar (n / 4096 % 16), hexChar (n / 256 % 16), hexChar (n / 16 % 16), hexChar (n % 16)]

/-- `\uXXXX`, a surrogate pair above the basic plane. -/
def unicodeEscape (c : Char) : List Char :=
  let n := c.toNat
  if n < 0x10000 then '\\' :: 'u' :: hex4 n
  else '\\' :: 'u' :: (hex4 (0xd800 + (n - 0x10000) / 1024) ++
    '\\' :: 'u' :: hex4 (0xdc00 + (n - 0x10000) % 1024))

/-- The letter of a short escape. -/
def shortEscape? (c : Char) : Option Char :=
  if c = '"' then some '"'
  else if c = '\\' then some '\\'
  else if c = '\n' then some 'n'
  else if c = '\r' then some 'r'
  else if c = '\t' then some 't'
  else if c = '\x08' then some 'b'
  else if c = '\x0c' then some 'f'
  else none

/-- One character inside a string; with `ascii`, everything beyond `~` is escaped. -/
def escapeChar (ascii : Bool) (c : Char) : List Char :=
  match shortEscape? c with
  | some e => ['\\', e]
  | none => if c < ' ' ∨ (ascii = true ∧ '~' < c) then unicodeEscape c else [c]

def writeString (ascii : Bool) (s : String) : List Char :=
  '"' :: (s.toList.flatMap (escapeChar ascii) ++ ['"'])

/-! ## Text of a tree -/

def writeInt (n : Int) : List Char :=
  if n < 0 then '-' :: Nat.toDigits 10 n.natAbs else Nat.toDigits 10 n.natAbs

mutual

/-- The compact text of a tree. -/
def write (ascii : Bool) : Json → List Char
  | null => ['n', 'u', 'l', 'l']
  | bool true => ['t', 'r', 'u', 'e']
  | bool false => ['f', 'a', 'l', 's', 'e']
  | int n => writeInt n
  | float f => f.text.toList
  | str s => writeString ascii s
  | arr [] => ['[', ']']
  | arr (x :: xs) => '[' :: (write ascii x ++ writeItems ascii xs)
  | obj [] => ['{', '}']
  | obj ((k, v) :: fs) =>
      '{' :: (writeString ascii k ++ ':' :: (write ascii v ++ writeFields ascii fs))

/-- The items after the first, and the closing bracket. -/
def writeItems (ascii : Bool) : List Json → List Char
  | [] => [']']
  | x :: xs => ',' :: (write ascii x ++ writeItems ascii xs)

/-- The members after the first, and the closing brace. -/
def writeFields (ascii : Bool) : List (String × Json) → List Char
  | [] => ['}']
  | (k, v) :: fs =>
      ',' :: (writeString ascii k ++ ':' :: (write ascii v ++ writeFields ascii fs))

end

def dumps (ascii : Bool) (t : Json) : String := String.ofList (write ascii t)

/-! ## A string ends where its text says -/

theorem hexChar_inj {a b : Nat} (ha : a < 16) (hb : b < 16) (h : hexChar a = hexChar b) :
    a = b := by
  interval_cases a <;> interval_cases b <;> revert h <;> decide

theorem hex4_append_inj {a b : Nat} {x y : List Char} (ha : a < 65536) (hb : b < 65536)
    (h : hex4 a ++ x = hex4 b ++ y) : a = b ∧ x = y := by
  simp only [hex4, List.cons_append, List.nil_append, List.cons.injEq] at h
  obtain ⟨h1, h2, h3, h4, hxy⟩ := h
  have h1 := hexChar_inj (Nat.mod_lt _ (by omega)) (Nat.mod_lt _ (by omega)) h1
  have h2 := hexChar_inj (Nat.mod_lt _ (by omega)) (Nat.mod_lt _ (by omega)) h2
  have h3 := hexChar_inj (Nat.mod_lt _ (by omega)) (Nat.mod_lt _ (by omega)) h3
  have h4 := hexChar_inj (Nat.mod_lt _ (by omega)) (Nat.mod_lt _ (by omega)) h4
  exact ⟨by omega, hxy⟩

theorem toNat_not_surrogate (c : Char) : c.toNat < 0xd800 ∨ 0xdfff < c.toNat ∧ c.toNat < 0x110000 :=
  c.valid

theorem eq_of_toNat_eq {c e : Char} (h : c.toNat = e.toNat) : c = e :=
  Char.toNat_inj.mp h

theorem unicodeEscape_append_inj {c e : Char} {x y : List Char}
    (h : unicodeEscape c ++ x = unicodeEscape e ++ y) : c = e ∧ x = y := by
  have hc := toNat_not_surrogate c
  have he := toNat_not_surrogate e
  simp only [unicodeEscape] at h
  -- the first code unit tells a plane character from a surrogate pair
  split at h <;> split at h <;> rename_i h1 h2 <;>
    simp only [List.cons_append, List.append_assoc, List.cons.injEq, true_and] at h
  · obtain ⟨hn, hxy⟩ := hex4_append_inj h1 h2 h
    exact ⟨eq_of_toNat_eq hn, hxy⟩
  · obtain ⟨hn, -⟩ := hex4_append_inj h1 (by omega) h
    omega
  · obtain ⟨hn, -⟩ := hex4_append_inj (by omega) h2 h
    omega
  · obtain ⟨hn, h⟩ := hex4_append_inj (by omega) (by omega) h
    simp only [List.cons.injEq, true_and] at h
    obtain ⟨hm, hxy⟩ := hex4_append_inj (by omega) (by omega) h
    exact ⟨eq_of_toNat_eq (by omega), hxy⟩

theorem shortEscape?_eq_some {c l : Char} (h : shortEscape? c = some l) :
    (c, l) ∈ [('"', '"'), ('\\', '\\'), ('\n', 'n'), ('\r', 'r'), ('\t', 't'), ('\x08', 'b'),
      ('\x0c', 'f')] := by
  unfold shortEscape? at h
  repeat' split at h
  all_goals cases h
  all_goals simp_all

theorem shortEscape?_inj {c e l : Char} (hc : shortEscape? c = some l)
    (he : shortEscape? e = some l) : c = e := by
  have hc := shortEscape?_eq_some hc
  have he := shortEscape?_eq_some he
  simp only [List.mem_cons, Prod.mk.injEq, List.not_mem_nil, or_false] at hc he
  rcases hc with ⟨rfl, rfl⟩ | ⟨rfl, rfl⟩ | ⟨rfl, rfl⟩ | ⟨rfl, rfl⟩ | ⟨rfl, rfl⟩ | ⟨rfl, rfl⟩ |
    ⟨rfl, rfl⟩ <;> simpa [eq_comm] using he

theorem shortEscape?_ne_u {c l : Char} (h : shortEscape? c = some l) : l ≠ 'u' := by
  rintro rfl
  simpa using shortEscape?_eq_some h

theorem unicodeEscape_head (c : Char) : ∃ r, unicodeEscape c = '\\' :: 'u' :: r := by
  unfold unicodeEscape
  simp only
  split
  · exact ⟨_, rfl⟩
  · exact ⟨_, rfl⟩

theorem shortEscape?_backslash : shortEscape? '\\' = some '\\' := by decide

theorem shortEscape?_quote : shortEscape? '"' = some '"' := by decide

/-- The text of one character is told from what follows it. -/
theorem escapeChar_append_inj {ascii : Bool} {c e : Char} {x y : List Char}
    (h : escapeChar ascii c ++ x = escapeChar ascii e ++ y) : c = e ∧ x = y := by
  unfold escapeChar at h
  cases hc : shortEscape? c with
  | some l =>
      cases he : shortEscape? e with
      | some m =>
          simp only [hc, he, List.cons_append, List.nil_append, List.cons.injEq, true_and] at h
          exact ⟨shortEscape?_inj hc (h.1 ▸ he), h.2⟩
      | none =>
          simp only [hc, he] at h
          split at h
          · obtain ⟨r, hr⟩ := unicodeEscape_head e
            rw [hr] at h
            simp only [List.cons_append, List.cons.injEq, true_and] at h
            exact absurd h.1 (shortEscape?_ne_u hc)
          · simp only [List.cons_append, List.cons.injEq] at h
            rw [← h.1, shortEscape?_backslash] at he
            cases he
  | none =>
      cases he : shortEscape? e with
      | some m =>
          simp only [hc, he] at h
          split at h
          · obtain ⟨r, hr⟩ := unicodeEscape_head c
            rw [hr] at h
            simp only [List.cons_append, List.cons.injEq, true_and] at h
            exact absurd h.1.symm (shortEscape?_ne_u he)
          · simp only [List.cons_append, List.cons.injEq] at h
            rw [h.1, shortEscape?_backslash] at hc
            cases hc
      | none =>
          simp only [hc, he] at h
          split at h <;> split at h
          · exact unicodeEscape_append_inj h
          · obtain ⟨r, hr⟩ := unicodeEscape_head c
            rw [hr] at h
            simp only [List.cons_append, List.cons.injEq] at h
            rw [← h.1, shortEscape?_backslash] at he
            cases he
          · obtain ⟨r, hr⟩ := unicodeEscape_head e
            rw [hr] at h
            simp only [List.cons_append, List.cons.injEq] at h
            rw [h.1, shortEscape?_backslash] at hc
            cases hc
          · simpa using h

theorem escapeChar_head_ne_quote (ascii : Bool) (c : Char) (x y : List Char) :
    escapeChar ascii c ++ x ≠ '"' :: y := by
  intro h
  unfold escapeChar at h
  cases hc : shortEscape? c with
  | some l => simp [hc] at h
  | none =>
      simp only [hc] at h
      split at h
      · obtain ⟨r, hr⟩ := unicodeEscape_head c
        rw [hr] at h
        simp at h
      · simp only [List.cons_append, List.cons.injEq] at h
        rw [h.1, shortEscape?_quote] at hc
        cases hc

theorem flatMap_escape_inj {ascii : Bool} {s t x y : List Char}
    (h : s.flatMap (escapeChar ascii) ++ '"' :: x = t.flatMap (escapeChar ascii) ++ '"' :: y) :
    s = t ∧ x = y := by
  induction s generalizing t with
  | nil =>
      cases t with
      | nil => simpa using h
      | cons c t =>
          simp only [List.flatMap_nil, List.nil_append, List.flatMap_cons, List.append_assoc] at h
          exact absurd h.symm (escapeChar_head_ne_quote _ _ _ _)
  | cons c s ih =>
      cases t with
      | nil =>
          simp only [List.flatMap_nil, List.nil_append, List.flatMap_cons, List.append_assoc] at h
          exact absurd h (escapeChar_head_ne_quote _ _ _ _)
      | cons e t =>
          simp only [List.flatMap_cons, List.append_assoc] at h
          obtain ⟨rfl, hst⟩ := escapeChar_append_inj h
          obtain ⟨rfl, hxy⟩ := ih hst
          exact ⟨rfl, hxy⟩

theorem writeString_append_inj {ascii : Bool} {s t : String} {x y : List Char}
    (h : writeString ascii s ++ x = writeString ascii t ++ y) : s = t ∧ x = y := by
  simp only [writeString, List.cons_append, List.append_assoc, List.cons.injEq, true_and,
    List.nil_append] at h
  obtain ⟨hs, hxy⟩ := flatMap_escape_inj h
  exact ⟨String.toList_inj.mp hs, hxy⟩

/-! ## A number ends at the next character that numbers are not written with -/

open Decimal (isNumberChar isDigit)

/-- What may follow a value: not a character of a number. -/
def Delimited (x : List Char) : Prop := ∀ c, x.head? = some c → isNumberChar c = false

theorem delimited_nil : Delimited [] := by simp [Delimited]

theorem delimited_cons {c : Char} {x : List Char} (h : isNumberChar c = false) :
    Delimited (c :: x) := by
  intro e he
  cases he
  exact h

theorem token_append_inj {a b x y : List Char} (ha : ∀ c ∈ a, isNumberChar c = true)
    (hb : ∀ c ∈ b, isNumberChar c = true) (hx : Delimited x) (hy : Delimited y)
    (h : a ++ x = b ++ y) : a = b ∧ x = y := by
  induction a generalizing b with
  | nil =>
      cases b with
      | nil => exact ⟨rfl, h⟩
      | cons c b =>
          rw [List.nil_append] at h
          have := hx c (by rw [h]; rfl)
          rw [hb c List.mem_cons_self] at this
          cases this
  | cons c a ih =>
      cases b with
      | nil =>
          rw [List.nil_append] at h
          have := hy c (by rw [← h]; rfl)
          rw [ha c List.mem_cons_self] at this
          cases this
      | cons e b =>
          simp only [List.cons_append, List.cons.injEq] at h
          obtain ⟨rfl, h⟩ := h
          obtain ⟨rfl, hxy⟩ := ih (fun c hc => ha c (List.mem_cons_of_mem _ hc))
            (fun c hc => hb c (List.mem_cons_of_mem _ hc)) h
          exact ⟨rfl, hxy⟩

theorem digit_of_mem_toDigits {n : Nat} {c : Char} (h : c ∈ Nat.toDigits 10 n) :
    isDigit c = true := by
  have := Nat.isDigit_of_mem_toDigits (by omega) (by omega) h
  simpa [isDigit, Char.isDigit, Char.le_def, UInt32.le_iff_toNat_le] using this

theorem writeInt_chars (n : Int) : ∀ c ∈ writeInt n, isDigit c = true ∨ c = '-' := by
  intro c hc
  unfold writeInt at hc
  split at hc
  · rcases List.mem_cons.mp hc with rfl | hc
    · exact Or.inr rfl
    · exact Or.inl (digit_of_mem_toDigits hc)
  · exact Or.inl (digit_of_mem_toDigits hc)

theorem writeInt_numberChars (n : Int) : ∀ c ∈ writeInt n, isNumberChar c = true := by
  intro c hc
  rcases writeInt_chars n c hc with h | rfl
  · simp [isNumberChar, h]
  · decide

theorem writeInt_injective {m n : Int} (h : writeInt m = writeInt n) : m = n := by
  have hd : ∀ k l, '-' :: k ≠ Nat.toDigits 10 l := by
    intro k l hk
    have := digit_of_mem_toDigits (n := l) (c := '-') (by rw [← hk]; simp)
    exact absurd this (by decide)
  have hinj : ∀ {k l : Nat}, Nat.toDigits 10 k = Nat.toDigits 10 l → k = l := by
    intro k l hkl
    have := congrArg (Nat.ofDigitChars 10 · 0) hkl
    simpa using this
  unfold writeInt at h
  split at h <;> split at h
  · have := hinj (List.cons.inj h).2
    omega
  · exact absurd h (hd _ _)
  · exact absurd h.symm (hd _ _)
  · have := hinj h
    omega

theorem float_numberChars (f : FloatLit) : ∀ c ∈ f.text.toList, isNumberChar c = true := by
  have h := f.isFloat
  simp only [Decimal.isFloatText, Bool.and_eq_true] at h
  exact List.all_eq_true.mp h.1.1

theorem writeInt_ne_float (n : Int) (f : FloatLit) : writeInt n ≠ f.text.toList := by
  intro h
  have hf := f.isFloat
  simp only [Decimal.isFloatText, Bool.and_eq_true, List.any_eq_true, Bool.or_eq_true,
    beq_iff_eq] at hf
  obtain ⟨c, hc, hpe⟩ := hf.1.2
  rw [← h] at hc
  rcases writeInt_chars n c hc with hd | rfl
  · rcases hpe with rfl | rfl <;> exact absurd hd (by decide)
  · rcases hpe with hpe | hpe <;> exact absurd hpe (by decide)

/-! ## The text determines the tree -/

/-- The first character of a value tells which kind of value it is. -/
def leadKind (c : Char) : Nat :=
  if c = 'n' then 0 else if c = 't' then 1 else if c = 'f' then 2 else if c = '"' then 3
  else if c = '[' then 4 else if c = '{' then 5 else 6

def kind : Json → Nat
  | null => 0
  | bool true => 1
  | bool false => 2
  | str _ => 3
  | arr _ => 4
  | obj _ => 5
  | int _ => 6
  | float _ => 6

theorem leadKind_numberChar {c : Char} (h : isNumberChar c = true) : leadKind c = 6 := by
  unfold leadKind
  split_ifs with h1 h2 h3 h4 h5 h6
  all_goals first | rfl | (subst_vars; exact absurd h (by decide))

theorem exists_lead (ascii : Bool) (t : Json) :
    ∃ c r, write ascii t = c :: r ∧ leadKind c = kind t ∧ c ≠ ']' := by
  have number : ∀ cs : List Char, cs ≠ [] → (∀ c ∈ cs, isNumberChar c = true) →
      ∃ c r, cs = c :: r ∧ leadKind c = 6 ∧ c ≠ ']' := by
    intro cs hne hall
    cases cs with
    | nil => exact absurd rfl hne
    | cons c r =>
        have hc := hall c List.mem_cons_self
        refine ⟨c, r, rfl, leadKind_numberChar hc, ?_⟩
        rintro rfl
        exact absurd hc (by decide)
  match t with
  | null => exact ⟨_, _, rfl, by decide⟩
  | bool true => exact ⟨_, _, rfl, by decide⟩
  | bool false => exact ⟨_, _, rfl, by decide⟩
  | str s => exact ⟨_, _, rfl, by simp [leadKind, kind]⟩
  | arr [] => exact ⟨_, _, rfl, by decide⟩
  | arr (x :: xs) => exact ⟨_, _, by rw [write], by simp [leadKind, kind]⟩
  | obj [] => exact ⟨_, _, rfl, by decide⟩
  | obj ((k, v) :: fs) => exact ⟨_, _, by rw [write], by simp [leadKind, kind]⟩
  | int n =>
      refine number (writeInt n) ?_ (writeInt_numberChars n)
      unfold writeInt
      split
      · simp
      · exact Nat.toDigits_ne_nil
  | float f =>
      refine number f.text.toList ?_ (float_numberChars f)
      intro h
      have := f.isFloat
      rw [h] at this
      exact absurd this (by decide)

theorem kind_eq_of_write_append_eq {ascii : Bool} {a b : Json} {x y : List Char}
    (h : write ascii a ++ x = write ascii b ++ y) : kind a = kind b := by
  obtain ⟨c, r, hc, hk, -⟩ := exists_lead ascii a
  obtain ⟨e, q, he, hl, -⟩ := exists_lead ascii b
  rw [hc, he, List.cons_append, List.cons_append] at h
  rw [← hk, ← hl, (List.cons.inj h).1]

theorem delimited_writeItems (ascii : Bool) (xs : List Json) (x : List Char) :
    Delimited (writeItems ascii xs ++ x) := by
  cases xs with
  | nil => exact delimited_cons (by decide)
  | cons a xs =>
      rw [writeItems]
      exact delimited_cons (by decide)

theorem delimited_writeFields (ascii : Bool) (fs : List (String × Json)) (x : List Char) :
    Delimited (writeFields ascii fs ++ x) := by
  match fs with
  | [] => exact delimited_cons (by decide)
  | (k, v) :: fs =>
      rw [writeFields]
      exact delimited_cons (by decide)

theorem number_append_inj {ascii : Bool} {a b : Json} {x y : List Char} (ha : kind a = 6)
    (hb : kind b = 6) (hx : Delimited x) (hy : Delimited y)
    (h : write ascii a ++ x = write ascii b ++ y) : a = b ∧ x = y := by
  match a, ha with
  | int m, _ =>
      match b, hb with
      | int n, _ =>
          obtain ⟨ht, hxy⟩ :=
            token_append_inj (writeInt_numberChars m) (writeInt_numberChars n) hx hy h
          exact ⟨congrArg int (writeInt_injective ht), hxy⟩
      | float g, _ =>
          obtain ⟨ht, -⟩ :=
            token_append_inj (writeInt_numberChars m) (float_numberChars g) hx hy h
          exact absurd ht (writeInt_ne_float m g)
  | float f, _ =>
      match b, hb with
      | int n, _ =>
          obtain ⟨ht, -⟩ :=
            token_append_inj (float_numberChars f) (writeInt_numberChars n) hx hy h
          exact absurd ht.symm (writeInt_ne_float n f)
      | float g, _ =>
          obtain ⟨ht, hxy⟩ :=
            token_append_inj (float_numberChars f) (float_numberChars g) hx hy h
          exact ⟨congrArg float (FloatLit.ext_text ht), hxy⟩

mutual

/-- The text of a tree is told from what follows it. -/
theorem write_append_inj {ascii : Bool} {x y : List Char} (hx : Delimited x) (hy : Delimited y) :
    ∀ a b : Json, write ascii a ++ x = write ascii b ++ y → a = b ∧ x = y
  | null, b, h => by
      have hk := kind_eq_of_write_append_eq h
      match b, hk with
      | null, _ => simpa [write] using h
  | bool p, b, h => by
      have hk := kind_eq_of_write_append_eq h
      match p, b, hk with
      | true, bool true, _ => simpa [write] using h
      | false, bool false, _ => simpa [write] using h
  | int m, b, h => number_append_inj rfl (kind_eq_of_write_append_eq h).symm hx hy h
  | float f, b, h => number_append_inj rfl (kind_eq_of_write_append_eq h).symm hx hy h
  | str s, b, h => by
      have hk := kind_eq_of_write_append_eq h
      match b, hk with
      | str t, _ =>
          obtain ⟨rfl, hxy⟩ := writeString_append_inj (by simpa only [write] using h)
          exact ⟨rfl, hxy⟩
  | arr [], b, h => by
      have hk := kind_eq_of_write_append_eq h
      match b, hk with
      | arr [], _ => simpa [write] using h
      | arr (e :: es), _ =>
          obtain ⟨c, r, hc, -, hne⟩ := exists_lead ascii e
          simp only [write, hc, List.cons_append, List.cons.injEq, true_and] at h
          exact absurd h.1.symm hne
  | arr (a :: as), b, h => by
      have hk := kind_eq_of_write_append_eq h
      match b, hk with
      | arr [], _ =>
          obtain ⟨c, r, hc, -, hne⟩ := exists_lead ascii a
          simp only [write, hc, List.cons_append, List.cons.injEq, true_and] at h
          exact absurd h.1 hne
      | arr (e :: es), _ =>
          simp only [write, List.cons_append, List.append_assoc, List.cons.injEq, true_and] at h
          obtain ⟨rfl, hrest⟩ := write_append_inj (delimited_writeItems ascii as x)
            (delimited_writeItems ascii es y) a e h
          obtain ⟨rfl, hxy⟩ := writeItems_append_inj as es hrest
          exact ⟨rfl, hxy⟩
  | obj [], b, h => by
      have hk := kind_eq_of_write_append_eq h
      match b, hk with
      | obj [], _ => simpa [write] using h
      | obj ((l, w) :: gs), _ => simp [write, writeString] at h
  | obj ((k, v) :: fs), b, h => by
      have hk := kind_eq_of_write_append_eq h
      match b, hk with
      | obj [], _ => simp [write, writeString] at h
      | obj ((l, w) :: gs), _ =>
          simp only [write, List.cons_append, List.append_assoc, List.cons.injEq, true_and] at h
          obtain ⟨rfl, hval⟩ := writeString_append_inj h
          obtain ⟨rfl, hrest⟩ := write_append_inj (delimited_writeFields ascii fs x)
            (delimited_writeFields ascii gs y) v w (List.cons.inj hval).2
          obtain ⟨rfl, hxy⟩ := writeFields_append_inj fs gs hrest
          exact ⟨rfl, hxy⟩

theorem writeItems_append_inj {ascii : Bool} {x y : List Char} :
    ∀ as bs : List Json, writeItems ascii as ++ x = writeItems ascii bs ++ y → as = bs ∧ x = y
  | [], [], h => by simpa [writeItems] using h
  | [], b :: bs, h => by simp [writeItems] at h
  | a :: as, [], h => by simp [writeItems] at h
  | a :: as, b :: bs, h => by
      simp only [writeItems, List.cons_append, List.append_assoc, List.cons.injEq, true_and] at h
      obtain ⟨rfl, hrest⟩ := write_append_inj (delimited_writeItems ascii as x)
        (delimited_writeItems ascii bs y) a b h
      obtain ⟨rfl, hxy⟩ := writeItems_append_inj as bs hrest
      exact ⟨rfl, hxy⟩

theorem writeFields_append_inj {ascii : Bool} {x y : List Char} :
    ∀ fs gs : List (String × Json), writeFields ascii fs ++ x = writeFields ascii gs ++ y →
      fs = gs ∧ x = y
  | [], [], h => by simpa [writeFields] using h
  | [], (l, w) :: gs, h => by simp [writeFields] at h
  | (k, v) :: fs, [], h => by simp [writeFields] at h
  | (k, v) :: fs, (l, w) :: gs, h => by
      simp only [writeFields, List.cons_append, List.append_assoc, List.cons.injEq, true_and] at h
      obtain ⟨rfl, hval⟩ := writeString_append_inj h
      obtain ⟨rfl, hrest⟩ := write_append_inj (delimited_writeFields ascii fs x)
        (delimited_writeFields ascii gs y) v w (List.cons.inj hval).2
      obtain ⟨rfl, hxy⟩ := writeFields_append_inj fs gs hrest
      exact ⟨rfl, hxy⟩

end

/-- **The compact text of a tree determines it.** -/
theorem dumps_injective (ascii : Bool) : Function.Injective (dumps ascii) := by
  intro a b h
  have h : write ascii a ++ [] = write ascii b ++ [] := by
    rw [String.ofList_injective h]
  exact (write_append_inj delimited_nil delimited_nil a b h).1

end Json
