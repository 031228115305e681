import Khora.Hooks.Dispatcher
import Khora.Lib.Glob

/-!
# The match language of the event hooks

`match_dsl.matches` evaluates a pattern of operators against the data of an event.

* `right_matchEntry_iff` — an operator answers as documented exactly if its operand is well formed where
  that is looked at, and no text has a line break behind a match of its glob.
* `right_matches_of_reached` — if all that the evaluation comes to answers right, so does the whole.
* `matches_exact_iff` — the evaluation is as documented exactly if every operand it comes to fits.
* `passesTypeFilter_iff` — what Level 0 of the cascade lets through.
* `bareOperand_diverges` — a prefix that is a number, and the operands that match what they should not.
-/

namespace Khora

namespace MatchDsl

open Fallible

/-- What an evaluation answers, or the exception it raises. -/
abbrev Answer := Except PyErr Bool

/-! ## Operators -/

inductive Operator where
  | presence
  | startsWith
  | endsWith
  | equalsIgnoreCase
  | wildcard
  | numeric
  | anythingBut
  | containsAll
deriving DecidableEq

/-- The member name of the operator. -/
def Operator.name : Operator → String
  | presence => "exists"
  | startsWith => "prefix"
  | endsWith => "suffix"
  | equalsIgnoreCase => "equals-ignore-case"
  | wildcard => "wildcard"
  | numeric => "numeric"
  | anythingBut => "anything-but"
  | containsAll => "contains-all"

/-- `name in op_dict`, and its operand. -/
def operand? (fields : List (String × Json)) (op : Operator) : Option Json :=
  (fields.find? fun f => f.1 = op.name).map Prod.snd

/-- The first of the operators that the object has. -/
def firstOperator (ops : List Operator) (fields : List (String × Json)) : Option (Operator × Json) :=
  ops.findSome? fun op => (operand? fields op).map fun x => (op, x)

/-- The order in which `_evaluate_operator` asks for the operators. -/
def operators : List Operator :=
  [.presence, .startsWith, .endsWith, .equalsIgnoreCase, .wildcard, .numeric, .anythingBut, .containsAll]

/-- The operators `_anything_but` negates. -/
def negatable : List Operator := [.startsWith, .endsWith, .wildcard]

/-- `bool(operand)` -/
def truthy : Json → Bool
  | .null => false
  | .bool b => b
  | .int n => n ≠ 0
  | .float f => f.value ≠ 0
  | .str s => s ≠ ""
  | .arr xs => xs ≠ []
  | .obj fs => fs ≠ []

/-- The keys of a dict and the members of a set are hashed. -/
def hashable : Json → Bool
  | .arr _ => false
  | .obj _ => false
  | _ => true

/-- An int or a float, but not a bool. -/
def threshold? : Json → Option ℚ
  | .int n => some n
  | .float f => some f.value
  | _ => none

def number? (value : Value) : Option ℚ := if value.isNumber then value.number? else none

/-- The tokens of a glob. -/
def globTokens (pattern : String) : List (Glob.Token Char) :=
  pattern.toList.map fun ch => if ch = '*' then .star else if ch = '?' then .any else .lit ch

/-- `_compile_wildcard` -/
def compileWildcard (pattern : String) : Regex Char := Glob.compile (globTokens pattern)

/-- The operators of a text `value` whose operand has to be a string. -/
def textTest (op : Operator) (value : String) : Json → Answer
  | .str s =>
      match op with
      | .startsWith => .ok (s.toList.isPrefixOf value.toList)
      | .endsWith => .ok (s.toList.isSuffixOf value.toList)
      | _ => .ok (Glob.matchLine '\n' (compileWildcard s) value.toList)
  | _ => .error .typeError

/-- The comparisons of `_NUMERIC_OPS`. -/
def numericOp? : String → Option (ℚ → ℚ → Bool)
  | ">=" => some fun a b => b ≤ a
  | "<=" => some fun a b => a ≤ b
  | "=" => some fun a b => a = b
  | "!=" => some fun a b => a ≠ b
  | ">" => some fun a b => b < a
  | "<" => some fun a b => a < b
  | _ => none

/-- One pair of `_numeric_compare`. -/
def numericPair (value : ℚ) (op threshold : Json) : Answer :=
  if hashable op then
    match op with
    | .str s =>
        match numericOp? s, threshold? threshold with
        | some compare, some t => .ok (compare value t)
        | _, _ => .ok false
    | _ => .ok false
  else
    .error .typeError

/-- The loop of `_numeric_compare`. -/
def numericPairs (value : ℚ) : List Json → Answer
  | op :: threshold :: rest =>
      numericPair value op threshold >>= fun holds => if holds then numericPairs value rest else .ok false
  | _ => .ok true

/-- `_numeric_compare` -/
def numericCompare (value : Value) (ops : List Json) : Answer :=
  match number? value with
  | none => .ok false
  | some q => if ops.length % 2 ≠ 0 then .ok false else numericPairs q ops

/-- `_anything_but` -/
def anythingBut (value : Value) : Json → Answer
  | .arr items => .ok !(items.any fun x => value.pyEq (Value.ofJson x))
  | .obj fields =>
      match firstOperator negatable fields with
      | some (op, x) =>
          match value with
          | .str s => notE (textTest op s x)
          | _ => .ok true
      | none => .ok false
  | x => .ok !(value.pyEq (Value.ofJson x))

section Evaluation

variable (lower : String → String) (text : Json → String)

/-- `str(operand)`; `text` is `str` of what is no string. -/
def pyStr : Json → String
  | .str s => s
  | x => text x

/-- `_evaluate_operator` for a key that is present; `lower` is `str.lower`. -/
def applyOperator (op : Operator) (x : Json) (value : Value) : Answer :=
  match op with
  | .presence => .ok (truthy x)
  | .equalsIgnoreCase =>
      match value with
      | .str s => .ok (lower s = lower (pyStr text x))
      | _ => .ok false
  | .numeric =>
      match x with
      | .arr ops => numericCompare value ops
      | _ => .ok false
  | .anythingBut => anythingBut value x
  | .containsAll =>
      match x, value with
      | .arr needles, .list items => .ok (needles.all fun n => items.any fun i => i.pyEq (Value.ofJson n))
      | .arr needles, .tuple items => .ok (needles.all fun n => items.any fun i => i.pyEq (Value.ofJson n))
      | _, _ => .ok false
  | op =>
      match value with
      | .str s => textTest op s x
      | _ => .ok false

/-- `_evaluate_operator`; a key that is absent has no value. -/
def evaluateOperator (fields : List (String × Json)) (raw : Option Value) : Answer :=
  match firstOperator operators fields with
  | some (.presence, x) => .ok (raw.isSome == truthy x)
  | some (op, x) =>
      match raw with
      | none => .ok false
      | some value => applyOperator lower text op x value
  | none => .ok false

/-- One entry of `_match_key`. -/
def matchEntry (raw : Option Value) : Json → Answer
  | .obj fields => evaluateOperator lower text fields raw
  | x => .ok (raw.any fun value => value.pyEq (Value.ofJson x))

/-- `_match_key` -/
def matchKey (raw : Option Value) (entries : List Json) : Answer :=
  entries.anyM (matchEntry lower text raw)

variable (data : List (Key × Value))

/-- `event_data.get(key, _MISSING)` -/
def rawValue (key : String) : Option Value := Value.lookup (.str key) data

mutual

/-- `matches` -/
def «matches» : Json → Answer
  | .obj fields => matchFields fields
  | pattern => if truthy pattern then .error .attributeError else .ok true

/-- The loop over `pattern.items()`. -/
def matchFields : List (String × Json) → Answer
  | [] => .ok true
  | (key, patterns) :: rest =>
      matchField key patterns >>= fun holds => if holds then matchFields rest else .ok false

/-- One key of the pattern. -/
def matchField (key : String) : Json → Answer
  | .arr items => if key = "$or" then matchAny items else matchKey lower text (rawValue data key) items
  | patterns => if key = "$or" then .ok false else matchKey lower text (rawValue data key) [patterns]

/-- `any(matches(branch, event_data) for branch in value_patterns)` -/
def matchAny : List Json → Answer
  | [] => .ok false
  | branch :: rest => «matches» branch >>= fun holds => if holds then .ok true else matchAny rest

end

/-! ## What a pattern says -/

/-- The documented meaning of the operators on a text. -/
def TextReads (op : Operator) (s value : String) : Prop :=
  match op with
  | .startsWith => s.toList <+: value.toList
  | .endsWith => s.toList <:+ value.toList
  | _ => Glob.Matches (globTokens s) value.toList

/-- A comparison with a number holds. -/
def PairReads (value : ℚ) (op threshold : Json) : Prop :=
  ∃ s compare t, op = .str s ∧ numericOp? s = some compare ∧ threshold? threshold = some t ∧
    compare value t = true

/-- Pairs of an operator and a number, all of which hold. -/
def NumericReads (value : ℚ) : List Json → Prop
  | [] => True
  | [_] => False
  | op :: threshold :: rest => PairReads value op threshold ∧ NumericReads value rest

/-- The documented meaning of an operator on the value of a key; a malformed operand matches nothing. -/
def OperatorReads (op : Operator) (x : Json) (value : Value) : Prop :=
  match op with
  | .presence => x = .bool true
  | .equalsIgnoreCase => ∃ s v, x = .str s ∧ value = .str v ∧ lower v = lower s
  | .numeric => ∃ ops q, x = .arr ops ∧ ops ≠ [] ∧ number? value = some q ∧ NumericReads q ops
  | .anythingBut =>
      match x with
      | .arr items => ∀ x ∈ items, ¬value.pyEq (Value.ofJson x) = true
      | .obj fields => ∃ op s, firstOperator negatable fields = some (op, .str s) ∧
          ¬∃ v, value = .str v ∧ TextReads op s v
      | x => ¬value.pyEq (Value.ofJson x) = true
  | .containsAll => ∃ needles items, x = .arr needles ∧ (value = .list items ∨ value = .tuple items) ∧
      ∀ n ∈ needles, ∃ i ∈ items, i.pyEq (Value.ofJson n) = true
  | op => ∃ s v, x = .str s ∧ value = .str v ∧ TextReads op s v

/-- An entry of a key: an operator, or a value to be equal to. -/
def EntryReads (raw : Option Value) : Json → Prop
  | .obj fields =>
      match firstOperator operators fields with
      | some (.presence, x) => x = .bool raw.isSome
      | some (op, x) => ∃ value, raw = some value ∧ OperatorReads lower op x value
      | none => False
  | x => ∃ value, raw = some value ∧ value.pyEq (Value.ofJson x) = true

mutual

/-- Every key of the pattern matches; what is no pattern matches nothing. -/
def Reads : Json → Prop
  | .obj fields => ReadsFields fields
  | _ => False

def ReadsFields : List (String × Json) → Prop
  | [] => True
  | (key, patterns) :: rest => ReadsField key patterns ∧ ReadsFields rest

/-- Some entry of the key matches, or some branch of `$or`. -/
def ReadsField (key : String) : Json → Prop
  | .arr items =>
      if key = "$or" then ReadsAny items else ∃ entry ∈ items, EntryReads lower (rawValue data key) entry
  | patterns => key ≠ "$or" ∧ EntryReads lower (rawValue data key) patterns

def ReadsAny : List Json → Prop
  | [] => False
  | branch :: rest => Reads branch ∨ ReadsAny rest

end

/-- The meaning of a whole pattern: no pattern matches everything. -/
def PatternReads (pattern : Json) : Prop := pattern = .null ∨ Reads lower data pattern

/-! ## What an evaluation comes to -/

section Reached

variable (entryOk : Option Value → Json → Prop) (branchOk : Json → Prop)

/-- The entries the loop of `_match_key` comes to. -/
def ReachedEntries (raw : Option Value) : List Json → Prop
  | [] => True
  | entry :: rest =>
      entryOk raw entry ∧ (matchEntry lower text raw entry = .ok false → ReachedEntries raw rest)

mutual

/-- Every entry that the evaluation of the pattern comes to is fine, and every branch. -/
def Reached : Json → Prop
  | .obj fields => ReachedFields fields
  | _ => True

def ReachedFields : List (String × Json) → Prop
  | [] => True
  | (key, patterns) :: rest =>
      ReachedField key patterns ∧ (matchField lower text data key patterns = .ok true → ReachedFields rest)

def ReachedField (key : String) : Json → Prop
  | .arr items =>
      if key = "$or" then ReachedAny items
      else ReachedEntries lower text entryOk (rawValue data key) items
  | patterns => key ≠ "$or" → ReachedEntries lower text entryOk (rawValue data key) [patterns]

def ReachedAny : List Json → Prop
  | [] => True
  | branch :: rest =>
      (branchOk branch ∧ Reached branch) ∧
        («matches» lower text data branch = .ok false → ReachedAny rest)

end

end Reached

end Evaluation

/-! ## Answers -/

/-- An evaluation answers, and answers what is meant. -/
def Right (x : Answer) (meaning : Prop) : Prop := ∃ b, x = .ok b ∧ (b = true ↔ meaning)

theorem right_ok {b : Bool} {meaning : Prop} : Right (.ok b) meaning ↔ (b = true ↔ meaning) := by
  constructor
  · rintro ⟨b', hb, h⟩
    cases hb
    exact h
  · intro h
    exact ⟨b, rfl, h⟩

theorem not_right_error {e : PyErr} {meaning : Prop} : ¬Right (.error e) meaning := by
  rintro ⟨b, hb, -⟩
  cases hb

theorem right_false {meaning : Prop} : Right (.ok false) meaning ↔ ¬meaning := by
  rw [right_ok]
  exact ⟨fun h hm => Bool.false_ne_true (h.mpr hm),
    fun h => ⟨fun hb => absurd hb Bool.false_ne_true, fun hm => absurd hm h⟩⟩

theorem right_true {meaning : Prop} : Right (.ok true) meaning ↔ meaning := by
  rw [right_ok]
  exact ⟨fun h => h.mp rfl, fun h => ⟨fun _ => h, fun _ => rfl⟩⟩

theorem right_notE {x : Answer} {meaning : Prop} : Right (notE x) (¬meaning) ↔ Right x meaning := by
  cases x with
  | error e => exact iff_of_false not_right_error not_right_error
  | ok b =>
      rw [notE_ok, right_ok, right_ok]
      cases b
      · simp
      · simp

theorem Right.congr {x : Answer} {p q : Prop} (h : p ↔ q) : Right x p ↔ Right x q := by
  rw [show p = q from propext h]

/-- `x` and then `y`, if `x` holds. -/
theorem right_and {x y : Answer} {p q : Prop} (hx : Right x p) (hy : x = .ok true → Right y q) :
    Right (x >>= fun holds => if holds then y else .ok false) (p ∧ q) := by
  obtain ⟨b, rfl, hb⟩ := hx
  cases b with
  | false =>
      apply right_false.mpr
      exact fun hand => Bool.false_ne_true (hb.mpr hand.1)
  | true =>
      obtain ⟨b', hy', hb'⟩ := hy rfl
      exact ⟨b', hy', hb'.trans (and_iff_right (hb.mp rfl)).symm⟩

/-- `x`, and else `y`. -/
theorem right_or {x y : Answer} {p q : Prop} (hx : Right x p) (hy : x = .ok false → Right y q) :
    Right (x >>= fun holds => if holds then .ok true else y) (p ∨ q) := by
  obtain ⟨b, rfl, hb⟩ := hx
  cases b with
  | true => exact right_true.mpr (.inl (hb.mp rfl))
  | false =>
      obtain ⟨b', hy', hb'⟩ := hy rfl
      have hp : ¬p := fun h => Bool.false_ne_true (hb.mpr h)
      exact ⟨b', hy', hb'.trans (or_iff_right hp).symm⟩

/-! ## Operands that fit -/

/-- The text is a match of the glob and a line break, and as a whole it is none. -/
def StrayLine (s value : String) : Prop :=
  ¬Glob.Matches (globTokens s) value.toList ∧
    ∃ line, value.toList = line ++ ['\n'] ∧ Glob.Matches (globTokens s) line

/-- The operand of an operator on a text is a string, and no line break stands behind a match of its
glob. -/
def TextFits (op : Operator) (x : Json) (value : String) : Prop :=
  ∃ s, x = .str s ∧ (op = .wildcard → ¬StrayLine s value)

/-- No operator of the pairs that are come to is a list or an object. -/
def NumericFits (value : ℚ) : List Json → Prop
  | op :: threshold :: rest =>
      hashable op = true ∧ (numericPair value op threshold = .ok true → NumericFits value rest)
  | _ => True

section Fits

variable (lower : String → String) (text : Json → String)

/-- The operand is well formed where the operator looks at it. -/
def OperatorFits (op : Operator) (x : Json) (value : Value) : Prop :=
  match op with
  | .presence => True
  | .equalsIgnoreCase =>
      ∀ v, value = .str v → (∃ s, x = .str s) ∨ lower v ≠ lower (pyStr text x)
  | .numeric => ∀ q ops, number? value = some q → x = .arr ops → ops.length % 2 = 0 →
      ops ≠ [] ∧ NumericFits q ops
  | .anythingBut =>
      match x with
      | .obj fields => ∀ op y, firstOperator negatable fields = some (op, y) →
          (∃ s, y = .str s) ∧ ∀ v, value = .str v → TextFits op y v
      | _ => True
  | .containsAll => True
  | op => ∀ v, value = .str v → TextFits op x v

/-- The operand of an entry fits; that of `exists` is a boolean, or does not match. -/
def EntryFits (raw : Option Value) : Json → Prop
  | .obj fields =>
      match firstOperator operators fields with
      | some (.presence, x) => (∃ b, x = .bool b) ∨ truthy x ≠ raw.isSome
      | some (op, x) => ∀ value, raw = some value → OperatorFits lower text op x value
      | none => True
  | _ => True

end Fits

/-! ## One operator -/

theorem right_textTest_iff {op : Operator} (hop : op ∈ negatable) (x : Json) (value : String) :
    Right (textTest op value x) (∃ s, x = .str s ∧ TextReads op s value) ↔ TextFits op x value := by
  cases x with
  | str s =>
      have hreads : (∃ s', Json.str s = .str s' ∧ TextReads op s' value) ↔ TextReads op s value := by
        constructor
        · rintro ⟨s', hs, h⟩
          cases hs
          exact h
        · exact fun h => ⟨s, rfl, h⟩
      have hfits : TextFits op (.str s) value ↔ (op = .wildcard → ¬StrayLine s value) := by
        constructor
        · rintro ⟨s', hs, h⟩
          cases hs
          exact h
        · exact fun h => ⟨s, rfl, h⟩
      rw [Right.congr hreads, hfits]
      simp only [negatable, List.mem_cons, List.not_mem_nil, or_false] at hop
      obtain rfl | rfl | rfl := hop
      · refine iff_of_true (right_ok.mpr List.isPrefixOf_iff_prefix) fun h => ?_
        cases h
      · refine iff_of_true (right_ok.mpr List.isSuffixOf_iff_suffix) fun h => ?_
        cases h
      · show Right (.ok (Glob.matchLine '\n' (Glob.compile (globTokens s)) value.toList)) _ ↔ _
        rw [right_ok, Glob.matchLine_iff, forall_prop_of_true rfl]
        show (_ ↔ Glob.Matches (globTokens s) value.toList) ↔ _
        have hlogic : ∀ p q : Prop, (p ∨ q ↔ p) ↔ ¬(¬p ∧ q) := by tauto
        exact hlogic _ _
  | _ =>
      refine iff_of_false not_right_error ?_
      rintro ⟨s, hs, -⟩
      cases hs

theorem textTest_error {op : Operator} {x : Json} {value : String} (h : ¬∃ s, x = .str s) :
    textTest op value x = .error .typeError := by
  cases x with
  | str s => exact absurd ⟨s, rfl⟩ h
  | _ => rfl

theorem right_numericPair_iff {q : ℚ} {op threshold : Json} :
    Right (numericPair q op threshold) (PairReads q op threshold) ↔ hashable op = true := by
  unfold numericPair
  by_cases hhash : hashable op = true
  · rw [if_pos hhash]
    refine iff_of_true ?_ hhash
    cases op with
    | str s =>
        simp only
        cases hop : numericOp? s with
        | none =>
            apply right_false.mpr
            rintro ⟨s', compare, t, hs, hcompare, -, -⟩
            cases hs
            rw [hop] at hcompare
            cases hcompare
        | some compare =>
            cases ht : threshold? threshold with
            | none =>
                apply right_false.mpr
                rintro ⟨s', compare', t, -, -, ht', -⟩
                rw [ht] at ht'
                cases ht'
            | some t =>
                rw [right_ok]
                constructor
                · exact fun h => ⟨s, compare, t, rfl, hop, ht, h⟩
                · rintro ⟨s', compare', t', hs, hcompare, ht', h⟩
                  cases hs
                  rw [hop] at hcompare
                  rw [ht] at ht'
                  cases hcompare
                  cases ht'
                  exact h
    | _ =>
        apply right_false.mpr
        rintro ⟨s, compare, t, hs, -⟩
        cases hs
  · rw [if_neg hhash]
    exact iff_of_false not_right_error hhash

/-- The pairs are compared as documented exactly if none that is come to has a list or an object for its
operator. -/
theorem right_numericPairs_iff {q : ℚ} : ∀ {ops : List Json}, ops.length % 2 = 0 →
    (Right (numericPairs q ops) (NumericReads q ops) ↔ NumericFits q ops)
  | [], _ => iff_of_true (right_true.mpr trivial) trivial
  | [_], h => by cases h
  | op :: threshold :: rest, h => by
      have hrest : rest.length % 2 = 0 := by
        rw [List.length_cons, List.length_cons] at h
        omega
      have ih := @right_numericPairs_iff q rest hrest
      rw [numericPairs, NumericReads, NumericFits]
      by_cases hhash : hashable op = true
      · obtain ⟨b, hpair, hb⟩ := right_numericPair_iff.mpr hhash
        rw [hpair, and_iff_right hhash]
        cases b with
        | false =>
            refine iff_of_true (right_false.mpr fun hand => ?_) fun h => ?_
            · exact Bool.false_ne_true (hb.mpr hand.1)
            · cases h
        | true =>
            rw [forall_prop_of_true rfl, ← ih]
            exact Right.congr (and_iff_right (hb.mp rfl))
      · have herror : numericPair q op threshold = .error .typeError := if_neg hhash
        rw [herror]
        exact iff_of_false not_right_error fun hand => hhash hand.1

theorem numericReads_odd {q : ℚ} : ∀ {ops : List Json}, ops.length % 2 ≠ 0 → ¬NumericReads q ops
  | [], h, _ => h rfl
  | [_], _, hreads => hreads
  | op :: threshold :: rest, h, hreads => by
      rw [List.length_cons, List.length_cons] at h
      exact numericReads_odd (by omega) hreads.2

theorem right_numeric_iff {x : Json} {value : Value} (lower : String → String) (text : Json → String) :
    Right (applyOperator lower text .numeric x value) (OperatorReads lower .numeric x value) ↔
      OperatorFits lower text .numeric x value := by
  cases x with
  | arr ops =>
      have hreads : OperatorReads lower .numeric (.arr ops) value ↔
          ops ≠ [] ∧ ∃ q, number? value = some q ∧ NumericReads q ops := by
        constructor
        · rintro ⟨ops', q, hops, hne, hq, h⟩
          cases hops
          exact ⟨hne, q, hq, h⟩
        · rintro ⟨hne, q, hq, h⟩
          exact ⟨ops, q, rfl, hne, hq, h⟩
      rw [Right.congr hreads]
      show Right (numericCompare value ops) _ ↔ ∀ q ops', number? value = some q → Json.arr ops = .arr ops' →
        ops'.length % 2 = 0 → ops' ≠ [] ∧ NumericFits q ops'
      unfold numericCompare
      cases hq : number? value with
      | none =>
          refine iff_of_true (right_false.mpr ?_) fun q _ h => by cases h
          rintro ⟨-, q, h, -⟩
          cases h
      | some q =>
          simp only
          by_cases hodd : ops.length % 2 ≠ 0
          · rw [if_pos hodd]
            refine iff_of_true (right_false.mpr ?_) ?_
            · rintro ⟨-, q', hq', h⟩
              cases hq'
              exact numericReads_odd hodd h
            · intro q' ops' _ hops heven
              cases hops
              exact absurd heven hodd
          · rw [if_neg hodd]
            have heven : ops.length % 2 = 0 := not_not.mp hodd
            have hmeaning : (ops ≠ [] ∧ ∃ q', some q = some q' ∧ NumericReads q' ops) ↔
                ops ≠ [] ∧ NumericReads q ops := by simp
            have hfits : (∀ q' ops', some q = some q' → Json.arr ops = .arr ops' → ops'.length % 2 = 0 →
                ops' ≠ [] ∧ NumericFits q' ops') ↔ ops ≠ [] ∧ NumericFits q ops := by
              constructor
              · exact fun h => h q ops rfl rfl heven
              · intro h q' ops' hq' hops _
                cases hq'
                cases hops
                exact h
            rw [Right.congr hmeaning, hfits, ← right_numericPairs_iff heven]
            by_cases hne : ops = []
            · rw [hne]
              refine iff_of_false (fun h => ?_) fun hand => hand.1 rfl
              exact absurd (right_true.mp h).1 (fun h => h rfl)
            · rw [Right.congr (and_iff_right hne), and_iff_right hne]
  | _ =>
      refine iff_of_true (right_false.mpr ?_) ?_
      · rintro ⟨ops, q, hops, -⟩
        cases hops
      · intro q ops _ hops
        cases hops

theorem mem_of_firstOperator {ops : List Operator} {fields : List (String × Json)} {op : Operator} {x : Json}
    (h : firstOperator ops fields = some (op, x)) : op ∈ ops := by
  obtain ⟨op', hop', hfound⟩ := List.exists_of_findSome?_eq_some h
  obtain ⟨y, -, hy⟩ := Option.map_eq_some_iff.mp hfound
  cases hy
  exact hop'

theorem right_anythingBut_iff {x : Json} {value : Value} (lower : String → String) (text : Json → String) :
    Right (applyOperator lower text .anythingBut x value) (OperatorReads lower .anythingBut x value) ↔
      OperatorFits lower text .anythingBut x value := by
  show Right (anythingBut value x) _ ↔ _
  cases x with
  | arr items =>
      refine iff_of_true (right_ok.mpr ?_) trivial
      rw [Bool.not_eq_true', List.any_eq_false]
      rfl
  | obj fields =>
      unfold anythingBut OperatorReads OperatorFits
      simp only
      cases hop : firstOperator negatable fields with
      | none =>
          refine iff_of_true (right_false.mpr ?_) fun _ _ h => by cases h
          rintro ⟨op, s, h, -⟩
          cases h
      | some found =>
          obtain ⟨op, y⟩ := found
          have hmem : op ∈ negatable := mem_of_firstOperator hop
          have hreads : (∃ op' s, some (op, y) = some (op', Json.str s) ∧
              ¬∃ v, value = .str v ∧ TextReads op' s v) ↔
                ∃ s, y = .str s ∧ ¬∃ v, value = .str v ∧ TextReads op s v := by
            constructor
            · rintro ⟨op', s, h, hnot⟩
              cases h
              exact ⟨s, rfl, hnot⟩
            · rintro ⟨s, rfl, hnot⟩
              exact ⟨op, s, rfl, hnot⟩
          have hfits : (∀ op' y', some (op, y) = some (op', y') →
              (∃ s, y' = Json.str s) ∧ ∀ v, value = .str v → TextFits op' y' v) ↔
                (∃ s, y = Json.str s) ∧ ∀ v, value = .str v → TextFits op y v := by
            constructor
            · exact fun h => h op y rfl
            · intro h op' y' heq
              cases heq
              exact h
          rw [Right.congr hreads, hfits]
          cases value with
          | str v =>
              have htext := right_textTest_iff hmem y v
              by_cases hstr : ∃ s, y = .str s
              · obtain ⟨s, rfl⟩ := hstr
                have hnot : (∃ s', Json.str s = .str s' ∧ ¬∃ v', Value.str v = .str v' ∧ TextReads op s' v') ↔
                    ¬∃ s', Json.str s = .str s' ∧ TextReads op s' v := by
                  simp
                rw [Right.congr hnot, right_notE, htext]
                simp
              · refine iff_of_false ?_ fun hand => hstr hand.1
                show ¬Right (notE (textTest op v y)) _
                rw [textTest_error hstr, notE_error]
                exact not_right_error
          | _ =>
              rw [right_true]
              simp
  | _ =>
      refine iff_of_true (right_ok.mpr ?_) trivial
      rw [Bool.not_eq_true', ← Bool.not_eq_true]
      rfl

theorem right_equalsIgnoreCase_iff {x : Json} {value : Value} (lower : String → String)
    (text : Json → String) :
    Right (applyOperator lower text .equalsIgnoreCase x value)
        (OperatorReads lower .equalsIgnoreCase x value) ↔
      OperatorFits lower text .equalsIgnoreCase x value := by
  cases value with
  | str v =>
      show Right (.ok (decide (lower v = lower (pyStr text x)))) _ ↔
        ∀ v', Value.str v = .str v' → (∃ s, x = .str s) ∨ lower v' ≠ lower (pyStr text x)
      rw [right_ok, decide_eq_true_eq]
      by_cases hstr : ∃ s, x = .str s
      · obtain ⟨s, rfl⟩ := hstr
        refine iff_of_true ⟨fun h => ⟨s, v, rfl, rfl, h⟩, ?_⟩ fun _ _ => .inl ⟨s, rfl⟩
        rintro ⟨s', v', hs, hv, h⟩
        cases hs
        cases hv
        exact h
      · have hreads : ¬OperatorReads lower .equalsIgnoreCase x (.str v) := by
          rintro ⟨s, v', hs, -⟩
          exact hstr ⟨s, hs⟩
        constructor
        · intro h v' hv
          cases hv
          exact .inr fun heq => hreads (h.mp heq)
        · intro h
          exact ⟨fun heq => absurd heq ((h v rfl).resolve_left hstr), fun hr => absurd hr hreads⟩
  | _ =>
      refine iff_of_true (right_false.mpr ?_) fun v h => by cases h
      rintro ⟨s, v, -, hv, -⟩
      cases hv

theorem right_containsAll {x : Json} {value : Value} (lower : String → String) (text : Json → String) :
    Right (applyOperator lower text .containsAll x value) (OperatorReads lower .containsAll x value) := by
  have hlists : ∀ needles items, value = .list items ∨ value = .tuple items →
      Right (.ok (needles.all fun n => items.any fun i => i.pyEq (Value.ofJson n)))
        (OperatorReads lower .containsAll (.arr needles) value) := by
    intro needles items hvalue
    rw [right_ok]
    simp only [List.all_eq_true, List.any_eq_true]
    constructor
    · exact fun h => ⟨needles, items, rfl, hvalue, h⟩
    · rintro ⟨needles', items', hneedles, hvalue', h⟩
      cases hneedles
      have hitems : items' = items := by
        rcases hvalue with rfl | rfl
        · rcases hvalue' with hv | hv
          · cases hv
            rfl
          · cases hv
        · rcases hvalue' with hv | hv
          · cases hv
          · cases hv
            rfl
      rwa [hitems] at h
  cases x with
  | arr needles =>
      cases value with
      | list items => exact hlists needles items (.inl rfl)
      | tuple items => exact hlists needles items (.inr rfl)
      | _ =>
          apply right_false.mpr
          rintro ⟨_, _, -, hv | hv, -⟩
          · cases hv
          · cases hv
  | _ =>
      apply right_false.mpr
      rintro ⟨_, _, hx, -⟩
      cases hx

theorem right_textOperator_iff {op : Operator} (hop : op ∈ negatable) {x : Json} {value : Value} :
    Right (match value with | .str v => textTest op v x | _ => .ok false)
        (∃ s v, x = .str s ∧ value = .str v ∧ TextReads op s v) ↔
      ∀ v, value = .str v → TextFits op x v := by
  cases value with
  | str v =>
      have hreads : (∃ s v', x = Json.str s ∧ Value.str v = .str v' ∧ TextReads op s v') ↔
          ∃ s, x = .str s ∧ TextReads op s v := by simp
      rw [Right.congr hreads, right_textTest_iff hop]
      simp
  | _ =>
      refine iff_of_true (right_false.mpr ?_) fun v h => by cases h
      rintro ⟨s, v, -, hv, -⟩
      cases hv

/-- **An operator answers as documented exactly if its operand fits.** -/
theorem right_applyOperator_iff {op : Operator} (hop : op ≠ .presence) {x : Json} {value : Value}
    (lower : String → String) (text : Json → String) :
    Right (applyOperator lower text op x value) (OperatorReads lower op x value) ↔
      OperatorFits lower text op x value := by
  cases op with
  | presence => exact absurd rfl hop
  | startsWith => exact right_textOperator_iff (by decide)
  | endsWith => exact right_textOperator_iff (by decide)
  | wildcard => exact right_textOperator_iff (by decide)
  | equalsIgnoreCase => exact right_equalsIgnoreCase_iff lower text
  | numeric => exact right_numeric_iff lower text
  | anythingBut => exact right_anythingBut_iff lower text
  | containsAll => exact iff_of_true (right_containsAll lower text) trivial

theorem right_presence_iff {x : Json} {present : Bool} :
    Right (.ok (present == truthy x)) (x = .bool present) ↔ (∃ b, x = .bool b) ∨ truthy x ≠ present := by
  rw [right_ok, beq_iff_eq]
  by_cases hbool : ∃ b, x = .bool b
  · obtain ⟨b, rfl⟩ := hbool
    refine iff_of_true ?_ (.inl ⟨b, rfl⟩)
    show present = b ↔ Json.bool b = .bool present
    rw [Json.bool.injEq, eq_comm]
  · have hne : x ≠ .bool present := fun h => hbool ⟨present, h⟩
    rw [or_iff_right hbool, iff_false_right hne]
    exact ⟨fun h heq => h heq.symm, fun h heq => h heq.symm⟩

theorem right_present_iff {op : Operator} (hop : op ≠ .presence) {x : Json} (lower : String → String)
    (text : Json → String) : ∀ raw : Option Value,
    (Right (match raw with
      | none => .ok false
      | some value => applyOperator lower text op x value)
      (∃ value, raw = some value ∧ OperatorReads lower op x value) ↔
        ∀ value, raw = some value → OperatorFits lower text op x value)
  | none => iff_of_true (right_false.mpr (by simp)) (by simp)
  | some value => by
      have hreads : (∃ value', some value = some value' ∧ OperatorReads lower op x value') ↔
          OperatorReads lower op x value := by simp
      rw [Right.congr hreads, right_applyOperator_iff hop]
      simp

theorem right_literal (raw : Option Value) (x : Json) :
    Right (.ok (raw.any fun value => value.pyEq (Value.ofJson x)))
      (∃ value, raw = some value ∧ value.pyEq (Value.ofJson x) = true) := by
  rw [right_ok]
  cases raw with
  | none => simp
  | some value => simp

/-- **An entry answers as documented exactly if its operand fits.** -/
theorem right_matchEntry_iff (lower : String → String) (text : Json → String) (raw : Option Value)
    (entry : Json) :
    Right (matchEntry lower text raw entry) (EntryReads lower raw entry) ↔
      EntryFits lower text raw entry := by
  cases entry with
  | obj fields =>
      unfold matchEntry EntryReads EntryFits
      dsimp only
      unfold evaluateOperator
      cases hop : firstOperator operators fields with
      | none => exact iff_of_true (right_false.mpr id) trivial
      | some found =>
          obtain ⟨op, x⟩ := found
          cases op with
          | presence => exact right_presence_iff
          | startsWith => exact right_present_iff (by decide) lower text raw
          | endsWith => exact right_present_iff (by decide) lower text raw
          | equalsIgnoreCase => exact right_present_iff (by decide) lower text raw
          | wildcard => exact right_present_iff (by decide) lower text raw
          | numeric => exact right_present_iff (by decide) lower text raw
          | anythingBut => exact right_present_iff (by decide) lower text raw
          | containsAll => exact right_present_iff (by decide) lower text raw
  | _ => exact iff_of_true (right_literal raw _) trivial

/-! ## A whole pattern -/

/-- A pattern or a branch is an object. -/
def IsObject : Json → Prop
  | .obj _ => True
  | _ => False

section Whole

variable (lower : String → String) (text : Json → String) (data : List (Key × Value))

/-- The evaluation answers right for every entry it comes to. -/
def EntryRight (raw : Option Value) (entry : Json) : Prop :=
  Right (matchEntry lower text raw entry) (EntryReads lower raw entry)

/-- The evaluation of a branch answers right. -/
def BranchRight (branch : Json) : Prop := Right («matches» lower text data branch) (Reads lower data branch)

variable {lower text data}

/-- What is no object is not answered right as a branch: it raises, or it matches everything. -/
theorem isObject_of_branchRight {branch : Json} (h : BranchRight lower text data branch) : IsObject branch := by
  cases branch with
  | obj fields => trivial
  | _ =>
      exfalso
      unfold BranchRight «matches» at h
      split at h
      · exact not_right_error h
      · exact right_true.mp h

theorem matchKey_cons (raw : Option Value) (entry : Json) (rest : List Json) :
    matchKey lower text raw (entry :: rest) =
      matchEntry lower text raw entry >>= fun holds =>
        if holds then .ok true else matchKey lower text raw rest := by
  unfold matchKey
  rw [List.anyM]
  cases matchEntry lower text raw entry with
  | error e => rfl
  | ok b =>
      cases b
      · rfl
      · rfl

theorem right_matchKey {raw : Option Value} {entries : List Json}
    (h : ReachedEntries lower text (EntryRight lower text) raw entries) :
    Right (matchKey lower text raw entries) (∃ entry ∈ entries, EntryReads lower raw entry) := by
  induction entries with
  | nil => exact right_false.mpr (by simp)
  | cons entry rest ih =>
      have hor := right_or h.1 fun hfalse => ih (h.2 hfalse)
      have hmeaning : (∃ e ∈ entry :: rest, EntryReads lower raw e) ↔
          EntryReads lower raw entry ∨ ∃ e ∈ rest, EntryReads lower raw e := by simp
      rw [Right.congr hmeaning, matchKey_cons]
      exact hor

/-- **If all that the evaluation comes to answers right, so does the whole**: of a pattern, and of a
key's entries. -/
theorem right_matches_of_reached (j : Json) :
    (IsObject j → Reached lower text data (EntryRight lower text) (BranchRight lower text data) j →
      BranchRight lower text data j) ∧
    ∀ key, ReachedField lower text data (EntryRight lower text) (BranchRight lower text data) key j →
      Right (matchField lower text data key j) (ReadsField lower data key j) := by
  have hsingle : ∀ (key : String) (x : Json),
      (key ≠ "$or" → ReachedEntries lower text (EntryRight lower text) (rawValue data key) [x]) →
      Right (if key = "$or" then .ok false else matchKey lower text (rawValue data key) [x])
        (key ≠ "$or" ∧ EntryReads lower (rawValue data key) x) := by
    intro key x h
    by_cases hor : key = "$or"
    · rw [if_pos hor]
      exact right_false.mpr fun hand => hand.1 hor
    · rw [if_neg hor]
      have hkey := right_matchKey (h hor)
      have hmeaning : (key ≠ "$or" ∧ EntryReads lower (rawValue data key) x) ↔
          ∃ e ∈ [x], EntryReads lower (rawValue data key) e := by simp [hor]
      rwa [Right.congr hmeaning]
  induction j using Json.induct with
  | obj fields ih =>
      refine ⟨fun hobject h => ?_, fun key h => hsingle key _ h⟩
      show Right (matchFields lower text data fields) (ReadsFields lower data fields)
      have hfields : ReachedFields lower text data (EntryRight lower text) (BranchRight lower text data)
          fields := h
      clear h hobject
      induction fields with
      | nil => exact right_true.mpr trivial
      | cons f rest ihrest =>
          obtain ⟨key, patterns⟩ := f
          rw [List.forall_mem_cons] at ih
          exact right_and (ih.1.2 key hfields.1) fun htrue => ihrest ih.2 (hfields.2 htrue)
  | arr items ih =>
      refine ⟨fun h => absurd h id, fun key h => ?_⟩
      unfold matchField ReadsField
      unfold ReachedField at h
      by_cases hor : key = "$or"
      · rw [if_pos hor] at h ⊢
        rw [if_pos hor]
        clear hsingle
        induction items with
        | nil => exact right_false.mpr id
        | cons branch rest ihrest =>
            rw [List.forall_mem_cons] at ih
            have hbranch := ih.1.1 (isObject_of_branchRight h.1.1) h.1.2
            exact right_or hbranch fun hfalse => ihrest ih.2 (h.2 hfalse)
      · rw [if_neg hor] at h ⊢
        rw [if_neg hor]
        exact right_matchKey h
  | null => exact ⟨fun h => absurd h id, fun key h => hsingle key _ h⟩
  | bool b => exact ⟨fun h => absurd h id, fun key h => hsingle key _ h⟩
  | int n => exact ⟨fun h => absurd h id, fun key h => hsingle key _ h⟩
  | float f => exact ⟨fun h => absurd h id, fun key h => hsingle key _ h⟩
  | str t => exact ⟨fun h => absurd h id, fun key h => hsingle key _ h⟩

theorem reachedEntries_congr {entryOk entryOk' : Option Value → Json → Prop}
    (h : ∀ raw entry, entryOk raw entry ↔ entryOk' raw entry) {raw : Option Value} (entries : List Json) :
    ReachedEntries lower text entryOk raw entries ↔ ReachedEntries lower text entryOk' raw entries := by
  induction entries with
  | nil => exact Iff.rfl
  | cons entry rest ih => exact and_congr (h raw entry) (imp_congr_right fun _ => ih)

/-- All that the evaluation comes to answers right exactly if all operands fit and all branches are
objects. -/
theorem reached_right_iff (j : Json) :
    (Reached lower text data (EntryRight lower text) (BranchRight lower text data) j ↔
      Reached lower text data (EntryFits lower text) IsObject j) ∧
    ∀ key, ReachedField lower text data (EntryRight lower text) (BranchRight lower text data) key j ↔
      ReachedField lower text data (EntryFits lower text) IsObject key j := by
  have hentries : ∀ (raw : Option Value) (entries : List Json),
      ReachedEntries lower text (EntryRight lower text) raw entries ↔
        ReachedEntries lower text (EntryFits lower text) raw entries :=
    fun raw entries => reachedEntries_congr (right_matchEntry_iff lower text) entries
  induction j using Json.induct with
  | obj fields ih =>
      refine ⟨?_, fun key => imp_congr_right fun _ => hentries _ _⟩
      show ReachedFields lower text data _ _ fields ↔ ReachedFields lower text data _ _ fields
      induction fields with
      | nil => exact Iff.rfl
      | cons f rest ihrest =>
          rw [List.forall_mem_cons] at ih
          exact and_congr (ih.1.2 f.1) (imp_congr_right fun _ => ihrest ih.2)
  | arr items ih =>
      refine ⟨Iff.rfl, fun key => ?_⟩
      unfold ReachedField
      by_cases hor : key = "$or"
      · rw [if_pos hor, if_pos hor]
        induction items with
        | nil => exact Iff.rfl
        | cons branch rest ihrest =>
            rw [List.forall_mem_cons] at ih
            have hbranch : (BranchRight lower text data branch ∧
                Reached lower text data (EntryRight lower text) (BranchRight lower text data) branch) ↔
                  IsObject branch ∧ Reached lower text data (EntryFits lower text) IsObject branch := by
              rw [ih.1.1]
              refine and_congr_left fun hreached => ⟨isObject_of_branchRight, fun hobject => ?_⟩
              exact (right_matches_of_reached branch).1 hobject (ih.1.1.mpr hreached)
            exact and_congr hbranch (imp_congr_right fun _ => ihrest ih.2)
      · rw [if_neg hor, if_neg hor]
        exact hentries _ _
  | null => exact ⟨Iff.rfl, fun key => imp_congr_right fun _ => hentries _ _⟩
  | bool b => exact ⟨Iff.rfl, fun key => imp_congr_right fun _ => hentries _ _⟩
  | int n => exact ⟨Iff.rfl, fun key => imp_congr_right fun _ => hentries _ _⟩
  | float f => exact ⟨Iff.rfl, fun key => imp_congr_right fun _ => hentries _ _⟩
  | str t => exact ⟨Iff.rfl, fun key => imp_congr_right fun _ => hentries _ _⟩

variable (lower text data)

/-- The pattern is evaluated as documented: the whole answers what it means, and so does every entry and
every branch that the evaluation comes to. -/
structure AsDocumented (pattern : Json) : Prop where
  whole : Right («matches» lower text data pattern) (PatternReads lower data pattern)
  parts : Reached lower text data (EntryRight lower text) (BranchRight lower text data) pattern

/-- There is no pattern, or it is an object, and so is every branch that the evaluation comes to, and the
operand of every entry fits. -/
def PatternFits (pattern : Json) : Prop :=
  pattern = .null ∨ IsObject pattern ∧ Reached lower text data (EntryFits lower text) IsObject pattern

variable {lower text data}

theorem asDocumented_of_fits {pattern : Json} (h : PatternFits lower text data pattern) :
    AsDocumented lower text data pattern := by
  by_cases hnull : pattern = .null
  · subst hnull
    exact ⟨right_true.mpr (.inl rfl), trivial⟩
  · have hmeaning : PatternReads lower data pattern ↔ Reads lower data pattern := or_iff_right hnull
    obtain ⟨hobject, hfits⟩ := h.resolve_left hnull
    have hparts := (reached_right_iff pattern).1.mpr hfits
    exact ⟨(Right.congr hmeaning).mpr ((right_matches_of_reached pattern).1 hobject hparts), hparts⟩

variable (lower text data)

/-- **A pattern is evaluated as documented exactly if all operands that the evaluation comes to fit.** -/
theorem matches_exact_iff (pattern : Json) :
    AsDocumented lower text data pattern ↔ PatternFits lower text data pattern := by
  refine ⟨fun h => ?_, asDocumented_of_fits⟩
  by_cases hnull : pattern = .null
  · exact .inl hnull
  · have hmeaning : PatternReads lower data pattern ↔ Reads lower data pattern := or_iff_right hnull
    have hwhole : BranchRight lower text data pattern := (Right.congr hmeaning).mp h.whole
    exact .inr ⟨isObject_of_branchRight hwhole, (reached_right_iff pattern).1.mp h.parts⟩

end Whole

/-! ## The cascade -/

section Cascade

variable {Id : Type} {event : MemoryEvent Id} {f : SemanticFilter Id}

/-- The type lists of the filter, each for its kind of resource. -/
def TypesAllowed (event : MemoryEvent Id) (f : SemanticFilter Id) : Prop :=
  (event.resourceType = "entity" → typeAllowed event "entity_type" f.entityTypes = true) ∧
    (event.resourceType = "relationship" → typeAllowed event "relationship_type" f.relationshipTypes = true) ∧
    (event.resourceType = "dream" → typeAllowed event "op_type" f.dreamOpTypes = true) ∧
    (event.resourceType = "dream" → typeAllowed event "decision" f.dreamDecisions = true)

/-- Level 0 asks for the types first, and then for the pattern. -/
theorem passesTypeFilter_cases (pyMatches : Value → List (Key × Value) → Option Bool) :
    (¬TypesAllowed event f ∧ passesTypeFilter pyMatches event f = some false) ∨
      TypesAllowed event f ∧
        passesTypeFilter pyMatches event f = (f.pattern.elim (some true) fun p => pyMatches p event.data) := by
  unfold passesTypeFilter
  split_ifs with hentity hrelationship hop hdecision
  · exact .inl ⟨fun h => Bool.false_ne_true (hentity.2.symm.trans (h.1 hentity.1)), rfl⟩
  · exact .inl ⟨fun h => Bool.false_ne_true (hrelationship.2.symm.trans (h.2.1 hrelationship.1)), rfl⟩
  · exact .inl ⟨fun h => Bool.false_ne_true (hop.2.symm.trans (h.2.2.1 hop.1)), rfl⟩
  · exact .inl ⟨fun h => Bool.false_ne_true (hdecision.2.symm.trans (h.2.2.2 hdecision.1)), rfl⟩
  · refine .inr ⟨⟨fun h => ?_, fun h => ?_, fun h => ?_, fun h => ?_⟩, ?_⟩
    · exact eq_true_of_ne_false fun hno => hentity ⟨h, hno⟩
    · exact eq_true_of_ne_false fun hno => hrelationship ⟨h, hno⟩
    · exact eq_true_of_ne_false fun hno => hop ⟨h, hno⟩
    · exact eq_true_of_ne_false fun hno => hdecision ⟨h, hno⟩
    · cases f.pattern <;> rfl

/-- **What Level 0 of the cascade lets through**, with this evaluator: the events of the allowed types that the
pattern of the filter reads, if its operands fit. -/
theorem passesTypeFilter_iff {lower : String → String} {text : Json → String}
    {pyMatches : Value → List (Key × Value) → Option Bool} {pattern : Json}
    (hpattern : f.pattern = some (Value.ofJson pattern))
    (hmatches : pyMatches (Value.ofJson pattern) event.data = («matches» lower text event.data pattern).toOption)
    (hfits : PatternFits lower text event.data pattern) :
    (passesTypeFilter pyMatches event f).isSome = true ∧
      (passesTypeFilter pyMatches event f = some true ↔
        TypesAllowed event f ∧ PatternReads lower event.data pattern) := by
  obtain ⟨b, hb, hreads⟩ := (asDocumented_of_fits hfits).whole
  obtain ⟨hno, hcase⟩ | ⟨hyes, hcase⟩ := @passesTypeFilter_cases _ event f pyMatches
  · rw [hcase]
    exact ⟨rfl, by simp [hno]⟩
  · rw [hcase, hpattern, Option.elim_some, hmatches, hb]
    refine ⟨rfl, ?_⟩
    show some b = some true ↔ _
    rw [Option.some.injEq, hreads, and_iff_right hyes]

end Cascade

/-- A key with one entry. -/
def oneEntry (key : String) (entry : Json) : Json := .obj [(key, .arr [entry])]

/-- The event `{"name": name}`. -/
def named (name : String) : List (Key × Value) := [(.str "name", .str name)]

/-- **A prefix that is a number raises**, an `exists` that is no boolean and a branch that is empty match,
and a glob matches behind a line break. -/
theorem bareOperand_diverges :
    «matches» String.toLower (fun _ => "") (named "Acme") (oneEntry "name" (.obj [("prefix", .int 5)])) =
        .error .typeError ∧
      ¬AsDocumented String.toLower (fun _ => "") (named "Acme")
        (oneEntry "name" (.obj [("prefix", .int 5)])) ∧
      «matches» String.toLower (fun _ => "") (named "Acme") (oneEntry "name" (.obj [("exists", .str "no")])) =
        .ok true ∧
      «matches» String.toLower (fun _ => "") (named "Acme") (oneEntry "$or" (.int 0)) = .ok true ∧
      «matches» String.toLower (fun _ => "") (named "Acme") (oneEntry "$or" (.int 5)) =
        .error .attributeError ∧
      «matches» String.toLower (fun _ => "") (named "Acme\n") (oneEntry "name" (.obj [("wildcard", .str "Ac*e")])) =
        .ok true := by
  have hraises : «matches» String.toLower (fun _ => "") (named "Acme")
      (oneEntry "name" (.obj [("prefix", .int 5)])) = .error .typeError := rfl
  refine ⟨hraises, ?_, rfl, rfl, rfl, rfl⟩
  intro h
  obtain ⟨b, hb, -⟩ := h.whole
  rw [hraises] at hb
  cases hb

end MatchDsl

end Khora
