import Khora.Lib.IsoText
import Khora.Lib.Json
import Khora.Lib.Fallible
import Mathlib.Data.Rat.Lemmas
import Mathlib.Algebra.Order.Ring.Rat

/-!
# Values a filter and a record may hold

The Python values that reach the filter subsystem: JSON-like data, tuples (the
lowering makes them), `datetime` objects and the `DateLiteral` carrier of a
`$date` operand.  Dict keys may be any JSON-like scalar, as Python allows.

Floats are finite and stand for the exact number their literal denotes; rounding
inside binary floating point is outside the model.
-/

namespace Khora

open Calendar (DateTime)

/-- The exceptions the modelled code can raise. -/
inductive PyErr where
  | typeError
  | valueError
  | overflowError
  | attributeError
  | keyError
  | indexError
  /-- `RecallFilterUnsupportedError`. -/
  | unsupported (path reason : String)
  /-- `CompileError`. -/
  | compileError (message : String)
  /-- The database driver refuses a bound parameter. -/
  | driverError
deriving DecidableEq, Repr

/-- A dict key. -/
inductive Key where
  | str (s : String)
  | int (n : Int)
  | float (f : FloatLit)
  | bool (b : Bool)
  | none
deriving DecidableEq

/-- What Python's `==` and `hash` see of a key: numbers of every type are one kind. -/
inductive NormKey where
  | str (s : String)
  | num (q : ℚ)
  | none
deriving DecidableEq

namespace Key

def norm : Key → NormKey
  | str s => .str s
  | int n => .num n
  | float f => .num f.value
  | bool b => .num (if b then 1 else 0)
  | none => .none

/-- The member name `json.dumps` writes for a key. -/
def jsonText : Key → String
  | str s => s
  | int n => String.ofList (Json.writeInt n)
  | float f => f.text
  | bool true => "true"
  | bool false => "false"
  | none => "null"

/-- `str(key)`. -/
def pyStr : Key → String
  | str s => s
  | int n => String.ofList (Json.writeInt n)
  | float f => f.text
  | bool true => "True"
  | bool false => "False"
  | none => "None"

/-- `isinstance(key, str) and key.startswith("$")`. -/
def isDollar : Key → Bool
  | str s => s.toList.head? == some '$'
  | _ => false

end Key

inductive Value where
  | none
  | bool (b : Bool)
  | int (n : Int)
  | float (f : FloatLit)
  | str (s : String)
  | list (items : List Value)
  | tuple (items : List Value)
  | dict (fields : List (Key × Value))
  | datetime (d : DateTime)
  | dateLiteral (d : DateTime)

/-- Structural induction over a value, its items and its fields. -/
theorem Value.induct {P : Value → Prop} (none : P .none) (bool : ∀ b, P (.bool b))
    (int : ∀ n, P (.int n)) (float : ∀ f, P (.float f)) (str : ∀ s, P (.str s))
    (list : ∀ xs, (∀ x ∈ xs, P x) → P (.list xs)) (tuple : ∀ xs, (∀ x ∈ xs, P x) → P (.tuple xs))
    (dict : ∀ fs, (∀ f ∈ fs, P f.2) → P (.dict fs)) (datetime : ∀ d, P (.datetime d))
    (dateLiteral : ∀ d, P (.dateLiteral d)) (v : Value) : P v := by
  refine @Value.rec P (fun xs => ∀ x ∈ xs, P x) (fun fs => ∀ f ∈ fs, P f.2) (fun f => P f.2)
    none bool int float str list tuple dict datetime dateLiteral ?_ ?_ ?_ ?_ ?_ v
  · simp
  · intro x xs hx hxs y hy
    rcases List.mem_cons.mp hy with rfl | hy
    · exact hx
    · exact hxs y hy
  · simp
  · intro f fs hf hfs g hg
    rcases List.mem_cons.mp hg with rfl | hg
    · exact hf
    · exact hfs g hg
  · intro k v hv
    exact hv

namespace Value

/-! ## Type tests -/

/-- `_is_number`: an int or a float, but not a bool. -/
def isNumber : Value → Bool
  | int _ => true
  | float _ => true
  | _ => false

/-- The exact number of an int, a float or a bool. -/
def number? : Value → Option ℚ
  | int n => some n
  | float f => some f.value
  | bool b => some (if b then 1 else 0)
  | _ => .none

def isNone : Value → Bool
  | none => true
  | _ => false

/-- `bool(value)`. -/
def truthy : Value → Bool
  | none => false
  | bool b => b
  | int n => n != 0
  | float f => f.value != 0
  | str s => s != ""
  | list xs => !xs.isEmpty
  | tuple xs => !xs.isEmpty
  | dict fs => !fs.isEmpty
  | datetime _ => true
  | dateLiteral _ => true

/-- The value stored under a key of a dict. -/
def lookup (k : NormKey) (fields : List (Key × Value)) : Option Value :=
  (fields.find? fun f => f.1.norm == k).map Prod.snd

/-! ## Equality -/

/-- `==` of two date-times: a naive and an aware one are never equal. -/
def datetimeEq (a b : DateTime) : Bool :=
  a.aware == b.aware && a.instant == b.instant

mutual

/-- Python's `==`. -/
def pyEq : Value → Value → Bool
  | none, b => b.isNone
  | bool a, b => b.number? == some (if a then 1 else 0)
  | int a, b => b.number? == some (a : ℚ)
  | float a, b => b.number? == some a.value
  | str a, b => match b with
      | str b => a == b
      | _ => false
  | list as, b => match b with
      | list bs => pyEqItems as bs
      | _ => false
  | tuple as, b => match b with
      | tuple bs => pyEqItems as bs
      | _ => false
  | dict as, b => match b with
      | dict bs => as.length == bs.length && pyEqFields as bs
      | _ => false
  | datetime a, b => match b with
      | datetime b => datetimeEq a b
      | _ => false
  | dateLiteral a, b => match b with
      | dateLiteral b => datetimeEq a b
      | _ => false

def pyEqItems : List Value → List Value → Bool
  | [], bs => bs.isEmpty
  | a :: as, bs => match bs with
      | [] => false
      | b :: bs => pyEq a b && pyEqItems as bs

/-- Every field of the left dict has an equal one on the right. -/
def pyEqFields : List (Key × Value) → List (Key × Value) → Bool
  | [], _ => true
  | (k, v) :: fs, bs => (match lookup k.norm bs with
      | some w => pyEq v w
      | .none => false) && pyEqFields fs bs

end

/-! ## Order -/

/-- The four range operators. -/
inductive Cmp where
  | gt
  | gte
  | lt
  | lte
deriving DecidableEq, Repr

/-- Apply a range operator to the two strict comparisons of an order. -/
def Cmp.decide (c : Cmp) (lt gt : Bool) : Bool :=
  match c with
  | .gt => gt
  | .gte => !lt
  | .lt => lt
  | .lte => !gt

def cmpNumber (c : Cmp) (a b : ℚ) : Bool := c.decide (a < b) (b < a)
def cmpString (c : Cmp) (a b : String) : Bool := c.decide (a < b) (b < a)
def cmpInt (c : Cmp) (a b : Int) : Bool := c.decide (a < b) (b < a)

/-- Range operators on date-times; a naive and an aware one cannot be ordered. -/
def cmpDatetime (c : Cmp) (a b : DateTime) : Except PyErr Bool :=
  if a.aware = b.aware then .ok (cmpInt c a.instant b.instant) else .error .typeError

mutual

/-- Python's `<`, `<=`, `>`, `>=`. -/
def pyCompare (c : Cmp) : Value → Value → Except PyErr Bool
  | bool a, b => match b.number? with
      | some q => .ok (cmpNumber c (if a then 1 else 0) q)
      | .none => .error .typeError
  | int a, b => match b.number? with
      | some q => .ok (cmpNumber c a q)
      | .none => .error .typeError
  | float a, b => match b.number? with
      | some q => .ok (cmpNumber c a.value q)
      | .none => .error .typeError
  | str a, b => match b with
      | str b => .ok (cmpString c a b)
      | _ => .error .typeError
  | list as, b => match b with
      | list bs => pyCompareItems c as bs
      | _ => .error .typeError
  | tuple as, b => match b with
      | tuple bs => pyCompareItems c as bs
      | _ => .error .typeError
  | datetime a, b => match b with
      | datetime b => cmpDatetime c a b
      | _ => .error .typeError
  | none, _ => .error .typeError
  | dict _, _ => .error .typeError
  | dateLiteral _, _ => .error .typeError

/-- Sequences compare at their first difference, else by length. -/
def pyCompareItems (c : Cmp) : List Value → List Value → Except PyErr Bool
  | [], bs => .ok (c.decide (!bs.isEmpty) false)
  | a :: as, bs => match bs with
      | [] => .ok (c.decide false true)
      | b :: bs => if pyEq a b then pyCompareItems c as bs else pyCompare c a b

end

/-! ## JSON forms -/

mutual

/-- `_jsonable`: date-times become their ISO text, tuples become lists. -/
def jsonable : Value → Value
  | dateLiteral d => str d.isoformat
  | datetime d => str d.isoformat
  | dict fs => dict (jsonableFields fs)
  | list xs => list (jsonableItems xs)
  | tuple xs => list (jsonableItems xs)
  | none => none
  | bool b => bool b
  | int n => int n
  | float f => float f
  | str s => str s

def jsonableItems : List Value → List Value
  | [] => []
  | x :: xs => jsonable x :: jsonableItems xs

def jsonableFields : List (Key × Value) → List (Key × Value)
  | [] => []
  | (k, v) :: fs => (k, jsonable v) :: jsonableFields fs

end

def sameKeys (as bs : List (Key × Value)) : Bool :=
  as.length == bs.length && as.all fun f => bs.any fun g => g.1.norm == f.1.norm

mutual

/-- `_json_eq`: structural equality that tells a bool from a number. -/
def jsonEq : Value → Value → Bool
  | bool a, b => match b with
      | bool b => a == b
      | _ => false
  | dict as, b => match b with
      | dict bs => sameKeys as bs && jsonEqFields as bs
      | _ => false
  | list as, b => match b with
      | list bs => jsonEqItems as bs
      | _ => false
  | none, b => b.isNone
  | int a, b => match b with
      | bool _ => false
      | b => pyEq (int a) b
  | float a, b => match b with
      | bool _ => false
      | b => pyEq (float a) b
  | str a, b => pyEq (str a) b
  | tuple as, b => pyEq (tuple as) b
  | datetime a, b => pyEq (datetime a) b
  | dateLiteral a, b => pyEq (dateLiteral a) b

/-- Lists of one length with equal items. -/
def jsonEqItems : List Value → List Value → Bool
  | [], bs => bs.isEmpty
  | a :: as, bs => match bs with
      | [] => false
      | b :: bs => jsonEq a b && jsonEqItems as bs

def jsonEqFields : List (Key × Value) → List (Key × Value) → Bool
  | [], _ => true
  | (k, v) :: fs, bs => (match lookup k.norm bs with
      | some w => jsonEq v w
      | .none => false) && jsonEqFields fs bs

end

mutual

/-- The JSON tree `json.dumps` writes, or its `TypeError` on a value it cannot. -/
def toJson : Value → Except PyErr Json
  | none => .ok .null
  | bool b => .ok (.bool b)
  | int n => .ok (.int n)
  | float f => .ok (.float f)
  | str s => .ok (.str s)
  | list xs => Json.arr <$> toJsonItems xs
  | tuple xs => Json.arr <$> toJsonItems xs
  | dict fs => Json.obj <$> toJsonFields fs
  | datetime _ => .error .typeError
  | dateLiteral _ => .error .typeError

def toJsonItems : List Value → Except PyErr (List Json)
  | [] => .ok []
  | x :: xs => do
      let j ← toJson x
      let js ← toJsonItems xs
      .ok (j :: js)

def toJsonFields : List (Key × Value) → Except PyErr (List (String × Json))
  | [] => .ok []
  | (k, v) :: fs => do
      let j ← toJson v
      let js ← toJsonFields fs
      .ok ((k.jsonText, j) :: js)

end

mutual

/-- A value without date objects at any depth, which is what `json.dumps` can write. -/
def writable : Value → Bool
  | list xs => writableItems xs
  | tuple xs => writableItems xs
  | dict fs => writableFields fs
  | datetime _ => false
  | dateLiteral _ => false
  | _ => true

def writableItems : List Value → Bool
  | [] => true
  | x :: xs => writable x && writableItems xs

def writableFields : List (Key × Value) → Bool
  | [] => true
  | (_, v) :: fs => writable v && writableFields fs

end

mutual

theorem returns_toJson : ∀ v : Value, Fallible.Returns v.toJson ↔ v.writable = true
  | none => by simp [toJson, writable]
  | bool _ => by simp [toJson, writable]
  | int _ => by simp [toJson, writable]
  | float _ => by simp [toJson, writable]
  | str _ => by simp [toJson, writable]
  | list xs => by rw [toJson, Fallible.returns_map, returns_toJsonItems xs, writable]
  | tuple xs => by rw [toJson, Fallible.returns_map, returns_toJsonItems xs, writable]
  | dict fs => by rw [toJson, Fallible.returns_map, returns_toJsonFields fs, writable]
  | datetime _ => by simp [toJson, writable]
  | dateLiteral _ => by simp [toJson, writable]

theorem returns_toJsonItems : ∀ xs : List Value,
    Fallible.Returns (toJsonItems xs) ↔ writableItems xs = true
  | [] => by simp [toJsonItems, writableItems]
  | x :: xs => by
      rw [toJsonItems, writableItems, Bool.and_eq_true, ← returns_toJson x, ← returns_toJsonItems xs]
      exact Fallible.returns_pair

theorem returns_toJsonFields : ∀ fs : List (Key × Value),
    Fallible.Returns (toJsonFields fs) ↔ writableFields fs = true
  | [] => by simp [toJsonFields, writableFields]
  | (k, v) :: fs => by
      rw [toJsonFields, writableFields, Bool.and_eq_true, ← returns_toJson v, ← returns_toJsonFields fs]
      exact Fallible.returns_pair

end

mutual

/-- `json.loads` of a JSON tree with distinct member names. -/
def ofJson : Json → Value
  | .null => none
  | .bool b => bool b
  | .int n => int n
  | .float f => float f
  | .str s => str s
  | .arr xs => list (ofJsonItems xs)
  | .obj fs => dict (ofJsonFields fs)

def ofJsonItems : List Json → List Value
  | [] => []
  | x :: xs => ofJson x :: ofJsonItems xs

def ofJsonFields : List (String × Json) → List (Key × Value)
  | [] => []
  | (k, v) :: fs => (.str k, ofJson v) :: ofJsonFields fs

end

theorem jsonableFields_eq (fs : List (Key × Value)) :
    jsonableFields fs = fs.map fun f => (f.1, f.2.jsonable) := by
  induction fs with
  | nil => rfl
  | cons f fs ih => rw [jsonableFields, ih, List.map_cons]

/-! ## The type gate -/

/-- `_comparable`: whether a stored value and an operand are of one order family. -/
def comparable (stored operand : Value) : Bool :=
  match operand with
  | int _ => stored.isNumber
  | float _ => stored.isNumber
  | bool _ => match stored with
      | bool _ => true
      | _ => false
  | datetime _ => match stored with
      | datetime _ => true
      | _ => false
  | str _ => match stored with
      | str _ => true
      | _ => false
  | none => stored.isNone
  | list _ => match stored with
      | list _ => true
      | _ => false
  | tuple _ => match stored with
      | tuple _ => true
      | _ => false
  | dict _ => match stored with
      | dict _ => true
      | _ => false
  | dateLiteral _ => match stored with
      | dateLiteral _ => true
      | _ => false

end Value

end Khora
