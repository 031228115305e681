import Khora.Filter.Postgres
import Khora.Filter.Superset
import Khora.Lib.SortBy

/-!
# The canonical hash of a filter

`canonical_hash` writes an AST as JSON, sorted where order does not matter, and the
digest of that text keys the recall cache.  Two filters with one text must therefore
have one meaning.  Types that JSON does not have are written with in-band tags, so a
dict that spells a tag, or a key that JSON turns into a string, can forge another
operand.

* `alike_of_canonical` — untagged operands with one canonical form are compared
  alike with every value.
* `canonical_text_sound` — filters with untagged operands and one text agree on every
  record.
-/

namespace Khora

open Calendar (DateTime)
open Fallible

/-! ## The canonical form -/

mutual

/-- `_canonicalize_operand`, as the JSON tree `json.dumps` writes. -/
def canonicalizeOperand : Value → Json
  | .dateLiteral d => .obj [("$date", .str d.isoformat)]
  | .datetime d => .obj [("$dt", .str d.isoformat)]
  | .tuple xs => .arr (canonicalizeItems xs)
  | .list xs => .arr (canonicalizeItems xs)
  | .dict fs => .obj (((canonicalizeFields fs).mergeSort fun a b => decide (a.1.pyStr ≤ b.1.pyStr)).map
      fun f => (f.1.jsonText, f.2))
  | .none => .null
  | .bool b => .bool b
  | .int n => .int n
  | .float f => .float f
  | .str s => .str s

def canonicalizeItems : List Value → List Json
  | [] => []
  | x :: xs => canonicalizeOperand x :: canonicalizeItems xs

def canonicalizeFields : List (Key × Value) → List (Key × Json)
  | [] => []
  | (k, v) :: fs => (k, canonicalizeOperand v) :: canonicalizeFields fs

end

/-- `_operand_kind`. -/
def operandKind : Value → String
  | .tuple _ => "tuple"
  | .list _ => "list"
  | _ => "scalar"

def canonicalizeClause (c : FilterClause) : Json :=
  .obj [("k", .str "clause"), ("path", .arr (c.path.map .str)), ("op", .str c.op.text),
    ("operand_kind", .str (operandKind c.operand)), ("operand", canonicalizeOperand c.operand)]

/-- Siblings of a commutative node stand in the order of their own texts. -/
def sortChildren (op : Op) (children : List Json) : List Json :=
  if op = .and ∨ op = .or then
    children.mergeSort fun a b => decide (Json.dumps true a ≤ Json.dumps true b)
  else children

mutual

/-- `_canonicalize`. -/
def canonicalize : Ast → Json
  | .clause c => canonicalizeClause c
  | .node op cs => .obj [("k", .str "node"), ("op", .str op.text),
      ("children", .arr (sortChildren op (canonicalizeAll cs)))]

def canonicalizeAll : List Ast → List Json
  | [] => []
  | c :: cs => canonicalize c :: canonicalizeAll cs

end

/-- The text `canonical_hash` feeds to SHA-256. -/
def canonicalText (t : Ast) : String := Json.dumps false (canonicalize t)

theorem canonicalizeItems_eq (xs : List Value) :
    canonicalizeItems xs = xs.map canonicalizeOperand := by
  induction xs with
  | nil => rfl
  | cons x xs ih => rw [canonicalizeItems, ih, List.map_cons]

theorem canonicalizeFields_eq (fs : List (Key × Value)) :
    canonicalizeFields fs = fs.map fun f => (f.1, canonicalizeOperand f.2) := by
  induction fs with
  | nil => rfl
  | cons f fs ih => rw [canonicalizeFields, ih, List.map_cons]

theorem canonicalizeAll_eq (cs : List Ast) : canonicalizeAll cs = cs.map canonicalize := by
  induction cs with
  | nil => rfl
  | cons c cs ih => rw [canonicalizeAll, ih, List.map_cons]

theorem sortChildren_perm (op : Op) (cs : List Json) : (sortChildren op cs).Perm cs := by
  unfold sortChildren
  split
  · exact List.mergeSort_perm _ _
  · exact .refl _

/-- The order in which siblings came is not in the canonical form. -/
theorem canonicalize_of_perm {op : Op} (hop : op = .and ∨ op = .or) {cs ds : List Ast}
    (h : (cs.map canonicalize).Perm (ds.map canonicalize)) :
    canonicalize (.node op cs) = canonicalize (.node op ds) := by
  have hsort : sortChildren op (cs.map canonicalize) = sortChildren op (ds.map canonicalize) := by
    rw [sortChildren, sortChildren, if_pos hop, if_pos hop]
    exact SortBy.mergeSort_eq_of_perm (fun _ _ _ _ heq => Json.dumps_injective true heq) h
  rw [canonicalize, canonicalize, canonicalizeAll_eq, canonicalizeAll_eq, hsort]

/-- Nor is the order of a dict's fields. -/
theorem canonicalizeOperand_of_perm {fs gs : List (Key × Value)} (hkeys : (fs.map fun f => f.1.pyStr).Nodup)
    (h : fs.Perm gs) : canonicalizeOperand (.dict fs) = canonicalizeOperand (.dict gs) := by
  have hsort := @SortBy.mergeSort_eq_of_perm _ _ _ (fun f : Key × Json => f.1.pyStr)
    (canonicalizeFields fs) (canonicalizeFields gs) ?_ ?_
  · rw [canonicalizeOperand, canonicalizeOperand, hsort]
  · rw [canonicalizeFields_eq]
    have hfields : ((fs.map fun f => (f.1, canonicalizeOperand f.2)).map fun f => f.1.pyStr).Nodup := by
      simpa [Function.comp_def] using hkeys
    exact fun a ha b hb heq => List.inj_on_of_nodup_map hfields ha hb heq
  · rw [canonicalizeFields_eq, canonicalizeFields_eq]
    exact h.map _

/-- The members of a canonical dict are its fields, in some order. -/
theorem canonicalizeDict_perm (fs : List (Key × Value)) :
    ∃ js, canonicalizeOperand (.dict fs) = .obj js ∧
      js.Perm (fs.map fun f => (f.1.jsonText, canonicalizeOperand f.2)) := by
  refine ⟨_, rfl, ?_⟩
  have hsort := (List.mergeSort_perm (canonicalizeFields fs)
    fun a b => decide (a.1.pyStr ≤ b.1.pyStr)).map fun f => (f.1.jsonText, f.2)
  rw [canonicalizeFields_eq, List.map_map] at hsort
  rw [canonicalizeFields_eq]
  exact hsort

/-! ## Untagged operands -/

mutual

/-- A JSON-like operand that spells no tag: every dict has distinct string keys and is not
the one the canonical form writes for a date-time. -/
def Value.Untagged : Value → Prop
  | .dict fs => (∀ d : DateTime, fs ≠ [(.str "$dt", .str d.isoformat)]) ∧
      (fs.map fun f => f.1.norm).Nodup ∧ Value.UntaggedFields fs
  | .list xs => Value.UntaggedItems xs
  | .tuple _ => False
  | .dateLiteral _ => False
  | _ => True

def Value.UntaggedItems : List Value → Prop
  | [] => True
  | x :: xs => x.Untagged ∧ Value.UntaggedItems xs

def Value.UntaggedFields : List (Key × Value) → Prop
  | [] => True
  | (k, v) :: fs => k.isStr = true ∧ v.Untagged ∧ Value.UntaggedFields fs

end

theorem untaggedItems_iff (xs : List Value) : Value.UntaggedItems xs ↔ ∀ x ∈ xs, x.Untagged := by
  induction xs with
  | nil => simp [Value.UntaggedItems]
  | cons x xs ih => simp [Value.UntaggedItems, ih]

theorem untaggedFields_iff (fs : List (Key × Value)) :
    Value.UntaggedFields fs ↔ ∀ f ∈ fs, f.1.isStr = true ∧ f.2.Untagged := by
  induction fs with
  | nil => simp [Value.UntaggedFields]
  | cons f fs ih => simp [Value.UntaggedFields, ih, and_assoc]

/-- An operand where a `$date` literal may stand: the literal, or an untagged value that is
not the dict the canonical form writes for it. -/
def OperandSafe (v : Value) : Prop :=
  (∃ d, v = .dateLiteral d) ∨
    v.Untagged ∧ ∀ d : DateTime, v ≠ .dict [(.str "$date", .str d.isoformat)]

/-- The operand of a clause spells no tag.  An exact array holds no literals; the elements
of a membership list may be literals. -/
def HashSafe (c : FilterClause) : Prop :=
  match c.operand with
  | .tuple xs =>
      if c.op = .in_ ∨ c.op = .nin then ∀ x ∈ xs, OperandSafe x else ∀ x ∈ xs, x.Untagged
  | v => OperandSafe v

/-! ## Dicts by their keys -/

/-- The keys of the left dict are among those of the right one as soon as its fields are. -/
theorem keys_of_jsonEqFields {as bs : List (Key × Value)} (h : Value.jsonEqFields as bs = true) :
    ∀ f ∈ as, ∃ g ∈ bs, g.1.norm = f.1.norm := by
  induction as with
  | nil => simp
  | cons f as ih =>
      obtain ⟨k, v⟩ := f
      rw [Value.jsonEqFields, Bool.and_eq_true] at h
      refine List.forall_mem_cons.mpr ⟨?_, ih h.2⟩
      cases hl : Value.lookup k.norm bs with
      | none => simp [hl] at h
      | some w =>
          obtain ⟨g, hg, -⟩ := Option.map_eq_some_iff.mp hl
          exact ⟨g, List.mem_of_find?_eq_some hg, by simpa using List.find?_some hg⟩

theorem jsonEq_dict (as bs : List (Key × Value)) : (Value.dict as).jsonEq (.dict bs) =
    (as.length == bs.length && Value.jsonEqFields as bs) := by
  cases hf : Value.jsonEqFields as bs with
  | false => simp [Value.jsonEq, hf]
  | true =>
      have hkeys : (as.all fun f => bs.any fun g => g.1.norm == f.1.norm) = true := by
        simpa [List.all_eq_true, List.any_eq_true] using keys_of_jsonEqFields hf
      rw [Value.jsonEq, Value.sameKeys, hkeys, hf]
      simp

theorem find?_of_nodup {α β : Type} [DecidableEq β] {key : α → β} {l : List α}
    (hn : (l.map key).Nodup) {x : α} (hx : x ∈ l) :
    l.find? (fun y => key y == key x) = some x := by
  induction l with
  | nil => cases hx
  | cons y l ih =>
      rw [List.map_cons, List.nodup_cons] at hn
      rcases List.mem_cons.mp hx with rfl | hx
      · simp
      · have hne : key y ≠ key x := by
          intro h
          exact hn.1 (h ▸ List.mem_map_of_mem hx)
        rw [List.find?_cons_of_neg (by simpa using hne)]
        exact ih hn.2 hx

/-! ## Operands compared alike -/

/-- Two operands are compared alike with every value. -/
structure SameOperand (v w : Value) : Prop where
  jsonEq : ∀ a : Value, a.jsonEq v.jsonable = a.jsonEq w.jsonable
  pyEq : ∀ a : Value, a.pyEq v = a.pyEq w
  pyCompare : ∀ c (a : Value), a.pyCompare c v = a.pyCompare c w
  comparable : ∀ a : Value, a.comparable v = a.comparable w

theorem SameOperand.refl (v : Value) : SameOperand v v := ⟨fun _ => rfl, fun _ => rfl, fun _ _ => rfl, fun _ => rfl⟩

section Same

variable {xs ys : List Value}

theorem jsonEqItems_congr (h : List.Forall₂ SameOperand xs ys) : ∀ as,
    Value.jsonEqItems as (Value.jsonableItems xs) = Value.jsonEqItems as (Value.jsonableItems ys) := by
  induction h with
  | nil => exact fun _ => rfl
  | cons hx _ ih =>
      intro as
      cases as with
      | nil => rfl
      | cons a as => simp only [Value.jsonableItems, Value.jsonEqItems, hx.jsonEq, ih]

theorem pyEqItems_congr (h : List.Forall₂ SameOperand xs ys) : ∀ as,
    Value.pyEqItems as xs = Value.pyEqItems as ys := by
  induction h with
  | nil => exact fun _ => rfl
  | cons hx _ ih =>
      intro as
      cases as with
      | nil => rfl
      | cons a as => simp only [Value.pyEqItems, hx.pyEq, ih]

theorem pyCompareItems_congr (c : Value.Cmp) (h : List.Forall₂ SameOperand xs ys) : ∀ as,
    Value.pyCompareItems c as xs = Value.pyCompareItems c as ys := by
  induction h with
  | nil => exact fun _ => rfl
  | cons hx _ ih =>
      intro as
      cases as with
      | nil => rfl
      | cons a as => simp only [Value.pyCompareItems, hx.pyEq, hx.pyCompare, ih]

theorem sameOperand_list (h : List.Forall₂ SameOperand xs ys) : SameOperand (.list xs) (.list ys) where
  jsonEq := fun a => by
    cases a
    case list as => exact jsonEqItems_congr h as
    all_goals simp [Value.jsonable, Value.jsonEq, Value.isNone, Value.pyEq, Value.number?]
  pyEq := fun a => by
    cases a
    case list as => exact pyEqItems_congr h as
    all_goals simp [Value.pyEq, Value.isNone, Value.number?]
  pyCompare := fun c a => by
    cases a
    case list as => exact pyCompareItems_congr c h as
    all_goals simp [Value.pyCompare, Value.number?]
  comparable := fun _ => rfl

/-- Two dicts with alike values under the same keys. -/
structure SameFields (fs gs : List (Key × Value)) : Prop where
  length : fs.length = gs.length
  lookup : ∀ k, Option.Rel SameOperand (Value.lookup k fs) (Value.lookup k gs)

variable {fs gs : List (Key × Value)}

theorem lookup_jsonable (k : NormKey) (fs : List (Key × Value)) :
    Value.lookup k (Value.jsonableFields fs) = (Value.lookup k fs).map Value.jsonable := by
  rw [Value.jsonableFields_eq]
  simp only [Value.lookup, List.find?_map, Option.map_map]
  rfl

theorem jsonEqFields_congr (h : SameFields fs gs) (as : List (Key × Value)) :
    Value.jsonEqFields as (Value.jsonableFields fs) = Value.jsonEqFields as (Value.jsonableFields gs) := by
  induction as with
  | nil => rfl
  | cons f as ih =>
      obtain ⟨k, v⟩ := f
      rw [Value.jsonEqFields, Value.jsonEqFields, ih, lookup_jsonable, lookup_jsonable]
      have hl := h.lookup k.norm
      generalize Value.lookup k.norm fs = x at hl
      generalize Value.lookup k.norm gs = y at hl
      cases hl with
      | none => rfl
      | some hs =>
          show (v.jsonEq (Value.jsonable _) && _) = (v.jsonEq (Value.jsonable _) && _)
          rw [hs.jsonEq]

theorem pyEqFields_congr (h : SameFields fs gs) (as : List (Key × Value)) :
    Value.pyEqFields as fs = Value.pyEqFields as gs := by
  induction as with
  | nil => rfl
  | cons f as ih =>
      obtain ⟨k, v⟩ := f
      rw [Value.pyEqFields, Value.pyEqFields, ih]
      have hl := h.lookup k.norm
      generalize Value.lookup k.norm fs = x at hl
      generalize Value.lookup k.norm gs = y at hl
      cases hl with
      | none => rfl
      | some hs =>
          show (v.pyEq _ && _) = (v.pyEq _ && _)
          rw [hs.pyEq]

theorem sameOperand_dict (h : SameFields fs gs) : SameOperand (.dict fs) (.dict gs) where
  jsonEq := fun a => by
    cases a
    case dict as =>
        have hlen : ∀ l : List (Key × Value), (Value.jsonableFields l).length = l.length := by
          intro l
          rw [Value.jsonableFields_eq, List.length_map]
        rw [Value.jsonable, Value.jsonable, jsonEq_dict, jsonEq_dict, jsonEqFields_congr h, hlen, hlen,
          h.length]
    all_goals simp [Value.jsonable, Value.jsonEq, Value.isNone, Value.pyEq, Value.number?]
  pyEq := fun a => by
    cases a
    case dict as => simp only [Value.pyEq, h.length, pyEqFields_congr h]
    all_goals simp [Value.pyEq, Value.isNone, Value.number?]
  pyCompare := fun c a => by
    cases a <;> simp [Value.pyCompare, Value.number?]
  comparable := fun _ => rfl

/-- What two operands with one canonical form can be. -/
inductive Alike : Value → Value → Prop where
  | refl (v : Value) : Alike v v
  | list (xs ys : List Value) (h : List.Forall₂ SameOperand xs ys) : Alike (.list xs) (.list ys)
  | dict (fs gs : List (Key × Value)) (h : SameFields fs gs) : Alike (.dict fs) (.dict gs)

theorem Alike.same {v w : Value} (h : Alike v w) : SameOperand v w := by
  cases h with
  | refl v => exact .refl v
  | list xs ys h => exact sameOperand_list h
  | dict fs gs h => exact sameOperand_dict h

end Same

section Canonical

theorem key_eq_of_jsonText {k l : Key} (hk : k.isStr = true) (hl : l.isStr = true)
    (h : k.jsonText = l.jsonText) : k = l := by
  cases k <;> cases l <;> simp_all [Key.isStr, Key.jsonText]

theorem eq_str_of_canonical {v : Value} {s : String} (h : canonicalizeOperand v = .str s) :
    v = .str s := by
  cases v <;> simp_all [canonicalizeOperand]

theorem lookup_of_mem {fs : List (Key × Value)} (hn : (fs.map fun f => f.1.norm).Nodup)
    {f : Key × Value} (hf : f ∈ fs) : Value.lookup f.1.norm fs = some f.2 := by
  have hfind := find?_of_nodup hn hf
  rw [Value.lookup, hfind]
  rfl

theorem exists_of_lookup {fs : List (Key × Value)} {k : NormKey} {v : Value}
    (h : Value.lookup k fs = some v) : ∃ f ∈ fs, f.1.norm = k ∧ f.2 = v := by
  obtain ⟨f, hf, rfl⟩ := Option.map_eq_some_iff.mp h
  exact ⟨f, List.mem_of_find?_eq_some hf, by simpa using List.find?_some hf, rfl⟩

/-- A dict whose canonical form is a tagged text spells the tag. -/
theorem eq_tag_of_canonical {fs : List (Key × Value)} {tag text : String}
    (hk : ∀ f ∈ fs, f.1.isStr = true)
    (h : canonicalizeOperand (.dict fs) = .obj [(tag, .str text)]) : fs = [(.str tag, .str text)] := by
  obtain ⟨js, hjs, hperm⟩ := canonicalizeDict_perm fs
  obtain rfl : js = [(tag, .str text)] := by
    rw [hjs] at h
    exact Json.obj.inj h
  have hmap := List.perm_singleton.mp hperm.symm
  obtain ⟨f, rfl, hf⟩ := List.map_eq_singleton_iff.mp hmap
  rw [Prod.mk.injEq] at hf
  have hkey : f.1 = .str tag := key_eq_of_jsonText (hk f (by simp)) rfl hf.1
  rw [← hkey, ← eq_str_of_canonical hf.2]

/-- Untagged dicts with one canonical form have alike values under the same keys. -/
theorem sameFields_of_canonical {fs gs : List (Key × Value)}
    (hfk : ∀ f ∈ fs, f.1.isStr = true) (hgk : ∀ g ∈ gs, g.1.isStr = true)
    (hfn : (fs.map fun f => f.1.norm).Nodup) (hgn : (gs.map fun g => g.1.norm).Nodup)
    (ih : ∀ f ∈ fs, ∀ g ∈ gs, canonicalizeOperand f.2 = canonicalizeOperand g.2 → SameOperand f.2 g.2)
    (h : canonicalizeOperand (.dict fs) = canonicalizeOperand (.dict gs)) : SameFields fs gs := by
  obtain ⟨js, hjs, hfp⟩ := canonicalizeDict_perm fs
  obtain ⟨js', hjs', hgp⟩ := canonicalizeDict_perm gs
  obtain rfl : js = js' := Json.obj.inj (hjs.symm.trans (h.trans hjs'))
  have hperm := hfp.symm.trans hgp
  -- a field on either side has its counterpart on the other
  have hright : ∀ f ∈ fs, ∃ g ∈ gs, g.1 = f.1 ∧ canonicalizeOperand f.2 = canonicalizeOperand g.2 := by
    intro f hf
    obtain ⟨g, hg, heq⟩ := List.mem_map.mp (hperm.mem_iff.mp (List.mem_map_of_mem hf))
    rw [Prod.mk.injEq] at heq
    exact ⟨g, hg, key_eq_of_jsonText (hgk g hg) (hfk f hf) heq.1, heq.2.symm⟩
  have hleft : ∀ g ∈ gs, ∃ f ∈ fs, f.1 = g.1 := by
    intro g hg
    obtain ⟨f, hf, heq⟩ := List.mem_map.mp (hperm.mem_iff.mpr (List.mem_map_of_mem hg))
    rw [Prod.mk.injEq] at heq
    exact ⟨f, hf, key_eq_of_jsonText (hfk f hf) (hgk g hg) heq.1⟩
  refine ⟨by simpa using hperm.length_eq, fun k => ?_⟩
  cases hf : Value.lookup k fs with
  | some v =>
      obtain ⟨f, hfm, rfl, rfl⟩ := exists_of_lookup hf
      obtain ⟨g, hgm, hkey, hcan⟩ := hright f hfm
      rw [← hkey, lookup_of_mem hgn hgm]
      exact .some (ih f hfm g hgm hcan)
  | none =>
      cases hg : Value.lookup k gs with
      | none => exact .none
      | some w =>
          obtain ⟨g, hgm, rfl, rfl⟩ := exists_of_lookup hg
          obtain ⟨f, hfm, hkey⟩ := hleft g hgm
          rw [← hkey, lookup_of_mem hfn hfm] at hf
          cases hf

/-- **Untagged operands with one canonical form are alike.** -/
theorem alike_of_canonical (v : Value) : ∀ w : Value, v.Untagged → w.Untagged →
    canonicalizeOperand v = canonicalizeOperand w → Alike v w := by
  induction v using Value.induct with
  | tuple xs ih => exact fun w hv => hv.elim
  | dateLiteral d => exact fun w hv => hv.elim
  | list xs ih =>
      intro w hv hw h
      cases w
      case list ys =>
          simp only [canonicalizeOperand, Json.arr.injEq, canonicalizeItems_eq] at h
          rw [Value.Untagged, untaggedItems_iff] at hv hw
          refine .list xs ys (List.forall₂_iff_get.mpr ⟨by simpa using congrArg List.length h, ?_⟩)
          intro i hx hy
          have hget : canonicalizeOperand xs[i] = canonicalizeOperand ys[i] := by
            have := congrArg (fun l => l[i]?) h
            simpa [List.getElem?_map, hx, hy] using this
          exact (ih _ (List.getElem_mem hx) _ (hv _ (List.getElem_mem hx)) (hw _ (List.getElem_mem hy))
            hget).same
      case tuple ys => exact hw.elim
      all_goals simp [canonicalizeOperand] at h
  | dict fs ih =>
      intro w hv hw h
      obtain ⟨hvtag, hvn, hvf⟩ := hv
      rw [untaggedFields_iff] at hvf
      cases w
      case dict gs =>
          obtain ⟨-, hwn, hwf⟩ := hw
          rw [untaggedFields_iff] at hwf
          refine .dict fs gs (sameFields_of_canonical (fun f hf => (hvf f hf).1) (fun g hg => (hwf g hg).1)
            hvn hwn (fun f hf g hg hcan => ?_) h)
          exact (ih f hf g.2 (hvf f hf).2 (hwf g hg).2 hcan).same
      case datetime d => exact absurd (eq_tag_of_canonical (fun f hf => (hvf f hf).1) h) (hvtag d)
      case dateLiteral d => exact hw.elim
      all_goals simp [canonicalizeOperand] at h
  | datetime d =>
      intro w _ hw h
      cases w
      case dict gs =>
          obtain ⟨hwtag, -, hwf⟩ := hw
          rw [untaggedFields_iff] at hwf
          exact absurd (eq_tag_of_canonical (fun g hg => (hwf g hg).1) h.symm) (hwtag d)
      case datetime d' =>
          simp only [canonicalizeOperand, Json.obj.injEq, List.cons.injEq, Prod.mk.injEq, Json.str.injEq,
            true_and, and_true] at h
          rw [Calendar.DateTime.isoformat_injective h]
          exact .refl _
      case dateLiteral d' => exact hw.elim
      all_goals simp [canonicalizeOperand] at h
  | none => intro w _ _ h; cases w <;> simp_all [canonicalizeOperand, Alike.refl]
  | bool b => intro w _ _ h; cases w <;> simp_all [canonicalizeOperand, Alike.refl]
  | int n => intro w _ _ h; cases w <;> simp_all [canonicalizeOperand, Alike.refl]
  | float f => intro w _ _ h; cases w <;> simp_all [canonicalizeOperand, Alike.refl]
  | str s => intro w _ _ h; cases w <;> simp_all [canonicalizeOperand, Alike.refl]

/-- Safe operands with one canonical form are alike. -/
theorem alike_of_safe {v w : Value} (hv : OperandSafe v) (hw : OperandSafe w)
    (h : canonicalizeOperand v = canonicalizeOperand w) : Alike v w := by
  have hliteral : ∀ (d : DateTime) (w : Value), w.Untagged →
      (∀ d : DateTime, w ≠ .dict [(.str "$date", .str d.isoformat)]) →
      canonicalizeOperand w ≠ .obj [("$date", .str d.isoformat)] := by
    intro d w hw hdate hcan
    cases w
    case dict gs =>
        obtain ⟨-, -, hwf⟩ := hw
        rw [untaggedFields_iff] at hwf
        exact hdate d (congrArg Value.dict (eq_tag_of_canonical (fun g hg => (hwf g hg).1) hcan))
    case dateLiteral d' => exact hw.elim
    all_goals simp [canonicalizeOperand] at hcan
  rcases hv with ⟨d, rfl⟩ | ⟨hv, hvd⟩
  · rcases hw with ⟨d', rfl⟩ | ⟨hw, hwd⟩
    · simp only [canonicalizeOperand, Json.obj.injEq, List.cons.injEq, Prod.mk.injEq, Json.str.injEq,
        true_and, and_true] at h
      rw [Calendar.DateTime.isoformat_injective h]
      exact .refl _
    · exact absurd h.symm (hliteral d w hw hwd)
  · rcases hw with ⟨d', rfl⟩ | ⟨hw, -⟩
    · exact absurd h (hliteral d' v hv hvd)
    · exact alike_of_canonical v w hv hw h

end Canonical

/-! ## Clauses -/

section Clause

variable {ctx : CompileContext} {r : Record} {v w : Value}

/-- Containers compared alike: neither is a date, and they are of one kind. -/
structure SameContainer (v w : Value) : Prop extends SameOperand v w where
  undated : (∀ d, v ≠ .datetime d ∧ v ≠ .dateLiteral d) ∧ ∀ d, w ≠ .datetime d ∧ w ≠ .dateLiteral d
  notNone : v.isNone = false ∧ w.isNone = false
  isTuple : v.isTuple = w.isTuple
  truthy : v.truthy = w.truthy

theorem systemValue_eq_self (h : ∀ d, v ≠ .datetime d ∧ v ≠ .dateLiteral d) : systemValue v = v := by
  cases v
  case dateLiteral d => exact absurd rfl (h d).2
  all_goals rfl

theorem alignDt_undated (stored : Value) (h : ∀ d, v ≠ .datetime d ∧ v ≠ .dateLiteral d) :
    alignDt stored v = .ok (stored, v) := by
  rcases alignDt_cases stored v with ⟨s, d, -, rfl⟩ | ⟨-, heq⟩
  · exact absurd rfl (h d).1
  · exact heq

/-- A system comparison does not tell the two apart. -/
theorem system_congr (h : SameContainer v w) (stored : Value) :
    systemEq stored (systemValue v) = systemEq stored (systemValue w) ∧
      systemNe stored (systemValue v) = systemNe stored (systemValue w) ∧
      ∀ c, systemRange c stored (systemValue v) = systemRange c stored (systemValue w) := by
  have heq : eqAligned stored v = eqAligned stored w := by
    rw [eqAligned, eqAligned, alignDt_undated stored h.undated.1, alignDt_undated stored h.undated.2]
    show Except.ok (stored.pyEq v) = .ok (stored.pyEq w)
    rw [h.pyEq]
  rw [systemValue_eq_self h.undated.1, systemValue_eq_self h.undated.2]
  refine ⟨?_, ?_, fun c => ?_⟩
  · rw [systemEq, systemEq, h.comparable, heq]
  · rw [systemNe, systemNe, h.comparable, heq]
  · rw [systemRange, systemRange, h.comparable, alignDt_undated stored h.undated.1,
      alignDt_undated stored h.undated.2]
    show (if _ then _ else if _ then _ else stored.pyCompare c v) = _
    rw [h.pyCompare]
    rfl

theorem systemMember_congr (h : Alike v w) (stored : Value) :
    systemMember stored (systemValue v) = systemMember stored (systemValue w) := by
  have hundated : (∀ d, v ≠ .datetime d ∧ v ≠ .dateLiteral d) →
      (∀ d, w ≠ .datetime d ∧ w ≠ .dateLiteral d) →
      systemMember stored (systemValue v) = systemMember stored (systemValue w) := by
    intro hv hw
    rw [systemValue_eq_self hv, systemValue_eq_self hw, systemMember, systemMember, h.same.comparable,
      eqAligned, eqAligned, alignDt_undated stored hv, alignDt_undated stored hw]
    show (if _ then Except.ok (stored.pyEq v) else _) = if _ then Except.ok (stored.pyEq w) else _
    rw [h.same.pyEq]
  cases h with
  | refl v => rfl
  | list xs ys _ => exact hundated (by simp) (by simp)
  | dict fs gs _ => exact hundated (by simp) (by simp)

theorem mdContains_congr (h : SameOperand v w) (node : Option Value) :
    mdContains node v = mdContains node w := by
  unfold mdContains
  cases node with
  | none => rfl
  | some n => cases n <;> simp only [h.jsonEq]

/-- A clause means the same with either operand when each of its readings does. -/
theorem clauseValue_congr {path : List String} {op : Op}
    (hsystem : ∀ key, (compileSystemClause ctx key op v >>= fun q => q r) =
      (compileSystemClause ctx key op w >>= fun q => q r))
    (hpath : ∀ segs, (compileMetadataPath segs op v >>= fun q => q r) =
      (compileMetadataPath segs op w >>= fun q => q r))
    (hblob : ∀ a : Value, a.jsonEq v.jsonable = a.jsonEq w.jsonable) :
    clauseValue ctx r ⟨path, op, v⟩ = clauseValue ctx r ⟨path, op, w⟩ := by
  have hs : (⟨path, op, v⟩ : FilterClause).systemKey? = (⟨path, op, w⟩ : FilterClause).systemKey? := rfl
  have hm : (⟨path, op, v⟩ : FilterClause).metadataPath? = (⟨path, op, w⟩ : FilterClause).metadataPath? :=
    rfl
  unfold clauseValue compilePythonClause
  rw [hs, hm]
  cases (⟨path, op, w⟩ : FilterClause).systemKey? with
  | some key => exact hsystem key
  | none =>
      cases (⟨path, op, w⟩ : FilterClause).metadataPath? with
      | none => rfl
      | some segs =>
          cases segs with
          | cons seg segs => exact hpath (seg :: segs)
          | nil =>
              by_cases heq : op = .eq
              · simp only [compileMetadataClause, heq, if_true]
                show Except.ok _ = Except.ok _
                rw [hblob]
              · simp only [compileMetadataClause, heq, if_false]
                rfl

/-- The clauses of containers compared alike, membership apart. -/
theorem clauseValue_container (h : SameContainer v w) {path : List String} {op : Op}
    (hin : op ≠ .in_ ∧ op ≠ .nin)
    (heqFn : ∀ segs, mdEqFn segs v r = mdEqFn segs w r) :
    clauseValue ctx r ⟨path, op, v⟩ = clauseValue ctx r ⟨path, op, w⟩ := by
  have hrangeFn : ∀ segs c, mdRangeFn segs c v r = mdRangeFn segs c w r := by
    intro segs c
    have hplain : ∀ u : Value, (∀ d, u ≠ .datetime d ∧ u ≠ .dateLiteral d) →
        mdRangeFn segs c u r = mdRangeCompare c (mdExtract segs r) u := by
      intro u hu
      cases u
      case dateLiteral d => exact absurd rfl (hu d).2
      all_goals rfl
    rw [hplain v h.undated.1, hplain w h.undated.2]
    unfold mdRangeCompare
    simp only [h.comparable, h.pyCompare]
  have hcompare := fun key => system_congr h (resolveSystem ctx r key)
  refine clauseValue_congr (fun key => ?_) (fun segs => ?_) h.jsonEq
  · obtain ⟨heq, hne, hrange⟩ := hcompare key
    cases op
    case in_ => exact absurd rfl hin.1
    case nin => exact absurd rfl hin.2
    all_goals
      cases ht : w.isTuple <;>
        simp [compileSystemClause, h.truthy, h.isTuple, ht, h.notNone.1, h.notNone.2, rangeOp?, bind,
          Except.bind, heq, hne, hrange]
  · cases op
    case in_ => exact absurd rfl hin.1
    case nin => exact absurd rfl hin.2
    all_goals simp [compileMetadataPath, h.truthy, h.notNone.1, h.notNone.2, rangeOp?, bind, Except.bind,
      heqFn, hrangeFn]

/-- Clauses of alike operands mean the same, membership apart. -/
theorem clauseValue_alike (h : Alike v w) {path : List String} {op : Op} (hin : op ≠ .in_ ∧ op ≠ .nin) :
    clauseValue ctx r ⟨path, op, v⟩ = clauseValue ctx r ⟨path, op, w⟩ := by
  cases h with
  | refl v => rfl
  | list xs ys hxy =>
      have hsame : SameContainer (.list xs) (.list ys) :=
        { sameOperand_list hxy with
          undated := ⟨by simp, by simp⟩
          notNone := ⟨rfl, rfl⟩
          isTuple := rfl
          truthy := by cases hxy <;> rfl }
      refine clauseValue_container hsame hin fun segs => ?_
      show Except.ok (mdContains _ _) = Except.ok (mdContains _ _)
      rw [mdContains_congr hsame.toSameOperand]
  | dict fs gs hfg =>
      have hsame : SameContainer (.dict fs) (.dict gs) :=
        { sameOperand_dict hfg with
          undated := ⟨by simp, by simp⟩
          notNone := ⟨rfl, rfl⟩
          isTuple := rfl
          truthy := by
            have hlen := hfg.length
            cases fs <;> cases gs <;> first | rfl | simp at hlen }
      refine clauseValue_container hsame hin fun segs => ?_
      show Except.ok (mdObjectEq _ _) = Except.ok (mdObjectEq _ _)
      unfold mdObjectEq
      cases mdExtract segs r with
      | none => rfl
      | some n => cases n <;> simp only [hsame.jsonEq]

theorem sameOperand_tuple {xs ys : List Value} (h : List.Forall₂ SameOperand xs ys) :
    SameOperand (.tuple xs) (.tuple ys) where
  jsonEq := (sameOperand_list h).jsonEq
  pyEq := fun a => by
    cases a
    case tuple as => exact pyEqItems_congr h as
    all_goals simp [Value.pyEq, Value.isNone, Value.number?]
  pyCompare := fun c a => by
    cases a
    case tuple as => exact pyCompareItems_congr c h as
    all_goals simp [Value.pyCompare, Value.number?]
  comparable := fun _ => rfl

theorem anyM_members_congr {xs ys : List Value} (h : List.Forall₂ Alike xs ys) (stored : Value) :
    (xs.map systemValue).anyM (systemMember stored) = (ys.map systemValue).anyM (systemMember stored) := by
  induction h with
  | nil => rfl
  | cons hx _ ih => rw [List.map_cons, List.map_cons, List.anyM, List.anyM, systemMember_congr hx, ih]

theorem any_mdContains_congr {xs ys : List Value} (h : List.Forall₂ Alike xs ys) (node : Option Value) :
    xs.any (mdContains node) = ys.any (mdContains node) := by
  induction h with
  | nil => rfl
  | cons hx _ ih => rw [List.any_cons, List.any_cons, mdContains_congr hx.same, ih]

/-- Clauses of tuples with alike items mean the same. -/
theorem clauseValue_tuple {xs ys : List Value} (h : List.Forall₂ Alike xs ys) {path : List String}
    {op : Op} : clauseValue ctx r ⟨path, op, .tuple xs⟩ = clauseValue ctx r ⟨path, op, .tuple ys⟩ := by
  have hsame : List.Forall₂ SameOperand xs ys := h.imp fun _ _ => Alike.same
  have htruthy : (Value.tuple xs).truthy = (Value.tuple ys).truthy := by cases h <;> rfl
  have hcontainer : SameContainer (.tuple xs) (.tuple ys) :=
    { sameOperand_tuple hsame with
      undated := ⟨by simp, by simp⟩
      notNone := ⟨rfl, rfl⟩
      isTuple := rfl
      truthy := htruthy }
  by_cases hin : op = .in_ ∨ op = .nin
  · refine clauseValue_congr (fun key => ?_) (fun segs => ?_) hcontainer.jsonEq
    · have hany := anyM_members_congr h (resolveSystem ctx r key)
      rcases hin with rfl | rfl
      · show systemIn _ (xs.map systemValue) = systemIn _ (ys.map systemValue)
        rw [systemIn, systemIn, hany]
      · show systemNin _ (xs.map systemValue) = systemNin _ (ys.map systemValue)
        rw [systemNin, systemNin, hany]
    · have hany := any_mdContains_congr h (mdExtract segs r)
      rcases hin with rfl | rfl <;> cases ht : (Value.tuple ys).truthy <;>
        simp [compileMetadataPath, htruthy, ht, pyIter, bind, Except.bind, hany]
  · rw [not_or] at hin
    refine clauseValue_container hcontainer hin fun segs => ?_
    show Except.ok (exactArrayEq _ _) = Except.ok (exactArrayEq _ _)
    unfold exactArrayEq
    cases mdExtract segs r with
    | none => rfl
    | some n => cases n <;> simp only [Value.jsonEq, jsonEqItems_congr hsame]

theorem text_injective {a b : Op} (h : a.text = b.text) : a = b := by
  have hab := congrArg Op.ofText? h
  rw [Op.ofText?_text, Op.ofText?_text] at hab
  exact Option.some.inj hab

theorem forall₂_alike_of_canonical {xs ys : List Value}
    (hrel : ∀ x ∈ xs, ∀ y ∈ ys, canonicalizeOperand x = canonicalizeOperand y → Alike x y)
    (h : xs.map canonicalizeOperand = ys.map canonicalizeOperand) : List.Forall₂ Alike xs ys := by
  induction xs generalizing ys with
  | nil =>
      cases ys with
      | nil => exact .nil
      | cons y ys => simp at h
  | cons x xs ih =>
      cases ys with
      | nil => simp at h
      | cons y ys =>
          rw [List.map_cons, List.map_cons, List.cons.injEq] at h
          exact .cons (hrel x (by simp) y (by simp) h.1)
            (ih (fun a ha b hb => hrel a (by simp [ha]) b (by simp [hb])) h.2)

/-- **Safe clauses with one canonical form have one value on every record.** -/
theorem clauseValue_of_canonical {c c' : FilterClause} (hshape : OpShape c) (hc : HashSafe c)
    (hc' : HashSafe c') (h : canonicalizeClause c = canonicalizeClause c') :
    clauseValue ctx r c = clauseValue ctx r c' := by
  obtain ⟨path, op, v⟩ := c
  obtain ⟨path', op', w⟩ := c'
  simp only [canonicalizeClause, Json.obj.injEq, List.cons.injEq, Prod.mk.injEq, Json.arr.injEq,
    Json.str.injEq, true_and, and_true] at h
  obtain ⟨hpath, hop, hkind, hoperand⟩ := h
  obtain rfl : path = path' := List.map_injective_iff.mpr (fun a b => Json.str.inj) hpath
  obtain rfl := text_injective hop
  by_cases htuple : ∃ xs, v = .tuple xs
  · obtain ⟨xs, rfl⟩ := htuple
    obtain ⟨ys, rfl⟩ : ∃ ys, w = .tuple ys := by
      cases w <;> simp [operandKind] at hkind ⊢
    simp only [canonicalizeOperand, Json.arr.injEq, canonicalizeItems_eq] at hoperand
    refine clauseValue_tuple (forall₂_alike_of_canonical (fun x hx y hy hxy => ?_) hoperand)
    simp only [HashSafe] at hc hc'
    split at hc
    · rename_i hin
      rw [if_pos hin] at hc'
      exact alike_of_safe (hc x hx) (hc' y hy) hxy
    · rename_i hin
      rw [if_neg hin] at hc'
      exact alike_of_canonical x y (hc x hx) (hc' y hy) hxy
  · rw [not_exists] at htuple
    have hv : OperandSafe v := by
      cases v
      case tuple xs => exact absurd rfl (htuple xs)
      all_goals exact hc
    have hw : OperandSafe w := by
      cases w
      case tuple ys =>
          cases v <;> simp [operandKind] at hkind
          exact absurd rfl (htuple _)
      all_goals exact hc'
    refine clauseValue_alike (alike_of_safe hv hw hoperand) ⟨?_, ?_⟩
    · rintro rfl
      obtain ⟨xs, hxs⟩ := hshape.tuple (.inl rfl)
      exact htuple xs hxs
    · rintro rfl
      obtain ⟨xs, hxs⟩ := hshape.tuple (.inr rfl)
      exact htuple xs hxs

end Clause

/-! ## Trees -/

section Tree

/-- Two results that both return are equal. -/
def Compatible (x y : Except PyErr Bool) : Prop := ∀ b b', x = .ok b → y = .ok b' → b = b'

theorem Compatible.not {x y : Except PyErr Bool} (h : Compatible x y) : Compatible (notE x) (notE y) := by
  intro b b' hx hy
  have := h _ _ (notE_eq_ok.mp hx) (notE_eq_ok.mp hy)
  simpa using this

section Members

variable {α : Type} {f : α → Except PyErr Bool} {cs ds : List α}

/-- A conjunction of the same members in another order. -/
theorem compatible_allM (hcd : ∀ c ∈ cs, ∃ d ∈ ds, Compatible (f c) (f d))
    (hdc : ∀ d ∈ ds, ∃ c ∈ cs, Compatible (f c) (f d)) : Compatible (cs.allM f) (ds.allM f) := by
  intro b b' hc hd
  cases b with
  | true =>
      cases b' with
      | true => rfl
      | false =>
          obtain ⟨d, hdm, hfd⟩ := exists_of_allM_eq_ok_false hd
          obtain ⟨c, hcm, hcomp⟩ := hdc d hdm
          exact hcomp _ _ (allM_eq_ok_true.mp hc c hcm) hfd
  | false =>
      cases b' with
      | false => rfl
      | true =>
          obtain ⟨c, hcm, hfc⟩ := exists_of_allM_eq_ok_false hc
          obtain ⟨d, hdm, hcomp⟩ := hcd c hcm
          exact hcomp _ _ hfc (allM_eq_ok_true.mp hd d hdm)

theorem compatible_anyM (hcd : ∀ c ∈ cs, ∃ d ∈ ds, Compatible (f c) (f d))
    (hdc : ∀ d ∈ ds, ∃ c ∈ cs, Compatible (f c) (f d)) : Compatible (cs.anyM f) (ds.anyM f) := by
  intro b b' hc hd
  cases b with
  | false =>
      cases b' with
      | false => rfl
      | true =>
          obtain ⟨d, hdm, hfd⟩ := exists_of_anyM_eq_ok_true hd
          obtain ⟨c, hcm, hcomp⟩ := hdc d hdm
          exact hcomp _ _ (anyM_eq_ok_false.mp hc c hcm) hfd
  | true =>
      cases b' with
      | true => rfl
      | false =>
          obtain ⟨c, hcm, hfc⟩ := exists_of_anyM_eq_ok_true hc
          obtain ⟨d, hdm, hcomp⟩ := hcd c hcm
          exact hcomp _ _ hfc (anyM_eq_ok_false.mp hd d hdm)

end Members

variable {ctx : CompileContext} {r : Record}

theorem canonicalize_node (op : Op) (cs : List Ast) : canonicalize (.node op cs) =
    .obj [("k", .str "node"), ("op", .str op.text),
      ("children", .arr (sortChildren op (cs.map canonicalize)))] := by
  rw [canonicalize, canonicalizeAll_eq]

/-- A tree with the canonical form of a node is a node of the same operator, with the same
children in some order. -/
theorem exists_of_canonicalize_node {op : Op} {cs : List Ast} {u : Ast}
    (h : canonicalize (.node op cs) = canonicalize u) : ∃ ds, u = .node op ds ∧
      (cs.map canonicalize).Perm (ds.map canonicalize) := by
  rw [canonicalize_node] at h
  cases u with
  | clause c => simp [canonicalize, canonicalizeClause] at h
  | node op' ds =>
      rw [canonicalize_node] at h
      simp only [Json.obj.injEq, List.cons.injEq, Prod.mk.injEq, Json.arr.injEq, Json.str.injEq, true_and,
        and_true] at h
      obtain ⟨hop, hcs⟩ := h
      obtain rfl := text_injective hop
      refine ⟨ds, rfl, ?_⟩
      exact ((sortChildren_perm op _).symm.trans (List.Perm.of_eq hcs)).trans (sortChildren_perm op _)

/-- Children with one canonical form each, in both directions. -/
theorem members_of_perm {cs ds : List Ast} (h : (cs.map canonicalize).Perm (ds.map canonicalize)) :
    (∀ c ∈ cs, ∃ d ∈ ds, canonicalize c = canonicalize d) ∧
      ∀ d ∈ ds, ∃ c ∈ cs, canonicalize c = canonicalize d := by
  refine ⟨fun c hc => ?_, fun d hd => ?_⟩
  · obtain ⟨d, hd, heq⟩ := List.mem_map.mp (h.mem_iff.mp (List.mem_map_of_mem hc))
    exact ⟨d, hd, heq.symm⟩
  · exact List.mem_map.mp (h.mem_iff.mpr (List.mem_map_of_mem hd))

/-- **Trees with one canonical form agree wherever both return.** -/
theorem compatible_of_canonical {t : Ast} (hw : t.wellFormed = true) :
    ∀ u : Ast, u.wellFormed = true → (∀ c ∈ t.leaves, OpShape c ∧ HashSafe c) →
      (∀ c ∈ u.leaves, HashSafe c) → canonicalize t = canonicalize u →
      Compatible (t.evalE (clauseValue ctx r)) (u.evalE (clauseValue ctx r)) := by
  have hmembers : ∀ {cs ds : List Ast}, (∀ c ∈ cs, ∀ u : Ast, u.wellFormed = true →
        (∀ l ∈ c.leaves, OpShape l ∧ HashSafe l) → (∀ l ∈ u.leaves, HashSafe l) →
        canonicalize c = canonicalize u →
        Compatible (c.evalE (clauseValue ctx r)) (u.evalE (clauseValue ctx r))) →
      (∀ d ∈ ds, d.wellFormed = true) → (∀ l ∈ cs.flatMap Ast.leaves, OpShape l ∧ HashSafe l) →
      (∀ l ∈ ds.flatMap Ast.leaves, HashSafe l) → (cs.map canonicalize).Perm (ds.map canonicalize) →
      (∀ c ∈ cs, ∃ d ∈ ds, Compatible (c.evalE (clauseValue ctx r)) (d.evalE (clauseValue ctx r))) ∧
        ∀ d ∈ ds, ∃ c ∈ cs, Compatible (c.evalE (clauseValue ctx r)) (d.evalE (clauseValue ctx r)) := by
    intro cs ds ih hwd hcs hds hperm
    have hstep : ∀ c ∈ cs, ∀ d ∈ ds, canonicalize c = canonicalize d →
        Compatible (c.evalE (clauseValue ctx r)) (d.evalE (clauseValue ctx r)) := fun c hc d hd =>
      ih c hc d (hwd d hd) (fun l hl => hcs l (List.mem_flatMap.mpr ⟨c, hc, hl⟩))
        fun l hl => hds l (List.mem_flatMap.mpr ⟨d, hd, hl⟩)
    obtain ⟨hcd, hdc⟩ := members_of_perm hperm
    refine ⟨fun c hc => ?_, fun d hd => ?_⟩
    · obtain ⟨d, hd, heq⟩ := hcd c hc
      exact ⟨d, hd, hstep c hc d hd heq⟩
    · obtain ⟨c, hc, heq⟩ := hdc d hd
      exact ⟨c, hc, hstep c hc d hd heq⟩
  refine Ast.induct_wellFormed (fun c u hwu ht hu h => ?_) (fun cs _ ih u hwu ht hu h => ?_)
    (fun cs _ ih u hwu ht hu h => ?_) (fun c _ ih u hwu ht hu h => ?_) t hw
  · cases u with
    | node op ds => simp [canonicalize, canonicalizeClause] at h
    | clause c' =>
        obtain ⟨hshape, hsafe⟩ := ht c (by simp)
        have heq := @clauseValue_of_canonical ctx r c c' hshape hsafe (hu c' (by simp)) h
        intro b b' hb hb'
        have hb : clauseValue ctx r c = .ok b := hb
        have hb' : clauseValue ctx r c' = .ok b' := hb'
        rw [heq, hb'] at hb
        exact (Except.ok.inj hb).symm
  · obtain ⟨ds, rfl, hperm⟩ := exists_of_canonicalize_node h
    rw [Ast.leaves_node] at ht hu
    obtain ⟨hcd, hdc⟩ := hmembers ih (Ast.wellFormed_and.mp hwu) ht hu hperm
    rw [Ast.evalE_and, Ast.evalE_and]
    exact compatible_allM hcd hdc
  · obtain ⟨ds, rfl, hperm⟩ := exists_of_canonicalize_node h
    rw [Ast.leaves_node] at ht hu
    obtain ⟨hcd, hdc⟩ := hmembers ih (Ast.wellFormed_or.mp hwu) ht hu hperm
    rw [Ast.evalE_or, Ast.evalE_or]
    exact compatible_anyM hcd hdc
  · obtain ⟨ds, rfl, hperm⟩ := exists_of_canonicalize_node h
    obtain ⟨d, rfl, hwd⟩ := Ast.wellFormed_not.mp hwu
    have heq : canonicalize c = canonicalize d := by simpa using hperm
    rw [Ast.evalE_not, Ast.evalE_not]
    exact (ih d hwd (by simpa using ht) (by simpa using hu) heq).not

/-- **The canonical text does not conflate filters.**  Two accepted filters whose leaves
are `HashSafe` and whose canonical texts are equal agree on every record where both
predicates return. -/
theorem canonical_text_sound {raw raw' f f' : RecallFilter} {t t' : Ast}
    (hvalid : raw.validate = .ok f) (hparse : parseToAst f = .ok t)
    (hvalid' : raw'.validate = .ok f') (hparse' : parseToAst f' = .ok t')
    (hsafe : ∀ c ∈ t.leaves, HashSafe c) (hsafe' : ∀ c ∈ t'.leaves, HashSafe c)
    (htext : canonicalText t = canonicalText t') {p q : Predicate}
    (hp : compilePython ctx t = .ok p) (hq : compilePython ctx t' = .ok q) :
    ∀ r b b', p r = .ok b → q r = .ok b' → b = b' := by
  intro r b b' hb hb'
  have hs := ((parseToAst_iff f (RecallFilter.valid_of_validate hvalid)).value t hparse).2
  have hs' := ((parseToAst_iff f' (RecallFilter.valid_of_validate hvalid')).value t' hparse').2
  have hshape : ∀ c ∈ t.leaves, OpShape c := by simpa using hs.shaped
  have hw := hs.wellFormed t (by simp)
  have hw' := hs'.wellFormed t' (by simp)
  rw [predicate_eq_evalE r hw p hp] at hb
  rw [predicate_eq_evalE r hw' q hq] at hb'
  exact compatible_of_canonical hw t' hw' (fun c hc => ⟨hshape c hc, hsafe c hc⟩) hsafe'
    (Json.dumps_injective false htext) b b' hb hb'

/-- `metadata.k` equal to a bare value. -/
def bareFilter (operand : Value) : RecallFilter :=
  { emptyFilter with foldedPredicates := [("metadata.k", operand)] }

/-- `metadata.at` equal to the dict. -/
def atFilter (point : List (Key × Value)) : RecallFilter :=
  { emptyFilter with foldedPredicates := [("metadata.at", .dict [(.str "$eq", .dict point)])] }

/-- `$or` -/
def anyFilter (branches : List RecallFilter) : RecallFilter := { emptyFilter with or_ := .value branches }

def pointXY : List (Key × Value) := [(.str "x", .int 1), (.str "y", .int 2)]

def pointYX : List (Key × Value) := [(.str "y", .int 2), (.str "x", .int 1)]

/-- The branches of a disjunction in two orders, and the fields of a dict in one of them. -/
theorem canonical_text_sound_reordered : ∃ f f' t t' p q,
    (anyFilter [bareFilter (.str "x"), atFilter pointXY]).validate = .ok f ∧ parseToAst f = .ok t ∧
    (anyFilter [atFilter pointYX, bareFilter (.str "x")]).validate = .ok f' ∧ parseToAst f' = .ok t' ∧
    canonicalText t = canonicalText t' ∧ compilePython splitContext t = .ok p ∧
    compilePython splitContext t' = .ok q ∧ ∀ r b b', p r = .ok b → q r = .ok b' → b = b' := by
  let k : Ast := .node .and [.clause ⟨["metadata", "k"], .eq, .str "x"⟩]
  let at_ (point : List (Key × Value)) : Ast := .node .and [.clause ⟨["metadata", "at"], .eq, .dict point⟩]
  have hk : HashSafe ⟨["metadata", "k"], .eq, .str "x"⟩ := .inr ⟨trivial, by simp⟩
  have hxy : HashSafe ⟨["metadata", "at"], .eq, .dict pointXY⟩ :=
    .inr ⟨⟨by simp [pointXY], by decide, rfl, trivial, rfl, trivial, trivial⟩, by simp [pointXY]⟩
  have hyx : HashSafe ⟨["metadata", "at"], .eq, .dict pointYX⟩ :=
    .inr ⟨⟨by simp [pointYX], by decide, rfl, trivial, rfl, trivial, trivial⟩, by simp [pointYX]⟩
  have hpoint : canonicalizeOperand (.dict pointXY) = canonicalizeOperand (.dict pointYX) :=
    canonicalizeOperand_of_perm (by decide) (List.Perm.swap _ _ _)
  have hat : canonicalize (at_ pointXY) = canonicalize (at_ pointYX) := by
    refine canonicalize_of_perm (.inl rfl) (List.Perm.of_eq ?_)
    simp only [List.map_cons, List.map_nil, canonicalize, canonicalizeClause, operandKind, hpoint]
  have htext : canonicalize (.node .or [k, at_ pointXY]) = canonicalize (.node .or [at_ pointYX, k]) := by
    refine canonicalize_of_perm (.inr rfl) ?_
    rw [List.map_cons, List.map_singleton, hat]
    exact List.Perm.swap _ _ _
  refine ⟨_, _, .node .or [k, at_ pointXY], .node .or [at_ pointYX, k], _, _, rfl, rfl, rfl, rfl,
    congrArg (Json.dumps false) htext, rfl, rfl, ?_⟩
  apply @canonical_text_sound splitContext
    (anyFilter [bareFilter (.str "x"), atFilter pointXY]) (anyFilter [atFilter pointYX, bareFilter (.str "x")]) _ _
    (.node .or [k, at_ pointXY]) (.node .or [at_ pointYX, k]) rfl rfl rfl rfl ?_ ?_
    (congrArg (Json.dumps false) htext) _ _ rfl rfl
  · intro c hc
    rcases List.mem_pair.mp hc with rfl | rfl
    · exact hk
    · exact hxy
  · intro c hc
    rcases List.mem_pair.mp hc with rfl | rfl
    · exact hyx
    · exact hk

/-- Midnight of 1 January 2024, without an offset. -/
def newYear : DateTime where
  year := 2024
  month := 1
  day := 1
  hour := 0
  minute := 0
  second := 0
  micro := 0
  offset := none
  date_valid := Eq.refl true
  time_valid := Calendar.midnight_valid
  offset_valid := Calendar.naive_valid

/-- A Python date-time is written as a one-key dict, so the filter for that dict has the
same canonical text; on a record that stores the date's text only the first one holds. -/
theorem dateTag_collides : ∃ f f' t t' p q, (equalFilter (.datetime newYear)).validate = .ok f ∧
    parseToAst f = .ok t ∧
    (equalFilter (.dict [(.str "$dt", .str newYear.isoformat)])).validate = .ok f' ∧
    parseToAst f' = .ok t' ∧ canonicalText t = canonicalText t' ∧
    compilePython splitContext t = .ok p ∧ compilePython splitContext t' = .ok q ∧
    p (metadataRecord [(.str "k", .str newYear.isoformat)]) = .ok true ∧
    q (metadataRecord [(.str "k", .str newYear.isoformat)]) = .ok false := by
  have htext : canonicalText (.node .and [.clause ⟨["metadata", "k"], .eq, .datetime newYear⟩]) =
      canonicalText (.node .and [.clause ⟨["metadata", "k"], .eq,
        .dict [(.str "$dt", .str newYear.isoformat)]⟩]) := by
    have hoperand : canonicalizeOperand (.dict [(.str "$dt", .str newYear.isoformat)]) =
        canonicalizeOperand (.datetime newYear) := by
      simp only [canonicalizeOperand, canonicalizeFields, List.mergeSort_singleton]
      rfl
    unfold canonicalText
    simp only [canonicalize, canonicalizeAll, canonicalizeClause, hoperand]
    rfl
  refine ⟨_, _, .node .and [.clause ⟨["metadata", "k"], .eq, .datetime newYear⟩],
    .node .and [.clause ⟨["metadata", "k"], .eq, .dict [(.str "$dt", .str newYear.isoformat)]⟩], _, _,
    rfl, rfl, rfl, rfl, htext, rfl, rfl, ?_, ?_⟩
  · rfl
  · rfl

end Tree

end Khora
