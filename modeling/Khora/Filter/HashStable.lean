import Khora.Filter.Hash
import Khora.Filter.NormalForm
import Khora.Lib.SortBy

/-!
# What the canonical hash does not see

Siblings under `$and` and `$or` and the members of a dict come in no meaningful order, and an
`$and` inside an `$and` only brackets its siblings.  The canonical form sorts the first two away
and `_normalize` the third.

* `Value.Reordered.canonicalizeOperand_eq` — a dict's members in another order, at any depth.
* `Ast.Reordered.canonicalize_eq` — siblings and operands in another order, at any depth.
* `Ast.Bracketed.normalize_eq` — brackets put into a normal tree are normalized away.
* `canonicalHash_stable` — the hash is the same for all of them.
-/

namespace Khora

variable {Digest : Type} (sha256 : String → Digest)

/-- `canonical_hash`: the digest of the canonical text. -/
def canonicalHash (t : Ast) : Digest := sha256 (canonicalText t)

/-! ## Operands -/

namespace Value

mutual

/-- Every dict in the operand has distinct string keys. -/
def StringKeyed : Value → Prop
  | .dict fs => (fs.map fun f => f.1.norm).Nodup ∧ StringKeyedFields fs
  | .list xs => StringKeyedItems xs
  | .tuple xs => StringKeyedItems xs
  | _ => True

def StringKeyedItems : List Value → Prop
  | [] => True
  | x :: xs => x.StringKeyed ∧ StringKeyedItems xs

def StringKeyedFields : List (Key × Value) → Prop
  | [] => True
  | (k, v) :: fs => k.isStr = true ∧ v.StringKeyed ∧ StringKeyedFields fs

end

theorem stringKeyedItems_iff (xs : List Value) : StringKeyedItems xs ↔ ∀ x ∈ xs, x.StringKeyed := by
  induction xs with
  | nil => simp [StringKeyedItems]
  | cons x xs ih => simp [StringKeyedItems, ih]

theorem stringKeyedFields_iff (fs : List (Key × Value)) :
    StringKeyedFields fs ↔ ∀ f ∈ fs, f.1.isStr = true ∧ f.2.StringKeyed := by
  induction fs with
  | nil => simp [StringKeyedFields]
  | cons f fs ih => simp [StringKeyedFields, ih, and_assoc]

theorem stringKeyed_dict {fs : List (Key × Value)} : (Value.dict fs).StringKeyed ↔
    (fs.map fun f => f.1.norm).Nodup ∧ ∀ f ∈ fs, f.1.isStr = true ∧ f.2.StringKeyed := by
  rw [StringKeyed, stringKeyedFields_iff]

theorem stringKeyed_list {xs : List Value} : (Value.list xs).StringKeyed ↔ ∀ x ∈ xs, x.StringKeyed := by
  rw [StringKeyed, stringKeyedItems_iff]

theorem stringKeyed_tuple {xs : List Value} : (Value.tuple xs).StringKeyed ↔ ∀ x ∈ xs, x.StringKeyed := by
  rw [StringKeyed, stringKeyedItems_iff]

/-- The second operand is the first with the members of dicts in another order, at any depth. -/
inductive Reordered : Value → Value → Prop where
  | refl (v : Value) : Reordered v v
  | trans {v w x : Value} (h : Reordered v w) (h' : Reordered w x) : Reordered v x
  | members {fs gs : List (Key × Value)} (h : fs.Perm gs) : Reordered (.dict fs) (.dict gs)
  | member (fs gs : List (Key × Value)) (k : Key) {v w : Value} (h : Reordered v w) :
      Reordered (.dict (fs ++ (k, v) :: gs)) (.dict (fs ++ (k, w) :: gs))
  | listItem (xs ys : List Value) {v w : Value} (h : Reordered v w) :
      Reordered (.list (xs ++ v :: ys)) (.list (xs ++ w :: ys))
  | tupleItem (xs ys : List Value) {v w : Value} (h : Reordered v w) :
      Reordered (.tuple (xs ++ v :: ys)) (.tuple (xs ++ w :: ys))

theorem norm_eq_of_pyStr {k l : Key} (hk : k.isStr = true) (hl : l.isStr = true)
    (h : k.pyStr = l.pyStr) : k.norm = l.norm := by
  cases k <;> cases l <;> simp_all [Key.isStr, Key.pyStr]

/-- String keys tell the members of a dict apart. -/
theorem eq_of_pyStr {fs : List (Key × Value)} (h : (Value.dict fs).StringKeyed) {f g : Key × Value}
    (hf : f ∈ fs) (hg : g ∈ fs) (hkey : f.1.pyStr = g.1.pyStr) : f = g := by
  obtain ⟨hnodup, hfields⟩ := stringKeyed_dict.mp h
  have hnorm := norm_eq_of_pyStr (hfields f hf).1 (hfields g hg).1 hkey
  exact List.inj_on_of_nodup_map hnodup hf hg hnorm

/-- Dicts with the same members have one canonical form. -/
theorem canonicalizeOperand_of_perm {fs gs : List (Key × Value)} (hfs : (Value.dict fs).StringKeyed)
    (h : fs.Perm gs) : canonicalizeOperand (.dict fs) = canonicalizeOperand (.dict gs) := by
  have hsort := @SortBy.mergeSort_eq_of_perm (Key × Json) String _ (fun f => f.1.pyStr)
    (canonicalizeFields fs) (canonicalizeFields gs) ?_ ?_
  · rw [canonicalizeOperand, canonicalizeOperand, hsort]
  · rw [canonicalizeFields_eq]
    intro a ha b hb hab
    obtain ⟨f, hf, rfl⟩ := List.mem_map.mp ha
    obtain ⟨g, hg, rfl⟩ := List.mem_map.mp hb
    rw [eq_of_pyStr hfs hf hg hab]
  · rw [canonicalizeFields_eq, canonicalizeFields_eq]
    exact h.map _

/-- **A reordered operand has string keys too, and the same canonical form.** -/
theorem Reordered.canonicalizeOperand_eq {v w : Value} (h : Reordered v w) (hv : v.StringKeyed) :
    w.StringKeyed ∧ canonicalizeOperand v = canonicalizeOperand w := by
  induction h with
  | refl v => exact ⟨hv, rfl⟩
  | trans _ _ ih ih' =>
      obtain ⟨hw, heq⟩ := ih hv
      obtain ⟨hx, heq'⟩ := ih' hw
      exact ⟨hx, heq.trans heq'⟩
  | members h =>
      refine ⟨?_, canonicalizeOperand_of_perm hv h⟩
      obtain ⟨hnodup, hfields⟩ := stringKeyed_dict.mp hv
      exact stringKeyed_dict.mpr ⟨(h.map _).nodup_iff.mp hnodup, fun f hf => hfields f (h.mem_iff.mpr hf)⟩
  | member fs gs k _ ih =>
      obtain ⟨hnodup, hfields⟩ := stringKeyed_dict.mp hv
      have hmember := hfields (k, _) (List.mem_append_right fs List.mem_cons_self)
      obtain ⟨hw, heq⟩ := ih hmember.2
      refine ⟨stringKeyed_dict.mpr ⟨?_, ?_⟩, ?_⟩
      · rw [List.map_append, List.map_cons] at hnodup ⊢
        exact hnodup
      · intro f hf
        rcases List.mem_append.mp hf with hf | hf
        · exact hfields f (List.mem_append_left _ hf)
        · rcases List.mem_cons.mp hf with rfl | hf
          · exact ⟨hmember.1, hw⟩
          · exact hfields f (List.mem_append_right _ (List.mem_cons_of_mem _ hf))
      · rw [canonicalizeOperand, canonicalizeOperand]
        simp only [canonicalizeFields_eq, List.map_append, List.map_cons, heq]
  | listItem xs ys _ ih =>
      have hitems := stringKeyed_list.mp hv
      obtain ⟨hw, heq⟩ := ih (hitems _ (List.mem_append_right xs List.mem_cons_self))
      refine ⟨stringKeyed_list.mpr ?_, ?_⟩
      · grind
      · rw [canonicalizeOperand, canonicalizeOperand]
        simp only [canonicalizeItems_eq, List.map_append, List.map_cons, heq]
  | tupleItem xs ys _ ih =>
      have hitems := stringKeyed_tuple.mp hv
      obtain ⟨hw, heq⟩ := ih (hitems _ (List.mem_append_right xs List.mem_cons_self))
      refine ⟨stringKeyed_tuple.mpr ?_, ?_⟩
      · grind
      · rw [canonicalizeOperand, canonicalizeOperand]
        simp only [canonicalizeItems_eq, List.map_append, List.map_cons, heq]

end Value

namespace Ast

/-! ## Siblings -/

/-- Every operand of the tree has string keys. -/
def StringKeyed (t : Ast) : Prop := ∀ c ∈ t.leaves, c.operand.StringKeyed

/-- The second tree is the first with the children of `$and` and `$or` nodes and the members of
operands in another order, at any depth. -/
inductive Reordered : Ast → Ast → Prop where
  | refl (t : Ast) : Reordered t t
  | trans {t u w : Ast} (h : Reordered t u) (h' : Reordered u w) : Reordered t w
  | children {op : Op} (hop : op = .and ∨ op = .or) {cs ds : List Ast} (h : cs.Perm ds) :
      Reordered (.node op cs) (.node op ds)
  | child (op : Op) (cs ds : List Ast) {t u : Ast} (h : Reordered t u) :
      Reordered (.node op (cs ++ t :: ds)) (.node op (cs ++ u :: ds))
  | operand (path : List String) (op : Op) {v w : Value} (h : v.Reordered w) :
      Reordered (.clause ⟨path, op, v⟩) (.clause ⟨path, op, w⟩)

/-- Siblings with one text are equal, so the sort leaves no trace of their order. -/
theorem sortChildren_of_perm {op : Op} (hop : op = .and ∨ op = .or) {cs ds : List Json}
    (h : cs.Perm ds) : sortChildren op cs = sortChildren op ds := by
  rw [sortChildren, sortChildren, if_pos hop, if_pos hop]
  apply @SortBy.mergeSort_eq_of_perm Json String _ (Json.dumps true) cs ds ?_ h
  intro a _ b _ hab
  exact Json.dumps_injective true hab

theorem operandKind_of_reordered {v w : Value} (h : v.Reordered w) : operandKind v = operandKind w := by
  induction h with
  | trans _ _ ih ih' => exact ih.trans ih'
  | _ => rfl

/-- **A reordered tree has string keys too, and the same canonical form.** -/
theorem Reordered.canonicalize_eq {t u : Ast} (h : Reordered t u) (ht : t.StringKeyed) :
    u.StringKeyed ∧ canonicalize t = canonicalize u := by
  induction h with
  | refl t => exact ⟨ht, rfl⟩
  | trans _ _ ih ih' =>
      obtain ⟨hu, heq⟩ := ih ht
      obtain ⟨hw, heq'⟩ := ih' hu
      exact ⟨hw, heq.trans heq'⟩
  | children hop h =>
      constructor
      · intro c hc
        rw [leaves_node] at hc
        apply ht c
        rw [leaves_node]
        exact (h.flatMap_right leaves).mem_iff.mpr hc
      · rw [canonicalize_node, canonicalize_node, sortChildren_of_perm hop (h.map canonicalize)]
  | child op cs ds _ ih =>
      unfold StringKeyed at ht ih ⊢
      rw [leaves_node, List.flatMap_append, List.flatMap_cons] at ht
      obtain ⟨hu, heq⟩ := ih fun c hc => ht c (by simp [hc])
      constructor
      · intro c hc
        rw [leaves_node, List.flatMap_append, List.flatMap_cons] at hc
        rcases List.mem_append.mp hc with hc | hc
        · exact ht c (List.mem_append_left _ hc)
        · rcases List.mem_append.mp hc with hc | hc
          · exact hu c hc
          · exact ht c (List.mem_append_right _ (List.mem_append_right _ hc))
      · simp only [canonicalize_node, List.map_append, List.map_cons, heq]
  | operand path op h =>
      obtain ⟨hw, heq⟩ := h.canonicalizeOperand_eq (ht ⟨path, op, _⟩ (List.mem_singleton.mpr rfl))
      constructor
      · intro c hc
        rw [leaves_clause, List.mem_singleton] at hc
        rw [hc]
        exact hw
      · simp only [canonicalize, canonicalizeClause, heq, operandKind_of_reordered h]

/-! ## Brackets -/

/-- Under a node of the operator, the second list is the first with runs of siblings put into
nodes of that operator, and so at any depth.  An `$or` around a lone clause is no bracket: it is
read as `AND([clause])`. -/
inductive Bracketed : Op → List Ast → List Ast → Prop where
  | nil (op : Op) : Bracketed op [] []
  | clause {op : Op} (c : FilterClause) {cs ds : List Ast} (h : Bracketed op cs ds) :
      Bracketed op (.clause c :: cs) (.clause c :: ds)
  | node {op op' : Op} {as bs cs ds : List Ast} (h : Bracketed op' as bs) (h' : Bracketed op cs ds) :
      Bracketed op (.node op' as :: cs) (.node op' bs :: ds)
  | bracket {op : Op} (hop : op = .and ∨ op = .or) {as bs cs ds : List Ast}
      (hlone : op = .or → ∀ c, as ≠ [.clause c]) (h : Bracketed op as bs) (h' : Bracketed op cs ds) :
      Bracketed op (as ++ cs) (.node op bs :: ds)

/-- A rebuilt node gives its parent of the same operator the siblings it was built from. -/
theorem splice_rebuild {op : Op} (hop : op = .and ∨ op = .or) {cs : List Ast}
    (hcs : ∀ c ∈ cs, isNode op c = false) (hlone : op = .or → ∀ c, cs ≠ [.clause c]) :
    splice op (rebuild op cs) = cs := by
  unfold rebuild
  split
  case h_1 op' cs' => exact splice_of_not_isNode (hcs _ List.mem_cons_self)
  case h_2 c =>
    rcases hop with rfl | rfl
    · rw [splice, if_pos rfl]
    · exact absurd rfl (hlone rfl c)
  case h_3 => rw [splice, if_pos rfl]

/-- What normalizing a bracketed list of siblings gives back. -/
def Restored (op : Op) (cs ds : List Ast) : Prop :=
  if op = .not then ds.map normalize = cs
  else (ds.map normalize).flatMap (splice op) = cs

theorem Restored.normalize_node {op : Op} {cs ds : List Ast} (h : Restored op cs ds)
    (hn : (Ast.node op cs).normal = true) : (Ast.node op ds).normalize = .node op cs := by
  by_cases hop : op = .not
  · subst hop
    have h : ds.map normalize = cs := h
    rw [normalize, normalizeAll_eq, h]
  · rw [Restored, if_neg hop] at h
    rw [Ast.normalize_node hop, h]
    exact rebuild_of_flat ((normal_node hop).mp hn).1

/-- A sibling that is normal and no node of the operator comes back as itself. -/
theorem Restored.cons {op : Op} {c d : Ast} {cs ds : List Ast} (hd : d.normalize = c)
    (hc : op ≠ .not → isNode op c = false) (h : Restored op cs ds) : Restored op (c :: cs) (d :: ds) := by
  by_cases hop : op = .not
  · rw [Restored, if_pos hop] at h ⊢
    rw [List.map_cons, hd, h]
  · rw [Restored, if_neg hop] at h ⊢
    rw [List.map_cons, List.flatMap_cons, hd, splice_of_not_isNode (hc hop), h]
    rfl

/-- **Brackets put among normal siblings are normalized away.** -/
theorem Bracketed.restored {op : Op} {cs ds : List Ast} (h : Bracketed op cs ds)
    (hn : ∀ c ∈ cs, c.normal = true) (hop : op ≠ .not → ∀ c ∈ cs, isNode op c = false) :
    Restored op cs ds := by
  induction h with
  | nil op =>
      unfold Restored
      split <;> rfl
  | clause c h ih =>
      obtain ⟨-, hcs⟩ := List.forall_mem_cons.mp hn
      exact Restored.cons rfl (fun _ => rfl) (ih hcs fun hne c hc => hop hne c (List.mem_cons_of_mem _ hc))
  | @node op op' as bs cs ds h h' ih ih' =>
      obtain ⟨hnode, hcs⟩ := List.forall_mem_cons.mp hn
      have hinner : Restored op' as bs := by
        by_cases hnot : op' = .not
        · subst hnot
          exact ih (normal_not.mp hnode) fun hne => absurd rfl hne
        · obtain ⟨hflat, has⟩ := (normal_node hnot).mp hnode
          have hall := List.all_eq_true.mp (Bool.and_eq_true_iff.mp hflat).1
          exact ih has fun _ c hc => by simpa using hall c hc
      apply Restored.cons (hinner.normalize_node hnode)
      · exact fun hne => hop hne _ List.mem_cons_self
      · exact ih' hcs fun hne c hc => hop hne c (List.mem_cons_of_mem _ hc)
  | @bracket op hgroup as bs cs ds hlone h h' ih ih' =>
      obtain ⟨has, hcs⟩ := List.forall_mem_append.mp hn
      have hne : op ≠ .not := by
        rcases hgroup with rfl | rfl <;> simp
      obtain ⟨hasop, hcsop⟩ := List.forall_mem_append.mp (hop hne)
      have hbs := ih has fun _ => hasop
      have hds := ih' hcs fun _ => hcsop
      rw [Restored, if_neg hne] at hbs hds ⊢
      rw [List.map_cons, List.flatMap_cons, Ast.normalize_node hne, hbs, hds,
        splice_rebuild hgroup hasop hlone]

/-- **A normal tree comes back from its bracketings.** -/
theorem Bracketed.normalize_eq {op : Op} {cs ds : List Ast} (h : Bracketed op cs ds)
    (hn : (Ast.node op cs).normal = true) : (Ast.node op ds).normalize = .node op cs := by
  have hone : Bracketed .not [.node op cs] [.node op ds] := .node h (.nil _)
  have hrestored := hone.restored (by simpa using hn) fun hne => absurd rfl hne
  have hmap : [(Ast.node op ds).normalize] = [.node op cs] := hrestored
  exact (List.cons.inj hmap).1

end Ast

/-- **The canonical hash is stable.**  It does not change when the children of `$and` and `$or`
nodes or the members of operands with string keys are reordered, at any depth, nor when a
normalized tree is bracketed and normalized again. -/
theorem canonicalHash_stable :
    (∀ t u : Ast, t.StringKeyed → t.Reordered u → canonicalHash sha256 t = canonicalHash sha256 u) ∧
    ∀ (t : Ast) (op : Op) (cs ds : List Ast), t.normalize = .node op cs → Ast.Bracketed op cs ds →
      canonicalHash sha256 (Ast.node op ds).normalize = canonicalHash sha256 t.normalize := by
  constructor
  · intro t u ht h
    rw [canonicalHash, canonicalHash, canonicalText, canonicalText, (h.canonicalize_eq ht).2]
  · intro t op cs ds heq h
    have hn : (Ast.node op cs).normal = true := heq ▸ Ast.normal_normalize t
    rw [h.normalize_eq hn, heq]

/-- Two siblings change places and so do the members of one's dict; a bracket around two of three
alternatives goes away. -/
theorem canonicalHash_stable_siblings :
    canonicalHash id (.node .and [.clause ⟨["title"], .eq, .str "a"⟩,
        .clause ⟨["metadata", "k"], .eq, .dict [(.str "x", .int 1), (.str "y", .none)]⟩]) =
      canonicalHash id (.node .and
        [.clause ⟨["metadata", "k"], .eq, .dict [(.str "y", .none), (.str "x", .int 1)]⟩,
          .clause ⟨["title"], .eq, .str "a"⟩]) ∧
    canonicalHash id (Ast.node .or [.node .or [.clause ⟨["title"], .eq, .str "a"⟩,
        .clause ⟨["title"], .eq, .str "b"⟩], .clause ⟨["title"], .eq, .str "c"⟩]).normalize =
      canonicalHash id (Ast.node .or [.clause ⟨["title"], .eq, .str "a"⟩,
        .clause ⟨["title"], .eq, .str "b"⟩, .clause ⟨["title"], .eq, .str "c"⟩]).normalize := by
  have hmembers : Value.Reordered (.dict [(.str "x", .int 1), (.str "y", .none)])
      (.dict [(.str "y", .none), (.str "x", .int 1)]) := .members (.swap _ _ _)
  have hinner := Ast.Reordered.child .and [.clause ⟨["title"], .eq, .str "a"⟩] []
    (.operand ["metadata", "k"] .eq hmembers)
  constructor
  · apply (canonicalHash_stable id).1 _ _ ?_ (hinner.trans (.children (.inl rfl) (.swap _ _ _)))
    simp [Ast.StringKeyed, Value.StringKeyed, Value.StringKeyedFields, Key.norm, Key.isStr]
  · have hpair : Ast.Bracketed .or [.clause ⟨["title"], .eq, .str "a"⟩, .clause ⟨["title"], .eq, .str "b"⟩]
        [.clause ⟨["title"], .eq, .str "a"⟩, .clause ⟨["title"], .eq, .str "b"⟩] :=
      .clause _ (.clause _ (.nil _))
    have hrest : Ast.Bracketed .or [.clause ⟨["title"], .eq, .str "c"⟩]
        [.clause ⟨["title"], .eq, .str "c"⟩] := .clause _ (.nil _)
    exact (canonicalHash_stable id).2 _ .or _ _ rfl (.bracket (.inr rfl) (by simp) hpair hrest)

end Khora
