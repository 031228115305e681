import Khora.Lib.Runs
import Mathlib.Data.List.Flatten
import Mathlib.Data.List.Basic
import Mathlib.Data.List.Induction
import Mathlib.Order.Basic

/-!
# Cutting a list into segments and merging neighbours

Slices of a fixed length, a list cut at gaps, and the loop that merges a small segment with the
one before it.

* `flatten_slices`, `flatten_splitGaps`, `flatten_mergeSmall` — nothing is lost, repeated or moved.
* `map_mergeSmall` — which segments are merged depends on their sizes only.
* `bracketed_flatten_iff` — when the first and the last element of merged segments bracket all the
  others.
-/

namespace Segments

variable {α : Type*}

/-! ## Slices -/

/-- `[l[i : i + n] for i in range(0, len(l), n)]` -/
def slices (n : ℕ) (l : List α) : List (List α) :=
  (List.range ((l.length + n - 1) / n)).map fun i => (l.drop (i * n)).take n

theorem flatten_map_slice (n : ℕ) (l : List α) (k : ℕ) :
    ((List.range k).map fun i => (l.drop (i * n)).take n).flatten = l.take (k * n) := by
  induction k with
  | zero => simp
  | succ k ih =>
      rw [List.range_succ, List.map_append, List.flatten_append, ih, List.map_singleton,
        List.flatten_singleton, Nat.succ_mul, List.take_add]

theorem flatten_slices {n : ℕ} (hn : 0 < n) (l : List α) : (slices n l).flatten = l := by
  unfold slices
  rw [flatten_map_slice]
  apply List.take_of_length_le
  have hdiv := Nat.lt_div_mul_add (a := l.length + n - 1) hn
  omega

theorem slice_spec {n : ℕ} (hn : 0 < n) {l s : List α} (h : s ∈ slices n l) :
    s ≠ [] ∧ s.Sublist l := by
  unfold slices at h
  obtain ⟨i, hi, rfl⟩ := List.mem_map.mp h
  rw [List.mem_range, Nat.lt_iff_add_one_le, Nat.le_div_iff_mul_le hn, Nat.succ_mul] at hi
  refine ⟨?_, (List.take_sublist n _).trans (List.drop_sublist _ l)⟩
  intro hnil
  have hlen := congrArg List.length hnil
  rw [List.length_take, List.length_drop, List.length_nil] at hlen
  omega

/-! ## Gaps -/

section Gaps

variable (far : α → α → Bool)

/-- `groups.append([x])` after a gap, `groups[-1].append(x)` otherwise. -/
def gapStep (s : List (List α) × List α) (x : α) : List (List α) × List α :=
  if s.2.getLast?.any fun prev => far prev x then (s.1 ++ [s.2], [x]) else (s.1, s.2 ++ [x])

/-- The list, cut between neighbours that are far from each other. -/
def splitGaps : List α → List (List α)
  | [] => []
  | x :: xs =>
      let s := xs.foldl (gapStep far) ([], [x])
      s.1 ++ [s.2]

variable {far}

variable (far) in
theorem foldl_gapStep (xs : List α) : ∀ s : List (List α) × List α,
    (∀ g ∈ s.1, g ≠ []) → s.2 ≠ [] →
      let s' := xs.foldl (gapStep far) s
      (∀ g ∈ s'.1, g ≠ []) ∧ s'.2 ≠ [] ∧ s'.1.flatten ++ s'.2 = s.1.flatten ++ s.2 ++ xs := by
  induction xs with
  | nil => exact fun s h h' => ⟨h, h', (List.append_nil _).symm⟩
  | cons x xs ih =>
      intro s h h'
      rw [List.foldl_cons, gapStep]
      split
      · have hdone : ∀ g ∈ s.1 ++ [s.2], g ≠ [] := by
          intro g hg
          rcases List.mem_append.mp hg with hg | hg
          · exact h g hg
          · rw [List.mem_singleton.mp hg]
            exact h'
        have hrest := ih (s.1 ++ [s.2], [x]) hdone (List.cons_ne_nil x [])
        simpa using hrest
      · have hrest := ih (s.1, s.2 ++ [x]) h (by simp)
        simpa using hrest

theorem flatten_splitGaps (l : List α) : (splitGaps far l).flatten = l := by
  cases l with
  | nil => rfl
  | cons x xs =>
      have h := (foldl_gapStep far xs ([], [x]) (List.forall_mem_nil _) (List.cons_ne_nil x [])).2.2
      unfold splitGaps
      rw [List.flatten_append, List.flatten_singleton]
      exact h

theorem ne_nil_of_mem_splitGaps {l g : List α} (h : g ∈ splitGaps far l) : g ≠ [] := by
  cases l with
  | nil => cases h
  | cons x xs =>
      have hs := foldl_gapStep far xs ([], [x]) (List.forall_mem_nil _) (List.cons_ne_nil x [])
      unfold splitGaps at h
      rcases List.mem_append.mp h with hg | hg
      · exact hs.1 g hg
      · rw [List.mem_singleton.mp hg]
        exact hs.2.1

end Gaps

/-! ## Merging -/

section Merge

variable {G H : Type*} (small : G → Bool) (join : G → G → G)

/-- A segment is merged into the last one if either is small. -/
def mergeStep (s : List G × G) (g : G) : List G × G :=
  if small s.2 || small g then (s.1, join s.2 g) else (s.1 ++ [s.2], g)

/-- The last segment is merged into the one before it if it is small. -/
def mergeLast (s : List G × G) : List G :=
  match s.1.getLast? with
  | none => [s.2]
  | some prev => if small s.2 then s.1.dropLast ++ [join prev s.2] else s.1 ++ [s.2]

def mergeSmall : List G → List G
  | [] => []
  | g :: gs => mergeLast small join (gs.foldl (mergeStep small join) ([], g))

variable {small join}

/-- **Merging depends on the sizes only.** -/
theorem map_mergeSmall {small' : H → Bool} {join' : H → H → H} {f : G → H}
    (hsmall : ∀ g, small' (f g) = small g) (hjoin : ∀ a b, f (join a b) = join' (f a) (f b))
    (gs : List G) : (mergeSmall small join gs).map f = mergeSmall small' join' (gs.map f) := by
  have hfold : ∀ (gs : List G) (s : List G × G),
      (gs.map f).foldl (mergeStep small' join') (s.1.map f, f s.2) =
        (((gs.foldl (mergeStep small join) s).1.map f), f (gs.foldl (mergeStep small join) s).2) := by
    intro gs
    induction gs with
    | nil => exact fun s => rfl
    | cons g gs ih =>
        intro s
        rw [List.map_cons, List.foldl_cons, List.foldl_cons, ← ih]
        congr 1
        unfold mergeStep
        rw [hsmall, hsmall]
        split
        · rw [hjoin]
        · rw [List.map_append, List.map_singleton]
  cases gs with
  | nil => rfl
  | cons g gs =>
      unfold mergeSmall
      rw [List.map_cons]
      simp only
      have h := hfold gs ([], g)
      rw [List.map_nil] at h
      rw [h]
      generalize gs.foldl (mergeStep small join) ([], g) = s
      unfold mergeLast
      rw [List.getLast?_map]
      cases s.1.getLast? with
      | none => rfl
      | some prev =>
          simp only [Option.map_some, hsmall]
          split
          · rw [List.map_append, List.map_singleton, hjoin, List.map_dropLast]
          · rw [List.map_append, List.map_singleton]

/-- What joining keeps holds of every merged segment. -/
theorem forall_mem_mergeSmall {P : G → Prop} (hjoin : ∀ a b, P a → P b → P (join a b)) {gs : List G}
    (h : ∀ g ∈ gs, P g) : ∀ g ∈ mergeSmall small join gs, P g := by
  have hfold : ∀ (gs : List G) (s : List G × G), (∀ g ∈ gs, P g) → (∀ g ∈ s.1, P g) → P s.2 →
      (∀ g ∈ (gs.foldl (mergeStep small join) s).1, P g) ∧ P (gs.foldl (mergeStep small join) s).2 := by
    intro gs
    induction gs with
    | nil => exact fun s _ h h' => ⟨h, h'⟩
    | cons g gs ih =>
        intro s hgs hdone hcur
        rw [List.forall_mem_cons] at hgs
        rw [List.foldl_cons]
        unfold mergeStep
        split
        · exact ih _ hgs.2 hdone (hjoin _ _ hcur hgs.1)
        · refine ih _ hgs.2 ?_ hgs.1
          intro x hx
          rcases List.mem_append.mp hx with hx | hx
          · exact hdone x hx
          · rw [List.mem_singleton.mp hx]
            exact hcur
  cases gs with
  | nil => exact List.forall_mem_nil _
  | cons g gs =>
      rw [List.forall_mem_cons] at h
      obtain ⟨hdone, hcur⟩ := hfold gs ([], g) h.2 (List.forall_mem_nil _) h.1
      unfold mergeSmall
      simp only
      generalize gs.foldl (mergeStep small join) ([], g) = s at hdone hcur ⊢
      unfold mergeLast
      intro x hx
      cases hlast : s.1.getLast? with
      | none =>
          rw [hlast] at hx
          rw [List.mem_singleton.mp hx]
          exact hcur
      | some prev =>
          rw [hlast] at hx
          simp only at hx
          split at hx
          · rcases List.mem_append.mp hx with hx | hx
            · exact hdone x (List.dropLast_subset _ hx)
            · rw [List.mem_singleton.mp hx]
              exact hjoin _ _ (hdone prev (List.mem_of_getLast? hlast)) hcur
          · rcases List.mem_append.mp hx with hx | hx
            · exact hdone x hx
            · rw [List.mem_singleton.mp hx]
              exact hcur

/-- **Merging loses nothing.** -/
theorem flatten_mergeSmall {small : List α → Bool} (gs : List (List α)) :
    (mergeSmall small (· ++ ·) gs).flatten = gs.flatten := by
  have hfold : ∀ (gs : List (List α)) (s : List (List α) × List α),
      (gs.foldl (mergeStep small (· ++ ·)) s).1.flatten ++ (gs.foldl (mergeStep small (· ++ ·)) s).2 =
        s.1.flatten ++ s.2 ++ gs.flatten := by
    intro gs
    induction gs with
    | nil => exact fun s => (List.append_nil _).symm
    | cons g gs ih =>
        intro s
        rw [List.foldl_cons, ih]
        unfold mergeStep
        split
        · simp
        · simp
  cases gs with
  | nil => rfl
  | cons g gs =>
      have h := hfold gs ([], g)
      rw [List.flatten_nil, List.nil_append] at h
      rw [List.flatten_cons, ← h]
      unfold mergeSmall
      simp only
      generalize gs.foldl (mergeStep small (· ++ ·)) ([], g) = s
      unfold mergeLast
      cases hlast : s.1.getLast? with
      | none =>
          rw [List.getLast?_eq_none_iff.mp hlast, List.flatten_singleton]
          rfl
      | some prev =>
          obtain ⟨done, hdone⟩ := List.getLast?_eq_some_iff.mp hlast
          simp only [hdone]
          split
          · simp
          · rw [List.flatten_append, List.flatten_singleton]

end Merge

/-! ## The first and the last element -/

section Bracket

variable {K : Type*} [LE K] (key : α → K)

/-- The first element is a least one and the last a greatest one. -/
def Bracketed (l : List α) : Prop :=
  ∀ a ∈ l.head?, ∀ b ∈ l.getLast?, ∀ x ∈ l, key a ≤ key x ∧ key x ≤ key b

/-- The first segment begins and the last one ends the whole. -/
def EndsBracket (run : List (List α)) : Prop :=
  ∀ p ∈ run, (∀ a ∈ run.head?.bind List.head?, ∀ x ∈ p.head?, key a ≤ key x) ∧
    ∀ b ∈ run.getLast?.bind List.getLast?, ∀ x ∈ p.getLast?, key x ≤ key b

variable {key}

theorem head?_flatten {run : List (List α)} (h : ∀ p ∈ run, p ≠ []) :
    run.flatten.head? = run.head?.bind List.head? := by
  cases run with
  | nil => rfl
  | cons p run =>
      rw [List.forall_mem_cons] at h
      rw [List.flatten_cons, List.head?_append_of_ne_nil _ h.1]
      rfl

theorem getLast?_flatten {run : List (List α)} (h : ∀ p ∈ run, p ≠ []) :
    run.flatten.getLast? = run.getLast?.bind List.getLast? := by
  induction run using List.reverseRecOn with
  | nil => rfl
  | append_singleton run p _ =>
      have hp : p ≠ [] := h p (by simp)
      rw [List.flatten_append, List.flatten_singleton, List.getLast?_append_of_ne_nil _ hp,
        List.getLast?_append_of_ne_nil _ (List.cons_ne_nil p [])]
      rfl

end Bracket

/-- **Merged segments.**  If every segment is in order, the first element of the first and the last of
the last bracket all elements exactly if they bracket the ends of the segments. -/
theorem bracketed_flatten_iff {K : Type*} [Preorder K] {key : α → K} {run : List (List α)}
    (hne : ∀ p ∈ run, p ≠ []) (hsorted : ∀ p ∈ run, p.Pairwise fun a b => key a ≤ key b) :
    Bracketed key run.flatten ↔ EndsBracket key run := by
  unfold Bracketed EndsBracket
  rw [head?_flatten hne, getLast?_flatten hne]
  constructor
  · intro h p hp
    have hpne := hne p hp
    have hrun : run ≠ [] := List.ne_nil_of_mem hp
    obtain ⟨q, hq⟩ := Option.ne_none_iff_exists'.mp (fun hn => hrun (List.head?_eq_none_iff.mp hn))
    obtain ⟨r, hr⟩ := Option.ne_none_iff_exists'.mp (fun hn => hrun (List.getLast?_eq_none_iff.mp hn))
    have hqne := hne q (List.mem_of_head? hq)
    have hrne := hne r (List.mem_of_getLast? hr)
    have hfirst : run.head?.bind List.head? = some (q.head hqne) := by
      rw [hq]
      exact List.head?_eq_some_head hqne
    have hlast : run.getLast?.bind List.getLast? = some (r.getLast hrne) := by
      rw [hr]
      exact List.getLast?_eq_some_getLast hrne
    constructor
    · intro a ha x hx
      exact (h a ha _ hlast x (List.mem_flatten.mpr ⟨p, hp, List.mem_of_head? hx⟩)).1
    · intro b hb x hx
      exact (h _ hfirst b hb x (List.mem_flatten.mpr ⟨p, hp, List.mem_of_getLast? hx⟩)).2
  · intro h a ha b hb x hx
    obtain ⟨p, hp, hxp⟩ := List.mem_flatten.mp hx
    obtain ⟨hstart, hstop⟩ := h p hp
    have hpne := hne p hp
    constructor
    · refine le_trans (hstart a ha _ (List.head?_eq_some_head hpne)) ?_
      obtain ⟨y, rest, rfl⟩ := List.exists_cons_of_ne_nil hpne
      rcases List.mem_cons.mp hxp with rfl | hxp
      · exact le_refl _
      · exact (List.pairwise_cons.mp (hsorted _ hp)).1 x hxp
    · refine le_trans ?_ (hstop b hb _ (List.getLast?_eq_some_getLast hpne))
      have hsplit := List.dropLast_append_getLast hpne
      rw [← hsplit] at hxp
      rcases List.mem_append.mp hxp with hxp | hxp
      · have hpair := hsorted p hp
        rw [← hsplit, List.pairwise_append] at hpair
        exact hpair.2.2 x hxp _ List.mem_cons_self
      · rw [List.mem_singleton.mp hxp]

end Segments
