import Khora.Lib.Binary64
import Khora.Lib.Grouping
import Khora.Lib.SortBy
import Mathlib.Algebra.Order.Field.Rat
import Mathlib.Order.WithBot
import Mathlib.Data.List.Dedup
import Mathlib.Data.List.Range
import Mathlib.Data.Prod.Lex
import Mathlib.Data.Vector.Basic
import Mathlib.Logic.Function.Basic
import Mathlib.Tactic.Linarith

/-!
# Near-duplicate chunks

Both backends compare signatures and mark a chunk as the duplicate of an earlier one.  The
Python fallback compares all pairs; the Rust backend compares the pairs that share a band, in
sorted order, and follows the marks of the earlier chunk to its representative.

Signatures and band hashes are parameters: a chunk has a signature of `num_perm` values.  Two chunks are
similar enough if the share of equal values, a quotient of doubles, reaches the threshold.

* `Marks.mark` — what a new mark keeps, if no mark points behind the pair it is made for.
* `dedup_flat` — on both backends the marks are flat, go to earlier chunks that are similar
  enough, and miss no chunk that repeats the signature of an earlier one.
* `dedup_rounds` — the share is rounded, so that it can reach a threshold that it is below.
-/

namespace Khora

namespace ChunkDedup

/-! ## Signatures -/

section Similarity

variable {H : Type} [DecidableEq H]

/-- `sum(1 for a, b in zip(sig_a, sig_b) if a == b)` -/
def matching (sigA sigB : List H) : ℕ := (sigA.zip sigB).countP fun p => p.1 = p.2

theorem matching_self (sig : List H) : matching sig sig = sig.length := by
  induction sig with
  | nil => rfl
  | cons h sig ih =>
      unfold matching at ih ⊢
      rw [List.zip_cons_cons, List.countP_cons_of_pos (by simp), ih, List.length_cons]

/-- `minhash_similarity` -/
def minhashSimilarity (sigA sigB : List H) : ℚ := Binary64.nearest (matching sigA sigB / sigA.length)

/-- So many equal places of `num_perm` reach the threshold, a double or minus infinity. -/
def Reaches (threshold : WithBot ℚ) (numPerm equal : ℕ) : Prop :=
  threshold ≤ (Binary64.nearest (equal / numPerm) : ℚ)

instance (threshold : WithBot ℚ) (numPerm equal : ℕ) : Decidable (Reaches threshold numPerm equal) :=
  inferInstanceAs (Decidable (threshold ≤ ((Binary64.nearest (equal / numPerm) : ℚ) : WithBot ℚ)))

end Similarity

/-! ## Marks -/

/-- `duplicate_of` -/
abbrev DuplicateOf := ℕ → Option ℕ

/-- `duplicate_of[b] = canonical` -/
def DuplicateOf.mark (d : DuplicateOf) (b canonical : ℕ) : DuplicateOf :=
  Function.update d b (some canonical)

theorem DuplicateOf.mark_self (d : DuplicateOf) (b c : ℕ) : d.mark b c b = some c :=
  Function.update_self ..

theorem DuplicateOf.mark_of_ne (d : DuplicateOf) {b i : ℕ} (c : ℕ) (h : i ≠ b) :
    d.mark b c i = d i :=
  Function.update_of_ne h _ _

/-- The marks go to earlier unmarked chunks that are similar, none of them after `last`. -/
structure Marks (similar : ℕ → ℕ → Prop) (last : ℕ) (d : DuplicateOf) : Prop where
  earlier : ∀ {i j}, d i = some j → j < i
  unmarked : ∀ {i j}, d i = some j → d j = none
  alike : ∀ {i j}, d i = some j → similar j i
  le_last : ∀ {i j}, d i = some j → j ≤ last

section Marks

variable {similar : ℕ → ℕ → Prop} {d : DuplicateOf} {last a b c : ℕ}

theorem Marks.empty : Marks similar 0 fun _ => none where
  earlier h := by cases h
  unmarked h := by cases h
  alike h := by cases h
  le_last h := by cases h

theorem Marks.later (h : Marks similar last d) (hle : last ≤ a) : Marks similar a d :=
  ⟨h.earlier, h.unmarked, h.alike, fun hd => Nat.le_trans (h.le_last hd) hle⟩

/-- **A new mark.**  The chunk that is marked comes after all representatives, so that none of
them is lost. -/
theorem Marks.mark (h : Marks similar last d) (hla : last ≤ a) (hab : a < b) (hca : c ≤ a)
    (hc : d c = none) (hsim : similar c b) : Marks similar a (d.mark b c) := by
  have hcases : ∀ {i j}, d.mark b c i = some j → (i = b ∧ j = c) ∨ (i ≠ b ∧ d i = some j) := by
    intro i j hd
    by_cases hi : i = b
    · rw [hi, DuplicateOf.mark_self] at hd
      exact Or.inl ⟨hi, (Option.some.inj hd).symm⟩
    · rw [d.mark_of_ne c hi] at hd
      exact Or.inr ⟨hi, hd⟩
  refine ⟨?_, ?_, ?_, ?_⟩
  · intro i j hd
    rcases hcases hd with ⟨rfl, rfl⟩ | ⟨_, hd⟩
    · exact Nat.lt_of_le_of_lt hca hab
    · exact h.earlier hd
  · intro i j hd
    rcases hcases hd with ⟨rfl, rfl⟩ | ⟨_, hd⟩
    · rw [d.mark_of_ne _ (Nat.ne_of_lt (Nat.lt_of_le_of_lt hca hab))]
      exact hc
    · have hjb : j ≠ b := by
        have := h.le_last hd
        omega
      rw [d.mark_of_ne _ hjb]
      exact h.unmarked hd
  · intro i j hd
    rcases hcases hd with ⟨rfl, rfl⟩ | ⟨_, hd⟩
    · exact hsim
    · exact h.alike hd
  · intro i j hd
    rcases hcases hd with ⟨rfl, rfl⟩ | ⟨_, hd⟩
    · exact hca
    · exact Nat.le_trans (h.le_last hd) hla

/-- A mark that is made is not taken back. -/
def Grows (d d' : DuplicateOf) : Prop := ∀ i, d i ≠ none → d' i ≠ none

theorem Grows.refl (d : DuplicateOf) : Grows d d := fun _ h => h

theorem Grows.trans {d d' d'' : DuplicateOf} (h : Grows d d') (h' : Grows d' d'') : Grows d d'' :=
  fun i hi => h' i (h i hi)

theorem grows_mark (d : DuplicateOf) (b c : ℕ) : Grows d (d.mark b c) := by
  intro i hi
  by_cases hib : i = b
  · rw [hib, DuplicateOf.mark_self]
    exact Option.some_ne_none c
  · rw [d.mark_of_ne c hib]
    exact hi

end Marks

/-! ## Pairs that are compared -/

section Pairs

variable (similar : ℕ → ℕ → Prop) [DecidableRel similar]

/-- `while let Some(parent) = duplicate_of[c]`, for at most so many steps. -/
def root (d : DuplicateOf) : ℕ → ℕ → ℕ
  | 0, c => c
  | fuel + 1, c =>
      match d c with
      | none => c
      | some parent => root d fuel parent

/-- One candidate pair of the Rust backend. -/
def verify (fuel : ℕ) (d : DuplicateOf) (p : ℕ × ℕ) : DuplicateOf :=
  if (d p.2).isSome then d
  else
    let canonicalA := root d fuel p.1
    if similar canonicalA p.2 then d.mark p.2 canonicalA else d

/-- One pair of the Python fallback. -/
def compare (i : ℕ) (d : DuplicateOf) (j : ℕ) : DuplicateOf :=
  if (d j).isSome then d
  else if similar i j then d.mark j i else d

variable {similar} {d : DuplicateOf} {last a b : ℕ}

omit [DecidableRel similar] in
/-- **The chain has one link.**  The loop over the parents ends after one step. -/
theorem root_eq (h : Marks similar last d) {fuel : ℕ} (hfuel : 0 < fuel) (a : ℕ) :
    root d fuel a = (d a).getD a := by
  obtain ⟨fuel, rfl⟩ := Nat.exists_eq_succ_of_ne_zero (Nat.ne_of_gt hfuel)
  unfold root
  cases hd : d a with
  | none => rfl
  | some parent =>
      cases fuel with
      | zero => rfl
      | succ fuel =>
          dsimp only
          unfold root
          rw [h.unmarked hd, Option.getD_some]

omit [DecidableRel similar] in
/-- The representative of a chunk. -/
theorem root_spec (h : Marks similar last d) {fuel : ℕ} (hfuel : 0 < fuel) (a : ℕ) :
    root d fuel a ≤ a ∧ d (root d fuel a) = none ∧ (root d fuel a = a ∨ similar (root d fuel a) a) := by
  rw [root_eq h hfuel]
  cases hd : d a with
  | none => exact ⟨Nat.le_refl a, hd, Or.inl rfl⟩
  | some parent => exact ⟨Nat.le_of_lt (h.earlier hd), h.unmarked hd, Or.inr (h.alike hd)⟩

/-- What a comparison keeps and what it reaches. -/
structure Compared (similar : ℕ → ℕ → Prop) (a b : ℕ) (d d' : DuplicateOf) : Prop where
  marks : Marks similar a d'
  grows : Grows d d'
  reached : (∀ c, c ≤ a → (c = a ∨ similar c a) → similar c b) → d' b ≠ none

theorem verify_spec {fuel : ℕ} (hfuel : 0 < fuel) (h : Marks similar last d) (hla : last ≤ a)
    (hab : a < b) : Compared similar a b d (verify similar fuel d (a, b)) := by
  obtain ⟨hle, hnone, hsim⟩ := root_spec h hfuel a
  unfold verify
  by_cases hb : (d b).isSome = true
  · rw [if_pos hb]
    exact ⟨h.later hla, Grows.refl d, fun _ => Option.isSome_iff_ne_none.mp hb⟩
  · rw [if_neg hb]
    by_cases hs : similar (root d fuel a) b
    · rw [if_pos hs]
      refine ⟨h.mark hla hab hle hnone hs, grows_mark d b _, fun _ => ?_⟩
      rw [DuplicateOf.mark_self]
      exact Option.some_ne_none _
    · rw [if_neg hs]
      exact ⟨h.later hla, Grows.refl d, fun hall => absurd (hall _ hle hsim) hs⟩

theorem compare_spec (h : Marks similar last d) (hla : last ≤ a) (hab : a < b) (ha : d a = none) :
    Compared similar a b d (compare similar a d b) := by
  unfold compare
  by_cases hb : (d b).isSome = true
  · rw [if_pos hb]
    exact ⟨h.later hla, Grows.refl d, fun _ => Option.isSome_iff_ne_none.mp hb⟩
  · rw [if_neg hb]
    by_cases hs : similar a b
    · rw [if_pos hs]
      refine ⟨h.mark hla hab (Nat.le_refl a) ha hs, grows_mark d b a, fun _ => ?_⟩
      rw [DuplicateOf.mark_self]
      exact Option.some_ne_none _
    · rw [if_neg hs]
      exact ⟨h.later hla, Grows.refl d, fun hall => absurd (hall a (Nat.le_refl a) (Or.inl rfl)) hs⟩

end Pairs

/-! ## The loops -/

section Loops

variable {similar : ℕ → ℕ → Prop} [DecidableRel similar] {d : DuplicateOf} {last : ℕ}

/-- What a loop over pairs leaves: good marks, and every listed pair was compared. -/
structure Covers (similar : ℕ → ℕ → Prop) (compared : ℕ → ℕ → Prop) (d : DuplicateOf) : Prop where
  earlier : ∀ {i j}, d i = some j → j < i
  unmarked : ∀ {i j}, d i = some j → d j = none
  alike : ∀ {i j}, d i = some j → similar j i
  reached : ∀ {a b}, compared a b → (∀ c, c ≤ a → (c = a ∨ similar c a) → similar c b) → d b ≠ none

/-- The candidate pairs in the order of their first chunk. -/
theorem verifyAll_spec {fuel : ℕ} (hfuel : 0 < fuel) {pairs : List (ℕ × ℕ)} :
    ∀ {last : ℕ} {d : DuplicateOf}, Marks similar last d →
      (∀ p ∈ pairs, last ≤ p.1 ∧ p.1 < p.2) → pairs.Pairwise (fun p q => p.1 ≤ q.1) →
      Grows d (pairs.foldl (verify similar fuel) d) ∧
        Covers similar (fun a b => (a, b) ∈ pairs) (pairs.foldl (verify similar fuel) d) := by
  induction pairs with
  | nil =>
      intro last d h _ _
      exact ⟨Grows.refl d, h.earlier, h.unmarked, h.alike, fun hp => absurd hp List.not_mem_nil⟩
  | cons p pairs ih =>
      intro last d h hpairs hsorted
      rw [List.forall_mem_cons] at hpairs
      rw [List.pairwise_cons] at hsorted
      have hone := verify_spec hfuel h hpairs.1.1 hpairs.1.2
      obtain ⟨hgrows, hcovers⟩ := ih hone.marks
        (fun q hq => ⟨hsorted.1 q hq, (hpairs.2 q hq).2⟩) hsorted.2
      refine ⟨hone.grows.trans hgrows, hcovers.earlier, hcovers.unmarked, hcovers.alike, ?_⟩
      intro a b hab hall
      rcases List.mem_cons.mp hab with rfl | hab
      · exact hgrows b (hone.reached hall)
      · exact hcovers.reached hab hall

theorem compare_of_ne (d : DuplicateOf) {a i j : ℕ} (hij : i ≠ j) : compare similar a d j i = d i := by
  unfold compare
  split
  · rfl
  · split
    · exact d.mark_of_ne a hij
    · rfl

/-- One row of the Python fallback. -/
theorem compareRow_spec {a : ℕ} {js : List ℕ} :
    ∀ {d : DuplicateOf}, Marks similar a d → d a = none → (∀ j ∈ js, a < j) →
      Marks similar a (js.foldl (compare similar a) d) ∧ Grows d (js.foldl (compare similar a) d) ∧
        ∀ b ∈ js, similar a b → js.foldl (compare similar a) d b ≠ none := by
  induction js with
  | nil => exact fun h _ _ => ⟨h, Grows.refl _, fun _ hb => absurd hb List.not_mem_nil⟩
  | cons j js ih =>
      intro d h ha hjs
      rw [List.forall_mem_cons] at hjs
      have hone := compare_spec h (Nat.le_refl a) hjs.1 ha
      have hkeep : compare similar a d j a = none := by
        rw [compare_of_ne d (Nat.ne_of_lt hjs.1)]
        exact ha
      obtain ⟨hmarks, hgrows, hreached⟩ := ih hone.marks hkeep hjs.2
      refine ⟨hmarks, hone.grows.trans hgrows, ?_⟩
      intro b hb hab
      rcases List.mem_cons.mp hb with rfl | hb
      · apply hgrows
        unfold compare
        by_cases hd : (d b).isSome = true
        · rw [if_pos hd]
          exact Option.isSome_iff_ne_none.mp hd
        · rw [if_neg hd, if_pos hab, DuplicateOf.mark_self]
          exact Option.some_ne_none a
      · exact hreached b hb hab

/-- One row, unless its chunk is a duplicate. -/
def compareRow (similar : ℕ → ℕ → Prop) [DecidableRel similar] (n : ℕ) (d : DuplicateOf) (i : ℕ) :
    DuplicateOf :=
  if (d i).isSome then d else (List.range' (i + 1) (n - (i + 1))).foldl (compare similar i) d

theorem compareRows_spec {n : ℕ} {rows : List ℕ} :
    ∀ {last : ℕ} {d : DuplicateOf}, Marks similar last d → (∀ i ∈ rows, last ≤ i) →
      rows.Pairwise (· ≤ ·) →
      (∃ last', Marks similar last' (rows.foldl (compareRow similar n) d)) ∧
        Grows d (rows.foldl (compareRow similar n) d) ∧
        ∀ a ∈ rows, rows.foldl (compareRow similar n) d a = none →
          ∀ b, a < b → b < n → similar a b → rows.foldl (compareRow similar n) d b ≠ none := by
  induction rows with
  | nil => exact fun h _ _ => ⟨⟨_, h⟩, Grows.refl _, fun _ ha => absurd ha List.not_mem_nil⟩
  | cons i rows ih =>
      intro last d h hrows hsorted
      rw [List.forall_mem_cons] at hrows
      rw [List.pairwise_cons] at hsorted
      rw [List.foldl_cons]
      by_cases hi : (d i).isSome = true
      · -- the row of a duplicate is left out, and the mark of its chunk stays
        have hrow : compareRow similar n d i = d := by
          unfold compareRow
          rw [if_pos hi]
        rw [hrow]
        obtain ⟨hmarks, hgrows, hreached⟩ := ih h hrows.2 hsorted.2
        refine ⟨hmarks, hgrows, ?_⟩
        intro a ha hnone
        rcases List.mem_cons.mp ha with rfl | ha
        · exact absurd hnone (hgrows a (Option.isSome_iff_ne_none.mp hi))
        · exact hreached a ha hnone
      · have hrow : compareRow similar n d i =
            (List.range' (i + 1) (n - (i + 1))).foldl (compare similar i) d := by
          unfold compareRow
          rw [if_neg hi]
        rw [hrow]
        have hnone : d i = none := Option.not_isSome_iff_eq_none.mp hi
        have hlt : ∀ j ∈ List.range' (i + 1) (n - (i + 1)), i < j := by
          intro j hj
          rw [List.mem_range'_1] at hj
          omega
        obtain ⟨hm, hg, hr⟩ := compareRow_spec (h.later hrows.1) hnone hlt
        obtain ⟨hmarks, hgrows, hreached⟩ := ih hm hsorted.1 hsorted.2
        refine ⟨hmarks, hg.trans hgrows, ?_⟩
        intro a ha hfinal b hab hbn hsim
        rcases List.mem_cons.mp ha with rfl | ha
        · apply hgrows
          apply hr b ?_ hsim
          rw [List.mem_range'_1]
          omega
        · exact hreached a ha hfinal b hab hbn hsim

/-- **All rows.**  A pair whose first chunk is a duplicate was compared as the pair of its
representative. -/
theorem compareAll_spec (n : ℕ) :
    Covers similar (fun a b => a < b ∧ b < n)
      ((List.range n).foldl (compareRow similar n) fun _ => none) := by
  have hsorted : (List.range n).Pairwise (· ≤ ·) := List.pairwise_le_range
  obtain ⟨⟨_, hmarks⟩, -, hreached⟩ :=
    compareRows_spec (n := n) (@Marks.empty similar) (fun i _ => Nat.zero_le i) hsorted
  refine ⟨hmarks.earlier, hmarks.unmarked, hmarks.alike, ?_⟩
  rintro a b ⟨hab, hbn⟩ hall
  cases ha : (List.range n).foldl (compareRow similar n) (fun _ => none) a with
  | none =>
      apply hreached a (List.mem_range.mpr (Nat.lt_trans hab hbn)) ha b hab hbn
      exact hall a (Nat.le_refl a) (Or.inl rfl)
  | some c =>
      have hca := hmarks.earlier ha
      apply hreached c (List.mem_range.mpr (by omega)) (hmarks.unmarked ha) b (by omega) hbn
      exact hall c (Nat.le_of_lt hca) (Or.inr (hmarks.alike ha))

end Loops

/-! ## Bands -/

section Bands

variable {D : Type} [LT D] [DecidableLT D]

/-- `optimal_bands`.  `gap` is the distance of the approximate threshold of so many bands and rows
from the threshold, `worst` is `f64::MAX`. -/
def optimalBands (gap : ℕ → ℕ → D) (worst : D) (numPerm : ℕ) : ℕ :=
  ((List.range' 1 numPerm).foldl (fun best bands =>
    let rows := numPerm / bands
    if rows = 0 ∨ bands * rows ≠ numPerm then best
    else if gap bands rows < best.2 then (bands, gap bands rows) else best) (1, worst)).1

theorem one_le_optimalBands (gap : ℕ → ℕ → D) (worst : D) (numPerm : ℕ) :
    1 ≤ optimalBands gap worst numPerm := by
  unfold optimalBands
  have hfold : ∀ (bs : List ℕ) (best : ℕ × D), (∀ b ∈ bs, 1 ≤ b) → 1 ≤ best.1 →
      1 ≤ (bs.foldl (fun best bands =>
        let rows := numPerm / bands
        if rows = 0 ∨ bands * rows ≠ numPerm then best
        else if gap bands rows < best.2 then (bands, gap bands rows) else best) best).1 := by
    intro bs
    induction bs with
    | nil => exact fun _ _ h => h
    | cons b bs ih =>
        intro best hbs hbest
        rw [List.forall_mem_cons] at hbs
        apply ih _ hbs.2
        simp only
        split
        · exact hbest
        · split
          · exact hbs.1
          · exact hbest
  apply hfold _ _ _ (Nat.le_refl 1)
  intro b hb
  rw [List.mem_range'_1] at hb
  exact hb.1

variable {H B : Type} [DecidableEq B] (hashBand : List H → B)

/-- The bucket of each band of a signature. -/
def bucketKeys (bands rows : ℕ) (sig : List H) : List (ℕ × B) :=
  (List.range bands).map fun bandIdx => (bandIdx, hashBand ((sig.drop (bandIdx * rows)).take rows))

/-- `buckets.entry((band_idx, band_hash)).or_default().push(idx)`, in the order of the loops. -/
def bucketEntries (bands rows : ℕ) (signatures : List (List H)) : List ((ℕ × B) × ℕ) :=
  signatures.zipIdx.flatMap fun p => (bucketKeys hashBand bands rows p.1).map fun key => (key, p.2)

/-- `buckets.values()` -/
def bucketMembers (bands rows : ℕ) (signatures : List (List H)) : List (List ℕ) :=
  (Grouping.groupBy Prod.fst (bucketEntries hashBand bands rows signatures)).items.map
    fun e => e.2.map Prod.snd

/-- The pairs of a bucket, each with the smaller index in front. -/
def pairsOf : List ℕ → List (ℕ × ℕ)
  | [] => []
  | a :: rest => rest.map (fun b => if a < b then (a, b) else (b, a)) ++ pairsOf rest

/-- `candidate_pairs`, sorted. -/
def candidatePairs (bands rows : ℕ) (signatures : List (List H)) : List (ℕ × ℕ) :=
  (((bucketMembers hashBand bands rows signatures).flatMap pairsOf).dedup).mergeSort
    fun p q => decide (toLex p ≤ toLex q)

theorem mem_pairsOf {l : List ℕ} (hl : l.Pairwise (· < ·)) {a b : ℕ} :
    (a, b) ∈ pairsOf l ↔ a ∈ l ∧ b ∈ l ∧ a < b := by
  induction l with
  | nil => simp [pairsOf]
  | cons x l ih =>
      rw [List.pairwise_cons] at hl
      rw [pairsOf, List.mem_append, ih hl.2, List.mem_map]
      constructor
      · rintro (⟨y, hy, heq⟩ | ⟨ha, hb, hab⟩)
        · rw [if_pos (hl.1 y hy), Prod.mk.injEq] at heq
          obtain ⟨rfl, rfl⟩ := heq
          exact ⟨List.mem_cons_self, List.mem_cons_of_mem _ hy, hl.1 y hy⟩
        · exact ⟨List.mem_cons_of_mem _ ha, List.mem_cons_of_mem _ hb, hab⟩
      · rintro ⟨ha, hb, hab⟩
        rcases List.mem_cons.mp ha with rfl | hal
        · rcases List.mem_cons.mp hb with rfl | hbl
          · exact absurd hab (Nat.lt_irrefl _)
          · exact Or.inl ⟨b, hbl, by rw [if_pos hab]⟩
        · rcases List.mem_cons.mp hb with rfl | hbl
          · exact absurd hab (Nat.lt_asymm (hl.1 a hal))
          · exact Or.inr ⟨hal, hbl, hab⟩

variable {hashBand} {bands rows : ℕ} {signatures : List (List H)}

omit [DecidableEq B] in
theorem nodup_bucketKeys (sig : List H) : (bucketKeys hashBand bands rows sig).Nodup := by
  apply List.Nodup.of_map Prod.fst
  unfold bucketKeys
  rw [List.map_map]
  have hid : (Prod.fst ∘ fun bandIdx =>
      (bandIdx, hashBand ((sig.drop (bandIdx * rows)).take rows))) = id := rfl
  rw [hid, List.map_id]
  exact List.nodup_range

omit [DecidableEq B] in
/-- A chunk is in a bucket once, and the buckets keep the order of the chunks. -/
theorem pairwise_bucketEntries : (bucketEntries hashBand bands rows signatures).Pairwise
    fun e e' => e.1 = e'.1 → e.2 < e'.2 := by
  unfold bucketEntries
  rw [List.pairwise_flatMap]
  constructor
  · intro p _
    rw [List.pairwise_map]
    exact (nodup_bucketKeys p.1).imp fun hne heq => absurd heq hne
  · have hidx : (signatures.zipIdx.map Prod.snd).Pairwise (· < ·) := by
      rw [List.zipIdx_map_snd]
      exact List.pairwise_lt_range' ..
    rw [List.pairwise_map] at hidx
    refine hidx.imp ?_
    intro p q hpq e he e' he' _
    rw [List.mem_map] at he he'
    obtain ⟨_, _, rfl⟩ := he
    obtain ⟨_, _, rfl⟩ := he'
    exact hpq

omit [DecidableEq B] in
theorem mem_bucketEntries {key : ℕ × B} {i : ℕ} :
    (key, i) ∈ bucketEntries hashBand bands rows signatures ↔
      ∃ sig, signatures[i]? = some sig ∧ key ∈ bucketKeys hashBand bands rows sig := by
  unfold bucketEntries
  rw [List.mem_flatMap]
  constructor
  · rintro ⟨⟨sig, j⟩, hsig, hmem⟩
    rw [List.mem_map] at hmem
    obtain ⟨key', hkey, heq⟩ := hmem
    rw [Prod.mk.injEq] at heq
    obtain ⟨rfl, rfl⟩ := heq
    exact ⟨sig, List.mem_zipIdx_iff_getElem?.mp hsig, hkey⟩
  · rintro ⟨sig, hsig, hkey⟩
    exact ⟨(sig, i), List.mem_zipIdx_iff_getElem?.mpr hsig, List.mem_map.mpr ⟨key, hkey, rfl⟩⟩

/-- The buckets, each with the chunks that have its key. -/
theorem mem_bucketMembers {members : List ℕ} :
    members ∈ bucketMembers hashBand bands rows signatures ↔
      ∃ e ∈ bucketEntries hashBand bands rows signatures,
        members = ((bucketEntries hashBand bands rows signatures).filter
          fun e' => e'.1 = e.1).map Prod.snd := by
  have hgroups : bucketMembers hashBand bands rows signatures =
      (Grouping.groups Prod.fst (bucketEntries hashBand bands rows signatures)).map
        (List.map Prod.snd) := by
    unfold bucketMembers Grouping.groups
    rw [Grouping.items_groupBy, List.map_map, List.map_map]
    rfl
  rw [hgroups, List.mem_map]
  constructor
  · rintro ⟨g, hg, rfl⟩
    obtain ⟨e, he, rfl⟩ := Grouping.mem_groups.mp hg
    exact ⟨e, he, rfl⟩
  · rintro ⟨e, he, rfl⟩
    exact ⟨_, Grouping.mem_groups.mpr ⟨e, he, rfl⟩, rfl⟩

theorem pairwise_bucketMembers {members : List ℕ}
    (h : members ∈ bucketMembers hashBand bands rows signatures) : members.Pairwise (· < ·) := by
  obtain ⟨e₀, -, rfl⟩ := mem_bucketMembers.mp h
  rw [List.pairwise_map]
  have hkeys : ((bucketEntries hashBand bands rows signatures).filter fun e => e.1 = e₀.1).Pairwise
      fun e e' => e.1 = e'.1 → e.2 < e'.2 := pairwise_bucketEntries.filter _
  refine hkeys.imp_of_mem ?_
  intro e e' he he' hlt
  rw [List.mem_filter, decide_eq_true_eq] at he he'
  exact hlt (he.2.trans he'.2.symm)

/-- **The candidate pairs**: two different chunks with a band in common. -/
theorem mem_candidatePairs {a b : ℕ} :
    (a, b) ∈ candidatePairs hashBand bands rows signatures ↔
      a < b ∧ ∃ key sigA sigB, signatures[a]? = some sigA ∧ signatures[b]? = some sigB ∧
        key ∈ bucketKeys hashBand bands rows sigA ∧ key ∈ bucketKeys hashBand bands rows sigB := by
  unfold candidatePairs
  rw [List.mem_mergeSort, List.mem_dedup, List.mem_flatMap]
  have hmem : ∀ key i, i ∈ ((bucketEntries hashBand bands rows signatures).filter
      fun e => e.1 = key).map Prod.snd ↔ (key, i) ∈ bucketEntries hashBand bands rows signatures := by
    intro key i
    rw [List.mem_map]
    constructor
    · rintro ⟨⟨key', j⟩, he, rfl⟩
      rw [List.mem_filter, decide_eq_true_eq] at he
      rw [← he.2]
      exact he.1
    · intro he
      exact ⟨(key, i), List.mem_filter.mpr ⟨he, decide_eq_true rfl⟩, rfl⟩
  constructor
  · rintro ⟨members, hmembers, hab⟩
    rw [mem_pairsOf (pairwise_bucketMembers hmembers)] at hab
    obtain ⟨⟨key, _⟩, -, rfl⟩ := mem_bucketMembers.mp hmembers
    rw [hmem, hmem, mem_bucketEntries, mem_bucketEntries] at hab
    obtain ⟨⟨sigA, hA, hkeyA⟩, ⟨sigB, hB, hkeyB⟩, hlt⟩ := hab
    exact ⟨hlt, key, sigA, sigB, hA, hB, hkeyA, hkeyB⟩
  · rintro ⟨hlt, key, sigA, sigB, hA, hB, hkeyA, hkeyB⟩
    have hmemA := (hmem key a).mpr (mem_bucketEntries.mpr ⟨sigA, hA, hkeyA⟩)
    have hmemB := (hmem key b).mpr (mem_bucketEntries.mpr ⟨sigB, hB, hkeyB⟩)
    have hbucket := (@mem_bucketMembers _ _ _ hashBand bands rows signatures _).mpr
      ⟨(key, a), mem_bucketEntries.mpr ⟨sigA, hA, hkeyA⟩, rfl⟩
    exact ⟨_, hbucket, (mem_pairsOf (pairwise_bucketMembers hbucket)).mpr ⟨hmemA, hmemB, hlt⟩⟩

theorem pairwise_candidatePairs :
    (candidatePairs hashBand bands rows signatures).Pairwise fun p q => p.1 ≤ q.1 := by
  refine (SortBy.pairwise_mergeSort toLex _).imp ?_
  intro p q hpq
  rcases Prod.Lex.toLex_le_toLex.mp hpq with hlt | heq
  · exact Nat.le_of_lt hlt
  · exact Nat.le_of_eq heq.1

end Bands

/-! ## Deduplication -/

section Backends

variable {C H B D : Type} [DecidableEq H] [DecidableEq B] [LT D] [DecidableLT D] {numPerm : ℕ}

/-- `signatures[i]` -/
def sigAt (signatures : List (List H)) (i : ℕ) : List H := (signatures[i]?).getD []

/-- `sim >= threshold`, the similarity of the signatures of two chunks. -/
def SimilarAt (signatures : List (List H)) (threshold : WithBot ℚ) (i j : ℕ) : Prop :=
  threshold ≤ (minhashSimilarity (sigAt signatures i) (sigAt signatures j) : ℚ)

instance (signatures : List (List H)) (threshold : WithBot ℚ) : DecidableRel (SimilarAt signatures threshold) :=
  fun i j => inferInstanceAs (Decidable
    (threshold ≤ ((minhashSimilarity (sigAt signatures i) (sigAt signatures j) : ℚ) : WithBot ℚ)))

/-- The same with `num_perm` for the length. -/
def PySimilarAt (signatures : List (List H)) (numPerm : ℕ) (threshold : WithBot ℚ) (i j : ℕ) : Prop :=
  Reaches threshold numPerm (matching (sigAt signatures i) (sigAt signatures j))

instance (signatures : List (List H)) (numPerm : ℕ) (threshold : WithBot ℚ) :
    DecidableRel (PySimilarAt signatures numPerm threshold) :=
  fun i j => inferInstanceAs (Decidable
    (Reaches threshold numPerm (matching (sigAt signatures i) (sigAt signatures j))))

/-- `deduplicate_chunks_inner` -/
def deduplicateChunksInner (signature : C → List.Vector H numPerm) (hashBand : List H → B)
    (gap : ℕ → ℕ → D) (worst : D) (threshold : WithBot ℚ) (chunks : List C) : List (ℕ × Option ℕ) :=
  let n := chunks.length
  let signatures := chunks.map fun c => (signature c).toList
  let bands := optimalBands gap worst numPerm
  let rows := numPerm / bands
  let duplicateOf := (candidatePairs hashBand bands rows signatures).foldl
    (verify (SimilarAt signatures threshold) n) fun _ => none
  (List.range n).map fun i => (i, duplicateOf i)

/-- `_py_deduplicate_chunks` -/
def pyDeduplicateChunks (signature : C → List.Vector H numPerm) (threshold : WithBot ℚ) (chunks : List C) :
    List (ℕ × Option ℕ) :=
  let n := chunks.length
  let signatures := chunks.map fun c => (signature c).toList
  let duplicateOf := (List.range n).foldl (compareRow (PySimilarAt signatures numPerm threshold) n)
    fun _ => none
  (List.range n).map fun i => (i, duplicateOf i)

/-- A flat mapping to earlier chunks with enough equal places, which finds every repetition. -/
structure FlatDedup (signatures : List (List H)) (enough : ℕ → Prop) (result : List (ℕ × Option ℕ)) :
    Prop where
  indices : result.map Prod.fst = List.range signatures.length
  canonical : ∀ i j, (i, some j) ∈ result →
    j < i ∧ (j, none) ∈ result ∧ enough (matching (sigAt signatures j) (sigAt signatures i))
  repeated : ∀ i j, i < j → j < signatures.length → sigAt signatures i = sigAt signatures j →
    ∃ c, (j, some c) ∈ result

variable {signatures : List (List H)} {threshold : WithBot ℚ}

omit [DecidableEq H] in
theorem length_sigAt (hlen : ∀ sig ∈ signatures, sig.length = numPerm) {i : ℕ}
    (hi : i < signatures.length) : (sigAt signatures i).length = numPerm := by
  unfold sigAt
  rw [List.getElem?_eq_getElem hi, Option.getD_some]
  exact hlen _ (List.getElem_mem hi)

/-- On signatures of full length the two similarity tests are one. -/
theorem similarAt_iff (hlen : ∀ sig ∈ signatures, sig.length = numPerm) {i : ℕ}
    (hi : i < signatures.length) (j : ℕ) :
    SimilarAt signatures threshold i j ↔ PySimilarAt signatures numPerm threshold i j := by
  unfold SimilarAt PySimilarAt Reaches minhashSimilarity
  rw [length_sigAt hlen hi]

theorem similar_of_eq (hlen : ∀ sig ∈ signatures, sig.length = numPerm) (hperm : 1 ≤ numPerm)
    (hthr : threshold ≤ (1 : ℚ)) {i j : ℕ} (hi : i < signatures.length)
    (heq : sigAt signatures i = sigAt signatures j) : PySimilarAt signatures numPerm threshold i j := by
  unfold PySimilarAt Reaches
  rw [← heq, matching_self, length_sigAt hlen hi, div_self, Binary64.nearest_one]
  · exact hthr
  · have : numPerm ≠ 0 := by omega
    exact_mod_cast this

/-- What the comparisons of all pairs with equal signatures give. -/
theorem flatDedup_of_covers (hlen : ∀ sig ∈ signatures, sig.length = numPerm) (hperm : 1 ≤ numPerm)
    (hthr : threshold ≤ (1 : ℚ)) {similar compared : ℕ → ℕ → Prop} {d : DuplicateOf}
    (hsimilar : ∀ i j, i < signatures.length →
      (similar i j ↔ PySimilarAt signatures numPerm threshold i j))
    (hcompared : ∀ i j, i < j → j < signatures.length → sigAt signatures i = sigAt signatures j →
      compared i j)
    (h : Covers similar compared d) :
    FlatDedup signatures (Reaches threshold numPerm) ((List.range signatures.length).map fun i => (i, d i)) := by
  have hmem : ∀ i o, (i, o) ∈ (List.range signatures.length).map (fun i => (i, d i)) ↔
      i < signatures.length ∧ d i = o := by
    intro i o
    rw [List.mem_map]
    constructor
    · rintro ⟨k, hk, heq⟩
      rw [Prod.mk.injEq] at heq
      obtain ⟨rfl, rfl⟩ := heq
      exact ⟨List.mem_range.mp hk, rfl⟩
    · rintro ⟨hi, rfl⟩
      exact ⟨i, List.mem_range.mpr hi, rfl⟩
  refine ⟨?_, ?_, ?_⟩
  · rw [List.map_map]
    exact List.map_id _
  · intro i j hij
    obtain ⟨hi, hd⟩ := (hmem i _).mp hij
    have hji := h.earlier hd
    have hj : j < signatures.length := Nat.lt_trans hji hi
    exact ⟨hji, (hmem j none).mpr ⟨hj, h.unmarked hd⟩, (hsimilar j i hj).mp (h.alike hd)⟩
  · intro i j hij hj heq
    have hi : i < signatures.length := Nat.lt_trans hij hj
    have hreach : d j ≠ none := by
      apply h.reached (hcompared i j hij hj heq)
      rintro c hci (rfl | hc)
      · exact (hsimilar c j hi).mpr (similar_of_eq hlen hperm hthr hi heq)
      · have hcn : c < signatures.length := Nat.lt_of_le_of_lt hci hi
        rw [hsimilar c i hcn] at hc
        rw [hsimilar c j hcn]
        unfold PySimilarAt at hc ⊢
        rw [← heq]
        exact hc
    obtain ⟨c, hc⟩ := Option.ne_none_iff_exists'.mp hreach
    exact ⟨c, (hmem j _).mpr ⟨hj, hc⟩⟩

theorem inner_flat (signature : C → List.Vector H numPerm) (hashBand : List H → B)
    (gap : ℕ → ℕ → D) (worst : D) (hperm : 1 ≤ numPerm) (hthr : threshold ≤ (1 : ℚ)) (chunks : List C) :
    FlatDedup (chunks.map fun c => (signature c).toList) (Reaches threshold numPerm)
      (deduplicateChunksInner signature hashBand gap worst threshold chunks) := by
  have hlen : ∀ sig ∈ chunks.map (fun c => (signature c).toList), sig.length = numPerm := by
    intro sig hsig
    obtain ⟨c, -, rfl⟩ := List.mem_map.mp hsig
    exact (signature c).toList_length
  have hn : (chunks.map fun c => (signature c).toList).length = chunks.length := List.length_map _
  unfold deduplicateChunksInner
  simp only
  rw [← hn]
  generalize chunks.map (fun c => (signature c).toList) = signatures at hlen ⊢
  have hbands := one_le_optimalBands gap worst numPerm
  generalize optimalBands gap worst numPerm = bands at hbands ⊢
  by_cases hempty : signatures.length = 0
  · rw [hempty]
    refine ⟨by rw [hempty]; rfl, fun i j hij => absurd hij List.not_mem_nil, ?_⟩
    intro i j _ hj _
    omega
  · have hsorted : (candidatePairs hashBand bands (numPerm / bands) signatures).Pairwise
        fun p q => p.1 ≤ q.1 := pairwise_candidatePairs
    have hspec := verifyAll_spec (Nat.pos_of_ne_zero hempty) (@Marks.empty (SimilarAt signatures threshold))
      (fun p hp => ⟨Nat.zero_le _, (mem_candidatePairs.mp hp).1⟩) hsorted
    apply flatDedup_of_covers hlen hperm hthr (fun i j hi => similarAt_iff hlen hi j) ?_ hspec.2
    intro i j hij hj heq
    have hi : i < signatures.length := Nat.lt_trans hij hj
    -- equal signatures meet in the first band
    unfold sigAt at heq
    rw [List.getElem?_eq_getElem hi, List.getElem?_eq_getElem hj, Option.getD_some,
      Option.getD_some] at heq
    have hkey : (0, hashBand ((signatures[j].drop (0 * (numPerm / bands))).take (numPerm / bands))) ∈
        bucketKeys hashBand bands (numPerm / bands) signatures[j] :=
      List.mem_map.mpr ⟨0, List.mem_range.mpr hbands, rfl⟩
    refine mem_candidatePairs.mpr ⟨hij, _, _, _, List.getElem?_eq_getElem hi,
      List.getElem?_eq_getElem hj, ?_, hkey⟩
    rw [heq]
    exact hkey

theorem py_flat (signature : C → List.Vector H numPerm) (hperm : 1 ≤ numPerm) (hthr : threshold ≤ (1 : ℚ))
    (chunks : List C) :
    FlatDedup (chunks.map fun c => (signature c).toList) (Reaches threshold numPerm)
      (pyDeduplicateChunks signature threshold chunks) := by
  have hlen : ∀ sig ∈ chunks.map (fun c => (signature c).toList), sig.length = numPerm := by
    intro sig hsig
    obtain ⟨c, -, rfl⟩ := List.mem_map.mp hsig
    exact (signature c).toList_length
  have hn : (chunks.map fun c => (signature c).toList).length = chunks.length := List.length_map _
  unfold pyDeduplicateChunks
  simp only
  rw [← hn]
  generalize chunks.map (fun c => (signature c).toList) = signatures at hlen ⊢
  exact flatDedup_of_covers hlen hperm hthr (fun _ _ _ => Iff.rfl) (fun i j hij hj _ => ⟨hij, hj⟩)
    (compareAll_spec signatures.length)

variable {H' : Type} [DecidableEq H']

/-- **Deduplication is flat and finds every repetition**, on either backend, for every signature
function and band hash. -/
theorem dedup_flat (signature : C → List.Vector H numPerm) (hashBand : List H → B)
    (gap : ℕ → ℕ → D) (worst : D) (pySignature : C → List.Vector H' numPerm) (hperm : 1 ≤ numPerm)
    (hthr : threshold ≤ (1 : ℚ)) (chunks : List C) :
    FlatDedup (chunks.map fun c => (signature c).toList) (Reaches threshold numPerm)
        (deduplicateChunksInner signature hashBand gap worst threshold chunks) ∧
      FlatDedup (chunks.map fun c => (pySignature c).toList) (Reaches threshold numPerm)
        (pyDeduplicateChunks pySignature threshold chunks) :=
  ⟨inner_flat signature hashBand gap worst hperm hthr chunks, py_flat pySignature hperm hthr chunks⟩

/-- The signature that holds the length forty-five times and fifty-five zeros. -/
def lengthSignature (c : String) : List.Vector ℕ 100 :=
  ⟨List.replicate 45 c.length ++ List.replicate 55 0, by rw [List.length_append, List.length_replicate,
    List.length_replicate]⟩

/-- A repeated text, a similar one and the threshold 0.55. -/
theorem dedup_flat_repeated :
    FlatDedup (["go", "go", "stay"].map fun c => (lengthSignature c).toList)
        (Reaches (Binary64.nearest (55 / 100) : ℚ) 100)
        (deduplicateChunksInner lengthSignature List.sum (fun bands _ => bands) 100
          (Binary64.nearest (55 / 100) : ℚ) ["go", "go", "stay"]) ∧
      FlatDedup (["go", "go", "stay"].map fun c => (lengthSignature c).toList)
        (Reaches (Binary64.nearest (55 / 100) : ℚ) 100)
        (pyDeduplicateChunks lengthSignature (Binary64.nearest (55 / 100) : ℚ) ["go", "go", "stay"]) :=
  dedup_flat lengthSignature List.sum (fun bands _ => bands) 100 lengthSignature (by decide) (by decide +kernel) _

/-- **The share is rounded.**  The double 0.55 is above 55 hundredths, and 55 equal places of 100 reach it, though
they are below its product with 100. -/
theorem dedup_rounds :
    ¬FlatDedup (["go", "stay"].map fun c => (lengthSignature c).toList)
        (fun equal => Binary64.nearest (55 / 100) * 100 ≤ equal)
        (deduplicateChunksInner lengthSignature List.sum (fun bands _ => 100 - bands) 100
          (Binary64.nearest (55 / 100) : ℚ) ["go", "stay"]) ∧
      ¬FlatDedup (["go", "stay"].map fun c => (lengthSignature c).toList)
        (fun equal => Binary64.nearest (55 / 100) * 100 ≤ equal)
        (pyDeduplicateChunks lengthSignature (Binary64.nearest (55 / 100) : ℚ) ["go", "stay"]) := by
  have hbelow : ¬Binary64.nearest (55 / 100) * 100 ≤ (55 : ℕ) := by decide +kernel
  constructor
  · intro h
    exact hbelow (h.canonical 1 0 (by decide +kernel)).2.2
  · intro h
    exact hbelow (h.canonical 1 0 (by decide +kernel)).2.2

end Backends

end ChunkDedup

end Khora
