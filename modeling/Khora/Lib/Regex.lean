import Mathlib.Data.List.Basic
import Mathlib.Data.List.DropRight
import Mathlib.Data.List.Forall2

/-!
# Regular expressions with word boundaries

Patterns over character classes, the positions at which a match can end, and what it means
for a part of a text to be a match in its context.

* `mem_ends_iff` — the matcher finds exactly the matches.
-/

inductive Regex (α : Type) where
  | empty
  | one (p : α → Bool)
  | many (p : α → Bool)
  | boundary
  | seq (a b : Regex α)
  | alt (a b : Regex α)

namespace Regex

variable {α : Type} (word : α → Bool)

/-! ## Matching -/

/-- The last element is a word character. -/
def endsWord (pre : List α) : Bool := pre.getLast?.any word

/-- The first element is a word character. -/
def startsWord (post : List α) : Bool := post.head?.any word

/-- The positions after a run of elements of a class. -/
def manyEnds (p : α → Bool) : List α → List α → List (List α × List α)
  | pre, [] => [(pre, [])]
  | pre, c :: post => (pre, c :: post) :: if p c then manyEnds p (pre ++ [c]) post else []

/-- The positions at which a match can end that begins between `pre` and `post`. -/
def ends : Regex α → List α → List α → List (List α × List α)
  | .empty, pre, post => [(pre, post)]
  | .one _, _, [] => []
  | .one p, pre, c :: post => if p c then [(pre ++ [c], post)] else []
  | .many p, pre, post => manyEnds p pre post
  | .boundary, pre, post => if endsWord word pre != startsWord word post then [(pre, post)] else []
  | .seq a b, pre, post => (ends a pre post).flatMap fun pos => ends b pos.1 pos.2
  | .alt a b, pre, post => ends a pre post ++ ends b pre post

/-! ## Matches -/

/-- Between `pre` and `post`, `mid` is a match. -/
def Spans : Regex α → List α → List α → List α → Prop
  | .empty, _, mid, _ => mid = []
  | .one p, _, mid, _ => ∃ c, mid = [c] ∧ p c = true
  | .many p, _, mid, _ => ∀ c ∈ mid, p c = true
  | .boundary, pre, mid, post => mid = [] ∧ endsWord word pre ≠ startsWord word post
  | .seq a b, pre, mid, post =>
      ∃ m m', mid = m ++ m' ∧ Spans a pre m (m' ++ post) ∧ Spans b (pre ++ m) m' post
  | .alt a b, pre, mid, post => Spans a pre mid post ∨ Spans b pre mid post

theorem mem_manyEnds (p : α → Bool) (pre post : List α) (pos : List α × List α) :
    pos ∈ manyEnds p pre post ↔
      ∃ mid, post = mid ++ pos.2 ∧ pos.1 = pre ++ mid ∧ ∀ c ∈ mid, p c = true := by
  induction post generalizing pre with
  | nil =>
      simp only [manyEnds, List.mem_singleton, List.nil_eq, List.append_eq_nil_iff]
      constructor
      · rintro rfl
        exact ⟨[], ⟨rfl, rfl⟩, (List.append_nil _).symm, fun _ h => by cases h⟩
      · rintro ⟨mid, ⟨rfl, h⟩, h', -⟩
        rw [List.append_nil] at h'
        exact Prod.ext h' h
  | cons c post ih =>
      rw [manyEnds, List.mem_cons]
      constructor
      · rintro (rfl | h)
        · exact ⟨[], rfl, (List.append_nil _).symm, fun _ h => by cases h⟩
        · split at h
          case isTrue hc =>
            obtain ⟨mid, hpost, hpre, hmid⟩ := (ih _).mp h
            refine ⟨c :: mid, by rw [hpost, List.cons_append], by rw [hpre, List.append_assoc]; rfl, ?_⟩
            exact List.forall_mem_cons.mpr ⟨hc, hmid⟩
          case isFalse => cases h
      · rintro ⟨mid, hpost, hpre, hmid⟩
        cases mid with
        | nil =>
            left
            rw [List.append_nil] at hpre
            exact Prod.ext hpre hpost.symm
        | cons d mid =>
            obtain ⟨rfl, hrest⟩ := List.cons.inj hpost
            rw [List.forall_mem_cons] at hmid
            right
            rw [if_pos hmid.1]
            exact (ih _).mpr ⟨mid, hrest, by rw [hpre, List.append_assoc]; rfl, hmid.2⟩

/-- **The matcher finds exactly the matches.** -/
theorem mem_ends_iff (r : Regex α) (pre post : List α) (pos : List α × List α) :
    pos ∈ ends word r pre post ↔
      ∃ mid, post = mid ++ pos.2 ∧ pos.1 = pre ++ mid ∧ Spans word r pre mid pos.2 := by
  induction r generalizing pre post pos with
  | empty =>
      simp only [ends, Spans, List.mem_singleton]
      constructor
      · rintro rfl
        exact ⟨[], rfl, (List.append_nil _).symm, rfl⟩
      · rintro ⟨mid, hpost, hpre, rfl⟩
        rw [List.append_nil] at hpre
        exact Prod.ext hpre hpost.symm
  | one p =>
      cases post with
      | nil =>
          simp only [ends, Spans, List.not_mem_nil, false_iff]
          rintro ⟨mid, hpost, -, c, rfl, -⟩
          cases hpost
      | cons c post =>
          simp only [ends, Spans]
          constructor
          · intro h
            split at h
            case isTrue hc =>
              obtain rfl := List.mem_singleton.mp h
              exact ⟨[c], rfl, rfl, c, rfl, hc⟩
            case isFalse => cases h
          · rintro ⟨mid, hpost, hpre, d, rfl, hd⟩
            obtain ⟨rfl, hrest⟩ := List.cons.inj hpost
            rw [if_pos hd, List.mem_singleton]
            exact Prod.ext hpre hrest.symm
  | many p => exact mem_manyEnds p pre post pos
  | boundary =>
      simp only [ends, Spans]
      constructor
      · intro h
        split at h
        case isTrue hb =>
          obtain rfl := List.mem_singleton.mp h
          exact ⟨[], rfl, (List.append_nil _).symm, rfl, bne_iff_ne.mp hb⟩
        case isFalse => cases h
      · rintro ⟨mid, hpost, hpre, rfl, hb⟩
        rw [List.nil_append] at hpost
        rw [List.append_nil] at hpre
        subst hpost
        rw [if_pos (bne_iff_ne.mpr hb), List.mem_singleton]
        exact Prod.ext hpre rfl
  | seq a b iha ihb =>
      simp only [ends, Spans, List.mem_flatMap]
      constructor
      · rintro ⟨pos', ha, hb⟩
        obtain ⟨m, hpost, hpre, ha⟩ := (iha _ _ _).mp ha
        obtain ⟨m', hpost', hpre', hb⟩ := (ihb _ _ _).mp hb
        rw [hpost'] at ha
        rw [hpre] at hb
        refine ⟨m ++ m', ?_, ?_, m, m', rfl, ha, hb⟩
        · rw [hpost, hpost', List.append_assoc]
        · rw [hpre', hpre, List.append_assoc]
      · rintro ⟨mid, hpost, hpre, m, m', rfl, ha, hb⟩
        rw [List.append_assoc] at hpost
        refine ⟨(pre ++ m, m' ++ pos.2), (iha _ _ _).mpr ⟨m, hpost, rfl, ha⟩, ?_⟩
        exact (ihb _ _ _).mpr ⟨m', rfl, by rw [hpre, List.append_assoc], hb⟩
  | alt a b iha ihb =>
      simp only [ends, Spans, List.mem_append, iha, ihb]
      constructor
      · rintro (⟨mid, hpost, hpre, h⟩ | ⟨mid, hpost, hpre, h⟩)
        · exact ⟨mid, hpost, hpre, .inl h⟩
        · exact ⟨mid, hpost, hpre, .inr h⟩
      · rintro ⟨mid, hpost, hpre, h | h⟩
        · exact .inl ⟨mid, hpost, hpre, h⟩
        · exact .inr ⟨mid, hpost, hpre, h⟩

end Regex
