import Khora.Lib.Regex

/-!
# Globs

Patterns of literal elements, `?` for any one element and `*` for any run of elements, and their
translation to a regular expression between `^` and `$`.

* `spans_compile_iff` — the translation matches what the glob matches.
* `matchLine_iff` — `$` also stands before a line break at the end of the text.
-/

namespace Glob

variable {α : Type}

inductive Token (α : Type) where
  | star
  | any
  | lit (a : α)

/-- The whole text matches the glob. -/
inductive Matches : List (Token α) → List α → Prop
  | nil : Matches [] []
  | star {tokens : List (Token α)} {text : List α} (run : List α) :
      Matches tokens text → Matches (.star :: tokens) (run ++ text)
  | any {tokens : List (Token α)} {text : List α} (a : α) :
      Matches tokens text → Matches (.any :: tokens) (a :: text)
  | lit {tokens : List (Token α)} {text : List α} (a : α) :
      Matches tokens text → Matches (.lit a :: tokens) (a :: text)

variable [DecidableEq α]

/-- `*` as `.*` and `?` as `.`, where the dot stands for every element. -/
def compile : List (Token α) → Regex α
  | [] => .empty
  | .star :: tokens => .seq (.many fun _ => true) (compile tokens)
  | .any :: tokens => .seq (.one fun _ => true) (compile tokens)
  | .lit a :: tokens => .seq (.one (· = a)) (compile tokens)

/-- A match of `^pattern$`: `$` stands at the end, or before a line break there. -/
def matchLine (newline : α) (r : Regex α) (text : List α) : Bool :=
  (Regex.ends (fun _ => false) r [] text).any fun pos => pos.2 = [] || pos.2 = [newline]

/-- **The translation matches what the glob matches.** -/
theorem spans_compile_iff (word : α → Bool) (tokens : List (Token α)) (pre mid post : List α) :
    Regex.Spans word (compile tokens) pre mid post ↔ Matches tokens mid := by
  induction tokens generalizing pre mid with
  | nil =>
      constructor
      · rintro rfl
        exact .nil
      · intro h
        cases h
        rfl
  | cons t tokens ih =>
      cases t with
      | star =>
          constructor
          · rintro ⟨run, rest, rfl, -, hrest⟩
            exact .star run ((ih _ _).mp hrest)
          · intro h
            cases h with
            | star run hrest => exact ⟨run, _, rfl, fun _ _ => rfl, (ih _ _).mpr hrest⟩
      | any =>
          constructor
          · rintro ⟨one, rest, rfl, ⟨a, rfl, -⟩, hrest⟩
            exact .any a ((ih _ _).mp hrest)
          · intro h
            cases h with
            | any a hrest => exact ⟨[a], _, rfl, ⟨a, rfl, rfl⟩, (ih _ _).mpr hrest⟩
      | lit a =>
          constructor
          · rintro ⟨one, rest, rfl, ⟨b, rfl, hb⟩, hrest⟩
            rw [of_decide_eq_true hb]
            exact .lit a ((ih _ _).mp hrest)
          · intro h
            cases h with
            | lit _ hrest => exact ⟨[a], _, rfl, ⟨a, rfl, decide_eq_true rfl⟩, (ih _ _).mpr hrest⟩

/-- **`$` also stands before a line break at the end of the text.** -/
theorem matchLine_iff (newline : α) (tokens : List (Token α)) (text : List α) :
    matchLine newline (compile tokens) text = true ↔
      Matches tokens text ∨ ∃ line, text = line ++ [newline] ∧ Matches tokens line := by
  unfold matchLine
  rw [List.any_eq_true]
  constructor
  · rintro ⟨pos, hpos, hend⟩
    obtain ⟨mid, htext, -, hspans⟩ := (Regex.mem_ends_iff _ _ _ _ _).mp hpos
    have hmid := (spans_compile_iff _ _ _ _ _).mp hspans
    rw [Bool.or_eq_true, decide_eq_true_eq, decide_eq_true_eq] at hend
    obtain hend | hend := hend
    · rw [hend, List.append_nil] at htext
      exact .inl (htext ▸ hmid)
    · rw [hend] at htext
      exact .inr ⟨mid, htext, hmid⟩
  · have hmem : ∀ mid post, text = mid ++ post → Matches tokens mid →
        (mid, post) ∈ Regex.ends (fun _ => false) (compile tokens) [] text := by
      intro mid post htext hmid
      exact (Regex.mem_ends_iff _ _ _ _ _).mpr ⟨mid, htext, rfl, (spans_compile_iff _ _ _ _ _).mpr hmid⟩
    rintro (hmatch | ⟨line, htext, hline⟩)
    · exact ⟨_, hmem text [] (List.append_nil _).symm hmatch, by simp⟩
    · exact ⟨_, hmem line [newline] htext hline, by simp⟩

end Glob
