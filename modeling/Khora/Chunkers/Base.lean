import Khora.Accel.CharClass
import Khora.Lib.PySeq
import Khora.Lib.While

/-!
# The base of the chunkers

A `Chunker` carries what its constructor checks: the overlap is less than the size.  The tokenizer is a
parameter; without one a token is taken to be four characters.

* `init_ok_iff` — the constructor admits exactly the chunkers of this type.
* `tokenLoop_ends` — the loop over the tokens ends.
* `tokensCovered_tokenWindows` — its windows cover every token.
-/

namespace Khora

/-! ## Stripping -/

theorem exists_strip (s : List Char) :
    ∃ lead trail, s = lead ++ strip s ++ trail ∧
      (∀ x ∈ lead, pythonSpace x = true) ∧ ∀ x ∈ trail, pythonSpace x = true := by
  refine ⟨s.takeWhile pythonSpace, (s.dropWhile pythonSpace).rtakeWhile pythonSpace, ?_, ?_, ?_⟩
  · unfold strip
    rw [List.append_assoc, List.rdropWhile_append_rtakeWhile, List.takeWhile_append_dropWhile]
  · intro x hx
    exact List.mem_takeWhile_imp hx
  · intro x hx
    exact List.mem_rtakeWhile_imp hx

/-- Nothing but spaces strips to nothing. -/
theorem strip_eq_nil_iff {s : List Char} : strip s = [] ↔ ∀ x ∈ s, pythonSpace x = true := by
  obtain ⟨lead, trail, heq, hlead, htrail⟩ := exists_strip s
  constructor
  · intro h x hx
    rw [heq, h, List.append_nil, List.mem_append] at hx
    exact hx.elim (hlead x) (htrail x)
  · intro h
    unfold strip
    rw [List.dropWhile_eq_nil_iff.mpr h, List.rdropWhile_nil]

theorem length_strip_le (s : List Char) : (strip s).length ≤ s.length := by
  obtain ⟨lead, trail, heq, -, -⟩ := exists_strip s
  have hlen := congrArg List.length heq
  rw [List.length_append, List.length_append] at hlen
  omega

/-- A string with a character that is no space does not strip to nothing. -/
theorem strip_ne_nil {s : List Char} {x : Char} (hx : x ∈ s) (hspace : pythonSpace x = false) :
    strip s ≠ [] := by
  intro h
  rw [strip_eq_nil_iff.mp h x hx] at hspace
  cases hspace

namespace Chunkers

/-! ## Chunkers -/

/-- `MIN_CHUNK_CHARS` -/
def minChunkChars : ℕ := 10

/-- The tokenizer, on texts that spell no special token; `encode` raises on one like `<|endoftext|>`, and with it
the call. -/
structure Encoding where
  encode : List Char → List ℕ
  decode : List ℕ → List Char

structure Chunker where
  chunkSize : ℕ
  chunkOverlap : ℕ
  encoding : Option Encoding
  overlap_lt : chunkOverlap < chunkSize

structure ChunkResult where
  content : List Char
  index : ℕ
  startChar : ℤ
  endChar : ℤ
  tokenCount : ℕ
  chunker : String
deriving DecidableEq

/-- `Chunker.__init__` -/
def Chunker.init (chunkSize chunkOverlap : ℤ) (encoding : Option Encoding) : Except String Chunker :=
  if hneg : chunkOverlap < 0 then
    .error s!"chunk_overlap must be non-negative, got {chunkOverlap}"
  else if hlt : chunkOverlap ≥ chunkSize then
    .error s!"chunk_overlap ({chunkOverlap}) must be less than chunk_size ({chunkSize})"
  else
    .ok {
      chunkSize := chunkSize.toNat
      chunkOverlap := chunkOverlap.toNat
      encoding := encoding
      overlap_lt := by omega }

/-- **The constructor admits exactly the chunkers of this type.** -/
theorem init_ok_iff {chunkSize chunkOverlap : ℤ} {encoding : Option Encoding} {c : Chunker} :
    Chunker.init chunkSize chunkOverlap encoding = .ok c ↔
      c.chunkSize = chunkSize ∧ c.chunkOverlap = chunkOverlap ∧ c.encoding = encoding := by
  obtain ⟨size, overlap, enc, hlt⟩ := c
  unfold Chunker.init
  constructor
  · intro h
    split at h
    case isTrue => cases h
    case isFalse hneg =>
      split at h
      case isTrue => cases h
      case isFalse hge =>
        cases h
        exact ⟨by simp only; omega, by simp only; omega, rfl⟩
  · rintro ⟨hsize, hoverlap, rfl⟩
    simp only at hsize hoverlap
    rw [dif_neg (by omega), dif_neg (by omega)]
    congr 2 <;> omega

variable (c : Chunker)

/-- `count_tokens` -/
def Chunker.countTokens (text : List Char) : ℕ :=
  match c.encoding with
  | some encoding => (encoding.encode text).length
  | none => text.length / 4

/-- `filter_empty_chunks` -/
def filterEmptyChunks (chunks : List ChunkResult) : List ChunkResult :=
  ((chunks.filter fun r => strip r.content ≠ [] && minChunkChars ≤ (strip r.content).length).zipIdx).map
    fun r => { r.1 with index := r.2 }

/-! ## The loop over the tokens -/

/-- One turn of the loop over `total` tokens that `FixedChunker.chunk` and
`SemanticChunker._fixed_split` share: the start, and the windows so far.  A window that is not the last
is longer than the overlap, so its start does not fall below zero. -/
def tokenTurn (total : ℕ) (s : ℕ × List (ℕ × ℕ)) : ℕ × List (ℕ × ℕ) :=
  let stop := min (s.1 + c.chunkSize) total
  (if stop < total then stop - c.chunkOverlap else stop, s.2 ++ [(s.1, stop)])

/-- `while start < len(tokens)` -/
def tokenLoop (total fuel : ℕ) : Option (ℕ × List (ℕ × ℕ)) :=
  While.loop (fun s => s.1 < total) (tokenTurn c total) fuel (0, [])

/-- The windows of the loop. -/
def tokenWindows (total : ℕ) : List (ℕ × ℕ) := ((tokenLoop c total total).map Prod.snd).getD []

/-- `tokens[start:end]` -/
def window (tokens : List ℕ) (w : ℕ × ℕ) : List ℕ := (tokens.take w.2).drop w.1

variable {c}

/-- Each turn goes on. -/
theorem lt_tokenTurn {total : ℕ} {s : ℕ × List (ℕ × ℕ)} (h : s.1 < total) : s.1 < (tokenTurn c total s).1 := by
  have hlt := c.overlap_lt
  unfold tokenTurn
  simp only
  split <;> omega

/-- **The loop over the tokens ends.** -/
theorem tokenLoop_ends (total : ℕ) : ∃ s, tokenLoop c total total = some s := by
  apply @While.exists_loop_of_measure _ _ _ _ (fun _ => True) (fun s => total - s.1)
  · exact fun _ _ _ => trivial
  · intro s _ hs
    have := lt_tokenTurn (c := c) hs
    omega
  · trivial
  · exact Nat.sub_le _ _

theorem tokenLoop_eq (total : ℕ) : ∃ stop, tokenLoop c total total = some (stop, tokenWindows c total) := by
  obtain ⟨s, hs⟩ := tokenLoop_ends (c := c) total
  refine ⟨s.1, ?_⟩
  unfold tokenWindows
  rw [hs]
  rfl

/-- The windows so far lie within the tokens, are no longer than the size, and cover every token before
the start. -/
structure TokensCovered (c : Chunker) (total : ℕ) (s : ℕ × List (ℕ × ℕ)) : Prop where
  within : ∀ w ∈ s.2, w.2 ≤ total ∧ w.2 - w.1 ≤ c.chunkSize
  covered : ∀ i < min s.1 total, ∃ w ∈ s.2, w.1 ≤ i ∧ i < w.2

theorem tokensCovered_tokenTurn {total : ℕ} {s : ℕ × List (ℕ × ℕ)} (h : TokensCovered c total s) :
    TokensCovered c total (tokenTurn c total s) := by
  unfold tokenTurn
  constructor
  · intro w hw
    rw [List.mem_append, List.mem_singleton] at hw
    obtain hw | rfl := hw
    · exact h.within w hw
    · simp only
      omega
  · intro i hi
    have hstop : i < min (s.1 + c.chunkSize) total := by
      revert hi
      simp only
      split <;> omega
    by_cases hstart : i < s.1
    · obtain ⟨w, hw, hin⟩ := h.covered i (by omega)
      exact ⟨w, List.mem_append_left _ hw, hin⟩
    · exact ⟨_, List.mem_append_right _ (List.mem_singleton_self _), by simp only; omega⟩

/-- **The windows cover every token.** -/
theorem tokensCovered_tokenWindows (c : Chunker) (total : ℕ) :
    (∀ w ∈ tokenWindows c total, w.2 ≤ total ∧ w.2 - w.1 ≤ c.chunkSize) ∧
      ∀ i < total, ∃ w ∈ tokenWindows c total, w.1 ≤ i ∧ i < w.2 := by
  obtain ⟨stop, hloop⟩ := tokenLoop_eq (c := c) total
  obtain ⟨hvisits, hend⟩ := While.visits_of_loop hloop
  have hinv : TokensCovered c total (stop, tokenWindows c total) := by
    apply While.invariant_of_visits (fun s hs _ => tokensCovered_tokenTurn hs) _ hvisits
    exact ⟨fun w hw => absurd hw List.not_mem_nil, fun i hi => by simp only at hi; omega⟩
  simp only at hend
  refine ⟨hinv.within, ?_⟩
  intro i hi
  exact hinv.covered i (by simp only; omega)

end Chunkers

end Khora
