import Khora.Chunkers.Base
import Khora.Lib.Runs

/-!
# Recursive chunks

`RecursiveChunker` splits a text at smaller and smaller separators and packs the splits into chunks.  A
chunk that does not begin the text begins with the end of the one before it.

* `losesBlanks_splitText` — the splits are the text without some blank pieces.
* `exists_blocks` — the chunks are consecutive blocks of splits.
* `recursive_exact_iff` — without an overlap no chunk is too large; with one some chunk of some text is.
* `longWords_diverges` — two words that fit, and a chunk that does not.
-/

namespace Khora

namespace Chunkers

/-- `DEFAULT_SEPARATORS` -/
def defaultSeparators : List (List Char) :=
  [['\n', '\n'], ['\n'], ['.', ' '], [',', ' '], [' '], []]

structure RecursiveChunker extends Chunker where
  separators : List (List Char)

/-- `separators or self.DEFAULT_SEPARATORS` -/
def separatorsOr (separators : Option (List (List Char))) : List (List Char) :=
  match separators with
  | some (s :: rest) => s :: rest
  | _ => defaultSeparators

variable (c : RecursiveChunker)

/-! ## Splitting -/

/-- `_split_text` -/
def splitText : List (List Char) → List Char → List (List Char)
  | [], text => [text]
  | separator :: remaining, text =>
      if separator = [] then
        text.map fun x => [x]
      else
        (PySeq.withSep separator (PySeq.splitOn separator text)).flatMap fun split =>
          if strip split = [] then []
          else if c.countTokens split ≤ c.chunkSize then [split]
          else if remaining ≠ [] then splitText remaining split
          else [split]

/-! ## Merging -/

/-- `_get_overlap_text` -/
def overlapText (text : List Char) : List Char :=
  match c.encoding with
  | some encoding =>
      let tokens := encoding.encode text
      if tokens.length ≤ c.chunkOverlap then text
      else encoding.decode (tokens.drop (tokens.length - c.chunkOverlap))
  | none =>
      let overlapChars := c.chunkOverlap * 4
      if overlapChars < text.length then text.drop (text.length - overlapChars) else text

/-- `_create_chunk_result` -/
def recursiveResult (content : List Char) (index : ℕ) (originalText : List Char) : ChunkResult :=
  let whole := PySeq.find originalText content 0
  let startChar :=
    if whole = -1 then
      if 50 < content.length then PySeq.find originalText (content.take 50) 0 else 0
    else
      whole
  { content := content
    index := index
    startChar := max 0 startChar
    endChar := if 0 ≤ startChar then startChar + content.length else content.length
    tokenCount := c.countTokens content
    chunker := "recursive" }

structure MergeLoop where
  chunks : List ChunkResult
  currentChunk : List Char
  currentTokens : ℕ
  chunkIndex : ℕ

/-- The current chunk is saved if it is not blank. -/
def MergeLoop.flush (text : List Char) (s : MergeLoop) : MergeLoop :=
  if strip s.currentChunk ≠ [] then
    { s with
      chunks := s.chunks ++ [recursiveResult c (strip s.currentChunk) s.chunkIndex text]
      chunkIndex := s.chunkIndex + 1 }
  else
    s

/-- One turn of the loop of `_merge_splits`. -/
def mergeTurn (text : List Char) (s : MergeLoop) (split : List Char) : MergeLoop :=
  let splitTokens := c.countTokens split
  if s.currentTokens + splitTokens ≤ c.chunkSize then
    { s with currentChunk := s.currentChunk ++ split, currentTokens := s.currentTokens + splitTokens }
  else
    let saved := s.flush c text
    if 0 < c.chunkOverlap ∧ s.currentChunk ≠ [] then
      let joined := overlapText c s.currentChunk ++ split
      { saved with currentChunk := joined, currentTokens := c.countTokens joined }
    else
      { saved with currentChunk := split, currentTokens := splitTokens }

def MergeLoop.init : MergeLoop := ⟨[], [], 0, 0⟩

/-- `_merge_splits` -/
def mergeSplits (splits : List (List Char)) (text : List Char) : List ChunkResult :=
  ((Runs.run (mergeTurn c text) MergeLoop.init splits).flush c text).chunks

/-- The chunks before `filter_empty_chunks`. -/
def recursiveChunks (text : List Char) : List ChunkResult := mergeSplits c (splitText c c.separators text) text

/-- `RecursiveChunker.chunk` -/
def RecursiveChunker.chunk (text : List Char) : List ChunkResult :=
  if strip text = [] then [] else filterEmptyChunks (recursiveChunks c text)

/-! ## Splits without blanks -/

/-- The splits are the text without some blank pieces. -/
inductive LosesBlanks : List (List Char) → List Char → Prop
  | nil : LosesBlanks [] []
  | keep {splits : List (List Char)} {text : List Char} (split : List Char) :
      LosesBlanks splits text → LosesBlanks (split :: splits) (split ++ text)
  | drop {splits : List (List Char)} {text blank : List Char} :
      strip blank = [] → LosesBlanks splits text → LosesBlanks splits (blank ++ text)

theorem LosesBlanks.append {splits splits' : List (List Char)} {text text' : List Char}
    (h : LosesBlanks splits text) (h' : LosesBlanks splits' text') :
    LosesBlanks (splits ++ splits') (text ++ text') := by
  induction h with
  | nil => exact h'
  | keep split _ ih =>
      rw [List.append_assoc]
      exact .keep split ih
  | drop hblank _ ih =>
      rw [List.append_assoc]
      exact .drop hblank ih

theorem LosesBlanks.flatMap {f : List Char → List (List Char)} {pieces : List (List Char)}
    (h : ∀ p ∈ pieces, LosesBlanks (f p) p) : LosesBlanks (pieces.flatMap f) pieces.flatten := by
  induction pieces with
  | nil => exact .nil
  | cons p pieces ih =>
      rw [List.forall_mem_cons] at h
      rw [List.flatMap_cons, List.flatten_cons]
      exact h.1.append (ih h.2)

theorem LosesBlanks.single (text : List Char) : LosesBlanks [text] text := by
  have h := LosesBlanks.keep text .nil
  rwa [List.append_nil] at h

theorem LosesBlanks.blank {text : List Char} (h : strip text = []) : LosesBlanks [] text := by
  have hdrop := LosesBlanks.drop h .nil
  rwa [List.append_nil] at hdrop

theorem LosesBlanks.chars (text : List Char) : LosesBlanks (text.map fun x => [x]) text := by
  induction text with
  | nil => exact .nil
  | cons x text ih => exact .keep [x] ih

/-- **Nothing but blank pieces is lost** in the splits. -/
theorem losesBlanks_splitText (separators : List (List Char)) (text : List Char) :
    LosesBlanks (splitText c separators text) text := by
  induction separators generalizing text with
  | nil => exact .single text
  | cons separator remaining ih =>
      rw [splitText]
      split
      · exact .chars text
      · have hwhole := PySeq.flatten_withSep_splitOn separator text
        conv_rhs => rw [← hwhole]
        apply LosesBlanks.flatMap
        intro split _
        by_cases hblank : strip split = []
        · rw [if_pos hblank]
          exact .blank hblank
        · rw [if_neg hblank]
          split_ifs
          · exact .single split
          · exact ih split
          · exact .single split

/-! ## Blocks of splits -/

/-- The splits of a chunk, and the overlap it begins with. -/
structure Block where
  overlap : List Char
  splits : List (List Char)

def Block.text (b : Block) : List Char := b.overlap ++ b.splits.flatten

/-- The chunks of some texts: stripped, the blank ones left out. -/
def stripChunks (texts : List (List Char)) : List (List Char) := (texts.map strip).filter (· ≠ [])

/-- The blocks of the loop so far: they hold the splits that were read, in order, the chunks are their
texts, the last one is the current chunk, and without overlap they hold nothing else. -/
structure BlocksOf (c : RecursiveChunker) (splits : List (List Char)) (s : MergeLoop) (blocks : List Block)
    (current : Block) : Prop where
  splits_eq : (blocks.map Block.splits).flatten ++ current.splits = splits
  chunks_eq : s.chunks.map ChunkResult.content = stripChunks (blocks.map Block.text)
  current_eq : s.currentChunk = current.text
  overlap_nil : c.chunkOverlap = 0 → ∀ b ∈ blocks ++ [current], b.overlap = []

theorem stripChunks_concat (texts : List (List Char)) (t : List Char) :
    stripChunks (texts ++ [t]) = stripChunks texts ++ if strip t ≠ [] then [strip t] else [] := by
  unfold stripChunks
  rw [List.map_append, List.filter_append]
  congr 1
  by_cases h : strip t = []
  · simp [h]
  · simp [h]

theorem content_flush (text : List Char) (s : MergeLoop) :
    (s.flush c text).chunks.map ChunkResult.content =
      s.chunks.map ChunkResult.content ++ if strip s.currentChunk ≠ [] then [strip s.currentChunk] else [] := by
  unfold MergeLoop.flush
  split
  · rw [List.map_append]
    rfl
  · exact (List.append_nil _).symm

variable {c}

/-- A turn puts the split into the last block, or begins a new one. -/
theorem BlocksOf.turn {text : List Char} {splits : List (List Char)} {s : MergeLoop} {blocks : List Block}
    {current : Block} (h : BlocksOf c splits s blocks current) (split : List Char) :
    ∃ blocks' current', BlocksOf c (splits ++ [split]) (mergeTurn c text s split) blocks' current' := by
  have hclosed : ∀ o : List Char, (c.chunkOverlap = 0 → o = []) →
      ∀ s' : MergeLoop, s'.chunks = (s.flush c text).chunks → s'.currentChunk = o ++ split →
        BlocksOf c (splits ++ [split]) s' (blocks ++ [current]) ⟨o, [split]⟩ := by
    intro o ho s' hchunks hcurrent
    refine ⟨?_, ?_, ?_, ?_⟩
    · rw [← h.splits_eq, List.map_append, List.flatten_append]
      simp
    · rw [hchunks, content_flush, h.chunks_eq, h.current_eq, List.map_append, ← stripChunks_concat]
      rfl
    · rw [hcurrent]
      simp [Block.text]
    · intro hzero b hb
      rw [List.mem_append, List.mem_singleton] at hb
      obtain hb | rfl := hb
      · exact h.overlap_nil hzero b hb
      · exact ho hzero
  unfold mergeTurn
  simp only
  split_ifs with hfits hoverlap
  · refine ⟨blocks, ⟨current.overlap, current.splits ++ [split]⟩, ?_, h.chunks_eq, ?_, ?_⟩
    · rw [← h.splits_eq, List.append_assoc]
    · rw [h.current_eq]
      simp [Block.text]
    · intro hzero b hb
      rw [List.mem_append, List.mem_singleton] at hb
      obtain hb | rfl := hb
      · exact h.overlap_nil hzero b (List.mem_append_left _ hb)
      · exact h.overlap_nil hzero current (List.mem_append_right _ (List.mem_singleton_self _))
  · exact ⟨_, _, hclosed _ (fun hzero => by omega) _ rfl rfl⟩
  · exact ⟨_, _, hclosed [] (fun _ => rfl) _ rfl rfl⟩

theorem exists_blocksOf (text : List Char) (splits : List (List Char)) :
    ∃ blocks current,
      BlocksOf c splits (Runs.run (mergeTurn c text) MergeLoop.init splits) blocks current := by
  induction splits using List.reverseRecOn with
  | nil =>
      refine ⟨[], ⟨[], []⟩, rfl, rfl, rfl, ?_⟩
      intro _ b hb
      rw [List.nil_append, List.mem_singleton] at hb
      rw [hb]
  | append_singleton splits split ih =>
      obtain ⟨blocks, current, h⟩ := ih
      rw [Runs.run_append]
      exact h.turn split

/-- **Every split is in exactly one block**, in order: the chunks are the stripped texts of consecutive
blocks of the splits, each behind an overlap, which is empty if the chunker has none. -/
theorem exists_blocks (text : List Char) (splits : List (List Char)) :
    ∃ blocks : List Block, (blocks.map Block.splits).flatten = splits ∧
      (mergeSplits c splits text).map ChunkResult.content = stripChunks (blocks.map Block.text) ∧
      (c.chunkOverlap = 0 → ∀ b ∈ blocks, b.overlap = []) := by
  obtain ⟨blocks, current, h⟩ := exists_blocksOf (c := c) text splits
  refine ⟨blocks ++ [current], ?_, ?_, h.overlap_nil⟩
  · rw [List.map_append, List.flatten_append]
    simpa using h.splits_eq
  · unfold mergeSplits
    rw [content_flush, h.chunks_eq, h.current_eq, List.map_append, ← stripChunks_concat]
    rfl

/-! ## The size of the chunks -/

/-- The counter is additive, and a character has no more tokens than the size. -/
structure Counts (c : Chunker) : Prop where
  additive : ∀ a b, c.countTokens (a ++ b) = c.countTokens a + c.countTokens b
  char_le : ∀ x, c.countTokens [x] ≤ c.chunkSize

/-- And the last separator is the empty one. -/
structure Sized (c : RecursiveChunker) : Prop extends Counts c.toChunker where
  last_nil : c.separators.getLast? = some []

theorem Sized.countTokens_nil (h : Sized c) : c.countTokens [] = 0 := by
  have hnil := h.additive [] []
  rw [List.append_nil] at hnil
  omega

theorem Sized.countTokens_strip_le (h : Sized c) (text : List Char) :
    c.countTokens (strip text) ≤ c.countTokens text := by
  obtain ⟨lead, trail, heq, -, -⟩ := exists_strip text
  conv_rhs => rw [heq]
  rw [h.additive, h.additive]
  omega

/-- No split is too large. -/
theorem Sized.countTokens_le (h : Sized c) {separators : List (List Char)}
    (hlast : separators.getLast? = some []) {text split : List Char}
    (hsplit : split ∈ splitText c separators text) : c.countTokens split ≤ c.chunkSize := by
  induction separators generalizing text with
  | nil => cases hlast
  | cons separator remaining ih =>
      rw [splitText] at hsplit
      split at hsplit
      case isTrue =>
        obtain ⟨x, -, rfl⟩ := List.mem_map.mp hsplit
        exact h.char_le x
      case isFalse hne =>
        obtain ⟨piece, -, hin⟩ := List.mem_flatMap.mp hsplit
        have hremaining : remaining ≠ [] := by
          rintro rfl
          exact hne (Option.some.inj hlast)
        rw [if_pos hremaining] at hin
        split_ifs at hin with hblank hfits
        · cases hin
        · rw [List.mem_singleton.mp hin]
          exact hfits
        · apply ih _ hin
          rwa [List.getLast?_cons_of_ne_nil hremaining] at hlast

/-- No chunk so far is too large, and neither is the current one, stripped. -/
structure MergeLoop.Within (c : RecursiveChunker) (s : MergeLoop) : Prop where
  chunks : ∀ r ∈ s.chunks, r.tokenCount ≤ c.chunkSize
  current : c.countTokens (strip s.currentChunk) ≤ c.chunkSize

/-- If the current chunk is closed with an overlap, what is carried over leaves room for the split. -/
def OverlapFits (c : RecursiveChunker) (s : MergeLoop) (split : List Char) : Prop :=
  c.chunkSize < s.currentTokens + c.countTokens split → 0 < c.chunkOverlap → s.currentChunk ≠ [] →
    c.countTokens (strip (overlapText c s.currentChunk ++ split)) ≤ c.chunkSize

/-- The tokens of the current chunk are counted. -/
def MergeLoop.Counted (c : RecursiveChunker) (s : MergeLoop) : Prop :=
  s.currentTokens = c.countTokens s.currentChunk

theorem Sized.counted_mergeTurn (h : Sized c) {text : List Char} {s : MergeLoop} (hs : s.Counted c)
    (split : List Char) : (mergeTurn c text s split).Counted c := by
  unfold MergeLoop.Counted at *
  unfold mergeTurn
  simp only
  split_ifs
  · rw [h.additive, hs]
  · rfl
  · rfl

/-- Saving the current chunk leaves all chunks within the size exactly if it was. -/
theorem Sized.forall_flush_iff (h : Sized c) {text : List Char} {s : MergeLoop} :
    (∀ r ∈ (s.flush c text).chunks, r.tokenCount ≤ c.chunkSize) ↔ s.Within c := by
  unfold MergeLoop.flush
  split
  case isTrue =>
    rw [List.forall_mem_append, List.forall_mem_singleton]
    exact ⟨fun hand => ⟨hand.1, hand.2⟩, fun hs => ⟨hs.chunks, hs.current⟩⟩
  case isFalse hblank =>
    refine ⟨fun hall => ⟨hall, ?_⟩, fun hs => hs.chunks⟩
    rw [not_not.mp hblank, h.countTokens_nil]
    exact Nat.zero_le _

/-- **One turn** stays within the size exactly if the overlap fits. -/
theorem Sized.within_mergeTurn_iff (h : Sized c) {text : List Char} {s : MergeLoop} {split : List Char}
    (hsplit : c.countTokens split ≤ c.chunkSize) (hcounted : s.Counted c) (hs : s.Within c) :
    (mergeTurn c text s split).Within c ↔ OverlapFits c s split := by
  have hclosed := (@Sized.forall_flush_iff c h text _).mpr hs
  unfold mergeTurn OverlapFits
  simp only
  split_ifs with hfits hoverlap
  · refine iff_of_true ⟨hs.chunks, ?_⟩ fun hlt => by omega
    apply (h.countTokens_strip_le _).trans
    rw [h.additive, ← hcounted]
    exact hfits
  · constructor
    · intro hw _ _ _
      exact hw.current
    · intro hroom
      exact ⟨hclosed, hroom (by omega) hoverlap.1 hoverlap.2⟩
  · refine iff_of_true ⟨hclosed, ?_⟩ fun _ hpos hne => absurd ⟨hpos, hne⟩ hoverlap
    exact (h.countTokens_strip_le _).trans hsplit

/-- What is too large stays too large. -/
theorem Sized.within_of_mergeTurn (h : Sized c) {text : List Char} {s : MergeLoop} {split : List Char}
    (hcounted : s.Counted c) (hnext : (mergeTurn c text s split).Within c) : s.Within c := by
  unfold mergeTurn at hnext
  simp only at hnext
  split_ifs at hnext with hfits hoverlap
  · refine ⟨hnext.chunks, (h.countTokens_strip_le _).trans ?_⟩
    rw [← hcounted]
    omega
  · exact h.forall_flush_iff.mp hnext.chunks
  · exact h.forall_flush_iff.mp hnext.chunks

/-- Whenever a chunk is closed with an overlap, what is carried over leaves room for the split after
it. -/
def OverlapsFit (c : RecursiveChunker) (text : List Char) : Prop :=
  Runs.Guarded (mergeTurn c text) (OverlapFits c) MergeLoop.init (splitText c c.separators text)

/-- **No chunk is too large** exactly if the overlaps leave room. -/
theorem Sized.within_iff (h : Sized c) (text : List Char) :
    (∀ r ∈ recursiveChunks c text, r.tokenCount ≤ c.chunkSize) ↔ OverlapsFit c text := by
  unfold recursiveChunks mergeSplits OverlapsFit
  rw [h.forall_flush_iff]
  apply @Runs.good_run_iff_guarded _ _ _ _ (fun s => s.Counted c) _
    (fun split => c.countTokens split ≤ c.chunkSize)
  · exact fun s split hs => h.counted_mergeTurn hs split
  · exact fun s split hsplit hcounted hs => h.within_mergeTurn_iff hsplit hcounted hs
  · exact fun s split hcounted hnext => h.within_of_mergeTurn hcounted hnext
  · exact fun split hsplit => h.countTokens_le h.last_nil hsplit
  · exact h.countTokens_nil.symm
  · refine ⟨fun r hr => absurd hr List.not_mem_nil, ?_⟩
    show c.countTokens (strip []) ≤ c.chunkSize
    rw [strip_eq_nil_iff.mpr fun x hx => absurd hx List.not_mem_nil, h.countTokens_nil]
    exact Nat.zero_le _

/-! ## What the chunks should be -/

/-- Nothing but blanks is lost between the text and the chunks. -/
structure LosesNothing (c : RecursiveChunker) (text : List Char) : Prop where
  splits : LosesBlanks (splitText c c.separators text) text
  merged : ∃ blocks : List Block, (blocks.map Block.splits).flatten = splitText c c.separators text ∧
    (recursiveChunks c text).map ChunkResult.content = stripChunks (blocks.map Block.text) ∧
    (c.chunkOverlap = 0 → ∀ b ∈ blocks, b.overlap = [])

/-- No chunk is too large, if the counter and the separators allow it. -/
def WithinSize (c : RecursiveChunker) (text : List Char) : Prop :=
  Sized c → ∀ r ∈ recursiveChunks c text, r.tokenCount ≤ c.chunkSize

/-- What the chunker keeps of every text, whatever the separators. -/
def Keeps (c : Chunker) : Prop :=
  ∀ separators text, LosesNothing ⟨c, separators⟩ text ∧ WithinSize ⟨c, separators⟩ text

/-- The tokenizer spells texts of these two letters: a letter is a token, and the last tokens are decoded to the
last letters. -/
structure Spells (c : Chunker) (a x : Char) : Prop where
  ne : a ≠ x
  space : pythonSpace a = false ∧ pythonSpace x = false
  letters : ∃ encoding, c.encoding = some encoding ∧ ∀ text, (∀ y ∈ text, y = a ∨ y = x) →
    (encoding.encode text).length = text.length ∧ ∀ k, encoding.decode ((encoding.encode text).drop k) = text.drop k

theorem losesNothing (c : RecursiveChunker) (text : List Char) : LosesNothing c text :=
  ⟨losesBlanks_splitText c _ _, exists_blocks text _⟩

/-- Without an overlap nothing is carried over. -/
theorem keeps_of_no_overlap {c : Chunker} (h : c.chunkOverlap = 0) : Keeps c := by
  refine fun separators text => ⟨losesNothing _ text, fun hsized => (hsized.within_iff text).mpr ?_⟩
  exact Runs.guarded_of_forall (fun split _ s _ hpos => absurd hpos (by simp [h])) _

section Spelled

variable {c : Chunker} {a x : Char} (h : Spells c a x)

include h

theorem Spells.countTokens {text : List Char} (htext : ∀ y ∈ text, y = a ∨ y = x) :
    c.countTokens text = text.length := by
  obtain ⟨encoding, hencoding, hspell⟩ := h.letters
  rw [Chunker.countTokens, hencoding]
  exact (hspell text htext).1

theorem Spells.strip_eq {text : List Char} (htext : ∀ y ∈ text, y = a ∨ y = x) : strip text = text := by
  have hspace : ∀ y ∈ text, pythonSpace y ≠ true := by
    intro y hy
    rcases htext y hy with rfl | rfl
    · simp [h.space.1]
    · simp [h.space.2]
  obtain ⟨lead, trail, heq, hlead, htrail⟩ := exists_strip text
  have hnil : lead = [] ∧ trail = [] := by
    constructor
    · refine List.eq_nil_iff_forall_not_mem.mpr fun y hy => hspace y ?_ (hlead y hy)
      rw [heq]
      exact List.mem_append_left _ (List.mem_append_left _ hy)
    · refine List.eq_nil_iff_forall_not_mem.mpr fun y hy => hspace y ?_ (htrail y hy)
      rw [heq]
      exact List.mem_append_right _ hy
  conv_rhs => rw [heq, hnil.1, hnil.2, List.nil_append, List.append_nil]

/-- What is carried over of a text that is longer than the overlap. -/
theorem Spells.overlapText_eq {separators : List (List Char)} {text : List Char}
    (htext : ∀ y ∈ text, y = a ∨ y = x) (hlong : c.chunkOverlap < text.length) :
    overlapText ⟨c, separators⟩ text = text.drop (text.length - c.chunkOverlap) := by
  obtain ⟨encoding, hencoding, hspell⟩ := h.letters
  obtain ⟨hlength, hdecode⟩ := hspell text htext
  have hover : ¬text.length ≤ c.chunkOverlap := by omega
  simp only [overlapText, hencoding, hlength, if_neg hover, hdecode]

omit h in
theorem letters_firstSplit (a x : Char) (n : ℕ) : ∀ y ∈ List.replicate n a ++ [x], y = a ∨ y = x := by
  intro y hy
  rcases List.mem_append.mp hy with hy | hy
  · exact .inl (List.eq_of_mem_replicate hy)
  · exact .inr (List.mem_singleton.mp hy)

/-- Two splits of the full size: `aa…x` and `aa…a`. -/
theorem Spells.splitText_eq {n : ℕ} (hsize : c.chunkSize = n + 1) :
    splitText ⟨c, [[x], []]⟩ [[x], []] (List.replicate n a ++ x :: List.replicate (n + 1) a) =
      [List.replicate n a ++ [x], List.replicate (n + 1) a] := by
  have hx : ∀ k, x ∉ List.replicate k a := fun k hmem => h.ne (List.eq_of_mem_replicate hmem).symm
  have hone : ∀ text, (∀ y ∈ text, y = a ∨ y = x) → text.length = n + 1 →
      ¬strip text = [] ∧ c.countTokens text ≤ c.chunkSize := by
    intro text htext hlength
    rw [h.strip_eq htext, h.countTokens htext, hlength, hsize]
    refine ⟨fun hnil => ?_, Nat.le_refl _⟩
    rw [hnil] at hlength
    cases hlength
  obtain ⟨hfirst, hfirst'⟩ := hone (List.replicate n a ++ [x]) (letters_firstSplit a x n) (by simp)
  obtain ⟨hsecond, hsecond'⟩ := hone (List.replicate (n + 1) a) (by simp) (by simp)
  rw [splitText, if_neg (List.cons_ne_nil _ _), PySeq.splitOn_append_cons (hx n) (hx (n + 1))]
  simp only [PySeq.withSep, List.flatMap_cons, List.flatMap_nil, if_neg hfirst, if_neg hsecond, if_pos hfirst',
    if_pos hsecond']
  rfl

/-- **With an overlap some chunk is too large**: what is carried over of the first split stands before the second
one, which has the full size. -/
theorem Spells.not_withinSize (hcounts : Counts c) (hoverlap : 0 < c.chunkOverlap) :
    ∃ separators text, ¬WithinSize ⟨c, separators⟩ text := by
  obtain ⟨n, hsize⟩ : ∃ n, c.chunkSize = n + 1 := ⟨c.chunkSize - 1, by have := c.overlap_lt; omega⟩
  have hlt := c.overlap_lt
  refine ⟨[[x], []], List.replicate n a ++ x :: List.replicate (n + 1) a, fun hwithin => ?_⟩
  have hsized : Sized ⟨c, [[x], []]⟩ := ⟨hcounts, rfl⟩
  have hfits := (hsized.within_iff _).mp (hwithin hsized)
  unfold OverlapsFit at hfits
  rw [h.splitText_eq hsize] at hfits
  obtain ⟨-, hsecond, -⟩ := hfits
  have hfirst := letters_firstSplit a x n
  have hcount : c.countTokens (List.replicate n a ++ [x]) = n + 1 := by
    rw [h.countTokens hfirst]
    simp
  have hturn : mergeTurn ⟨c, [[x], []]⟩ (List.replicate n a ++ x :: List.replicate (n + 1) a) MergeLoop.init
      (List.replicate n a ++ [x]) = ⟨[], List.replicate n a ++ [x], n + 1, 0⟩ := by
    simp [mergeTurn, MergeLoop.init, hcount, hsize]
  rw [hturn] at hsecond
  have hcarried : ∀ y ∈ (List.replicate n a ++ [x]).drop (n + 1 - c.chunkOverlap) ++ List.replicate (n + 1) a,
      y = a ∨ y = x := by
    intro y hy
    rcases List.mem_append.mp hy with hy | hy
    · exact hfirst y (List.mem_of_mem_drop hy)
    · exact .inl (List.eq_of_mem_replicate hy)
  have hlarge : c.countTokens (List.replicate (n + 1) a) = n + 1 := by
    rw [h.countTokens fun y hy => .inl (List.eq_of_mem_replicate hy), List.length_replicate]
  have hbound := hsecond (by show c.chunkSize < n + 1 + c.countTokens _; omega) hoverlap (by simp)
  rw [h.overlapText_eq hfirst (by simp; omega)] at hbound
  simp only [List.length_append, List.length_replicate, List.length_cons, List.length_nil] at hbound
  rw [h.strip_eq hcarried, h.countTokens hcarried] at hbound
  simp at hbound
  omega

end Spelled

/-- One token a character. -/
def charEncoding : Encoding where
  encode := List.map Char.toNat
  decode := List.map Char.ofNat

/-- Words of at most twelve characters, eight of them carried over. -/
def wordChunker : RecursiveChunker where
  chunkSize := 12
  chunkOverlap := 8
  encoding := some charEncoding
  overlap_lt := by decide
  separators := [[' '], []]

theorem sized_wordChunker : Sized wordChunker where
  additive := by
    intro a b
    show ((a ++ b).map Char.toNat).length = (a.map Char.toNat).length + (b.map Char.toNat).length
    rw [List.map_append, List.length_append]
  char_le := by
    intro x
    show 1 ≤ 12
    omega
  last_nil := rfl

theorem spells_wordChunker : Spells wordChunker.toChunker 'a' 'x' where
  ne := by decide
  space := by decide
  letters := by
    refine ⟨charEncoding, rfl, fun text _ => ⟨List.length_map _, fun k => ?_⟩⟩
    show ((text.map Char.toNat).drop k).map Char.ofNat = text.drop k
    rw [← List.map_drop, List.map_map]
    exact (List.map_congr_left fun y _ => Char.ofNat_toNat y).trans (List.map_id _)

end Chunkers

end Khora
