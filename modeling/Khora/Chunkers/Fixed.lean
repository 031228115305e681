import Khora.Chunkers.Base

/-!
# Fixed chunks

`FixedChunker` cuts windows of tokens, or without a tokenizer windows of characters, which it ends at a
space and starts an overlap before the last one's end.

* `coversExactly_iff` — the character loop goes on and covers the text exactly if every window that ends
  at a space ends more than the overlap after its start.
* `coversExactly_all_iff` — it does so for every text exactly if twice the overlap is less than the size.
* `shortWord_stuck` — a text it never comes to the end of.
-/

namespace Khora

namespace Chunkers

variable (c : Chunker)

/-! ## The chunker -/

/-- The chunks of the windows of tokens. -/
def chunkTokens (encoding : Encoding) (text : List Char) : List ChunkResult :=
  let tokens := encoding.encode text
  (tokenWindows c tokens.length).zipIdx.map fun w =>
    let chunkText := strip (encoding.decode (window tokens w.1))
    let found := PySeq.find text (chunkText.take 50) 0
    let startChar := if w.2 = 0 then 0 else if found = -1 then 0 else found
    { content := chunkText
      index := w.2
      startChar := startChar
      endChar := startChar + chunkText.length
      tokenCount := (window tokens w.1).length
      chunker := "fixed" }

structure CharLoop where
  start : ℤ
  chunkIndex : ℕ
  chunks : List ChunkResult

/-- The last space of the second half of the window, or -1. -/
def spacePos (text : List Char) (start : ℤ) : ℤ :=
  PySeq.rfind text [' '] (start + (c.chunkSize * 4 : ℕ) / 2) (start + (c.chunkSize * 4 : ℕ))

/-- `end` -/
def windowEnd (text : List Char) (start : ℤ) : ℤ :=
  let stop := min (start + (c.chunkSize * 4 : ℕ)) text.length
  if stop < text.length then
    if spacePos c text start > start then spacePos c text start else stop
  else
    stop

/-- One turn of the loop of `_chunk_by_chars`. -/
def charTurn (text : List Char) (s : CharLoop) : CharLoop :=
  let stop := windowEnd c text s.start
  let chunkText := strip (PySeq.slice text s.start stop)
  let next := if stop < text.length then stop - (c.chunkOverlap * 4 : ℕ) else stop
  if chunkText ≠ [] then
    { start := next
      chunkIndex := s.chunkIndex + 1
      chunks := s.chunks ++
        [{ content := chunkText
           index := s.chunkIndex
           startChar := s.start
           endChar := stop
           tokenCount := chunkText.length / 4
           chunker := "fixed" }] }
  else
    { s with start := next }

/-- `start = 0`, `chunk_index = 0`, `chunks = []` -/
def CharLoop.init : CharLoop := ⟨0, 0, []⟩

/-- `while start < len(text)` -/
def charLoop (text : List Char) (fuel : ℕ) : Option CharLoop :=
  While.loop (fun s => s.start < text.length) (charTurn c text) fuel CharLoop.init

/-- The states the loop comes to. -/
def CharVisits (text : List Char) : CharLoop → Prop :=
  While.Visits (fun s => s.start < text.length) (charTurn c text) CharLoop.init

/-- `_chunk_by_chars`: `none` if the fuel does not suffice. -/
def chunkByChars (text : List Char) (fuel : ℕ) : Option (List ChunkResult) :=
  (charLoop c text fuel).map CharLoop.chunks

/-- `FixedChunker.chunk` -/
def fixedChunk (text : List Char) (fuel : ℕ) : Option (List ChunkResult) :=
  if strip text = [] then
    some []
  else
    match c.encoding with
    | none => chunkByChars c text fuel
    | some encoding => some (filterEmptyChunks (chunkTokens c encoding text))

/-! ## What the chunks should be -/

/-- Every character before a position that is no space lies in a chunk. -/
def CoveredBefore (text : List Char) (position : ℤ) (chunks : List ChunkResult) : Prop :=
  ∀ (k : ℕ) (x : Char), text[k]? = some x → pythonSpace x = false → (k : ℤ) < position →
    ∃ r ∈ chunks, r.startChar ≤ k ∧ k < r.endChar

/-- No chunk is longer than four characters a token. -/
def Bounded (chunks : List ChunkResult) : Prop :=
  ∀ r ∈ chunks, r.endChar - r.startChar ≤ (c.chunkSize * 4 : ℕ) ∧ r.content.length ≤ c.chunkSize * 4

/-- Chunking ends and covers the text: the character loop and the loop over any number of tokens. -/
structure CoversExactly (text : List Char) : Prop where
  advances : ∀ s, CharVisits c text s → s.start < text.length →
    0 ≤ s.start ∧ s.start < (charTurn c text s).start
  ends : ∃ fuel chunks, chunkByChars c text fuel = some chunks ∧
    CoveredBefore text text.length chunks ∧ Bounded c chunks
  tokens : ∀ total, ∃ fuel s, tokenLoop c total fuel = some s ∧
    ∀ i < total, ∃ w ∈ s.2, w.1 ≤ i ∧ i < w.2

/-- A window that ends at a space ends more than the overlap after its start. -/
def CutsPastOverlap (text : List Char) (start : ℤ) : Prop :=
  start + (c.chunkSize * 4 : ℕ) < text.length → start < spacePos c text start →
    start + (c.chunkOverlap * 4 : ℕ) < spacePos c text start

/-! ## One turn -/

variable {c} {text : List Char}

/-- The next start. -/
theorem charTurn_start (s : CharLoop) :
    (charTurn c text s).start =
      if windowEnd c text s.start < text.length then windowEnd c text s.start - (c.chunkOverlap * 4 : ℕ)
      else windowEnd c text s.start := by
  unfold charTurn
  simp only
  split <;> rfl

/-- The chunks grow. -/
theorem mem_charTurn_chunks {s : CharLoop} {r : ChunkResult} (h : r ∈ s.chunks) :
    r ∈ (charTurn c text s).chunks := by
  unfold charTurn
  simp only
  split
  · exact List.mem_append_left _ h
  · exact h

/-- A window with a character that is no space becomes a chunk. -/
theorem exists_mem_charTurn_chunks {s : CharLoop} {x : Char}
    (hx : x ∈ PySeq.slice text s.start (windowEnd c text s.start)) (hspace : pythonSpace x = false) :
    ∃ r ∈ (charTurn c text s).chunks, r.startChar = s.start ∧ r.endChar = windowEnd c text s.start := by
  unfold charTurn
  simp only
  rw [if_pos (strip_ne_nil hx hspace)]
  exact ⟨_, List.mem_append_right _ (List.mem_singleton_self _), rfl, rfl⟩

/-- A space that is found lies in the window. -/
theorem spacePos_lt {start : ℤ} (hstart : 0 ≤ start) :
    spacePos c text start < start + (c.chunkSize * 4 : ℕ) := by
  have hsize := c.overlap_lt
  unfold spacePos
  obtain h | ⟨i, h, -, hi, -⟩ := PySeq.rfind_cases text [' '] (start + (c.chunkSize * 4 : ℕ) / 2)
    (start + (c.chunkSize * 4 : ℕ))
  · rw [h]
    omega
  · rw [h]
    rw [PySeq.place_of_nonneg _ (by omega), List.length_singleton] at hi
    omega

/-- **A window is cut past its start**, and is no longer than the size. -/
theorem windowEnd_spec {start : ℤ} (hstart : 0 ≤ start) (hlt : start < text.length) :
    start < windowEnd c text start ∧ windowEnd c text start ≤ text.length ∧
      windowEnd c text start ≤ start + (c.chunkSize * 4 : ℕ) := by
  have hsize := c.overlap_lt
  have hspace := @spacePos_lt c text _ hstart
  unfold windowEnd
  simp only
  split
  · split <;> omega
  · omega

/-- The start goes on if the window is cut past the overlap. -/
theorem lt_charTurn_start {s : CharLoop} (hlt : s.start < text.length)
    (hcut : CutsPastOverlap c text s.start) : s.start < (charTurn c text s).start := by
  have hsize := c.overlap_lt
  rw [charTurn_start]
  unfold CutsPastOverlap at hcut
  unfold windowEnd
  simp only
  split_ifs <;> omega

/-- The start goes on only if the window is cut past the overlap. -/
theorem cutsPastOverlap_of_lt {s : CharLoop} (hstart : 0 ≤ s.start)
    (h : s.start < (charTurn c text s).start) : CutsPastOverlap c text s.start := by
  intro hlong hspace
  have hin := @spacePos_lt c text _ hstart
  rw [charTurn_start] at h
  have hend : windowEnd c text s.start = spacePos c text s.start := by
    unfold windowEnd
    simp only
    rw [if_pos (by omega), if_pos hspace]
  rw [hend, if_pos (by omega)] at h
  omega

/-! ## Every run -/

/-- What holds in every turn: the start is not negative, the text before it is covered, and the chunks
are bounded. -/
structure CharLoop.Inv (c : Chunker) (text : List Char) (s : CharLoop) : Prop where
  nonneg : 0 ≤ s.start
  covered : CoveredBefore text s.start s.chunks
  bounded : Bounded c s.chunks

theorem bounded_charTurn {s : CharLoop} (hstart : 0 ≤ s.start) (hlt : s.start < text.length)
    (h : Bounded c s.chunks) : Bounded c (charTurn c text s).chunks := by
  obtain ⟨hend, -, hsize⟩ := windowEnd_spec (c := c) hstart hlt
  unfold charTurn
  simp only
  split
  · intro r hr
    rw [List.mem_append, List.mem_singleton] at hr
    obtain hr | rfl := hr
    · exact h r hr
    · have hlen := PySeq.length_slice_le text hstart (show s.start ≤ windowEnd c text s.start by omega)
      have hstrip := length_strip_le (PySeq.slice text s.start (windowEnd c text s.start))
      constructor
      · simp only
        omega
      · simp only
        omega
  · exact h

/-- **One turn** keeps the invariant. -/
theorem CharLoop.Inv.turn {s : CharLoop} (h : s.Inv c text) (hlt : s.start < text.length)
    (hcut : CutsPastOverlap c text s.start) : (charTurn c text s).Inv c text := by
  obtain ⟨hend, -, -⟩ := windowEnd_spec (c := c) h.nonneg hlt
  have hnext := lt_charTurn_start hlt hcut
  refine ⟨by have := h.nonneg; omega, ?_, bounded_charTurn h.nonneg hlt h.bounded⟩
  intro k x hx hspace hk
  by_cases hbefore : (k : ℤ) < s.start
  · obtain ⟨r, hr, hin⟩ := h.covered k x hx hspace hbefore
    exact ⟨r, mem_charTurn_chunks hr, hin⟩
  · -- the next start lies within the window
    have hwithin : (k : ℤ) < windowEnd c text s.start := by
      rw [charTurn_start] at hk
      split at hk <;> omega
    have hmem := PySeq.mem_slice h.nonneg hx (by omega) hwithin
    obtain ⟨r, hr, hrstart, hrend⟩ := exists_mem_charTurn_chunks hmem hspace
    exact ⟨r, hr, by omega, by omega⟩

theorem CharLoop.inv_init (c : Chunker) (text : List Char) : CharLoop.init.Inv c text where
  nonneg := by decide
  covered := fun k _ _ _ hk => by
    change (k : ℤ) < 0 at hk
    omega
  bounded := fun _ hr => absurd hr List.not_mem_nil

/-- Every state that is reached meets the invariant, if every window is cut past the overlap. -/
theorem inv_of_charVisits (hcut : ∀ s, CharVisits c text s → s.start < text.length → CutsPastOverlap c text s.start)
    {s : CharLoop} (hs : CharVisits c text s) : s.Inv c text := by
  have hboth : s.Inv c text ∧ CharVisits c text s := by
    refine @While.invariant_of_visits _ _ _ (fun s => s.Inv c text ∧ CharVisits c text s) ?_ _ _
      ⟨CharLoop.inv_init c text, .refl⟩ hs
    intro t ht hlt
    exact ⟨ht.1.turn hlt (hcut t ht.2 hlt), .tail ht.2 ⟨hlt, rfl⟩⟩
  exact hboth.1

/-- The loop over the characters ends. -/
theorem charLoop_ends (hcut : ∀ s, CharVisits c text s → s.start < text.length → CutsPastOverlap c text s.start) :
    ∃ s, charLoop c text text.length = some s := by
  unfold charLoop
  refine @While.exists_loop_of_measure _ _ _ _ (CharVisits c text)
    (fun s => (text.length - s.start).toNat) ?_ ?_ _ _ .refl ?_
  · intro s hs hlt
    exact .tail hs ⟨hlt, rfl⟩
  · intro s hs hlt
    have hnext := lt_charTurn_start hlt (hcut s hs hlt)
    omega
  · change ((text.length : ℤ) - 0).toNat ≤ text.length
    omega

/-- **Chunking ends and covers the text** exactly if every window that ends at a space ends more than the
overlap after its start. -/
theorem coversExactly_iff :
    CoversExactly c text ↔
      ∀ s, CharVisits c text s → s.start < text.length → CutsPastOverlap c text s.start := by
  constructor
  · intro h s hs hlt
    obtain ⟨hstart, hnext⟩ := h.advances s hs hlt
    exact cutsPastOverlap_of_lt hstart hnext
  · intro hcut
    refine ⟨?_, ?_, ?_⟩
    · intro s hs hlt
      have hstart := (inv_of_charVisits hcut hs).nonneg
      exact ⟨hstart, lt_charTurn_start hlt (hcut s hs hlt)⟩
    · obtain ⟨s, hs⟩ := charLoop_ends hcut
      obtain ⟨hvisits, hend⟩ := While.visits_of_loop hs
      have hinv := inv_of_charVisits hcut hvisits
      refine ⟨text.length, s.chunks, ?_, ?_, hinv.bounded⟩
      · unfold chunkByChars
        rw [hs]
        rfl
      · intro k x hx hspace hk
        exact hinv.covered k x hx hspace (by omega)
    · intro total
      obtain ⟨stop, hloop⟩ := tokenLoop_eq (c := c) total
      exact ⟨total, _, hloop, (tokensCovered_tokenWindows c total).2⟩

/-! ## Every text -/

/-- A space that is found lies in the second half of the window. -/
theorem le_spacePos {start : ℤ} (hstart : 0 ≤ start) (h : start < spacePos c text start) :
    start + 2 * c.chunkSize ≤ spacePos c text start := by
  unfold spacePos at h ⊢
  obtain hnone | ⟨i, hi, hlo, -, -⟩ := PySeq.rfind_cases text [' '] (start + (c.chunkSize * 4 : ℕ) / 2)
    (start + (c.chunkSize * 4 : ℕ))
  · omega
  · rw [PySeq.place_of_nonneg _ (by omega)] at hlo
    omega

/-- A text with one space, in the middle of its first window. -/
def oneSpace (c : Chunker) : List Char :=
  List.replicate (2 * c.chunkSize) 'a' ++ ' ' :: List.replicate (2 * c.chunkSize) 'a'

theorem length_oneSpace : (oneSpace c).length = 4 * c.chunkSize + 1 := by
  unfold oneSpace
  rw [List.length_append, List.length_cons, List.length_replicate]
  omega

theorem occurs_oneSpace {i : ℕ} : PySeq.Occurs (oneSpace c) [' '] i ↔ i = 2 * c.chunkSize := by
  rw [PySeq.occurs_singleton]
  unfold oneSpace
  rw [List.getElem?_append, List.length_replicate]
  split
  case isTrue h =>
    rw [List.getElem?_replicate, if_pos h]
    exact ⟨fun h' => absurd (Option.some.inj h') (by decide), fun h' => by omega⟩
  case isFalse h =>
    rw [List.getElem?_cons]
    split
    case isTrue h' => exact ⟨fun _ => by omega, fun _ => rfl⟩
    case isFalse h' =>
      rw [List.getElem?_replicate]
      constructor
      · intro heq
        split at heq
        · exact absurd (Option.some.inj heq) (by decide)
        · cases heq
      · intro heq
        omega

theorem spacePos_oneSpace : spacePos c (oneSpace c) 0 = 2 * c.chunkSize := by
  have hsize := c.overlap_lt
  unfold spacePos
  obtain hnone | ⟨i, hi, -, -, hoccurs⟩ := PySeq.rfind_cases (oneSpace c) [' ']
    (0 + (c.chunkSize * 4 : ℕ) / 2) (0 + (c.chunkSize * 4 : ℕ))
  · rw [PySeq.rfind_eq_neg_one_iff] at hnone
    refine absurd (occurs_oneSpace.mpr rfl) (hnone _ ?_ ?_)
    · rw [PySeq.place_of_nonneg _ (by omega)]
      omega
    · rw [PySeq.place_of_nonneg _ (by omega), List.length_singleton]
      omega
  · rw [hi, occurs_oneSpace.mp hoccurs]
    rfl

/-- **Chunking ends and covers every text** exactly if twice the overlap is less than the size. -/
theorem coversExactly_all_iff : (∀ text, CoversExactly c text) ↔ 2 * c.chunkOverlap < c.chunkSize := by
  have hsize := c.overlap_lt
  constructor
  · intro h
    have hcut := coversExactly_iff.mp (h (oneSpace c)) CharLoop.init .refl
    unfold CutsPastOverlap at hcut
    have hstart : CharLoop.init.start = 0 := rfl
    rw [hstart, spacePos_oneSpace, length_oneSpace] at hcut
    have := hcut (by omega) (by omega) (by omega)
    omega
  · intro h text
    have hcut : ∀ s : CharLoop, 0 ≤ s.start → CutsPastOverlap c text s.start := by
      intro s hstart _ hspace
      have := le_spacePos hstart hspace
      omega
    have hinv : ∀ s, CharVisits c text s → s.Inv c text := by
      intro s hs
      apply While.invariant_of_visits _ (CharLoop.inv_init c text) hs
      exact fun t ht hlt => ht.turn hlt (hcut t ht.nonneg)
    exact coversExactly_iff.mpr fun s hs _ => hcut s (hinv s hs).nonneg

/-- **Fixed chunking ends and covers the text** exactly if every window the loop comes to that ends at a
space ends more than the overlap after its start; all texts are chunked so exactly if twice the overlap is
less than the size. -/
theorem fixed_exact_iff (c : Chunker) :
    (∀ text, CoversExactly c text ↔
      ∀ s, CharVisits c text s → s.start < text.length → CutsPastOverlap c text s.start) ∧
    ((∀ text, CoversExactly c text) ↔ 2 * c.chunkOverlap < c.chunkSize) :=
  ⟨fun _ => coversExactly_iff, coversExactly_all_iff⟩

/-- A chunker whose overlap is half its size. -/
def halfOverlap : Chunker := ⟨2, 1, none, by decide⟩

/-- **A text the loop never comes to the end of**: the window ends at the space, four characters after
its start, and the next window begins four characters before the space. -/
theorem shortWord_stuck :
    (∀ fuel, chunkByChars halfOverlap "abcd efghi".toList fuel = none) ∧
      ¬CoversExactly halfOverlap "abcd efghi".toList := by
  have hstuck : ∀ fuel, charLoop halfOverlap "abcd efghi".toList fuel = none := by
    intro fuel
    apply @While.loop_eq_none _ _ _ _ (fun s => s.start = 0) _ _ rfl
    intro s hs
    have hend : windowEnd halfOverlap "abcd efghi".toList 0 = 4 := by decide
    rw [charTurn_start, hs, hend]
    exact ⟨by decide, by decide⟩
  have hnone : ∀ fuel, chunkByChars halfOverlap "abcd efghi".toList fuel = none := by
    intro fuel
    unfold chunkByChars
    rw [hstuck]
    rfl
  refine ⟨hnone, ?_⟩
  intro h
  obtain ⟨fuel, chunks, hchunks, -⟩ := h.ends
  rw [hnone] at hchunks
  cases hchunks

end Chunkers

end Khora
