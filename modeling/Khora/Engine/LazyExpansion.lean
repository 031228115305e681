import Khora.Accel.CharClass
import Mathlib.Algebra.Order.Ring.Rat
import Mathlib.Data.Finset.Card
import Mathlib.Tactic.Positivity

/-!
# Lazy entity expansion

A chunk that only the vector channel found gets a graph score from the entity names that its content
mentions.  The score is kept by the id of the chunk for the life of the retriever, and the names
that it counts are those of the recall that computed it.

* `run_outputs` — a call answers with the score of the first chunk of that id that any call scored.
* `transparent_iff` — when every call returns what it would return with an empty cache.
* `staleScore_returned` — a recall about other entities gets the score of an earlier one.
-/

namespace Khora

namespace LazyExpansion

/-! ## Keywords -/

def skeletonStopwords : List (List Char) :=
  (["a", "an", "the", "and", "or", "but", "in", "on", "at", "to", "for", "of", "with", "by", "from",
    "as", "is", "was", "are", "were", "been", "be", "have", "has", "had", "do", "does", "did", "will",
    "would", "could", "should", "may", "might", "must", "that", "this", "these", "those", "it", "its",
    "he", "she", "they", "them", "his", "her", "their", "we", "our", "you", "your", "i", "me", "my",
    "what", "which", "who", "whom", "when", "where", "why", "how", "all", "each", "every", "both",
    "few", "more", "most", "other", "some", "such", "no", "not", "only", "own", "same", "so", "than",
    "too", "very", "just", "can"]).map String.toList

section Keywords

variable (lower : List Char → List Char) (isWord : Char → Bool)

/-- The matches of `\b[a-zA-Z]{3,}\b`: between two word boundaries lies a whole run of word
characters. -/
def keywordMatches (text : List Char) : List (List Char) :=
  (text.splitOnP fun c => !isWord c).filter fun w => 3 ≤ w.length && w.all Char.isAlpha

/-- `extract_keywords`, without Rust. -/
def extractKeywords (content : List Char) : List (List Char) :=
  ((keywordMatches isWord (lower content)).filter fun w => w ∉ skeletonStopwords).eraseDups

end Keywords

/-! ## The expansion -/

section Expand

variable {Id C : Type} [DecidableEq Id]
variable (lower : List Char → List Char) (keywordsOf : List Char → List (List Char)) (contentOf : C → List Char)

/-- A chunk as a channel returns it. -/
structure Ranked (Id C : Type) where
  chunkId : Id
  score : ℚ
  chunk : C
deriving DecidableEq

/-- The arguments of one call of `_lazy_expand_chunks`. -/
structure Call (Id C : Type) where
  vectorOnlyChunks : List (Ranked Id C)
  entryEntities : List (Id × ℚ)
  entityInfoMap : Id → Option (String → Option (List Char))

/-- The name of an entry entity, lowered and stripped. -/
def entityName (call : Call Id C) (eid : Id) : List Char :=
  strip (lower (((call.entityInfoMap eid).bind fun info => info "name").getD []))

def entityNames (call : Call Id C) : Finset (List Char) :=
  ((call.entryEntities.map fun e => entityName lower call e.1).filter (· ≠ [])).toFinset

/-- `keywords & entity_names` -/
def nameMatches (names : Finset (List Char)) (content : List Char) : Finset (List Char) :=
  ((keywordsOf content).map lower).toFinset ∩ names

/-- What the loop computes for a chunk that is not in the cache. -/
def expansionScore (names : Finset (List Char)) (content : List Char) : ℚ :=
  if content = [] then 0
  else if (nameMatches lower keywordsOf names content).Nonempty then
    (nameMatches lower keywordsOf names content).card * (1 / 2)
  else 0

/-- A chunk is returned if its score is positive. -/
def emit (c : Ranked Id C) (score : ℚ) : Option (Ranked Id C) :=
  if 0 < score then some ⟨c.chunkId, score, c.chunk⟩ else none

/-- `_expansion_cache` -/
abbrev Cache (Id : Type) := Id → Option ℚ

/-- The loop of `_lazy_expand_chunks`. -/
def expandLoop (names : Finset (List Char)) : Cache Id → List (Ranked Id C) → List (Ranked Id C) × Cache Id
  | cache, [] => ([], cache)
  | cache, c :: cs =>
      match cache c.chunkId with
      | some cached =>
          let rest := expandLoop names cache cs
          ((emit c cached).toList ++ rest.1, rest.2)
      | none =>
          let score := expansionScore lower keywordsOf names (contentOf c.chunk)
          let rest := expandLoop names (Function.update cache c.chunkId (some score)) cs
          ((emit c score).toList ++ rest.1, rest.2)

/-- `_lazy_expand_chunks` -/
def lazyExpandChunks (cache : Cache Id) (call : Call Id C) : List (Ranked Id C) × Cache Id :=
  if entityNames lower call = ∅ then ([], cache)
  else expandLoop lower keywordsOf contentOf (entityNames lower call) cache call.vectorOnlyChunks

/-- The calls of one retriever, from a cache. -/
def runCalls : Cache Id → List (Call Id C) → List (List (Ranked Id C))
  | _, [] => []
  | cache, call :: calls =>
      let r := lazyExpandChunks lower keywordsOf contentOf cache call
      r.1 :: runCalls r.2 calls

/-- The chunks whose keywords meet the names of the call, each with one half for a name. -/
def expansion (call : Call Id C) : List (Ranked Id C) :=
  call.vectorOnlyChunks.filterMap fun c =>
    emit c (expansionScore lower keywordsOf (entityNames lower call) (contentOf c.chunk))

/-! ## What the cache holds -/

/-- A chunk together with the names of the call that met it. -/
abbrev Scored (Id C : Type) := Finset (List Char) × Ranked Id C

def scoreOf (x : Scored Id C) : ℚ := expansionScore lower keywordsOf x.1 (contentOf x.2.chunk)

/-- The chunks that a call looks up. -/
def lookups (call : Call Id C) : List (Scored Id C) :=
  if entityNames lower call = ∅ then [] else call.vectorOnlyChunks.map fun c => (entityNames lower call, c)

/-- The cache after some lookups: every id has the score of its first chunk. -/
def firstScores (h : List (Scored Id C)) : Cache Id := fun id =>
  (h.find? fun x => decide (x.2.chunkId = id)).map (scoreOf lower keywordsOf contentOf)

theorem expansionScore_nonneg (names : Finset (List Char)) (content : List Char) :
    0 ≤ expansionScore lower keywordsOf names content := by
  unfold expansionScore
  split
  · exact le_refl 0
  · split
    · positivity
    · exact le_refl 0

theorem firstScores_append {h t : List (Scored Id C)} {id : Id} {v : ℚ}
    (hv : firstScores lower keywordsOf contentOf h id = some v) :
    firstScores lower keywordsOf contentOf (h ++ t) id = some v := by
  rw [firstScores, Option.map_eq_some_iff] at hv ⊢
  obtain ⟨x, hx, hs⟩ := hv
  exact ⟨x, by rw [List.find?_append, hx, Option.some_or], hs⟩

theorem firstScores_concat (h : List (Scored Id C)) (x : Scored Id C) :
    firstScores lower keywordsOf contentOf (h ++ [x]) =
      match firstScores lower keywordsOf contentOf h x.2.chunkId with
      | some _ => firstScores lower keywordsOf contentOf h
      | none => Function.update (firstScores lower keywordsOf contentOf h) x.2.chunkId
          (some (scoreOf lower keywordsOf contentOf x)) := by
  cases hx : firstScores lower keywordsOf contentOf h x.2.chunkId with
  | some v =>
      funext id
      by_cases hid : id = x.2.chunkId
      · rw [hid, firstScores_append lower keywordsOf contentOf hx]
        exact hx.symm
      · simp [firstScores, List.find?_append, Ne.symm hid]
  | none =>
      funext id
      by_cases hid : id = x.2.chunkId
      · subst hid
        rw [firstScores, Option.map_eq_none_iff] at hx
        simp [firstScores, List.find?_append, hx]
      · simp [firstScores, List.find?_append, Ne.symm hid, Function.update_of_ne hid]

/-- An id that was looked up has the score of one of its chunks. -/
theorem exists_firstScore {h : List (Scored Id C)} {x : Scored Id C} (hx : x ∈ h) :
    ∃ y ∈ h, y.2.chunkId = x.2.chunkId ∧
      firstScores lower keywordsOf contentOf h x.2.chunkId = some (scoreOf lower keywordsOf contentOf y) := by
  have hsome : (h.find? fun y => decide (y.2.chunkId = x.2.chunkId)).isSome = true := by
    rw [List.find?_isSome]
    exact ⟨x, hx, by simp⟩
  obtain ⟨y, hy⟩ := Option.isSome_iff_exists.mp hsome
  exact ⟨y, List.mem_of_find?_eq_some hy, by simpa using List.find?_some hy, by rw [firstScores, hy]; rfl⟩

/-- The answer to a call when the cache ends up with given scores. -/
def answer (scores : Cache Id) (cs : List (Ranked Id C)) : List (Ranked Id C) :=
  cs.filterMap fun c => (scores c.chunkId).bind (emit c)

omit [DecidableEq Id] in
theorem answer_cons (scores : Cache Id) {c : Ranked Id C} {v : ℚ} (h : scores c.chunkId = some v)
    (cs : List (Ranked Id C)) : answer scores (c :: cs) = (emit c v).toList ++ answer scores cs := by
  rw [answer, List.filterMap_cons, h, Option.bind_some]
  cases emit c v with
  | none => rfl
  | some r => rfl

/-- **The loop, from the cache that some lookups left**, ends with the cache of these and its own, and
answers from that one. -/
theorem expandLoop_firstScores (names : Finset (List Char)) (cs : List (Ranked Id C)) (h : List (Scored Id C)) :
    expandLoop lower keywordsOf contentOf names (firstScores lower keywordsOf contentOf h) cs =
      (answer (firstScores lower keywordsOf contentOf (h ++ cs.map fun c => (names, c))) cs,
        firstScores lower keywordsOf contentOf (h ++ cs.map fun c => (names, c))) := by
  induction cs generalizing h with
  | nil => simp [expandLoop, answer]
  | cons c cs ih =>
      have hstep := firstScores_concat lower keywordsOf contentOf h (names, c)
      have hih := ih (h ++ [(names, c)])
      rw [List.append_assoc, List.singleton_append] at hih
      -- the score under which the chunk is answered is in the cache from here on
      have hhead : ∀ v, firstScores lower keywordsOf contentOf (h ++ [(names, c)]) c.chunkId = some v →
          firstScores lower keywordsOf contentOf (h ++ (names, c) :: cs.map fun c => (names, c)) c.chunkId =
            some v := by
        intro v hv
        have := firstScores_append lower keywordsOf contentOf
          (t := cs.map fun c => (names, c)) hv
        rwa [List.append_assoc, List.singleton_append] at this
      rw [List.map_cons, expandLoop]
      cases hc : firstScores lower keywordsOf contentOf h c.chunkId with
      | some v =>
          rw [hc] at hstep
          simp only at hstep ⊢
          rw [← hstep, hih, answer_cons _ (hhead v (hstep ▸ hc))]
      | none =>
          rw [hc] at hstep
          simp only at hstep ⊢
          rw [show Function.update (firstScores lower keywordsOf contentOf h) c.chunkId
            (some (expansionScore lower keywordsOf names (contentOf c.chunk))) = _ from hstep.symm, hih,
            answer_cons _ (hhead (expansionScore lower keywordsOf names (contentOf c.chunk)) ?_)]
          rw [hstep, Function.update_self]
          rfl

theorem lazyExpandChunks_firstScores (call : Call Id C) (h : List (Scored Id C)) :
    lazyExpandChunks lower keywordsOf contentOf (firstScores lower keywordsOf contentOf h) call =
      (if entityNames lower call = ∅ then [] else
        answer (firstScores lower keywordsOf contentOf (h ++ lookups lower call)) call.vectorOnlyChunks,
        firstScores lower keywordsOf contentOf (h ++ lookups lower call)) := by
  unfold lazyExpandChunks lookups
  split
  · rw [List.append_nil]
  · exact expandLoop_firstScores lower keywordsOf contentOf _ _ _

/-- More lookups do not change an answer. -/
theorem answer_append (call : Call Id C) (h t : List (Scored Id C)) (hnames : entityNames lower call ≠ ∅)
    (hsub : ∀ x ∈ lookups lower call, x ∈ h) :
    answer (firstScores lower keywordsOf contentOf (h ++ t)) call.vectorOnlyChunks =
      answer (firstScores lower keywordsOf contentOf h) call.vectorOnlyChunks := by
  refine List.filterMap_congr fun c hc => ?_
  have hmem : (entityNames lower call, c) ∈ h := by
    refine hsub _ ?_
    rw [lookups, if_neg hnames]
    exact List.mem_map_of_mem hc
  obtain ⟨y, -, -, hy⟩ := exists_firstScore lower keywordsOf contentOf hmem
  rw [firstScores_append lower keywordsOf contentOf hy, hy]

/-- What a call answers in a run in which the chunks of `h` are looked up. -/
def answerCall (h : List (Scored Id C)) (call : Call Id C) : List (Ranked Id C) :=
  if entityNames lower call = ∅ then [] else
    answer (firstScores lower keywordsOf contentOf h) call.vectorOnlyChunks

/-- **A call answers with the score of the first chunk of an id that the run looks up**, whichever call
that was. -/
theorem run_outputs (calls : List (Call Id C)) (h : List (Scored Id C)) :
    runCalls lower keywordsOf contentOf (firstScores lower keywordsOf contentOf h) calls =
      calls.map (answerCall lower keywordsOf contentOf (h ++ calls.flatMap (lookups lower))) := by
  induction calls generalizing h with
  | nil => rfl
  | cons call calls ih =>
      rw [runCalls, lazyExpandChunks_firstScores]
      simp only [List.map_cons, List.flatMap_cons]
      rw [ih, List.append_assoc]
      congr 1
      unfold answerCall
      split
      case isTrue => rfl
      case isFalse hnames =>
        rw [← List.append_assoc]
        exact (answer_append lower keywordsOf contentOf call _ _ hnames
          fun x hx => List.mem_append_right _ hx).symm

/-! ## Transparency -/

omit [DecidableEq Id] in
/-- An answer tells the score of every chunk. -/
theorem score_eq_of_answer {scores : Cache Id} {f : List Char → ℚ} {cs : List (Ranked Id C)}
    (hpos : ∀ id v, scores id = some v → 0 ≤ v) (hf : ∀ x, 0 ≤ f x)
    (h : answer scores cs = cs.filterMap fun c => emit c (f (contentOf c.chunk))) {c : Ranked Id C} (hc : c ∈ cs)
    {v : ℚ} (hv : scores c.chunkId = some v) : v = f (contentOf c.chunk) := by
  rcases (hpos _ _ hv).eq_or_lt with hzero | hlt
  · -- the answer has no entry of the chunk, so the other side has none
    subst hzero
    by_contra hne
    have hfpos : 0 < f (contentOf c.chunk) := lt_of_le_of_ne (hf _) hne
    have hmem : (⟨c.chunkId, f (contentOf c.chunk), c.chunk⟩ : Ranked Id C) ∈ answer scores cs := by
      rw [h, List.mem_filterMap]
      exact ⟨c, hc, by rw [emit, if_pos hfpos]⟩
    obtain ⟨d, -, hd⟩ := List.mem_filterMap.mp hmem
    obtain ⟨w, hw, hd⟩ := Option.bind_eq_some_iff.mp hd
    rw [emit] at hd
    split at hd
    case isFalse => cases hd
    case isTrue hw0 =>
      simp only [Option.some.injEq, Ranked.mk.injEq] at hd
      rw [hd.1, hv] at hw
      cases hw
      exact absurd hw0 (lt_irrefl _)
  · have hmem : (⟨c.chunkId, v, c.chunk⟩ : Ranked Id C) ∈ answer scores cs := by
      refine List.mem_filterMap.mpr ⟨c, hc, ?_⟩
      rw [hv, Option.bind_some, emit, if_pos hlt]
    rw [h] at hmem
    obtain ⟨d, -, hd⟩ := List.mem_filterMap.mp hmem
    rw [emit] at hd
    split at hd
    case isFalse => cases hd
    case isTrue =>
      simp only [Option.some.injEq, Ranked.mk.injEq] at hd
      rw [← hd.2.1, hd.2.2]

/-- Every call of the run returns what it returns with an empty cache: the chunks whose keywords meet
its names. -/
def Transparent (calls : List (Call Id C)) : Prop :=
  runCalls lower keywordsOf contentOf (fun _ => none) calls =
      calls.map (fun call => (lazyExpandChunks lower keywordsOf contentOf (fun _ => none) call).1) ∧
    runCalls lower keywordsOf contentOf (fun _ => none) calls =
      calls.map (expansion lower keywordsOf contentOf)

/-- Chunks of one id that calls with a name look up have one score, under the names of each call. -/
def OneScore (h : List (Scored Id C)) : Prop :=
  ∀ x ∈ h, ∀ y ∈ h, x.2.chunkId = y.2.chunkId →
    scoreOf lower keywordsOf contentOf x = scoreOf lower keywordsOf contentOf y

omit [DecidableEq Id] in
theorem expansion_of_no_names {call : Call Id C} (h : entityNames lower call = ∅) :
    expansion lower keywordsOf contentOf call = [] := by
  rw [expansion, List.filterMap_eq_nil_iff]
  intro c _
  simp [h, nameMatches, expansionScore, emit]

theorem answerCall_eq_expansion {h : List (Scored Id C)} (hone : OneScore lower keywordsOf contentOf h)
    {call : Call Id C} (hsub : ∀ x ∈ lookups lower call, x ∈ h) :
    answerCall lower keywordsOf contentOf h call = expansion lower keywordsOf contentOf call := by
  unfold answerCall
  split
  case isTrue hnames => exact (expansion_of_no_names lower keywordsOf contentOf hnames).symm
  case isFalse hnames =>
    refine List.filterMap_congr fun c hc => ?_
    have hmem : (entityNames lower call, c) ∈ h := by
      refine hsub _ ?_
      rw [lookups, if_neg hnames]
      exact List.mem_map_of_mem hc
    obtain ⟨y, hy, hid, hfirst⟩ := exists_firstScore lower keywordsOf contentOf hmem
    rw [hfirst, Option.bind_some, hone y hy _ hmem hid]
    rfl

/-- **The cache is transparent exactly if an id has one score**: whenever a chunk comes again, in a call
with an entity name, as many names match it as at its first time. -/
theorem transparent_iff (calls : List (Call Id C)) :
    Transparent lower keywordsOf contentOf calls ↔
      OneScore lower keywordsOf contentOf (calls.flatMap (lookups lower)) := by
  have hrun := run_outputs lower keywordsOf contentOf calls []
  have hempty : firstScores lower keywordsOf contentOf ([] : List (Scored Id C)) = fun _ => none := rfl
  rw [hempty, List.nil_append] at hrun
  have hsub : ∀ call ∈ calls, ∀ x ∈ lookups lower call, x ∈ calls.flatMap (lookups lower) :=
    fun call hcall x hx => List.mem_flatMap.mpr ⟨call, hcall, hx⟩
  constructor
  · rintro ⟨-, h⟩
    rw [hrun, List.map_inj_left] at h
    -- every chunk has the score that its id got first
    have hfirst : ∀ x ∈ calls.flatMap (lookups lower),
        firstScores lower keywordsOf contentOf (calls.flatMap (lookups lower)) x.2.chunkId =
          some (scoreOf lower keywordsOf contentOf x) := by
      intro x hx
      obtain ⟨call, hcall, hxc⟩ := List.mem_flatMap.mp hx
      have hcallEq := h call hcall
      rw [lookups] at hxc
      split at hxc
      case isTrue => cases hxc
      case isFalse hnames =>
        obtain ⟨c, hc, rfl⟩ := List.mem_map.mp hxc
        obtain ⟨y, -, -, hv⟩ := exists_firstScore lower keywordsOf contentOf hx
        rw [answerCall, if_neg hnames] at hcallEq
        have hscore := score_eq_of_answer contentOf (fun id v hv => ?_)
          (expansionScore_nonneg lower keywordsOf (entityNames lower call)) hcallEq hc hv
        · rw [hv, hscore]
          rfl
        · obtain ⟨z, -, rfl⟩ := Option.map_eq_some_iff.mp hv
          exact expansionScore_nonneg lower keywordsOf _ _
    intro x hx y hy hid
    have := (hfirst x hx).symm.trans (hid ▸ hfirst y hy)
    exact Option.some.inj this
  · intro hone
    rw [Transparent, hrun, List.map_inj_left, List.map_inj_left]
    refine ⟨fun call hcall => ?_, fun call hcall =>
      answerCall_eq_expansion lower keywordsOf contentOf hone (hsub call hcall)⟩
    rw [answerCall_eq_expansion lower keywordsOf contentOf hone (hsub call hcall), ← hempty,
      lazyExpandChunks_firstScores, List.nil_append]
    refine (answerCall_eq_expansion lower keywordsOf contentOf (h := lookups lower call) ?_ fun _ hx => hx).symm
    exact fun x hx y hy hid => hone x (hsub call hcall x hx) y (hsub call hcall y hy) hid

end Expand

/-- The word characters of ASCII. -/
def asciiWord (c : Char) : Bool := c.isAlphanum || c == '_'

/-- A call that finds one chunk, with one entry entity of the given name. -/
def callAbout (name : String) : Call ℕ (List Char) where
  vectorOnlyChunks := [⟨1, 9 / 10, "Paris hosts the summit.".toList⟩]
  entryEntities := [(10, 1)]
  entityInfoMap := fun _ => some fun key => if key = "name" then some name.toList else none

/-- A recall about Paris scores the chunk; the next one is about Berlin, and the chunk is returned for
it with the old score. -/
theorem staleScore_returned :
    ¬ Transparent (List.map Char.toLower) (extractKeywords (List.map Char.toLower) asciiWord) id
      [callAbout "Paris", callAbout "Berlin"] := by
  rintro ⟨-, h⟩
  revert h
  decide +kernel

end LazyExpansion

end Khora
