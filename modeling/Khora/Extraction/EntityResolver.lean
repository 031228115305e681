import Mathlib.Algebra.Order.Ring.Rat
import Mathlib.Data.List.Sort
import Mathlib.Order.Bounds.Basic

/-!
# Matching a name against the cached entities

`resolve` tries its strategies one after the other; an entity that one of them matched is skipped by
the next, and the best candidate decides.

* `mem_candidates` — the candidates are the entities with the score of the first strategy that matches.
* `resolve_eq_of_candidates` — the result carries the greatest of these scores.
* `bestEvidence_iff` — it is the greatest score of all strategies exactly if no skipped score is above
  every score that was taken.
* `aliasFirst_diverges` — a person with a shared alias and the same email is not merged.
-/

namespace Khora

namespace EntityResolver

/-! ## Data -/

/-- The texts of `attributes`. -/
abbrev Attributes := List (String × String)

/-- What `resolve` reads of an entity; `aliases` is `metadata["aliases"]`. -/
structure Entity (Id : Type) where
  id : Id
  name : String
  entityType : String
  attributes : Attributes
  aliases : List String
deriving DecidableEq

inductive MatchType where
  | exact
  | alias
  | attribute
  | fuzzy
  | embedding
deriving DecidableEq

structure ResolutionCandidate (Id F : Type) where
  entity : Entity Id
  matchType : MatchType
  score : F
deriving DecidableEq

structure ResolutionResult (Id F : Type) where
  isDuplicate : Bool
  existingEntity : Option (Entity Id)
  matchType : Option MatchType
  matchScore : F
  shouldMerge : Bool
deriving DecidableEq

/-- Strings, floats and the similarities of other modules. -/
structure Scoring (F : Type) where
  lower : String → String
  upper : String → String
  strip : String → String
  /-- a float literal -/
  lit : ℚ → F
  mul : F → F → F
  /-- `sum(scores) / len(scores)` -/
  mean : List F → F
  levenshteinSimilarity : String → String → F
  sequenceMatchRatio : String → String → F
  /-- the attribute similarity of the types other than `PERSON` -/
  otherAttributeSimilarity : String → Attributes → Attributes → Option F

structure Config (F : Type) where
  exactMatch : Bool
  aliasMatch : Bool
  attributeMatch : Bool
  fuzzyMatch : Bool
  embeddingMatch : Bool
  fuzzyThreshold : F
  mergeThresholds : List (String × F)

/-- The arguments of a call; `similar` is what the embedding search yields before it fails or ends,
nothing without an embedder or a description. -/
structure Query (Id F : Type) where
  name : String
  entityType : String
  aliases : List String
  attributes : Attributes
  similar : List (Entity Id × F)

variable {Id F : Type} [DecidableEq Id] [LinearOrder F]

/-! ## Scores -/

/-- `_merge_thresholds or DEFAULT_MERGE_THRESHOLDS.copy()` -/
def defaultMergeThresholds : List (String × ℚ) :=
  [("PERSON", 0.92), ("ORGANIZATION", 0.88), ("LOCATION", 0.85), ("CONCEPT", 0.82), ("EVENT", 0.80),
    ("TECHNOLOGY", 0.85), ("PRODUCT", 0.85), ("DATE", 0.95)]

/-- `_get_merge_threshold` -/
def getMergeThreshold (S : Scoring F) (cfg : Config F) (entityType : String) : F :=
  let thresholds := if cfg.mergeThresholds.isEmpty then
    defaultMergeThresholds.map fun p => (p.1, S.lit p.2) else cfg.mergeThresholds
  (thresholds.lookup (S.upper entityType)).getD (S.lit 0.85)

/-- `_normalize_email`; no email is the empty text. -/
def normalizeEmail (S : Scoring F) (email : Option String) : String :=
  let email := email.getD ""
  if email = "" then "" else S.strip (S.lower email)

/-- One text that both entities have, as a weighted score. -/
def weighted (S : Scoring F) (key : String) (weight : ℚ) (attrs₁ attrs₂ : Attributes) : List F :=
  let text₁ := (attrs₁.lookup key).getD ""
  let text₂ := (attrs₂.lookup key).getD ""
  if text₁ ≠ "" ∧ text₂ ≠ "" then
    [S.mul (S.levenshteinSimilarity (S.lower text₁) (S.lower text₂)) (S.lit weight)]
  else []

/-- `_compute_person_attribute_similarity` -/
def computePersonAttributeSimilarity (S : Scoring F) (attrs₁ attrs₂ : Attributes) : Option F :=
  let email₁ := normalizeEmail S (attrs₁.lookup "email")
  let email₂ := normalizeEmail S (attrs₂.lookup "email")
  if email₁ ≠ "" ∧ email₂ ≠ "" then
    if email₁ = email₂ then some (S.lit 1.0) else some (S.lit 0.3)
  else
    let scores := weighted S "title" 0.7 attrs₁ attrs₂ ++ weighted S "organization" 0.8 attrs₁ attrs₂
    if scores.isEmpty then none else some (S.mean scores)

/-- `_compute_attribute_similarity` -/
def computeAttributeSimilarity (S : Scoring F) (attrs₁ attrs₂ : Attributes) (entityType : String) :
    Option F :=
  if S.upper entityType = "PERSON" then computePersonAttributeSimilarity S attrs₁ attrs₂
  else S.otherAttributeSimilarity (S.upper entityType) attrs₁ attrs₂

/-! ## Strategies -/

/-- The name is that of the entity, up to case. -/
def sameName (S : Scoring F) (name : String) (e : Entity Id) : Bool := S.lower e.name == S.lower name

def aliasScore (S : Scoring F) (q : Query Id F) (e : Entity Id) : Option F :=
  let aliasesLower := q.aliases.map S.lower
  let entityAliasesLower := e.aliases.map S.lower
  if S.lower q.name ∈ entityAliasesLower then some (S.lit 0.95)
  else if S.lower e.name ∈ aliasesLower then some (S.lit 0.95)
  else if aliasesLower.any (entityAliasesLower.contains ·) then some (S.lit 0.9)
  else none

def attributeScore (S : Scoring F) (cfg : Config F) (q : Query Id F) (e : Entity Id) : Option F :=
  (computeAttributeSimilarity S q.attributes e.attributes q.entityType).filter fun score =>
    decide (getMergeThreshold S cfg q.entityType ≤ score)

def fuzzyScore (S : Scoring F) (cfg : Config F) (q : Query Id F) (e : Entity Id) : Option F :=
  (some (S.sequenceMatchRatio (S.lower q.name) (S.lower e.name))).filter fun ratio =>
    decide (cfg.fuzzyThreshold ≤ ratio)

/-- `entity in [c.entity for c in candidates]` -/
def matched (candidates : List (ResolutionCandidate Id F)) (e : Entity Id) : Bool :=
  candidates.any fun c => decide (c.entity = e)

/-- The alias strategy, the first. -/
def aliasCandidates (S : Scoring F) (q : Query Id F) (existing : List (Entity Id)) :
    List (ResolutionCandidate Id F) :=
  existing.filterMap fun e => (aliasScore S q e).map fun score => ⟨e, .alias, score⟩

/-- A later strategy: what is matched already is skipped. -/
def extend (kind : MatchType) (score : Entity Id → Option F) (existing : List (Entity Id))
    (candidates : List (ResolutionCandidate Id F)) : List (ResolutionCandidate Id F) :=
  existing.foldl (fun candidates e =>
    if matched candidates e then candidates
    else candidates ++ ((score e).map fun s => ⟨e, kind, s⟩).toList) candidates

/-- The embedding strategy, over what its search found. -/
def extendSimilar (q : Query Id F) (candidates : List (ResolutionCandidate Id F)) :
    List (ResolutionCandidate Id F) :=
  q.similar.foldl (fun candidates p =>
    if p.1.entityType ≠ q.entityType ∨ matched candidates p.1 then candidates
    else candidates ++ [⟨p.1, .embedding, p.2⟩]) candidates

/-- The candidates of all strategies but the exact one. -/
def candidates (S : Scoring F) (cfg : Config F) (q : Query Id F) (existing : List (Entity Id)) :
    List (ResolutionCandidate Id F) :=
  let candidates := if cfg.aliasMatch then aliasCandidates S q existing else []
  let candidates := if cfg.attributeMatch && !q.attributes.isEmpty then
    extend .attribute (attributeScore S cfg q) existing candidates else candidates
  let candidates := if cfg.fuzzyMatch then extend .fuzzy (fuzzyScore S cfg q) existing candidates
    else candidates
  if cfg.embeddingMatch then extendSimilar q candidates else candidates

/-- `resolve` against the cached entities of the type. -/
def resolve (S : Scoring F) (cfg : Config F) (q : Query Id F) (existing : List (Entity Id)) :
    ResolutionResult Id F :=
  match if cfg.exactMatch then existing.find? (sameName S q.name) else none with
  | some e => ⟨true, some e, some .exact, S.lit 1.0, true⟩
  | none =>
    match (candidates S cfg q existing).insertionSort fun a b => b.score ≤ a.score with
    | best :: _ => ⟨true, some best.entity, some best.matchType, best.score,
        decide (getMergeThreshold S cfg q.entityType ≤ best.score)⟩
    | [] => ⟨false, none, none, S.lit 0.0, false⟩

/-! ## Candidates -/

variable {S : Scoring F} {cfg : Config F} {q : Query Id F} {existing : List (Entity Id)}

omit [LinearOrder F] in
theorem matched_iff {cs : List (ResolutionCandidate Id F)} {e : Entity Id} :
    matched cs e = true ↔ ∃ c ∈ cs, c.entity = e := by
  simp [matched]

omit [LinearOrder F] in
/-- What a later strategy adds: the entities that were not matched, with its score. -/
theorem mem_extend {kind : MatchType} {score : Entity Id → Option F}
    {cs : List (ResolutionCandidate Id F)} {c : ResolutionCandidate Id F} :
    c ∈ extend kind score existing cs ↔ c ∈ cs ∨ (c.entity ∈ existing ∧ (∀ d ∈ cs, d.entity ≠ c.entity) ∧
      c.matchType = kind ∧ score c.entity = some c.score) := by
  induction existing generalizing cs with
  | nil => simp [extend]
  | cons e existing ih =>
      show c ∈ extend kind score existing (if matched cs e then cs
        else cs ++ ((score e).map fun s => ⟨e, kind, s⟩).toList) ↔ _
      by_cases hm : matched cs e = true
      · rw [if_pos hm, ih]
        obtain ⟨d, hd, rfl⟩ := matched_iff.mp hm
        apply or_congr_right
        constructor
        · intro h
          exact ⟨List.mem_cons_of_mem _ h.1, h.2⟩
        · intro h
          exact ⟨(List.mem_cons.mp h.1).resolve_left fun heq => h.2.1 d hd heq.symm, h.2⟩
      · rw [if_neg hm, ih]
        rw [matched_iff] at hm
        push Not at hm
        cases hs : score e with
        | none =>
            simp only [Option.map_none, Option.toList_none, List.append_nil]
            apply or_congr_right
            constructor
            · intro h
              exact ⟨List.mem_cons_of_mem _ h.1, h.2⟩
            · intro h
              refine ⟨(List.mem_cons.mp h.1).resolve_left fun heq => ?_, h.2⟩
              rw [heq, hs] at h
              cases h.2.2.2
        | some s =>
            simp only [Option.map_some, Option.toList_some, List.mem_append, List.mem_singleton]
            constructor
            · rintro ((h | rfl) | h)
              · exact Or.inl h
              · exact Or.inr ⟨List.mem_cons_self, hm, rfl, hs⟩
              · exact Or.inr ⟨List.mem_cons_of_mem _ h.1, fun d hd => h.2.1 d (Or.inl hd), h.2.2⟩
            · rintro (h | ⟨hmem, hnew, hkind, hscore⟩)
              · exact Or.inl (Or.inl h)
              · by_cases heq : c.entity = e
                · refine Or.inl (Or.inr ?_)
                  rw [heq, hs] at hscore
                  cases c
                  simp_all
                · refine Or.inr ⟨(List.mem_cons.mp hmem).resolve_left heq, ?_, hkind, hscore⟩
                  rintro d (hd | rfl)
                  · exact hnew d hd
                  · exact fun h => heq h.symm

omit [DecidableEq Id] [LinearOrder F] in
theorem mem_aliasCandidates {c : ResolutionCandidate Id F} : c ∈ aliasCandidates S q existing ↔
    c.entity ∈ existing ∧ c.matchType = .alias ∧ aliasScore S q c.entity = some c.score := by
  simp only [aliasCandidates, List.mem_filterMap, Option.map_eq_some_iff]
  constructor
  · rintro ⟨e, he, s, hs, rfl⟩
    exact ⟨he, rfl, hs⟩
  · rintro ⟨he, hkind, hs⟩
    exact ⟨c.entity, he, c.score, hs, by rw [← hkind]⟩

/-- The scores of an entity, over the strategies that are on, in their order. -/
def scores (S : Scoring F) (cfg : Config F) (q : Query Id F) (e : Entity Id) : List F :=
  (if cfg.aliasMatch then (aliasScore S q e).toList else []) ++
    (if cfg.attributeMatch && !q.attributes.isEmpty then (attributeScore S cfg q e).toList else []) ++
      (if cfg.fuzzyMatch then (fuzzyScore S cfg q e).toList else [])

omit [LinearOrder F] in
/-- A strategy that is on, or is not. -/
theorem mem_extend_if {on : Bool} {kind : MatchType} {score : Entity Id → Option F}
    {cs : List (ResolutionCandidate Id F)} {before : Entity Id → List F}
    (hcs : ∀ e s, (∃ c ∈ cs, c.entity = e ∧ c.score = s) ↔ e ∈ existing ∧ s ∈ (before e).head?)
    (e : Entity Id) (s : F) :
    (∃ c ∈ (if on then extend kind score existing cs else cs), c.entity = e ∧ c.score = s) ↔
      e ∈ existing ∧ s ∈ (before e ++ if on then (score e).toList else []).head? := by
  cases on with
  | false => simpa using hcs e s
  | true =>
      simp only [if_true, mem_extend]
      cases hb : before e with
      | cons b rest =>
          have hmem := hcs e s
          rw [hb] at hmem
          rw [List.cons_append]
          refine Iff.trans ?_ hmem
          constructor
          · rintro ⟨c, hc | ⟨he, hnew, -, -⟩, rfl, rfl⟩
            · exact ⟨c, hc, rfl, rfl⟩
            · obtain ⟨d, hd, hde, -⟩ := (hcs c.entity b).mpr ⟨he, by rw [hb]; rfl⟩
              exact absurd hde (hnew d hd)
          · rintro ⟨c, hc, heq⟩
            exact ⟨c, Or.inl hc, heq⟩
      | nil =>
          have hnone : ∀ d ∈ cs, d.entity ≠ e := by
            rintro d hd rfl
            have h := ((hcs d.entity d.score).mp ⟨d, hd, rfl, rfl⟩).2
            rw [hb] at h
            cases h
          constructor
          · rintro ⟨c, hc | ⟨he, -, -, hs⟩, rfl, rfl⟩
            · exact absurd rfl (hnone c hc)
            · exact ⟨he, by rw [hs]; rfl⟩
          · rintro ⟨he, hs⟩
            refine ⟨⟨e, kind, s⟩, Or.inr ⟨he, hnone, rfl, ?_⟩, rfl, rfl⟩
            cases hse : score e with
            | none => rw [hse] at hs; cases hs
            | some t => rw [hse] at hs; exact hs

/-- **The candidates** carry the score of the first strategy that matches. -/
theorem mem_candidates (hembed : cfg.embeddingMatch = false) (e : Entity Id) (s : F) :
    (∃ c ∈ candidates S cfg q existing, c.entity = e ∧ c.score = s) ↔
      e ∈ existing ∧ s ∈ (scores S cfg q e).head? := by
  simp only [candidates, hembed, scores]
  apply mem_extend_if
  apply mem_extend_if
  intro e s
  cases cfg.aliasMatch with
  | false => simp
  | true =>
      simp only [if_true, mem_aliasCandidates]
      constructor
      · rintro ⟨c, ⟨he, -, hs⟩, rfl, rfl⟩
        exact ⟨he, by rw [hs]; rfl⟩
      · rintro ⟨he, hs⟩
        refine ⟨⟨e, .alias, s⟩, ⟨he, rfl, ?_⟩, rfl, rfl⟩
        cases hse : aliasScore S q e with
        | none => rw [hse] at hs; cases hs
        | some t => rw [hse] at hs; exact hs

omit [LinearOrder F] in
theorem mem_extendSimilar {cs : List (ResolutionCandidate Id F)} {c : ResolutionCandidate Id F}
    (h : c ∈ extendSimilar q cs) : c ∈ cs ∨ c.matchType = .embedding := by
  unfold extendSimilar at h
  generalize q.similar = similar at h
  induction similar generalizing cs with
  | nil => exact Or.inl h
  | cons p similar ih =>
      rw [List.foldl_cons] at h
      rcases ih h with hc | hc
      · split at hc
        · exact Or.inl hc
        · rcases List.mem_append.mp hc with hc | hc
          · exact Or.inl hc
          · exact Or.inr (by rw [List.mem_singleton.mp hc])
      · exact Or.inr hc

/-- No other strategy reports an exact match. -/
theorem matchType_ne_exact {c : ResolutionCandidate Id F} (h : c ∈ candidates S cfg q existing) :
    c.matchType ≠ .exact := by
  have hextend : ∀ {on : Bool} {kind score} {cs : List (ResolutionCandidate Id F)}, kind ≠ .exact →
      (∀ d ∈ cs, d.matchType ≠ .exact) →
      ∀ d ∈ (if on then extend kind score existing cs else cs), d.matchType ≠ .exact := by
    intro on kind score cs hkind hcs d hd
    split at hd
    · rcases mem_extend.mp hd with hd | ⟨-, -, htype, -⟩
      · exact hcs d hd
      · rw [htype]
        exact hkind
    · exact hcs d hd
  have halias : ∀ d ∈ (if cfg.aliasMatch then aliasCandidates S q existing else []),
      d.matchType ≠ .exact := by
    intro d hd
    split at hd
    · rw [(mem_aliasCandidates.mp hd).2.1]
      decide
    · cases hd
  have hall := @hextend cfg.fuzzyMatch .fuzzy (fuzzyScore S cfg q) _ (by decide)
    (@hextend (cfg.attributeMatch && !q.attributes.isEmpty) .attribute (attributeScore S cfg q) _
      (by decide) halias)
  cases hembed : cfg.embeddingMatch with
  | false =>
      simp only [candidates, hembed] at h
      exact hall c h
  | true =>
      simp only [candidates, hembed, if_true] at h
      rcases mem_extendSimilar h with hc | hc
      · exact hall c hc
      · rw [hc]
        decide

/-- **An exact match** is what a call returns exactly if an entity has the name. -/
theorem resolve_exact_iff (hexact : cfg.exactMatch = true) :
    (resolve S cfg q existing).matchType = some .exact ↔ ∃ e ∈ existing, sameName S q.name e = true := by
  cases hfind : existing.find? (sameName S q.name) with
  | some e =>
      simp only [resolve, hexact, if_true, hfind]
      exact iff_of_true trivial ⟨e, List.mem_of_find?_eq_some hfind, List.find?_some hfind⟩
  | none =>
      simp only [resolve, hexact, if_true, hfind]
      refine iff_of_false ?_ ?_
      · cases hsort : (candidates S cfg q existing).insertionSort fun a b => b.score ≤ a.score with
        | nil => simp
        | cons best rest =>
            have hmem : best ∈ candidates S cfg q existing := by
              rw [← List.mem_insertionSort (fun a b : ResolutionCandidate Id F => b.score ≤ a.score), hsort]
              exact List.mem_cons_self
            simpa using matchType_ne_exact hmem
      · rintro ⟨e, he, hname⟩
        exact List.find?_eq_none.mp hfind e he hname

/-- All strategies but the exact one are off. -/
def Config.ExactOnly (cfg : Config F) : Prop :=
  cfg.aliasMatch = false ∧ cfg.attributeMatch = false ∧ cfg.fuzzyMatch = false ∧ cfg.embeddingMatch = false

/-- Without the other strategies a duplicate is an exact match. -/
theorem resolve_isDuplicate_iff (hexact : cfg.exactMatch = true) (honly : cfg.ExactOnly) :
    (resolve S cfg q existing).isDuplicate = true ↔ ∃ e ∈ existing, sameName S q.name e = true := by
  obtain ⟨h₁, h₂, h₃, h₄⟩ := honly
  have hnil : candidates S cfg q existing = [] := by simp [candidates, h₁, h₂, h₃, h₄]
  cases hfind : existing.find? (sameName S q.name) with
  | some e =>
      simp only [resolve, hexact, if_true, hfind]
      exact iff_of_true trivial ⟨e, List.mem_of_find?_eq_some hfind, List.find?_some hfind⟩
  | none =>
      simp only [resolve, hexact, if_true, hfind, hnil, List.insertionSort_nil]
      refine iff_of_false Bool.false_ne_true ?_
      rintro ⟨e, he, hname⟩
      exact List.find?_eq_none.mp hfind e he hname

/-! ## The best one -/

omit [DecidableEq Id] in
/-- The first of the sorted candidates has the greatest score. -/
theorem le_head {cs rest : List (ResolutionCandidate Id F)} {best : ResolutionCandidate Id F}
    (h : (cs.insertionSort fun a b => b.score ≤ a.score) = best :: rest) :
    best ∈ cs ∧ ∀ c ∈ cs, c.score ≤ best.score := by
  have htotal : Std.Total fun a b : ResolutionCandidate Id F => b.score ≤ a.score :=
    ⟨fun a b => le_total b.score a.score⟩
  have htrans : IsTrans (ResolutionCandidate Id F) fun a b => b.score ≤ a.score :=
    ⟨fun _ _ _ hab hbc => le_trans hbc hab⟩
  have hmem : ∀ c, c ∈ best :: rest ↔ c ∈ cs := by
    intro c
    rw [← h]
    exact List.mem_insertionSort _
  have hsorted := List.pairwise_insertionSort (fun a b : ResolutionCandidate Id F => b.score ≤ a.score) cs
  rw [h, List.pairwise_cons] at hsorted
  refine ⟨(hmem best).mp List.mem_cons_self, fun c hc => ?_⟩
  rcases List.mem_cons.mp ((hmem c).mpr hc) with rfl | hrest
  · exact le_rfl
  · exact hsorted.1 c hrest

/-- No other entity has the name. -/
def NoExact (S : Scoring F) (cfg : Config F) (q : Query Id F) (existing : List (Entity Id)) : Prop :=
  cfg.exactMatch = true → ∀ e ∈ existing, sameName S q.name e = false

/-- **The result** carries the greatest of the scores that were taken. -/
theorem resolve_eq_of_candidates (hembed : cfg.embeddingMatch = false)
    (hexact : NoExact S cfg q existing) {e : Entity Id} {s : F} (he : e ∈ existing)
    (hs : s ∈ (scores S cfg q e).head?) :
    IsGreatest {t | ∃ e ∈ existing, t ∈ (scores S cfg q e).head?} (resolve S cfg q existing).matchScore ∧
      (resolve S cfg q existing).shouldMerge =
        decide (getMergeThreshold S cfg q.entityType ≤ (resolve S cfg q existing).matchScore) := by
  have hnone : (if cfg.exactMatch then existing.find? (sameName S q.name) else none) = none := by
    cases hcfg : cfg.exactMatch with
    | false => rfl
    | true =>
        rw [if_pos rfl, List.find?_eq_none]
        intro e he
        rw [hexact hcfg e he]
        exact Bool.false_ne_true
  obtain ⟨c, hc, -, -⟩ := (mem_candidates hembed e s).mpr ⟨he, hs⟩
  cases hsort : (candidates S cfg q existing).insertionSort fun a b => b.score ≤ a.score with
  | nil =>
      have := (List.mem_insertionSort (fun a b : ResolutionCandidate Id F => b.score ≤ a.score)).mpr hc
      rw [hsort] at this
      cases this
  | cons best rest =>
      have hbest := le_head hsort
      simp only [resolve, hnone, hsort]
      refine ⟨⟨⟨best.entity, (mem_candidates hembed _ _).mp ⟨best, hbest.1, rfl, rfl⟩⟩, ?_⟩, trivial⟩
      rintro t ⟨e', ht⟩
      obtain ⟨d, hd, -, rfl⟩ := (mem_candidates hembed e' t).mpr ht
      exact hbest.2 d hd

/-- The best evidence decides. -/
structure BestEvidence (S : Scoring F) (cfg : Config F) (q : Query Id F) (existing : List (Entity Id)) :
    Prop where
  merges : ∀ e ∈ existing, ∀ s ∈ scores S cfg q e, getMergeThreshold S cfg q.entityType ≤ s →
    (resolve S cfg q existing).shouldMerge = true
  score : (∃ e ∈ existing, scores S cfg q e ≠ []) →
    IsGreatest {s | ∃ e ∈ existing, s ∈ scores S cfg q e} (resolve S cfg q existing).matchScore

/-- No strategy that was skipped for an entity has a score above all that were taken. -/
def SkippedNotBetter (S : Scoring F) (cfg : Config F) (q : Query Id F) (existing : List (Entity Id)) :
    Prop :=
  ∀ e ∈ existing, ∀ s ∈ (scores S cfg q e).tail, ∃ e' ∈ existing, ∃ t ∈ (scores S cfg q e').head?, s ≤ t

/-- **The best evidence decides** exactly if none is better among what is skipped. -/
theorem bestEvidence_iff (S : Scoring F) (cfg : Config F) (q : Query Id F) (existing : List (Entity Id))
    (hembed : cfg.embeddingMatch = false) (hexact : NoExact S cfg q existing) :
    BestEvidence S cfg q existing ↔ SkippedNotBetter S cfg q existing := by
  have hhead : ∀ {e : Entity Id}, scores S cfg q e ≠ [] → ∃ t, t ∈ (scores S cfg q e).head? := by
    intro e hne
    obtain ⟨t, rest, h⟩ := List.exists_cons_of_ne_nil hne
    exact ⟨t, by rw [h]; rfl⟩
  constructor
  · intro h e he s hs
    have hmem : s ∈ scores S cfg q e := List.mem_of_mem_tail hs
    have hne := List.ne_nil_of_mem hmem
    obtain ⟨t, ht⟩ := hhead hne
    obtain ⟨⟨e', he', htaken⟩, -⟩ := (resolve_eq_of_candidates hembed hexact he ht).1
    exact ⟨e', he', _, htaken, (h.score ⟨e, he, hne⟩).2 ⟨e, he, hmem⟩⟩
  · intro h
    have hle : ∀ e ∈ existing, ∀ s ∈ scores S cfg q e, s ≤ (resolve S cfg q existing).matchScore := by
      intro e he s hs
      have htaken : ∃ e' ∈ existing, ∃ t ∈ (scores S cfg q e').head?, s ≤ t := by
        cases hsc : scores S cfg q e with
        | nil => rw [hsc] at hs; cases hs
        | cons t rest =>
            rcases List.mem_cons.mp (hsc ▸ hs) with rfl | hrest
            · exact ⟨e, he, s, by rw [hsc]; rfl, le_rfl⟩
            · exact h e he s (by rw [hsc]; exact hrest)
      obtain ⟨e', he', t, ht, hst⟩ := htaken
      exact hst.trans ((resolve_eq_of_candidates hembed hexact he' ht).1.2 ⟨e', he', ht⟩)
    constructor
    · intro e he s hs hmerge
      obtain ⟨t, ht⟩ := hhead (List.ne_nil_of_mem hs)
      rw [(resolve_eq_of_candidates hembed hexact he ht).2]
      exact decide_eq_true (hmerge.trans (hle e he s hs))
    · rintro ⟨e, he, hne⟩
      obtain ⟨t, ht⟩ := hhead hne
      obtain ⟨⟨e', he', htaken⟩, -⟩ := (resolve_eq_of_candidates hembed hexact he ht).1
      refine ⟨⟨e', he', List.mem_of_mem_head? htaken⟩, ?_⟩
      rintro s ⟨e, he, hs⟩
      exact hle e he s hs

/-! ## A shared alias and the same email -/

/-- Texts in lower case without spaces around them; different names of the example have 12 of 16
letters in common. -/
def plainScoring : Scoring ℚ where
  lower := id
  upper := id
  strip := id
  lit := id
  mul := (· * ·)
  mean := fun scores => scores.sum / scores.length
  levenshteinSimilarity := fun a b => if a = b then 1 else 0
  sequenceMatchRatio := fun a b => if a = b then 1 else 3 / 4
  otherAttributeSimilarity := fun _ _ _ => none

/-- The defaults, without the embedding strategy. -/
def defaultConfig : Config ℚ where
  exactMatch := true
  aliasMatch := true
  attributeMatch := true
  fuzzyMatch := true
  embeddingMatch := false
  fuzzyThreshold := 0.85
  mergeThresholds := []

def johnSmith : Entity ℕ :=
  ⟨0, "john smith", "PERSON", [("email", "john@example.org")], ["johnny"]⟩

def sharedAlias : Query ℕ ℚ := ⟨"jsmith", "PERSON", ["johnny"], [("email", "john@example.org")], []⟩

/-- The same address under another name. -/
def jackSmith : Entity ℕ := ⟨1, "jack smith", "PERSON", [("email", "john@example.org")], []⟩

/-- The email of the first person is skipped for the alias, and that of the second one is as good. -/
theorem bestEvidence_sameEmail :
    BestEvidence plainScoring defaultConfig sharedAlias [johnSmith, jackSmith] := by
  refine (bestEvidence_iff plainScoring defaultConfig sharedAlias [johnSmith, jackSmith] rfl ?_).mpr ?_
  · intro _ e he
    rcases List.mem_pair.mp he with rfl | rfl
    · decide
    · decide
  · have hemail : (1 : ℚ) ∈ (scores plainScoring defaultConfig sharedAlias jackSmith).head? := by decide +kernel
    have hjohn : ∀ s ∈ (scores plainScoring defaultConfig sharedAlias johnSmith).tail, s ≤ 1 := by decide +kernel
    have hjack : ∀ s ∈ (scores plainScoring defaultConfig sharedAlias jackSmith).tail, s ≤ 1 := by decide +kernel
    intro e he s hs
    refine ⟨jackSmith, by simp, 1, hemail, ?_⟩
    rcases List.mem_pair.mp he with rfl | rfl
    · exact hjohn s hs
    · exact hjack s hs

/-- **The weaker match hides the stronger one**: the email scores 1, the alias only 0.9. -/
theorem aliasFirst_diverges :
    ¬ BestEvidence plainScoring defaultConfig sharedAlias [johnSmith] ∧
      (1 : ℚ) ∈ scores plainScoring defaultConfig sharedAlias johnSmith ∧
      (resolve plainScoring defaultConfig sharedAlias [johnSmith]).matchScore = 0.9 ∧
      (resolve plainScoring defaultConfig sharedAlias [johnSmith]).shouldMerge = false := by
  have hmerge : (resolve plainScoring defaultConfig sharedAlias [johnSmith]).shouldMerge = false := by
    decide +kernel
  have hmem : (1 : ℚ) ∈ scores plainScoring defaultConfig sharedAlias johnSmith := by decide +kernel
  refine ⟨fun h => ?_, hmem, by decide +kernel, hmerge⟩
  have := h.merges johnSmith List.mem_cons_self 1 hmem (by decide +kernel)
  rw [hmerge] at this
  cases this

end EntityResolver

end Khora
