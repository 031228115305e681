import Khora.Accel.CharClass
import Khora.Lib.HashIndex
import Khora.Lib.OrderedDict
import Mathlib.Algebra.Order.Field.Rat
import Mathlib.Tactic.Linarith

/-!
# Entity resolution on two backends

New names are matched against existing entities by equality, by alias, and by the best
similarity above a threshold.  The Python fallback scans the existing entities; the Rust
backend looks names and aliases up in indexes that it builds once.

* `resolve_agree_iff` — the two backends give the same list exactly where no new name meets
  two existing entities by equality, and the tokens of no compared pair depend on which
  control characters count as spaces.
* `duplicate_diverges` — two existing entities of one name.
-/

namespace Khora

/-! ## Common steps -/

inductive MatchType where
  | exact
  | alias
  | fuzzy
deriving DecidableEq

/-- `(existing_index, score, match_type)` -/
abbrev ResolvedMatch := ℕ × ℚ × MatchType

section Steps

variable {E K : Type} [DecidableEq K]

/-- The fuzzy step, which the backends share: the first candidate of the greatest score
above the threshold. -/
def fuzzyMatch (candidate : E → Bool) (score : E → ℚ) (threshold : ℚ) (existing : List E) :
    Option ResolvedMatch :=
  let best := existing.zipIdx.foldl (fun (best : Option ℕ × ℚ) p =>
    if candidate p.1 && decide (best.2 < score p.1) then (some p.2, score p.1) else best)
    (none, threshold)
  best.1.map fun idx => (idx, best.2, .fuzzy)

/-- One name in the Python fallback: three scans. -/
def scanResolve (nameKey : E → K) (aliasKeys : E → List K) (query : K) (candidate : E → Bool)
    (score : E → ℚ) (threshold : ℚ) (existing : List E) : Option ResolvedMatch :=
  match existing.findIdx? fun e => decide (nameKey e = query) with
  | some idx => some (idx, 1, .exact)
  | none =>
    match existing.findIdx? fun e => decide (query ∈ aliasKeys e) with
    | some idx => some (idx, 1, .alias)
    | none => fuzzyMatch candidate score threshold existing

/-- One name in the Rust backend: two lookups and a scan. -/
def indexResolve (nameKey : E → K) (aliasKeys : E → List K) (query : K) (candidate : E → Bool)
    (score : E → ℚ) (threshold : ℚ) (existing : List E) : Option ResolvedMatch :=
  match HashIndex.ofLast nameKey existing query with
  | some idx => some (idx, 1, .exact)
  | none =>
    match HashIndex.ofFirst aliasKeys existing query with
    | some idx => some (idx, 1, .alias)
    | none => fuzzyMatch candidate score threshold existing

end Steps

/-! ## Tokens -/

local instance lawfulToken : LawfulBEq (List Char) := inferInstance

/-- The distinct tokens of a string. -/
def tokenSet (isSpace : Char → Bool) (s : String) : List (List Char) :=
  ((s.toList.splitOnP isSpace).filter fun t => !t.isEmpty).dedup

/-- The shared tokens over the larger number of tokens. -/
def tokenOverlap (isSpace : Char → Bool) (a b : String) : ℚ :=
  let tokensA := tokenSet isSpace a
  let tokensB := tokenSet isSpace b
  if tokensA.isEmpty || tokensB.isEmpty then 0
  else ((tokensA.filter fun t => decide (t ∈ tokensB)).length : ℚ) /
    (max tokensA.length tokensB.length : ℕ)

/-! ## The functions -/

/-- An existing entity: the parallel lists of the source, zipped. -/
structure ExistingEntity where
  name : String
  aliases : List String
  entityType : String

/-- The case mappings, which the backends share. -/
structure Casing where
  lower : String → String
  upper : String → String

section Functions

variable (casing : Casing) (similarity : String → String → ℚ)

/-- The names of an entity, in lower case. -/
def batchName (e : ExistingEntity) : String := casing.lower e.name

def batchAliases (e : ExistingEntity) : List String := e.aliases.map casing.lower

/-- Neither string is empty. -/
def comparable (query : String) (e : ExistingEntity) : Bool :=
  !query.isEmpty && !(casing.lower e.name).isEmpty

/-- `resolve_entities_batch` of `_accel.py`. -/
def pythonResolveEntitiesBatch (threshold : ℚ) (existing : List ExistingEntity)
    (newNames : List String) : List (Option ResolvedMatch) :=
  newNames.map fun newName =>
    let query := casing.lower newName
    scanResolve (batchName casing) (batchAliases casing) query (comparable casing query)
      (fun e => similarity query (casing.lower e.name)) threshold existing

/-- `resolve_entities_batch` of `entity_resolution.rs`. -/
def rustResolveEntitiesBatch (threshold : ℚ) (existing : List ExistingEntity)
    (newNames : List String) : List (Option ResolvedMatch) :=
  newNames.map fun newName =>
    let query := casing.lower newName
    indexResolve (batchName casing) (batchAliases casing) query (comparable casing query)
      (fun e => similarity query (casing.lower e.name)) threshold existing

/-- The name and the type of an entity. -/
def typedName (e : ExistingEntity) : String × String := (casing.lower e.name, casing.upper e.entityType)

def typedAliases (e : ExistingEntity) : List (String × String) :=
  e.aliases.map fun a => (casing.lower a, casing.upper e.entityType)

/-- The entity is of the type, and neither string is empty. -/
def typedComparable (query queryType : String) (e : ExistingEntity) : Bool :=
  decide (casing.upper e.entityType = queryType) && comparable casing query e

/-- `0.6 * jw + 0.4 * tok` -/
def combinedScore (isSpace : Char → Bool) (query : String) (e : ExistingEntity) : ℚ :=
  3 / 5 * similarity query (casing.lower e.name) +
    2 / 5 * tokenOverlap isSpace query (casing.lower e.name)

/-- `resolve_entities_enhanced` of `_accel.py`. -/
def pythonResolveEntitiesEnhanced (typeThresholds : OrderedDict String ℚ) (defaultThreshold : ℚ)
    (existing : List ExistingEntity) (new : List (String × String)) : List (Option ResolvedMatch) :=
  new.map fun p =>
    let query := casing.lower p.1
    let queryType := casing.upper p.2
    scanResolve (typedName casing) (typedAliases casing) (query, queryType)
      (typedComparable casing query queryType) (combinedScore casing similarity pythonSpace query)
      ((typeThresholds.get? queryType).getD defaultThreshold) existing

/-- The threshold map of the Rust backend, collected from the keys and values of the
dictionary. -/
def thresholdMap (typeThresholds : OrderedDict String ℚ) : String → Option ℚ :=
  (typeThresholds.keys.zip (typeThresholds.items.map Prod.snd)).foldl
    (fun m p => Function.update m p.1 (some p.2)) fun _ => none

/-- `resolve_entities_enhanced` of `entity_resolution.rs`. -/
def rustResolveEntitiesEnhanced (typeThresholds : OrderedDict String ℚ) (defaultThreshold : ℚ)
    (existing : List ExistingEntity) (new : List (String × String)) : List (Option ResolvedMatch) :=
  new.map fun p =>
    let query := casing.lower p.1
    let queryType := casing.upper p.2
    indexResolve (typedName casing) (typedAliases casing) (query, queryType)
      (typedComparable casing query queryType) (combinedScore casing similarity rustSpace query)
      ((thresholdMap typeThresholds queryType).getD defaultThreshold) existing

end Functions

/-! ## One name -/

section OneName

variable {E K : Type} [DecidableEq K] {nameKey : E → K} {aliasKeys : E → List K} {query : K}
  {candidate : E → Bool} {score score' : E → ℚ} {threshold : ℚ} {existing : List E}

/-- At most one existing entity has the key. -/
def UniqueKey (nameKey : E → K) (existing : List E) (query : K) : Prop :=
  ∀ (i j : ℕ) (x y : E), existing[i]? = some x → existing[j]? = some y → nameKey x = query →
    nameKey y = query → i = j

omit [DecidableEq K] in
theorem uniqueKey_of_nodup {query : K} (h : (existing.map nameKey).Nodup) : UniqueKey nameKey existing query := by
  intro i j x y hx hy hqx hqy
  have hkey : ∀ {k : ℕ} {z : E}, existing[k]? = some z → nameKey z = query →
      (existing.map nameKey)[k]? = some query := by
    intro k z hz hq
    rw [List.getElem?_map, hz, ← hq]
    rfl
  have hlt : i < (existing.map nameKey).length := (List.getElem?_eq_some_iff.mp (hkey hx hqx)).1
  exact (List.getElem?_inj hlt h).mp ((hkey hx hqx).trans (hkey hy hqy).symm)

theorem fuzzyMatch_congr (h : ∀ e ∈ existing, candidate e = true → score e = score' e) :
    fuzzyMatch candidate score threshold existing = fuzzyMatch candidate score' threshold existing := by
  unfold fuzzyMatch
  have hfold : ∀ best : Option ℕ × ℚ, existing.zipIdx.foldl (fun (best : Option ℕ × ℚ) p =>
        if candidate p.1 && decide (best.2 < score p.1) then (some p.2, score p.1) else best) best =
      existing.zipIdx.foldl (fun (best : Option ℕ × ℚ) p =>
        if candidate p.1 && decide (best.2 < score' p.1) then (some p.2, score' p.1) else best) best := by
    intro best
    apply List.foldl_ext
    intro best p hp
    have hmem : p.1 ∈ existing := List.fst_mem_of_mem_zipIdx hp
    cases hc : candidate p.1 with
    | false => simp
    | true => rw [h p.1 hmem hc]
  simp only [hfold]

/-- The two backends agree on a name that meets at most one entity, if they score alike
the candidates that they come to compare. -/
theorem scanResolve_eq (hu : UniqueKey nameKey existing query)
    (hs : (∀ e ∈ existing, nameKey e ≠ query) → (∀ e ∈ existing, query ∉ aliasKeys e) →
      ∀ e ∈ existing, candidate e = true → score e = score' e) :
    scanResolve nameKey aliasKeys query candidate score threshold existing =
      indexResolve nameKey aliasKeys query candidate score' threshold existing := by
  unfold scanResolve indexResolve
  rw [(HashIndex.ofLast_eq_findIdx?_iff nameKey existing query).mpr hu, HashIndex.ofFirst_get]
  cases hname : existing.findIdx? fun e => decide (nameKey e = query) with
  | some idx => rfl
  | none =>
      cases halias : existing.findIdx? fun e => decide (query ∈ aliasKeys e) with
      | some idx => rfl
      | none =>
          apply fuzzyMatch_congr
          apply hs
          · intro e he
            exact of_decide_eq_false (List.findIdx?_eq_none_iff.mp hname e he)
          · intro e he
            exact of_decide_eq_false (List.findIdx?_eq_none_iff.mp halias e he)

/-- Where they agree, the name meets at most one entity. -/
theorem uniqueKey_of_scanResolve_eq
    (h : scanResolve nameKey aliasKeys query candidate score threshold existing =
      indexResolve nameKey aliasKeys query candidate score' threshold existing) :
    UniqueKey nameKey existing query := by
  unfold scanResolve indexResolve at h
  apply (HashIndex.ofLast_eq_findIdx?_iff nameKey existing query).mp
  cases hname : existing.findIdx? fun e => decide (nameKey e = query) with
  | none =>
      rw [HashIndex.ofLast_eq_none_iff]
      intro e he
      exact of_decide_eq_false (List.findIdx?_eq_none_iff.mp hname e he)
  | some idx =>
      cases hlast : HashIndex.ofLast nameKey existing query with
      | none =>
          have hnone : (existing.findIdx? fun e => decide (nameKey e = query)) = none := by
            rw [List.findIdx?_eq_none_iff]
            intro e he
            exact decide_eq_false ((HashIndex.ofLast_eq_none_iff nameKey existing query).mp hlast e he)
          rw [hname] at hnone
          cases hnone
      | some idx' =>
          rw [hname, hlast] at h
          cases h
          rfl

/-- A name that meets no entity comes to the fuzzy step in both backends. -/
theorem resolve_of_unmatched (hname : ∀ e ∈ existing, nameKey e ≠ query)
    (halias : ∀ e ∈ existing, query ∉ aliasKeys e) :
    scanResolve nameKey aliasKeys query candidate score threshold existing =
        fuzzyMatch candidate score threshold existing ∧
      indexResolve nameKey aliasKeys query candidate score threshold existing =
        fuzzyMatch candidate score threshold existing := by
  have hnone : (existing.findIdx? fun e => decide (nameKey e = query)) = none := by
    rw [List.findIdx?_eq_none_iff]
    exact fun e he => decide_eq_false (hname e he)
  have hnone' : (existing.findIdx? fun e => decide (query ∈ aliasKeys e)) = none := by
    rw [List.findIdx?_eq_none_iff]
    exact fun e he => decide_eq_false (halias e he)
  unfold scanResolve indexResolve
  constructor
  · rw [hnone]
    simp only
    rw [hnone']
  · rw [(HashIndex.ofLast_eq_none_iff _ _ _).mpr hname]
    simp only
    rw [HashIndex.ofFirst_get, hnone']

/-- A score that every other candidate stays below the threshold of is the score of the
match. -/
theorem fuzzyMatch_top {v : ℚ} (hv : threshold < v)
    (hall : ∀ e ∈ existing, candidate e = true → score e = v ∨ score e ≤ threshold)
    (hex : ∃ e ∈ existing, candidate e = true ∧ score e = v) :
    ∃ idx, fuzzyMatch candidate score threshold existing = some (idx, v, .fuzzy) := by
  have hfold : ∀ (l : List (E × ℕ)) (best : Option ℕ × ℚ),
      (∀ p ∈ l, candidate p.1 = true → score p.1 = v ∨ score p.1 ≤ threshold) →
      (best = (none, threshold) ∨ ∃ i, best = (some i, v)) →
      ((∃ i, best = (some i, v)) ∨ ∃ p ∈ l, candidate p.1 = true ∧ score p.1 = v) →
      ∃ i, l.foldl (fun (best : Option ℕ × ℚ) p =>
        if candidate p.1 && decide (best.2 < score p.1) then (some p.2, score p.1) else best) best =
          (some i, v) := by
    intro l
    induction l with
    | nil =>
        rintro best - - (h | ⟨p, hp, -⟩)
        · exact h
        · cases hp
    | cons p l ih =>
        intro best hl hbest hdone
        rw [List.foldl_cons]
        have hrest := ih (if candidate p.1 && decide (best.2 < score p.1) then (some p.2, score p.1)
          else best) fun q hq => hl q (List.mem_cons_of_mem _ hq)
        by_cases htop : candidate p.1 = true ∧ score p.1 = v
        · -- the score is found here, unless it was found before
          have hnow : ∃ i, (if candidate p.1 && decide (best.2 < score p.1) then (some p.2, score p.1)
              else best) = (some i, v) := by
            rcases hbest with rfl | ⟨i, rfl⟩
            · exact ⟨p.2, by simp [htop.1, htop.2, hv]⟩
            · exact ⟨i, by simp [htop.2]⟩
          exact hrest (.inr hnow) (.inl hnow)
        · have hkeep : (if candidate p.1 && decide (best.2 < score p.1) then (some p.2, score p.1)
              else best) = best := by
            cases hc : candidate p.1 with
            | false => simp
            | true =>
                have hle : score p.1 ≤ threshold :=
                  (hl p List.mem_cons_self hc).resolve_left fun heq => htop ⟨hc, heq⟩
                have hno : ¬ best.2 < score p.1 := by
                  rcases hbest with rfl | ⟨i, rfl⟩
                  · exact not_lt.mpr hle
                  · exact not_lt.mpr (hle.trans hv.le)
                simp [hno]
          rw [hkeep] at hrest ⊢
          refine hrest hbest ?_
          rcases hdone with h | ⟨q, hq, htopq⟩
          · exact .inl h
          · rcases List.mem_cons.mp hq with rfl | hq
            · exact absurd htopq htop
            · exact .inr ⟨q, hq, htopq⟩
  obtain ⟨e, he, htop⟩ := hex
  obtain ⟨n, hn⟩ := List.getElem?_of_mem he
  have hmem : (e, n) ∈ existing.zipIdx := List.mk_mem_zipIdx_iff_getElem?.mpr hn
  obtain ⟨i, hi⟩ := hfold existing.zipIdx (none, threshold)
    (fun p hp => hall p.1 (List.fst_mem_of_mem_zipIdx hp)) (.inl rfl) (.inr ⟨(e, n), hmem, htop⟩)
  refine ⟨i, ?_⟩
  unfold fuzzyMatch
  simp only [hi]
  rfl

end OneName

/-! ## Thresholds and tokens -/

theorem foldl_update_items (k : String) (items : List (String × ℚ)) :
    ∀ m : String → Option ℚ, (items.map Prod.fst).Nodup →
    items.foldl (fun (m : String → Option ℚ) (p : String × ℚ) => Function.update m p.1 (some p.2)) m k =
      ((items.find? fun e => e.1 == k).map Prod.snd).or (m k) := by
  induction items with
  | nil => simp
  | cons p items ih =>
      intro m hn
      rw [List.map_cons, List.nodup_cons] at hn
      rw [List.foldl_cons, ih _ hn.2, List.find?_cons]
      by_cases h : p.1 = k
      · have hnone : (items.find? fun e => e.1 == k) = none := by
          rw [List.find?_eq_none]
          intro e he heq
          apply hn.1
          rw [h, ← beq_iff_eq.mp heq]
          exact List.mem_map.mpr ⟨e, he, rfl⟩
        simp [h, hnone]
      · have hne : (p.1 == k) = false := beq_eq_false_iff_ne.mpr h
        simp [hne, Ne.symm h]

/-- The two backends look up the same threshold. -/
theorem thresholdMap_eq (typeThresholds : OrderedDict String ℚ) (k : String) :
    thresholdMap typeThresholds k = typeThresholds.get? k := by
  have hzip : typeThresholds.keys.zip (typeThresholds.items.map Prod.snd) = typeThresholds.items := by
    rw [OrderedDict.keys, List.zip_map']
    exact List.map_id' _
  rw [thresholdMap, hzip, foldl_update_items k _ _ typeThresholds.nodup, OrderedDict.get?, Option.or_none]

theorem tokenOverlap_mem (isSpace : Char → Bool) (a b : String) :
    0 ≤ tokenOverlap isSpace a b ∧ tokenOverlap isSpace a b ≤ 1 := by
  unfold tokenOverlap
  simp only
  split
  · exact ⟨le_rfl, zero_le_one⟩
  · have hshared : ((tokenSet isSpace a).filter fun t => decide (t ∈ tokenSet isSpace b)).length ≤
        max (tokenSet isSpace a).length (tokenSet isSpace b).length :=
      (List.length_filter_le _ _).trans (le_max_left _ _)
    constructor
    · exact div_nonneg (Nat.cast_nonneg _) (Nat.cast_nonneg _)
    · apply div_le_one_of_le₀ (Nat.cast_le.mpr hshared) (Nat.cast_nonneg _)

/-! ## The two backends -/

section Backends

variable (casing : Casing) (existing : List ExistingEntity)

/-- No new name is, up to case, that of two existing entities. -/
def UniqueNames (newNames : List String) : Prop :=
  ∀ newName ∈ newNames, UniqueKey (batchName casing) existing (casing.lower newName)

/-- No new name is, up to case, that of two existing entities of its type. -/
def UniqueTyped (new : List (String × String)) : Prop :=
  ∀ p ∈ new, UniqueKey (typedName casing) existing (casing.lower p.1, casing.upper p.2)

/-- A new name that is neither a name nor an alias shares the same part of its tokens with
each entity it is compared with, whether or not U+001C to U+001F are spaces. -/
def TokensAgree (new : List (String × String)) : Prop :=
  ∀ p ∈ new, (∀ e ∈ existing, typedName casing e ≠ (casing.lower p.1, casing.upper p.2)) →
    (∀ e ∈ existing, (casing.lower p.1, casing.upper p.2) ∉ typedAliases casing e) →
    ∀ e ∈ existing, typedComparable casing (casing.lower p.1) (casing.upper p.2) e = true →
      tokenOverlap pythonSpace (casing.lower p.1) (casing.lower e.name) =
        tokenOverlap rustSpace (casing.lower p.1) (casing.lower e.name)

variable {casing existing}

theorem batch_eq_iff (similarity : String → String → ℚ) (threshold : ℚ) (newNames : List String) :
    pythonResolveEntitiesBatch casing similarity threshold existing newNames =
      rustResolveEntitiesBatch casing similarity threshold existing newNames ↔
    UniqueNames casing existing newNames := by
  unfold pythonResolveEntitiesBatch rustResolveEntitiesBatch
  rw [List.map_inj_left]
  constructor
  · intro h newName hnew
    exact uniqueKey_of_scanResolve_eq (h newName hnew)
  · intro h newName hnew
    exact scanResolve_eq (h newName hnew) fun _ _ _ _ _ => rfl

section Enhanced

variable {similarity : String → String → ℚ} {typeThresholds : OrderedDict String ℚ}
  {defaultThreshold : ℚ} {new : List (String × String)}

theorem uniqueTyped_of_enhanced_eq
    (h : pythonResolveEntitiesEnhanced casing similarity typeThresholds defaultThreshold existing new =
      rustResolveEntitiesEnhanced casing similarity typeThresholds defaultThreshold existing new) :
    UniqueTyped casing existing new := by
  unfold pythonResolveEntitiesEnhanced rustResolveEntitiesEnhanced at h
  rw [List.map_inj_left] at h
  intro p hp
  have heq := h p hp
  simp only [thresholdMap_eq] at heq
  exact uniqueKey_of_scanResolve_eq heq

theorem enhanced_eq (hu : UniqueTyped casing existing new) (ht : TokensAgree casing existing new) :
    pythonResolveEntitiesEnhanced casing similarity typeThresholds defaultThreshold existing new =
      rustResolveEntitiesEnhanced casing similarity typeThresholds defaultThreshold existing new := by
  unfold pythonResolveEntitiesEnhanced rustResolveEntitiesEnhanced
  rw [List.map_inj_left]
  intro p hp
  simp only [thresholdMap_eq]
  apply scanResolve_eq (hu p hp)
  intro hname halias e he hcand
  unfold combinedScore
  rw [ht p hp hname halias e he hcand]

/-- A similarity that singles out one name makes the tokens of the pair visible. -/
theorem tokensAgree_of_enhanced_eq
    (h : ∀ similarity typeThresholds defaultThreshold,
      pythonResolveEntitiesEnhanced casing similarity typeThresholds defaultThreshold existing new =
        rustResolveEntitiesEnhanced casing similarity typeThresholds defaultThreshold existing new) :
    TokensAgree casing existing new := by
  intro p hp hname halias e he hcand
  -- similarity 1 for the name of `e`, 0 for every other, and a threshold of 1/2
  have heq := h (fun _ x => if x = casing.lower e.name then 1 else 0) .empty (1 / 2)
  unfold pythonResolveEntitiesEnhanced rustResolveEntitiesEnhanced at heq
  rw [List.map_inj_left] at heq
  have hresult := heq p hp
  have hthreshold : ((OrderedDict.empty : OrderedDict String ℚ).get? (casing.upper p.2)).getD (1 / 2) =
      1 / 2 := rfl
  simp only [thresholdMap_eq, hthreshold] at hresult
  rw [(resolve_of_unmatched hname halias).1, (resolve_of_unmatched hname halias).2] at hresult
  have htop : ∀ isSpace : Char → Bool, ∃ idx, fuzzyMatch
      (typedComparable casing (casing.lower p.1) (casing.upper p.2))
      (combinedScore casing (fun _ x => if x = casing.lower e.name then 1 else 0) isSpace
        (casing.lower p.1)) (1 / 2) existing =
      some (idx, 3 / 5 + 2 / 5 * tokenOverlap isSpace (casing.lower p.1) (casing.lower e.name), .fuzzy) := by
    intro isSpace
    have hpos := (tokenOverlap_mem isSpace (casing.lower p.1) (casing.lower e.name)).1
    apply fuzzyMatch_top
    · linarith
    · intro e' _ _
      unfold combinedScore
      simp only
      by_cases hsame : casing.lower e'.name = casing.lower e.name
      · left
        rw [hsame, if_pos rfl, mul_one]
      · right
        rw [if_neg hsame]
        have hle := (tokenOverlap_mem isSpace (casing.lower p.1) (casing.lower e'.name)).2
        linarith
    · refine ⟨e, he, hcand, ?_⟩
      unfold combinedScore
      simp only [if_true, mul_one]
  obtain ⟨idx, hpython⟩ := htop pythonSpace
  obtain ⟨idx', hrust⟩ := htop rustSpace
  rw [hpython, hrust] at hresult
  have hscore := congrArg (fun m => m.2.1) (Option.some.inj hresult)
  simp only at hscore
  linarith

end Enhanced

/-- **When the backends agree.**  The batch functions give the same list exactly if no new
name is that of two existing entities.  The enhanced functions do so for every similarity
and every thresholds exactly if no new name is that of two existing entities of its type and
the tokens agree; and where some choice of them gives the same list, or the tokens agree,
the first condition decides. -/
theorem resolve_agree_iff (casing : Casing) (existing : List ExistingEntity) :
    (∀ (similarity : String → String → ℚ) (threshold : ℚ) (newNames : List String),
      pythonResolveEntitiesBatch casing similarity threshold existing newNames =
        rustResolveEntitiesBatch casing similarity threshold existing newNames ↔
      UniqueNames casing existing newNames) ∧
    ∀ new : List (String × String),
      ((∀ similarity typeThresholds defaultThreshold,
        pythonResolveEntitiesEnhanced casing similarity typeThresholds defaultThreshold existing new =
          rustResolveEntitiesEnhanced casing similarity typeThresholds defaultThreshold existing new) ↔
        UniqueTyped casing existing new ∧ TokensAgree casing existing new) ∧
      ∀ similarity typeThresholds defaultThreshold,
        (pythonResolveEntitiesEnhanced casing similarity typeThresholds defaultThreshold existing new =
          rustResolveEntitiesEnhanced casing similarity typeThresholds defaultThreshold existing new →
          UniqueTyped casing existing new) ∧
        (UniqueTyped casing existing new → TokensAgree casing existing new →
          pythonResolveEntitiesEnhanced casing similarity typeThresholds defaultThreshold existing new =
            rustResolveEntitiesEnhanced casing similarity typeThresholds defaultThreshold existing new) := by
  refine ⟨fun similarity threshold newNames => batch_eq_iff similarity threshold newNames, fun new => ?_⟩
  refine ⟨⟨fun h => ⟨uniqueTyped_of_enhanced_eq (h (fun _ _ => 0) .empty 0), ?_⟩, ?_⟩, ?_⟩
  · exact tokensAgree_of_enhanced_eq h
  · rintro ⟨hu, ht⟩ similarity typeThresholds defaultThreshold
    exact enhanced_eq hu ht
  · intro similarity typeThresholds defaultThreshold
    exact ⟨uniqueTyped_of_enhanced_eq, enhanced_eq⟩

end Backends

/-- Names and types that are in lower and in upper case already. -/
def plainCasing : Casing := ⟨id, id⟩

/-- Two people who share a token, and a place with the name of one of them. -/
def leeFamily : List ExistingEntity :=
  [⟨"ann lee", ["annie"], "PERSON"⟩, ⟨"bob lee", [], "PERSON"⟩, ⟨"ann lee", [], "PLACE"⟩]

/-- A name, an alias, and a name that is scored against both people. -/
theorem resolve_agree_leeFamily :
    let new := [("ann lee", "PERSON"), ("annie", "PERSON"), ("cy lee", "PERSON")]
    ∀ similarity typeThresholds defaultThreshold,
      pythonResolveEntitiesEnhanced plainCasing similarity typeThresholds defaultThreshold leeFamily new =
        rustResolveEntitiesEnhanced plainCasing similarity typeThresholds defaultThreshold leeFamily new := by
  refine ((resolve_agree_iff plainCasing leeFamily).2 _).1.mpr ⟨?_, ?_⟩
  · exact fun p _ => uniqueKey_of_nodup (by decide)
  · unfold TokensAgree
    decide +kernel

/-- Two existing entities of one name and type. -/
def twoPeople : List ExistingEntity := [⟨"ann", [], "PERSON"⟩, ⟨"ann", [], "PERSON"⟩]

/-- **Two entities of one name**: the scan answers with the first, the index with the last. -/
theorem duplicate_diverges :
    pythonResolveEntitiesBatch plainCasing (fun _ _ => 0) (17 / 20) twoPeople ["ann"] =
      [some (0, 1, .exact)] ∧
    rustResolveEntitiesBatch plainCasing (fun _ _ => 0) (17 / 20) twoPeople ["ann"] =
      [some (1, 1, .exact)] ∧
    pythonResolveEntitiesEnhanced plainCasing (fun _ _ => 0) .empty (17 / 20) twoPeople [("ann", "PERSON")] ≠
      rustResolveEntitiesEnhanced plainCasing (fun _ _ => 0) .empty (17 / 20) twoPeople
        [("ann", "PERSON")] := by
  refine ⟨rfl, rfl, ?_⟩
  intro h
  have hu := uniqueTyped_of_enhanced_eq h ("ann", "PERSON") List.mem_cons_self 0 1 _ _ rfl rfl rfl rfl
  cases hu

end Khora
