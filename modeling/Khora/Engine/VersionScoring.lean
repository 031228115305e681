import Khora.Lib.Fallible
import Khora.Lib.SortBy
import Mathlib.Algebra.Order.Field.Basic
import Mathlib.Analysis.Real.Sqrt
import Mathlib.Tactic.Linarith

/-!
# Superseded versions

When a query asks for the latest state, a chunk whose document is an old version of its entity is
demoted: its score is multiplied with the square root of its version over the highest version of the
group.  Versions come from untyped metadata.

* `rescored_demotes` — the scores of a list whose versions can be read.
* `versionScoring_demotes` — a query without intent leaves the list alone; otherwise it is demoted
  and sorted.
* `versions_not_total` — such a query with an unsorted list, and two versions that abort the recall.
-/

namespace Khora

namespace VersionScoring

/-! ## Metadata -/

inductive Flt where
  | finite (q : ℚ)
  | posInf
  | negInf
  | nan

inductive MetaValue where
  | none
  | bool (b : Bool)
  | int (n : ℤ)
  | float (x : Flt)
  | str (s : String)
  | list (xs : List MetaValue)
  | dict (fields : List (String × MetaValue))

def MetaValue.isNone : MetaValue → Bool
  | none => true
  | _ => false

structure Chunk (Id : Type) where
  id : Id
  documentId : Id
  /-- `(chunk.metadata or {}).get` -/
  custom : String → MetaValue

inductive PyErr where
  | overflowError
  | typeError
deriving DecidableEq

/-- A score: a power of a negative number is complex. -/
inductive Score (R : Type) where
  | real (x : R)
  | complex

def Score.isComplex {R : Type} : Score R → Bool
  | complex => true
  | real _ => false

section Model

variable {Id R : Type} [DivisionRing R] [LinearOrder R]
/- `_has_version_intent`, `int(text)` (or that it raises `ValueError`), `str` of a value and of an id,
and `x ** 0.5` for a number that is not negative. -/
variable (intent : String → Bool) (intText : String → Option ℤ) (text : MetaValue → String)
  (idText : Id → String) (root : R → R)

/-- `int(version)`, and `None` where it raises an error that is caught. -/
def readVersion : MetaValue → Except PyErr (Option ℤ)
  | .bool b => .ok (some (if b then 1 else 0))
  | .int n => .ok (some n)
  | .float (.finite q) => .ok (some (q.num.tdiv q.den))
  | .float .nan => .ok none
  | .float _ => .error .overflowError
  | .str s => .ok (intText s)
  | _ => .ok none

def groupKey (chunk : Chunk Id) : String :=
  match chunk.custom "entity_refs" with
  | .list (ref :: _) => text ref
  | _ => idText chunk.documentId

def chunkVersion (chunk : Chunk Id) : Except PyErr (Option ℤ) :=
  if (chunk.custom "version").isNone then .ok none else readVersion intText (chunk.custom "version")

/-- An entry of `chunk_meta`: the group and the version. -/
def chunkMeta (chunk : Chunk Id) : Except PyErr (String × Option ℤ) := do
  let version ← chunkVersion intText chunk
  .ok (groupKey text idText chunk, version)

/-- The loop that builds `max_version`. -/
def maxVersions (metas : List (String × Option ℤ)) : String → Option ℤ :=
  metas.foldl (fun found m => match m.2 with
    | none => found
    | some v => match found m.1 with
        | none => Function.update found m.1 (some v)
        | some w => if w < v then Function.update found m.1 (some v) else found) fun _ => none

/-- `version / max_version` is too large for a float. -/
def overflows (version highest : ℤ) : Bool := decide ((2 ^ 1024 - 2 ^ 970 : ℚ) ≤ |(version : ℚ) / highest|)

/-- `score * (version / max_version[group_key]) ** 0.5` -/
def penalized (score : R) (version highest : ℤ) : Except PyErr (Score R) :=
  if overflows version highest then .error .overflowError
  else if version < 0 then .ok .complex
  else .ok (.real (score * root ((version : R) / highest)))

def rescore (highest : String → Option ℤ) (score : R) : String × Option ℤ → Except PyErr (Score R)
  | (key, some version) => match highest key with
      | some h => if 0 < h then penalized root score version h else .ok (.real score)
      | none => .ok (.real score)
  | (_, none) => .ok (.real score)

/-- The order of `rescored.sort(key=…, reverse=True)` on real scores. -/
def descending : Chunk Id × Score R → Chunk Id × Score R → Bool
  | (_, .real x), (_, .real y) => decide (y ≤ x)
  | _, _ => true

/-- A complex score cannot be compared. -/
def sortRescored (rescored : List (Chunk Id × Score R)) : Except PyErr (List (Chunk Id × Score R)) :=
  if 2 ≤ rescored.length ∧ ∃ r ∈ rescored, r.2.isComplex = true then
    .error .typeError
  else .ok (rescored.mergeSort descending)

/-- `_apply_version_scoring` -/
def applyVersionScoring (chunks : List (Chunk Id × R)) (query : String) :
    Except PyErr (List (Chunk Id × Score R)) :=
  let unchanged := chunks.map fun c => (c.1, Score.real c.2)
  if intent query = false then .ok unchanged
  else do
    let metas ← chunks.mapM fun c => chunkMeta intText text idText c.1
    if ∀ c ∈ chunks, (c.1.custom "version").isNone = true then .ok unchanged
    else do
      let rescored ← (chunks.zip metas).mapM fun p => do
        let score ← rescore root (maxVersions metas) p.1.2 p.2
        .ok (p.1.1, score)
      sortRescored rescored

end Model

/-! ## The highest versions -/

theorem maxVersions_concat (metas : List (String × Option ℤ)) (m : String × Option ℤ) :
    maxVersions (metas ++ [m]) = match m.2 with
      | none => maxVersions metas
      | some v => match maxVersions metas m.1 with
          | none => Function.update (maxVersions metas) m.1 (some v)
          | some w => if w < v then Function.update (maxVersions metas) m.1 (some v) else maxVersions metas := by
  rw [maxVersions, List.foldl_append]
  rfl

/-- `max_version` holds the highest version of a group, and nothing of a group without versions. -/
theorem maxVersions_spec (metas : List (String × Option ℤ)) (k : String) :
    (maxVersions metas k = none → ∀ v, (k, some v) ∉ metas) ∧
      ∀ h, maxVersions metas k = some h → (k, some h) ∈ metas ∧ ∀ v, (k, some v) ∈ metas → v ≤ h := by
  induction metas using List.reverseRecOn with
  | nil => simp [maxVersions]
  | append_singleton metas m ih =>
      obtain ⟨key, version⟩ := m
      rw [maxVersions_concat]
      cases version with
      | none => simpa using ih
      | some v =>
          by_cases hk : k = key
          · subst hk
            cases hold : maxVersions metas k with
            | none =>
                have hfree := ih.1 hold
                simp [hfree]
            | some w =>
                obtain ⟨hmem, hle⟩ := ih.2 w hold
                simp only
                split
                case isTrue hlt =>
                  simp only [Function.update_self, Option.some.injEq, reduceCtorEq, false_implies, true_and,
                    List.mem_append, List.mem_singleton, Prod.mk.injEq]
                  rintro h rfl
                  refine ⟨.inr rfl, ?_⟩
                  rintro u (hu | hu)
                  · exact (hle u hu).trans hlt.le
                  · exact hu.le
                case isFalse hge =>
                  simp only [hold, Option.some.injEq, reduceCtorEq, false_implies, true_and, List.mem_append,
                    List.mem_singleton, Prod.mk.injEq]
                  rintro h rfl
                  refine ⟨.inl hmem, ?_⟩
                  rintro u (hu | hu)
                  · exact hle u hu
                  · exact hu.le.trans (not_lt.mp hge)
          · have hother : ∀ x : Option ℤ, Function.update (maxVersions metas) key x k = maxVersions metas k := by
              intro x
              rw [Function.update_of_ne hk]
            have hmem : ∀ u, (k, some u) ∈ metas ++ [(key, some v)] ↔ (k, some u) ∈ metas := by
              intro u
              simp [hk]
            simp only [hmem]
            have hsame : (match maxVersions metas key with
                | none => Function.update (maxVersions metas) key (some v)
                | some w => if w < v then Function.update (maxVersions metas) key (some v)
                    else maxVersions metas) k = maxVersions metas k := by
              cases maxVersions metas key with
              | none => exact hother _
              | some w =>
                  simp only
                  split
                  · exact hother _
                  · rfl
            rw [hsame]
            exact ih

/-! ## The factors -/

section Factor

variable {Id R : Type} [DivisionRing R] [LinearOrder R] [IsStrictOrderedRing R] {root : R → R}

/-- What is used of `x ** 0.5`. -/
structure HalfPower (root : R → R) : Prop where
  one : root 1 = 1
  nonneg : ∀ x, 0 ≤ root x
  mono : ∀ x y, 0 ≤ x → x ≤ y → root x ≤ root y

/-- The factor of a chunk, by its group and version. -/
def factor (root : R → R) (highest : String → Option ℤ) (m : String × Option ℤ) : R :=
  match m.2, highest m.1 with
  | some v, some h => if 0 < h then root ((v : R) / h) else 1
  | _, _ => 1

/-- No version is negative in a group that has a positive one. -/
def NoNegative (metas : List (String × Option ℤ)) : Prop :=
  ∀ k v w, (k, some v) ∈ metas → (k, some w) ∈ metas → v < 0 → w ≤ 0

/-- The factors demote: they lie between zero and one, a higher version of a group never has a smaller
one, and a chunk without a version or with the highest one keeps its score. -/
structure Demotes (metas : List (String × Option ℤ)) (factor : String × Option ℤ → R) : Prop where
  unit : ∀ m ∈ metas, 0 ≤ factor m ∧ factor m ≤ 1
  mono : ∀ k v w, (k, some v) ∈ metas → (k, some w) ∈ metas → v ≤ w → factor (k, some v) ≤ factor (k, some w)
  unversioned : ∀ k, (k, none) ∈ metas → factor (k, none) = 1
  highest : ∀ k v, (k, some v) ∈ metas → (∀ w, (k, some w) ∈ metas → w ≤ v) → factor (k, some v) = 1

theorem demotes_factor (hroot : HalfPower root) {metas : List (String × Option ℤ)} (hneg : NoNegative metas) :
    Demotes metas (factor root (maxVersions metas)) := by
  have hvalue : ∀ k v, (k, some v) ∈ metas → ∃ h, maxVersions metas k = some h ∧ (k, some h) ∈ metas ∧
      (∀ w, (k, some w) ∈ metas → w ≤ h) ∧
      factor root (maxVersions metas) (k, some v) = if 0 < h then root ((v : R) / h) else 1 := by
    intro k v hv
    obtain ⟨hnone, hsome⟩ := maxVersions_spec metas k
    cases hmax : maxVersions metas k with
    | none => exact absurd hv (hnone hmax v)
    | some h => exact ⟨h, rfl, (hsome h hmax).1, (hsome h hmax).2, by rw [factor, hmax]⟩
  have hquot : ∀ k v h, (k, some v) ∈ metas → (k, some h) ∈ metas → (∀ w, (k, some w) ∈ metas → w ≤ h) →
      0 < h → 0 ≤ (v : R) / h ∧ (v : R) / h ≤ 1 := by
    intro k v h hv hh hle hpos
    have hposR : (0 : R) < h := Int.cast_pos.mpr hpos
    have hv0 : 0 ≤ v := by
      by_contra hlt
      have := hneg k v h hv hh (by omega)
      omega
    exact ⟨div_nonneg (by exact_mod_cast hv0) hposR.le,
      (div_le_one₀ hposR).mpr (Int.cast_le.mpr (hle v hv))⟩
  constructor
  · rintro ⟨k, version⟩ hm
    cases version with
    | none => simp [factor]
    | some v =>
        obtain ⟨h, -, hh, hle, hf⟩ := hvalue k v hm
        rw [hf]
        split
        case isTrue hpos =>
          obtain ⟨h0, h1⟩ := hquot k v h hm hh hle hpos
          exact ⟨hroot.nonneg _, (hroot.mono _ _ h0 h1).trans hroot.one.le⟩
        case isFalse => exact ⟨zero_le_one, le_rfl⟩
  · intro k v w hv hw hvw
    obtain ⟨h, hmax, hh, hle, hf⟩ := hvalue k v hv
    obtain ⟨h', hmax', -, -, hf'⟩ := hvalue k w hw
    obtain rfl : h = h' := Option.some.inj (hmax.symm.trans hmax')
    rw [hf, hf']
    split
    case isTrue hpos =>
      have hposR : (0 : R) < h := Int.cast_pos.mpr hpos
      exact hroot.mono _ _ (hquot k v h hv hh hle hpos).1 (by gcongr)
    case isFalse => exact le_rfl
  · exact fun k _ => rfl
  · intro k v hv hall
    obtain ⟨h, -, hh, hle, hf⟩ := hvalue k v hv
    obtain rfl : h = v := le_antisymm (hall h hh) (hle v hv)
    rw [hf]
    split
    case isTrue hpos =>
      rw [div_self (Int.cast_pos.mpr hpos).ne', hroot.one]
    case isFalse => rfl

end Factor

/-! ## The whole list -/

section Run

variable {Id R : Type} [DivisionRing R] [LinearOrder R] [IsStrictOrderedRing R]
variable (intent : String → Bool) (intText : String → Option ℤ) (text : MetaValue → String)
  (idText : Id → String) {root : R → R}

theorem not_overflows {v h : ℤ} (hv : 0 ≤ v) (hvh : v ≤ h) (hh : 0 < h) : overflows v h = false := by
  have hpos : (0 : ℚ) < h := Int.cast_pos.mpr hh
  have h0 : (0 : ℚ) ≤ (v : ℚ) / h := div_nonneg (by exact_mod_cast hv) hpos.le
  have h1 : (v : ℚ) / h ≤ 1 := (div_le_one hpos).mpr (by exact_mod_cast hvh)
  rw [overflows, decide_eq_false_iff_not, not_le, abs_of_nonneg h0]
  have hpow : (2 : ℚ) ^ 1024 = 2 ^ 970 * 2 ^ 54 := by rw [← pow_add]
  have hone : (1 : ℚ) ≤ 2 ^ 970 := one_le_pow₀ (by norm_num)
  have hfour : (4 : ℚ) ≤ 2 ^ 54 := by norm_num
  rw [hpow]
  generalize (2 : ℚ) ^ 970 = x at hone ⊢
  generalize (2 : ℚ) ^ 54 = y at hfour ⊢
  refine h1.trans_lt ?_
  nlinarith

omit [LinearOrder R] [IsStrictOrderedRing R] in
/-- A score whose version can be read is multiplied with its factor. -/
theorem rescore_eq {metas : List (String × Option ℤ)} (hneg : NoNegative metas) {m : String × Option ℤ}
    (hm : m ∈ metas) (score : R) :
    rescore root (maxVersions metas) score m = .ok (.real (score * factor root (maxVersions metas) m)) := by
  obtain ⟨k, version⟩ := m
  cases version with
  | none => simp [rescore, factor]
  | some v =>
      obtain ⟨-, hsome⟩ := maxVersions_spec metas k
      cases hmax : maxVersions metas k with
      | none => simp [rescore, factor, hmax]
      | some h =>
          obtain ⟨hh, hle⟩ := hsome h hmax
          by_cases hpos : 0 < h
          · have hv0 : 0 ≤ v := by
              by_contra hlt
              have := hneg k v h hm hh (by omega)
              omega
            simp [rescore, factor, hmax, hpos, penalized, not_overflows hv0 (hle v hm) hpos, not_lt.mpr hv0]
          · simp [rescore, factor, hmax, hpos]

/-- The versions of the list can be read: none is an infinite float. -/
def Readable (chunks : List (Chunk Id × R)) : Prop :=
  ∀ c ∈ chunks, ∀ x, c.1.custom "version" = .float x → x ≠ .posInf ∧ x ≠ .negInf

omit [IsStrictOrderedRing R] [DivisionRing R] [LinearOrder R] in
theorem exists_metas {chunks : List (Chunk Id × R)} (h : Readable chunks) :
    ∃ metas, chunks.mapM (fun c => chunkMeta intText text idText c.1) = .ok metas := by
  refine Fallible.returns_mapM fun c hc => ?_
  have hread : Fallible.Returns (chunkVersion intText c.1) := by
    unfold chunkVersion
    cases hv : c.1.custom "version" with
    | none => exact ⟨_, rfl⟩
    | float x =>
        obtain ⟨hpos, hneg⟩ := h c hc x hv
        cases x with
        | finite q => exact ⟨_, rfl⟩
        | nan => exact ⟨_, rfl⟩
        | posInf => exact absurd rfl hpos
        | negInf => exact absurd rfl hneg
    | bool | int | str | list | dict => exact ⟨_, rfl⟩
  obtain ⟨version, hversion⟩ := hread
  exact ⟨(groupKey text idText c.1, version), by rw [chunkMeta, hversion]; rfl⟩

/-- The rescored list before the sort. -/
def rescored (root : R → R) (chunks : List (Chunk Id × R)) (metas : List (String × Option ℤ)) :
    List (Chunk Id × R) :=
  (chunks.zip metas).map fun p => (p.1.1, p.1.2 * factor root (maxVersions metas) p.2)

omit [DivisionRing R] [IsStrictOrderedRing R] in
theorem sortRescored_real (l : List (Chunk Id × R)) :
    ∃ sorted : List (Chunk Id × R), sortRescored (l.map fun c => (c.1, Score.real c.2)) =
        .ok (sorted.map fun c => (c.1, Score.real c.2)) ∧
      sorted.Perm l ∧ sorted.Pairwise fun a b => b.2 ≤ a.2 := by
  refine ⟨l.mergeSort fun a b => decide (b.2 ≤ a.2), ?_, List.mergeSort_perm _ _, ?_⟩
  · rw [sortRescored, if_neg]
    · rw [List.map_mergeSort]
      intro a _ b _
      rfl
    · rintro ⟨-, r, hr, hcomplex⟩
      obtain ⟨c, -, rfl⟩ := List.mem_map.mp hr
      cases hcomplex
  · have h := SortBy.pairwise_mergeSort (fun c : Chunk Id × R => OrderDual.toDual c.2) l
    exact h

/-- The chunks with their scores multiplied, in descending order. -/
structure Demoted (chunks : List (Chunk Id × R)) (metas : List (String × Option ℤ))
    (result : List (Chunk Id × R)) : Prop where
  factors : ∃ f : String × Option ℤ → R, Demotes metas f ∧
    result.Perm ((chunks.zip metas).map fun p => (p.1.1, p.1.2 * f p.2))
  sorted : result.Pairwise fun a b => b.2 ≤ a.2

/-- The query has intent, and a chunk has a version. -/
def Activates (chunks : List (Chunk Id × R)) (query : String) : Prop :=
  intent query = true ∧ ∃ c ∈ chunks, (c.1.custom "version").isNone = false

omit [IsStrictOrderedRing R] in
theorem applyVersionScoring_of_active {chunks : List (Chunk Id × R)} {query : String}
    (hactive : Activates intent chunks query) {metas : List (String × Option ℤ)}
    (hmetas : chunks.mapM (fun c => chunkMeta intText text idText c.1) = .ok metas) :
    applyVersionScoring intent intText text idText root chunks query =
      (chunks.zip metas).mapM (fun p => do
        let score ← rescore root (maxVersions metas) p.1.2 p.2
        .ok (p.1.1, score)) >>= sortRescored := by
  obtain ⟨hquery, c, hc, hversion⟩ := hactive
  have hsome : ¬ ∀ c ∈ chunks, (c.1.custom "version").isNone = true := by
    intro h
    rw [h c hc] at hversion
    cases hversion
  rw [applyVersionScoring, if_neg (by simp [hquery]), hmetas]
  show (if _ then _ else _) = _
  rw [if_neg hsome]

/-- **A list whose versions can be read is demoted**, if no group with a positive version has a negative
one. -/
theorem rescored_demotes (hroot : HalfPower root) {chunks : List (Chunk Id × R)} {query : String}
    (hactive : Activates intent chunks query) (hread : Readable chunks)
    (hneg : ∀ metas, chunks.mapM (fun c => chunkMeta intText text idText c.1) = .ok metas → NoNegative metas) :
    ∃ metas result, chunks.mapM (fun c => chunkMeta intText text idText c.1) = .ok metas ∧
      applyVersionScoring intent intText text idText root chunks query =
        .ok (result.map fun c => (c.1, Score.real c.2)) ∧ Demoted chunks metas result := by
  obtain ⟨metas, hmetas⟩ := exists_metas intText text idText hread
  have hn := hneg metas hmetas
  obtain ⟨sorted, hsort, hperm, hdesc⟩ := sortRescored_real (rescored root chunks metas)
  refine ⟨metas, sorted, hmetas, ?_, ⟨_, demotes_factor hroot hn, hperm⟩, hdesc⟩
  have hscores : (chunks.zip metas).mapM (fun p => do
      let score ← rescore root (maxVersions metas) p.1.2 p.2
      (.ok (p.1.1, score) : Except PyErr _)) =
        .ok ((rescored root chunks metas).map fun c => (c.1, Score.real c.2)) := by
    rw [Fallible.mapM_eq_ok, rescored, List.map_map, List.forall₂_map_right_iff, List.forall₂_same]
    intro p hp
    rw [rescore_eq hn (List.of_mem_zip hp).2]
    rfl
  rw [applyVersionScoring_of_active intent intText text idText hactive hmetas, hscores]
  exact hsort

omit [IsStrictOrderedRing R] in
theorem applyVersionScoring_of_inactive {chunks : List (Chunk Id × R)} {query : String}
    (hinactive : ¬ Activates intent chunks query) :
    applyVersionScoring intent intText text idText root chunks query =
      .ok (chunks.map fun c => (c.1, Score.real c.2)) := by
  rw [applyVersionScoring]
  by_cases hquery : intent query = false
  · rw [if_pos hquery]
  · have hnone : ∀ c ∈ chunks, (c.1.custom "version").isNone = true := by
      intro c hc
      by_contra hv
      exact hinactive ⟨by simpa using hquery, c, hc, by simpa using hv⟩
    have hread : Readable chunks := by
      intro c hc x hx
      have := hnone c hc
      rw [hx] at this
      cases this
    obtain ⟨metas, hmetas⟩ := exists_metas intText text idText hread
    rw [if_neg hquery, hmetas]
    show (if _ then _ else _) = _
    rw [if_pos hnone]

end Run

/-! ## Real scores -/

section Real

variable {Id : Type} (intent : String → Bool) (intText : String → Option ℤ) (text : MetaValue → String)
  (idText : Id → String)

theorem halfPower_sqrt : HalfPower Real.sqrt where
  one := Real.sqrt_one
  nonneg := Real.sqrt_nonneg
  mono := fun _ _ _ h => Real.sqrt_le_sqrt h

/-- **A query without intent leaves the list as it is; one with intent demotes superseded versions**:
a permutation in descending order, each score times a factor of its group and version. -/
theorem versionScoring_demotes (chunks : List (Chunk Id × ℝ)) (query : String) :
    (¬ Activates intent chunks query → applyVersionScoring intent intText text idText Real.sqrt chunks query =
      .ok (chunks.map fun c => (c.1, Score.real c.2))) ∧
    (Activates intent chunks query → Readable chunks →
      (∀ metas, chunks.mapM (fun c => chunkMeta intText text idText c.1) = .ok metas → NoNegative metas) →
      ∃ metas result, chunks.mapM (fun c => chunkMeta intText text idText c.1) = .ok metas ∧
        applyVersionScoring intent intText text idText Real.sqrt chunks query =
          .ok (result.map fun c => (c.1, Score.real c.2)) ∧ Demoted chunks metas result) :=
  ⟨applyVersionScoring_of_inactive intent intText text idText,
    rescored_demotes intent intText text idText halfPower_sqrt⟩

end Real

/-- A chunk of document `7` with a version. -/
def versioned (id : ℕ) (version : MetaValue) : Chunk ℕ where
  id := id
  documentId := 7
  custom := fun key => if key = "version" then version else .none

/-- Of two queries, the one that asks for the latest state. -/
def asksForLatest (query : String) : Bool := query == "latest status"

/-- `_apply_version_scoring` on chunks without `entity_refs` and without versions in text. -/
noncomputable def scored (chunks : List (Chunk ℕ × ℝ)) (query : String) :
    Except PyErr (List (Chunk ℕ × Score ℝ)) :=
  applyVersionScoring asksForLatest (fun _ => none) (fun _ => "") toString Real.sqrt chunks query

/-- Two versions and a chunk without one: for the latest state the old version is demoted; without intent the
list stays. -/
theorem versionScoring_demotes_latest :
    let chunks : List (Chunk ℕ × ℝ) := [(versioned 1 (.int 1), 4), (versioned 2 (.int 4), 3), (versioned 3 .none, 1)]
    (∃ metas result, chunks.mapM (fun c => chunkMeta (fun _ => none) (fun _ => "") toString c.1) = .ok metas ∧
        scored chunks "latest status" = .ok (result.map fun c => (c.1, Score.real c.2)) ∧
        Demoted chunks metas result) ∧
      scored chunks "who is it" = .ok (chunks.map fun c => (c.1, Score.real c.2)) := by
  intro chunks
  have hmetas : chunks.mapM (fun c => chunkMeta (fun _ => none) (fun _ => "") toString c.1) =
      .ok [("7", some 1), ("7", some 4), ("7", none)] := rfl
  have hscoring := versionScoring_demotes asksForLatest (fun _ => none) (fun _ => "") toString chunks
  constructor
  · refine (hscoring "latest status").2 ⟨by decide, _, List.mem_cons_self, rfl⟩ ?_ ?_
    · intro c hc x hx
      simp only [chunks, List.mem_cons, List.not_mem_nil, or_false] at hc
      rcases hc with rfl | rfl | rfl
      · cases hx
      · cases hx
      · cases hx
    · intro metas h k v w hv _ hneg
      rw [hmetas] at h
      cases h
      simp only [List.mem_cons, Prod.mk.injEq, Option.some.injEq, reduceCtorEq, and_false, List.not_mem_nil,
        or_false] at hv
      omega
  · exact (hscoring "who is it").1 fun hactive => absurd hactive.1 (by decide)

/-- A query without intent leaves an unsorted list unsorted.  A query with intent raises on a version
that is an infinite float, and on a negative version beside a positive one. -/
theorem versions_not_total :
    (¬ ∃ metas result, scored [(versioned 1 (.int 1), 1), (versioned 2 (.int 2), 2)] "who is it" =
        .ok (result.map fun c => (c.1, Score.real c.2)) ∧
      Demoted [(versioned 1 (.int 1), (1 : ℝ)), (versioned 2 (.int 2), 2)] metas result) ∧
    scored [(versioned 1 (.float .posInf), 1)] "latest status" = .error .overflowError ∧
    scored [(versioned 1 (.int (-1)), 1), (versioned 2 (.int 1), 1)] "latest status" = .error .typeError := by
  refine ⟨?_, rfl, ?_⟩
  · rintro ⟨metas, result, hresult, -, hsorted⟩
    have hkept : result = [(versioned 1 (.int 1), 1), (versioned 2 (.int 2), 2)] := by
      have hinj : Function.Injective fun c : Chunk ℕ × ℝ => (c.1, Score.real c.2) := by
        rintro ⟨c, x⟩ ⟨d, y⟩ h
        cases h
        rfl
      exact (hinj.list_map (Except.ok.inj hresult)).symm
    rw [hkept] at hsorted
    have h := (List.pairwise_cons.mp hsorted).1 _ List.mem_cons_self
    norm_num at h
  · have hmax : maxVersions [("7", some (-1)), ("7", some 1)] "7" = some 1 := by decide +kernel
    have hsmall : overflows (-1) 1 = false ∧ overflows 1 1 = false := by decide +kernel
    have hfirst : rescore Real.sqrt (maxVersions [("7", some (-1)), ("7", some 1)]) 1 ("7", some (-1)) =
        .ok .complex := by
      simp [rescore, hmax, penalized, hsmall.1]
    have hsecond : rescore Real.sqrt (maxVersions [("7", some (-1)), ("7", some 1)]) 1 ("7", some 1) =
        .ok (.real (1 * Real.sqrt 1)) := by
      simp [rescore, hmax, penalized, hsmall.2]
    have hmetas : ([(versioned 1 (.int (-1)), 1), (versioned 2 (.int 1), 1)] : List (Chunk ℕ × ℝ)).mapM
        (fun c => chunkMeta (fun _ => none) (fun _ => "") toString c.1) =
          .ok [("7", some (-1)), ("7", some 1)] := rfl
    have hactive : Activates asksForLatest
        ([(versioned 1 (.int (-1)), 1), (versioned 2 (.int 1), 1)] : List (Chunk ℕ × ℝ)) "latest status" :=
      ⟨by decide, _, List.mem_cons_self, rfl⟩
    rw [scored, applyVersionScoring_of_active _ _ _ _ hactive hmetas]
    simp only [List.zip_cons_cons, List.zip_nil_right, Fallible.mapM_cons, hfirst, hsecond]
    rfl

end VersionScoring

end Khora
