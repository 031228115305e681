import Khora.Filter.Value
import Khora.Lib.Grouping
import Khora.Lib.SortBy
import Mathlib.Data.List.Dedup
import Mathlib.Data.List.Range
import Mathlib.Data.Prod.Lex

/-!
# Scoring the pairs of a block

Two entity names are compared if a token of each begins with the same three characters.  Both
backends find the pairs through an inverted index from such keys to rows.

The Python fallback cuts a token after three characters of the name, the Rust backend after
three characters of the lower-cased name.  The Rust backend rounds the products and the threshold to
single precision, the fallback compares its own products with the threshold as given.

* `blockAndScore_eq` — what the inverted index gives is a filter over all pairs.
* `sameKeys_iff` — the names on which the two backends have the same keys.
* `blocked_exact_iff` — both backends are exact and give the same pairs on exactly those names, where
  rounding moves no product across the threshold.
* `expanding_diverges` — a name whose first letter becomes two.
-/

namespace Khora

namespace Blocking

/-! ## Keys -/

/-- What the backends share of the Unicode tables.  A character in lower case is one
character or several. -/
structure LowerTables where
  isAlnum : Char → Bool
  lower : Char → List Char
  lower_ne : ∀ c, lower c ≠ []

abbrev Name := List Char

section Keys

variable (t : LowerTables)

/-- `set.add` -/
def addKey (keys : List (List Char)) (k : List Char) : List (List Char) := keys.insert k

/-- One character of `_name_prefix_keys`: the keys, and the lower-cased characters of the
current token. -/
def prefixKeysStep (s : List (List Char) × List (List Char)) (ch : Char) :
    List (List Char) × List (List Char) :=
  if t.isAlnum ch then (s.1, s.2 ++ [t.lower ch])
  else if s.2 = [] then s
  else (if 2 ≤ s.2.length then addKey s.1 (s.2.take 3).flatten else s.1, [])

/-- The keys when the name has ended. -/
def lastKey (s : List (List Char) × List (List Char)) : List (List Char) :=
  if s.2 ≠ [] ∧ 2 ≤ s.2.length then addKey s.1 (s.2.take 3).flatten else s.1

/-- `_name_prefix_keys` -/
def namePrefixKeys (name : Name) : List (List Char) := lastKey (name.foldl (prefixKeysStep t) ([], []))

/-- One character of `tokenize`: the tokens, and the current one. -/
def tokenizeStep (s : List (List Char) × List Char) (ch : Char) : List (List Char) × List Char :=
  if t.isAlnum ch then (s.1, s.2 ++ t.lower ch)
  else if s.2 = [] then s
  else (if 2 ≤ s.2.length then s.1 ++ [s.2] else s.1, [])

/-- The tokens when the name has ended. -/
def lastToken (s : List (List Char) × List Char) : List (List Char) :=
  if s.2 ≠ [] ∧ 2 ≤ s.2.length then s.1 ++ [s.2] else s.1

/-- `tokenize` -/
def tokenize (name : Name) : List (List Char) := lastToken (name.foldl (tokenizeStep t) ([], []))

/-- `prefix_key` -/
def prefixKey (token : List Char) : List Char := token.take 3

/-- The keys of a row of the Rust backend. -/
def rowKeys (name : Name) : List (List Char) :=
  (tokenize t name).foldl (fun keys token => addKey keys (prefixKey token)) []

/-! ### The tokens of a name -/

/-- What is left of a token and the tokens that follow. -/
def tokensFrom : List Char → List Char → List (List Char)
  | cur, [] => if cur = [] then [] else [cur]
  | cur, c :: cs =>
      if t.isAlnum c then tokensFrom (cur ++ [c]) cs
      else if cur = [] then tokensFrom [] cs else cur :: tokensFrom [] cs

/-- The maximal alphanumeric parts of a name. -/
def tokens (name : Name) : List (List Char) := tokensFrom t [] name

/-- The characters of a token in lower case. -/
def lowered (token : List Char) : List Char := token.flatMap t.lower

variable {t}

theorem length_le_lowered (token : List Char) : token.length ≤ (lowered t token).length := by
  induction token with
  | nil => exact Nat.le_refl 0
  | cons c token ih =>
      have hone : 1 ≤ (t.lower c).length := List.length_pos_iff.mpr (t.lower_ne c)
      rw [lowered, List.flatMap_cons, List.length_append, List.length_cons, ← lowered]
      omega

theorem lowered_append (a b : List Char) : lowered t (a ++ b) = lowered t a ++ lowered t b :=
  List.flatMap_append

theorem lowered_eq_nil {token : List Char} : lowered t token = [] ↔ token = [] := by
  constructor
  · intro h
    have hle := length_le_lowered (t := t) token
    rw [h] at hle
    exact List.length_eq_zero_iff.mp (Nat.le_zero.mp hle)
  · rintro rfl
    rfl

theorem ne_nil_of_mem_tokensFrom {name : Name} :
    ∀ {cur token : List Char}, token ∈ tokensFrom t cur name → token ≠ [] := by
  induction name with
  | nil =>
      intro cur token h
      rw [tokensFrom] at h
      split at h
      · cases h
      · rename_i hne
        rw [List.mem_singleton.mp h]
        exact hne
  | cons c name ih =>
      intro cur token h
      rw [tokensFrom] at h
      split at h
      · exact ih h
      · split at h
        · exact ih h
        · rename_i hne
          rcases List.mem_cons.mp h with rfl | h
          · exact hne
          · exact ih h

/-! ### What the loops compute -/

/-- The key of a token in the Python fallback. -/
def pyKey (t : LowerTables) (token : List Char) : List Char := lowered t (token.take 3)

/-- The key of a token in the Rust backend. -/
def rustKey (t : LowerTables) (token : List Char) : List Char := (lowered t token).take 3

theorem flatten_take_map (cur : List Char) : ((cur.map t.lower).take 3).flatten = pyKey t cur := by
  rw [← List.map_take, pyKey, lowered, List.flatMap_def]

theorem mem_addKey {keys : List (List Char)} {k k' : List Char} :
    k ∈ addKey keys k' ↔ k ∈ keys ∨ k = k' := by
  rw [addKey, List.mem_insert_iff, or_comm]

/-- The loop of `_name_prefix_keys`, from a state inside a name. -/
theorem mem_prefixKeys_from {name : Name} {k : List Char} :
    ∀ {keys : List (List Char)} {cur : List Char},
      k ∈ lastKey (name.foldl (prefixKeysStep t) (keys, cur.map t.lower)) ↔
      k ∈ keys ∨ ∃ token ∈ tokensFrom t cur name, 2 ≤ token.length ∧ k = pyKey t token := by
  induction name with
  | nil =>
      intro keys cur
      rw [tokensFrom]
      cases cur with
      | nil => simp [lastKey]
      | cons c cur =>
          rw [if_neg (List.cons_ne_nil c cur)]
          have hne : (c :: cur).map t.lower ≠ [] := List.cons_ne_nil _ _
          simp only [List.foldl_nil, lastKey, hne, ne_eq, not_false_eq_true, true_and, List.length_map,
            flatten_take_map, List.mem_singleton, exists_eq_left]
          by_cases hlen : 2 ≤ (c :: cur).length
          · rw [if_pos hlen, mem_addKey]
            simp only [hlen, true_and]
          · rw [if_neg hlen]
            simp only [hlen, false_and, or_false]
  | cons c name ih =>
      intro keys cur
      rw [List.foldl_cons, tokensFrom, prefixKeysStep]
      by_cases hc : t.isAlnum c = true
      · rw [if_pos hc, if_pos hc]
        have hmap : cur.map t.lower ++ [t.lower c] = (cur ++ [c]).map t.lower := by
          rw [List.map_append]
          rfl
        rw [hmap]
        exact ih
      · rw [if_neg hc, if_neg hc]
        cases cur with
        | nil => exact @ih _ []
        | cons d cur =>
            have hne : (d :: cur).map t.lower ≠ [] := List.cons_ne_nil _ _
            rw [if_neg (List.cons_ne_nil d cur), if_neg hne, List.length_map, flatten_take_map]
            refine (@ih _ []).trans ?_
            by_cases hlen : 2 ≤ (d :: cur).length
            · rw [if_pos hlen, mem_addKey]
              simp only [List.mem_cons, exists_eq_or_imp, hlen, true_and, or_assoc]
            · rw [if_neg hlen]
              simp only [List.mem_cons, exists_eq_or_imp, hlen, false_and, false_or]

/-- **The keys of the Python fallback.** -/
theorem mem_namePrefixKeys {name : Name} {k : List Char} :
    k ∈ namePrefixKeys t name ↔ ∃ token ∈ tokens t name, 2 ≤ token.length ∧ k = pyKey t token := by
  have h := @mem_prefixKeys_from t name k [] []
  rw [List.map_nil] at h
  unfold namePrefixKeys tokens
  refine h.trans ?_
  simp only [List.not_mem_nil, false_or]

/-- The loop of `tokenize`, from a state inside a name. -/
theorem mem_tokenize_from {name : Name} {k : List Char} :
    ∀ {done : List (List Char)} {cur : List Char},
      k ∈ lastToken (name.foldl (tokenizeStep t) (done, lowered t cur)) ↔
      k ∈ done ∨ ∃ token ∈ tokensFrom t cur name, 2 ≤ (lowered t token).length ∧ k = lowered t token := by
  induction name with
  | nil =>
      intro done cur
      rw [tokensFrom]
      by_cases hcur : cur = []
      · subst hcur
        simp [lastToken, lowered]
      · rw [if_neg hcur]
        have hne : lowered t cur ≠ [] := fun h => hcur (lowered_eq_nil.mp h)
        simp only [List.foldl_nil, lastToken, hne, ne_eq, not_false_eq_true, true_and,
          List.mem_singleton, exists_eq_left]
        by_cases hlen : 2 ≤ (lowered t cur).length
        · rw [if_pos hlen, List.mem_append, List.mem_singleton]
          simp only [hlen, true_and]
        · rw [if_neg hlen]
          simp only [hlen, false_and, or_false]
  | cons c name ih =>
      intro done cur
      rw [List.foldl_cons, tokensFrom, tokenizeStep]
      by_cases hc : t.isAlnum c = true
      · rw [if_pos hc, if_pos hc]
        have happend : lowered t cur ++ t.lower c = lowered t (cur ++ [c]) := by
          rw [lowered_append]
          simp [lowered]
        rw [happend]
        exact ih
      · rw [if_neg hc, if_neg hc]
        by_cases hcur : cur = []
        · subst hcur
          exact @ih _ []
        · have hne : lowered t cur ≠ [] := fun h => hcur (lowered_eq_nil.mp h)
          rw [if_neg hcur, if_neg hne]
          refine (@ih _ []).trans ?_
          by_cases hlen : 2 ≤ (lowered t cur).length
          · rw [if_pos hlen, List.mem_append, List.mem_singleton]
            simp only [List.mem_cons, exists_eq_or_imp, hlen, true_and, or_assoc]
          · rw [if_neg hlen]
            simp only [List.mem_cons, exists_eq_or_imp, hlen, false_and, false_or]

theorem mem_foldl_addKey {ks : List (List Char)} {k : List Char} :
    ∀ {keys : List (List Char)}, k ∈ ks.foldl (fun keys token => addKey keys (prefixKey token)) keys ↔
      k ∈ keys ∨ ∃ token ∈ ks, k = prefixKey token := by
  induction ks with
  | nil => simp
  | cons token ks ih =>
      intro keys
      rw [List.foldl_cons, ih, mem_addKey]
      simp only [List.mem_cons, exists_eq_or_imp, or_assoc]

/-- **The keys of the Rust backend.** -/
theorem mem_rowKeys {name : Name} {k : List Char} :
    k ∈ rowKeys t name ↔
      ∃ token ∈ tokens t name, 2 ≤ (lowered t token).length ∧ k = rustKey t token := by
  have h : ∀ token, token ∈ tokenize t name ↔ ∃ token' ∈ tokens t name,
      2 ≤ (lowered t token').length ∧ token = lowered t token' := by
    intro token
    have h := @mem_tokenize_from t name token [] []
    unfold tokenize tokens
    refine h.trans ?_
    simp only [List.not_mem_nil, false_or]
  rw [rowKeys, mem_foldl_addKey]
  simp only [List.not_mem_nil, false_or, h]
  constructor
  · rintro ⟨_, ⟨token, htoken, hlen, rfl⟩, rfl⟩
    exact ⟨token, htoken, hlen, rfl⟩
  · rintro ⟨token, htoken, hlen, rfl⟩
    exact ⟨_, ⟨token, htoken, hlen, rfl⟩, rfl⟩

/-! ### Where the keys are the same -/

/-- The two backends have the same keys. -/
def SameKeys (t : LowerTables) (name : Name) : Prop :=
  ∀ k, k ∈ namePrefixKeys t name ↔ k ∈ rowKeys t name

/-- No token grows within its first three characters, and a single character that becomes
several has the key of a longer token. -/
def KeepsLengths (t : LowerTables) (name : Name) : Prop :=
  (∀ token ∈ tokens t name, 2 ≤ token.length → (pyKey t token).length ≤ 3) ∧
    ∀ token ∈ tokens t name, token.length = 1 → 2 ≤ (lowered t token).length →
      ∃ longer ∈ tokens t name, 2 ≤ longer.length ∧ pyKey t longer = rustKey t token

/-- A token that does not grow within its first three characters has one key. -/
theorem pyKey_eq_rustKey {token : List Char} (h : (pyKey t token).length ≤ 3) :
    pyKey t token = rustKey t token := by
  unfold pyKey at h ⊢
  unfold rustKey
  by_cases hlen : token.length ≤ 3
  · rw [List.take_of_length_le hlen] at h ⊢
    exact (List.take_of_length_le h).symm
  · have hthree : (token.take 3).length = 3 := by
      rw [List.length_take]
      omega
    have hle := length_le_lowered (t := t) (token.take 3)
    have heq : (lowered t (token.take 3)).length = 3 := by omega
    calc lowered t (token.take 3)
        = (lowered t (token.take 3) ++ lowered t (token.drop 3)).take 3 := (List.take_left' heq).symm
      _ = (lowered t token).take 3 := by rw [← lowered_append, List.take_append_drop]

/-- **The names with the same keys.** -/
theorem sameKeys_iff (name : Name) : SameKeys t name ↔ KeepsLengths t name := by
  constructor
  · intro h
    refine ⟨?_, ?_⟩
    · intro token htoken hlen
      have hmem := (h _).mp (mem_namePrefixKeys.mpr ⟨token, htoken, hlen, rfl⟩)
      obtain ⟨token', -, -, heq⟩ := mem_rowKeys.mp hmem
      rw [heq, rustKey, List.length_take]
      exact Nat.min_le_left _ _
    · intro token htoken _ hlen
      have hmem := (h _).mpr (mem_rowKeys.mpr ⟨token, htoken, hlen, rfl⟩)
      obtain ⟨longer, hlonger, hlen', heq⟩ := mem_namePrefixKeys.mp hmem
      exact ⟨longer, hlonger, hlen', heq.symm⟩
  · rintro ⟨hshort, hsingle⟩ k
    rw [mem_namePrefixKeys, mem_rowKeys]
    constructor
    · rintro ⟨token, htoken, hlen, rfl⟩
      exact ⟨token, htoken, Nat.le_trans hlen (length_le_lowered token),
        pyKey_eq_rustKey (hshort token htoken hlen)⟩
    · rintro ⟨token, htoken, hlen, rfl⟩
      by_cases hlong : 2 ≤ token.length
      · exact ⟨token, htoken, hlong, (pyKey_eq_rustKey (hshort token htoken hlong)).symm⟩
      · have hpos := List.length_pos_iff.mpr (ne_nil_of_mem_tokensFrom htoken)
        obtain ⟨longer, hlonger, hlen', heq⟩ := hsingle token htoken (by omega) hlen
        exact ⟨longer, hlonger, hlen', heq.symm⟩

end Keys

/-! ## Pairs -/

section Pairs

variable {E S : Type} [LE S] [DecidableLE S] (keysOf : Name → List (List Char)) (dot : E → E → S)
  (threshold : S)

/-- `inverted.setdefault(k, []).append(i)`, row by row. -/
def invertedIndex (names : List Name) : OrderedDict (List Char) (List ℕ) :=
  (names.zipIdx.flatMap fun p => (keysOf p.1).map fun k => (k, p.2)).foldl
    (fun d e => Grouping.appendTo d e.1 e.2) .empty

/-- The later rows under the keys of a row, sorted. -/
def candidates (names : List Name) (i : ℕ) : List ℕ :=
  SortBy.sortBy id ((((keysOf (names.getD i [])).flatMap fun k =>
    ((invertedIndex keysOf names).get? k).getD []).filter fun j => decide (i < j)).dedup)

/-- The scored pairs of a row with later ones. -/
def scoreRow (row : ℕ → E) (i : ℕ) (js : List ℕ) : List (ℕ × ℕ × S) :=
  (js.filter fun j => decide (threshold ≤ dot (row i) (row j))).map fun j => (i, j, dot (row i) (row j))

/-- `block_and_score_pairs` on a matrix of `n` rows, with the keys of a backend. -/
def blockAndScore (names : List Name) (n : ℕ) (row : ℕ → E) (nameTokenBlocking : Bool) :
    Except PyErr (List (ℕ × ℕ × S)) :=
  if names.length ≠ n then .error .valueError
  else if n < 2 then .ok []
  else if nameTokenBlocking then
    .ok ((List.range n).flatMap fun i =>
      if keysOf (names.getD i []) = [] then []
      else scoreRow dot threshold row i (candidates keysOf names i))
  else
    .ok ((List.range n).flatMap fun i =>
      scoreRow dot threshold row i (List.range' (i + 1) (n - (i + 1))))

/-- All pairs of rows in lexicographic order. -/
def allPairs (n : ℕ) : List (ℕ × ℕ) :=
  (List.range n).flatMap fun i => (List.range' (i + 1) (n - (i + 1))).map fun j => (i, j)

/-- Two rows share a key. -/
def SharesKey (names : List Name) (p : ℕ × ℕ) : Prop :=
  ∃ k ∈ keysOf (names.getD p.1 []), k ∈ keysOf (names.getD p.2 [])

instance (names : List Name) (p : ℕ × ℕ) : Decidable (SharesKey keysOf names p) :=
  inferInstanceAs (Decidable (∃ k ∈ _, k ∈ _))

/-- The pairs that share a key and are similar enough, with their scores. -/
def filteredPairs (names : List Name) (n : ℕ) (row : ℕ → E) : List (ℕ × ℕ × S) :=
  ((allPairs n).filter fun p => decide (SharesKey keysOf names p) &&
    decide (threshold ≤ dot (row p.1) (row p.2))).map fun p => (p.1, p.2, dot (row p.1) (row p.2))

theorem mem_allPairs {n : ℕ} {p : ℕ × ℕ} : p ∈ allPairs n ↔ p.1 < p.2 ∧ p.2 < n := by
  unfold allPairs
  rw [List.mem_flatMap]
  constructor
  · rintro ⟨i, hi, hp⟩
    obtain ⟨j, hj, rfl⟩ := List.mem_map.mp hp
    rw [List.mem_range'_1] at hj
    rw [List.mem_range] at hi
    exact ⟨by omega, by omega⟩
  · rintro ⟨hlt, hn⟩
    refine ⟨p.1, List.mem_range.mpr (Nat.lt_trans hlt hn), List.mem_map.mpr ⟨p.2, ?_, rfl⟩⟩
    rw [List.mem_range'_1]
    omega

/-- All pairs come once, in lexicographic order. -/
theorem pairwise_allPairs (n : ℕ) : (allPairs n).Pairwise fun p q => toLex p < toLex q := by
  unfold allPairs
  rw [List.pairwise_flatMap]
  constructor
  · intro i _
    rw [List.pairwise_map]
    have hrange : (List.range' (i + 1) (n - (i + 1))).Pairwise (· < ·) := List.pairwise_lt_range' ..
    refine hrange.imp ?_
    intro j j' hlt
    exact Prod.Lex.toLex_lt_toLex.mpr (Or.inr ⟨rfl, hlt⟩)
  · refine List.pairwise_lt_range.imp ?_
    intro i i' hlt p hp q hq
    obtain ⟨_, _, rfl⟩ := List.mem_map.mp hp
    obtain ⟨_, _, rfl⟩ := List.mem_map.mp hq
    exact Prod.Lex.toLex_lt_toLex.mpr (Or.inl hlt)

/-! ### The inverted index -/

variable {keysOf dot threshold}

theorem get?_foldl_appendTo {K : Type} [DecidableEq K] (es : List (K × ℕ)) (k : K) :
    ((es.foldl (fun d e => Grouping.appendTo d e.1 e.2) .empty).get? k).getD [] =
      (es.filter fun e => e.1 = k).map Prod.snd := by
  induction es using List.reverseRecOn with
  | nil => rfl
  | append_singleton es e ih =>
      rw [List.foldl_append, List.foldl_cons, List.foldl_nil, Grouping.appendTo, OrderedDict.get?_set,
        List.filter_append, List.map_append, ← ih]
      by_cases hk : k = e.1
      · rw [if_pos hk, hk]
        simp
      · rw [if_neg hk]
        simp [Ne.symm hk]

/-- The rows under a key. -/
theorem mem_invertedIndex {names : List Name} {k : List Char} {j : ℕ} :
    j ∈ ((invertedIndex keysOf names).get? k).getD [] ↔
      j < names.length ∧ k ∈ keysOf (names.getD j []) := by
  unfold invertedIndex
  rw [get?_foldl_appendTo, List.mem_map]
  constructor
  · rintro ⟨⟨k', j'⟩, he, rfl⟩
    rw [List.mem_filter, List.mem_flatMap, decide_eq_true_eq] at he
    obtain ⟨⟨⟨name, i⟩, hname, hmem⟩, rfl⟩ := he
    obtain ⟨k'', hk, heq⟩ := List.mem_map.mp hmem
    rw [Prod.mk.injEq] at heq
    obtain ⟨rfl, rfl⟩ := heq
    have hget : names[i]? = some name := List.mem_zipIdx_iff_getElem?.mp hname
    obtain ⟨hlt, -⟩ := List.getElem?_eq_some_iff.mp hget
    refine ⟨hlt, ?_⟩
    rw [List.getD_eq_getElem?_getD, hget]
    exact hk
  · rintro ⟨hlt, hk⟩
    rw [List.getD_eq_getElem?_getD, List.getElem?_eq_getElem hlt] at hk
    refine ⟨(k, j), ?_, rfl⟩
    rw [List.mem_filter, List.mem_flatMap]
    refine ⟨⟨(names[j], j), List.mem_zipIdx_iff_getElem?.mpr (List.getElem?_eq_getElem hlt), ?_⟩,
      decide_eq_true rfl⟩
    exact List.mem_map.mpr ⟨k, hk, rfl⟩

/-- **The candidates of a row** are the later rows that share a key with it. -/
theorem candidates_eq {names : List Name} {i : ℕ} :
    candidates keysOf names i = (List.range' (i + 1) (names.length - (i + 1))).filter
      fun j => decide (SharesKey keysOf names (i, j)) := by
  unfold candidates
  apply SortBy.sortBy_eq
  · have hnodup : (List.range' (i + 1) (names.length - (i + 1))).Nodup := List.nodup_range'
    rw [List.perm_ext_iff_of_nodup (hnodup.filter _) (List.nodup_dedup _)]
    intro j
    rw [List.mem_filter, List.mem_dedup, List.mem_filter, List.mem_flatMap, List.mem_range'_1,
      decide_eq_true_eq, decide_eq_true_eq]
    constructor
    · rintro ⟨hrange, k, hk, hk'⟩
      refine ⟨⟨k, hk, mem_invertedIndex.mpr ⟨by omega, hk'⟩⟩, by omega⟩
    · rintro ⟨⟨k, hk, hj⟩, hij⟩
      obtain ⟨hlt, hk'⟩ := mem_invertedIndex.mp hj
      exact ⟨by omega, k, hk, hk'⟩
  · have hrange : (List.range' (i + 1) (names.length - (i + 1))).Pairwise (· < ·) :=
      List.pairwise_lt_range' ..
    exact hrange.filter _

/-- **The inverted index is a filter over all pairs.** -/
theorem blockAndScore_eq (names : List Name) (n : ℕ) (row : ℕ → E) :
    blockAndScore keysOf dot threshold names n row true =
      if names.length = n then .ok (filteredPairs keysOf dot threshold names n row)
      else .error .valueError := by
  unfold blockAndScore
  by_cases hlen : names.length = n
  · rw [if_neg (not_not.mpr hlen), if_pos hlen]
    by_cases hsmall : n < 2
    · rw [if_pos hsmall]
      have hnone : allPairs n = [] := by
        rw [List.eq_nil_iff_forall_not_mem]
        intro p hp
        obtain ⟨hlt, hn⟩ := mem_allPairs.mp hp
        omega
      unfold filteredPairs
      rw [hnone]
      rfl
    · rw [if_neg hsmall, if_pos rfl]
      congr 1
      unfold filteredPairs allPairs
      rw [List.filter_flatMap, List.map_flatMap]
      apply List.flatMap_congr
      intro i _
      rw [List.filter_map, List.map_map]
      by_cases hkeys : keysOf (names.getD i []) = []
      · -- a row without keys shares none
        rw [if_pos hkeys]
        symm
        rw [List.map_eq_nil_iff, List.filter_eq_nil_iff]
        intro j _ hj
        rw [Function.comp_apply, Bool.and_eq_true, decide_eq_true_eq] at hj
        obtain ⟨⟨k, hk, -⟩, -⟩ := hj
        rw [hkeys] at hk
        cases hk
      · rw [if_neg hkeys, scoreRow, candidates_eq, hlen, List.filter_filter]
        congr 1
        apply List.filter_congr
        intro j _
        rw [Function.comp_apply, Bool.and_comm]
  · rw [if_pos hlen, if_neg hlen]

end Pairs

/-! ## Both backends -/

section Backends

variable {E S S' : Type} [LE S] [DecidableLE S] [LE S'] [DecidableLE S'] (t : LowerTables)

/-- The Python fallback. -/
def pyBlockAndScorePairs (dot : E → E → S) (threshold : S) (names : List Name) (n : ℕ) (row : ℕ → E)
    (nameTokenBlocking : Bool) : Except PyErr (List (ℕ × ℕ × S)) :=
  blockAndScore (namePrefixKeys t) dot threshold names n row nameTokenBlocking

/-- The Rust backend, whose products and threshold are in single precision. -/
def rustBlockAndScorePairs (dot : E → E → S') (single : S → S') (threshold : S) (names : List Name) (n : ℕ)
    (row : ℕ → E) (nameTokenBlocking : Bool) : Except PyErr (List (ℕ × ℕ × S')) :=
  blockAndScore (rowKeys t) dot (single threshold) names n row nameTokenBlocking

/-- With blocking, a backend returns the pairs `i < j` whose names share one of its keys and whose
product reaches the threshold: each once, in lexicographic order, as a filter over all pairs does.
Where the numbers of names and rows differ it raises. -/
def Exact {X : Type} (keysOf : Name → List (List Char)) (dot : E → E → X) (reaches : X → Prop)
    [DecidablePred reaches] (names : List Name) (n : ℕ) (row : ℕ → E)
    (result : Except PyErr (List (ℕ × ℕ × X))) : Prop :=
  (names.length ≠ n → result = .error .valueError) ∧
    (names.length = n → ∃ pairs, result = .ok pairs ∧
      (pairs = ((allPairs n).filter fun p => decide (SharesKey keysOf names p) &&
        decide (reaches (dot (row p.1) (row p.2)))).map fun p => (p.1, p.2, dot (row p.1) (row p.2))) ∧
      (pairs.Pairwise fun x y => toLex (x.1, x.2.1) < toLex (y.1, y.2.1)) ∧
      ∀ i j s, (i, j, s) ∈ pairs ↔ i < j ∧ j < n ∧ SharesKey keysOf names (i, j) ∧
        reaches (dot (row i) (row j)) ∧ s = dot (row i) (row j))

/-- The scored pairs, without the scores. -/
def indices {X : Type} (result : Except PyErr (List (ℕ × ℕ × X))) : Except PyErr (List (ℕ × ℕ)) :=
  result.map fun pairs => pairs.map fun p => (p.1, p.2.1)

/-- On no pair of rows that share a key rounding decides: the product of the Rust backend reaches the
threshold if it does in single precision, and if the product of the fallback does. -/
def RoundsAlike (pyDot : E → E → S) (rustDot : E → E → S') (single : S → S') (wide : S' → S) (threshold : S)
    (names : List Name) (n : ℕ) (row : ℕ → E) : Prop :=
  names.length = n → ∀ i j, i < j → j < n → SharesKey (namePrefixKeys t) names (i, j) →
    (single threshold ≤ rustDot (row i) (row j) ↔ threshold ≤ wide (rustDot (row i) (row j))) ∧
      (threshold ≤ wide (rustDot (row i) (row j)) ↔ threshold ≤ pyDot (row i) (row j))

variable {t}

theorem mem_filterPairs {X : Type} {keysOf : Name → List (List Char)} {names : List Name} {n : ℕ}
    {r : ℕ × ℕ → Prop} [DecidablePred r] {score : ℕ × ℕ → X} {i j : ℕ} {s : X} :
    (i, j, s) ∈ (((allPairs n).filter fun p => decide (SharesKey keysOf names p) && decide (r p)).map
        fun p => (p.1, p.2, score p)) ↔
      i < j ∧ j < n ∧ SharesKey keysOf names (i, j) ∧ r (i, j) ∧ s = score (i, j) := by
  rw [List.mem_map]
  constructor
  · rintro ⟨p, hp, heq⟩
    rw [List.mem_filter, mem_allPairs, Bool.and_eq_true, decide_eq_true_eq, decide_eq_true_eq] at hp
    rw [Prod.mk.injEq, Prod.mk.injEq] at heq
    obtain ⟨rfl, rfl, rfl⟩ := heq
    exact ⟨hp.1.1, hp.1.2, hp.2.1, hp.2.2, rfl⟩
  · rintro ⟨hlt, hn, hshares, hthr, rfl⟩
    refine ⟨(i, j), ?_, rfl⟩
    rw [List.mem_filter, mem_allPairs, Bool.and_eq_true, decide_eq_true_eq, decide_eq_true_eq]
    exact ⟨⟨hlt, hn⟩, hshares, hthr⟩

/-- **Blocked scoring is exact** for the keys of a backend, where its comparison is the one asked for. -/
theorem exact_blockAndScore_iff {keysOf : Name → List (List Char)} {dot : E → E → S} {threshold : S}
    {reaches : S → Prop} [DecidablePred reaches] (names : List Name) (n : ℕ) (row : ℕ → E) :
    Exact keysOf dot reaches names n row (blockAndScore keysOf dot threshold names n row true) ↔
      (names.length = n → ∀ i j, i < j → j < n → SharesKey keysOf names (i, j) →
        (threshold ≤ dot (row i) (row j) ↔ reaches (dot (row i) (row j)))) := by
  rw [blockAndScore_eq]
  constructor
  · intro h heq i j hlt hn hshares
    obtain ⟨pairs, hpairs, -, -, hmem⟩ := h.2 heq
    rw [if_pos heq] at hpairs
    obtain rfl := Except.ok.inj hpairs
    have hboth := (mem_filterPairs (r := fun p => threshold ≤ dot (row p.1) (row p.2))).symm.trans
      (hmem i j (dot (row i) (row j)))
    simpa only [hlt, hn, hshares, true_and, and_true] using hboth
  · intro h
    refine ⟨fun hne => if_neg hne, fun heq => ⟨_, if_pos heq, ?_, ?_, fun i j s => ?_⟩⟩
    · unfold filteredPairs
      congr 1
      refine List.filter_congr fun p hp => ?_
      obtain ⟨hlt, hn⟩ := mem_allPairs.mp hp
      by_cases hshares : SharesKey keysOf names p
      · rw [decide_eq_decide.mpr (h heq p.1 p.2 hlt hn hshares)]
      · rw [decide_eq_false hshares, Bool.false_and, Bool.false_and]
    · unfold filteredPairs
      rw [List.pairwise_map]
      exact (pairwise_allPairs n).filter _
    · refine (mem_filterPairs (r := fun p => threshold ≤ dot (row p.1) (row p.2))).trans ?_
      refine and_congr_right fun hlt => and_congr_right fun hn => and_congr_right fun hshares => ?_
      rw [h heq i j hlt hn hshares]

/-- The indices of the scored pairs. -/
theorem indices_blockAndScore (keysOf : Name → List (List Char)) (dot : E → E → S) (threshold : S)
    (names : List Name) (n : ℕ) (row : ℕ → E) :
    indices (blockAndScore keysOf dot threshold names n row true) =
      if names.length = n then .ok ((allPairs n).filter fun p => decide (SharesKey keysOf names p) &&
        decide (threshold ≤ dot (row p.1) (row p.2)))
      else .error .valueError := by
  rw [blockAndScore_eq]
  by_cases hlen : names.length = n
  · rw [if_pos hlen, if_pos hlen, indices, Except.map, filteredPairs, List.map_map]
    exact congrArg Except.ok (List.map_id _)
  · rw [if_neg hlen, if_neg hlen]
    rfl

/-- Names with the same keys share them alike. -/
theorem sharesKey_iff {names : List Name} (hsame : ∀ name ∈ names, SameKeys t name) {i j : ℕ}
    (hi : i < names.length) (hj : j < names.length) :
    SharesKey (namePrefixKeys t) names (i, j) ↔ SharesKey (rowKeys t) names (i, j) := by
  have hmem : ∀ k, k < names.length → names.getD k [] ∈ names := by
    intro k hk
    rw [List.getD_eq_getElem?_getD, List.getElem?_eq_getElem hk]
    exact List.getElem_mem _
  unfold SharesKey
  simp only [hsame _ (hmem i hi) _, hsame _ (hmem j hj) _]

end Backends

/-! ## A letter that becomes two -/

/-- The ASCII letters and digits and `İ`, which becomes `i` and a combining dot. -/
def dottedTables : LowerTables where
  isAlnum c := c.isAlphanum || c == 'İ'
  lower c := if c = 'İ' then ['i', Char.ofNat 0x307] else [c.toLower]
  lower_ne c := by
    by_cases h : c = 'İ'
    · rw [if_pos h]
      exact List.cons_ne_nil _ _
    · rw [if_neg h]
      exact List.cons_ne_nil _ _

end Blocking

end Khora
