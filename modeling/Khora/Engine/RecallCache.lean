import Khora.Lib.OrderedDict
import Khora.Lib.Runs
import Mathlib.Data.Int.Notation

/-!
# The recall result cache

`RecallResultCache` keeps recall results under a digest of every input of the recall,
the namespace and its write epoch included.  A write bumps the epoch of its
namespace, so that older entries become unreachable.  The epoch map is itself a
bounded LRU map: a namespace without a counter reads as epoch 0.

Recalls run concurrently with writes.  `RecallSystem` interleaves any number of them
over one cache; every method of the cache holds the lock, so each is one step.

* `Epochs.get_bumpEpoch`, `Epochs.get_bumpAllEpochs` — what the two bumps do to every
  epoch, eviction included.
* `recall_fresh` — in every run that evicts no counter still in use, and bumps all
  epochs only while no recall computes for a namespace without counter, every result
  served was computed after the last bump the recall could know of.
* `uncountedRecall_stale` — without that condition a result from before the bump is
  served.
-/

namespace Khora

/-! ## Write epochs -/

/-- The per-namespace write epochs, `_epochs` with its cap. -/
structure Epochs (N : Type) where
  cap : ℕ
  cap_pos : 0 < cap
  counters : OrderedDict N ℕ
  size_le : counters.size ≤ cap

namespace Epochs

variable {N : Type} [DecidableEq N]

/-- `self._epochs.get(namespace_id, 0)` -/
def get (E : Epochs N) (n : N) : ℕ := (E.counters.get? n).getD 0

def bumpEpoch (E : Epochs N) (n : N) : ℕ × Epochs N :=
  let newEpoch := E.get n + 1
  (newEpoch, { E with
    counters := (E.counters.setLast n newEpoch).popTo E.cap
    size_le := OrderedDict.size_popTo_le _ _ })

/-- The epochs a broad mutation leaves: only namespaces with a counter are bumped. -/
def bumpAllEpochs (E : Epochs N) : Epochs N :=
  { E with
    counters := E.counters.mapVals (· + 1)
    size_le := by
      rw [OrderedDict.size_mapVals]
      exact E.size_le }

/-- A read touches the counter. -/
def currentEpoch (E : Epochs N) (n : N) : ℕ × Epochs N :=
  (E.get n, { E with
    counters := E.counters.moveToEnd n
    size_le := Nat.le_trans (OrderedDict.size_moveToEnd_le _ _) E.size_le })

/-- Bumping `n` would push the counter of `victim` out of the map: `n` has none yet and
`victim` is among the oldest of a full map. -/
def Evicts (E : Epochs N) (n victim : N) : Prop :=
  n ∉ E.counters.keys ∧ victim ∈ E.counters.overflow (E.cap - 1)

theorem get_eq_zero {E : Epochs N} {n : N} (h : n ∉ E.counters.keys) : E.get n = 0 := by
  rw [get, OrderedDict.get?_eq_none_iff.mpr h]
  rfl

@[simp] theorem get_currentEpoch (E : Epochs N) (n m : N) : (E.currentEpoch n).2.get m = E.get m := by
  simp [currentEpoch, get]

/-- **A bump.**  Its namespace gets the next epoch; another one keeps its own or falls
back to 0, the latter only when it is evicted. -/
theorem get_bumpEpoch (E : Epochs N) (n m : N) :
    (m = n ∧ (E.bumpEpoch n).2.get m = E.get m + 1) ∨
    (m ≠ n ∧ (E.bumpEpoch n).2.get m = E.get m) ∨
    (m ≠ n ∧ E.Evicts n m ∧ (E.bumpEpoch n).2.get m = 0) := by
  have hget : (E.bumpEpoch n).2.get m =
      (((E.counters.setLast n (E.get n + 1)).popTo E.cap).get? m).getD 0 := rfl
  rw [hget, OrderedDict.get?_popTo, OrderedDict.get?_setLast]
  by_cases hn : n ∈ E.counters.keys
  · rw [OrderedDict.overflow_setLast_of_mem E.size_le hn]
    by_cases hm : m = n
    · simp [hm]
    · simp [hm, get]
  · rw [OrderedDict.overflow_setLast_of_not_mem E.cap_pos hn]
    by_cases hv : m ∈ E.counters.overflow (E.cap - 1)
    · have hm : m ≠ n := fun hmn => hn (hmn ▸ E.counters.overflow_subset _ hv)
      simp [hv, hm, Evicts, hn]
    · by_cases hm : m = n
      · subst hm
        simp [hv]
      · simp [hv, hm, get]

theorem get_bumpAllEpochs (E : Epochs N) (n : N) :
    (n ∈ E.counters.keys ∧ E.bumpAllEpochs.get n = E.get n + 1) ∨
    (n ∉ E.counters.keys ∧ E.bumpAllEpochs.get n = 0) := by
  have hget : E.bumpAllEpochs.get n = ((E.counters.get? n).map (· + 1)).getD 0 := by
    rw [← OrderedDict.get?_mapVals]
    rfl
  by_cases hn : n ∈ E.counters.keys
  · refine Or.inl ⟨hn, ?_⟩
    obtain ⟨e, he⟩ := OrderedDict.exists_get?_of_mem hn
    rw [hget, get, he]
    rfl
  · refine Or.inr ⟨hn, ?_⟩
    rw [hget, OrderedDict.get?_eq_none_iff.mpr hn]
    rfl

end Epochs

/-! ## The cache -/

/-- Everything a recall's result depends on apart from the namespace and its epoch.
`F` are the floats, `T` the temporal filters, `A` the filter trees. -/
structure RecallInputs (F T A : Type) where
  query : String
  mode : String
  limit : ℤ
  minSimilarity : F
  graphDepth : Option ℤ
  hybridAlpha : Option F
  recencyBias : Option F
  temporalFilter : Option T
  filterAst : Option A
  configFingerprint : String

/-- The texts and roundings `_digest` takes from elsewhere. -/
structure KeyText (F T A : Type) where
  /-- `query.strip().lower()` -/
  normalize : String → String
  /-- `round(float(x), 6)` -/
  round6 : F → F
  /-- `repr(asdict(temporal_filter))` -/
  temporalText : T → String
  canonicalHash : A → String

/-- The tuple `parts` of `_digest`.  SHA-256 is taken to be injective, so the tuple
stands for its digest. -/
structure RecallKey (N F : Type) where
  query : String
  namespaceId : N
  epoch : ℕ
  mode : String
  limit : ℤ
  minSimilarity : F
  graphDepth : Option ℤ
  hybridAlpha : Option F
  recencyBias : Option F
  temporalFilter : Option String
  filterHash : Option String
  configFingerprint : String
deriving DecidableEq

variable {N F T A R : Type}

def digest (w : KeyText F T A) (n : N) (epoch : ℕ) (i : RecallInputs F T A) : RecallKey N F where
  query := w.normalize i.query
  namespaceId := n
  epoch := epoch
  mode := i.mode
  limit := i.limit
  minSimilarity := w.round6 i.minSimilarity
  graphDepth := i.graphDepth
  hybridAlpha := i.hybridAlpha.map w.round6
  recencyBias := i.recencyBias.map w.round6
  temporalFilter := i.temporalFilter.map w.temporalText
  filterHash := i.filterAst.map w.canonicalHash
  configFingerprint := i.configFingerprint

/-- `RecallResultCache`: each entry holds the time it was stored. -/
structure RecallCache (N F R : Type) where
  maxSize : ℤ
  ttl : ℤ
  store : OrderedDict (RecallKey N F) (ℤ × R)
  store_le : store.size ≤ maxSize.toNat
  epochs : Epochs N

namespace RecallCache

/-- `RecallResultCache.__init__` -/
def init (maxSize ttl : ℤ) : RecallCache N F R where
  maxSize := maxSize
  ttl := ttl
  store := .empty
  store_le := Nat.zero_le _
  epochs :=
    { cap := (max maxSize 1000).toNat
      cap_pos := by omega
      counters := .empty
      size_le := Nat.zero_le _ }

def enabled (c : RecallCache N F R) : Bool := decide (0 < c.maxSize)

variable [DecidableEq N] [DecidableEq F]

def bumpEpoch (c : RecallCache N F R) (n : N) : ℕ × RecallCache N F R :=
  let (epoch, epochs) := c.epochs.bumpEpoch n
  (epoch, { c with epochs := epochs })

def bumpAllEpochs (c : RecallCache N F R) : RecallCache N F R :=
  { c with epochs := c.epochs.bumpAllEpochs, store := .empty, store_le := Nat.zero_le _ }

def currentEpoch (c : RecallCache N F R) (n : N) : ℕ × RecallCache N F R :=
  let (epoch, epochs) := c.epochs.currentEpoch n
  (epoch, { c with epochs := epochs })

/-- `get` at wall time `now`: a hit becomes the newest entry, an expired entry goes. -/
def get (w : KeyText F T A) (c : RecallCache N F R) (n : N) (epoch : ℕ)
    (i : RecallInputs F T A) (now : ℤ) : Option R × RecallCache N F R :=
  if !c.enabled then (none, c)
  else
    let key := digest w n epoch i
    match c.store.get? key with
    | none => (none, c)
    | some (timestamp, result) =>
        if now - timestamp < c.ttl then
          (some result, { c with
            store := c.store.moveToEnd key
            store_le := Nat.le_trans (OrderedDict.size_moveToEnd_le _ _) c.store_le })
        else
          (none, { c with
            store := c.store.erase key
            store_le := Nat.le_trans (OrderedDict.size_erase_le _ _) c.store_le })

/-- `set` at wall time `now`: refused when the namespace was bumped since `epoch`. -/
def set (w : KeyText F T A) (c : RecallCache N F R) (n : N) (epoch : ℕ)
    (i : RecallInputs F T A) (now : ℤ) (result : R) : RecallCache N F R :=
  if !c.enabled then c
  else if c.epochs.get n != epoch then c
  else { c with
    store := (c.store.setLast (digest w n epoch i) (now, result)).popTo c.maxSize.toNat
    store_le := OrderedDict.size_popTo_le _ _ }

def clear (c : RecallCache N F R) : RecallCache N F R :=
  { c with store := .empty, store_le := Nat.zero_le _ }

/-! ### What each method does to the entries -/

/-- **A lookup.**  It answers with the entry under the key, and leaves no entry that
was not there. -/
theorem get_spec (w : KeyText F T A) (c : RecallCache N F R) (n : N) (epoch : ℕ)
    (i : RecallInputs F T A) (now : ℤ) :
    (∀ r, (c.get w n epoch i now).1 = some r →
      ∃ t, c.store.get? (digest w n epoch i) = some (t, r)) ∧
    (c.get w n epoch i now).2.epochs = c.epochs ∧
    ∀ k e, (c.get w n epoch i now).2.store.get? k = some e → c.store.get? k = some e := by
  rw [get]
  split
  · exact ⟨by simp, rfl, fun _ _ h => h⟩
  · dsimp only
    split
    · exact ⟨by simp, rfl, fun _ _ h => h⟩
    · rename_i t r hr
      split
      · refine ⟨?_, rfl, ?_⟩
        · intro r' hr'
          cases hr'
          exact ⟨t, hr⟩
        · intro k e he
          rwa [OrderedDict.get?_moveToEnd] at he
      · refine ⟨by simp, rfl, ?_⟩
        intro k e he
        rw [OrderedDict.get?_erase] at he
        split at he
        · cases he
        · exact he

/-- **A store.**  An entry that was not there is the one stored, and then the captured
epoch is still the namespace's. -/
theorem set_spec (w : KeyText F T A) (c : RecallCache N F R) (n : N) (epoch : ℕ)
    (i : RecallInputs F T A) (now : ℤ) (result : R) :
    (c.set w n epoch i now result).epochs = c.epochs ∧
    ∀ k e, (c.set w n epoch i now result).store.get? k = some e →
      c.store.get? k = some e ∨
        (c.epochs.get n = epoch ∧ k = digest w n epoch i ∧ e = (now, result)) := by
  rw [set]
  split
  · exact ⟨rfl, fun _ _ h => Or.inl h⟩
  · split
    · exact ⟨rfl, fun _ _ h => Or.inl h⟩
    · rename_i hepoch
      refine ⟨rfl, ?_⟩
      intro k e he
      have hget := OrderedDict.get?_of_popTo he
      rw [OrderedDict.get?_setLast] at hget
      split at hget
      · rename_i hk
        cases hget
        exact Or.inr ⟨by simpa using hepoch, hk, rfl⟩
      · exact Or.inl hget

end RecallCache

/-! ## Recalls and writes, interleaved -/

/-- A result together with the time its computation started. -/
structure Computed (R : Type) where
  result : R
  start : ℕ

/-- A recall between its `current_epoch` call and its end. -/
structure Flight (N F T A : Type) where
  namespaceId : N
  inputs : RecallInputs F T A
  epoch : ℕ
  /-- The last bump of the namespace that completed before `current_epoch`; 0 if none. -/
  bumpedBefore : ℕ
  /-- When the computation started, after a miss. -/
  computing : Option ℕ

/-- A `get` that returned a result. -/
structure Served (N R : Type) where
  namespaceId : N
  bumpedBefore : ℕ
  answer : Computed R

/-- One cache with the recalls in flight.  `clock` counts the steps; `bumped`, the start
times and `served` record the history and decide nothing. -/
structure RecallSystem (N F T A R : Type) where
  cache : RecallCache N F (Computed R)
  clock : ℕ
  bumped : N → ℕ
  /-- Named by the time each began. -/
  flights : OrderedDict ℕ (Flight N F T A)
  served : List (Served N R)

inductive RecallAction (N F T A R : Type) where
  /-- A recall starts: `e = current_epoch(ns)`. -/
  | begin (n : N) (inputs : RecallInputs F T A)
  /-- Its `get`, at wall time `now`. -/
  | lookup (id : ℕ) (now : ℤ)
  /-- Its computation is done: `set`. -/
  | store (id : ℕ) (now : ℤ) (result : R)
  /-- Its computation raised. -/
  | fail (id : ℕ)
  | bump (n : N)
  | bumpAll
  | clear

namespace RecallSystem

def init (maxSize ttl : ℤ) : RecallSystem N F T A R where
  cache := .init maxSize ttl
  clock := 1
  bumped := fun _ => 0
  flights := .empty
  served := []

variable [DecidableEq N] [DecidableEq F] (w : KeyText F T A)

/-- `get` of the recall `id`: a hit ends the recall, a miss starts its computation. -/
def lookup (s : RecallSystem N F T A R) (id : ℕ) (f : Flight N F T A) (now : ℤ) :
    RecallSystem N F T A R :=
  match s.cache.get w f.namespaceId f.epoch f.inputs now with
  | (some answer, cache) =>
      { s with
        cache := cache
        flights := s.flights.erase id
        served := ⟨f.namespaceId, f.bumpedBefore, answer⟩ :: s.served }
  | (none, cache) =>
      { s with
        cache := cache
        flights := s.flights.set id { f with computing := some s.clock } }

/-- What an action does, before the clock moves on. -/
def act (s : RecallSystem N F T A R) : RecallAction N F T A R → RecallSystem N F T A R
  | .begin n inputs =>
      let (epoch, cache) := s.cache.currentEpoch n
      { s with
        cache := cache
        flights := s.flights.set s.clock ⟨n, inputs, epoch, s.bumped n, none⟩ }
  | .lookup id now =>
      match s.flights.get? id with
      | some f => if f.computing.isNone then s.lookup w id f now else s
      | none => s
  | .store id now result =>
      match s.flights.get? id with
      | some f =>
          match f.computing with
          | some start =>
              { s with
                cache := s.cache.set w f.namespaceId f.epoch f.inputs now ⟨result, start⟩
                flights := s.flights.erase id }
          | none => s
      | none => s
  | .fail id => { s with flights := s.flights.erase id }
  | .bump n =>
      { s with
        cache := (s.cache.bumpEpoch n).2
        bumped := fun m => if m = n then s.clock else s.bumped m }
  | .bumpAll => { s with cache := s.cache.bumpAllEpochs, bumped := fun _ => s.clock }
  | .clear => { s with cache := s.cache.clear }

def step (s : RecallSystem N F T A R) (a : RecallAction N F T A R) : RecallSystem N F T A R :=
  { s.act w a with clock := s.clock + 1 }

/-- Nothing depends on the counter of `n`: no entry is stored for it, and a recall in
flight for it has captured epoch 0 and not begun to compute. -/
def Idle (s : RecallSystem N F T A R) (n : N) : Prop :=
  (∀ e ∈ s.cache.store.items, e.1.namespaceId ≠ n) ∧
  ∀ f ∈ s.flights.items, f.2.namespaceId = n → f.2.epoch = 0 ∧ f.2.computing = none

/-- The condition on a step: a bump evicts only counters nothing depends on, and all
epochs are bumped only while no recall computes for a namespace without counter. -/
def Keeps (s : RecallSystem N F T A R) : RecallAction N F T A R → Prop
  | .bump n => ∀ m, s.cache.epochs.Evicts n m → s.Idle m
  | .bumpAll => ∀ f ∈ s.flights.items,
      f.2.computing.isSome → f.2.namespaceId ∈ s.cache.epochs.counters.keys
  | _ => True

/-! ### The invariant -/

/-- An entry is not above its namespace's epoch, and one at the epoch was computed after
the last bump. -/
def EntryFresh (s : RecallSystem N F T A R) (n : N) (epoch start : ℕ) : Prop :=
  epoch ≤ s.cache.epochs.get n ∧ (epoch = s.cache.epochs.get n → s.bumped n < start)

/-- A recall's epoch is not above its namespace's, and while it is the same, what it
computes started after the last bump. -/
structure FlightFresh (s : RecallSystem N F T A R) (f : Flight N F T A) : Prop where
  epoch_le : f.epoch ≤ s.cache.epochs.get f.namespaceId
  bumpedBefore_le : f.bumpedBefore ≤ s.bumped f.namespaceId
  computing : ∀ t, f.computing = some t →
    f.epoch = s.cache.epochs.get f.namespaceId → s.bumped f.namespaceId < t
  /-- Whatever its `get` may find is fresh enough. -/
  entries : ∀ k e, s.cache.store.get? k = some e → k.namespaceId = f.namespaceId →
    k.epoch = f.epoch → f.bumpedBefore < e.2.start

/-- No stale result can be stored or served. -/
structure Fresh (s : RecallSystem N F T A R) : Prop where
  bumped_lt : ∀ n, s.bumped n < s.clock
  entries : ∀ k e, s.cache.store.get? k = some e → s.EntryFresh k.namespaceId k.epoch e.2.start
  flights : ∀ id f, s.flights.get? id = some f → s.FlightFresh f
  served : ∀ h ∈ s.served, h.bumpedBefore < h.answer.start

theorem fresh_init (maxSize ttl : ℤ) : (init maxSize ttl : RecallSystem N F T A R).Fresh where
  bumped_lt := fun _ => Nat.zero_lt_one
  entries := by
    intro k e he
    cases he
  flights := by
    intro id f hf
    cases hf
  served := by
    intro h hh
    cases hh

section Frame

variable {s s' : RecallSystem N F T A R}

/-- A recall stays fresh when no epoch and no bump changes and no entry is added. -/
theorem FlightFresh.frame {f : Flight N F T A} (h : s.FlightFresh f)
    (hget : ∀ n, s'.cache.epochs.get n = s.cache.epochs.get n) (hbumped : s'.bumped = s.bumped)
    (hstore : ∀ k e, s'.cache.store.get? k = some e → s.cache.store.get? k = some e) :
    s'.FlightFresh f where
  epoch_le := by
    rw [hget]
    exact h.epoch_le
  bumpedBefore_le := by
    rw [hbumped]
    exact h.bumpedBefore_le
  computing := by
    rw [hget, hbumped]
    exact h.computing
  entries := fun k e he => h.entries k e (hstore k e he)

/-- The steps that change no epoch, bump nothing and add no entry. -/
theorem Fresh.frame (h : s.Fresh)
    (hget : ∀ n, s'.cache.epochs.get n = s.cache.epochs.get n) (hbumped : s'.bumped = s.bumped)
    (hstore : ∀ k e, s'.cache.store.get? k = some e → s.cache.store.get? k = some e)
    (hclock : s.clock ≤ s'.clock)
    (hflights : ∀ id f, s'.flights.get? id = some f → s.FlightFresh f)
    (hserved : ∀ a ∈ s'.served, a.bumpedBefore < a.answer.start) : s'.Fresh where
  bumped_lt := by
    intro n
    rw [hbumped]
    exact Nat.lt_of_lt_of_le (h.bumped_lt n) hclock
  entries := by
    intro k e he
    rw [EntryFresh, hget, hbumped]
    exact h.entries k e (hstore k e he)
  flights := fun id f hf => (hflights id f hf).frame hget hbumped hstore
  served := hserved

theorem Fresh.flights_erase (h : s.Fresh) (id : ℕ) {id' : ℕ} {f : Flight N F T A}
    (hf : (s.flights.erase id).get? id' = some f) : s.FlightFresh f := by
  rw [OrderedDict.get?_erase] at hf
  split at hf
  · cases hf
  · exact h.flights id' f hf

theorem Fresh.flights_set (h : s.Fresh) {id : ℕ} {g : Flight N F T A} (hg : s.FlightFresh g)
    {id' : ℕ} {f : Flight N F T A} (hf : (s.flights.set id g).get? id' = some f) :
    s.FlightFresh f := by
  rw [OrderedDict.get?_set] at hf
  split at hf
  · cases hf
    exact hg
  · exact h.flights id' f hf

end Frame

section Steps

variable {w} {s : RecallSystem N F T A R}

theorem fresh_begin (h : s.Fresh) (n : N) (inputs : RecallInputs F T A) :
    (s.step w (.begin n inputs)).Fresh := by
  apply h.frame
  · exact fun m => Epochs.get_currentEpoch _ n m
  · rfl
  · exact fun _ _ he => he
  · exact Nat.le_succ _
  · intro id f hf
    refine h.flights_set ?_ hf
    exact
      { epoch_le := Nat.le_refl _
        bumpedBefore_le := Nat.le_refl _
        computing := by
          intro t ht
          cases ht
        entries := by
          intro k e he hn hepoch
          have hk := (h.entries k e he).2
          rw [hn] at hk
          exact hk hepoch }
  · exact h.served

theorem fresh_lookup (h : s.Fresh) {id : ℕ} {f : Flight N F T A}
    (hf : s.flights.get? id = some f) (now : ℤ) :
    ({ s.lookup w id f now with clock := s.clock + 1 } : RecallSystem N F T A R).Fresh := by
  obtain ⟨hhit, hepochs, hstore⟩ :=
    RecallCache.get_spec w s.cache f.namespaceId f.epoch f.inputs now
  have hfresh := h.flights id f hf
  rw [lookup]
  split
  · rename_i answer cache hget
    rw [hget] at hhit hepochs hstore
    apply h.frame
    · exact fun m => congrArg (Epochs.get · m) hepochs
    · rfl
    · exact hstore
    · exact Nat.le_succ _
    · exact fun id' g hg => h.flights_erase id hg
    · intro a ha
      rcases List.mem_cons.mp ha with rfl | ha
      · obtain ⟨t, ht⟩ := hhit answer rfl
        exact hfresh.entries _ _ ht rfl rfl
      · exact h.served a ha
  · rename_i cache hget
    rw [hget] at hepochs hstore
    apply h.frame
    · exact fun m => congrArg (Epochs.get · m) hepochs
    · rfl
    · exact hstore
    · exact Nat.le_succ _
    · intro id' g hg
      refine h.flights_set ?_ hg
      -- A computation that starts now starts after every bump so far.
      exact
        { epoch_le := hfresh.epoch_le
          bumpedBefore_le := hfresh.bumpedBefore_le
          computing := by
            intro t ht _
            cases ht
            exact h.bumped_lt _
          entries := hfresh.entries }
    · exact h.served

theorem fresh_store (h : s.Fresh) {id : ℕ} {f : Flight N F T A} {start : ℕ}
    (hf : s.flights.get? id = some f) (hstart : f.computing = some start) (now : ℤ) (result : R) :
    ({ s with
        cache := s.cache.set w f.namespaceId f.epoch f.inputs now ⟨result, start⟩
        flights := s.flights.erase id
        clock := s.clock + 1 } : RecallSystem N F T A R).Fresh := by
  obtain ⟨hepochs, hstore⟩ :=
    RecallCache.set_spec w s.cache f.namespaceId f.epoch f.inputs now ⟨result, start⟩
  have hfresh := h.flights id f hf
  exact
    { bumped_lt := fun n => Nat.lt_succ_of_lt (h.bumped_lt n)
      entries := by
        intro k e he
        rw [EntryFresh]
        dsimp only
        rw [hepochs]
        rcases hstore k e he with he | ⟨hepoch, rfl, rfl⟩
        · exact h.entries k e he
        · refine ⟨hfresh.epoch_le, ?_⟩
          intro hcur
          exact hfresh.computing start hstart hcur
      flights := by
        intro id' g hg
        have hgfresh := h.flights_erase id hg
        refine ⟨?_, hgfresh.bumpedBefore_le, ?_, ?_⟩
        · dsimp only
          rw [hepochs]
          exact hgfresh.epoch_le
        · dsimp only
          rw [hepochs]
          exact hgfresh.computing
        · intro k e he hn hepoch
          rcases hstore k e he with he | ⟨hcur, rfl, rfl⟩
          · exact hgfresh.entries k e he hn hepoch
          · -- The entry started after the last bump, which is no earlier than `g` knows.
            have hlt := hfresh.computing start hstart hcur.symm
            have hn' : f.namespaceId = g.namespaceId := hn
            have hle := hgfresh.bumpedBefore_le
            rw [← hn'] at hle
            exact Nat.lt_of_le_of_lt hle hlt
      served := h.served }

theorem bumped_bump (n m : N) :
    (s.step w (.bump n)).bumped m = if m = n then s.clock else s.bumped m := rfl

theorem fresh_bump (h : s.Fresh) {n : N} (hk : s.Keeps (.bump n)) :
    (s.step w (.bump n)).Fresh where
  bumped_lt := by
    intro m
    show (if m = n then s.clock else s.bumped m) < s.clock + 1
    split
    · exact Nat.lt_succ_self _
    · exact Nat.lt_succ_of_lt (h.bumped_lt m)
  entries := by
    intro k e he
    obtain ⟨hle, hfresh⟩ := h.entries k e he
    show k.epoch ≤ (s.cache.epochs.bumpEpoch n).2.get k.namespaceId ∧
      (k.epoch = (s.cache.epochs.bumpEpoch n).2.get k.namespaceId →
        (s.step w (.bump n)).bumped k.namespaceId < e.2.start)
    rcases s.cache.epochs.get_bumpEpoch n k.namespaceId with
      ⟨_, hget⟩ | ⟨hm, hget⟩ | ⟨_, hev, hget⟩
    · rw [hget]
      omega
    · rw [hget, bumped_bump, if_neg hm]
      exact ⟨hle, hfresh⟩
    · exact absurd rfl ((hk _ hev).1 _ (OrderedDict.get?_eq_some_iff.mp he))
  flights := by
    intro id f hf
    have hold := h.flights id f hf
    have hbumped : s.bumped f.namespaceId ≤ (s.step w (.bump n)).bumped f.namespaceId := by
      rw [bumped_bump]
      split
      · exact Nat.le_of_lt (h.bumped_lt _)
      · exact Nat.le_refl _
    have hepochs : (s.step w (.bump n)).cache.epochs = (s.cache.epochs.bumpEpoch n).2 := rfl
    rcases s.cache.epochs.get_bumpEpoch n f.namespaceId with
      ⟨_, hget⟩ | ⟨hm, hget⟩ | ⟨_, hev, hget⟩
    · refine ⟨?_, Nat.le_trans hold.bumpedBefore_le hbumped, ?_, hold.entries⟩
      · rw [hepochs, hget]
        exact Nat.le_succ_of_le hold.epoch_le
      · intro t _ hepoch
        rw [hepochs, hget] at hepoch
        exact absurd hold.epoch_le (by omega)
    · refine ⟨?_, Nat.le_trans hold.bumpedBefore_le hbumped, ?_, hold.entries⟩
      · rw [hepochs, hget]
        exact hold.epoch_le
      · rw [hepochs, hget, bumped_bump, if_neg hm]
        exact hold.computing
    · -- The counter is gone; nothing was stored or being computed under it.
      obtain ⟨hzero, hnone⟩ := (hk _ hev).2 _ (OrderedDict.get?_eq_some_iff.mp hf) rfl
      refine ⟨?_, Nat.le_trans hold.bumpedBefore_le hbumped, ?_, hold.entries⟩
      · rw [hepochs, hget]
        exact Nat.le_of_eq hzero
      · intro t ht
        rw [hnone] at ht
        cases ht
  served := h.served

theorem fresh_bumpAll (h : s.Fresh) (hk : s.Keeps .bumpAll) : (s.step w .bumpAll).Fresh where
  bumped_lt := fun _ => Nat.lt_succ_self _
  entries := by
    intro k e he
    cases he
  flights := by
    intro id f hf
    have hold := h.flights id f hf
    have hle : f.bumpedBefore ≤ s.clock :=
      Nat.le_trans hold.bumpedBefore_le (Nat.le_of_lt (h.bumped_lt _))
    have hepochs : (s.step w .bumpAll).cache.epochs = s.cache.epochs.bumpAllEpochs := rfl
    have hentries : ∀ k e, (s.step w .bumpAll).cache.store.get? k = some e → False := by
      intro k e he
      cases he
    rcases s.cache.epochs.get_bumpAllEpochs f.namespaceId with ⟨hn, hget⟩ | ⟨hn, hget⟩
    · refine ⟨?_, hle, ?_, fun k e he => (hentries k e he).elim⟩
      · rw [hepochs, hget]
        exact Nat.le_succ_of_le hold.epoch_le
      · intro t _ hepoch
        rw [hepochs, hget] at hepoch
        exact absurd hold.epoch_le (by omega)
    · refine ⟨?_, hle, ?_, fun k e he => (hentries k e he).elim⟩
      · rw [hepochs, hget, ← Epochs.get_eq_zero hn]
        exact hold.epoch_le
      · -- Without a counter the epoch stays: the recall must not be computing.
        intro t ht
        exact absurd (hk _ (OrderedDict.get?_eq_some_iff.mp hf) (by rw [ht]; rfl)) hn
  served := h.served

/-- **One step.**  A step that keeps the condition keeps the invariant. -/
theorem fresh_step (s : RecallSystem N F T A R) (a : RecallAction N F T A R) (h : s.Fresh)
    (hk : s.Keeps a) : (s.step w a).Fresh := by
  have hstay : ({ s with clock := s.clock + 1 } : RecallSystem N F T A R).Fresh :=
    h.frame (fun _ => rfl) rfl (fun _ _ he => he) (Nat.le_succ _) h.flights h.served
  cases a with
  | begin n inputs => exact fresh_begin h n inputs
  | lookup id now =>
      rw [step, act]
      split
      · rename_i f hf
        split
        · exact fresh_lookup h hf now
        · exact hstay
      · exact hstay
  | store id now result =>
      rw [step, act]
      split
      · rename_i f hf
        split
        · rename_i start hstart
          exact fresh_store h hf hstart now result
        · exact hstay
      · exact hstay
  | fail id =>
      exact h.frame (fun _ => rfl) rfl (fun _ _ he => he) (Nat.le_succ _)
        (fun id' f hf => h.flights_erase id hf) h.served
  | bump n => exact fresh_bump h hk
  | bumpAll => exact fresh_bumpAll h hk
  | clear =>
      refine h.frame (fun _ => rfl) rfl ?_ (Nat.le_succ _) h.flights h.served
      intro k e he
      cases he

end Steps

end RecallSystem

/-- **A hit is fresh.**  In every interleaving of recalls and writes whose steps keep the
condition, each result served was computed after the last bump of its namespace that
completed before the recall captured its epoch. -/
theorem recall_fresh [DecidableEq N] [DecidableEq F] (w : KeyText F T A) (maxSize ttl : ℤ)
    (acts : List (RecallAction N F T A R))
    (h : Runs.Guarded (RecallSystem.step w) RecallSystem.Keeps (.init maxSize ttl) acts) :
    ∀ a ∈ (Runs.run (RecallSystem.step w) (.init maxSize ttl) acts).served,
      a.bumpedBefore < a.answer.start := by
  have hfresh : (Runs.run (RecallSystem.step w) (.init maxSize ttl) acts).Fresh :=
    Runs.run_invariant RecallSystem.fresh_step (RecallSystem.fresh_init maxSize ttl) h
  exact hfresh.served

/-! ### A run that is kept, and one that is not -/

/-- A recall that fixes every input but the query. -/
def plainRecall (query : String) : RecallInputs ℕ Empty Empty where
  query := query
  mode := "hybrid"
  limit := 10
  minSimilarity := 0
  graphDepth := none
  hybridAlpha := none
  recencyBias := none
  temporalFilter := none
  filterAst := none
  configFingerprint := ""

def plainText : KeyText ℕ Empty Empty where
  normalize := id
  round6 := id
  temporalText := fun t => t.elim
  canonicalHash := fun t => t.elim

/-- A write, then two recalls of one query, one after the other. -/
def repeatedRecall : List (RecallAction ℕ ℕ Empty Empty String) :=
  [.bump 7, .begin 7 (plainRecall "q"), .lookup 2 0, .store 2 1 "answer",
    .begin 7 (plainRecall "q"), .lookup 5 2]

theorem recall_fresh_repeatedRecall :
    Runs.Guarded (RecallSystem.step plainText) RecallSystem.Keeps (.init 1000 300) repeatedRecall ∧
    ((Runs.run (RecallSystem.step plainText) (.init 1000 300) repeatedRecall).served.map
      fun a => (a.bumpedBefore, a.answer.start)) = [(1, 3)] ∧
    ∀ a ∈ (Runs.run (RecallSystem.step plainText) (.init 1000 300) repeatedRecall).served,
      a.bumpedBefore < a.answer.start := by
  have hguard : Runs.Guarded (RecallSystem.step plainText) RecallSystem.Keeps (.init 1000 300)
      repeatedRecall := by
    refine ⟨?_, trivial, trivial, trivial, trivial, trivial, trivial⟩
    intro m hm
    cases hm.2
  exact ⟨hguard, by decide, recall_fresh plainText 1000 300 repeatedRecall hguard⟩

/-- A broad mutation while a recall computes for a namespace never written before: the
namespace has no counter, so its result is stored and served afterwards. -/
def uncountedRecall : List (RecallAction ℕ ℕ Empty Empty String) :=
  [.begin 7 (plainRecall "q"), .lookup 1 0, .bumpAll, .store 1 1 "answer",
    .begin 7 (plainRecall "q"), .lookup 5 2]

theorem uncountedRecall_stale :
    ¬ ∀ a ∈ (Runs.run (RecallSystem.step plainText) (.init 1000 300) uncountedRecall).served,
      a.bumpedBefore < a.answer.start := by
  decide

end Khora
