import Khora.Engine.RecallCache

/-!
# The PPR graph-slice cache

The base graph slice of a namespace (its entities and relationships) does not depend
on the query, so PPR recalls share it through a module-global LRU cache of eight
slices.  The key is the namespace with its write epoch, but the epochs belong to one
engine and start at 0, while the cache is shared by every engine of the process.

`SliceSystem` interleaves engines that connect and disconnect, their writes, and the
steps of their PPR recalls.  A read is known by the database it read and by the
number of commits to the namespace that it saw.

* `slice_fresh` — in every run in which a lookup finds only slices loaded under the
  same connection, and no engine evicts a counter still in use, the slice a recall
  uses comes from its engine's database and has every write it must have.
* `reopenedSlice_stale` — a second engine on one database is served the slice that
  the first one loaded before its write.
-/

namespace Khora

variable {N D : Type}

/-! ## The cache -/

/-- A base graph slice: what `list_entities` and `list_relationships` returned. -/
structure Slice (D : Type) where
  db : D
  /-- The commits to the namespace that `list_entities` saw. -/
  entities : ℕ
  /-- The commits to the namespace that `list_relationships` saw. -/
  relationships : ℕ
  /-- The connection of the engine that loaded it. -/
  session : ℕ

/-- `_graph_slice_cache`, keyed by namespace and write epoch. -/
abbrev SliceCache (N D : Type) := OrderedDict (N × ℕ) (Slice D)

/-- `_GRAPH_SLICE_CACHE_MAX` -/
def graphSliceCacheMax : ℕ := 8

section Cache

variable [DecidableEq N]

/-- `_graph_slice_cache_get` -/
def graphSliceCacheGet (c : SliceCache N D) (key : N × ℕ) : Option (Slice D) × SliceCache N D :=
  match c.get? key with
  | some hit => (some hit, c.moveToEnd key)
  | none => (none, c)

/-- `_graph_slice_cache_put` -/
def graphSliceCachePut (c : SliceCache N D) (key : N × ℕ) (value : Slice D) : SliceCache N D :=
  (c.setLast key value).popTo graphSliceCacheMax

theorem graphSliceCacheGet_fst (c : SliceCache N D) (key : N × ℕ) :
    (graphSliceCacheGet c key).1 = c.get? key := by
  rw [graphSliceCacheGet]
  split <;> simp_all

theorem get?_graphSliceCacheGet (c : SliceCache N D) (key k : N × ℕ) :
    (graphSliceCacheGet c key).2.get? k = c.get? k := by
  rw [graphSliceCacheGet]
  split <;> simp

theorem get?_graphSliceCachePut {c : SliceCache N D} {key k : N × ℕ} {value v : Slice D}
    (h : (graphSliceCachePut c key value).get? k = some v) :
    (k = key ∧ v = value) ∨ c.get? k = some v := by
  have hget := OrderedDict.get?_of_popTo h
  rw [OrderedDict.get?_setLast] at hget
  split at hget
  · rename_i hk
    cases hget
    exact Or.inl ⟨hk, rfl⟩
  · exact Or.inr hget

end Cache

/-! ## Engines, writes and PPR recalls -/

/-- One `VectorCypherEngine` instance.  Its epochs outlive a disconnect. -/
structure EngineState (N D : Type) where
  db : D
  connected : Bool
  epochs : Epochs N
  /-- When it last connected. -/
  session : ℕ
  /-- The commits to each namespace of its database when it connected. -/
  opened : N → ℕ
  /-- Its own last commit to each namespace, by number. -/
  committed : N → ℕ
  /-- Its own last commit that a bump has followed. -/
  bumped : N → ℕ

/-- The commits a recall that captures its epoch now must see: those before the engine
connected, and its own that it has bumped for. -/
def EngineState.need (e : EngineState N D) (n : N) : ℕ := max (e.opened n) (e.bumped n)

/-- How far a PPR recall is: the numbers are the commits each read saw. -/
inductive Stage where
  | captured
  | missed
  | listedEntities (entities : ℕ)
  | loaded (entities relationships : ℕ)

def Stage.seen : Stage → List ℕ
  | .captured => []
  | .missed => []
  | .listedEntities entities => [entities]
  | .loaded entities relationships => [entities, relationships]

/-- A PPR recall between its `current_epoch` call and its end. -/
structure PprRecall (N D : Type) where
  db : D
  session : ℕ
  namespaceId : N
  epoch : ℕ
  need : ℕ
  stage : Stage

/-- The slice a recall went on to use. -/
structure UsedSlice (D : Type) where
  db : D
  need : ℕ
  slice : Slice D

/-- The slice is from the recall's database and has what it must see. -/
def UsedSlice.Fresh (u : UsedSlice D) : Prop :=
  u.slice.db = u.db ∧ u.need ≤ u.slice.entities ∧ u.need ≤ u.slice.relationships

/-- One process: the shared cache, every engine, the recalls in flight and the
databases, with the number of commits to each namespace. -/
structure SliceSystem (N D : Type) where
  cache : SliceCache N D
  commits : D → N → ℕ
  clock : ℕ
  engines : OrderedDict ℕ (EngineState N D)
  /-- Named by the time each began. -/
  recalls : OrderedDict ℕ (PprRecall N D)
  used : List (UsedSlice D)

inductive SliceAction (N D : Type) where
  /-- `connect`: of a new engine, or of one that was disconnected. -/
  | connect (id : ℕ) (db : D) (maxSize : ℤ)
  | disconnect (id : ℕ)
  /-- A write of the engine commits. -/
  | commit (id : ℕ) (n : N)
  /-- The `bump_epoch` after a write. -/
  | bump (id : ℕ) (n : N)
  /-- A recall starts and captures its epoch. -/
  | begin (id : ℕ) (n : N)
  | lookup (q : ℕ)
  | listEntities (q : ℕ)
  | listRelationships (q : ℕ)
  | put (q : ℕ)
  /-- The recall ends without a slice: it raised, or its answer was cached. -/
  | finish (q : ℕ)

namespace SliceSystem

/-- Databases as they are when the process starts. -/
def init : SliceSystem N D where
  cache := .empty
  commits := fun _ _ => 0
  clock := 0
  engines := .empty
  recalls := .empty
  used := []

/-- A new engine instance, connected. -/
def newEngine (s : SliceSystem N D) (db : D) (maxSize : ℤ) : EngineState N D where
  db := db
  connected := true
  epochs := (RecallCache.init maxSize 0 : RecallCache N Unit Unit).epochs
  session := s.clock
  opened := s.commits db
  committed := fun _ => 0
  bumped := fun _ => 0

variable [DecidableEq N]

section Step

variable [DecidableEq D] (isEmpty : D → N → ℕ → Bool)

/-- What an action does, before the clock moves on.  `isEmpty d n v` tells whether
`list_entities` returns nothing after `v` commits: such a recall ends at once. -/
def act (s : SliceSystem N D) : SliceAction N D → SliceSystem N D
  | .connect id db maxSize =>
      match s.engines.get? id with
      | none => { s with engines := s.engines.set id (s.newEngine db maxSize) }
      | some e =>
          if e.connected then s
          else { s with engines := s.engines.set id
                          { e with connected := true, session := s.clock, opened := s.commits e.db } }
  | .disconnect id =>
      match s.engines.get? id with
      | none => s
      | some e => { s with engines := s.engines.set id { e with connected := false } }
  | .commit id n =>
      match s.engines.get? id with
      | none => s
      | some e =>
          let number := s.commits e.db n + 1
          { s with
            commits := fun d m => if d = e.db ∧ m = n then number else s.commits d m
            engines := s.engines.set id
              { e with committed := fun m => if m = n then number else e.committed m } }
  | .bump id n =>
      match s.engines.get? id with
      | none => s
      | some e =>
          { s with engines := s.engines.set id
                     { e with
                       epochs := (e.epochs.bumpEpoch n).2
                       bumped := fun m => if m = n then e.committed n else e.bumped m } }
  | .begin id n =>
      match s.engines.get? id with
      | none => s
      | some e =>
          if e.connected then
            let (epoch, epochs) := e.epochs.currentEpoch n
            { s with
              engines := s.engines.set id { e with epochs := epochs }
              recalls := s.recalls.set s.clock ⟨e.db, e.session, n, epoch, e.need n, .captured⟩ }
          else s
  | .lookup q =>
      match s.recalls.get? q with
      | none => s
      | some f =>
          match f.stage, graphSliceCacheGet s.cache (f.namespaceId, f.epoch) with
          | .captured, (some hit, cache) =>
              { s with
                cache := cache
                recalls := s.recalls.erase q
                used := ⟨f.db, f.need, hit⟩ :: s.used }
          | .captured, (none, cache) =>
              { s with cache := cache, recalls := s.recalls.set q { f with stage := .missed } }
          | _, _ => s
  | .listEntities q =>
      match s.recalls.get? q with
      | none => s
      | some f =>
          match f.stage with
          | .missed =>
              let v := s.commits f.db f.namespaceId
              if isEmpty f.db f.namespaceId v then { s with recalls := s.recalls.erase q }
              else { s with recalls := s.recalls.set q { f with stage := .listedEntities v } }
          | _ => s
  | .listRelationships q =>
      match s.recalls.get? q with
      | none => s
      | some f =>
          match f.stage with
          | .listedEntities v =>
              { s with recalls := s.recalls.set q
                         { f with stage := .loaded v (s.commits f.db f.namespaceId) } }
          | _ => s
  | .put q =>
      match s.recalls.get? q with
      | none => s
      | some f =>
          match f.stage with
          | .loaded v r =>
              { s with
                cache := graphSliceCachePut s.cache (f.namespaceId, f.epoch) ⟨f.db, v, r, f.session⟩
                recalls := s.recalls.erase q
                used := ⟨f.db, f.need, ⟨f.db, v, r, f.session⟩⟩ :: s.used }
          | _ => s
  | .finish q => { s with recalls := s.recalls.erase q }

def step (s : SliceSystem N D) (a : SliceAction N D) : SliceSystem N D :=
  { s.act isEmpty a with clock := s.clock + 1 }

end Step

/-! ### Readings -/

/-- What a cached slice and a recall in flight have in common: reads of a namespace,
meant for one epoch of one connection. -/
structure Reading (N D : Type) where
  session : ℕ
  db : D
  namespaceId : N
  epoch : ℕ
  seen : List ℕ

def sliceReading (key : N × ℕ) (c : Slice D) : Reading N D :=
  ⟨c.session, c.db, key.1, key.2, [c.entities, c.relationships]⟩

def recallReading (f : PprRecall N D) : Reading N D :=
  ⟨f.session, f.db, f.namespaceId, f.epoch, f.stage.seen⟩

/-- The readings of a state: its cached slices and its recalls in flight. -/
inductive Has (s : SliceSystem N D) : Reading N D → Prop
  | slice {key : N × ℕ} {c : Slice D} (h : s.cache.get? key = some c) : Has s (sliceReading key c)
  | recall {q : ℕ} {f : PprRecall N D} (h : s.recalls.get? q = some f) : Has s (recallReading f)

/-- Nothing of the connection depends on its counter of `n`: what it read of `n` is
under epoch 0 and empty. -/
def Idle (s : SliceSystem N D) (session : ℕ) (n : N) : Prop :=
  ∀ r, s.Has r → r.session = session → r.namespaceId = n → r.epoch = 0 ∧ r.seen = []

/-- The condition on a step: a lookup finds no slice of another connection, and a bump
evicts only counters on which nothing of the connection depends. -/
def Keeps (s : SliceSystem N D) : SliceAction N D → Prop
  | .lookup q => ∀ f, s.recalls.get? q = some f →
      ∀ c, s.cache.get? (f.namespaceId, f.epoch) = some c → c.session = f.session
  | .bump id n => ∀ e, s.engines.get? id = some e →
      ∀ m, e.epochs.Evicts n m → s.Idle e.session m
  | _ => True

/-! ### The invariant -/

/-- Every read saw at least `need` commits. -/
def Covers (need : ℕ) (seen : List ℕ) : Prop := ∀ v ∈ seen, need ≤ v

/-- What was read under an engine's connection is from its database, not above its
epoch, and at the epoch has what a recall starting now must see. -/
structure EngineFresh (s : SliceSystem N D) (e : EngineState N D) : Prop where
  opened_le : ∀ n, e.opened n ≤ s.commits e.db n
  committed_le : ∀ n, e.committed n ≤ s.commits e.db n
  bumped_le : ∀ n, e.bumped n ≤ s.commits e.db n
  readings : ∀ r, s.Has r → r.session = e.session →
    r.db = e.db ∧ r.epoch ≤ e.epochs.get r.namespaceId ∧
      (r.epoch = e.epochs.get r.namespaceId → Covers (e.need r.namespaceId) r.seen)

/-- What was read under a recall's connection and epoch has what the recall must see. -/
structure RecallFresh (s : SliceSystem N D) (f : PprRecall N D) : Prop where
  need_le : f.need ≤ s.commits f.db f.namespaceId
  readings : ∀ r, s.Has r → r.session = f.session → r.namespaceId = f.namespaceId →
    r.epoch = f.epoch → r.db = f.db ∧ Covers f.need r.seen

/-- No foreign or outdated slice can be used. -/
structure Fresh (s : SliceSystem N D) : Prop where
  session_lt : ∀ id e, s.engines.get? id = some e → e.session < s.clock
  session_inj : ∀ id id' e e', s.engines.get? id = some e → s.engines.get? id' = some e' →
    e.session = e'.session → id = id'
  reading_lt : ∀ r, s.Has r → r.session < s.clock
  engines : ∀ id e, s.engines.get? id = some e → s.EngineFresh e
  recalls : ∀ q f, s.recalls.get? q = some f → s.RecallFresh f
  used : ∀ u ∈ s.used, u.Fresh

theorem EngineFresh.need_le {s : SliceSystem N D} {e : EngineState N D} (h : s.EngineFresh e)
    (n : N) : e.need n ≤ s.commits e.db n :=
  Nat.max_le.mpr ⟨h.opened_le n, h.bumped_le n⟩

theorem fresh_init : (init : SliceSystem N D).Fresh := by
  have hnone : ∀ r, ¬ (init : SliceSystem N D).Has r := by
    rintro r (h | h) <;> cases h
  refine ⟨?_, ?_, fun r hr => (hnone r hr).elim, ?_, ?_, ?_⟩
  · intro id e he
    cases he
  · intro id id' e e' he
    cases he
  · intro id e he
    cases he
  · intro q f hf
    cases hf
  · intro u hu
    cases hu

section Changes

variable {s s' : SliceSystem N D}

theorem EngineFresh.frame {e : EngineState N D} (h : s.EngineFresh e)
    (hcommits : ∀ d n, s.commits d n ≤ s'.commits d n) (hhas : ∀ r, s'.Has r → s.Has r) :
    s'.EngineFresh e where
  opened_le := fun n => Nat.le_trans (h.opened_le n) (hcommits _ n)
  committed_le := fun n => Nat.le_trans (h.committed_le n) (hcommits _ n)
  bumped_le := fun n => Nat.le_trans (h.bumped_le n) (hcommits _ n)
  readings := fun r hr => h.readings r (hhas r hr)

theorem RecallFresh.frame {f : PprRecall N D} (h : s.RecallFresh f)
    (hcommits : ∀ d n, s.commits d n ≤ s'.commits d n) (hhas : ∀ r, s'.Has r → s.Has r) :
    s'.RecallFresh f where
  need_le := Nat.le_trans h.need_le (hcommits _ _)
  readings := fun r hr => h.readings r (hhas r hr)

/-- The changes that leave the engines alone, forget no commit and add no reading. -/
theorem Fresh.frame (h : s.Fresh) (hengines : s'.engines = s.engines) (hclock : s.clock ≤ s'.clock)
    (hcommits : ∀ d n, s.commits d n ≤ s'.commits d n) (hhas : ∀ r, s'.Has r → s.Has r)
    (hrecalls : ∀ q f, s'.recalls.get? q = some f → s.RecallFresh f)
    (hused : ∀ u ∈ s'.used, u.Fresh) : s'.Fresh where
  session_lt := by
    rw [hengines]
    exact fun id e he => Nat.lt_of_lt_of_le (h.session_lt id e he) hclock
  session_inj := by
    rw [hengines]
    exact h.session_inj
  reading_lt := fun r hr => Nat.lt_of_lt_of_le (h.reading_lt r (hhas r hr)) hclock
  engines := by
    rw [hengines]
    exact fun id e he => (h.engines id e he).frame hcommits hhas
  recalls := fun q f hf => (hrecalls q f hf).frame hcommits hhas
  used := hused

/-- Time passes. -/
theorem Fresh.tick (h : s.Fresh) : Fresh { s with clock := s.clock + 1 } := by
  refine h.frame rfl (Nat.le_succ _) (fun _ _ => Nat.le_refl _) ?_ h.recalls h.used
  rintro r (hr | hr)
  · exact .slice hr
  · exact .recall hr

/-- A commit. -/
theorem Fresh.grow (h : s.Fresh) {commits : D → N → ℕ} (hle : ∀ d n, s.commits d n ≤ commits d n) :
    Fresh { s with commits := commits } := by
  refine h.frame rfl (Nat.le_refl _) hle ?_ h.recalls h.used
  rintro r (hr | hr)
  · exact .slice hr
  · exact .recall hr

/-- An engine changes, or a new one appears. -/
theorem Fresh.setEngine (h : s.Fresh) {id : ℕ} {e : EngineState N D} (hlt : e.session < s.clock)
    (hinj : ∀ id' e', s.engines.get? id' = some e' → e.session = e'.session → id' = id)
    (hfresh : s.EngineFresh e) : Fresh { s with engines := s.engines.set id e } := by
  have hget : ∀ id' e', (s.engines.set id e).get? id' = some e' →
      (id' = id ∧ e' = e) ∨ s.engines.get? id' = some e' := by
    intro id' e' he'
    rw [OrderedDict.get?_set] at he'
    split at he'
    · rename_i hid
      cases he'
      exact Or.inl ⟨hid, rfl⟩
    · exact Or.inr he'
  have hhas : ∀ r, Has { s with engines := s.engines.set id e } r → s.Has r := by
    rintro r (hr | hr)
    · exact .slice hr
    · exact .recall hr
  refine ⟨?_, ?_, fun r hr => h.reading_lt r (hhas r hr), ?_, ?_, h.used⟩
  · intro id' e' he'
    rcases hget id' e' he' with ⟨_, rfl⟩ | he'
    · exact hlt
    · exact h.session_lt id' e' he'
  · intro id₁ id₂ e₁ e₂ he₁ he₂ heq
    rcases hget id₁ e₁ he₁ with ⟨rfl, rfl⟩ | hold₁ <;>
      rcases hget id₂ e₂ he₂ with ⟨rfl, rfl⟩ | hold₂
    · rfl
    · exact (hinj id₂ e₂ hold₂ heq).symm
    · exact hinj id₁ e₁ hold₁ heq.symm
    · exact h.session_inj id₁ id₂ e₁ e₂ hold₁ hold₂ heq
  · intro id' e' he'
    rcases hget id' e' he' with ⟨_, rfl⟩ | he'
    · exact hfresh.frame (fun _ _ => Nat.le_refl _) hhas
    · exact (h.engines id' e' he').frame (fun _ _ => Nat.le_refl _) hhas
  · exact fun q f hf => (h.recalls q f hf).frame (fun _ _ => Nat.le_refl _) hhas

/-- A recall ends. -/
theorem Fresh.dropRecall (h : s.Fresh) (q : ℕ) : Fresh { s with recalls := s.recalls.erase q } := by
  have hget : ∀ q' f, (s.recalls.erase q).get? q' = some f → s.recalls.get? q' = some f := by
    intro q' f hf
    rw [OrderedDict.get?_erase] at hf
    split at hf
    · cases hf
    · exact hf
  refine h.frame rfl (Nat.le_refl _) (fun _ _ => Nat.le_refl _) ?_
    (fun q' f hf => h.recalls q' f (hget q' f hf)) h.used
  rintro r (hr | hr)
  · exact .slice hr
  · exact .recall (hget _ _ hr)

/-- The cache holds only what was read already. -/
theorem Fresh.setCache (h : s.Fresh) {cache : SliceCache N D}
    (hcache : ∀ key c, cache.get? key = some c → s.Has (sliceReading key c)) :
    Fresh { s with cache := cache } := by
  refine h.frame rfl (Nat.le_refl _) (fun _ _ => Nat.le_refl _) ?_ h.recalls h.used
  rintro r (hr | hr)
  · exact hcache _ _ hr
  · exact .recall hr

/-- A slice is used. -/
theorem Fresh.use (h : s.Fresh) {u : UsedSlice D} (hu : u.Fresh) :
    Fresh { s with used := u :: s.used } := by
  refine h.frame rfl (Nat.le_refl _) (fun _ _ => Nat.le_refl _) ?_ h.recalls ?_
  · rintro r (hr | hr)
    · exact .slice hr
    · exact .recall hr
  · intro u' hu'
    rcases List.mem_cons.mp hu' with rfl | hu'
    · exact hu
    · exact h.used u' hu'

/-- A recall starts or goes on, with a reading that every engine and every recall in
flight may find. -/
theorem Fresh.setRecall (h : s.Fresh) {q : ℕ} {f : PprRecall N D} (hlt : f.session < s.clock)
    (hfresh : s.RecallFresh f) (hself : Covers f.need f.stage.seen)
    (hengines : ∀ id e, s.engines.get? id = some e → f.session = e.session →
      f.db = e.db ∧ f.epoch ≤ e.epochs.get f.namespaceId ∧
        (f.epoch = e.epochs.get f.namespaceId → Covers (e.need f.namespaceId) f.stage.seen))
    (hrecalls : ∀ q' g, s.recalls.get? q' = some g → f.session = g.session →
      f.namespaceId = g.namespaceId → f.epoch = g.epoch →
        f.db = g.db ∧ Covers g.need f.stage.seen) :
    Fresh { s with recalls := s.recalls.set q f } := by
  have hhas : ∀ r, Has { s with recalls := s.recalls.set q f } r → s.Has r ∨ r = recallReading f := by
    rintro r (hr | hr)
    · exact Or.inl (.slice hr)
    · rename_i q' g
      have hg := hr
      rw [OrderedDict.get?_set] at hg
      split at hg
      · cases hg
        exact Or.inr rfl
      · exact Or.inl (.recall hg)
  refine ⟨h.session_lt, h.session_inj, ?_, ?_, ?_, h.used⟩
  · intro r hr
    rcases hhas r hr with hr | rfl
    · exact h.reading_lt r hr
    · exact hlt
  · intro id e he
    have hold := h.engines id e he
    refine ⟨hold.opened_le, hold.committed_le, hold.bumped_le, ?_⟩
    intro r hr
    rcases hhas r hr with hr | rfl
    · exact hold.readings r hr
    · exact hengines id e he
  · intro q' g hg
    rw [OrderedDict.get?_set] at hg
    split at hg
    · cases hg
      refine ⟨hfresh.need_le, ?_⟩
      intro r hr
      rcases hhas r hr with hr | rfl
      · exact hfresh.readings r hr
      · exact fun _ _ _ => ⟨rfl, hself⟩
    · have hold := h.recalls q' g hg
      refine ⟨hold.need_le, ?_⟩
      intro r hr
      rcases hhas r hr with hr | rfl
      · exact hold.readings r hr
      · exact hrecalls q' g hg

/-- A recall reads on: what it sees now has every commit. -/
theorem Fresh.restage (h : s.Fresh) {q : ℕ} {f : PprRecall N D} (hf : s.recalls.get? q = some f)
    {stage : Stage}
    (hstage : ∀ v ∈ stage.seen, v ∈ f.stage.seen ∨ v = s.commits f.db f.namespaceId) :
    Fresh { s with recalls := s.recalls.set q { f with stage := stage } } := by
  have hfresh := h.recalls q f hf
  have hhas : s.Has (recallReading f) := .recall hf
  have hcovers : ∀ need, Covers need f.stage.seen → need ≤ s.commits f.db f.namespaceId →
      Covers need stage.seen := by
    intro need hseen hle v hv
    rcases hstage v hv with hv | rfl
    · exact hseen v hv
    · exact hle
  apply h.setRecall
  · exact h.reading_lt _ hhas
  · exact ⟨hfresh.need_le, hfresh.readings⟩
  · exact hcovers _ (hfresh.readings _ hhas rfl rfl rfl).2 hfresh.need_le
  · intro id e he hsession
    have hengine := h.engines id e he
    obtain ⟨hdb, hle, hcur⟩ := hengine.readings _ hhas hsession
    refine ⟨hdb, hle, ?_⟩
    intro hepoch
    apply hcovers _ (hcur hepoch)
    have hneed := hengine.need_le f.namespaceId
    rwa [← show f.db = e.db from hdb] at hneed
  · intro q' g hg hsession hn hepoch
    have hrecall := h.recalls q' g hg
    obtain ⟨hdb, hseen⟩ := hrecall.readings _ hhas hsession hn hepoch
    refine ⟨hdb, hcovers _ hseen ?_⟩
    have hneed := hrecall.need_le
    rwa [← show f.db = g.db from hdb, ← show f.namespaceId = g.namespaceId from hn] at hneed

/-- A connection that starts now has read nothing yet. -/
theorem Fresh.not_has_clock (h : s.Fresh) {r : Reading N D} (hr : s.Has r) : r.session ≠ s.clock :=
  Nat.ne_of_lt (h.reading_lt r hr)

theorem tick_has {r : Reading N D} (hr : Has { s with clock := s.clock + 1 } r) : s.Has r := by
  rcases hr with hr | hr
  · exact .slice hr
  · exact .recall hr

/-- An engine changes within its connection. -/
theorem Fresh.updateEngine (h : s.Fresh) {id : ℕ} {e e' : EngineState N D}
    (he : s.engines.get? id = some e) (hsession : e'.session = e.session)
    (hfresh : s.EngineFresh e') : Fresh { s with engines := s.engines.set id e' } := by
  apply h.setEngine
  · rw [hsession]
    exact h.session_lt id e he
  · intro id' e'' he'' heq
    rw [hsession] at heq
    exact (h.session_inj id id' e e'' he he'' heq).symm
  · exact hfresh

/-- A recall captures its epoch: everything read at that epoch has what it must see. -/
theorem Fresh.startRecall (h : s.Fresh) {id : ℕ} {e : EngineState N D}
    (he : s.engines.get? id = some e) (q : ℕ) (n : N) :
    Fresh { s with
      recalls := s.recalls.set q ⟨e.db, e.session, n, e.epochs.get n, e.need n, .captured⟩ } := by
  have hengine := h.engines id e he
  apply h.setRecall
  · exact h.session_lt id e he
  · refine ⟨hengine.need_le n, ?_⟩
    intro r hr hsession hn hepoch
    obtain ⟨hdb, _, hcur⟩ := hengine.readings r hr hsession
    rw [hn] at hcur
    exact ⟨hdb, hcur hepoch⟩
  · exact fun v hv => absurd hv List.not_mem_nil
  · intro id' e' he' hsession
    obtain rfl := h.session_inj id id' e e' he he' hsession
    rw [he] at he'
    cases he'
    exact ⟨rfl, Nat.le_refl _, fun _ v hv => absurd hv List.not_mem_nil⟩
  · intro q' g hg hsession _ _
    have hdb := ((hengine.readings _ (.recall hg)) hsession.symm).1
    exact ⟨hdb.symm, fun v hv => absurd hv List.not_mem_nil⟩

theorem EngineFresh.touch {e : EngineState N D} (h : s.EngineFresh e) (n : N) :
    s.EngineFresh { e with epochs := (e.epochs.currentEpoch n).2 } where
  opened_le := h.opened_le
  committed_le := h.committed_le
  bumped_le := h.bumped_le
  readings := by
    intro r hr hsession
    rw [Epochs.get_currentEpoch]
    exact h.readings r hr hsession

end Changes

section Steps

variable [DecidableEq D] {isEmpty : D → N → ℕ → Bool} {s : SliceSystem N D}

attribute [local simp] step act

theorem fresh_connect (h : s.Fresh) (id : ℕ) (db : D) (maxSize : ℤ) :
    (s.step isEmpty (.connect id db maxSize)).Fresh := by
  have hinj : ∀ id' e', s.engines.get? id' = some e' → s.clock = e'.session → id' = id := by
    intro id' e' he' heq
    exact absurd heq.symm (Nat.ne_of_lt (h.session_lt id' e' he'))
  rw [step, act]
  split
  · exact h.tick.setEngine (Nat.lt_succ_self _) hinj
      { opened_le := fun _ => Nat.le_refl _
        committed_le := fun _ => Nat.zero_le _
        bumped_le := fun _ => Nat.zero_le _
        readings := fun r hr hsession => absurd hsession (h.not_has_clock (tick_has hr)) }
  · rename_i e he
    have hold := h.engines id e he
    split
    · exact h.tick
    · exact h.tick.setEngine (Nat.lt_succ_self _) hinj
        { opened_le := fun _ => Nat.le_refl _
          committed_le := hold.committed_le
          bumped_le := hold.bumped_le
          readings := fun r hr hsession => absurd hsession (h.not_has_clock (tick_has hr)) }

theorem fresh_commit (h : s.Fresh) (id : ℕ) (n : N) : (s.step isEmpty (.commit id n)).Fresh := by
  rw [step, act]
  split
  · exact h.tick
  · rename_i e he
    have hgrow : ∀ d m, s.commits d m ≤
        if d = e.db ∧ m = n then s.commits e.db n + 1 else s.commits d m := by
      intro d m
      split
      · rename_i hdm
        rw [hdm.1, hdm.2]
        exact Nat.le_succ _
      · exact Nat.le_refl _
    have hnext := h.tick.grow hgrow
    have hold := hnext.engines id e he
    refine hnext.updateEngine he rfl ?_
    refine ⟨hold.opened_le, ?_, hold.bumped_le, hold.readings⟩
    intro m
    have hm := hold.committed_le m
    dsimp only at hm ⊢
    by_cases hmn : m = n
    · apply Nat.le_of_eq
      rw [if_pos hmn, if_pos ⟨rfl, hmn⟩]
    · rw [if_neg hmn]
      exact hm

theorem fresh_bump (h : s.Fresh) (id : ℕ) (n : N) (hk : s.Keeps (.bump id n)) :
    (s.step isEmpty (.bump id n)).Fresh := by
  rw [step, act]
  split
  · exact h.tick
  · rename_i e he
    have hold := h.tick.engines id e he
    refine h.tick.updateEngine he rfl ?_
    refine ⟨hold.opened_le, hold.committed_le, ?_, ?_⟩
    · intro m
      dsimp only
      split
      · rename_i hmn
        rw [hmn]
        exact hold.committed_le n
      · exact hold.bumped_le m
    · intro r hr hsession
      obtain ⟨hdb, hle, hcur⟩ := hold.readings r hr hsession
      refine ⟨hdb, ?_⟩
      dsimp only
      rcases e.epochs.get_bumpEpoch n r.namespaceId with ⟨_, hget⟩ | ⟨hm, hget⟩ | ⟨_, hev, hget⟩
      · rw [hget]
        exact ⟨Nat.le_succ_of_le hle, fun hepoch => absurd hle (by omega)⟩
      · have hneed : EngineState.need
            { e with
              epochs := (e.epochs.bumpEpoch n).2
              bumped := fun m => if m = n then e.committed n else e.bumped m } r.namespaceId =
            e.need r.namespaceId := by
          simp only [EngineState.need, if_neg hm]
        rw [hget, hneed]
        exact ⟨hle, hcur⟩
      · -- The counter is evicted; nothing was read for it under this connection.
        obtain ⟨hzero, hnone⟩ := hk e he _ hev r (tick_has hr) hsession rfl
        rw [hget, hzero, hnone]
        exact ⟨Nat.le_refl _, fun _ v hv => absurd hv List.not_mem_nil⟩

theorem fresh_begin (h : s.Fresh) (id : ℕ) (n : N) : (s.step isEmpty (.begin id n)).Fresh := by
  rw [step, act]
  split
  · exact h.tick
  · rename_i e he
    split
    · have hnext := h.tick.startRecall he s.clock n
      exact hnext.updateEngine he rfl ((hnext.engines id e he).touch n)
    · exact h.tick

theorem fresh_lookup (h : s.Fresh) (q : ℕ) (hk : s.Keeps (.lookup q)) :
    (s.step isEmpty (.lookup q)).Fresh := by
  rw [step, act]
  split
  · exact h.tick
  · rename_i f hf
    have hcache : ∀ key c,
        (graphSliceCacheGet s.cache (f.namespaceId, f.epoch)).2.get? key = some c →
        Has { s with clock := s.clock + 1 } (sliceReading key c) := by
      intro key c hc
      rw [get?_graphSliceCacheGet] at hc
      exact .slice hc
    split
    · rename_i hit cache hstage hget
      rw [hget] at hcache
      have hhit : s.cache.get? (f.namespaceId, f.epoch) = some hit := by
        rw [← graphSliceCacheGet_fst, hget]
      have hsession := hk f hf hit hhit
      obtain ⟨hdb, hseen⟩ := (h.recalls q f hf).readings _ (.slice hhit) hsession rfl rfl
      have hused : UsedSlice.Fresh ⟨f.db, f.need, hit⟩ :=
        ⟨hdb, hseen _ (by simp [sliceReading]), hseen _ (by simp [sliceReading])⟩
      exact ((h.tick.setCache hcache).dropRecall q).use hused
    · rename_i cache hstage hget
      rw [hget] at hcache
      apply (h.tick.setCache hcache).restage hf
      exact fun v hv => absurd hv List.not_mem_nil
    · exact h.tick

theorem fresh_listEntities (h : s.Fresh) (q : ℕ) : (s.step isEmpty (.listEntities q)).Fresh := by
  rw [step, act]
  split
  · exact h.tick
  · rename_i f hf
    split
    · dsimp only
      split
      · exact h.tick.dropRecall q
      · apply h.tick.restage hf
        exact fun v hv => Or.inr (List.mem_singleton.mp hv)
    · exact h.tick

theorem fresh_listRelationships (h : s.Fresh) (q : ℕ) :
    (s.step isEmpty (.listRelationships q)).Fresh := by
  rw [step, act]
  split
  · exact h.tick
  · rename_i f hf
    split
    · rename_i v hstage
      apply h.tick.restage hf
      intro w hw
      rw [hstage]
      rcases List.mem_cons.mp hw with rfl | hw
      · exact Or.inl (List.mem_singleton.mpr rfl)
      · exact Or.inr (List.mem_singleton.mp hw)
    · exact h.tick

theorem fresh_put (h : s.Fresh) (q : ℕ) : (s.step isEmpty (.put q)).Fresh := by
  rw [step, act]
  split
  · exact h.tick
  · rename_i f hf
    split
    · rename_i v r hstage
      -- The slice is what the recall read, under the same key.
      have hreading : recallReading f =
          sliceReading (f.namespaceId, f.epoch) ⟨f.db, v, r, f.session⟩ := by
        simp [recallReading, sliceReading, hstage, Stage.seen]
      have hhas : s.Has (sliceReading (f.namespaceId, f.epoch) ⟨f.db, v, r, f.session⟩) := by
        rw [← hreading]
        exact .recall hf
      obtain ⟨hdb, hseen⟩ := (h.recalls q f hf).readings _ hhas rfl rfl rfl
      have hused : UsedSlice.Fresh ⟨f.db, f.need, ⟨f.db, v, r, f.session⟩⟩ :=
        ⟨hdb, hseen _ (by simp [sliceReading]), hseen _ (by simp [sliceReading])⟩
      refine ((h.tick.setCache ?_).dropRecall q).use hused
      intro key c hc
      rcases get?_graphSliceCachePut hc with ⟨rfl, rfl⟩ | hc
      · rw [← hreading]
        exact .recall hf
      · exact .slice hc
    · exact h.tick

/-- **One step.**  A step that keeps the condition keeps the invariant. -/
theorem fresh_step (s : SliceSystem N D) (a : SliceAction N D) (h : s.Fresh) (hk : s.Keeps a) :
    (s.step isEmpty a).Fresh := by
  cases a with
  | connect id db maxSize => exact fresh_connect h id db maxSize
  | disconnect id =>
      rw [step, act]
      split
      · exact h.tick
      · rename_i e he
        have hold := h.tick.engines id e he
        exact h.tick.updateEngine he rfl
          ⟨hold.opened_le, hold.committed_le, hold.bumped_le, hold.readings⟩
  | commit id n => exact fresh_commit h id n
  | bump id n => exact fresh_bump h id n hk
  | begin id n => exact fresh_begin h id n
  | lookup q => exact fresh_lookup h q hk
  | listEntities q => exact fresh_listEntities h q
  | listRelationships q => exact fresh_listRelationships h q
  | put q => exact fresh_put h q
  | finish q => exact h.tick.dropRecall q

end Steps

end SliceSystem

/-- **A slice is the engine's own and current.**  In every interleaving of engines,
writes and PPR recalls whose steps keep the condition, each slice used was read from
the recall's database and has every commit from before its engine connected and every
commit of its engine that was bumped before the recall captured its epoch. -/
theorem slice_fresh [DecidableEq N] [DecidableEq D] (isEmpty : D → N → ℕ → Bool)
    (acts : List (SliceAction N D))
    (h : Runs.Guarded (SliceSystem.step isEmpty) SliceSystem.Keeps .init acts) :
    ∀ u ∈ (Runs.run (SliceSystem.step isEmpty) .init acts).used, u.Fresh := by
  have hfresh : (Runs.run (SliceSystem.step isEmpty) .init acts).Fresh :=
    Runs.run_invariant SliceSystem.fresh_step SliceSystem.fresh_init h
  exact hfresh.used

/-! ### A run that is kept, and one that is not -/

/-- One engine: a recall loads the slice and caches it, a second one finds it. -/
def sharedSlice : List (SliceAction ℕ ℕ) :=
  [.connect 0 5 1000, .commit 0 7, .bump 0 7, .begin 0 7, .lookup 3, .listEntities 3,
    .listRelationships 3, .put 3, .begin 0 7, .lookup 8]

instance decidableUsedSliceFresh [DecidableEq D] (u : UsedSlice D) : Decidable u.Fresh :=
  inferInstanceAs (Decidable (_ ∧ _))

theorem slice_fresh_sharedSlice :
    Runs.Guarded (SliceSystem.step fun _ _ _ => false) SliceSystem.Keeps .init sharedSlice ∧
    (Runs.run (SliceSystem.step fun _ _ _ => false) .init sharedSlice).used.length = 2 ∧
    ∀ u ∈ (Runs.run (SliceSystem.step fun _ _ _ => false) .init sharedSlice).used, u.Fresh := by
  have hguard : Runs.Guarded (SliceSystem.step fun _ _ _ => false) SliceSystem.Keeps .init
      sharedSlice := by
    refine ⟨trivial, trivial, ?_, trivial, ?_, trivial, trivial, trivial, trivial, ?_, trivial⟩
    · intro e he m hm
      cases he
      cases hm.2
    · intro f hf c hc
      cases hf
      cases hc
    · intro f hf c hc
      cases hf
      cases hc
      rfl
  exact ⟨hguard, by decide, slice_fresh _ sharedSlice hguard⟩

/-- An engine caches a slice, writes and is closed; a second engine opens the same
database and starts at epoch 0 again. -/
def reopenedSlice : List (SliceAction ℕ ℕ) :=
  [.connect 0 5 1000, .begin 0 7, .lookup 1, .listEntities 1, .listRelationships 1, .put 1,
    .commit 0 7, .bump 0 7, .disconnect 0, .connect 1 5 1000, .begin 1 7, .lookup 10]

theorem reopenedSlice_stale :
    ¬ ∀ u ∈ (Runs.run (SliceSystem.step fun _ _ _ => false) .init reopenedSlice).used, u.Fresh := by
  decide

end Khora
