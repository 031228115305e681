import Khora.Extraction.EntityResolver
import Khora.Lib.OrderedDict
import Khora.Lib.Runs

/-!
# The cache of the entity resolver

The cache is filled by `resolve` under the type name of the call and by `add_to_cache` under the type
name of the entity.  Beside it, a ledger keeps what was in the store at load time and what was added.

* `sim_step` — a guarded step keeps the cache and the ledger in accord.
* `transparent_of_guarded` — in a guarded run every exact match is answered from what was loaded and
  added.
* `lowerCase_diverges` — a type name in lower case never finds what was added.
-/

namespace Khora

namespace EntityResolver

/-! ## Keys -/

/-- The text of a UUID. -/
structure Uuid where
  text : String
  length_eq : text.toList.length = 36
deriving DecidableEq

/-- `f"{namespace_id}:{entity_type}"` -/
def cacheKey (ns : Uuid) (entityType : String) : String := ns.text ++ ":" ++ entityType

theorem toList_cacheKey (ns : Uuid) (entityType : String) :
    (cacheKey ns entityType).toList = ns.text.toList ++ ":".toList ++ entityType.toList := by
  simp [cacheKey]

/-- `key.startswith(str(namespace_id))` -/
def ofNamespace (ns : Uuid) (key : String) : Bool := ns.text.toList.isPrefixOf key.toList

theorem Uuid.eq_of_toList {a b : Uuid} (h : a.text.toList = b.text.toList) : a = b := by
  cases a
  cases b
  simpa [String.toList_inj] using h

theorem cacheKey_inj {ns ns' : Uuid} {t t' : String} (h : cacheKey ns t = cacheKey ns' t') :
    ns = ns' ∧ t = t' := by
  have hlist := congrArg String.toList h
  rw [toList_cacheKey, toList_cacheKey, List.append_assoc, List.append_assoc] at hlist
  obtain ⟨hns, hrest⟩ := List.append_inj hlist (by rw [ns.length_eq, ns'.length_eq])
  exact ⟨Uuid.eq_of_toList hns, String.toList_inj.mp (List.append_cancel_left hrest)⟩

/-- The keys of a namespace are those that start with it. -/
theorem ofNamespace_cacheKey (ns ns' : Uuid) (t : String) :
    ofNamespace ns (cacheKey ns' t) = decide (ns = ns') := by
  rw [ofNamespace, toList_cacheKey, List.append_assoc, Bool.eq_iff_iff, List.isPrefixOf_iff_prefix,
    decide_eq_true_iff]
  constructor
  · intro h
    apply Uuid.eq_of_toList
    apply List.IsPrefix.eq_of_length
    · exact List.prefix_of_prefix_length_le h (List.prefix_append _ _) (by rw [ns.length_eq, ns'.length_eq])
    · rw [ns.length_eq, ns'.length_eq]
  · rintro rfl
    exact List.prefix_append _ _

/-! ## The resolver -/

variable {Id F : Type}

/-- The live entities of the store, in the order of a listing, and the cache. -/
structure State (Id : Type) where
  store : List (Uuid × Entity Id)
  cache : OrderedDict String (List (Entity Id))

/-- `list_entities`; an empty type name is no filter. -/
def listEntities (store : List (Uuid × Entity Id)) (ns : Uuid) (entityType : String) (limit : ℕ) :
    List (Entity Id) :=
  ((store.filter fun r => decide (r.1 = ns ∧ (entityType = "" ∨ r.2.entityType = entityType))).map
    Prod.snd).take limit

/-- The first part of `resolve`: a type that is not in the cache is loaded. -/
def loadType (st : State Id) (ns : Uuid) (entityType : String) : State Id :=
  match st.cache.get? (cacheKey ns entityType) with
  | some _ => st
  | none => { st with cache := st.cache.set (cacheKey ns entityType) (listEntities st.store ns entityType 1000) }

/-- The entities that `resolve` matches against. -/
def existingEntities (st : State Id) (ns : Uuid) (entityType : String) : List (Entity Id) :=
  ((loadType st ns entityType).cache.get? (cacheKey ns entityType)).getD []

def addToCache [DecidableEq Id] (st : State Id) (ns : Uuid) (e : Entity Id) : State Id :=
  match st.cache.get? (cacheKey ns e.entityType) with
  | some entities =>
      if e.id ∈ entities.map Entity.id then st
      else { st with cache := st.cache.set (cacheKey ns e.entityType) (entities ++ [e]) }
  | none => { st with cache := st.cache.set (cacheKey ns e.entityType) [e] }

def invalidateCache (st : State Id) : Option Uuid → State Id
  | none => { st with cache := .empty }
  | some ns => { st with cache := st.cache.eraseWhere (ofNamespace ns) }

/-- `entity_type.upper() or "CONCEPT"` -/
def storedType (S : Scoring F) (entityType : String) : String :=
  if S.upper entityType = "" then "CONCEPT" else S.upper entityType

/-- The entity that `resolve_and_merge_entity` returns as new; a long name is cut. -/
def newEntity (S : Scoring F) (id : Id) (q : Query Id F) : Entity Id where
  id := id
  name := if 512 < q.name.length then String.ofList (q.name.toList.take 509) ++ "..." else q.name
  entityType := storedType S q.entityType
  attributes := q.attributes
  aliases := q.aliases

/-! ## Runs -/

/-- The calls, and the writes of others to the store. -/
inductive Action (Id F : Type) where
  | write (store : List (Uuid × Entity Id))
  | resolve (ns : Uuid) (q : Query Id F)
  | add (ns : Uuid) (id : Id) (q : Query Id F)
  | invalidate (ns : Option Uuid)

/-- What was in the store at load time, by namespace and stored type, and what was added. -/
structure Ledger (Id : Type) where
  loaded : Uuid → String → Option (List (Entity Id))
  added : List (Uuid × Entity Id)

/-- The entities of a type in the store, whatever the case of their type names. -/
def ofType (S : Scoring F) (store : List (Uuid × Entity Id)) (ns : Uuid) (entityType : String) :
    List (Entity Id) :=
  (store.filter fun r => decide (r.1 = ns ∧ storedType S r.2.entityType = entityType)).map Prod.snd

/-- The first call after an invalidation loads. -/
def Ledger.load (S : Scoring F) (l : Ledger Id) (store : List (Uuid × Entity Id)) (ns : Uuid)
    (entityType : String) : Ledger Id :=
  ⟨fun ns' t =>
    if ns' = ns ∧ t = entityType ∧ l.loaded ns t = none then some (ofType S store ns entityType)
    else l.loaded ns' t, l.added⟩

def Ledger.invalidate (l : Ledger Id) (ns : Option Uuid) : Ledger Id :=
  ⟨fun ns' t => if ns = none ∨ ns = some ns' then none else l.loaded ns' t, l.added⟩

/-- The entities loaded and added contain one of the type with the name. -/
def Ledger.Contains (S : Scoring F) (l : Ledger Id) (ns : Uuid) (entityType name : String) : Prop :=
  ∃ e, (e ∈ (l.loaded ns entityType).getD [] ∨ (ns, e) ∈ l.added) ∧
    storedType S e.entityType = entityType ∧ sameName S name e = true

def step [DecidableEq Id] (S : Scoring F) (s : State Id × Ledger Id) : Action Id F → State Id × Ledger Id
  | .write store => ({ s.1 with store := store }, s.2)
  | .resolve ns q =>
      (loadType s.1 ns q.entityType, s.2.load S s.1.store ns (storedType S q.entityType))
  | .add ns id q => (addToCache s.1 ns (newEntity S id q),
      { s.2 with added := s.2.added ++ [(ns, newEntity S id q)] })
  | .invalidate ns => (invalidateCache s.1 ns, s.2.invalidate ns)

/-- Nothing is cached yet. -/
def init (store : List (Uuid × Entity Id)) : State Id × Ledger Id :=
  (⟨store, .empty⟩, ⟨fun _ _ => none, []⟩)

/-- What a call of `resolve` in this state must return. -/
structure Transparent [DecidableEq Id] [LinearOrder F] (S : Scoring F) (cfg : Config F)
    (s : State Id × Ledger Id) (ns : Uuid) (q : Query Id F) : Prop where
  exact : (resolve S cfg q (existingEntities s.1 ns q.entityType)).matchType = some .exact ↔
    (step S s (.resolve ns q)).2.Contains S ns (storedType S q.entityType) q.name
  duplicate : cfg.ExactOnly →
    ((resolve S cfg q (existingEntities s.1 ns q.entityType)).isDuplicate = true ↔
      (step S s (.resolve ns q)).2.Contains S ns (storedType S q.entityType) q.name)

/-- A load gets all that is due: the entities of the type are stored under its very name, no more than
the limit, and those added before are among them. -/
structure LoadsAll (S : Scoring F) (s : State Id × Ledger Id) (ns : Uuid) (entityType : String) : Prop where
  stored : ∀ r ∈ s.1.store, r.1 = ns → storedType S r.2.entityType = entityType →
    r.2.entityType = entityType
  limit : (ofType S s.1.store ns entityType).length ≤ 1000
  persisted : ∀ r ∈ s.2.added, r.1 = ns → storedType S r.2.entityType = entityType →
    ∃ e ∈ ofType S s.1.store ns entityType, S.lower e.name = S.lower r.2.name

/-- The condition on a step: `resolve` is given the type name as it is stored, and a load gets all;
`add_to_cache` finds its type in the cache, without another entity of that id. -/
def Guard (S : Scoring F) (s : State Id × Ledger Id) : Action Id F → Prop
  | .write _ => True
  | .resolve ns q => q.entityType = storedType S q.entityType ∧
      (s.1.cache.get? (cacheKey ns q.entityType) = none → LoadsAll S s ns q.entityType)
  | .add ns id q => ∃ entities, s.1.cache.get? (cacheKey ns (storedType S q.entityType)) = some entities ∧
      ∀ e ∈ entities, e.id = id → e = newEntity S id q
  | .invalidate _ => True

/-! ## Type names -/

variable {S : Scoring F} {cfg : Config F} {s : State Id × Ledger Id} {ns ns' : Uuid} {t t' : String}

theorem storedType_ne_empty (S : Scoring F) (t : String) : storedType S t ≠ "" := by
  unfold storedType
  split
  · decide
  · assumption

theorem storedType_storedType (hupper : ∀ t, S.upper (S.upper t) = S.upper t)
    (hconcept : S.upper "CONCEPT" = "CONCEPT") (t : String) :
    storedType S (storedType S t) = storedType S t := by
  by_cases h : S.upper t = ""
  · have hc : storedType S t = "CONCEPT" := if_pos h
    rw [hc, storedType, hconcept]
    decide
  · have hu : storedType S t = S.upper t := if_neg h
    rw [hu, storedType, hupper, if_neg h]

/-- A load that gets all lists the entities of the type. -/
theorem listEntities_eq (h : LoadsAll S s ns t) (ht : storedType S t = t) :
    listEntities s.1.store ns t 1000 = ofType S s.1.store ns t := by
  have hne : t ≠ "" := ht ▸ storedType_ne_empty S t
  have hfilter : (s.1.store.filter fun r => decide (r.1 = ns ∧ (t = "" ∨ r.2.entityType = t))) =
      s.1.store.filter fun r => decide (r.1 = ns ∧ storedType S r.2.entityType = t) := by
    apply List.filter_congr
    intro r hr
    apply decide_eq_decide.mpr
    apply and_congr_right
    intro hns
    rw [or_iff_right hne]
    constructor
    · intro heq
      rw [heq, ht]
    · exact h.stored r hr hns
  rw [listEntities, hfilter]
  exact List.take_of_length_le h.limit

/-! ## The cache and the ledger -/

/-- A type is cached when it was loaded, with the names that were loaded and added. -/
structure Sim (S : Scoring F) (s : State Id × Ledger Id) : Prop where
  cached : ∀ ns t, storedType S t = t → (s.1.cache.get? (cacheKey ns t) = none ↔ s.2.loaded ns t = none)
  names : ∀ ns t entities, storedType S t = t → s.1.cache.get? (cacheKey ns t) = some entities →
    ∀ name, (∃ e ∈ entities, sameName S name e = true) ↔ s.2.Contains S ns t name

theorem sim_init (S : Scoring F) (store : List (Uuid × Entity Id)) : Sim S (init store) where
  cached _ _ _ := iff_of_true rfl rfl
  names _ _ _ _ h := by cases h

/-- Every type but one has the cached entities and the ledger it had. -/
theorem get?_set_of_ne {cache : OrderedDict String (List (Entity Id))} {entities : List (Entity Id)}
    (h : ¬ (ns' = ns ∧ t' = t)) :
    (cache.set (cacheKey ns t) entities).get? (cacheKey ns' t') = cache.get? (cacheKey ns' t') := by
  rw [OrderedDict.get?_set, if_neg]
  intro heq
  exact h (cacheKey_inj heq)

theorem sim_load (hs : Sim S s) (ht : storedType S t = t)
    (hload : s.1.cache.get? (cacheKey ns t) = none → LoadsAll S s ns t) :
    Sim S (loadType s.1 ns t, s.2.load S s.1.store ns t) := by
  cases hget : s.1.cache.get? (cacheKey ns t) with
  | some entities =>
      have hloaded : s.2.loaded ns t ≠ none := by
        intro hnone
        rw [(hs.cached ns t ht).mpr hnone] at hget
        cases hget
      have hsame : s.2.load S s.1.store ns t = s.2 := by
        show (⟨_, s.2.added⟩ : Ledger Id) = ⟨s.2.loaded, s.2.added⟩
        congr 1
        funext ns' t'
        apply if_neg
        intro h
        exact hloaded (h.2.1 ▸ h.2.2)
      rw [loadType, hget, hsame]
      exact hs
  | none =>
      have hall := hload hget
      have hnone : s.2.loaded ns t = none := (hs.cached ns t ht).mp hget
      have hother : ∀ {ns' t'}, ¬ (ns' = ns ∧ t' = t) →
          (s.2.load S s.1.store ns t).loaded ns' t' = s.2.loaded ns' t' := by
        intro ns' t' hne
        exact if_neg fun h => hne ⟨h.1, h.2.1⟩
      have hthis : (s.2.load S s.1.store ns t).loaded ns t = some (ofType S s.1.store ns t) :=
        if_pos ⟨rfl, rfl, hnone⟩
      rw [loadType, hget]
      constructor
      · intro ns' t' ht'
        by_cases heq : ns' = ns ∧ t' = t
        · obtain ⟨rfl, rfl⟩ := heq
          rw [hthis]
          simp [OrderedDict.get?_set]
        · rw [get?_set_of_ne heq, hother heq]
          exact hs.cached ns' t' ht'
      · intro ns' t' entities ht' hentities name
        by_cases heq : ns' = ns ∧ t' = t
        · obtain ⟨rfl, rfl⟩ := heq
          rw [OrderedDict.get?_set, if_pos rfl] at hentities
          cases hentities
          rw [listEntities_eq hall ht, Ledger.Contains, hthis]
          constructor
          · rintro ⟨e, he, hname⟩
            obtain ⟨r, hr, rfl⟩ := List.mem_map.mp he
            exact ⟨r.2, Or.inl he, (of_decide_eq_true (List.mem_filter.mp hr).2).2, hname⟩
          · rintro ⟨e, he | he, htype, hname⟩
            · exact ⟨e, he, hname⟩
            · obtain ⟨e', he', hlower⟩ := hall.persisted (ns', e) he rfl htype
              refine ⟨e', he', ?_⟩
              rw [sameName, hlower]
              exact hname
        · rw [get?_set_of_ne heq] at hentities
          rw [hs.names ns' t' entities ht' hentities name, Ledger.Contains, Ledger.Contains, hother heq]
          exact Iff.rfl

theorem sim_add [DecidableEq Id] {e : Entity Id} {entities : List (Entity Id)} (hs : Sim S s)
    (ht : storedType S e.entityType = e.entityType)
    (hget : s.1.cache.get? (cacheKey ns e.entityType) = some entities)
    (hid : ∀ e' ∈ entities, e'.id = e.id → e' = e) :
    Sim S (addToCache s.1 ns e, { s.2 with added := s.2.added ++ [(ns, e)] }) := by
  have hcache : ∃ after, (addToCache s.1 ns e).cache.get? (cacheKey ns e.entityType) = some after ∧
      (∀ x, x ∈ after ↔ x ∈ entities ∨ x = e) ∧
      ∀ ns' t', ¬ (ns' = ns ∧ t' = e.entityType) →
        (addToCache s.1 ns e).cache.get? (cacheKey ns' t') = s.1.cache.get? (cacheKey ns' t') := by
    unfold addToCache
    simp only [hget]
    by_cases hmem : e.id ∈ entities.map Entity.id
    · rw [if_pos hmem]
      obtain ⟨e', he', heq⟩ := List.mem_map.mp hmem
      have hin : e ∈ entities := hid e' he' heq ▸ he'
      exact ⟨entities, hget, fun x => ⟨Or.inl, fun h => h.elim id fun h => h ▸ hin⟩, fun _ _ _ => rfl⟩
    · rw [if_neg hmem]
      exact ⟨entities ++ [e], by rw [OrderedDict.get?_set, if_pos rfl], by simp, fun _ _ => get?_set_of_ne⟩
  obtain ⟨after, hafter, hmem, hothers⟩ := hcache
  constructor
  · intro ns' t' ht'
    by_cases heq : ns' = ns ∧ t' = e.entityType
    · obtain ⟨rfl, rfl⟩ := heq
      have hloaded : s.2.loaded ns' e.entityType ≠ none := by
        intro hnone
        rw [(hs.cached ns' _ ht).mpr hnone] at hget
        cases hget
      rw [hafter]
      exact iff_of_false (Option.some_ne_none _) hloaded
    · rw [hothers ns' t' heq]
      exact hs.cached ns' t' ht'
  · intro ns' t' entities' ht' hentities name
    by_cases heq : ns' = ns ∧ t' = e.entityType
    · obtain ⟨rfl, rfl⟩ := heq
      rw [hafter] at hentities
      cases hentities
      have hbefore := hs.names ns' _ entities ht hget name
      constructor
      · rintro ⟨x, hx, hname⟩
        rcases (hmem x).mp hx with hx | rfl
        · obtain ⟨y, hy, hrest⟩ := hbefore.mp ⟨x, hx, hname⟩
          exact ⟨y, hy.imp_right fun h => List.mem_append_left _ h, hrest⟩
        · exact ⟨x, Or.inr (List.mem_append_right _ List.mem_cons_self), ht, hname⟩
      · rintro ⟨x, hx | hx, htype, hname⟩
        · obtain ⟨y, hy, hrest⟩ := hbefore.mpr ⟨x, Or.inl hx, htype, hname⟩
          exact ⟨y, (hmem y).mpr (Or.inl hy), hrest⟩
        · rcases List.mem_append.mp hx with hx | hx
          · obtain ⟨y, hy, hrest⟩ := hbefore.mpr ⟨x, Or.inr hx, htype, hname⟩
            exact ⟨y, (hmem y).mpr (Or.inl hy), hrest⟩
          · cases List.mem_singleton.mp hx
            exact ⟨e, (hmem e).mpr (Or.inr rfl), hname⟩
    · rw [hothers ns' t' heq] at hentities
      rw [hs.names ns' t' entities' ht' hentities name]
      constructor
      · rintro ⟨x, hx, hrest⟩
        exact ⟨x, hx.imp_right fun h => List.mem_append_left _ h, hrest⟩
      · rintro ⟨x, hx | hx, htype, hname⟩
        · exact ⟨x, Or.inl hx, htype, hname⟩
        · rcases List.mem_append.mp hx with hx | hx
          · exact ⟨x, Or.inr hx, htype, hname⟩
          · -- the added entity is of another namespace or of another type
            cases List.mem_singleton.mp hx
            exact absurd ⟨rfl, htype.symm.trans ht⟩ heq

theorem sim_invalidate (hs : Sim S s) (target : Option Uuid) :
    Sim S (invalidateCache s.1 target, s.2.invalidate target) := by
  have hget : ∀ ns t, (invalidateCache s.1 target).cache.get? (cacheKey ns t) =
      if target = none ∨ target = some ns then none else s.1.cache.get? (cacheKey ns t) := by
    intro ns t
    cases target with
    | none => rfl
    | some ns' => simp [invalidateCache, OrderedDict.get?_eraseWhere, ofNamespace_cacheKey]
  constructor
  · intro ns t ht
    rw [hget]
    show _ ↔ (if target = none ∨ target = some ns then none else s.2.loaded ns t) = none
    by_cases h : target = none ∨ target = some ns
    · rw [if_pos h, if_pos h]
    · rw [if_neg h, if_neg h]
      exact hs.cached ns t ht
  · intro ns t entities ht hentities name
    rw [hget] at hentities
    by_cases h : target = none ∨ target = some ns
    · rw [if_pos h] at hentities
      cases hentities
    · rw [if_neg h] at hentities
      rw [hs.names ns t entities ht hentities name, Ledger.Contains, Ledger.Contains]
      simp only [Ledger.invalidate, if_neg h]

/-- **A guarded step** keeps the cache and the ledger in accord. -/
theorem sim_step [DecidableEq Id] (hupper : ∀ t, S.upper (S.upper t) = S.upper t)
    (hconcept : S.upper "CONCEPT" = "CONCEPT") (s : State Id × Ledger Id) (a : Action Id F)
    (hs : Sim S s) (hguard : Guard S s a) : Sim S (step S s a) := by
  cases a with
  | write store => exact ⟨hs.cached, hs.names⟩
  | resolve ns q =>
      have hsim := sim_load hs hguard.1.symm hguard.2
      show Sim S (_, s.2.load S s.1.store ns (storedType S q.entityType))
      rw [← hguard.1]
      exact hsim
  | add ns id q =>
      obtain ⟨entities, hget, hid⟩ := hguard
      exact @sim_add Id F S s ns _ (newEntity S id q) entities hs
        (storedType_storedType hupper hconcept q.entityType) hget hid
  | invalidate target => exact sim_invalidate hs target

/-- After a call the type is cached. -/
theorem get?_loadType (st : State Id) (ns : Uuid) (t : String) :
    (loadType st ns t).cache.get? (cacheKey ns t) = some (existingEntities st ns t) := by
  unfold existingEntities
  cases hget : st.cache.get? (cacheKey ns t) with
  | some entities => rw [loadType, hget, hget, Option.getD_some]
  | none => rw [loadType, hget, OrderedDict.get?_set, if_pos rfl, Option.getD_some]

/-- **The cache is transparent** in every run whose steps meet the guard. -/
theorem transparent_of_guarded [DecidableEq Id] [LinearOrder F] (S : Scoring F) (cfg : Config F)
    (hupper : ∀ t, S.upper (S.upper t) = S.upper t) (hconcept : S.upper "CONCEPT" = "CONCEPT")
    (hexact : cfg.exactMatch = true) (store : List (Uuid × Entity Id)) (acts : List (Action Id F))
    (hacts : Runs.Guarded (step S) (Guard S) (init store) acts) (before after : List (Action Id F))
    (ns : Uuid) (q : Query Id F) (hcall : acts = before ++ .resolve ns q :: after) :
    Transparent S cfg (Runs.run (step S) (init store) before) ns q := by
  rw [hcall, Runs.guarded_append] at hacts
  have hsim := Runs.run_invariant (sim_step hupper hconcept) (sim_init S store) hacts.1
  have hguard := hacts.2.1
  have hnext := sim_step hupper hconcept _ _ hsim hguard
  have hnames := hnext.names ns q.entityType _ hguard.1.symm (get?_loadType _ ns q.entityType) q.name
  constructor
  · rw [resolve_exact_iff hexact, hnames, ← hguard.1]
  · intro honly
    rw [resolve_isDuplicate_iff hexact honly, hnames, ← hguard.1]

/-! ## A type name in lower case -/

/-- `plainScoring` with the one type name of the example in upper case. -/
def personScoring : Scoring ℚ :=
  { plainScoring with upper := fun t => if t = "person" then "PERSON" else t }

def exampleNamespace : Uuid := ⟨"7f3f1c9e-4a51-4a0e-8f0b-2f6f0d9a1b11", by decide⟩

def alice (entityType : String) : Query ℕ ℚ := ⟨"alice", entityType, [], [], []⟩

/-- With the type name as it is stored, the second call finds what was added. -/
theorem transparent_alice : Transparent personScoring defaultConfig
    (Runs.run (step personScoring) (init [])
      [.resolve exampleNamespace (alice "PERSON"), .add exampleNamespace 1 (alice "PERSON")])
    exampleNamespace (alice "PERSON") := by
  have hstored : storedType personScoring "PERSON" = "PERSON" := by decide
  have hload : LoadsAll personScoring (init ([] : List (Uuid × Entity ℕ))) exampleNamespace "PERSON" :=
    ⟨fun r hr => (List.not_mem_nil hr).elim, by decide, fun r hr => (List.not_mem_nil hr).elim⟩
  refine transparent_of_guarded personScoring defaultConfig ?_ (by decide) rfl []
    [.resolve exampleNamespace (alice "PERSON"), .add exampleNamespace 1 (alice "PERSON"),
      .resolve exampleNamespace (alice "PERSON")] ?_ _ [] _ _ rfl
  · intro t
    show (if (if t = "person" then "PERSON" else t) = "person" then "PERSON"
      else if t = "person" then "PERSON" else t) = if t = "person" then "PERSON" else t
    by_cases h : t = "person"
    · rw [if_pos h]
      decide
    · rw [if_neg h, if_neg h]
  · refine ⟨⟨hstored.symm, fun _ => hload⟩, ⟨[], by decide, fun e he => (List.not_mem_nil he).elim⟩,
      ⟨hstored.symm, fun h => absurd h (by decide)⟩, trivial⟩

/-- **What was added is not found** under the type name of the caller: the cache has it under another. -/
theorem lowerCase_diverges : ¬ Transparent personScoring defaultConfig
    (Runs.run (step personScoring) (init [])
      [.resolve exampleNamespace (alice "person"), .add exampleNamespace 1 (alice "person")])
    exampleNamespace (alice "person") := by
  intro h
  have hdue : (step personScoring (Runs.run (step personScoring) (init [])
      [.resolve exampleNamespace (alice "person"), .add exampleNamespace 1 (alice "person")])
      (.resolve exampleNamespace (alice "person"))).2.Contains personScoring exampleNamespace
      (storedType personScoring "person") "alice" :=
    ⟨newEntity personScoring 1 (alice "person"), Or.inr List.mem_cons_self, by decide, by decide⟩
  have hfound := h.exact.mpr hdue
  revert hfound
  decide +kernel

end EntityResolver

end Khora
