import Khora.Hooks.NamespaceScope
import Khora.Lib.Runs
import Khora.Filter.Value

/-!
# The hook dispatcher

`HookDispatcher` routes extraction events to callbacks and to persistent deliveries.
The namespace a callback is registered with is not kept on the subscription: it is
written to the `SemanticFilter` object the caller passes, and one filter object may be
passed to several registrations.

The model keeps the filter objects on a heap, so that two subscriptions can hold one
object.  A dispatch runs against any outcome of the later levels of the cascade, any
resolver calls that fail, and any filter that raises.

* `hooks_isolated` — in every run that re-scopes no filter object of a live
  subscription, a hook sees only its own namespace, and where nothing fails it sees
  every event of it.
* `sharedFilter_leaks` — two registrations that share a filter object.
-/

namespace Khora

variable {Id Ns : Type}

/-! ## Events, filters and subscriptions -/

/-- The fields of a `MemoryEvent` that dispatch reads. -/
structure MemoryEvent (Id : Type) where
  eventType : String
  namespaceId : Id
  resourceType : String
  data : List (Key × Value)

/-- A `SemanticFilter` object, as Level 0 of the cascade reads it. -/
structure SemanticFilter (Id : Type) where
  namespaceId : Option Id
  entityTypes : List String
  relationshipTypes : List String
  dreamOpTypes : List String
  dreamDecisions : List String
  /-- The field `match`. -/
  pattern : Option Value

/-- `SemanticFilter(namespace_id=...)` -/
def SemanticFilter.ofNamespace (n : Option Id) : SemanticFilter Id := ⟨n, [], [], [], [], none⟩

/-- A filter object on the heap. -/
abbrev FilterRef := ℕ

structure HookSubscription (Id : Type) where
  id : ℕ
  eventType : String
  filter : Option FilterRef
  enabled : Bool
  /-- The `namespace_id` given at registration; the object itself does not hold it. -/
  registered : Option Id

structure PersistentSubscription (Id : Type) where
  id : ℕ
  eventType : String
  namespaceId : Option Id
  filter : Option FilterRef
  paused : Bool

/-- A row of `khora_hook_subscriptions`; its filter blob has no namespace. -/
structure SubscriptionRow (Id : Type) where
  id : ℕ
  eventType : String
  namespaceId : Option Id
  filter : Option (SemanticFilter Id)
  paused : Bool

/-- `serialize_filter` -/
def serializeFilter (f : SemanticFilter Id) : SemanticFilter Id := { f with namespaceId := none }

/-- `deserialize_filter` -/
def deserializeFilter (raw : SemanticFilter Id) (n : Option Id) : SemanticFilter Id :=
  { raw with namespaceId := n }

/-! ## The filter cascade -/

section Cascade

variable (pyMatches : Value → List (Key × Value) → Option Bool) (event : MemoryEvent Id)

/-- `data.get(key, "")` is falsy or in the list; an empty list allows every type. -/
def typeAllowed (key : String) (types : List String) : Bool :=
  let v := (Value.lookup (.str key) event.data).getD (.str "")
  types.isEmpty || !v.truthy || types.any fun t => v.pyEq (.str t)

/-- `_passes_type_filter`.  `pyMatches` is `match_dsl.matches`, none where it raises. -/
def passesTypeFilter (f : SemanticFilter Id) : Option Bool :=
  if event.resourceType = "entity" ∧ typeAllowed event "entity_type" f.entityTypes = false then
    some false
  else if event.resourceType = "relationship" ∧
      typeAllowed event "relationship_type" f.relationshipTypes = false then some false
  else if event.resourceType = "dream" ∧ typeAllowed event "op_type" f.dreamOpTypes = false then
    some false
  else if event.resourceType = "dream" ∧ typeAllowed event "decision" f.dreamDecisions = false then
    some false
  else match f.pattern with
    | none => some true
    | some p => pyMatches p event.data

/-- The cascade below the namespace check.  `later` is the outcome of the embedding
gate and the LLM evaluation of the filter. -/
def passesLevels (later : FilterRef → Option Bool) (r : FilterRef) (f : SemanticFilter Id) :
    Option Bool :=
  match passesTypeFilter pyMatches event f with
  | some true => later r
  | outcome => outcome

variable [DecidableEq Id]

/-- `_passes_filter_cascade`, none where it raises. -/
def passesFilterCascade (resolve : Id → Id) (fails : ℕ → Bool) (later : FilterRef → Option Bool)
    (filters : List (SemanticFilter Id)) (filter : Option FilterRef) (l : Lookup Id) :
    Option Bool × Lookup Id :=
  match filter.bind fun r => filters[r]?.map fun f => (r, f) with
  | none => (some true, l)
  | some (r, f) =>
      match namespaceScopeMatches resolve fails event.namespaceId l f.namespaceId with
      | (false, l') => (some false, l')
      | (true, l') => (passesLevels pyMatches event later r f, l')

end Cascade

/-- The `for` loop that collects the matching subscriptions; an exception leaves it. -/
def select {α L : Type} (test : α → L → Option Bool × L) : List α → L → Option (List α) × L
  | [], l => (some [], l)
  | a :: as, l => match test a l with
      | (none, l') => (none, l')
      | (some b, l') => match select test as l' with
          | (none, l'') => (none, l'')
          | (some out, l'') => (some (if b then a :: out else out), l'')

/-! ## The dispatcher -/

/-- `HookDispatcher`, with the namespace table its resolver reads.  The dictionaries of
subscriptions by event type are flat lists here. -/
structure HookDispatcher (N : Namespaces Id Ns) where
  filters : List (SemanticFilter Id)
  subscriptions : List (HookSubscription Id)
  persistent : List (PersistentSubscription Id)
  /-- `_ns_resolve_cache` -/
  cache : Id → Option Id
  /-- The rows of the subscription store, if one is wired. -/
  store : Option (List (SubscriptionRow Id))
  resolver : Resolver N

/-- What one dispatch invokes. -/
structure Dispatched (Id : Type) where
  callbacks : List (HookSubscription Id)
  deliveries : List (PersistentSubscription Id)

namespace HookDispatcher

variable {N : Namespaces Id Ns}

/-- `filter.namespace_id = namespace_id` -/
def rescope (filters : List (SemanticFilter Id)) (r : FilterRef) (n : Id) :
    List (SemanticFilter Id) :=
  filters.modify r fun f => { f with namespaceId := some n }

/-- `subscribe`; `id` is the new UUID. -/
def subscribe (s : HookDispatcher N) (id : ℕ) (eventType : String) (filter : Option FilterRef)
    (namespaceId : Option Id) : HookDispatcher N :=
  match namespaceId, filter with
  | some n, none =>
      { s with
        filters := s.filters ++ [.ofNamespace (some n)]
        subscriptions := s.subscriptions ++ [⟨id, eventType, some s.filters.length, true, some n⟩] }
  | some n, some r =>
      { s with
        filters := rescope s.filters r n
        subscriptions := s.subscriptions ++ [⟨id, eventType, some r, true, some n⟩] }
  | none, filter =>
      { s with subscriptions := s.subscriptions ++ [⟨id, eventType, filter, true, none⟩] }

/-- `unsubscribe` -/
def unsubscribe (s : HookDispatcher N) (id : ℕ) : HookDispatcher N :=
  { s with subscriptions := s.subscriptions.filter fun sub => sub.id != id }

/-- `_add_persistent_in_memory` -/
def addPersistentInMemory (s : HookDispatcher N) (sub : PersistentSubscription Id) :
    HookDispatcher N :=
  { s with persistent := (s.persistent.filter fun p => p.id != sub.id) ++ [sub] }

/-- `HookSubscriptionStore.persist`: insert, or replace the row of that id. -/
def persist (filters : List (SemanticFilter Id)) (rows : List (SubscriptionRow Id))
    (sub : PersistentSubscription Id) : List (SubscriptionRow Id) :=
  (rows.filter fun row => row.id != sub.id) ++
    [⟨sub.id, sub.eventType, sub.namespaceId,
      sub.filter.bind fun r => filters[r]?.map serializeFilter, sub.paused⟩]

/-- `register_persistent`.  The filter is re-scoped before the store is looked for; a
failed write leaves the subscription in memory. -/
def registerPersistent (s : HookDispatcher N) (id : ℕ) (eventType : String)
    (filter : Option FilterRef) (namespaceId : Option Id) (written : Bool) : HookDispatcher N :=
  let filters := match filter, namespaceId with
    | some r, some n => rescope s.filters r n
    | _, _ => s.filters
  let sub : PersistentSubscription Id := ⟨id, eventType, namespaceId, filter, false⟩
  match s.store with
  | none => { s with filters := filters }
  | some rows =>
      addPersistentInMemory
        { s with
          filters := filters
          store := some (if written then persist filters rows sub else rows) } sub

/-- `unregister_persistent`; `deleted` says that the store lost the row. -/
def unregisterPersistent (s : HookDispatcher N) (id : ℕ) (deleted : Bool) : HookDispatcher N :=
  if s.persistent.any fun p => p.id == id then
    { s with
      persistent := s.persistent.filter fun p => p.id != id
      store := if deleted then s.store.map fun rows => rows.filter fun row => row.id != id
        else s.store }
  else s

/-- `_row_to_subscription` and `_add_persistent_in_memory`: the filter is a new object. -/
def addRow (s : HookDispatcher N) (row : SubscriptionRow Id) : HookDispatcher N :=
  match row.filter with
  | none => s.addPersistentInMemory ⟨row.id, row.eventType, row.namespaceId, none, row.paused⟩
  | some raw =>
      { s with filters := s.filters ++ [deserializeFilter raw row.namespaceId] }.addPersistentInMemory
        ⟨row.id, row.eventType, row.namespaceId, some s.filters.length, row.paused⟩

/-- `load_persistent`; `loaded` says that the store was read. -/
def loadPersistent (s : HookDispatcher N) (loaded : Bool) : HookDispatcher N :=
  match s.store, loaded with
  | some rows, true => rows.foldl addRow { s with persistent := [] }
  | _, _ => s

/-- `clear` -/
def clear (s : HookDispatcher N) : HookDispatcher N := { s with subscriptions := [], persistent := [] }

variable [DecidableEq Id] (pyMatches : Value → List (Key × Value) → Option Bool)

/-- One in-process subscription of the loop in `dispatch`. -/
def matchesCallback (s : HookDispatcher N) (event : MemoryEvent Id)
    (later : FilterRef → Option Bool) (fails : ℕ → Bool) (sub : HookSubscription Id) (l : Lookup Id) :
    Option Bool × Lookup Id :=
  if !sub.enabled then (some false, l)
  else passesFilterCascade pyMatches event s.resolver.resolve fails later s.filters sub.filter l

/-- One persistent subscription of the loop in `_dispatch_persistent`. -/
def matchesDelivery (s : HookDispatcher N) (event : MemoryEvent Id)
    (later : FilterRef → Option Bool) (fails : ℕ → Bool) (sub : PersistentSubscription Id)
    (l : Lookup Id) : Option Bool × Lookup Id :=
  if sub.paused then (some false, l)
  else match namespaceScopeMatches s.resolver.resolve fails event.namespaceId l sub.namespaceId with
    | (false, l') => (some false, l')
    | (true, l') =>
        passesFilterCascade pyMatches event s.resolver.resolve fails later s.filters sub.filter l'

/-- `dispatch`: nothing is invoked before both loops are through, so a filter that
raises keeps every hook of the event type from being invoked. -/
def dispatch (s : HookDispatcher N) (event : MemoryEvent Id) (later : FilterRef → Option Bool)
    (fails : ℕ → Bool) : Dispatched Id × HookDispatcher N :=
  let subs := s.subscriptions.filter fun sub => sub.eventType == event.eventType
  let persistent := s.persistent.filter fun sub => sub.eventType == event.eventType
  match select (s.matchesCallback pyMatches event later fails) subs ⟨s.cache, 0⟩ with
  | (none, l) => (⟨[], []⟩, { s with cache := l.cache })
  | (some callbacks, l) =>
      match select (s.matchesDelivery pyMatches event later fails) persistent l with
      | (none, l') => (⟨[], []⟩, { s with cache := l'.cache })
      | (some deliveries, l') => (⟨callbacks, deliveries⟩, { s with cache := l'.cache })

end HookDispatcher

/-! ## Runs -/

/-- The calls on a dispatcher, a caller that makes a filter object, and
`create_namespace_version` behind its back. -/
inductive HookAction (N : Namespaces Id Ns) where
  | newFilter (f : SemanticFilter Id)
  | subscribe (id : ℕ) (eventType : String) (filter : Option FilterRef) (namespaceId : Option Id)
  | unsubscribe (id : ℕ)
  | registerPersistent (id : ℕ) (eventType : String) (filter : Option FilterRef)
      (namespaceId : Option Id) (written : Bool)
  | unregisterPersistent (id : ℕ) (deleted : Bool)
  | loadPersistent (loaded : Bool)
  | clear
  | createNamespaceVersion (w : Resolver N)
  | dispatch (event : MemoryEvent Id) (later : FilterRef → Option Bool) (fails : ℕ → Bool)

namespace HookDispatcher

variable {N : Namespaces Id Ns}

/-- The filter argument of a call is an object that exists. -/
def holds (s : HookDispatcher N) (filter : Option FilterRef) : Bool :=
  filter.all fun r => r < s.filters.length

def step [DecidableEq Id] (pyMatches : Value → List (Key × Value) → Option Bool)
    (s : HookDispatcher N) : HookAction N → HookDispatcher N
  | .newFilter f => { s with filters := s.filters ++ [f] }
  | .subscribe id eventType filter n =>
      if s.holds filter then s.subscribe id eventType filter n else s
  | .unsubscribe id => s.unsubscribe id
  | .registerPersistent id eventType filter n written =>
      if s.holds filter then s.registerPersistent id eventType filter n written else s
  | .unregisterPersistent id deleted => s.unregisterPersistent id deleted
  | .loadPersistent loaded => s.loadPersistent loaded
  | .clear => s.clear
  | .createNamespaceVersion w => { s with resolver := w }
  | .dispatch event later fails => (s.dispatch pyMatches event later fails).2

/-- The filter and the registered namespace of every live subscription. -/
def holders (s : HookDispatcher N) : List (Option FilterRef × Option Id) :=
  s.subscriptions.map (fun sub => (sub.filter, sub.registered)) ++
    s.persistent.map fun sub => (sub.filter, sub.namespaceId)

/-- Every live subscription that holds the filter and was registered with a namespace
was registered with `n`. -/
def Fits (s : HookDispatcher N) (r : FilterRef) (n : Id) : Prop :=
  ∀ h ∈ s.holders, h.1 = some r → ∀ m, h.2 = some m → m = n

/-- **What a step must meet.**  A registration with a namespace passes no filter object
of a live subscription that was registered with another one; a new version maps no id
anew that is cached as its own row. -/
def Keeps (s : HookDispatcher N) : HookAction N → Prop
  | .subscribe _ _ (some r) (some n) => s.Fits r n
  | .registerPersistent _ _ (some r) (some n) _ => s.Fits r n
  | .createNamespaceVersion w => ∀ x, s.cache x = some x → w.resolve x = x
  | _ => True

/-- A dispatcher as constructed: any filter objects and any rows may exist. -/
structure Initial (s : HookDispatcher N) : Prop where
  subscriptions : s.subscriptions = []
  persistent : s.persistent = []
  cache : s.cache = fun _ => none

end HookDispatcher

/-- The filter of a subscription exists and has the namespace it was registered with. -/
def InScope (filters : List (SemanticFilter Id)) (h : Option FilterRef × Option Id) : Prop :=
  ∀ r, h.1 = some r → ∃ f, filters[r]? = some f ∧ ∀ n, h.2 = some n → f.namespaceId = some n

section Scope

variable {filters : List (SemanticFilter Id)} {h : Option FilterRef × Option Id}

theorem InScope.append (ha : InScope filters h) (fs : List (SemanticFilter Id)) :
    InScope (filters ++ fs) h := by
  intro r hr
  obtain ⟨f, hf, hn⟩ := ha r hr
  exact ⟨f, by rw [List.getElem?_append_left (List.getElem?_eq_some_iff.mp hf).1, hf], hn⟩

/-- Re-scoping an object keeps every subscription that was registered with that scope. -/
theorem InScope.rescope (ha : InScope filters h) {r : FilterRef} {n : Id}
    (hfit : h.1 = some r → ∀ m, h.2 = some m → m = n) :
    InScope (HookDispatcher.rescope filters r n) h := by
  intro r' hr'
  obtain ⟨f, hf, hn⟩ := ha r' hr'
  by_cases heq : r = r'
  · refine ⟨{ f with namespaceId := some n }, ?_, ?_⟩
    · simp [HookDispatcher.rescope, heq, hf]
    · intro m hm
      rw [hfit (by rw [heq, hr']) m hm]
  · refine ⟨f, ?_, hn⟩
    simp [HookDispatcher.rescope, heq, hf]

theorem inScope_none (n : Option Id) : InScope filters (none, n) := fun r hr => by cases hr

/-- A new object at the end of the heap. -/
theorem inScope_new (f : SemanticFilter Id) : InScope (filters ++ [f]) (some filters.length, f.namespaceId) := by
  intro r hr
  cases hr
  exact ⟨f, by simp, fun n hn => hn⟩

theorem inScope_unscoped {r : FilterRef} (hr : r < filters.length) : InScope filters (some r, none) := by
  intro r' hr'
  cases hr'
  exact ⟨filters[r], List.getElem?_eq_getElem hr, fun n hn => by cases hn⟩

theorem inScope_rescoped {r : FilterRef} (hr : r < filters.length) (n : Id) :
    InScope (HookDispatcher.rescope filters r n) (some r, some n) := by
  intro r' hr'
  cases hr'
  refine ⟨{ filters[r] with namespaceId := some n }, ?_, fun m hm => hm⟩
  simp [HookDispatcher.rescope, List.getElem?_eq_getElem hr]

end Scope

namespace HookDispatcher

variable {N : Namespaces Id Ns}

/-- **The invariant.** -/
structure Inv (s : HookDispatcher N) : Prop where
  cache : SoundCache s.resolver s.cache
  inScope : ∀ h ∈ s.holders, InScope s.filters h
  /-- A callback has no scope but that of its filter. -/
  filtered : ∀ sub ∈ s.subscriptions, sub.registered.isSome = true → sub.filter.isSome = true

theorem Initial.inv {s : HookDispatcher N} (h : s.Initial) : s.Inv where
  cache := by
    rw [h.cache]
    exact soundCache_empty _
  inScope := by simp [holders, h.subscriptions, h.persistent]
  filtered := by simp [h.subscriptions]

section Steps

variable {s : HookDispatcher N}

/-- Steps that lose subscriptions keep the invariant. -/
theorem Inv.mono (h : s.Inv) {s' : HookDispatcher N} (hfilters : s'.filters = s.filters)
    (hcache : s'.cache = s.cache) (hresolver : s'.resolver = s.resolver)
    (hsub : ∀ sub ∈ s'.subscriptions, sub ∈ s.subscriptions)
    (hpers : ∀ sub ∈ s'.persistent, sub ∈ s.persistent) : s'.Inv where
  cache := by
    rw [hcache, hresolver]
    exact h.cache
  inScope := by
    intro p hp
    rw [hfilters]
    apply h.inScope
    rw [holders, List.mem_append, List.mem_map, List.mem_map] at hp ⊢
    rcases hp with ⟨sub, hmem, rfl⟩ | ⟨sub, hmem, rfl⟩
    · exact .inl ⟨sub, hsub sub hmem, rfl⟩
    · exact .inr ⟨sub, hpers sub hmem, rfl⟩
  filtered := fun sub hmem => h.filtered sub (hsub sub hmem)

/-- A new callback, on a heap that agrees with the old subscriptions and with it. -/
theorem Inv.addCallback (h : s.Inv) {filters : List (SemanticFilter Id)} (sub : HookSubscription Id)
    (hold : ∀ p ∈ s.holders, InScope filters p) (hnew : InScope filters (sub.filter, sub.registered))
    (hfilter : sub.registered.isSome = true → sub.filter.isSome = true) :
    Inv { s with filters := filters, subscriptions := s.subscriptions ++ [sub] } where
  cache := h.cache
  inScope := by
    intro p hp
    simp only [holders, List.map_append, List.map_singleton, List.append_assoc, List.mem_append,
      List.mem_singleton] at hp
    rcases hp with hp | rfl | hp
    · exact hold p (List.mem_append.mpr (.inl hp))
    · exact hnew
    · exact hold p (List.mem_append.mpr (.inr hp))
  filtered := by
    intro sub' hsub'
    rcases List.mem_append.mp hsub' with hsub' | hsub'
    · exact h.filtered sub' hsub'
    · rw [List.mem_singleton.mp hsub']
      exact hfilter

/-- A new persistent subscription, likewise. -/
theorem Inv.addPersistent (h : s.Inv) {filters : List (SemanticFilter Id)}
    (store : Option (List (SubscriptionRow Id))) (sub : PersistentSubscription Id)
    (hold : ∀ p ∈ s.holders, InScope filters p) (hnew : InScope filters (sub.filter, sub.namespaceId)) :
    Inv (addPersistentInMemory { s with filters := filters, store := store } sub) where
  cache := h.cache
  inScope := by
    intro p hp
    simp only [addPersistentInMemory, holders, List.map_append, List.map_singleton, List.mem_append,
      List.mem_singleton] at hp
    rcases hp with hp | hp | rfl
    · exact hold p (List.mem_append.mpr (.inl hp))
    · apply hold p
      obtain ⟨q, hq, rfl⟩ := List.mem_map.mp hp
      exact List.mem_append.mpr (.inr (List.mem_map.mpr ⟨q, (List.mem_filter.mp hq).1, rfl⟩))
    · exact hnew
  filtered := h.filtered

theorem Inv.subscribe (h : s.Inv) {id : ℕ} {eventType : String} {filter : Option FilterRef}
    {n : Option Id} (hfits : ∀ r m, filter = some r → n = some m → s.Fits r m)
    (hheld : s.holds filter = true) : (s.subscribe id eventType filter n).Inv := by
  cases n with
  | none =>
      refine h.addCallback (⟨id, eventType, filter, true, none⟩) h.inScope ?_ (by simp)
      cases filter with
      | none => exact inScope_none _
      | some r => exact inScope_unscoped (by simpa [holds] using hheld)
  | some n =>
      cases filter with
      | none =>
          exact h.addCallback (⟨id, eventType, some s.filters.length, true, some n⟩)
            (fun p hp => (h.inScope p hp).append _) (inScope_new (.ofNamespace (some n))) (by simp)
      | some r =>
          exact h.addCallback (⟨id, eventType, some r, true, some n⟩)
            (fun p hp => (h.inScope p hp).rescope (hfits r n rfl rfl p hp))
            (inScope_rescoped (by simpa [holds] using hheld) n) (by simp)

/-- The end of `register_persistent`, on a heap that agrees with every subscription. -/
theorem Inv.storePersistent (h : s.Inv) {filters : List (SemanticFilter Id)}
    (sub : PersistentSubscription Id) (written : Bool) (hold : ∀ p ∈ s.holders, InScope filters p)
    (hnew : InScope filters (sub.filter, sub.namespaceId)) :
    Inv (match s.store with
      | none => { s with filters := filters }
      | some rows => addPersistentInMemory
          { s with
            filters := filters
            store := some (if written then persist filters rows sub else rows) } sub) := by
  split
  · exact ⟨h.cache, hold, h.filtered⟩
  · exact h.addPersistent _ sub hold hnew

theorem Inv.registerPersistent (h : s.Inv) {id : ℕ} {eventType : String}
    {filter : Option FilterRef} {n : Option Id} {written : Bool}
    (hfits : ∀ r m, filter = some r → n = some m → s.Fits r m) (hheld : s.holds filter = true) :
    (s.registerPersistent id eventType filter n written).Inv := by
  cases filter with
  | none => exact h.storePersistent ⟨id, eventType, n, none, false⟩ written h.inScope (inScope_none _)
  | some r =>
      have hr : r < s.filters.length := by simpa [holds] using hheld
      cases n with
      | none =>
          exact h.storePersistent ⟨id, eventType, none, some r, false⟩ written h.inScope
            (inScope_unscoped hr)
      | some n =>
          exact h.storePersistent ⟨id, eventType, some n, some r, false⟩ written
            (fun p hp => (h.inScope p hp).rescope (hfits r n rfl rfl p hp)) (inScope_rescoped hr n)

theorem Inv.addRow (h : s.Inv) (row : SubscriptionRow Id) : (s.addRow row).Inv := by
  rw [HookDispatcher.addRow]
  cases hraw : row.filter with
  | none =>
      exact h.addPersistent s.store ⟨row.id, row.eventType, row.namespaceId, none, row.paused⟩
        h.inScope (inScope_none _)
  | some raw =>
      exact h.addPersistent s.store
        ⟨row.id, row.eventType, row.namespaceId, some s.filters.length, row.paused⟩
        (fun p hp => (h.inScope p hp).append _) (inScope_new (deserializeFilter raw row.namespaceId))

theorem Inv.addRows (rows : List (SubscriptionRow Id)) : ∀ s : HookDispatcher N, s.Inv →
    (rows.foldl HookDispatcher.addRow s).Inv := by
  induction rows with
  | nil => exact fun s h => h
  | cons row rows ih => exact fun s h => ih _ (h.addRow row)

theorem Inv.loadPersistent (h : s.Inv) (loaded : Bool) : (s.loadPersistent loaded).Inv := by
  unfold HookDispatcher.loadPersistent
  split
  · exact Inv.addRows _ _ (h.mono rfl rfl rfl (fun _ hm => hm) (by simp))
  · exact h

theorem Inv.unregisterPersistent (h : s.Inv) (id : ℕ) (deleted : Bool) :
    (s.unregisterPersistent id deleted).Inv := by
  rw [HookDispatcher.unregisterPersistent]
  split
  · exact h.mono rfl rfl rfl (fun _ hm => hm) fun _ hm => (List.mem_filter.mp hm).1
  · exact h

end Steps

end HookDispatcher

/-! ## One dispatch -/

section Select

variable {α L : Type} {test : α → L → Option Bool × L} {Good : L → Prop}

/-- What every test keeps, the loop keeps. -/
theorem select_good (hkeep : ∀ a l, Good l → Good (test a l).2) (as : List α) :
    ∀ l, Good l → Good (select test as l).2 := by
  induction as with
  | nil => exact fun l h => h
  | cons a as ih =>
      intro l h
      have h' := hkeep a l h
      rw [select]
      rcases htest : test a l with ⟨_ | b, l'⟩
      · rw [htest] at h'
        exact h'
      · rw [htest] at h'
        have h'' := ih l' h'
        rcases hrest : select test as l' with ⟨_ | out, l''⟩
        · simpa [hrest] using h''
        · simpa [hrest] using h''

/-- What the loop selects has passed its test. -/
theorem select_sound (hkeep : ∀ a l, Good l → Good (test a l).2) (as : List α) :
    ∀ l out, Good l → (select test as l).1 = some out →
      ∀ a ∈ out, a ∈ as ∧ ∃ l', Good l' ∧ (test a l').1 = some true := by
  induction as with
  | nil =>
      intro l out _ hout a ha
      rw [select, Option.some.injEq] at hout
      rw [← hout] at ha
      cases ha
  | cons x as ih =>
      intro l out hl hout a ha
      have hl' := hkeep x l hl
      rw [select] at hout
      rcases htest : test x l with ⟨_ | b, l'⟩
      · simp [htest] at hout
      · rw [htest] at hl'
        rcases hrest : select test as l' with ⟨_ | rest, l''⟩
        · simp [htest, hrest] at hout
        · have htail := ih l' rest hl' (by rw [hrest])
          simp only [htest, hrest, Option.some.injEq] at hout
          by_cases hax : b = true ∧ a = x
          · obtain ⟨rfl, rfl⟩ := hax
            exact ⟨List.mem_cons_self, l, hl, by rw [htest]⟩
          · have hmem : a ∈ rest := by
              rw [← hout] at ha
              cases b with
              | false => simpa using ha
              | true =>
                  rcases List.mem_cons.mp (by simpa using ha) with h | h
                  · exact absurd ⟨rfl, h⟩ hax
                  · exact h
            obtain ⟨hin, hex⟩ := htail a hmem
            exact ⟨List.mem_cons_of_mem _ hin, hex⟩

/-- Where no test raises the loop ends, and selects what passes every time. -/
theorem select_complete (hkeep : ∀ a l, Good l → Good (test a l).2) (as : List α)
    (hquiet : ∀ a ∈ as, ∀ l, Good l → (test a l).1 ≠ none) :
    ∀ l, Good l → ∃ out, (select test as l).1 = some out ∧
      ∀ a ∈ as, (∀ l', Good l' → (test a l').1 = some true) → a ∈ out := by
  induction as with
  | nil => exact fun l _ => ⟨[], rfl, fun a ha => by cases ha⟩
  | cons x as ih =>
      intro l hl
      have hl' := hkeep x l hl
      have hx := hquiet x List.mem_cons_self l hl
      rcases htest : test x l with ⟨_ | b, l'⟩
      · rw [htest] at hx
        exact absurd rfl hx
      · rw [htest] at hl'
        obtain ⟨rest, hrest, hall⟩ := ih (fun a ha => hquiet a (List.mem_cons_of_mem _ ha)) l' hl'
        refine ⟨if b then x :: rest else rest, ?_, ?_⟩
        · rcases hsel : select test as l' with ⟨o, l''⟩
          rw [hsel] at hrest
          simp only at hrest
          rw [select, htest]
          simp only [hsel, hrest]
        · intro a ha hpass
          rcases List.mem_cons.mp ha with rfl | ha
          · have hb := hpass l hl
            rw [htest] at hb
            simp only [Option.some.injEq] at hb
            simp [hb]
          · have hmem := hall a ha hpass
            cases b with
            | false => simpa using hmem
            | true => simpa using .inr hmem

end Select

section Dispatch

variable [DecidableEq Id] {N : Namespaces Id Ns} {pyMatches : Value → List (Key × Value) → Option Bool}
  {s : HookDispatcher N} {event : MemoryEvent Id} {later : FilterRef → Option Bool} {fails : ℕ → Bool}

/-- What the later levels say of a subscription's filter. -/
def HookDispatcher.passesRest (s : HookDispatcher N)
    (pyMatches : Value → List (Key × Value) → Option Bool) (event : MemoryEvent Id)
    (later : FilterRef → Option Bool) (filter : Option FilterRef) : Option Bool :=
  match filter.bind fun r => s.filters[r]?.map fun f => (r, f) with
  | none => some true
  | some (r, f) => passesLevels pyMatches event later r f

/-- The cascade keeps the cache sound, and passes an event only to the namespace of
the filter. -/
theorem passesFilterCascade_sound {w : Resolver N} {filters : List (SemanticFilter Id)}
    {filter : Option FilterRef} {l : Lookup Id} (h : SoundCache w l.cache) :
    SoundCache w (passesFilterCascade pyMatches event w.resolve fails later filters filter l).2.cache ∧
    ((passesFilterCascade pyMatches event w.resolve fails later filters filter l).1 = some true →
      ∀ r f x, filter = some r → filters[r]? = some f → f.namespaceId = some x →
        N.owner event.namespaceId = N.owner x) := by
  unfold passesFilterCascade
  split
  · rename_i hnone
    refine ⟨h, fun _ r f x hr hf _ => ?_⟩
    simp [hr, hf] at hnone
  · rename_i r f hsome
    obtain ⟨hmatch, hcache⟩ := namespaceScopeMatches_owner fails h event.namespaceId f.namespaceId
    have hfilter : ∀ r' f', filter = some r' → filters[r']? = some f' → f' = f := by
      intro r' f' hr' hf'
      simp only [hr', hf', Option.bind_some, Option.map_some, Option.some.injEq, Prod.mk.injEq] at hsome
      exact hsome.2
    split
    · rename_i l' hres
      rw [hres] at hcache
      exact ⟨hcache, fun hf => by simp at hf⟩
    · rename_i l' hres
      rw [hres] at hcache hmatch
      refine ⟨hcache, fun _ r' f' x hr' hf' hx => hmatch rfl x ?_⟩
      rw [← hfilter r' f' hr' hf', hx]

/-- Without failures an event passes the cascade of a current scope if it passes the
later levels. -/
theorem passesFilterCascade_complete {w : Resolver N} {filters : List (SemanticFilter Id)}
    {l : Lookup Id} (h : SoundCache w l.cache) (hok : ∀ k, fails k = false) {n : Ns}
    (he : event.namespaceId = N.stable n ∨ event.namespaceId = w.active n) {r : FilterRef}
    {f : SemanticFilter Id} (hf : filters[r]? = some f)
    (hscope : ∀ x, f.namespaceId = some x → w.Current x ∧ N.owner x = n) :
    (passesFilterCascade pyMatches event w.resolve fails later filters (some r) l).1 =
      passesLevels pyMatches event later r f := by
  have hmatch : (namespaceScopeMatches w.resolve fails event.namespaceId l f.namespaceId).1 = true := by
    cases hx : f.namespaceId with
    | none => rfl
    | some x => exact namespaceScopeMatches_of_current hok h he (hscope x hx).1 (hscope x hx).2
  simp only [passesFilterCascade, Option.bind_some, hf, Option.map_some]
  split
  · rename_i hres
    rw [hres] at hmatch
    cases hmatch
  · rfl

/-- The cascade raises only where a later level does. -/
theorem passesFilterCascade_ne_none {w : Resolver N} {filter : Option FilterRef} {l : Lookup Id}
    (hquiet : s.passesRest pyMatches event later filter ≠ none) :
    (passesFilterCascade pyMatches event w.resolve fails later s.filters filter l).1 ≠ none := by
  unfold passesFilterCascade
  unfold HookDispatcher.passesRest at hquiet
  split
  · simp
  · rename_i r f hsome
    rw [hsome] at hquiet
    split
    · simp
    · exact hquiet

namespace HookDispatcher

theorem matchesCallback_sound {sub : HookSubscription Id} {l : Lookup Id}
    (h : SoundCache s.resolver l.cache) :
    SoundCache s.resolver (s.matchesCallback pyMatches event later fails sub l).2.cache ∧
    ((s.matchesCallback pyMatches event later fails sub l).1 = some true →
      ∀ r f x, sub.filter = some r → s.filters[r]? = some f → f.namespaceId = some x →
        N.owner event.namespaceId = N.owner x) := by
  unfold matchesCallback
  split
  · exact ⟨h, fun hf => by simp at hf⟩
  · exact passesFilterCascade_sound h

theorem matchesDelivery_sound {sub : PersistentSubscription Id} {l : Lookup Id}
    (h : SoundCache s.resolver l.cache) :
    SoundCache s.resolver (s.matchesDelivery pyMatches event later fails sub l).2.cache ∧
    ((s.matchesDelivery pyMatches event later fails sub l).1 = some true →
      ∀ x, sub.namespaceId = some x → N.owner event.namespaceId = N.owner x) := by
  obtain ⟨hmatch, hcache⟩ := namespaceScopeMatches_owner fails h event.namespaceId sub.namespaceId
  unfold matchesDelivery
  split
  · exact ⟨h, fun hf => by simp at hf⟩
  · split
    · rename_i hres
      rw [hres] at hcache
      exact ⟨hcache, fun hf => by simp at hf⟩
    · rename_i hres
      rw [hres] at hcache hmatch
      exact ⟨(passesFilterCascade_sound hcache).1, fun _ => hmatch rfl⟩

/-- The callbacks and the deliveries of a dispatch are those the two loops select, or
none at all if one of them raises. -/
theorem dispatch_eq (s : HookDispatcher N) (event : MemoryEvent Id) (later : FilterRef → Option Bool)
    (fails : ℕ → Bool) :
    let first := select (s.matchesCallback pyMatches event later fails)
      (s.subscriptions.filter fun sub => sub.eventType == event.eventType) ⟨s.cache, 0⟩
    let second := select (s.matchesDelivery pyMatches event later fails)
      (s.persistent.filter fun sub => sub.eventType == event.eventType) first.2
    (s.dispatch pyMatches event later fails = (⟨[], []⟩, { s with cache := first.2.cache }) ∧
      first.1 = none) ∨
    (s.dispatch pyMatches event later fails = (⟨[], []⟩, { s with cache := second.2.cache }) ∧
      second.1 = none) ∨
    ∃ callbacks deliveries, first.1 = some callbacks ∧ second.1 = some deliveries ∧
      s.dispatch pyMatches event later fails =
        (⟨callbacks, deliveries⟩, { s with cache := second.2.cache }) := by
  intro first second
  rcases hfirst : first with ⟨_ | callbacks, l⟩
  · refine .inl ⟨?_, rfl⟩
    simp only [first] at hfirst
    simp only [dispatch, hfirst]
  · have hsecond' : second = select (s.matchesDelivery pyMatches event later fails)
        (s.persistent.filter fun sub => sub.eventType == event.eventType) l := by
      simp only [second, hfirst]
    simp only [first] at hfirst
    rcases hsecond : second with ⟨_ | deliveries, l'⟩
    · refine .inr (.inl ⟨?_, rfl⟩)
      simp only [dispatch, hfirst, ← hsecond', hsecond]
    · refine .inr (.inr ⟨callbacks, deliveries, rfl, rfl, ?_⟩)
      simp only [dispatch, hfirst, ← hsecond', hsecond]

section Loops

/-- Both loops keep the cache sound. -/
theorem matchesCallback_keeps (sub : HookSubscription Id) (l : Lookup Id)
    (h : SoundCache s.resolver l.cache) :
    SoundCache s.resolver (s.matchesCallback pyMatches event later fails sub l).2.cache :=
  (matchesCallback_sound h).1

theorem matchesDelivery_keeps (sub : PersistentSubscription Id) (l : Lookup Id)
    (h : SoundCache s.resolver l.cache) :
    SoundCache s.resolver (s.matchesDelivery pyMatches event later fails sub l).2.cache :=
  (matchesDelivery_sound h).1

end Loops

/-- **Isolation of one dispatch**, whatever fails, and the invariant after it. -/
theorem Inv.dispatch (h : s.Inv) : (s.dispatch pyMatches event later fails).2.Inv ∧
    (∀ sub ∈ (s.dispatch pyMatches event later fails).1.callbacks, ∀ x, sub.registered = some x →
      N.owner event.namespaceId = N.owner x) ∧
    ∀ sub ∈ (s.dispatch pyMatches event later fails).1.deliveries, ∀ x, sub.namespaceId = some x →
      N.owner event.namespaceId = N.owner x := by
  have hframe : ∀ cache, SoundCache s.resolver cache → Inv { s with cache := cache } :=
    fun cache hc => ⟨hc, h.inScope, h.filtered⟩
  have hfirst := select_good (@matchesCallback_keeps _ _ _ _ pyMatches s event later fails)
    (s.subscriptions.filter fun sub => sub.eventType == event.eventType) ⟨s.cache, 0⟩ h.cache
  have hsecond := select_good (@matchesDelivery_keeps _ _ _ _ pyMatches s event later fails)
    (s.persistent.filter fun sub => sub.eventType == event.eventType) _ hfirst
  rcases @dispatch_eq _ _ _ _ pyMatches s event later fails with
    ⟨heq, -⟩ | ⟨heq, -⟩ | ⟨callbacks, deliveries, hcall, hdeliver, heq⟩
  · rw [heq]
    exact ⟨hframe _ hfirst, by simp, by simp⟩
  · rw [heq]
    exact ⟨hframe _ hsecond, by simp, by simp⟩
  · rw [heq]
    refine ⟨hframe _ hsecond, ?_, ?_⟩
    · intro sub hsub x hx
      obtain ⟨hmem, l, hl, htest⟩ := select_sound
        (@matchesCallback_keeps _ _ _ _ pyMatches s event later fails) _ _ callbacks h.cache hcall sub hsub
      have hin : sub ∈ s.subscriptions := (List.mem_filter.mp hmem).1
      -- its filter exists and has the namespace it was registered with
      obtain ⟨r, hr⟩ := Option.isSome_iff_exists.mp (h.filtered sub hin (by rw [hx]; rfl))
      obtain ⟨f, hf, hn⟩ := h.inScope (sub.filter, sub.registered)
        (List.mem_append.mpr (.inl (List.mem_map.mpr ⟨sub, hin, rfl⟩))) r hr
      exact (matchesCallback_sound hl).2 htest r f x hr hf (hn x hx)
    · intro sub hsub x hx
      obtain ⟨-, l, hl, htest⟩ := select_sound
        (@matchesDelivery_keeps _ _ _ _ pyMatches s event later fails) _ _ deliveries hfirst hdeliver sub hsub
      exact (matchesDelivery_sound hl).2 htest x hx

/-- The cascade of a hook of the event's namespace is decided by the later levels. -/
theorem Inv.cascade_complete (h : s.Inv) (hok : ∀ k, fails k = false) {n : Ns}
    (he : event.namespaceId = N.stable n ∨ event.namespaceId = s.resolver.active n)
    {p : Option FilterRef × Option Id} (hp : p ∈ s.holders) {x : Id} (hx : p.2 = some x)
    (hcurrent : s.resolver.Current x) (hn : N.owner x = n)
    (hrest : s.passesRest pyMatches event later p.1 = some true) {l : Lookup Id}
    (hl : SoundCache s.resolver l.cache) :
    (passesFilterCascade pyMatches event s.resolver.resolve fails later s.filters p.1 l).1 =
      some true := by
  cases hfilter : p.1 with
  | none => rfl
  | some r =>
      obtain ⟨f, hf, hscope⟩ := h.inScope p hp r hfilter
      rw [passesFilterCascade_complete hl hok he hf]
      · simpa [passesRest, hfilter, hf] using hrest
      · intro y hy
        rw [hscope x hx, Option.some.injEq] at hy
        rw [← hy]
        exact ⟨hcurrent, hn⟩

/-- **Completeness of one dispatch.**  Where no resolver call fails and no filter
raises, the event reaches every hook of its namespace whose later levels pass it. -/
theorem Inv.dispatch_complete (h : s.Inv) (hok : ∀ k, fails k = false)
    (hquiet : ∀ p ∈ s.holders, s.passesRest pyMatches event later p.1 ≠ none) {n : Ns}
    (he : event.namespaceId = N.stable n ∨ event.namespaceId = s.resolver.active n) :
    (∀ sub ∈ s.subscriptions, sub.eventType = event.eventType → sub.enabled = true →
      ∀ x, sub.registered = some x → s.resolver.Current x → N.owner x = n →
        s.passesRest pyMatches event later sub.filter = some true →
        sub ∈ (s.dispatch pyMatches event later fails).1.callbacks) ∧
    ∀ sub ∈ s.persistent, sub.eventType = event.eventType → sub.paused = false →
      ∀ x, sub.namespaceId = some x → s.resolver.Current x → N.owner x = n →
        s.passesRest pyMatches event later sub.filter = some true →
        sub ∈ (s.dispatch pyMatches event later fails).1.deliveries := by
  have hholder : ∀ sub ∈ s.subscriptions, (sub.filter, sub.registered) ∈ s.holders :=
    fun sub hsub => List.mem_append.mpr (.inl (List.mem_map.mpr ⟨sub, hsub, rfl⟩))
  have hholder' : ∀ sub ∈ s.persistent, (sub.filter, sub.namespaceId) ∈ s.holders :=
    fun sub hsub => List.mem_append.mpr (.inr (List.mem_map.mpr ⟨sub, hsub, rfl⟩))
  -- no test of the two loops raises
  have hraise : ∀ sub ∈ s.subscriptions.filter fun sub => sub.eventType == event.eventType,
      ∀ l : Lookup Id, SoundCache s.resolver l.cache →
        (s.matchesCallback pyMatches event later fails sub l).1 ≠ none := by
    intro sub hsub l _
    unfold matchesCallback
    split
    · simp
    · exact passesFilterCascade_ne_none (hquiet _ (hholder sub (List.mem_filter.mp hsub).1))
  have hraise' : ∀ sub ∈ s.persistent.filter fun sub => sub.eventType == event.eventType,
      ∀ l : Lookup Id, SoundCache s.resolver l.cache →
        (s.matchesDelivery pyMatches event later fails sub l).1 ≠ none := by
    intro sub hsub l _
    unfold matchesDelivery
    split
    · simp
    · split
      · simp
      · exact passesFilterCascade_ne_none (hquiet _ (hholder' sub (List.mem_filter.mp hsub).1))
  obtain ⟨callbacks, hcall, hcalls⟩ := select_complete
    (@matchesCallback_keeps _ _ _ _ pyMatches s event later fails) _ hraise ⟨s.cache, 0⟩ h.cache
  obtain ⟨deliveries, hdeliver, hdelivers⟩ := select_complete
    (@matchesDelivery_keeps _ _ _ _ pyMatches s event later fails) _ hraise' _
    (select_good (@matchesCallback_keeps _ _ _ _ pyMatches s event later fails)
      (s.subscriptions.filter fun sub => sub.eventType == event.eventType) ⟨s.cache, 0⟩ h.cache)
  have hout : (s.dispatch pyMatches event later fails).1 = ⟨callbacks, deliveries⟩ := by
    rcases @dispatch_eq _ _ _ _ pyMatches s event later fails with
      ⟨-, hnone⟩ | ⟨-, hnone⟩ | ⟨callbacks', deliveries', hcall', hdeliver', heq⟩
    · exact absurd (hcall.symm.trans hnone) (by simp)
    · exact absurd (hdeliver.symm.trans hnone) (by simp)
    · rw [heq, Option.some.inj (hcall.symm.trans hcall'), Option.some.inj (hdeliver.symm.trans hdeliver')]
  rw [hout]
  refine ⟨?_, ?_⟩
  · intro sub hsub hevent henabled x hx hcurrent hn hrest
    apply hcalls sub (List.mem_filter.mpr ⟨hsub, by simpa using hevent⟩)
    intro l hl
    rw [matchesCallback, henabled]
    exact h.cascade_complete hok he (hholder sub hsub) hx hcurrent hn hrest hl
  · intro sub hsub hevent hpaused x hx hcurrent hn hrest
    apply hdelivers sub (List.mem_filter.mpr ⟨hsub, by simpa using hevent⟩)
    intro l hl
    have hmatch := namespaceScopeMatches_of_current hok hl he hcurrent hn
    have hcache := (namespaceScopeMatches_owner fails hl event.namespaceId (some x)).2
    rw [matchesDelivery, hpaused, hx]
    rcases hres : namespaceScopeMatches s.resolver.resolve fails event.namespaceId l (some x) with ⟨b, l'⟩
    rw [hres] at hmatch hcache
    obtain rfl : b = true := hmatch
    exact h.cascade_complete hok he (hholder' sub hsub) hx hcurrent hn hrest hcache

/-- Every step that meets its condition keeps the invariant. -/
theorem Inv.step (s : HookDispatcher N) (a : HookAction N) (h : s.Inv) (hkeeps : s.Keeps a) :
    (s.step pyMatches a).Inv := by
  cases a with
  | newFilter f => exact ⟨h.cache, fun p hp => (h.inScope p hp).append [f], h.filtered⟩
  | subscribe id eventType filter n =>
      rw [HookDispatcher.step]
      split
      · rename_i hheld
        refine h.subscribe (fun r m hr hm => ?_) hheld
        subst hr hm
        exact hkeeps
      · exact h
  | unsubscribe id =>
      exact h.mono rfl rfl rfl (fun _ hm => (List.mem_filter.mp hm).1) fun _ hm => hm
  | registerPersistent id eventType filter n written =>
      rw [HookDispatcher.step]
      split
      · rename_i hheld
        refine h.registerPersistent (fun r m hr hm => ?_) hheld
        subst hr hm
        exact hkeeps
      · exact h
  | unregisterPersistent id deleted => exact h.unregisterPersistent id deleted
  | loadPersistent loaded => exact h.loadPersistent loaded
  | clear =>
      exact h.mono rfl rfl rfl (by simp [HookDispatcher.step, HookDispatcher.clear])
        (by simp [HookDispatcher.step, HookDispatcher.clear])
  | createNamespaceVersion w => exact ⟨h.cache.reversion hkeeps, h.inScope, h.filtered⟩
  | dispatch event later fails => exact h.dispatch.1

end HookDispatcher

end Dispatch

/-- **Hooks are isolated.**  After every run whose steps meet their condition, and
whatever fails, a dispatch invokes a hook that was registered with a namespace only for
an event of that namespace; and where no resolver call fails and no filter raises, an
event under the stable id or the active row id reaches every hook that was registered
with an id of the active version and whose later levels pass it. -/
theorem hooks_isolated [DecidableEq Id] {N : Namespaces Id Ns}
    (pyMatches : Value → List (Key × Value) → Option Bool) {s₀ : HookDispatcher N}
    (hinit : s₀.Initial) (acts : List (HookAction N))
    (hguard : Runs.Guarded (HookDispatcher.step pyMatches) HookDispatcher.Keeps s₀ acts)
    (event : MemoryEvent Id) (later : FilterRef → Option Bool) (fails : ℕ → Bool) :
    let s := Runs.run (HookDispatcher.step pyMatches) s₀ acts
    let out := (s.dispatch pyMatches event later fails).1
    (∀ sub ∈ out.callbacks, ∀ x, sub.registered = some x →
      N.owner event.namespaceId = N.owner x) ∧
    (∀ sub ∈ out.deliveries, ∀ x, sub.namespaceId = some x →
      N.owner event.namespaceId = N.owner x) ∧
    ((∀ k, fails k = false) →
      (∀ p ∈ s.holders, s.passesRest pyMatches event later p.1 ≠ none) →
      ∀ n, event.namespaceId = N.stable n ∨ event.namespaceId = s.resolver.active n →
        (∀ sub ∈ s.subscriptions, sub.eventType = event.eventType → sub.enabled = true →
          ∀ x, sub.registered = some x → s.resolver.Current x → N.owner x = n →
            s.passesRest pyMatches event later sub.filter = some true → sub ∈ out.callbacks) ∧
        ∀ sub ∈ s.persistent, sub.eventType = event.eventType → sub.paused = false →
          ∀ x, sub.namespaceId = some x → s.resolver.Current x → N.owner x = n →
            s.passesRest pyMatches event later sub.filter = some true → sub ∈ out.deliveries) := by
  intro s out
  have h : s.Inv := Runs.run_invariant HookDispatcher.Inv.step hinit.inv hguard
  obtain ⟨-, hcallbacks, hdeliveries⟩ := @HookDispatcher.Inv.dispatch _ _ _ _ pyMatches s event later fails h
  refine ⟨hcallbacks, hdeliveries, ?_⟩
  intro hok hquiet n he
  exact h.dispatch_complete hok hquiet he

/-! ## A shared filter object -/

/-- Namespace `n` has the stable id `10 n`; the other ids of its ten are row ids. -/
def tens : Namespaces ℕ ℕ where
  owner := fun x => x / 10
  stable := fun n => 10 * n
  owner_stable := by
    intro n
    omega

/-- The first version is active. -/
def tensResolver : Resolver tens where
  resolve := fun x => if x % 10 = 0 then x + 1 else x
  idempotent := by
    intro x
    by_cases h : x % 10 = 0
    · rw [if_pos h, if_neg (by omega)]
    · rw [if_neg h, if_neg h]
  separates := by
    intro x y h
    show x / 10 = y / 10
    by_cases hx : x % 10 = 0
    · by_cases hy : y % 10 = 0
      · rw [if_pos hx, if_pos hy] at h
        omega
      · rw [if_pos hx, if_neg hy] at h
        omega
    · by_cases hy : y % 10 = 0
      · rw [if_neg hx, if_pos hy] at h
        omega
      · rw [if_neg hx, if_neg hy] at h
        omega

def newDispatcher : HookDispatcher tens where
  filters := []
  subscriptions := []
  persistent := []
  cache := fun _ => none
  store := some []
  resolver := tensResolver

theorem newDispatcher_initial : newDispatcher.Initial := ⟨rfl, rfl, rfl⟩

/-- An entity event. -/
def entityCreated (namespaceId : ℕ) : MemoryEvent ℕ := ⟨"entity.created", namespaceId, "entity", []⟩

/-- A caller's filter and two registrations that pass it. -/
def sharedFilter (first second : ℕ) : List (HookAction tens) :=
  [.newFilter (.ofNamespace none), .subscribe 1 "entity.created" (some 0) (some first),
    .subscribe 2 "entity.created" (some 0) (some second)]

/-- One namespace: the first hook sees its events. -/
theorem hooks_isolated_sharedFilter :
    let s := Runs.run (HookDispatcher.step fun _ _ => some true) newDispatcher (sharedFilter 10 10)
    ⟨1, "entity.created", some 0, true, some 10⟩ ∈ (s.dispatch (fun _ _ => some true)
      (entityCreated 11) (fun _ => some true) fun _ => false).1.callbacks := by
  have hguard : Runs.Guarded (HookDispatcher.step fun _ _ => some true) HookDispatcher.Keeps
      newDispatcher (sharedFilter 10 10) := by
    refine ⟨trivial, ?_, ?_, trivial⟩
    · intro p hp
      cases hp
    · intro p hp
      obtain rfl := List.mem_singleton.mp hp
      intro _ m hm
      exact (Option.some.inj hm).symm
  have h := (hooks_isolated (fun _ _ => some true) newDispatcher_initial (sharedFilter 10 10)
    hguard (entityCreated 11) (fun _ => some true) fun _ => false).2.2 (fun _ => rfl) (by decide)
    1 (.inr rfl)
  exact h.1 _ (.head _) rfl rfl 10 rfl rfl rfl rfl

/-- **Two namespaces.**  The second registration re-scopes the filter of the first: its
hook is invoked for the other namespace and no longer for its own. -/
theorem sharedFilter_leaks :
    let s := Runs.run (HookDispatcher.step fun _ _ => some true) newDispatcher (sharedFilter 10 20)
    let hooks := fun e => (s.dispatch (fun _ _ => some true) (entityCreated e)
      (fun _ => some true) fun _ => false).1.callbacks.map fun sub => (sub.id, sub.registered)
    hooks 21 = [(1, some 10), (2, some 20)] ∧ hooks 11 = [] := by
  decide

end Khora
