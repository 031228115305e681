import Khora.Integrations.Documents
import Khora.Lib.Runs
import Khora.Lib.Separated
import Mathlib.Logic.Function.Basic

/-!
# The LangGraph store

`KhoraStore` keeps an item, under a namespace and a key, as a document whose external id is made of
both.  To overwrite an item it forgets the document and remembers a new one.

* `externalId_eq_iff` — which items have one external id.
* `refines_map` — in a run whose calls do not collide, and in which none fails between its two
  writes, every `aget` returns what a map from items to values returns.
* `aget_loses_value` — the two ways in which a value is lost.
-/

namespace Khora

/-! ## Items and external ids -/

/-- A namespace and a key. -/
@[ext]
structure LgItem where
  namespacePath : List (List Char)
  key : List Char
  deriving DecidableEq, Repr

inductive FlattenError where
  | emptyNamespace
  | emptySegment
  | segmentHoldsSep
  deriving DecidableEq, Repr

section Mapping

variable (sep : Char) (sha1 : List Char → List Char)

/-- What `flatten_namespace` raises for a segment. -/
def segmentError (segment : List Char) : Option FlattenError :=
  if segment = [] then some .emptySegment
  else if sep ∈ segment then some .segmentHoldsSep
  else none

/-- `flatten_namespace` -/
def flattenNamespace (namespacePath : List (List Char)) : Except FlattenError (List Char) :=
  if namespacePath = [] then .error .emptyNamespace
  else
    match namespacePath.findSome? (segmentError sep) with
    | some e => .error e
    | none => .ok ([sep].intercalate namespacePath)

def externalIdMaxLen : ℕ := 512

/-- `composite_external_id`; `sha1` gives the hex digest. -/
def compositeExternalId (flat key : List Char) : List Char :=
  let raw := flat ++ "::".toList ++ key
  if raw.length ≤ externalIdMaxLen then raw
  else 'h' :: sha1 flat ++ "::".toList ++ key

end Mapping

/-- The metadata of a document that the adapter reads. -/
structure LgMetadata (V : Type) where
  lgNamespace : Option (List (List Char))
  lgKey : Option (List Char)
  lgValue : V
  deriving DecidableEq, Repr

def itemMetadata {V : Type} (item : LgItem) (value : V) : LgMetadata V :=
  ⟨some item.namespacePath, some item.key, value⟩

/-- `item_from_metadata` -/
def itemFromMetadata {V : Type} (metadata : LgMetadata V) : Option (LgItem × V) :=
  match metadata.lgNamespace, metadata.lgKey with
  | some namespacePath, some key => some (⟨namespacePath, key⟩, metadata.lgValue)
  | _, _ => none

/-! ## The calls -/

/-- How an `aput` ends: a failing `forget` may have deleted the document, a failing `remember` may
have stored one. -/
inductive PutOutcome where
  | succeeds
  | forgetFails (deleted : Bool)
  | rememberFails (stored : Bool)
  deriving DecidableEq, Repr

/-- What a store is constructed with, and the functions of values that it uses. -/
structure KhoraStore (V H : Type) where
  namespaceSep : Char
  sha1 : List Char → List Char
  valueToContent : V → List Char
  stripNulValue : V → V
  checksum : List Char → H

namespace KhoraStore

variable {V H : Type} (store : KhoraStore V H)

/-- The documents of the store's khora namespace. -/
abbrev Docs (V : Type) := NamespaceDocuments (LgMetadata V) Unit

def ingest : Ingest (LgMetadata V) H where
  checksum := store.checksum
  stripNulJson m :=
    ⟨m.lgNamespace.map (List.map stripNul), m.lgKey.map stripNul, store.stripNulValue m.lgValue⟩

section Calls

variable [DecidableEq H]

/-- `remember` as `aput` calls it -/
def rememberItem (s : Docs V) (externalId : List Char) (item : LgItem) (value : V) : Docs V :=
  (s.remember store.ingest (store.valueToContent value) (itemMetadata item value) (some externalId)
    none).1

/-- `aput` behind the lookup and the `forget`: the documents, and whether the call returns. -/
def aputRemember (s : Docs V) (externalId : List Char) (item : LgItem) (value : V) :
    PutOutcome → Docs V × Bool
  | .rememberFails false => (s, false)
  | .rememberFails true => (store.rememberItem s externalId item value, false)
  | .succeeds | .forgetFails _ => (store.rememberItem s externalId item value, true)

/-- `aput`; `forget` is called, and can fail, only when there is a document. -/
def aput (s : Docs V) (item : LgItem) (value : V) (outcome : PutOutcome) : Docs V × Bool :=
  if item.key = [] then (s, false)
  else
    match flattenNamespace store.namespaceSep item.namespacePath with
    | .error _ => (s, false)
    | .ok flat =>
      let externalId := compositeExternalId store.sha1 flat item.key
      match s.getByExternalId externalId, outcome with
      | some existing, .forgetFails deleted => (if deleted then s.forget existing.id else s, false)
      | some existing, outcome =>
        store.aputRemember (s.forget existing.id) externalId item value outcome
      | none, outcome => store.aputRemember s externalId item value outcome

end Calls

/-- `aget` -/
def aget (s : Docs V) (item : LgItem) : Option V :=
  match flattenNamespace store.namespaceSep item.namespacePath with
  | .error _ => none
  | .ok flat =>
    match s.getByExternalId (compositeExternalId store.sha1 flat item.key) with
    | none => none
    | some document =>
      match itemFromMetadata document.metadata with
      | none => none
      | some (stored, value) => if stored.namespacePath = item.namespacePath then some value else none

/-- `adelete` -/
def adelete (s : Docs V) (item : LgItem) : Docs V :=
  match flattenNamespace store.namespaceSep item.namespacePath with
  | .error _ => s
  | .ok flat =>
    match s.getByExternalId (compositeExternalId store.sha1 flat item.key) with
    | none => s
    | some document => s.forget document.id

/-! ## Runs beside a map -/

/-- The documents, and the map that the store should be. -/
structure State (V : Type) where
  docs : Docs V
  map : LgItem → Option V

inductive Call (V : Type) where
  | aput (item : LgItem) (value : V) (outcome : PutOutcome)
  | adelete (item : LgItem)

def Call.item : Call V → LgItem
  | .aput item _ _ | .adelete item => item

def init : State V := ⟨.empty, fun _ => none⟩

def step [DecidableEq H] (s : State V) : Call V → State V
  | .aput item value outcome =>
    let result := store.aput s.docs item value outcome
    ⟨result.1, if result.2 then Function.update s.map item (some value) else s.map⟩
  | .adelete item => ⟨store.adelete s.docs item, Function.update s.map item none⟩

/-- The items of the calls: `flatten_namespace` accepts the namespace, and the key is not empty. -/
structure Accepted (item : LgItem) : Prop where
  nonempty : item.namespacePath ≠ []
  segments : ∀ segment ∈ item.namespacePath, segment ≠ [] ∧ store.namespaceSep ∉ segment
  key : item.key ≠ []

/-- Every `aget` of an accepted item returns what the map holds. -/
def Answers (s : State V) : Prop :=
  ∀ item, store.Accepted item → store.aget s.docs item = s.map item

/-! ## Collisions -/

def flat (item : LgItem) : List Char := [store.namespaceSep].intercalate item.namespacePath

/-- The external id is written out. -/
def Short (item : LgItem) : Prop :=
  (store.flat item ++ "::".toList ++ item.key).length ≤ externalIdMaxLen

instance (item : LgItem) : Decidable (store.Short item) := inferInstanceAs (Decidable (_ ≤ _))

/-- What stands before and behind the two colons. -/
def idPair (item : LgItem) : List Char × List Char :=
  (if store.Short item then store.flat item else 'h' :: store.sha1 (store.flat item), item.key)

def externalId (item : LgItem) : List Char := Separated.pair "::".toList (store.idPair item)

/-- Two colons at another place give one external id: they shift within a key or a namespace, or a
namespace is spelled like a digest, or two namespaces have one digest. -/
def Collides (i j : LgItem) : Prop :=
  (¬ (store.Short i ∧ store.Short j) ∧ store.idPair i = store.idPair j) ∨
    Separated.Shifts "::".toList (store.idPair i) (store.idPair j) ∨
    Separated.Shifts "::".toList (store.idPair j) (store.idPair i)

theorem compositeExternalId_flat (item : LgItem) :
    compositeExternalId store.sha1 (store.flat item) item.key = store.externalId item := by
  unfold externalId idPair Separated.pair
  by_cases h : store.Short item
  · rw [if_pos h]
    exact if_pos h
  · rw [if_neg h]
    exact if_neg h

/-- **Which items have one external id.** -/
theorem externalId_eq_iff {i j : LgItem} (hi : store.Accepted i) (hj : store.Accepted j)
    (hne : j ≠ i) : store.externalId i = store.externalId j ↔ store.Collides i j := by
  unfold externalId Collides
  rw [Separated.pair_eq_pair_iff]
  refine or_congr_left ⟨?_, And.right⟩
  intro heq
  refine ⟨?_, heq⟩
  rintro ⟨hsi, hsj⟩
  unfold idPair at heq
  rw [if_pos hsi, if_pos hsj, Prod.mk.injEq] at heq
  have hpath : i.namespacePath = j.namespacePath := by
    apply Separated.join_inj hi.nonempty hj.nonempty
    · exact fun segment h => (hi.segments segment h).2
    · exact fun segment h => (hj.segments segment h).2
    · exact heq.1
  exact hne (LgItem.ext hpath.symm heq.2.symm)

theorem flattenNamespace_accepted {item : LgItem} (h : store.Accepted item) :
    flattenNamespace store.namespaceSep item.namespacePath = .ok (store.flat item) := by
  have hnone : item.namespacePath.findSome? (segmentError store.namespaceSep) = none := by
    rw [List.findSome?_eq_none_iff]
    intro segment hs
    unfold segmentError
    rw [if_neg (h.segments segment hs).1, if_neg (h.segments segment hs).2]
  unfold flattenNamespace
  rw [if_neg h.nonempty, hnone]
  rfl

/-- Two keys of one namespace do not collide, unless the namespace begins as a digest does. -/
theorem not_collides_of_same_namespace {i j : LgItem} (hpath : j.namespacePath = i.namespacePath)
    (hempty : store.flat i ≠ []) (hhead : (store.flat i).head? ≠ some 'h') (hne : j ≠ i) :
    ¬ store.Collides i j := by
  have hflat : store.flat j = store.flat i := by
    unfold flat
    rw [hpath]
  have hdigest : ∀ t w, 'h' :: t ≠ store.flat i ++ w ∧ store.flat i ≠ 'h' :: t ++ w := by
    intro t w
    cases hf : store.flat i with
    | nil => exact absurd hf hempty
    | cons c f =>
      rw [hf] at hhead
      constructor
      · intro heq
        exact hhead (congrArg some (List.cons.inj heq).1.symm)
      · intro heq
        exact hhead (congrArg some (List.cons.inj heq).1)
  unfold Collides idPair
  rw [hflat]
  by_cases hi : store.Short i
  · by_cases hj : store.Short j
    · rw [if_pos hi, if_pos hj]
      rintro (⟨hlong, _⟩ | h | h)
      · exact hlong ⟨hi, hj⟩
      · exact Separated.not_shifts_of_fst_eq _ _ _ h
      · exact Separated.not_shifts_of_fst_eq _ _ _ h
    · rw [if_pos hi, if_neg hj]
      rintro (⟨_, heq⟩ | ⟨w, _, heq, _⟩ | ⟨w, _, heq, _⟩)
      · have heq := (Prod.mk.inj heq).1
        exact (hdigest (store.sha1 (store.flat i)) []).2 (heq.trans (List.append_nil _).symm)
      · exact (hdigest _ w).1 heq
      · exact (hdigest _ w).2 heq
  · by_cases hj : store.Short j
    · rw [if_neg hi, if_pos hj]
      rintro (⟨_, heq⟩ | ⟨w, _, heq, _⟩ | ⟨w, _, heq, _⟩)
      · have heq := (Prod.mk.inj heq).1
        exact (hdigest (store.sha1 (store.flat i)) []).2 (heq.symm.trans (List.append_nil _).symm)
      · exact (hdigest _ w).2 heq
      · exact (hdigest _ w).1 heq
    · rw [if_neg hi, if_neg hj]
      rintro (⟨_, heq⟩ | h | h)
      · exact hne (LgItem.ext hpath (Prod.mk.inj heq).2.symm)
      · exact Separated.not_shifts_of_fst_eq _ _ _ h
      · exact Separated.not_shifts_of_fst_eq _ _ _ h

/-! ## What is stored -/

/-- The document of an item. -/
def Keeps (s : Docs V) (item : LgItem) (value : V) : Prop :=
  ∃ d ∈ s.docs, d.externalId = some (store.externalId item) ∧ d.metadata = itemMetadata item value

def Stored (s : Docs V) (item : LgItem) : Prop := ∃ value, store.Keeps s item value

theorem itemMetadata_inj {i j : LgItem} {v w : V} (h : itemMetadata i v = itemMetadata j w) :
    i = j ∧ v = w := by
  unfold itemMetadata at h
  rw [LgMetadata.mk.injEq, Option.some.injEq, Option.some.injEq] at h
  exact ⟨LgItem.ext h.1 h.2.1, h.2.2⟩

theorem aget_accepted {s : Docs V} {item : LgItem} (h : store.Accepted item) :
    store.aget s item =
      (s.getByExternalId (store.externalId item)).bind fun document =>
        (itemFromMetadata document.metadata).bind fun unpacked =>
          if unpacked.1.namespacePath = item.namespacePath then some unpacked.2 else none := by
  unfold aget
  rw [store.flattenNamespace_accepted h]
  show (match s.getByExternalId (compositeExternalId store.sha1 (store.flat item) item.key) with
    | none => none
    | some document => _) = _
  rw [store.compositeExternalId_flat]
  cases s.getByExternalId (store.externalId item) with
  | none => rfl
  | some document =>
    show (match itemFromMetadata document.metadata with
      | none => none
      | some (stored, value) => _) = Option.bind (itemFromMetadata document.metadata) _
    cases itemFromMetadata document.metadata <;> rfl

theorem aget_of_keeps {s : Docs V} {item : LgItem} {value : V} (h : store.Accepted item)
    (hkeeps : store.Keeps s item value) : store.aget s item = some value := by
  obtain ⟨d, hd, hext, hmeta⟩ := hkeeps
  rw [store.aget_accepted h, NamespaceDocuments.getByExternalId_eq_some_iff.mpr ⟨hd, hext⟩]
  show (itemFromMetadata d.metadata).bind _ = some value
  rw [hmeta]
  exact if_pos rfl

/-- The documents are those of accepted items, the map is what they hold, and no item that collides
with one of them is in its namespace. -/
structure Inv (s : State V) : Prop where
  own : ∀ d ∈ s.docs.docs, ∃ i v, store.Accepted i ∧ d.externalId = some (store.externalId i) ∧
    d.metadata = itemMetadata i v
  map_iff : ∀ i, store.Accepted i → ∀ v, s.map i = some v ↔ store.Keeps s.docs i v
  apart : ∀ i j, store.Accepted i → store.Accepted j → store.Stored s.docs i → j ≠ i →
    store.Collides i j → j.namespacePath ≠ i.namespacePath

theorem inv_init : store.Inv (init : State V) := by
  refine ⟨?_, ?_, ?_⟩
  · intro d hd
    cases hd
  · intro i _ v
    constructor
    · intro h
      cases h
    · rintro ⟨d, hd, _⟩
      cases hd
  · rintro i j _ _ ⟨v, d, hd, _⟩
    cases hd

/-- **The invariant gives the answers.** -/
theorem Inv.answers {s : State V} (h : store.Inv s) : store.Answers s := by
  intro i hi
  cases hmap : s.map i with
  | some v => exact store.aget_of_keeps hi ((h.map_iff i hi v).mp hmap)
  | none =>
    rw [store.aget_accepted hi]
    cases hget : s.docs.getByExternalId (store.externalId i) with
    | none => rfl
    | some d =>
      rw [NamespaceDocuments.getByExternalId_eq_some_iff] at hget
      obtain ⟨j, v, hj, hext, hmeta⟩ := h.own d hget.1
      have hkeeps : store.Keeps s.docs j v := ⟨d, hget.1, hext, hmeta⟩
      have hne : i ≠ j := by
        rintro rfl
        rw [(h.map_iff i hi v).mpr hkeeps] at hmap
        cases hmap
      have hsame : store.externalId j = store.externalId i := Option.some.inj (hext.symm.trans hget.2)
      have hcollides := (store.externalId_eq_iff hj hi hne).mp hsame
      have hpath := h.apart j i hj hi ⟨v, hkeeps⟩ hne hcollides
      show (itemFromMetadata d.metadata).bind _ = none
      rw [hmeta]
      exact if_neg (Ne.symm hpath)

/-! ## When a call goes well -/

/-- No NUL byte is stripped from what is stored. -/
structure NulFree (item : LgItem) (value : V) : Prop where
  flat : '\x00' ∉ store.flat item
  key : '\x00' ∉ item.key
  value : store.stripNulValue value = value

/-- The items that collide with this one are in other namespaces, and none of them is stored. -/
def Unshared (s : Docs V) (item : LgItem) : Prop :=
  ∀ j, store.Accepted j → j ≠ item → store.Collides item j →
    j.namespacePath ≠ item.namespacePath ∧ ¬ store.Stored s j

/-- The item, or one that collides with it, is stored. -/
def Taken (s : Docs V) (item : LgItem) : Prop :=
  ∃ j, store.Accepted j ∧ (j = item ∨ store.Collides item j) ∧ store.Stored s j

/-- The condition on a call: an `aput` that returns stores texts without NUL and shares its external
id with no stored item, one that raises has not deleted a document and leaves none but that of the
value that was there, and an `adelete` shares its external id with no other stored item. -/
def Meets (s : State V) : Call V → Prop
  | .aput item value .succeeds => store.NulFree item value ∧ store.Unshared s.docs item
  | .aput item value (.forgetFails deleted) =>
    (store.Taken s.docs item ∧ deleted = false) ∨
      (¬ store.Taken s.docs item ∧ store.NulFree item value ∧ store.Unshared s.docs item)
  | .aput item _ (.rememberFails false) => ¬ store.Taken s.docs item
  | .aput item value (.rememberFails true) =>
    store.Keeps s.docs item value ∧ store.NulFree item value ∧ store.Unshared s.docs item
  | .adelete item => ∀ j, store.Accepted j → j ≠ item → store.Collides item j → ¬ store.Stored s.docs j

/-- Under the invariant, the external id is found exactly when it is taken. -/
theorem Inv.getByExternalId_isSome_iff {s : State V} (h : store.Inv s) {item : LgItem}
    (hitem : store.Accepted item) :
    (∃ d, s.docs.getByExternalId (store.externalId item) = some d) ↔ store.Taken s.docs item := by
  constructor
  · rintro ⟨d, hget⟩
    rw [NamespaceDocuments.getByExternalId_eq_some_iff] at hget
    obtain ⟨j, v, hj, hext, hmeta⟩ := h.own d hget.1
    refine ⟨j, hj, ?_, v, d, hget.1, hext, hmeta⟩
    by_cases hne : j = item
    · exact Or.inl hne
    · have hsame := Option.some.inj (hget.2.symm.trans hext)
      exact Or.inr ((store.externalId_eq_iff hitem hj hne).mp hsame)
  · rintro ⟨j, hj, hor, v, d, hd, hext, _⟩
    refine ⟨d, NamespaceDocuments.getByExternalId_eq_some_iff.mpr ⟨hd, ?_⟩⟩
    rw [hext, Option.some.injEq]
    by_cases hne : j = item
    · rw [hne]
    · rcases hor with heq | hcollides
      · exact absurd heq hne
      · exact ((store.externalId_eq_iff hitem hj hne).mpr hcollides).symm

/-- Another item that is stored has another external id. -/
theorem externalId_ne_of_stored {s : Docs V} {item j : LgItem} (hitem : store.Accepted item)
    (hj : store.Accepted j) (hne : j ≠ item) (hstored : store.Stored s j)
    (h : ∀ j, store.Accepted j → j ≠ item → store.Collides item j → ¬ store.Stored s j) :
    store.externalId j ≠ store.externalId item := by
  intro heq
  exact h j hj hne ((store.externalId_eq_iff hitem hj hne).mp heq.symm) hstored

/-! ## What one call keeps -/

/-- The digest is written in hexadecimal digits. -/
def HexDigest : Prop := ∀ t, ∀ c ∈ store.sha1 t, c ∈ "0123456789abcdef".toList

theorem nul_notMem_externalId (hhex : store.HexDigest) {item : LgItem} {value : V}
    (h : store.NulFree item value) : '\x00' ∉ store.externalId item := by
  intro hmem
  unfold externalId Separated.pair at hmem
  rw [List.mem_append, List.mem_append] at hmem
  rcases hmem with (hhead | hcolon) | hkey
  · unfold idPair at hhead
    split at hhead
    · exact h.flat hhead
    · rcases List.mem_cons.mp hhead with heq | hdigest
      · exact absurd heq (by decide)
      · exact absurd (hhex _ _ hdigest) (by decide)
  · exact absurd hcolon (by decide)
  · exact h.key hkey

theorem stripNulJson_itemMetadata {item : LgItem} {value : V} (h : store.NulFree item value) :
    store.ingest.stripNulJson (itemMetadata item value) = itemMetadata item value := by
  have hpath : item.namespacePath.map stripNul = item.namespacePath := by
    refine (List.map_congr_left ?_).trans (List.map_id _)
    intro segment hs
    apply stripNul_eq_self_iff.mpr
    exact fun hmem => h.flat (Separated.mem_join_of_mem hs hmem)
  show LgMetadata.mk (some (item.namespacePath.map stripNul)) (some (stripNul item.key))
    (store.stripNulValue value) = _
  rw [hpath, stripNul_eq_self_iff.mpr h.key, h.value]
  rfl

/-- **Under a free external id, `remember` stores the item beside the documents.** -/
theorem docs_rememberItem [DecidableEq H] (hhex : store.HexDigest) {s : Docs V} {item : LgItem} {value : V}
    (h : store.NulFree item value)
    (hfree : ∀ d ∈ s.docs, d.externalId ≠ some (store.externalId item)) :
    ∃ d, d.externalId = some (store.externalId item) ∧ d.metadata = itemMetadata item value ∧
      (store.rememberItem s (store.externalId item) item value).docs = d :: s.docs := by
  have hstrip := stripNul_eq_self_iff.mpr (store.nul_notMem_externalId hhex h)
  have hunclaimed : s.Unclaimed (some (stripNul (store.externalId item))) := by
    rw [hstrip, NamespaceDocuments.unclaimed_iff]
    intro d hd x hx heq
    rw [Option.mem_some_iff] at hx
    exact hfree d hd (hx ▸ heq)
  refine ⟨_, ?_, ?_, NamespaceDocuments.remember_unclaimed hunclaimed⟩
  · exact congrArg some hstrip
  · exact store.stripNulJson_itemMetadata h

/-- Forgetting what is under the external id keeps the invariant, with the item gone. -/
theorem Inv.forget {s : State V} (h : store.Inv s) {item : LgItem} (hitem : store.Accepted item)
    (hclear : ∀ j, store.Accepted j → j ≠ item → store.Collides item j → ¬ store.Stored s.docs j)
    {docs : Docs V}
    (hdocs : ∀ d, d ∈ docs.docs ↔ d ∈ s.docs.docs ∧ d.externalId ≠ some (store.externalId item)) :
    store.Inv ⟨docs, Function.update s.map item none⟩ := by
  have hkeeps : ∀ j v, store.Keeps docs j v → store.Keeps s.docs j v := by
    rintro j v ⟨d, hd, hkept⟩
    exact ⟨d, ((hdocs d).mp hd).1, hkept⟩
  refine ⟨?_, ?_, ?_⟩
  · intro d hd
    exact h.own d ((hdocs d).mp hd).1
  · intro j hj v
    show Function.update s.map item none j = some v ↔ store.Keeps docs j v
    by_cases hne : j = item
    · subst hne
      rw [Function.update_self]
      refine iff_of_false (by simp) ?_
      rintro ⟨d, hd, hext, _⟩
      exact ((hdocs d).mp hd).2 hext
    · rw [Function.update_of_ne hne, h.map_iff j hj v]
      refine ⟨?_, hkeeps j v⟩
      rintro ⟨d, hd, hext, hmeta⟩
      refine ⟨d, (hdocs d).mpr ⟨hd, ?_⟩, hext, hmeta⟩
      rw [hext, ne_eq, Option.some.injEq]
      exact store.externalId_ne_of_stored hitem hj hne ⟨v, d, hd, hext, hmeta⟩ hclear
  · rintro i j hi hj ⟨v, hv⟩ hne hcollides
    exact h.apart i j hi hj ⟨v, hkeeps i v hv⟩ hne hcollides

/-- Storing an item in the place of what was under its external id keeps the invariant. -/
theorem Inv.keep {s : State V} (h : store.Inv s) {item : LgItem} (hitem : store.Accepted item)
    (hunshared : store.Unshared s.docs item) {value : V} {docs : Docs V}
    {new : NamespaceDocument (LgMetadata V) Unit}
    (hext : new.externalId = some (store.externalId item)) (hmeta : new.metadata = itemMetadata item value)
    (hdocs : ∀ d, d ∈ docs.docs ↔
      d = new ∨ d ∈ s.docs.docs ∧ d.externalId ≠ some (store.externalId item)) :
    store.Inv ⟨docs, Function.update s.map item (some value)⟩ := by
  have hnew : ∀ j v, store.Keeps docs j v → j = item ∧ v = value ∨ store.Keeps s.docs j v := by
    rintro j v ⟨d, hd, hdext, hdmeta⟩
    rcases (hdocs d).mp hd with rfl | hd
    · exact Or.inl (itemMetadata_inj (hdmeta.symm.trans hmeta))
    · exact Or.inr ⟨d, hd.1, hdext, hdmeta⟩
  refine ⟨?_, ?_, ?_⟩
  · intro d hd
    rcases (hdocs d).mp hd with rfl | hd
    · exact ⟨item, value, hitem, hext, hmeta⟩
    · exact h.own d hd.1
  · intro j hj v
    show Function.update s.map item (some value) j = some v ↔ store.Keeps docs j v
    by_cases hne : j = item
    · subst hne
      rw [Function.update_self, Option.some.injEq]
      constructor
      · rintro rfl
        exact ⟨new, (hdocs new).mpr (Or.inl rfl), hext, hmeta⟩
      · rintro ⟨d, hd, hdext, hdmeta⟩
        rcases (hdocs d).mp hd with rfl | hd
        · exact (itemMetadata_inj (hdmeta.symm.trans hmeta)).2.symm
        · exact absurd hdext hd.2
    · rw [Function.update_of_ne hne, h.map_iff j hj v]
      constructor
      · rintro ⟨d, hd, hdext, hdmeta⟩
        refine ⟨d, (hdocs d).mpr (Or.inr ⟨hd, ?_⟩), hdext, hdmeta⟩
        rw [hdext, ne_eq, Option.some.injEq]
        apply store.externalId_ne_of_stored hitem hj hne ⟨v, d, hd, hdext, hdmeta⟩
        exact fun k hk hkne hcollides => (hunshared k hk hkne hcollides).2
      · intro hkeeps
        rcases hnew j v hkeeps with ⟨heq, _⟩ | hkeeps
        · exact absurd heq hne
        · exact hkeeps
  · rintro i j hi hj ⟨v, hv⟩ hne hcollides
    rcases hnew i v hv with ⟨rfl, _⟩ | hv
    · exact (hunshared j hj hne hcollides).1
    · exact h.apart i j hi hj ⟨v, hv⟩ hne hcollides

/-- What is left behind the lookup and the `forget`. -/
def clear (s : Docs V) (item : LgItem) : Docs V :=
  match s.getByExternalId (store.externalId item) with
  | none => s
  | some document => s.forget document.id

theorem mem_clear {s : Docs V} {item : LgItem} {d : NamespaceDocument (LgMetadata V) Unit} :
    d ∈ (store.clear s item).docs ↔ d ∈ s.docs ∧ d.externalId ≠ some (store.externalId item) := by
  unfold clear
  cases hget : s.getByExternalId (store.externalId item) with
  | none => exact ⟨fun hd => ⟨hd, NamespaceDocuments.getByExternalId_eq_none_iff.mp hget d hd⟩, And.left⟩
  | some document => exact NamespaceDocuments.mem_forget_found hget

theorem adelete_accepted {s : Docs V} {item : LgItem} (h : store.Accepted item) :
    store.adelete s item = store.clear s item := by
  unfold adelete clear
  rw [store.flattenNamespace_accepted h, ← store.compositeExternalId_flat]

/-- An `aput` clears the external id and remembers the item, unless its `forget` fails. -/
theorem aput_accepted [DecidableEq H] {s : Docs V} {item : LgItem} {value : V} {outcome : PutOutcome}
    (h : store.Accepted item) :
    store.aput s item value outcome =
      match s.getByExternalId (store.externalId item), outcome with
      | some existing, .forgetFails deleted => (if deleted then s.forget existing.id else s, false)
      | _, outcome =>
        store.aputRemember (store.clear s item) (store.externalId item) item value outcome := by
  unfold aput clear
  rw [if_neg h.key, store.flattenNamespace_accepted h, ← store.compositeExternalId_flat]
  cases hget : s.getByExternalId (compositeExternalId store.sha1 (store.flat item) item.key) with
  | none => simp only [hget]
  | some existing => cases outcome <;> simp only [hget]

theorem Inv.rememberItem [DecidableEq H] (hhex : store.HexDigest) {s : State V} (h : store.Inv s)
    {item : LgItem} (hitem : store.Accepted item) {value : V} (hnul : store.NulFree item value)
    (hunshared : store.Unshared s.docs item) :
    store.Inv ⟨store.rememberItem (store.clear s.docs item) (store.externalId item) item value,
      Function.update s.map item (some value)⟩ := by
  obtain ⟨new, hext, hmeta, hdocs⟩ :=
    store.docs_rememberItem hhex hnul fun d hd => (store.mem_clear.mp hd).2
  apply h.keep store hitem hunshared hext hmeta
  intro d
  rw [hdocs, List.mem_cons, store.mem_clear]

/-- **One call that meets the condition keeps the invariant.** -/
theorem Inv.step [DecidableEq H] (hhex : store.HexDigest) {s : State V} {call : Call V}
    (hitem : store.Accepted call.item) (h : store.Inv s) (hmeets : store.Meets s call) :
    store.Inv (store.step s call) := by
  cases call with
  | adelete item =>
    replace hitem : store.Accepted item := hitem
    show store.Inv ⟨store.adelete s.docs item, Function.update s.map item none⟩
    rw [store.adelete_accepted hitem]
    exact h.forget store hitem hmeets fun d => store.mem_clear
  | aput item value outcome =>
    replace hitem : store.Accepted item := hitem
    show store.Inv ⟨(store.aput s.docs item value outcome).1,
      if (store.aput s.docs item value outcome).2 then _ else s.map⟩
    rw [store.aput_accepted hitem]
    have htaken := h.getByExternalId_isSome_iff store hitem
    cases outcome with
    | succeeds =>
      cases s.docs.getByExternalId (store.externalId item) <;>
        exact h.rememberItem store hhex hitem hmeets.1 hmeets.2
    | forgetFails deleted =>
      cases hget : s.docs.getByExternalId (store.externalId item) with
      | none =>
        rcases hmeets with ⟨hheld, _⟩ | ⟨_, hnul, hunshared⟩
        · obtain ⟨d, hd⟩ := htaken.mpr hheld
          rw [hget] at hd
          cases hd
        · exact h.rememberItem store hhex hitem hnul hunshared
      | some existing =>
        rcases hmeets with ⟨_, rfl⟩ | ⟨hfree, _⟩
        · exact h
        · exact absurd (htaken.mp ⟨existing, hget⟩) hfree
    | rememberFails stored =>
      cases stored with
      | false =>
        have hnone : s.docs.getByExternalId (store.externalId item) = none := by
          cases hget : s.docs.getByExternalId (store.externalId item) with
          | none => rfl
          | some existing => exact absurd (htaken.mp ⟨existing, hget⟩) hmeets
        have hclear : store.clear s.docs item = s.docs := by
          unfold clear
          rw [hnone]
        rw [hnone]
        show store.Inv ⟨store.clear s.docs item, s.map⟩
        rw [hclear]
        exact h
      | true =>
        have hmap : Function.update s.map item (some value) = s.map := by
          rw [← (h.map_iff item hitem value).mpr hmeets.1, Function.update_eq_self]
        have hkept := h.rememberItem store hhex hitem hmeets.2.1 hmeets.2.2
        rw [hmap] at hkept
        cases s.docs.getByExternalId (store.externalId item) <;> exact hkept

/-- **`KhoraStore` refines a map**: in a run of calls that meet the condition, every `aget` returns
what the map holds, in every state reached. -/
theorem refines_map [DecidableEq H] (hhex : store.HexDigest) {calls : List (Call V)}
    (hitems : ∀ call ∈ calls, store.Accepted call.item)
    (h : Runs.Guarded store.step store.Meets init calls) :
    Runs.Always store.step store.Answers init calls := by
  have hstep : ∀ (s : State V) (call : Call V), store.Accepted call.item → store.Inv s →
      store.Meets s call → store.Inv (store.step s call) :=
    fun s call hitem hinv hmeets => hinv.step store hhex hitem hmeets
  exact Runs.always_of_guarded hstep (fun s hinv => hinv.answers store) hitems store.inv_init h

end KhoraStore

/-! ## Runs that lose a value -/

/-- A store of numbers. -/
def numberStore : KhoraStore ℕ (List Char) where
  namespaceSep := '/'
  sha1 _ := List.replicate 40 '0'
  valueToContent n := (toString n).toList
  stripNulValue := id
  checksum := id

def longKey : LgItem := ⟨["a".toList], "b::c".toList⟩

def longNamespace : LgItem := ⟨["a::b".toList], "c".toList⟩

def collidingPuts : KhoraStore.State ℕ :=
  Runs.run numberStore.step KhoraStore.init
    [.aput longKey 1 .succeeds, .aput longNamespace 2 .succeeds]

def failingPut : KhoraStore.State ℕ :=
  Runs.run numberStore.step KhoraStore.init
    [.aput longKey 1 .succeeds, .aput longKey 2 (.rememberFails false)]

/-- A put under one item that takes the place of another, and a put that fails behind its `forget`. -/
theorem aget_loses_value :
    (numberStore.aget collidingPuts.docs longKey = none ∧ collidingPuts.map longKey = some 1) ∧
      numberStore.aget failingPut.docs longKey = none ∧ failingPut.map longKey = some 1 := by
  decide

theorem refines_map_put_delete :
    Runs.Guarded numberStore.step numberStore.Meets KhoraStore.init
        [.aput longKey 1 .succeeds, .adelete longKey] ∧
      Runs.Always numberStore.step numberStore.Answers KhoraStore.init
        [.aput longKey 1 .succeeds, .adelete longKey] := by
  have hguarded : Runs.Guarded numberStore.step numberStore.Meets KhoraStore.init
      [.aput longKey 1 .succeeds, .adelete longKey] := by
    refine ⟨⟨⟨by decide, by decide, rfl⟩, ?_⟩, ?_, trivial⟩
    · intro j _ hne hcollides
      refine ⟨?_, ?_⟩
      · intro hpath
        exact numberStore.not_collides_of_same_namespace hpath (by decide) (by decide) hne hcollides
      · rintro ⟨v, d, hd, _⟩
        cases hd
    · rintro j _ hne _ ⟨v, d, hd, _, hmeta⟩
      have hdocs : (numberStore.step KhoraStore.init (.aput longKey 1 .succeeds)).docs.docs.map
          NamespaceDocument.metadata = [itemMetadata longKey 1] := by decide
      have hmem := List.mem_map_of_mem (f := NamespaceDocument.metadata) hd
      rw [hdocs, List.mem_singleton, hmeta] at hmem
      exact hne (KhoraStore.itemMetadata_inj hmem).1
  refine ⟨hguarded, numberStore.refines_map ?_ ?_ hguarded⟩
  · intro t c hc
    rw [List.eq_of_mem_replicate hc]
    decide
  · intro call hcall
    have hitem : call.item = longKey := by
      rcases List.mem_cons.mp hcall with rfl | hcall
      · rfl
      · rw [List.mem_singleton.mp hcall]
        rfl
    rw [hitem]
    exact ⟨by decide, by decide, by decide⟩

end Khora
