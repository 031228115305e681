import Khora.Integrations.CrewaiStorage
import Khora.Lib.Table
import Mathlib.Data.List.Nodup

/-!
# Records through the CrewAI adapter and back

A record is written as a document under its own id, and what is read back takes its id from the
metadata, where the adapter does not put it, or else from the document.

* `sameRecord_iff` — the records that come back as they were.
* `roundTrip_iff` — saved records come back through the backend that saved them exactly if each is one
  of these; and no record that a fresh backend returns can be deleted through it.
* `recordId_lost` — a record that comes back under the id of its document.
-/

namespace Khora

/-- The public fields agree, and the metadata as dicts. -/
structure SameRecord {V : Type} (x r : MemoryRecord V) : Prop where
  id : x.id = r.id
  content : x.content = r.content
  scope : x.scope = r.scope
  categories : x.categories = r.categories
  importance : x.importance = r.importance
  metadata : ∀ k, x.metadata.get? k = r.metadata.get? k
  source : x.source = r.source
  isPrivate : x.isPrivate = r.isPrivate

namespace KhoraStorageBackend

variable {W V U H K : Type} (backend : KhoraStorageBackend W V U H)

/-! ## Encoding and decoding -/

/-- `record.metadata` has no key of the adapter and nothing that is stripped, and under `session_id` what the
scope says. -/
structure PlainMetadata (record : MemoryRecord V) : Prop where
  noKeys : ∀ k ∈ record.metadata.keys, ("crewai_".toList).isPrefixOf k = false
  nulFree : ∀ k ∈ record.metadata.keys, '\x00' ∉ k
  stripped : ∀ e ∈ record.metadata.items, backend.stripValue e.2 = e.2
  session : ∀ u, backend.sessionIdFromScope record.scope = some u →
    record.metadata.get? "session_id".toList = some (.text (backend.showUuid u))

/-- The record comes back as it was from a document with the id `documentId`. -/
structure Faithful (documentId : ℕ) (record : MemoryRecord V) : Prop where
  listed : backend.isRowId = true
  content : '\x00' ∉ record.content
  scope : record.scope ≠ [] ∧ '\x00' ∉ record.scope
  categories : ∀ c ∈ record.categories, '\x00' ∉ c
  importance : backend.stripValue record.importance = record.importance
  source : backend.stripValue record.source = record.source
  isPrivate : backend.stripValue record.isPrivate = record.isPrivate
  metadata : backend.PlainMetadata record
  id : backend.recordIdOf record.metadata documentId = record.id

/-- The keys of the adapter. -/
def crewaiKeys : List (List Char) :=
  [keyScope, keyCategories, keyImportance, keySource, keyPrivate, keyCreatedAt, keyLastAccessed, keyUserId,
    keyAppId]

theorem crewaiKeys_prefixed {k : List Char} (h : k ∈ crewaiKeys) : ("crewai_".toList).isPrefixOf k = true := by
  revert k
  decide

theorem crewaiKeys_nulFree {k : List Char} (h : k ∈ crewaiKeys) : '\x00' ∉ k := by
  revert k
  decide

theorem stripNul_nulFree (s : List Char) : '\x00' ∉ stripNul s := by
  simp [stripNul]

section Lookup

variable (who : W) (record : MemoryRecord V)

/-- No key that is written has a NUL. -/
theorem nulFree_rememberMetadata {k : List Char} (h : '\x00' ∈ k) :
    (backend.rememberMetadata who record).get? k = none := by
  have hstrip : ∀ metadata : CrewMetadata V, (backend.stripMetadata metadata).get? k = none := by
    intro metadata
    rw [OrderedDict.get?_eq_none_iff]
    intro hk
    rcases OrderedDict.mem_keys_update hk with hk | hk
    · cases hk
    · simp only [List.map_map, List.mem_map] at hk
      obtain ⟨e, -, rfl⟩ := hk
      exact stripNul_nulFree _ h
  unfold rememberMetadata
  simp only
  cases backend.sessionIdFromScope record.scope with
  | none => exact hstrip _
  | some u =>
    simp only
    rw [OrderedDict.get?_set, if_neg ?_, hstrip]
    rintro rfl
    revert h
    decide

variable {record}

/-- **The metadata that is written**, if the keys of the record meet neither each other nor those of the
adapter. -/
theorem items_stripMetadata (hkeys : ∀ k ∈ record.metadata.keys, ("crewai_".toList).isPrefixOf k = false)
    (hnul : ∀ k ∈ record.metadata.keys, '\x00' ∉ k) :
    (backend.stripMetadata (record.metadata.update (backend.crewaiMeta who record))).items =
      (record.metadata.items ++ backend.crewaiMeta who record).map fun e => (e.1, backend.stripValue e.2) := by
  have hmeta : (backend.crewaiMeta who record).map Prod.fst = crewaiKeys := rfl
  have hnodup : (record.metadata.keys ++ (backend.crewaiMeta who record).map Prod.fst).Nodup := by
    rw [hmeta, List.nodup_append]
    refine ⟨record.metadata.nodup, by decide, ?_⟩
    rintro k hk _ hk' rfl
    have hpre := hkeys k hk
    rw [crewaiKeys_prefixed hk'] at hpre
    cases hpre
  have hstrip : (record.metadata.items ++ backend.crewaiMeta who record).map (fun e =>
      (stripNul e.1, backend.stripValue e.2)) =
      (record.metadata.items ++ backend.crewaiMeta who record).map fun e => (e.1, backend.stripValue e.2) := by
    refine List.map_congr_left fun e he => ?_
    rw [stripNul_eq_self_iff.mpr]
    rcases List.mem_append.mp he with he | he
    · exact hnul _ (List.mem_map_of_mem he)
    · exact crewaiKeys_nulFree (hmeta ▸ List.mem_map_of_mem he)
  unfold stripMetadata
  rw [OrderedDict.items_update hnodup, hstrip, OrderedDict.items_update]
  · rfl
  · show (List.map Prod.fst (List.map _ _)).Nodup
    rw [List.map_map]
    have hkept : (Prod.fst ∘ fun e : List Char × CrewValue V => (e.1, backend.stripValue e.2)) = Prod.fst := rfl
    rw [hkept, List.map_append]
    exact hnodup

/-- Every entry is written stripped, but for the session. -/
theorem get?_rememberMetadata (hkeys : ∀ k ∈ record.metadata.keys, ("crewai_".toList).isPrefixOf k = false)
    (hnul : ∀ k ∈ record.metadata.keys, '\x00' ∉ k) {e : List Char × CrewValue V}
    (he : e ∈ record.metadata.items ++ backend.crewaiMeta who record)
    (hsession : e.1 = "session_id".toList → backend.sessionIdFromScope record.scope = none) :
    (backend.rememberMetadata who record).get? e.1 = some (backend.stripValue e.2) := by
  have hget : (backend.stripMetadata (record.metadata.update (backend.crewaiMeta who record))).get? e.1 =
      some (backend.stripValue e.2) := by
    rw [OrderedDict.get?_eq_some_iff, items_stripMetadata backend who hkeys hnul]
    exact List.mem_map_of_mem he
  unfold rememberMetadata
  simp only
  cases hu : backend.sessionIdFromScope record.scope with
  | none => exact hget
  | some u =>
    simp only
    rw [OrderedDict.get?_set, if_neg ?_, hget]
    intro heq
    rw [hsession heq] at hu
    cases hu

/-- What is written comes from an entry, or is the session. -/
theorem entry_rememberMetadata (hkeys : ∀ k ∈ record.metadata.keys, ("crewai_".toList).isPrefixOf k = false)
    (hnul : ∀ k ∈ record.metadata.keys, '\x00' ∉ k) {k : List Char} {v : CrewValue V}
    (h : (backend.rememberMetadata who record).get? k = some v) :
    k ∈ record.metadata.keys ∨ k ∈ crewaiKeys ∨
      k = "session_id".toList ∧ ∃ u, backend.sessionIdFromScope record.scope = some u := by
  have hget : ∀ w, (backend.stripMetadata (record.metadata.update (backend.crewaiMeta who record))).get? k = some w →
      k ∈ record.metadata.keys ∨ k ∈ crewaiKeys := by
    intro w hw
    rw [OrderedDict.get?_eq_some_iff, items_stripMetadata backend who hkeys hnul] at hw
    obtain ⟨e, he, heq⟩ := List.mem_map.mp hw
    obtain rfl : e.1 = k := congrArg Prod.fst heq
    exact (List.mem_append.mp he).imp List.mem_map_of_mem fun he => List.mem_map_of_mem he
  unfold rememberMetadata at h
  simp only at h
  cases hu : backend.sessionIdFromScope record.scope with
  | none =>
    rw [hu] at h
    exact (hget v h).imp_right .inl
  | some u =>
    rw [hu] at h
    simp only [OrderedDict.get?_set] at h
    split at h
    case isTrue hk => exact .inr (.inr ⟨hk, u, rfl⟩)
    case isFalse => exact (hget v h).imp_right .inl

end Lookup

/-- What is read from the document of a record. -/
def readBack (who : W) (documentId : ℕ) (time : CrewValue V) (record : MemoryRecord V) : MemoryRecord V :=
  backend.chunkToRecord documentId ⟨stripNul record.content, backend.rememberMetadata who record, time⟩
    (backend.rememberMetadata who record)

theorem get?_readBack (who : W) (documentId : ℕ) (time : CrewValue V) (record : MemoryRecord V) (k : List Char) :
    (backend.readBack who documentId time record).metadata.get? k =
      if ("crewai_".toList).isPrefixOf k then none else (backend.rememberMetadata who record).get? k :=
  OrderedDict.get?_eraseWhere ..

/-- The session of the scope is written over whatever the metadata has. -/
theorem get?_session {who : W} {record : MemoryRecord V} {u : U} (hu : backend.sessionIdFromScope record.scope = some u) :
    (backend.rememberMetadata who record).get? "session_id".toList = some (.text (backend.showUuid u)) := by
  rw [rememberMetadata, hu]
  exact (OrderedDict.get?_set ..).trans (if_pos rfl)

theorem plain_of_readBack {who : W} {documentId : ℕ} {time : CrewValue V} {record : MemoryRecord V}
    (h : ∀ k, (backend.readBack who documentId time record).metadata.get? k = record.metadata.get? k) :
    backend.PlainMetadata record := by
  simp only [get?_readBack] at h
  have hkeys : ∀ k ∈ record.metadata.keys, ("crewai_".toList).isPrefixOf k = false := by
    intro k hk
    by_contra hpre
    have hnone := h k
    rw [if_pos (by simpa using hpre), eq_comm, OrderedDict.get?_eq_none_iff] at hnone
    exact hnone hk
  have hnul : ∀ k ∈ record.metadata.keys, '\x00' ∉ k := by
    intro k hk hmem
    have hnone := h k
    rw [if_neg (hkeys k hk ▸ Bool.false_ne_true), nulFree_rememberMetadata backend who record hmem, eq_comm,
      OrderedDict.get?_eq_none_iff] at hnone
    exact hnone hk
  have hsession : ∀ u, backend.sessionIdFromScope record.scope = some u →
      record.metadata.get? "session_id".toList = some (.text (backend.showUuid u)) := by
    intro u hu
    rw [← h, if_neg (by decide), get?_session backend hu]
  refine ⟨hkeys, hnul, ?_, hsession⟩
  intro e he
  have hget := OrderedDict.get?_eq_some_iff.mpr he
  by_cases hs : e.1 = "session_id".toList → backend.sessionIdFromScope record.scope = none
  · have hk := h e.1
    rw [if_neg (hkeys _ (List.mem_map_of_mem he) ▸ Bool.false_ne_true), hget,
      get?_rememberMetadata backend who hkeys hnul (List.mem_append_left _ he) hs] at hk
    exact Option.some.inj hk
  · -- the session that the scope names is a text without NUL
    obtain ⟨hk, hu⟩ := Classical.not_imp.mp hs
    obtain ⟨u, hu⟩ := Option.ne_none_iff_exists'.mp hu
    rw [hk, hsession u hu] at hget
    rw [← Option.some.inj hget]
    exact congrArg CrewValue.text (stripNul_eq_self_iff.mpr (backend.nulFree u))

theorem readBack_of_plain (who : W) (documentId : ℕ) (time : CrewValue V) {record : MemoryRecord V}
    (h : backend.PlainMetadata record) (k : List Char) :
    (backend.readBack who documentId time record).metadata.get? k = record.metadata.get? k := by
  obtain ⟨hkeys, hnul, hstripped, hsession⟩ := h
  rw [get?_readBack]
  cases hpre : ("crewai_".toList).isPrefixOf k with
  | true =>
    rw [if_pos rfl, eq_comm, OrderedDict.get?_eq_none_iff]
    intro hk
    rw [hkeys k hk] at hpre
    cases hpre
  | false =>
    have houter : k ∉ crewaiKeys := by
      intro hmem
      rw [crewaiKeys_prefixed hmem] at hpre
      cases hpre
    rw [if_neg (by simp)]
    by_cases hs : k = "session_id".toList → backend.sessionIdFromScope record.scope = none
    · cases hk : record.metadata.get? k with
      | none =>
        rw [← Option.not_isSome_iff_eq_none, Option.isSome_iff_exists]
        rintro ⟨v, hv⟩
        rcases entry_rememberMetadata backend who hkeys hnul hv with h | h | ⟨h, u, hu⟩
        · exact OrderedDict.get?_eq_none_iff.mp hk h
        · exact houter h
        · rw [hs h] at hu
          cases hu
      | some v =>
        have he := OrderedDict.get?_eq_some_iff.mp hk
        rw [get?_rememberMetadata backend who hkeys hnul (List.mem_append_left _ he) hs, hstripped _ he]
    · obtain ⟨rfl, hu⟩ := Classical.not_imp.mp hs
      obtain ⟨u, hu⟩ := Option.ne_none_iff_exists'.mp hu
      rw [hsession u hu, get?_session backend hu]

/-- The metadata that comes back as it was. -/
theorem metadata_readBack (who : W) (documentId : ℕ) (time : CrewValue V) (record : MemoryRecord V) :
    (∀ k, (backend.readBack who documentId time record).metadata.get? k = record.metadata.get? k) ↔
      backend.PlainMetadata record :=
  ⟨plain_of_readBack backend, fun h => readBack_of_plain backend who documentId time h⟩

/-- **The records that come back as they were.** -/
theorem sameRecord_iff (hlist : backend.isRowId = true) (who : W) (documentId : ℕ) (time : CrewValue V)
    (record : MemoryRecord V) :
    SameRecord (backend.readBack who documentId time record) record ↔ backend.Faithful documentId record := by
  by_cases hplain : backend.PlainMetadata record
  case neg => exact ⟨fun h => absurd ((metadata_readBack backend who documentId time record).mp h.metadata) hplain,
    fun h => absurd h.metadata hplain⟩
  have hmetadata := (metadata_readBack backend who documentId time record).mpr hplain
  -- the keys of the adapter are read as they are written
  have hget : ∀ e ∈ backend.crewaiMeta who record,
      (backend.rememberMetadata who record).get? e.1 = some (backend.stripValue e.2) := by
    intro e he
    refine get?_rememberMetadata backend who hplain.noKeys hplain.nulFree (List.mem_append_right _ he) fun hs => ?_
    have hk : e.1 ∈ crewaiKeys := List.mem_map_of_mem he
    rw [hs] at hk
    exact absurd hk (by decide)
  have hid : (backend.readBack who documentId time record).id = backend.recordIdOf record.metadata documentId := by
    show backend.recordIdOf (backend.rememberMetadata who record) documentId = _
    rw [recordIdOf, recordIdOf, CrewMetadata.get, CrewMetadata.get, ← hmetadata, get?_readBack, if_neg (by decide)]
  have hscope : (backend.readBack who documentId time record).scope = stripNul (scopeOrRoot record.scope) := by
    show backend.scopeOf (backend.rememberMetadata who record) = _
    rw [scopeOf, hget (keyScope, .text (scopeOrRoot record.scope)) (by simp [crewaiMeta])]
    rfl
  have hcategories : (backend.readBack who documentId time record).categories = record.categories.map stripNul := by
    show categoriesOf (backend.rememberMetadata who record) = _
    rw [categoriesOf, CrewMetadata.get, hget (keyCategories, .texts record.categories) (by simp [crewaiMeta])]
    rfl
  have himportance : (backend.readBack who documentId time record).importance =
      backend.stripValue record.importance := by
    show ((backend.rememberMetadata who record).get? keyImportance).getD _ = _
    rw [hget (keyImportance, record.importance) (by simp [crewaiMeta])]
    rfl
  have hsource : (backend.readBack who documentId time record).source = backend.stripValue record.source := by
    show CrewMetadata.get (backend.rememberMetadata who record) keySource = _
    rw [CrewMetadata.get, hget (keySource, record.source) (by simp [crewaiMeta])]
    rfl
  have hprivate : (backend.readBack who documentId time record).isPrivate = backend.stripValue record.isPrivate := by
    show ((backend.rememberMetadata who record).get? keyPrivate).getD _ = _
    rw [hget (keyPrivate, record.isPrivate) (by simp [crewaiMeta])]
    rfl
  have hroot : stripNul (scopeOrRoot record.scope) = record.scope ↔ record.scope ≠ [] ∧ '\x00' ∉ record.scope := by
    unfold scopeOrRoot
    split
    case isTrue h => simp [h, stripNul]
    case isFalse h => simp [h, stripNul_eq_self_iff]
  have hnames : record.categories.map stripNul = record.categories ↔ ∀ c ∈ record.categories, '\x00' ∉ c := by
    rw [Table.map_eq_self]
    exact forall₂_congr fun _ _ => stripNul_eq_self_iff
  constructor
  · intro h
    exact ⟨hlist, stripNul_eq_self_iff.mp h.content, hroot.mp (hscope ▸ h.scope),
      hnames.mp (hcategories ▸ h.categories), himportance ▸ h.importance, hsource ▸ h.source,
      hprivate ▸ h.isPrivate, hplain, hid ▸ h.id⟩
  · intro h
    exact ⟨hid.trans h.id, stripNul_eq_self_iff.mpr h.content, hscope.trans (hroot.mpr h.scope),
      hcategories.trans (hnames.mpr h.categories), himportance.trans h.importance, hmetadata,
      hsource.trans h.source, hprivate.trans h.isPrivate⟩

/-! ## What a save leaves -/

section Save

variable [DecidableEq W] [DecidableEq U] [DecidableEq H] (who : W)

/-- The document of a record that is the `p.2`-th saved. -/
def storedDoc (p : MemoryRecord V × ℕ) : Doc V U :=
  ⟨p.2, some (stripNul p.1.id), backend.sessionIdFromScope p.1.scope, stripNul p.1.content,
    backend.rememberMetadata who p.1⟩

/-- The backend knows the document under the record's id. -/
def Mapped (s : State W V U) (record : MemoryRecord V) : Prop :=
  ∃ d ∈ s.documents.docs, d.externalId = some (stripNul record.id) ∧
    s.recordToDocument who record.id = some d.id

theorem saveRecord_mapped (time : ℕ) (s : State W V U) (record : MemoryRecord V) :
    Mapped who (backend.saveRecord who time s record) record ∧
      ∀ r, Mapped who s r → Mapped who (backend.saveRecord who time s record) r := by
  have hself : ∃ d ∈ ((reserve s.documents time).remember backend.ingest record.content
      (backend.rememberMetadata who record) (some record.id) (backend.sessionIdFromScope record.scope)).1.docs,
      d.externalId = some (stripNul record.id) ∧ d.id = ((reserve s.documents time).remember backend.ingest
        record.content (backend.rememberMetadata who record) (some record.id)
        (backend.sessionIdFromScope record.scope)).2 := by
    rw [NamespaceDocuments.remember_externalId]
    cases hfound : (reserve s.documents time).getByExternalId (stripNul record.id) with
    | some d =>
      obtain ⟨hd, hext⟩ := NamespaceDocuments.getByExternalId_eq_some_iff.mp hfound
      refine ⟨_, List.mem_map_of_mem hd, ?_⟩
      rw [if_pos rfl]
      exact ⟨hext, rfl⟩
    | none =>
      rw [NamespaceDocuments.docs_create (NamespaceDocuments.unclaimed_of_getByExternalId hfound)]
      exact ⟨_, List.mem_cons_self, rfl, rfl⟩
  have hkeep : ∀ d ∈ s.documents.docs, ∃ d' ∈ ((reserve s.documents time).remember backend.ingest record.content
      (backend.rememberMetadata who record) (some record.id) (backend.sessionIdFromScope record.scope)).1.docs,
      d'.externalId = d.externalId ∧ d'.id = d.id := by
    intro d hd
    rw [NamespaceDocuments.remember_externalId]
    cases hfound : (reserve s.documents time).getByExternalId (stripNul record.id) with
    | some e =>
      refine ⟨_, List.mem_map_of_mem hd, ?_⟩
      split
      · exact ⟨rfl, rfl⟩
      · exact ⟨rfl, rfl⟩
    | none =>
      rw [NamespaceDocuments.docs_create (NamespaceDocuments.unclaimed_of_getByExternalId hfound)]
      exact ⟨d, List.mem_cons_of_mem _ hd, rfl, rfl⟩
  obtain ⟨d, hd, hext, hid⟩ := hself
  have hmapped : Mapped who (backend.saveRecord who time s record) record :=
    ⟨d, hd, hext, by simp [saveRecord, hid]⟩
  refine ⟨hmapped, fun r hr => ?_⟩
  by_cases hrid : r.id = record.id
  · unfold Mapped at hmapped ⊢
    rwa [hrid]
  · obtain ⟨e, he, heext, hemap⟩ := hr
    obtain ⟨e', he', hext', hid'⟩ := hkeep e he
    refine ⟨e', he', hext'.trans heext, ?_⟩
    rw [hid', ← hemap]
    simp [saveRecord, hrid]

/-- Every saved record is mapped. -/
theorem save_mapped (records : List (MemoryRecord V)) (time : ℕ) (s : State W V U) :
    (∀ r ∈ records, Mapped who (backend.save who time s records) r) ∧
      ∀ r, Mapped who s r → Mapped who (backend.save who time s records) r := by
  induction records generalizing time s with
  | nil => exact ⟨by simp, fun r hr => hr⟩
  | cons record records ih =>
    obtain ⟨hself, hkeep⟩ := saveRecord_mapped backend who time s record
    obtain ⟨hall, hlater⟩ := ih (time + 1) (backend.saveRecord who time s record)
    rw [save]
    exact ⟨List.forall_mem_cons.mpr ⟨hlater record hself, hall⟩, fun r hr => hlater r (hkeep r hr)⟩

/-- A save through one backend does not touch the mapping of another. -/
theorem save_other {w : W} (hw : w ≠ who) (records : List (MemoryRecord V)) (time : ℕ) (s : State W V U) :
    (backend.save who time s records).recordToDocument w = s.recordToDocument w := by
  induction records generalizing time s with
  | nil => rfl
  | cons record records ih =>
    rw [save, ih]
    exact Function.update_of_ne hw _ _

/-- **Records under ids of their own** become documents of their own. -/
theorem docs_save {records : List (MemoryRecord V)} {time : ℕ} {s : State W V U}
    (hids : (records.map fun r => stripNul r.id).Nodup)
    (htime : s.documents.nextId = time)
    (hfree : ∀ r ∈ records, ∀ d ∈ s.documents.docs, d.externalId ≠ some (stripNul r.id)) :
    (backend.save who time s records).documents.docs =
      ((records.zipIdx time).map (backend.storedDoc who)).reverse ++ s.documents.docs := by
  induction records generalizing time s with
  | nil => rfl
  | cons record records ih =>
    rw [List.map_cons, List.nodup_cons] at hids
    have hunclaimed : (reserve s.documents time).Unclaimed (some (stripNul record.id)) := by
      rw [NamespaceDocuments.unclaimed_iff]
      intro d hd x hx
      rw [Option.mem_some_iff] at hx
      subst hx
      exact hfree record List.mem_cons_self d hd
    have hremember := @NamespaceDocuments.remember_eq_create _ _ _ _ _ backend.ingest _ record.content
      (backend.rememberMetadata who record) (backend.sessionIdFromScope record.scope) _ hunclaimed
    have hdocs : (backend.saveRecord who time s record).documents.docs =
        backend.storedDoc who (record, time) :: s.documents.docs := by
      show (NamespaceDocuments.remember ..).1.docs = _
      rw [hremember, NamespaceDocuments.docs_create hunclaimed]
      simp [NamespaceDocuments.newDocument, storedDoc, reserve, htime, ingest]
    have hnext : (backend.saveRecord who time s record).documents.nextId = time + 1 := by
      show (NamespaceDocuments.remember ..).1.nextId = _
      rw [hremember, NamespaceDocuments.nextId_create hunclaimed]
      simp [reserve, htime]
    rw [save, ih hids.2 hnext, hdocs, List.zipIdx_cons, List.map_cons, List.reverse_cons]
    · simp
    · intro r hr d hd
      rw [hdocs] at hd
      rcases List.mem_cons.mp hd with rfl | hd
      · intro heq
        exact hids.1 (List.mem_map.mpr ⟨r, hr, (Option.some.inj heq).symm⟩)
      · exact hfree r (List.mem_cons_of_mem _ hr) d hd

end Save

/-! ## What the reads return -/

/-- The records of an answer. -/
def answered : CrewAnswer V K → List (MemoryRecord V)
  | .scored records => records.map Prod.fst
  | .record r => r.toList
  | .records rs => rs
  | _ => []

/-- The calls `search`, `list_records` and `get_record`. -/
def Reads : CrewOp V K → Prop
  | .search .. => True
  | .getRecord _ => True
  | .listRecords .. => True
  | _ => False

/-- Every document has one chunk, which carries the metadata of the document. -/
def OneChunk : Prop := ∀ d, ∃ time, backend.chunks d = [⟨d.content, d.metadata, time⟩]

/-- The record is read from a document of the list. -/
def ReadFrom (docs : List (Doc V U)) (x : MemoryRecord V) : Prop :=
  ∃ d ∈ docs, ∃ time, x = backend.chunkToRecord d.id ⟨d.content, d.metadata, time⟩ d.metadata

theorem mem_foldl_visitHit {keep : MemoryRecord V → Bool} {limit : ℕ} (hits : List (ℕ × MemoryRecord V × K))
    (out : List (MemoryRecord V × K)) {y : MemoryRecord V × K} (hy : y ∈ hits.foldl (visitHit keep limit) out) :
    y ∈ out ∨ y ∈ hits.map Prod.snd := by
  induction hits generalizing out with
  | nil => exact .inl hy
  | cons hit hits ih =>
    rcases ih _ hy with h | h
    · unfold visitHit at h
      split at h
      · exact .inl h
      · split at h
        · rcases List.mem_append.mp h with h | h
          · exact .inl h
          · rw [List.mem_singleton.mp h]
            exact .inr List.mem_cons_self
        · exact .inl h
    · exact .inr (List.mem_cons_of_mem _ h)

theorem find?_id {documents : Docs V U} {d : Doc V U} (hd : d ∈ documents.docs) :
    (documents.docs.find? fun e => decide (e.id = d.id)) = some d := by
  cases h : documents.docs.find? fun e => decide (e.id = d.id) with
  | none => exact absurd (decide_eq_true rfl) (List.find?_eq_none.mp h d hd)
  | some e => rw [documents.eq_of_id_eq (List.mem_of_find?_eq_some h) hd (id_of_find? h)]

section Reading

variable {backend}

theorem readFrom_firstChunk (hone : backend.OneChunk) {documents : Docs V U} {docId : ℕ} {x : MemoryRecord V}
    (h : backend.firstChunk documents docId = some x) : backend.ReadFrom documents.docs x := by
  obtain ⟨d, hd, h⟩ := Option.bind_eq_some_iff.mp h
  obtain ⟨time, hchunks⟩ := hone d
  rw [hchunks] at h
  cases h
  refine ⟨d, ?_, time, rfl⟩
  have hrow := List.mem_of_find?_eq_some hd
  unfold rows at hrow
  split at hrow
  · exact hrow
  · cases hrow

theorem readFrom_visitRow (hone : backend.OneChunk) {docs rows : List (Doc V U)} (hsub : ∀ d ∈ rows, d ∈ docs)
    {scopePrefix : Option (List Char)} {limit offset : ℕ} (l : Listing V)
    (hl : ∀ x ∈ l.out, backend.ReadFrom docs x) :
    ∀ x ∈ (rows.foldl (backend.visitRow scopePrefix limit offset) l).out, backend.ReadFrom docs x := by
  induction rows generalizing l with
  | nil => exact hl
  | cons d rows ih =>
    refine ih (fun e he => hsub e (List.mem_cons_of_mem _ he)) _ ?_
    obtain ⟨time, hchunks⟩ := hone d
    unfold visitRow
    rw [hchunks]
    split
    · exact hl
    · split
      · exact hl
      · split
        · exact hl
        · intro x hx
          rcases List.mem_append.mp hx with hx | hx
          · exact hl x hx
          · rw [List.mem_singleton.mp hx]
            exact ⟨d, hsub d List.mem_cons_self, time, rfl⟩

variable [DecidableEq W] [DecidableEq V] [DecidableEq U] [DecidableEq H]

/-- **Every read is of a document**, keeps the documents, and leaves what is mapped. -/
theorem reads_documents (hone : backend.OneChunk) (s : State W V U) (w : W) {op : CrewOp V K} (hop : Reads op) :
    (∀ x ∈ answered (backend.step s ⟨w, 0, op⟩).2, backend.ReadFrom s.documents.docs x) ∧
      (backend.step s ⟨w, 0, op⟩).1.documents = s.documents ∧
      ∀ rid i, s.recordToDocument w rid = some i →
        (backend.step s ⟨w, 0, op⟩).1.recordToDocument w rid = some i := by
  cases op with
  | search scopePrefix categories metadataFilter limit recalled =>
    refine ⟨?_, rfl, fun _ _ h => h⟩
    intro x hx
    obtain ⟨y, hy, rfl⟩ := List.mem_map.mp hx
    rcases mem_foldl_visitHit _ _ hy with h | h
    · cases h
    · obtain ⟨hit, hhit, rfl⟩ := List.mem_map.mp h
      obtain ⟨r, -, hr⟩ := List.mem_filterMap.mp hhit
      obtain ⟨d, hd, hr⟩ := Option.bind_eq_some_iff.mp hr
      obtain ⟨chunk, hchunk, rfl⟩ := Option.map_eq_some_iff.mp hr
      obtain ⟨time, hchunks⟩ := hone d
      rw [hchunks] at hchunk
      refine ⟨d, List.mem_of_find?_eq_some hd, time, ?_⟩
      rw [List.mem_singleton.mp (List.mem_of_getElem? hchunk)]
  | getRecord recordId =>
    have hfound : ∀ x, (backend.getRecord s.documents (s.recordToDocument w) recordId).2 = some x →
        backend.ReadFrom s.documents.docs x := by
      intro x hx
      unfold getRecord at hx
      split at hx
      · exact readFrom_firstChunk hone hx
      · split at hx
        · cases hx
        · exact readFrom_firstChunk hone hx
    refine ⟨fun x hx => hfound x (Option.mem_toList.mp hx), rfl, fun rid i hi => ?_⟩
    show Function.update s.recordToDocument w _ w rid = some i
    rw [Function.update_self]
    unfold getRecord
    split
    · exact hi
    case h_2 hnone =>
      split
      · exact hi
      · have hne : rid ≠ recordId := by
          rintro rfl
          exact absurd (hnone.symm.trans hi) (by simp)
        exact (Function.update_of_ne hne _ _).trans hi
  | listRecords scopePrefix limit offset =>
    refine ⟨?_, rfl, fun _ _ h => h⟩
    intro x hx
    replace hx : x ∈ backend.listRecords s.documents scopePrefix limit.toNat offset.toNat := hx
    unfold listRecords at hx
    split at hx
    · cases hx
    · rw [Pages.foldPages_eq (by omega) (fun b d h => visitRow_of_full b d h) _ (by omega)] at hx
      refine readFrom_visitRow hone (fun d hd => ?_) ⟨0, []⟩ (by simp) x hx
      rw [List.drop_zero] at hd
      unfold rows at hd
      split at hd
      · exact hd
      · cases hd
  | save | update | count | delete | reset => exact hop.elim

end Reading

/-! ## The round trip -/

variable [DecidableEq W] [DecidableEq V] [DecidableEq U] [DecidableEq H]

/-- Every record that the backend `w` reads is a saved one, `get_record` finds each, and deleting what was
read, by its id, removes that document and no other. -/
structure RoundTrips (K : Type) (s : State W V U) (w : W) (records : List (MemoryRecord V)) : Prop where
  same : ∀ op : CrewOp V K, Reads op → ∀ x ∈ answered (backend.step s ⟨w, 0, op⟩).2, ∃ r ∈ records, SameRecord x r
  found : ∀ r ∈ records, ∃ x, (backend.getRecord s.documents (s.recordToDocument w) r.id).2 = some x ∧ x.id = r.id
  deleted : ∀ op : CrewOp V K, Reads op → ∀ x ∈ answered (backend.step s ⟨w, 0, op⟩).2,
    ∀ r ∈ records, x.id = r.id → ∀ filter,
      (backend.delete w (backend.step s ⟨w, 0, op⟩).1 [x.id] filter).1.documents.docs =
        s.documents.docs.filter fun d => decide (d.externalId ≠ some (stripNul r.id))

section RoundTrip

variable {backend} {who : W} {records : List (MemoryRecord V)}

omit [DecidableEq V] in
/-- The namespace after a save into an empty one. -/
theorem docs_save_empty (hstripped : (records.map fun r => stripNul r.id).Nodup) :
    (backend.save who 0 (State.init W .empty) records).documents.docs =
      (records.zipIdx.map (backend.storedDoc who)).reverse := by
  have hnone : ∀ r ∈ records, ∀ d ∈ (State.init W (.empty : Docs V U)).documents.docs,
      d.externalId ≠ some (stripNul r.id) := fun _ _ _ hd => absurd hd List.not_mem_nil
  exact (docs_save backend who hstripped rfl hnone).trans (List.append_nil _)

variable (backend who) in
omit [DecidableEq V] in
theorem mapped_storedDoc (hstripped : (records.map fun r => stripNul r.id).Nodup)
    {p : MemoryRecord V × ℕ} (hp : p ∈ records.zipIdx) :
    backend.storedDoc who p ∈ (backend.save who 0 (State.init W .empty) records).documents.docs ∧
      (backend.save who 0 (State.init W .empty) records).recordToDocument who p.1.id = some p.2 := by
  have hmem : backend.storedDoc who p ∈ (backend.save who 0 (State.init W .empty) records).documents.docs := by
    rw [docs_save_empty hstripped]
    exact List.mem_reverse.mpr (List.mem_map_of_mem hp)
  obtain ⟨d, hd, hext, hmap⟩ := (save_mapped backend who records 0 (State.init W .empty)).1 p.1
    (List.fst_mem_of_mem_zipIdx hp)
  have heq := (backend.save who 0 (State.init W .empty) records).documents.eq_of_externalId_eq hd hmem hext rfl
  exact ⟨hmem, by rw [hmap, heq]; rfl⟩

omit [DecidableEq V] in
/-- What is read from the namespace is read from the document of a record. -/
theorem exists_readBack (hstripped : (records.map fun r => stripNul r.id).Nodup)
    {x : MemoryRecord V}
    (hx : backend.ReadFrom (backend.save who 0 (State.init W .empty) records).documents.docs x) :
    ∃ p ∈ records.zipIdx, ∃ time, x = backend.readBack who p.2 time p.1 := by
  obtain ⟨d, hd, time, rfl⟩ := hx
  rw [docs_save_empty hstripped, List.mem_reverse] at hd
  obtain ⟨p, hp, rfl⟩ := List.mem_map.mp hd
  exact ⟨p, hp, time, rfl⟩

omit [DecidableEq V] in
/-- Through the saving backend, the document of a record is found. -/
theorem getRecord_saved (hone : backend.OneChunk) (hlist : backend.isRowId = true)
    (hstripped : (records.map fun r => stripNul r.id).Nodup)
    {p : MemoryRecord V × ℕ} (hp : p ∈ records.zipIdx) :
    ∃ time, (backend.getRecord (backend.save who 0 (State.init W .empty) records).documents
      ((backend.save who 0 (State.init W .empty) records).recordToDocument who) p.1.id).2 =
        some (backend.readBack who p.2 time p.1) := by
  obtain ⟨hmem, hmap⟩ := mapped_storedDoc backend who hstripped hp
  obtain ⟨time, hchunks⟩ := hone (backend.storedDoc who p)
  refine ⟨time, ?_⟩
  have hfind : ((backend.rows (backend.save who 0 (State.init W .empty) records).documents).find?
      fun d => decide (d.id = p.2)) = some (backend.storedDoc who p) := by
    rw [rows, if_pos hlist]
    exact find?_id hmem
  unfold getRecord
  rw [hmap]
  show backend.firstChunk _ p.2 = _
  rw [firstChunk, hfind, Option.bind_some, hchunks]
  rfl

/-- Stripped ids that collide are ids under which one document is found. -/
theorem stripped_nodup (hids : (records.map MemoryRecord.id).Nodup)
    (h : backend.RoundTrips K (backend.save who 0 (State.init W .empty) records) who records) :
    (records.map fun r => stripNul r.id).Nodup := by
  refine List.Nodup.map_on ?_ hids.of_map
  intro r hr r' hr' hstrip
  obtain ⟨d, hd, hext, hmap⟩ := (save_mapped backend who records 0 (State.init W .empty)).1 r hr
  obtain ⟨d', hd', hext', hmap'⟩ := (save_mapped backend who records 0 (State.init W .empty)).1 r' hr'
  rw [← hstrip] at hext'
  obtain rfl := (backend.save who 0 (State.init W .empty) records).documents.eq_of_externalId_eq hd hd' hext hext'
  obtain ⟨x, hx, hid⟩ := h.found r hr
  obtain ⟨x', hx', hid'⟩ := h.found r' hr'
  unfold getRecord at hx hx'
  rw [hmap] at hx
  rw [hmap'] at hx'
  have hxx : x = x' := Option.some.inj (hx.symm.trans hx')
  exact List.inj_on_of_nodup_map hids hr hr' (hid.symm.trans (hxx ▸ hid'))

/-- **Through the saving backend**: the ids are distinct as they are stored, and every record comes back
from its document as it was. -/
theorem roundTrips_own_iff (hids : (records.map MemoryRecord.id).Nodup) (hone : backend.OneChunk) :
    backend.RoundTrips K (backend.save who 0 (State.init W .empty) records) who records ↔
      (records.map fun r => stripNul r.id).Nodup ∧ ∀ p ∈ records.zipIdx, backend.Faithful p.2 p.1 := by
  constructor
  · intro h
    have hstripped := stripped_nodup hids h
    refine ⟨hstripped, fun p hp => ?_⟩
    have hr := List.fst_mem_of_mem_zipIdx hp
    have hlist : backend.isRowId = true := by
      obtain ⟨x, hx, -⟩ := h.found p.1 hr
      by_contra hnot
      have hrows : ∀ documents : Docs V U, backend.rows documents = [] := fun _ => by rw [rows, if_neg hnot]
      simp [getRecord, firstChunk, hrows, (mapped_storedDoc backend who hstripped hp).2] at hx
    obtain ⟨time, hx⟩ := getRecord_saved hone hlist hstripped hp
    obtain ⟨r, hrr, hsame⟩ := h.same (.getRecord p.1.id) trivial (backend.readBack who p.2 time p.1)
      (Option.mem_toList.mpr hx)
    -- the record found under the id is the one with that id
    obtain ⟨y, hy, hid⟩ := h.found p.1 hr
    obtain rfl : backend.readBack who p.2 time p.1 = y := Option.some.inj (hx.symm.trans hy)
    obtain rfl := List.inj_on_of_nodup_map hids hrr hr (hsame.id.symm.trans hid)
    exact (sameRecord_iff backend hlist who p.2 time p.1).mp hsame
  · rintro ⟨hstripped, hfaithful⟩
    have hread : ∀ op : CrewOp V K, Reads op → ∀ x ∈ answered (backend.step
        (backend.save who 0 (State.init W .empty) records) ⟨who, 0, op⟩).2,
        ∃ p ∈ records.zipIdx, SameRecord x p.1 := by
      intro op hop x hx
      obtain ⟨p, hp, time, rfl⟩ := exists_readBack hstripped ((reads_documents hone _ who hop).1 x hx)
      exact ⟨p, hp, (sameRecord_iff backend (hfaithful p hp).listed who p.2 time p.1).mpr (hfaithful p hp)⟩
    refine ⟨fun op hop x hx => ?_, fun r hr => ?_, fun op hop x hx r hr hid filter => ?_⟩
    · obtain ⟨p, hp, hsame⟩ := hread op hop x hx
      exact ⟨p.1, List.fst_mem_of_mem_zipIdx hp, hsame⟩
    · obtain ⟨i, hi⟩ := List.mem_iff_getElem?.mp hr
      have hp : (r, i) ∈ records.zipIdx := List.mk_mem_zipIdx_iff_getElem?.mpr hi
      obtain ⟨time, hx⟩ := getRecord_saved hone (hfaithful _ hp).listed hstripped hp
      exact ⟨_, hx, ((sameRecord_iff backend (hfaithful _ hp).listed who i time r).mpr (hfaithful _ hp)).id⟩
    · obtain ⟨i, hi⟩ := List.mem_iff_getElem?.mp hr
      have hp : (r, i) ∈ records.zipIdx := List.mk_mem_zipIdx_iff_getElem?.mpr hi
      obtain ⟨hmem, hmap⟩ := mapped_storedDoc backend who hstripped hp
      obtain ⟨-, hdocs, hmapped⟩ := reads_documents hone (backend.save who 0 (State.init W .empty) records) who hop
      have hentry := hmapped r.id i hmap
      rw [delete, if_neg (by simp), List.foldl_cons, List.foldl_nil, hid, deleteRecordId, hentry]
      show (NamespaceDocuments.forget _ i).docs = _
      rw [hdocs]
      refine List.filter_congr fun d hd => decide_eq_decide.mpr (not_congr ?_)
      constructor
      · intro hdi
        rw [(backend.save who 0 (State.init W .empty) records).documents.eq_of_id_eq hd hmem hdi]
        rfl
      · intro hext
        rw [(backend.save who 0 (State.init W .empty) records).documents.eq_of_externalId_eq hd hmem hext rfl]
        rfl

omit [DecidableEq U] [DecidableEq H] in
/-- A fresh backend deletes nothing by id. -/
theorem docs_delete_unmapped {s : State W V U} {w : W} (hw : ∀ rid, s.recordToDocument w rid = none)
    (rid : List Char) (filter : CrewFilter V) : (backend.delete w s [rid] filter).1 = s := by
  rw [delete, if_neg (by simp), List.foldl_cons, List.foldl_nil, deleteRecordId, hw]

end RoundTrip

/-- **Saved records through the backend that saved them and through a fresh one.**  Through the first
alone they come back exactly if the ids are distinct as stored and each record is faithful; through both,
only the empty list does. -/
theorem roundTrip_iff [Inhabited K] (who fresh : W) (hfresh : fresh ≠ who) (records : List (MemoryRecord V))
    (hids : (records.map MemoryRecord.id).Nodup) (hone : backend.OneChunk) :
    (backend.RoundTrips K (backend.save who 0 (State.init W .empty) records) who records ↔
      (records.map fun r => stripNul r.id).Nodup ∧ ∀ p ∈ records.zipIdx, backend.Faithful p.2 p.1) ∧
    (backend.RoundTrips K (backend.save who 0 (State.init W .empty) records) who records ∧
        backend.RoundTrips K (backend.save who 0 (State.init W .empty) records) fresh records ↔
      records = []) := by
  refine ⟨roundTrips_own_iff hids hone, ?_, ?_⟩
  · rintro ⟨hown, hnew⟩
    obtain ⟨hstripped, -⟩ := (roundTrips_own_iff hids hone).mp hown
    by_contra hne
    obtain ⟨r, hr⟩ := List.exists_mem_of_ne_nil records hne
    obtain ⟨i, hi⟩ := List.mem_iff_getElem?.mp hr
    obtain ⟨hmem, -⟩ := mapped_storedDoc backend who hstripped (List.mk_mem_zipIdx_iff_getElem?.mpr hi)
    obtain ⟨time, hchunks⟩ := hone (backend.storedDoc who (r, i))
    generalize hs : backend.save who 0 (State.init W .empty) records = s at *
    -- a search that ranks the chunk of this document returns its record
    have hfind : (s.documents.docs.find? fun d => decide (d.id = i)) = some (backend.storedDoc who (r, i)) :=
      find?_id hmem
    have hanswer : backend.readBack who i time r ∈ answered (backend.step s
        ⟨fresh, 0, .search none [] .empty 1 [(i, 0, (default : K))]⟩).2 := by
      have hhits : backend.hits s.documents [(i, 0, (default : K))] =
          [(i, backend.readBack who i time r, default)] := by
        rw [hits, List.filterMap_cons, hfind, Option.bind_some, hchunks]
        rfl
      simp [step, hhits, answered, visitHit, matchesFilters, startsWith, meetsCategories, meetsMetadata,
        OrderedDict.empty]
    obtain ⟨r', hr', hsame⟩ := hnew.same (.search none [] .empty 1 [(i, 0, (default : K))]) trivial _ hanswer
    have hdeleted := hnew.deleted (.search none [] .empty 1 [(i, 0, (default : K))]) trivial _ hanswer r' hr'
      hsame.id ⟨none, [], none, .empty⟩
    have hunmapped : ∀ rid, s.recordToDocument fresh rid = none := by
      intro rid
      rw [← hs, save_other backend who hfresh]
      rfl
    have hsame : (backend.delete fresh s [(backend.readBack who i time r).id] ⟨none, [], none, .empty⟩).1 = s :=
      docs_delete_unmapped hunmapped _ _
    have hkept : s.documents.docs =
        s.documents.docs.filter fun d => decide (d.externalId ≠ some (stripNul r'.id)) :=
      (congrArg (fun t => t.documents.docs) hsame).symm.trans hdeleted
    obtain ⟨j, hj⟩ := List.mem_iff_getElem?.mp hr'
    have hmem' := (mapped_storedDoc backend who hstripped (List.mk_mem_zipIdx_iff_getElem?.mpr hj)).1
    rw [hs, hkept] at hmem'
    have hext := (List.mem_filter.mp hmem').2
    simp [storedDoc] at hext
  · rintro rfl
    have hnone : ∀ w (op : CrewOp V K), Reads op →
        answered (backend.step (backend.save who 0 (State.init W .empty) []) ⟨w, 0, op⟩).2 = [] := by
      intro w op hop
      refine List.eq_nil_iff_forall_not_mem.mpr fun x hx => ?_
      obtain ⟨d, hd, -⟩ := (reads_documents hone _ w hop).1 x hx
      exact List.not_mem_nil hd
    have hempty : ∀ w, backend.RoundTrips K (backend.save who 0 (State.init W .empty) []) w [] := by
      intro w
      refine ⟨fun op hop x hx => ?_, by simp, fun op hop x hx => ?_⟩
      · rw [hnone w op hop] at hx
        cases hx
      · rw [hnone w op hop] at hx
        cases hx
    exact ⟨hempty who, hempty fresh⟩

end KhoraStorageBackend

open KhoraStorageBackend

/-- A record whose metadata has its id under the key that is read. -/
def withExternalId (id content scope : String) : MemoryRecord Unit :=
  { crewRecord id content scope with
    metadata := OrderedDict.empty.set "external_id".toList (.text id.toList)
    categories := ["drinks".toList] }

theorem withExternalId_roundTrips :
    (twoUsers true).RoundTrips ℕ ((twoUsers true).save false 0 (State.init Bool .empty)
        [withExternalId "m1" "tea" "/a", withExternalId "m2" "coffee" "/b"]) false
        [withExternalId "m1" "tea" "/a", withExternalId "m2" "coffee" "/b"] ∧
      ¬(twoUsers true).RoundTrips ℕ ((twoUsers true).save false 0 (State.init Bool .empty)
        [withExternalId "m1" "tea" "/a", withExternalId "m2" "coffee" "/b"]) true
        [withExternalId "m1" "tea" "/a", withExternalId "m2" "coffee" "/b"] := by
  have hone : (twoUsers true).OneChunk := fun _ => ⟨.null, rfl⟩
  have h := roundTrip_iff (K := ℕ) (twoUsers true) false true (by decide)
    [withExternalId "m1" "tea" "/a", withExternalId "m2" "coffee" "/b"] (by decide) hone
  have hown := h.1.mpr ⟨by decide, by
    intro p hp
    obtain rfl | rfl : p = (withExternalId "m1" "tea" "/a", 0) ∨ p = (withExternalId "m2" "coffee" "/b", 1) := by
      simpa using hp
    all_goals exact ⟨rfl, by decide, by decide, by decide, rfl, rfl, rfl,
      ⟨by decide, by decide, by decide, fun u hu => by cases hu⟩, by decide⟩⟩
  exact ⟨hown, fun hnew => absurd (h.2.mp ⟨hown, hnew⟩) (List.cons_ne_nil _ _)⟩

/-- A record without metadata comes back under the id of its document. -/
theorem recordId_lost :
    ([crewRecord "m1" "tea" "/a"].map MemoryRecord.id).Nodup ∧ (twoUsers true).OneChunk ∧
      ¬(twoUsers true).RoundTrips ℕ
        ((twoUsers true).save false 0 (State.init Bool .empty) [crewRecord "m1" "tea" "/a"]) false
        [crewRecord "m1" "tea" "/a"] := by
  refine ⟨by decide, fun _ => ⟨.null, rfl⟩, fun h => ?_⟩
  obtain ⟨x, hx, hid⟩ := h.found _ List.mem_cons_self
  obtain rfl := Option.some.inj hx
  revert hid
  decide

end Khora
