import Khora.Integrations.Documents
import Khora.Lib.Isolation
import Khora.Lib.OrderedDict
import Khora.Lib.Pages
import Mathlib.Logic.Function.Basic

/-!
# The storage backend of the CrewAI adapter

`KhoraStorageBackend` keeps each record as a document under the record's id and stamps the user id on
its metadata.  No call reads the stamp: the backends of several users on one namespace walk, recall,
look up and forget the same documents.

* `KhoraStorageBackend.isolated` — in a run in which no read comes upon another's document and every
  write comes upon documents of its own, each backend is answered as if it were alone, and no call
  touches another's documents.
* `another_users_record_lost` — two users with a record of the same id.
-/

namespace Khora

local instance lawfulKey : LawfulBEq (List Char) := inferInstance

/-- A value of a metadata dict. -/
inductive CrewValue (V : Type) where
  | null
  | text (s : List Char)
  | texts (l : List (List Char))
  | other (v : V)
  deriving DecidableEq, Repr

abbrev CrewMetadata (V : Type) := OrderedDict (List Char) (CrewValue V)

/-- `custom.get(k)` -/
def CrewMetadata.get {V : Type} (custom : CrewMetadata V) (k : List Char) : CrewValue V :=
  (custom.get? k).getD .null

/-- `MemoryRecord`; the last five fields as they are stored. -/
structure MemoryRecord (V : Type) where
  id : List Char
  content : List Char
  scope : List Char
  categories : List (List Char)
  metadata : CrewMetadata V
  importance : CrewValue V
  source : CrewValue V
  isPrivate : CrewValue V
  createdAt : CrewValue V
  lastAccessed : CrewValue V
  deriving DecidableEq, Repr

/-- What `chunk_to_record` reads of a chunk. -/
structure CrewChunk (V : Type) where
  content : List Char
  metadata : CrewMetadata V
  createdAt : CrewValue V
  deriving DecidableEq, Repr

/-- `older_than`, with or without a time zone, among the times of the documents. -/
structure Cutoff where
  aware : Bool
  instant : ℕ
  deriving DecidableEq, Repr

/-- The filters of a delete. -/
structure CrewFilter (V : Type) where
  scopePrefix : Option (List Char)
  categories : List (List Char)
  olderThan : Option Cutoff
  metadataFilter : CrewMetadata V
  deriving DecidableEq, Repr

/-- A call.  `recalled` is what the recall of a search ranks: documents, the numbers of chunks, and
scores; what is not in the namespace is not returned. -/
inductive CrewOp (V K : Type) where
  | save (records : List (MemoryRecord V))
  | update (record : MemoryRecord V)
  | search (scopePrefix : Option (List Char)) (categories : List (List Char))
      (metadataFilter : CrewMetadata V) (limit : Int) (recalled : List (ℕ × ℕ × K))
  | getRecord (recordId : List Char)
  | listRecords (scopePrefix : Option (List Char)) (limit offset : Int)
  | count (scopePrefix : Option (List Char))
  | delete (recordIds : List (List Char)) (filter : CrewFilter V)
  | reset (scopePrefix : Option (List Char))
  deriving DecidableEq, Repr

inductive CrewAnswer (V K : Type) where
  | done
  | scored (records : List (MemoryRecord V × K))
  | record (r : Option (MemoryRecord V))
  | records (rs : List (MemoryRecord V))
  | number (n : ℕ)
  | raised
  deriving DecidableEq, Repr

/-- The records that a call saves, each of which draws a uuid. -/
def CrewOp.draws {V K : Type} : CrewOp V K → ℕ
  | .save records => records.length
  | .update _ => 1
  | _ => 0

/-- A call on the backend `who`; the uuids and times of what it saves are counted from `time`. -/
structure CrewCall (W V K : Type) where
  who : W
  time : ℕ
  op : CrewOp V K
  deriving DecidableEq, Repr

/-- The calls with the times at which they are made. -/
def crewSchedule {W V K : Type} : ℕ → List (W × CrewOp V K) → List (CrewCall W V K)
  | _, [] => []
  | time, (who, op) :: calls => ⟨who, time, op⟩ :: crewSchedule (time + op.draws) calls

/-- The backend whose call drew a uuid. -/
def savedThrough {W V K : Type} (calls : List (CrewCall W V K)) (id : ℕ) : Option W :=
  (calls.find? fun c => decide (c.time ≤ id ∧ id < c.time + c.op.draws)).map CrewCall.who

/-- Backends of the users `W` on one namespace, and the functions that they use. -/
structure KhoraStorageBackend (W V U H : Type) where
  userId : W → List Char
  appId : W → List Char
  /-- the namespace id is the row id that the methods of the storage take, not the stable one -/
  isRowId : Bool
  /-- the store returns times with a time zone -/
  aware : Bool
  checksum : List Char → H
  /-- `strip_nul_json` of the other values -/
  stripOther : V → V
  chunks : NamespaceDocument (CrewMetadata V) U → List (CrewChunk V)
  parseUuid : List Char → Option U
  showUuid : U → List Char
  nulFree : ∀ u, '\x00' ∉ showUuid u
  showId : ℕ → List Char
  str : CrewValue V → List Char
  /-- `_strip_tz(_parse_isoformat(value))` -/
  parseTime : CrewValue V → Option (CrewValue V)
  defaultImportance : CrewValue V
  notPrivate : CrewValue V

namespace KhoraStorageBackend

variable {W V U H K : Type}

abbrev Docs (V U : Type) := NamespaceDocuments (CrewMetadata V) U

abbrev Doc (V U : Type) := NamespaceDocument (CrewMetadata V) U

/-- The namespace, and `_record_to_document` of each backend. -/
structure State (W V U : Type) where
  documents : Docs V U
  recordToDocument : W → List Char → Option ℕ

def State.init (W : Type) (documents : Docs V U) : State W V U := ⟨documents, fun _ _ => none⟩

/-! ## Mapping -/

def keyScope : List Char := "crewai_scope".toList
def keyCategories : List Char := "crewai_categories".toList
def keyImportance : List Char := "crewai_importance".toList
def keySource : List Char := "crewai_source".toList
def keyPrivate : List Char := "crewai_private".toList
def keyCreatedAt : List Char := "crewai_created_at".toList
def keyLastAccessed : List Char := "crewai_last_accessed".toList
def keyUserId : List Char := "crewai_user_id".toList
def keyAppId : List Char := "crewai_app_id".toList

variable (backend : KhoraStorageBackend W V U H)

/-- `session_id_from_scope` -/
def sessionIdFromScope (scope : List Char) : Option U :=
  let tail := ((scope.reverse.dropWhile (· = '/')).takeWhile (· ≠ '/')).reverse
  if tail = [] then none else backend.parseUuid tail

def scopeOrRoot (scope : List Char) : List Char := if scope = [] then ['/'] else scope

/-- What `record_to_remember_kwargs` adds to the metadata of the record. -/
def crewaiMeta (who : W) (record : MemoryRecord V) : List (List Char × CrewValue V) :=
  [(keyScope, .text (scopeOrRoot record.scope)), (keyCategories, .texts record.categories),
    (keyImportance, record.importance), (keySource, record.source), (keyPrivate, record.isPrivate),
    (keyCreatedAt, record.createdAt), (keyLastAccessed, record.lastAccessed),
    (keyUserId, .text (backend.userId who)), (keyAppId, .text (backend.appId who))]

/-- `strip_nul_json` of a value -/
def stripValue : CrewValue V → CrewValue V
  | .null => .null
  | .text s => .text (stripNul s)
  | .texts l => .texts (l.map stripNul)
  | .other v => .other (backend.stripOther v)

/-- `strip_nul_json` of the metadata: of keys that are then one, the last. -/
def stripMetadata (metadata : CrewMetadata V) : CrewMetadata V :=
  OrderedDict.empty.update (metadata.items.map fun e => (stripNul e.1, backend.stripValue e.2))

/-- The metadata with which `remember` calls the engine: stripped, and then with the session. -/
def rememberMetadata (who : W) (record : MemoryRecord V) : CrewMetadata V :=
  let metadata := backend.stripMetadata (record.metadata.update (backend.crewaiMeta who record))
  match backend.sessionIdFromScope record.scope with
  | none => metadata
  | some session => metadata.set "session_id".toList (.text (backend.showUuid session))

/-- The metadata is stripped before. -/
def ingest : Ingest (CrewMetadata V) H := ⟨backend.checksum, id⟩

/-- `str(custom.get("crewai_scope", "/"))` -/
def scopeOf (custom : CrewMetadata V) : List Char :=
  match custom.get? keyScope with
  | none => ['/']
  | some (.text s) => s
  | some v => backend.str v

/-- `custom.get("crewai_categories") or []` -/
def categoriesOf (custom : CrewMetadata V) : List (List Char) :=
  match custom.get keyCategories with
  | .texts l => l
  | _ => []

/-- `custom.get("external_id") or str(chunk.document_id)` -/
def recordIdOf (custom : CrewMetadata V) (documentId : ℕ) : List Char :=
  match custom.get "external_id".toList with
  | .text (c :: cs) => c :: cs
  | _ => backend.showId documentId

/-- `chunk_to_record` -/
def chunkToRecord (documentId : ℕ) (chunk : CrewChunk V) (custom : CrewMetadata V) :
    MemoryRecord V where
  id := backend.recordIdOf custom documentId
  content := chunk.content
  scope := backend.scopeOf custom
  categories := categoriesOf custom
  metadata := custom.eraseWhere ("crewai_".toList).isPrefixOf
  importance := (custom.get? keyImportance).getD backend.defaultImportance
  source := custom.get keySource
  isPrivate := (custom.get? keyPrivate).getD backend.notPrivate
  createdAt := (backend.parseTime (custom.get keyCreatedAt)).getD chunk.createdAt
  lastAccessed := (backend.parseTime (custom.get keyLastAccessed)).getD chunk.createdAt

/-! ## Filters -/

def startsWith (scopePrefix : Option (List Char)) (scope : List Char) : Bool :=
  match scopePrefix with
  | none => true
  | some p => p.isPrefixOf scope

/-- An empty list of categories filters nothing. -/
def meetsCategories (categories stored : List (List Char)) : Bool :=
  categories.isEmpty || categories.any fun c => decide (c ∈ stored)

section Filters

variable [DecidableEq V]

def meetsMetadata (metadataFilter custom : CrewMetadata V) : Bool :=
  metadataFilter.items.all fun e => decide (custom.get e.1 = e.2)

/-- `_matches_filters` -/
def matchesFilters (scopePrefix : Option (List Char)) (categories : List (List Char))
    (metadataFilter : CrewMetadata V) (record : MemoryRecord V) : Bool :=
  startsWith scopePrefix record.scope && meetsCategories categories record.categories &&
    meetsMetadata metadataFilter record.metadata

/-- The checks of `_delete_by_filter` before that of the cutoff. -/
def reachesCutoff (filter : CrewFilter V) (doc : Doc V U) : Bool :=
  startsWith filter.scopePrefix (backend.scopeOf doc.metadata) &&
    meetsCategories filter.categories (categoriesOf doc.metadata)

/-- A naive and an aware time cannot be compared. -/
def comparable (filter : CrewFilter V) : Bool := filter.olderThan.all fun cutoff => cutoff.aware == backend.aware

/-- `doc.created_at >= older_than` raises. -/
def comparisonRaises (filter : CrewFilter V) (doc : Doc V U) : Bool :=
  !backend.comparable filter && backend.reachesCutoff filter doc

/-- The checks of `_delete_by_filter`. -/
def matchesDelete (filter : CrewFilter V) (doc : Doc V U) : Bool :=
  backend.reachesCutoff filter doc &&
    (filter.olderThan.all fun cutoff => decide (doc.id < cutoff.instant)) &&
    meetsMetadata filter.metadataFilter doc.metadata

end Filters

/-! ## Reads -/

/-- What the methods of the storage find in the namespace. -/
def rows (documents : Docs V U) : List (Doc V U) :=
  if backend.isRowId then documents.docs else []

/-- `get_chunks_by_document` -/
def firstChunk (documents : Docs V U) (docId : ℕ) : Option (MemoryRecord V) :=
  ((backend.rows documents).find? fun d => decide (d.id = docId)).bind fun d =>
    (backend.chunks d).head?.map fun chunk => backend.chunkToRecord d.id chunk chunk.metadata

/-- The document of `get_document_by_external_id`. -/
def lookupRow (documents : Docs V U) (recordId : List Char) : Option (Doc V U) :=
  (backend.rows documents).find? fun d => decide (d.externalId = some recordId)

/-- `get_record`, with the mapping that it leaves -/
def getRecord (documents : Docs V U) (mapping : List Char → Option ℕ) (recordId : List Char) :
    (List Char → Option ℕ) × Option (MemoryRecord V) :=
  match mapping recordId with
  | some docId => (mapping, backend.firstChunk documents docId)
  | none =>
    match backend.lookupRow documents recordId with
    | none => (mapping, none)
    | some doc =>
      (Function.update mapping recordId (some doc.id), backend.firstChunk documents doc.id)

/-- The chunks that a recall returns. -/
def hits (documents : Docs V U) (recalled : List (ℕ × ℕ × K)) :
    List (ℕ × MemoryRecord V × K) :=
  recalled.filterMap fun r =>
    (documents.docs.find? fun d => decide (d.id = r.1)).bind fun d =>
      (backend.chunks d)[r.2.1]?.map fun chunk =>
        (d.id, backend.chunkToRecord d.id chunk d.metadata, r.2.2)

/-- Visits a hit; the limit is tested behind an append only. -/
def visitHit (keep : MemoryRecord V → Bool) (limit : ℕ) (out : List (MemoryRecord V × K))
    (hit : ℕ × MemoryRecord V × K) : List (MemoryRecord V × K) :=
  if max limit 1 ≤ out.length then out
  else if keep hit.2.1 then out ++ [hit.2] else out

/-- How many documents are skipped, and the records. -/
structure Listing (V : Type) where
  skipped : ℕ
  out : List (MemoryRecord V)
  deriving DecidableEq, Repr

def Listing.full (limit : ℕ) (l : Listing V) : Bool := decide (limit ≤ l.out.length)

def visitRow (scopePrefix : Option (List Char)) (limit offset : ℕ) (l : Listing V) (doc : Doc V U) :
    Listing V :=
  if l.full limit then l
  else if !startsWith scopePrefix (backend.scopeOf doc.metadata) then l
  else if l.skipped < offset then { l with skipped := l.skipped + 1 }
  else
    match (backend.chunks doc).head? with
    | none => l
    | some chunk => { l with out := l.out ++ [backend.chunkToRecord doc.id chunk chunk.metadata] }

/-- `list_records` -/
def listRecords (documents : Docs V U) (scopePrefix : Option (List Char)) (limit offset : ℕ) :
    List (MemoryRecord V) :=
  if limit = 0 then []
  else
    (Pages.foldPages (max limit 50) (Listing.full limit) (backend.visitRow scopePrefix limit offset)
      (backend.rows documents) ((backend.rows documents).length + 1) 0 ⟨0, []⟩).out

def pageSize : ℕ := 200

def visitCount (scopePrefix : Option (List Char)) (total : ℕ) (doc : Doc V U) : ℕ :=
  if startsWith scopePrefix (backend.scopeOf doc.metadata) then total + 1 else total

/-- `count` -/
def count (documents : Docs V U) (scopePrefix : Option (List Char)) : ℕ :=
  match scopePrefix with
  | none => documents.docs.length
  | some _ =>
    Pages.foldPages pageSize (fun _ => false) (backend.visitCount scopePrefix)
      (backend.rows documents) ((backend.rows documents).length + 1) 0 0

/-! ## Writes -/

/-- A uuid drawn at a time. -/
def reserve (documents : Docs V U) (time : ℕ) : Docs V U where
  docs := documents.docs
  nextId := max documents.nextId time
  fresh := fun d hd => Nat.lt_of_lt_of_le (documents.fresh d hd) (Nat.le_max_left _ _)
  distinct := documents.distinct
  unique := documents.unique

section Writes

variable [DecidableEq V] [DecidableEq U] [DecidableEq H] [DecidableEq W]

/-- One record of `save`: the document, its id and the mapping -/
def saveRecord (who : W) (time : ℕ) (s : State W V U) (record : MemoryRecord V) : State W V U :=
  let result := (reserve s.documents time).remember backend.ingest record.content
    (backend.rememberMetadata who record) (some record.id) (backend.sessionIdFromScope record.scope)
  ⟨result.1, Function.update s.recordToDocument who
    (Function.update (s.recordToDocument who) record.id (some result.2))⟩

/-- `save` -/
def save (who : W) : ℕ → State W V U → List (MemoryRecord V) → State W V U
  | _, s, [] => s
  | time, s, record :: records => save who (time + 1) (backend.saveRecord who time s record) records

/-- Forgets a document and pops the key under which it is mapped; tells whether it was there. -/
def forgetMapped (who : W) (key : Option (List Char)) (docId : ℕ) (s : State W V U) :
    State W V U × Bool :=
  let ok := s.documents.docs.any fun d => decide (d.id = docId)
  let mapping := s.recordToDocument who
  (⟨s.documents.forget docId, Function.update s.recordToDocument who
    (if ok then key.elim mapping fun k => Function.update mapping k none else mapping)⟩, ok)

/-- One id of `_delete_by_record_ids` -/
def deleteRecordId (who : W) (acc : State W V U × ℕ) (rid : List Char) : State W V U × ℕ :=
  match acc.1.recordToDocument who rid with
  | none => acc
  | some docId =>
    let (s, ok) := forgetMapped who (some rid) docId acc.1
    (s, if ok then acc.2 + 1 else acc.2)

/-- One document of a page of `_delete_by_filter`, if the comparison returns -/
def deleteRow (who : W) (filter : CrewFilter V) (acc : State W V U × ℕ) (doc : Doc V U) :
    State W V U × ℕ :=
  if backend.matchesDelete filter doc then
    let (s, ok) := forgetMapped who doc.externalId doc.id acc.1
    (s, if ok then acc.2 + 1 else acc.2)
  else acc

/-- `_delete_by_filter`, if the comparisons return: the offset goes on over the documents that are left. -/
def deleteByFilter (who : W) (filter : CrewFilter V) :
    ℕ → ℕ → State W V U × ℕ → State W V U × ℕ
  | 0, _, acc => acc
  | fuel + 1, offset, acc =>
    let page := Pages.page pageSize (backend.rows acc.1.documents) offset
    if page = [] then acc
    else if page.length < pageSize then page.foldl (backend.deleteRow who filter) acc
    else deleteByFilter who filter fuel (offset + pageSize)
      (page.foldl (backend.deleteRow who filter) acc)

/-- `delete`, if the comparisons return -/
def delete (who : W) (s : State W V U) (recordIds : List (List Char)) (filter : CrewFilter V) :
    State W V U × ℕ :=
  if recordIds = [] then
    backend.deleteByFilter who filter ((backend.rows s.documents).length + 1) 0 (s, 0)
  else recordIds.foldl (deleteRecordId who) (s, 0)

/-- One document of a page of `_delete_by_filter`; an exception leaves the state behind. -/
def deleteRowE (who : W) (filter : CrewFilter V) (acc : State W V U × ℕ) (doc : Doc V U) :
    Except (State W V U) (State W V U × ℕ) :=
  if backend.comparisonRaises filter doc then .error acc.1 else .ok (backend.deleteRow who filter acc doc)

/-- `_delete_by_filter` -/
def deleteByFilterE (who : W) (filter : CrewFilter V) :
    ℕ → ℕ → State W V U × ℕ → Except (State W V U) (State W V U × ℕ)
  | 0, _, acc => .ok acc
  | fuel + 1, offset, acc =>
    let page := Pages.page pageSize (backend.rows acc.1.documents) offset
    if page = [] then .ok acc
    else if page.length < pageSize then page.foldlM (backend.deleteRowE who filter) acc
    else do
      let acc ← page.foldlM (backend.deleteRowE who filter) acc
      deleteByFilterE who filter fuel (offset + pageSize) acc

/-- `delete` -/
def deleteE (who : W) (s : State W V U) (recordIds : List (List Char)) (filter : CrewFilter V) :
    Except (State W V U) (State W V U × ℕ) :=
  if recordIds = [] then
    backend.deleteByFilterE who filter ((backend.rows s.documents).length + 1) 0 (s, 0)
  else .ok (recordIds.foldl (deleteRecordId who) (s, 0))

/-- `update` forgets the mapped document and saves the record. -/
def forgetForUpdate (who : W) (s : State W V U) (record : MemoryRecord V) : State W V U :=
  match s.recordToDocument who record.id with
  | none => s
  | some docId =>
    ⟨s.documents.forget docId, Function.update s.recordToDocument who
      (Function.update (s.recordToDocument who) record.id none)⟩

/-- A call and what it returns. -/
def step (s : State W V U) (c : CrewCall W V K) : State W V U × CrewAnswer V K :=
  match c.op with
  | .save records => (backend.save c.who c.time s records, .done)
  | .update record => (backend.save c.who c.time (forgetForUpdate c.who s record) [record], .done)
  | .search scopePrefix categories metadataFilter limit recalled =>
    (s, .scored ((backend.hits s.documents recalled).foldl
      (visitHit (matchesFilters scopePrefix categories metadataFilter) limit.toNat) []))
  | .getRecord recordId =>
    let found := backend.getRecord s.documents (s.recordToDocument c.who) recordId
    (⟨s.documents, Function.update s.recordToDocument c.who found.1⟩, .record found.2)
  | .listRecords scopePrefix limit offset =>
    (s, .records (backend.listRecords s.documents scopePrefix limit.toNat offset.toNat))
  | .count scopePrefix => (s, .number (backend.count s.documents scopePrefix))
  | .delete recordIds filter =>
    match backend.deleteE c.who s recordIds filter with
    | .ok (s, deleted) => (s, .number deleted)
    | .error s => (s, .raised)
  | .reset scopePrefix =>
    match backend.deleteE c.who s [] ⟨scopePrefix, [], none, .empty⟩ with
    | .ok (s, _) => (s, .done)
    | .error s => (s, .raised)

end Writes

/-! ## The condition -/

section Condition

variable [DecidableEq W] (owner : ℕ → Option W)

/-- No other backend saved the document. -/
def notOthers (who : W) (id : ℕ) : Bool := (owner id).all fun w => decide (w = who)

def own (who : W) (id : ℕ) : Bool := decide (owner id = some who)

/-- The document that a save replaces, if there is one, was saved through the backend. -/
def HolderOwn (who : W) (s : State W V U) (record : MemoryRecord V) : Prop :=
  ∀ d ∈ s.documents.getByExternalId (stripNul record.id), own owner who d.id = true

/-- The listing skips the document, or lists a record of it. -/
def ListsRow (scopePrefix : Option (List Char)) (limit offset : ℕ) (l : Listing V) (doc : Doc V U) :
    Prop :=
  l.full limit = false ∧ startsWith scopePrefix (backend.scopeOf doc.metadata) = true ∧
    (l.skipped < offset ∨ (backend.chunks doc).head? ≠ none)

/-- The search returns the hit. -/
def ReturnsHit (keep : MemoryRecord V → Bool) (limit : ℕ) (out : List (MemoryRecord V × K))
    (hit : ℕ × MemoryRecord V × K) : Prop :=
  out.length < max limit 1 ∧ keep hit.2.1 = true

variable [DecidableEq V] [DecidableEq U] [DecidableEq H]

/-- The filter matches documents of the backend only, and where it matches one, the documents are a
page or none is another's.  A cutoff that cannot be compared meets documents of the backend only. -/
def FilterOwn (who : W) (s : State W V U) (filter : CrewFilter V) : Prop :=
  (∀ d ∈ backend.rows s.documents, backend.comparisonRaises filter d = true → own owner who d.id = true) ∧
  (∀ d ∈ backend.rows s.documents,
      backend.matchesDelete filter d = true → own owner who d.id = true) ∧
    ((backend.rows s.documents).length ≤ pageSize ∨
      (∀ d ∈ backend.rows s.documents, backend.matchesDelete filter d = false) ∨
      ∀ d ∈ backend.rows s.documents, notOthers owner who d.id = true)

/-- The documents that a delete by ids knows, or matches, are of the backend. -/
def DeletesOwn (who : W) (s : State W V U) (recordIds : List (List Char)) (filter : CrewFilter V) :
    Prop :=
  if recordIds = [] then backend.FilterOwn owner who s filter
  else ∀ rid ∈ recordIds, ∀ id ∈ s.recordToDocument who rid, own owner who id = true

/-- **The condition on a call.**  What it reads is not another's, and what it writes is its own. -/
def Apart (s : State W V U) (c : CrewCall W V K) : Prop :=
  match c.op with
  | .save records => ∀ r ∈ records, HolderOwn owner c.who s r
  | .update record => HolderOwn owner c.who s record ∧
      ∀ id ∈ s.recordToDocument c.who record.id, own owner c.who id = true
  | .search scopePrefix categories metadataFilter limit recalled =>
      Runs.Guarded (visitHit (matchesFilters scopePrefix categories metadataFilter) limit.toNat)
        (fun out hit =>
          ReturnsHit (matchesFilters scopePrefix categories metadataFilter) limit.toNat out hit →
            notOthers owner c.who hit.1 = true) [] (backend.hits s.documents recalled)
  | .getRecord recordId => s.recordToDocument c.who recordId = none →
      ∀ d ∈ backend.lookupRow s.documents recordId, notOthers owner c.who d.id = true
  | .listRecords scopePrefix limit offset => limit.toNat ≠ 0 →
      Runs.Guarded (backend.visitRow scopePrefix limit.toNat offset.toNat)
        (fun l d => backend.ListsRow scopePrefix limit.toNat offset.toNat l d →
          notOthers owner c.who d.id = true) ⟨0, []⟩ (backend.rows s.documents)
  | .count none => ∀ d ∈ s.documents.docs, notOthers owner c.who d.id = true
  | .count (some scopePrefix) => ∀ d ∈ backend.rows s.documents,
      startsWith (some scopePrefix) (backend.scopeOf d.metadata) = true →
        notOthers owner c.who d.id = true
  | .delete recordIds filter => backend.DeletesOwn owner c.who s recordIds filter
  | .reset scopePrefix => backend.DeletesOwn owner c.who s [] ⟨scopePrefix, [], none, .empty⟩

instance (s : State W V U) (recordIds : List (List Char)) (filter : CrewFilter V) (who : W) :
    Decidable (backend.DeletesOwn owner who s recordIds filter) :=
  have : Decidable (backend.FilterOwn owner who s filter) :=
    inferInstanceAs (Decidable ((∀ d ∈ backend.rows s.documents,
      backend.comparisonRaises filter d = true → own owner who d.id = true) ∧ (∀ d ∈ backend.rows s.documents,
      backend.matchesDelete filter d = true → own owner who d.id = true) ∧ (_ ∨ (∀ d ∈
        backend.rows s.documents, backend.matchesDelete filter d = false) ∨
          ∀ d ∈ backend.rows s.documents, notOthers owner who d.id = true)))
  inferInstanceAs (Decidable (if recordIds = [] then backend.FilterOwn owner who s filter
    else ∀ rid ∈ recordIds, ∀ id ∈ s.recordToDocument who rid, own owner who id = true))

instance (s : State W V U) (who : W) (record : MemoryRecord V) :
    Decidable (HolderOwn owner who s record) :=
  inferInstanceAs (Decidable (∀ d ∈ s.documents.getByExternalId _, own owner who d.id = true))

instance (scopePrefix : Option (List Char)) (limit offset : ℕ) (l : Listing V) (doc : Doc V U) :
    Decidable (backend.ListsRow scopePrefix limit offset l doc) :=
  inferInstanceAs (Decidable (_ ∧ _ ∧ _))

instance (keep : MemoryRecord V → Bool) (limit : ℕ) (out : List (MemoryRecord V × K))
    (hit : ℕ × MemoryRecord V × K) : Decidable (ReturnsHit keep limit out hit) :=
  inferInstanceAs (Decidable (_ ∧ _))

instance (s : State W V U) : ∀ c : CrewCall W V K, Decidable (backend.Apart owner s c)
  | ⟨who, _, .save records⟩ => inferInstanceAs (Decidable (∀ r ∈ records, HolderOwn owner who s r))
  | ⟨who, _, .update record⟩ => inferInstanceAs (Decidable (HolderOwn owner who s record ∧
      ∀ id ∈ s.recordToDocument who record.id, own owner who id = true))
  | ⟨_, _, .search ..⟩ => inferInstanceAs (Decidable (Runs.Guarded ..))
  | ⟨who, _, .getRecord recordId⟩ => inferInstanceAs (Decidable (s.recordToDocument who recordId = none →
      ∀ d ∈ backend.lookupRow s.documents recordId, notOthers owner who d.id = true))
  | ⟨_, _, .listRecords ..⟩ => inferInstanceAs (Decidable (_ ≠ 0 → Runs.Guarded ..))
  | ⟨who, _, .count none⟩ => inferInstanceAs (Decidable (∀ d ∈ s.documents.docs, notOthers owner who d.id = true))
  | ⟨who, _, .count (some scopePrefix)⟩ => inferInstanceAs (Decidable (∀ d ∈ backend.rows s.documents,
      startsWith (some scopePrefix) (backend.scopeOf d.metadata) = true →
        notOthers owner who d.id = true))
  | ⟨_, _, .delete ..⟩ => inferInstanceAs (Decidable (backend.DeletesOwn ..))
  | ⟨_, _, .reset _⟩ => inferInstanceAs (Decidable (backend.DeletesOwn ..))

end Condition

/-! ## A comparison that raises -/

section Raises

variable {backend} {who : W} [DecidableEq W] [DecidableEq V] {filter : CrewFilter V}

theorem deleteByFilter_succ {fuel offset : ℕ} {acc : State W V U × ℕ} :
    backend.deleteByFilter who filter (fuel + 1) offset acc =
      if Pages.page pageSize (backend.rows acc.1.documents) offset = [] then acc
      else if (Pages.page pageSize (backend.rows acc.1.documents) offset).length < pageSize then
        (Pages.page pageSize (backend.rows acc.1.documents) offset).foldl
          (backend.deleteRow who filter) acc
      else backend.deleteByFilter who filter fuel (offset + pageSize)
        ((Pages.page pageSize (backend.rows acc.1.documents) offset).foldl
          (backend.deleteRow who filter) acc) := rfl

theorem foldl_deleteRow_of_none {page : List (Doc V U)}
    {acc : State W V U × ℕ} (h : ∀ d ∈ page, backend.matchesDelete filter d = false) :
    page.foldl (backend.deleteRow who filter) acc = acc := by
  induction page with
  | nil => rfl
  | cons d page ih =>
    rw [List.forall_mem_cons] at h
    rw [List.foldl_cons, deleteRow, if_neg (Bool.eq_false_iff.mp h.1)]
    exact ih h.2

theorem deleteByFilter_of_none {s : State W V U} {deleted : ℕ}
    (h : ∀ d ∈ backend.rows s.documents, backend.matchesDelete filter d = false) {fuel : ℕ} :
    ∀ {offset : ℕ}, backend.deleteByFilter who filter fuel offset (s, deleted) = (s, deleted) := by
  induction fuel with
  | zero => exact rfl
  | succ fuel ih =>
    intro offset
    have hpage : (Pages.page pageSize (backend.rows s.documents) offset).foldl
        (backend.deleteRow who filter) (s, deleted) = (s, deleted) :=
      foldl_deleteRow_of_none fun d hd => h d (List.mem_of_mem_drop (List.mem_of_mem_take hd))
    rw [deleteByFilter_succ, hpage]
    split
    · rfl
    · split
      · rfl
      · exact ih

omit [DecidableEq W] in
theorem not_matchesDelete (hcomparable : backend.comparable filter = false) {doc : Doc V U}
    (h : backend.comparisonRaises filter doc = false) : backend.matchesDelete filter doc = false := by
  have hreaches : backend.reachesCutoff filter doc = false := by
    simpa only [comparisonRaises, hcomparable, Bool.not_false, Bool.true_and] using h
  rw [matchesDelete, hreaches, Bool.false_and, Bool.false_and]

theorem deleteByFilterE_of_comparable (hcomparable : backend.comparable filter = true) {fuel : ℕ} :
    ∀ {offset : ℕ} {acc : State W V U × ℕ}, backend.deleteByFilterE who filter fuel offset acc =
      .ok (backend.deleteByFilter who filter fuel offset acc) := by
  have hrow : backend.deleteRowE who filter = fun acc doc => pure (backend.deleteRow who filter acc doc) := by
    funext acc doc
    rw [deleteRowE, comparisonRaises, hcomparable]
    rfl
  induction fuel with
  | zero => exact rfl
  | succ fuel ih =>
    intro offset acc
    rw [deleteByFilterE, deleteByFilter, hrow]
    simp only [List.foldlM_pure]
    split
    · rfl
    · split
      · rfl
      · exact ih

/-- Where the cutoff cannot be compared, nothing is deleted before the exception. -/
theorem foldlM_deleteRowE (hcomparable : backend.comparable filter = false) (s : State W V U) (deleted : ℕ)
    (page : List (Doc V U)) : page.foldlM (backend.deleteRowE who filter) (s, deleted) =
      if page.any (backend.comparisonRaises filter) then .error s else .ok (s, deleted) := by
  induction page with
  | nil => rfl
  | cons d page ih =>
    rw [List.foldlM_cons, deleteRowE, List.any_cons]
    cases hd : backend.comparisonRaises filter d with
    | true => rfl
    | false =>
      rw [deleteRow, not_matchesDelete hcomparable hd]
      exact ih

theorem deleteByFilterE_of_not (hcomparable : backend.comparable filter = false) (s : State W V U) (deleted : ℕ)
    {fuel : ℕ} : ∀ {offset : ℕ}, ((backend.rows s.documents).drop offset).length < fuel →
      backend.deleteByFilterE who filter fuel offset (s, deleted) =
        if ((backend.rows s.documents).drop offset).any (backend.comparisonRaises filter) then .error s
        else .ok (s, deleted) := by
  have hsize : 0 < pageSize := by decide
  induction fuel with
  | zero => exact fun h => absurd h (Nat.not_lt_zero _)
  | succ fuel ih =>
    intro offset hfuel
    have hsplit := Pages.drop_eq_page_append pageSize offset (backend.rows s.documents)
    rw [deleteByFilterE]
    dsimp only
    rw [foldlM_deleteRowE hcomparable]
    by_cases hnil : Pages.page pageSize (backend.rows s.documents) offset = []
    · rw [if_pos hnil, Pages.drop_of_page_nil hsize hnil]
      rfl
    · rw [if_neg hnil]
      by_cases hshort : (Pages.page pageSize (backend.rows s.documents) offset).length < pageSize
      · rw [if_pos hshort, Pages.page_eq_drop hshort]
      · rw [if_neg hshort, hsplit, List.any_append]
        cases hpage : (Pages.page pageSize (backend.rows s.documents) offset).any
          (backend.comparisonRaises filter) with
        | true => rfl
        | false =>
          refine ih ?_
          have hfull := Pages.le_of_full_page hshort
          rw [List.length_drop] at hfuel ⊢
          omega

/-- **The loop raises exactly if a document comes to a comparison that does**, and then nothing is deleted. -/
theorem deleteByFilterE_eq (s : State W V U) {fuel : ℕ} (hfuel : (backend.rows s.documents).length < fuel) :
    backend.deleteByFilterE who filter fuel 0 (s, 0) =
      if (backend.rows s.documents).any (backend.comparisonRaises filter) then .error s
      else .ok (backend.deleteByFilter who filter fuel 0 (s, 0)) := by
  cases hcomparable : backend.comparable filter with
  | true =>
    have hnone : (backend.rows s.documents).any (backend.comparisonRaises filter) = false := by
      refine List.any_eq_false.mpr fun d _ => ?_
      rw [comparisonRaises, hcomparable]
      exact Bool.false_ne_true
    rw [deleteByFilterE_of_comparable hcomparable, hnone]
    rfl
  | false =>
    rw [deleteByFilterE_of_not hcomparable s 0 (by rwa [List.drop_zero]), List.drop_zero]
    split
    · rfl
    next hnone =>
      rw [Bool.not_eq_true, List.any_eq_false] at hnone
      rw [deleteByFilter_of_none fun d hd => not_matchesDelete hcomparable (Bool.eq_false_iff.mpr (hnone d hd))]

theorem deleteE_eq (s : State W V U) (recordIds : List (List Char)) : backend.deleteE who s recordIds filter =
    if recordIds = [] ∧ (backend.rows s.documents).any (backend.comparisonRaises filter) = true then .error s
    else .ok (backend.delete who s recordIds filter) := by
  unfold deleteE delete
  by_cases hids : recordIds = []
  · rw [if_pos hids, if_pos hids, deleteByFilterE_eq s (Nat.lt_succ_self _)]
    simp only [hids, true_and]
  · rw [if_neg hids, if_neg hids, if_neg fun h => hids h.1]

variable [DecidableEq U] [DecidableEq H]

theorem step_delete (s : State W V U) (time : ℕ) (recordIds : List (List Char)) (filter : CrewFilter V) :
    backend.step s (⟨who, time, .delete recordIds filter⟩ : CrewCall W V K) =
      if recordIds = [] ∧ (backend.rows s.documents).any (backend.comparisonRaises filter) = true then (s, .raised)
      else ((backend.delete who s recordIds filter).1, .number (backend.delete who s recordIds filter).2) := by
  show (match backend.deleteE who s recordIds filter with
    | .ok (s, deleted) => (s, CrewAnswer.number deleted)
    | .error s => (s, CrewAnswer.raised)) = _
  rw [deleteE_eq]
  by_cases h : recordIds = [] ∧ (backend.rows s.documents).any (backend.comparisonRaises filter) = true
  · rw [if_pos h, if_pos h]
  · rw [if_neg h, if_neg h]

/-- A reset has no cutoff. -/
theorem step_reset (s : State W V U) (time : ℕ) (scopePrefix : Option (List Char)) :
    backend.step s (⟨who, time, .reset scopePrefix⟩ : CrewCall W V K) =
      ((backend.delete who s [] ⟨scopePrefix, [], none, .empty⟩).1, .done) := by
  have hnone : ¬(backend.rows s.documents).any (backend.comparisonRaises ⟨scopePrefix, [], none, .empty⟩) = true := by
    rw [Bool.not_eq_true, List.any_eq_false]
    exact fun d _ => Bool.false_ne_true
  show (match backend.deleteE who s [] ⟨scopePrefix, [], none, .empty⟩ with
    | .ok (s, _) => (s, CrewAnswer.done)
    | .error s => (s, CrewAnswer.raised)) = _
  rw [deleteE_eq, if_neg fun h => hnone h.2]

end Raises

/-! ## Calls touch documents of their own -/

section Own

variable {backend} {owner : ℕ → Option W} {who : W} {keep : ℕ → Bool}

/-- Only documents that are not kept, and the mapping of one backend, differ. -/
structure Only (who : W) (keep : ℕ → Bool) (s s' : State W V U) : Prop where
  documents : s'.documents.kept keep = s.documents.kept keep
  mapping : ∀ w, w ≠ who → s'.recordToDocument w = s.recordToDocument w

theorem Only.refl (s : State W V U) : Only who keep s s := ⟨rfl, fun _ _ => rfl⟩

theorem Only.trans {s s' s'' : State W V U} (h : Only who keep s s') (h' : Only who keep s' s'') :
    Only who keep s s'' :=
  ⟨h'.documents.trans h.documents, fun w hw => (h'.mapping w hw).trans (h.mapping w hw)⟩

/-- What a delete leaves. -/
structure Shrinks (who : W) (keep : ℕ → Bool) (s s' : State W V U) : Prop
    extends Only who keep s s' where
  nextId : s'.documents.nextId = s.documents.nextId
  docs : ∀ d ∈ s'.documents.docs, d ∈ s.documents.docs
  mapped : ∀ rid id, s'.recordToDocument who rid = some id → s.recordToDocument who rid = some id

theorem Shrinks.refl (s : State W V U) : Shrinks who keep s s :=
  ⟨Only.refl s, rfl, fun _ h => h, fun _ _ h => h⟩

theorem Shrinks.rows {s s' : State W V U} (h : Shrinks who keep s s') :
    ∀ d ∈ backend.rows s'.documents, d ∈ backend.rows s.documents := by
  unfold KhoraStorageBackend.rows
  cases backend.isRowId with
  | true => exact h.docs
  | false => exact fun _ hd => hd

theorem nextId_reserve {documents : Docs V U} {time : ℕ} (h : documents.nextId ≤ time) :
    (reserve documents time).nextId = time := Nat.max_eq_right h

variable [DecidableEq W]

theorem notOthers_of_own {id : ℕ} (h : own owner who id = true) : notOthers owner who id = true := by
  unfold own at h
  unfold notOthers
  rw [of_decide_eq_true h, Option.all_some, decide_eq_true_eq]

/-- Whether a save replaces a document of the backend is decided by the others' documents. -/
theorem holderOwn_iff {s : State W V U} {record : MemoryRecord V} :
    HolderOwn owner who s record ↔
      ∀ d ∈ s.documents.kept (fun id => !own owner who id), d.externalId ≠ some (stripNul record.id) := by
  unfold HolderOwn
  constructor
  · intro h d hd hx
    rw [NamespaceDocuments.mem_kept, Bool.not_eq_true'] at hd
    have := h d (NamespaceDocuments.getByExternalId_eq_some_iff.mpr ⟨hd.1, hx⟩)
    rw [hd.2] at this
    exact Bool.false_ne_true this
  · intro h d hd
    rw [Option.mem_def, NamespaceDocuments.getByExternalId_eq_some_iff] at hd
    by_contra hno
    exact h d (NamespaceDocuments.mem_kept.mpr ⟨hd.1, by rw [Bool.eq_false_iff.mpr hno]; rfl⟩) hd.2

theorem HolderOwn.only {s s' : State W V U} {record : MemoryRecord V}
    (h : HolderOwn owner who s record) (honly : Only who (fun id => !own owner who id) s s') :
    HolderOwn owner who s' record := by
  rw [holderOwn_iff] at h ⊢
  rw [honly.documents]
  exact h

theorem own_not {id : ℕ} (h : own owner who id = true) : (!own owner who id) = false := by
  rw [h]
  rfl

section Saves

variable [DecidableEq U] [DecidableEq H]

theorem saveRecord_only {time : ℕ} {s : State W V U} {record : MemoryRecord V}
    (hown : ∀ id, own owner who id = true → keep id = false) (htime : s.documents.nextId ≤ time)
    (hdraw : own owner who time = true) (h : HolderOwn owner who s record) :
    Only who keep s (backend.saveRecord who time s record) := by
  constructor
  · show NamespaceDocuments.kept keep (NamespaceDocuments.remember ..).1 = _
    rw [NamespaceDocuments.kept_remember]
    · rfl
    · rw [nextId_reserve htime]
      exact hown time hdraw
    · exact fun d hd => hown d.id (h d hd)
  · intro w hw
    exact Function.update_of_ne hw _ _

theorem nextId_saveRecord {time : ℕ} {s : State W V U} {record : MemoryRecord V}
    (htime : s.documents.nextId ≤ time) :
    (backend.saveRecord who time s record).documents.nextId ≤ time + 1 := by
  have hnext : (backend.saveRecord who time s record).documents.nextId = (reserve s.documents time).nextId ∨
      (backend.saveRecord who time s record).documents.nextId = (reserve s.documents time).nextId + 1 :=
    NamespaceDocuments.nextId_remember
  rw [nextId_reserve htime] at hnext
  omega

theorem save_only {records : List (MemoryRecord V)} :
    ∀ {time : ℕ} {s : State W V U},
      (∀ id, own owner who id = true → keep id = false) → s.documents.nextId ≤ time →
      (∀ i < records.length, own owner who (time + i) = true) →
      (∀ r ∈ records, HolderOwn owner who s r) → Only who keep s (backend.save who time s records) := by
  induction records with
  | nil => exact fun _ _ _ _ => Only.refl _
  | cons r records ih =>
    intro time s hown htime hdraws h
    have hdraw := hdraws 0 (Nat.succ_pos _)
    have hr := h r (List.mem_cons_self ..)
    have hothers : Only who (fun id => !own owner who id) s (backend.saveRecord who time s r) :=
      saveRecord_only (fun _ => own_not) htime hdraw hr
    have hfirst : Only who keep s (backend.saveRecord who time s r) :=
      saveRecord_only hown htime hdraw hr
    apply hfirst.trans
    apply ih hown (nextId_saveRecord htime)
    · intro i hi
      rw [Nat.add_assoc, Nat.add_comm 1]
      exact hdraws (i + 1) (Nat.succ_lt_succ hi)
    · exact fun r' hr' => (h r' (List.mem_cons_of_mem _ hr')).only hothers

theorem le_nextId_saveRecord {time : ℕ} {s : State W V U} {record : MemoryRecord V} :
    s.documents.nextId ≤ (backend.saveRecord who time s record).documents.nextId := by
  have hnext : (backend.saveRecord who time s record).documents.nextId = (reserve s.documents time).nextId ∨
      (backend.saveRecord who time s record).documents.nextId = (reserve s.documents time).nextId + 1 :=
    NamespaceDocuments.nextId_remember
  have hreserve : s.documents.nextId ≤ (reserve s.documents time).nextId := Nat.le_max_left _ _
  omega

theorem le_nextId_save {records : List (MemoryRecord V)} :
    ∀ {time : ℕ} {s : State W V U},
      s.documents.nextId ≤ (backend.save who time s records).documents.nextId := by
  induction records with
  | nil => exact Nat.le_refl _
  | cons r records ih => exact Nat.le_trans le_nextId_saveRecord ih

theorem nextId_save {records : List (MemoryRecord V)} :
    ∀ {time : ℕ} {s : State W V U}, s.documents.nextId ≤ time →
      (backend.save who time s records).documents.nextId ≤ time + records.length := by
  induction records with
  | nil => exact fun h => h
  | cons r records ih =>
    intro time s htime
    rw [List.length_cons, Nat.add_comm records.length, ← Nat.add_assoc]
    exact ih (nextId_saveRecord htime)

end Saves

theorem forgetForUpdate_only {s : State W V U} {record : MemoryRecord V}
    (h : ∀ id ∈ s.recordToDocument who record.id, keep id = false) :
    Only who keep s (forgetForUpdate who s record) := by
  unfold forgetForUpdate
  cases hid : s.recordToDocument who record.id with
  | none => exact Only.refl s
  | some docId =>
    exact ⟨NamespaceDocuments.kept_forget (h docId hid), fun w hw => Function.update_of_ne hw _ _⟩

theorem nextId_forgetForUpdate {s : State W V U} {record : MemoryRecord V} :
    (forgetForUpdate who s record).documents.nextId = s.documents.nextId := by
  unfold forgetForUpdate
  cases s.recordToDocument who record.id <;> rfl

theorem mapped_of_forgetMapped {s : State W V U} {key : Option (List Char)} {docId : ℕ}
    {rid : List Char} {id : ℕ}
    (h : (forgetMapped who key docId s).1.recordToDocument who rid = some id) :
    s.recordToDocument who rid = some id := by
  unfold forgetMapped at h
  simp only [Function.update_self] at h
  split at h
  · cases key with
    | none => exact h
    | some k =>
      rw [Option.elim_some] at h
      by_cases hk : rid = k
      · rw [hk, Function.update_self] at h
        cases h
      · rwa [Function.update_of_ne hk] at h
  · exact h

theorem Shrinks.forgetMapped {s s' : State W V U} (h : Shrinks who keep s s')
    {key : Option (List Char)} {docId : ℕ} (hid : keep docId = false) :
    Shrinks who keep s (forgetMapped who key docId s').1 where
  documents := (NamespaceDocuments.kept_forget hid).trans h.documents
  mapping := fun w hw => (Function.update_of_ne hw _ _).trans (h.mapping w hw)
  nextId := h.nextId
  docs := fun d hd => h.docs d (NamespaceDocuments.mem_forget.mp hd).1
  mapped := fun rid id hr => h.mapped rid id (mapped_of_forgetMapped hr)

theorem deleteRecordIds_shrinks {s : State W V U} {recordIds : List (List Char)}
    (hids : ∀ rid ∈ recordIds, ∀ id ∈ s.recordToDocument who rid, keep id = false)
    {acc : State W V U × ℕ} (h : Shrinks who keep s acc.1) :
    Shrinks who keep s (recordIds.foldl (deleteRecordId who) acc).1 := by
  induction recordIds generalizing acc with
  | nil => exact h
  | cons rid recordIds ih =>
    rw [List.forall_mem_cons] at hids
    apply ih hids.2
    unfold deleteRecordId
    cases hid : acc.1.recordToDocument who rid with
    | none => exact h
    | some docId => exact h.forgetMapped (hids.1 docId (h.mapped rid docId hid))

variable [DecidableEq V]

theorem foldl_deleteRow_shrinks {s : State W V U} {filter : CrewFilter V} {page : List (Doc V U)}
    (hpage : ∀ d ∈ page, backend.matchesDelete filter d = true → keep d.id = false)
    {acc : State W V U × ℕ} (h : Shrinks who keep s acc.1) :
    Shrinks who keep s (page.foldl (backend.deleteRow who filter) acc).1 := by
  induction page generalizing acc with
  | nil => exact h
  | cons d page ih =>
    rw [List.forall_mem_cons] at hpage
    apply ih hpage.2
    unfold deleteRow
    by_cases hd : backend.matchesDelete filter d = true
    · rw [if_pos hd]
      exact h.forgetMapped (hpage.1 hd)
    · rw [if_neg hd]
      exact h

theorem deleteByFilter_shrinks {s : State W V U} {filter : CrewFilter V}
    (hrows : ∀ d ∈ backend.rows s.documents, backend.matchesDelete filter d = true → keep d.id = false)
    {fuel : ℕ} : ∀ {offset : ℕ} {acc : State W V U × ℕ}, Shrinks who keep s acc.1 →
      Shrinks who keep s (backend.deleteByFilter who filter fuel offset acc).1 := by
  induction fuel with
  | zero => exact fun h => h
  | succ fuel ih =>
    intro offset acc h
    have hpage : ∀ d ∈ Pages.page pageSize (backend.rows acc.1.documents) offset,
        backend.matchesDelete filter d = true → keep d.id = false := by
      intro d hd
      exact hrows d (h.rows d (List.mem_of_mem_drop (List.mem_of_mem_take hd)))
    have hfold := foldl_deleteRow_shrinks hpage h
    show Shrinks who keep s (if _ then acc else if _ then _ else _).1
    split
    · exact h
    · split
      · exact hfold
      · exact ih hfold

/-- What a delete must not match is kept. -/
def Spares (backend : KhoraStorageBackend W V U H) (who : W) (keep : ℕ → Bool) (s : State W V U)
    (recordIds : List (List Char)) (filter : CrewFilter V) : Prop :=
  if recordIds = [] then
    ∀ d ∈ backend.rows s.documents, backend.matchesDelete filter d = true → keep d.id = false
  else ∀ rid ∈ recordIds, ∀ id ∈ s.recordToDocument who rid, keep id = false

theorem delete_shrinks {s : State W V U} {recordIds : List (List Char)} {filter : CrewFilter V}
    (h : Spares backend who keep s recordIds filter) :
    Shrinks who keep s (backend.delete who s recordIds filter).1 := by
  unfold Spares at h
  unfold delete
  split at h
  · rw [if_pos ‹_›]
    exact deleteByFilter_shrinks h (Shrinks.refl s)
  · rw [if_neg ‹_›]
    exact deleteRecordIds_shrinks h (Shrinks.refl s)

theorem spares_of_deletesOwn {s : State W V U} {recordIds : List (List Char)} {filter : CrewFilter V}
    (hown : ∀ id, own owner who id = true → keep id = false)
    (h : backend.DeletesOwn owner who s recordIds filter) :
    Spares backend who keep s recordIds filter := by
  unfold DeletesOwn at h
  unfold Spares
  split at h
  · rw [if_pos ‹_›]
    exact fun d hd hmatch => hown d.id (h.2.1 d hd hmatch)
  · rw [if_neg ‹_›]
    exact fun rid hrid id hid => hown id (h rid hrid id hid)

theorem nextId_delete {s : State W V U} {recordIds : List (List Char)} {filter : CrewFilter V} :
    (backend.delete who s recordIds filter).1.documents.nextId = s.documents.nextId := by
  have hspares : Spares backend who (fun _ => false) s recordIds filter := by
    unfold Spares
    split
    · exact fun _ _ _ => rfl
    · exact fun _ _ _ _ => rfl
  exact (delete_shrinks hspares).nextId

variable [DecidableEq U] [DecidableEq H]

/-- **A call touches documents of its own.** -/
theorem step_only {s : State W V U} {c : CrewCall W V K}
    (hown : ∀ id, own owner c.who id = true → keep id = false) (htime : s.documents.nextId ≤ c.time)
    (hdraws : ∀ i < c.op.draws, own owner c.who (c.time + i) = true)
    (h : backend.Apart owner s c) : Only c.who keep s (backend.step s c).1 := by
  obtain ⟨who, time, op⟩ := c
  cases op with
  | save records => exact save_only hown htime hdraws h
  | update record =>
    have hforget : ∀ keep', (∀ id, own owner who id = true → keep' id = false) →
        Only who keep' s (forgetForUpdate who s record) := by
      intro keep' hkeep'
      exact forgetForUpdate_only fun id hid => hkeep' id (h.2 id hid)
    apply (hforget keep hown).trans
    apply save_only hown
    · rw [nextId_forgetForUpdate]
      exact htime
    · exact hdraws
    · intro r hr
      rw [List.mem_singleton.mp hr]
      exact h.1.only (hforget _ fun _ => own_not)
  | search => exact Only.refl s
  | getRecord recordId => exact ⟨rfl, fun w hw => Function.update_of_ne hw _ _⟩
  | listRecords => exact Only.refl s
  | count => exact Only.refl s
  | delete recordIds filter =>
    rw [step_delete]
    split
    · exact Only.refl s
    · exact (delete_shrinks (spares_of_deletesOwn hown h)).toOnly
  | reset scopePrefix =>
    rw [step_reset]
    exact (delete_shrinks (spares_of_deletesOwn hown h)).toOnly

theorem nextId_step {s : State W V U} {c : CrewCall W V K} (htime : s.documents.nextId ≤ c.time) :
    (backend.step s c).1.documents.nextId ≤ c.time + c.op.draws := by
  obtain ⟨who, time, op⟩ := c
  cases op with
  | save records => exact nextId_save htime
  | update record =>
    apply nextId_save
    rw [nextId_forgetForUpdate]
    exact htime
  | search => exact htime
  | getRecord recordId => exact htime
  | listRecords => exact htime
  | count => exact htime
  | delete recordIds filter =>
    rw [step_delete]
    split
    · exact htime
    · exact Nat.le_trans (Nat.le_of_eq nextId_delete) htime
  | reset scopePrefix =>
    rw [step_reset]
    exact Nat.le_trans (Nat.le_of_eq nextId_delete) htime

theorem le_nextId_step {s : State W V U} {c : CrewCall W V K} :
    s.documents.nextId ≤ (backend.step s c).1.documents.nextId := by
  obtain ⟨who, time, op⟩ := c
  cases op with
  | save records => exact le_nextId_save
  | update record => exact Nat.le_trans (Nat.le_of_eq nextId_forgetForUpdate.symm) le_nextId_save
  | search => exact Nat.le_refl _
  | getRecord recordId => exact Nat.le_refl _
  | listRecords => exact Nat.le_refl _
  | count => exact Nat.le_refl _
  | delete recordIds filter =>
    rw [step_delete]
    split
    · exact Nat.le_refl _
    · exact Nat.le_of_eq nextId_delete.symm
  | reset scopePrefix =>
    rw [step_reset]
    exact Nat.le_of_eq nextId_delete.symm

end Own

/-! ## A backend is answered as if it were alone -/

section Alone

variable {backend} {owner : ℕ → Option W} {who : W}

theorem visitHit_of_not {keep : MemoryRecord V → Bool} {limit : ℕ} {out : List (MemoryRecord V × K)}
    {hit : ℕ × MemoryRecord V × K} (h : ¬ReturnsHit keep limit out hit) :
    visitHit keep limit out hit = out := by
  unfold ReturnsHit at h
  unfold visitHit
  by_cases hfull : max limit 1 ≤ out.length
  · rw [if_pos hfull]
  · rw [if_neg hfull, if_neg]
    exact fun hkeep => h ⟨Nat.lt_of_not_le hfull, hkeep⟩

theorem visitRow_of_full {scopePrefix : Option (List Char)} {limit offset : ℕ} (l : Listing V)
    (d : Doc V U) (h : l.full limit = true) : backend.visitRow scopePrefix limit offset l d = l :=
  if_pos h

theorem visitRow_of_not {scopePrefix : Option (List Char)} {limit offset : ℕ} {l : Listing V}
    {d : Doc V U} (h : ¬backend.ListsRow scopePrefix limit offset l d) :
    backend.visitRow scopePrefix limit offset l d = l := by
  unfold ListsRow at h
  unfold visitRow
  by_cases hfull : l.full limit = true
  · rw [if_pos hfull]
  · rw [if_neg hfull]
    by_cases hscope : startsWith scopePrefix (backend.scopeOf d.metadata) = true
    · have hreach : ¬(l.skipped < offset ∨ (backend.chunks d).head? ≠ none) :=
        fun hand => h ⟨Bool.eq_false_iff.mpr hfull, hscope, hand⟩
      rw [not_or, not_not] at hreach
      rw [hscope, if_neg (by exact Bool.false_ne_true), if_neg hreach.1, hreach.2]
    · rw [Bool.eq_false_iff.mpr hscope, if_pos (by rfl)]

variable [DecidableEq W]

/-- The run of all, and the run of the calls of one backend: the documents that no other saved, and its
mapping. -/
structure Alone (owner : ℕ → Option W) (who : W) (s t : State W V U) : Prop where
  documents : NamespaceDocuments.Part (notOthers owner who) s.documents t.documents
  nextId : t.documents.nextId ≤ s.documents.nextId
  mapping : t.recordToDocument who = s.recordToDocument who
  mapped : ∀ rid id, s.recordToDocument who rid = some id → notOthers owner who id = true

theorem Alone.rows {s t : State W V U} (h : Alone owner who s t) :
    backend.rows t.documents =
      (backend.rows s.documents).filter fun d => notOthers owner who d.id := by
  unfold KhoraStorageBackend.rows
  cases backend.isRowId with
  | true => exact h.documents
  | false => rfl

theorem notOthers_of_other {w : W} (hw : w ≠ who) {id : ℕ} (h : own owner w id = true) :
    notOthers owner who id = false := by
  unfold own at h
  unfold notOthers
  rw [of_decide_eq_true h, Option.all_some, decide_eq_false_iff_not]
  exact hw

/-- What another touches is not seen. -/
theorem Alone.only {s s' t : State W V U} {w : W} (h : Alone owner who s t) (hw : w ≠ who)
    (honly : Only w (notOthers owner who) s s') (hnext : s.documents.nextId ≤ s'.documents.nextId) :
    Alone owner who s' t where
  documents := Eq.trans h.documents honly.documents.symm
  nextId := Nat.le_trans h.nextId hnext
  mapping := h.mapping.trans (honly.mapping who hw.symm).symm
  mapped := by
    rw [honly.mapping who hw.symm]
    exact h.mapped

/-- What is found and kept is found in what is kept. -/
theorem find?_filter_of_found {X : Type} {keep q : X → Bool} {l : List X}
    (h : ∀ x ∈ l.find? q, keep x = true) : (l.filter keep).find? q = l.find? q := by
  induction l with
  | nil => rfl
  | cons x l ih =>
    by_cases hq : q x = true
    · rw [List.find?_cons_of_pos hq] at h ⊢
      rw [List.filter_cons_of_pos (h x rfl), List.find?_cons_of_pos hq]
    · rw [List.find?_cons_of_neg hq] at h ⊢
      rw [← ih h, List.filter_cons]
      split
      · rw [List.find?_cons_of_neg hq]
      · rfl

theorem id_of_find? {docs : List (Doc V U)} {docId : ℕ} {d : Doc V U}
    (h : d ∈ docs.find? fun d => decide (d.id = docId)) : d.id = docId := by
  simpa using List.find?_some h

theorem find?_id_filter {keep : ℕ → Bool} {docs : List (Doc V U)} {docId : ℕ}
    (h : keep docId = true) :
    (docs.filter fun d => keep d.id).find? (fun d => decide (d.id = docId)) =
      docs.find? fun d => decide (d.id = docId) := by
  apply find?_filter_of_found
  intro d hd
  rw [id_of_find? hd]
  exact h

theorem find?_id_filter_none {keep : ℕ → Bool} {docs : List (Doc V U)} {docId : ℕ}
    (h : keep docId = false) :
    (docs.filter fun d => keep d.id).find? (fun d => decide (d.id = docId)) = none := by
  rw [List.find?_eq_none]
  intro d hd heq
  have hkeep := (List.mem_filter.mp hd).2
  rw [of_decide_eq_true heq, h] at hkeep
  exact Bool.false_ne_true hkeep

theorem firstChunk_alone {s t : State W V U} (h : Alone owner who s t) {docId : ℕ}
    (hid : notOthers owner who docId = true) :
    backend.firstChunk t.documents docId = backend.firstChunk s.documents docId := by
  unfold firstChunk
  rw [h.rows, find?_id_filter hid]

theorem lookupRow_alone {s t : State W V U} (h : Alone owner who s t) {rid : List Char}
    (hd : ∀ d ∈ backend.lookupRow s.documents rid, notOthers owner who d.id = true) :
    backend.lookupRow t.documents rid = backend.lookupRow s.documents rid := by
  unfold lookupRow
  rw [h.rows]
  exact find?_filter_of_found hd

theorem getRecord_alone {s t : State W V U} (h : Alone owner who s t) {rid : List Char}
    (hd : s.recordToDocument who rid = none →
      ∀ d ∈ backend.lookupRow s.documents rid, notOthers owner who d.id = true) :
    backend.getRecord t.documents (t.recordToDocument who) rid =
        backend.getRecord s.documents (s.recordToDocument who) rid ∧
      ∀ rid' id, (backend.getRecord s.documents (s.recordToDocument who) rid).1 rid' = some id →
        notOthers owner who id = true := by
  unfold getRecord
  rw [h.mapping]
  cases hid : s.recordToDocument who rid with
  | some docId => exact ⟨congrArg _ (firstChunk_alone h (h.mapped rid docId hid)), h.mapped⟩
  | none =>
    have hrow := hd hid
    rw [lookupRow_alone h hrow]
    cases hdoc : backend.lookupRow s.documents rid with
    | none => exact ⟨rfl, h.mapped⟩
    | some doc =>
      have hkeep := hrow doc hdoc
      refine ⟨congrArg _ (firstChunk_alone h hkeep), ?_⟩
      intro rid' id hr
      have hr : Function.update (s.recordToDocument who) rid (some doc.id) rid' = some id := hr
      by_cases hrid : rid' = rid
      · rw [hrid, Function.update_self, Option.some.injEq] at hr
        rw [← hr]
        exact hkeep
      · rw [Function.update_of_ne hrid] at hr
        exact h.mapped rid' id hr

theorem hits_alone {s t : State W V U} (h : Alone owner who s t) (recalled : List (ℕ × ℕ × K)) :
    backend.hits t.documents recalled =
      (backend.hits s.documents recalled).filter fun hit => notOthers owner who hit.1 := by
  unfold hits
  rw [List.filter_filterMap]
  apply List.filterMap_congr
  intro r _
  rw [h.documents, NamespaceDocuments.kept]
  by_cases hr : notOthers owner who r.1 = true
  · rw [find?_id_filter hr]
    cases hd : s.documents.docs.find? fun d => decide (d.id = r.1) with
    | none => rfl
    | some d =>
      have hid := id_of_find? hd
      rw [Option.bind_some]
      cases (backend.chunks d)[r.2.1]? with
      | none => rfl
      | some chunk =>
        rw [Option.map_some, Option.filter_some, if_pos]
        rw [hid]
        exact hr
  · rw [find?_id_filter_none (Bool.eq_false_iff.mpr hr)]
    cases hd : s.documents.docs.find? fun d => decide (d.id = r.1) with
    | none => rfl
    | some d =>
      have hid := id_of_find? hd
      rw [Option.bind_some]
      cases (backend.chunks d)[r.2.1]? with
      | none => rfl
      | some chunk =>
        rw [Option.map_some, Option.filter_some, if_neg]
        · rfl
        · rw [hid]
          exact hr

theorem search_alone {s t : State W V U} (h : Alone owner who s t) {keep : MemoryRecord V → Bool}
    {limit : ℕ} {recalled : List (ℕ × ℕ × K)}
    (hreach : Runs.Guarded (visitHit keep limit)
      (fun out hit => ReturnsHit keep limit out hit → notOthers owner who hit.1 = true) []
      (backend.hits s.documents recalled)) :
    (backend.hits t.documents recalled).foldl (visitHit keep limit) [] =
      (backend.hits s.documents recalled).foldl (visitHit keep limit) [] := by
  rw [hits_alone h]
  apply Runs.run_filter
  apply hreach.imp
  intro out hit hown hother
  apply visitHit_of_not
  intro hreturns
  rw [hown hreturns] at hother
  exact Bool.false_ne_true hother.symm

theorem listRecords_alone {s t : State W V U} (h : Alone owner who s t)
    {scopePrefix : Option (List Char)} {limit offset : ℕ}
    (hreach : limit ≠ 0 → Runs.Guarded (backend.visitRow scopePrefix limit offset)
      (fun l d => backend.ListsRow scopePrefix limit offset l d → notOthers owner who d.id = true)
      ⟨0, []⟩ (backend.rows s.documents)) :
    backend.listRecords t.documents scopePrefix limit offset =
      backend.listRecords s.documents scopePrefix limit offset := by
  unfold listRecords
  by_cases hlimit : limit = 0
  · rw [if_pos hlimit, if_pos hlimit]
  · have hsize : 0 < max limit 50 := Nat.lt_of_lt_of_le (by decide) (Nat.le_max_right _ _)
    rw [if_neg hlimit, if_neg hlimit,
      Pages.foldPages_eq hsize visitRow_of_full _ (Nat.lt_succ_self _),
      Pages.foldPages_eq hsize visitRow_of_full _ (Nat.lt_succ_self _), List.drop_zero, List.drop_zero,
      h.rows]
    congr 1
    apply Runs.run_filter
    apply (hreach hlimit).imp
    intro l d hown hother
    apply visitRow_of_not
    intro hlists
    rw [hown hlists] at hother
    exact Bool.false_ne_true hother.symm

theorem count_alone {s t : State W V U} (h : Alone owner who s t) {scopePrefix : Option (List Char)}
    (hnone : scopePrefix = none → ∀ d ∈ s.documents.docs, notOthers owner who d.id = true)
    (hsome : scopePrefix ≠ none → ∀ d ∈ backend.rows s.documents,
      startsWith scopePrefix (backend.scopeOf d.metadata) = true → notOthers owner who d.id = true) :
    backend.count t.documents scopePrefix = backend.count s.documents scopePrefix := by
  cases scopePrefix with
  | none =>
    show t.documents.docs.length = s.documents.docs.length
    rw [h.documents, NamespaceDocuments.kept, List.filter_eq_self.mpr (hnone rfl)]
  | some p =>
    have hstop : ∀ (total : ℕ) (d : Doc V U), false = true →
        backend.visitCount (some p) total d = total := fun _ _ hfalse => absurd hfalse Bool.false_ne_true
    have hsize : 0 < pageSize := by decide
    unfold count
    rw [Pages.foldPages_eq hsize hstop _ (Nat.lt_succ_self _),
      Pages.foldPages_eq hsize hstop _ (Nat.lt_succ_self _), List.drop_zero, List.drop_zero, h.rows]
    have hmatch := hsome (Option.some_ne_none p)
    apply Runs.run_filter
    apply Runs.guarded_of_forall
    intro d hd total hother
    unfold visitCount
    rw [if_neg]
    intro hstarts
    rw [hmatch d hd hstarts] at hother
    exact Bool.false_ne_true hother.symm

/-! ### Writes -/

theorem forgetMapped_alone {s t : State W V U} (h : Alone owner who s t) {key : Option (List Char)}
    {docId : ℕ} (hid : notOthers owner who docId = true) :
    Alone owner who (forgetMapped who key docId s).1 (forgetMapped who key docId t).1 ∧
      (forgetMapped who key docId t).2 = (forgetMapped who key docId s).2 := by
  have hok : (t.documents.docs.any fun d => decide (d.id = docId)) =
      s.documents.docs.any fun d => decide (d.id = docId) := by
    rw [h.documents, NamespaceDocuments.kept, List.any_filter]
    congr 1
    funext d
    by_cases hd : d.id = docId
    · rw [hd, hid, Bool.true_and]
    · rw [decide_eq_false hd, Bool.and_false]
  refine ⟨⟨h.documents.forget docId, h.nextId, ?_, ?_⟩, hok⟩
  · show Function.update t.recordToDocument who _ who = Function.update s.recordToDocument who _ who
    rw [Function.update_self, Function.update_self, hok, h.mapping]
  · exact fun rid id hr => h.mapped rid id (mapped_of_forgetMapped hr)

/-- The relation of a delete: the states and the number of documents deleted. -/
def DeletedAlike (owner : ℕ → Option W) (who : W) (acc acc' : State W V U × ℕ) : Prop :=
  Alone owner who acc.1 acc'.1 ∧ acc'.2 = acc.2

theorem deleteRecordIds_alone {recordIds : List (List Char)} {acc acc' : State W V U × ℕ}
    (h : DeletedAlike owner who acc acc') :
    DeletedAlike owner who (recordIds.foldl (deleteRecordId who) acc)
      (recordIds.foldl (deleteRecordId who) acc') := by
  induction recordIds generalizing acc acc' with
  | nil => exact h
  | cons rid recordIds ih =>
    apply ih
    unfold deleteRecordId
    rw [h.1.mapping]
    cases hid : acc.1.recordToDocument who rid with
    | none => exact h
    | some docId =>
      obtain ⟨hstate, hok⟩ := @forgetMapped_alone _ _ _ _ _ _ _ _ h.1 (some rid) docId (h.1.mapped rid docId hid)
      refine ⟨hstate, ?_⟩
      show (if _ then acc'.2 + 1 else acc'.2) = if _ then acc.2 + 1 else acc.2
      rw [hok, h.2]

variable [DecidableEq V]

theorem foldl_deleteRow_alone {filter : CrewFilter V} {page : List (Doc V U)}
    (hpage : ∀ d ∈ page, backend.matchesDelete filter d = true → notOthers owner who d.id = true)
    {acc acc' : State W V U × ℕ} (h : DeletedAlike owner who acc acc') :
    DeletedAlike owner who (page.foldl (backend.deleteRow who filter) acc)
      (page.foldl (backend.deleteRow who filter) acc') := by
  induction page generalizing acc acc' with
  | nil => exact h
  | cons d page ih =>
    rw [List.forall_mem_cons] at hpage
    apply ih hpage.2
    unfold deleteRow
    by_cases hd : backend.matchesDelete filter d = true
    · rw [if_pos hd, if_pos hd]
      obtain ⟨hstate, hok⟩ := @forgetMapped_alone _ _ _ _ _ _ _ _ h.1 d.externalId d.id (hpage.1 hd)
      refine ⟨hstate, ?_⟩
      show (if _ then acc'.2 + 1 else acc'.2) = if _ then acc.2 + 1 else acc.2
      rw [hok, h.2]
    · rw [if_neg hd, if_neg hd]
      exact h

theorem rows_foldl_deleteRow {filter : CrewFilter V} (page : List (Doc V U))
    (acc : State W V U × ℕ) :
    (backend.rows (page.foldl (backend.deleteRow who filter) acc).1.documents).Sublist
      (backend.rows acc.1.documents) := by
  induction page generalizing acc with
  | nil => exact List.Sublist.refl _
  | cons d page ih =>
    apply (ih _).trans
    unfold deleteRow
    split
    · show (backend.rows (acc.1.documents.forget d.id)).Sublist _
      unfold KhoraStorageBackend.rows
      split
      · exact List.filter_sublist
      · exact List.Sublist.refl _
    · exact List.Sublist.refl _

/-- The rows of one page are visited once. -/
theorem deleteByFilter_one_page {filter : CrewFilter V} {s : State W V U} {deleted fuel : ℕ}
    (hlength : (backend.rows s.documents).length ≤ pageSize)
    (hfuel : (backend.rows s.documents).length < fuel) :
    backend.deleteByFilter who filter fuel 0 (s, deleted) =
      (backend.rows s.documents).foldl (backend.deleteRow who filter) (s, deleted) := by
  obtain ⟨fuel, rfl⟩ : ∃ f, fuel = f + 1 := ⟨fuel - 1, by omega⟩
  have hpage : Pages.page pageSize (backend.rows s.documents) 0 = backend.rows s.documents := by
    unfold Pages.page
    rw [List.drop_zero, List.take_of_length_le hlength]
  rw [deleteByFilter_succ, hpage]
  by_cases hnil : backend.rows s.documents = []
  · rw [if_pos hnil, hnil]
    rfl
  · rw [if_neg hnil]
    by_cases hshort : (backend.rows s.documents).length < pageSize
    · rw [if_pos hshort]
    · rw [if_neg hshort]
      -- behind a full first page there is nothing
      have hpositive : 0 < pageSize := by decide
      obtain ⟨fuel, rfl⟩ : ∃ f, fuel = f + 1 := ⟨fuel - 1, by omega⟩
      have hrest : (backend.rows ((backend.rows s.documents).foldl
          (backend.deleteRow who filter) (s, deleted)).1.documents).length ≤
            (backend.rows s.documents).length :=
        (rows_foldl_deleteRow _ (s, deleted)).length_le
      rw [deleteByFilter_succ]
      apply if_pos
      unfold Pages.page
      rw [List.drop_eq_nil_of_le (by omega), List.take_nil]

/-- Among documents of which none is another's, the pages are the same. -/
theorem deleteByFilter_alone {filter : CrewFilter V} {fuel : ℕ} :
    ∀ {offset : ℕ} {acc acc' : State W V U × ℕ}, DeletedAlike owner who acc acc' →
      (∀ d ∈ backend.rows acc.1.documents, notOthers owner who d.id = true) →
      DeletedAlike owner who (backend.deleteByFilter who filter fuel offset acc)
        (backend.deleteByFilter who filter fuel offset acc') := by
  induction fuel with
  | zero => exact fun h _ => h
  | succ fuel ih =>
    intro offset acc acc' h hkept
    have hrows : backend.rows acc'.1.documents = backend.rows acc.1.documents := by
      rw [h.1.rows, List.filter_eq_self.mpr hkept]
    have hfold := @foldl_deleteRow_alone _ _ _ _ backend owner who _ _ filter
      (Pages.page pageSize (backend.rows acc.1.documents) offset)
      (fun d hd _ => hkept d (List.mem_of_mem_drop (List.mem_of_mem_take hd))) acc acc' h
    rw [deleteByFilter_succ, deleteByFilter_succ, hrows]
    by_cases hnil : Pages.page pageSize (backend.rows acc.1.documents) offset = []
    · rw [if_pos hnil, if_pos hnil]
      exact h
    · rw [if_neg hnil, if_neg hnil]
      by_cases hshort : (Pages.page pageSize (backend.rows acc.1.documents) offset).length < pageSize
      · rw [if_pos hshort, if_pos hshort]
        exact hfold
      · rw [if_neg hshort, if_neg hshort]
        exact ih hfold fun d hd => hkept d ((rows_foldl_deleteRow _ _).subset hd)

theorem delete_alone {s t : State W V U} (h : Alone owner who s t) {recordIds : List (List Char)}
    {filter : CrewFilter V} (hown : backend.DeletesOwn owner who s recordIds filter) :
    DeletedAlike owner who (backend.delete who s recordIds filter)
      (backend.delete who t recordIds filter) := by
  have hstart : DeletedAlike owner who (s, 0) (t, 0) := ⟨h, rfl⟩
  unfold delete
  by_cases hids : recordIds = []
  · unfold DeletesOwn at hown
    rw [if_pos hids] at hown ⊢
    rw [if_pos hids]
    obtain ⟨-, hmatch, hpages⟩ := hown
    have hkept : ∀ d ∈ backend.rows s.documents, backend.matchesDelete filter d = true →
        notOthers owner who d.id = true := fun d hd hm => notOthers_of_own (hmatch d hd hm)
    have hsub : ∀ d ∈ backend.rows t.documents, d ∈ backend.rows s.documents := by
      intro d hd
      rw [h.rows] at hd
      exact (List.mem_filter.mp hd).1
    rcases hpages with hlength | hnone | hkeeps
    · have hlength' : (backend.rows t.documents).length ≤ pageSize := by
        rw [h.rows]
        exact Nat.le_trans (List.length_filter_le ..) hlength
      rw [deleteByFilter_one_page hlength (Nat.lt_succ_self _),
        deleteByFilter_one_page hlength' (Nat.lt_succ_self _)]
      -- another's documents are not matched
      have hskip : (backend.rows t.documents).foldl (backend.deleteRow who filter) (t, 0) =
          (backend.rows s.documents).foldl (backend.deleteRow who filter) (t, 0) := by
        rw [h.rows]
        apply Runs.run_filter
        apply Runs.guarded_of_forall
        intro d hd acc hother
        unfold deleteRow
        rw [if_neg]
        intro hm
        rw [hkept d hd hm] at hother
        exact Bool.false_ne_true hother.symm
      rw [hskip]
      exact foldl_deleteRow_alone hkept hstart
    · rw [deleteByFilter_of_none hnone, deleteByFilter_of_none fun d hd => hnone d (hsub d hd)]
      exact hstart
    · rw [show backend.rows t.documents = backend.rows s.documents by
        rw [h.rows, List.filter_eq_self.mpr hkeeps]]
      exact deleteByFilter_alone hstart hkeeps
  · rw [if_neg hids, if_neg hids]
    exact deleteRecordIds_alone hstart

/-- A delete raises in both runs or in none. -/
theorem raises_alone {s t : State W V U} (h : Alone owner who s t) {filter : CrewFilter V}
    (hown : backend.FilterOwn owner who s filter) :
    (backend.rows t.documents).any (backend.comparisonRaises filter) =
      (backend.rows s.documents).any (backend.comparisonRaises filter) := by
  rw [h.rows, List.any_filter, Bool.eq_iff_iff, List.any_eq_true, List.any_eq_true]
  refine exists_congr fun d => and_congr_right fun hd => ?_
  rw [Bool.and_eq_true]
  exact ⟨And.right, fun hraises => ⟨notOthers_of_own (hown.1 d hd hraises), hraises⟩⟩

omit [DecidableEq V] in
theorem forgetForUpdate_alone {s t : State W V U} (h : Alone owner who s t)
    {record : MemoryRecord V} :
    Alone owner who (forgetForUpdate who s record) (forgetForUpdate who t record) := by
  unfold forgetForUpdate
  rw [h.mapping]
  cases hid : s.recordToDocument who record.id with
  | none => exact h
  | some docId =>
    refine ⟨h.documents.forget docId, h.nextId, ?_, ?_⟩
    · show Function.update t.recordToDocument who _ who = Function.update s.recordToDocument who _ who
      rw [Function.update_self, Function.update_self]
    · intro rid id hr
      have hr : Function.update s.recordToDocument who _ who rid = some id := hr
      rw [Function.update_self] at hr
      by_cases hrid : rid = record.id
      · rw [hrid, Function.update_self] at hr
        cases hr
      · rw [Function.update_of_ne hrid] at hr
        exact h.mapped rid id hr

variable [DecidableEq U] [DecidableEq H]

omit [DecidableEq V] in
theorem saveRecord_alone {s t : State W V U} (h : Alone owner who s t) {time : ℕ}
    {record : MemoryRecord V} (htime : s.documents.nextId ≤ time) (hdraw : own owner who time = true)
    (hholder : HolderOwn owner who s record) :
    Alone owner who (backend.saveRecord who time s record) (backend.saveRecord who time t record) := by
  have hpart : NamespaceDocuments.Part (notOthers owner who) (reserve s.documents time)
      (reserve t.documents time) := h.documents
  have hs := nextId_reserve htime
  have ht := nextId_reserve (Nat.le_trans h.nextId htime)
  have hnew : notOthers owner who (reserve s.documents time).nextId = true := by
    rw [hs]
    exact notOthers_of_own hdraw
  obtain ⟨hdocs, hnext, hid, hkeep⟩ := @NamespaceDocuments.Part.remember _ _ _ _ _ _ _ _
    backend.ingest record.content (backend.rememberMetadata who record)
    (backend.sessionIdFromScope record.scope) record.id hpart (ht.trans hs.symm) hnew
    fun d hd => notOthers_of_own (hholder d hd)
  refine ⟨hdocs, Nat.le_of_eq hnext, ?_, ?_⟩
  · show Function.update t.recordToDocument who _ who = Function.update s.recordToDocument who _ who
    rw [Function.update_self, Function.update_self, h.mapping, hid]
  · intro rid id hr
    have hr : Function.update s.recordToDocument who _ who rid = some id := hr
    rw [Function.update_self] at hr
    by_cases hrid : rid = record.id
    · rw [hrid, Function.update_self, Option.some.injEq] at hr
      rw [← hr]
      exact hkeep
    · rw [Function.update_of_ne hrid] at hr
      exact h.mapped rid id hr

omit [DecidableEq V] in
theorem save_alone {records : List (MemoryRecord V)} :
    ∀ {time : ℕ} {s t : State W V U}, Alone owner who s t → s.documents.nextId ≤ time →
      (∀ i < records.length, own owner who (time + i) = true) →
      (∀ r ∈ records, HolderOwn owner who s r) →
      Alone owner who (backend.save who time s records) (backend.save who time t records) := by
  induction records with
  | nil => exact fun h _ _ _ => h
  | cons r records ih =>
    intro time s t h htime hdraws hholders
    have hdraw := hdraws 0 (Nat.succ_pos _)
    have hr := hholders r (List.mem_cons_self ..)
    have hothers : Only who (fun id => !own owner who id) s (backend.saveRecord who time s r) :=
      saveRecord_only (fun _ => own_not) htime hdraw hr
    apply ih (saveRecord_alone h htime hdraw hr) (nextId_saveRecord htime)
    · intro i hi
      rw [Nat.add_assoc, Nat.add_comm 1]
      exact hdraws (i + 1) (Nat.succ_lt_succ hi)
    · exact fun r' hr' => (hholders r' (List.mem_cons_of_mem _ hr')).only hothers

/-- **A call in the run of all and in the run of its backend.** -/
theorem step_alone {s t : State W V U} {c : CrewCall W V K} (h : Alone owner c.who s t)
    (htime : s.documents.nextId ≤ c.time)
    (hdraws : ∀ i < c.op.draws, own owner c.who (c.time + i) = true) (hapart : backend.Apart owner s c) :
    Alone owner c.who (backend.step s c).1 (backend.step t c).1 ∧
      (backend.step s c).2 = (backend.step t c).2 := by
  obtain ⟨who, time, op⟩ := c
  cases op with
  | save records => exact ⟨save_alone h htime hdraws hapart, rfl⟩
  | update record =>
    have hforget : Only who (fun id => !own owner who id) s (forgetForUpdate who s record) :=
      forgetForUpdate_only fun id hid => own_not (hapart.2 id hid)
    refine ⟨save_alone (forgetForUpdate_alone h) ?_ hdraws ?_, rfl⟩
    · rw [nextId_forgetForUpdate]
      exact htime
    · intro r hr
      rw [List.mem_singleton.mp hr]
      exact hapart.1.only hforget
  | search => exact ⟨h, congrArg CrewAnswer.scored (search_alone h hapart).symm⟩
  | getRecord recordId =>
    obtain ⟨heq, hmapped⟩ := getRecord_alone h hapart
    have hanswer := congrArg (fun found => (CrewAnswer.record found.2 : CrewAnswer V K)) heq.symm
    refine ⟨⟨h.documents, h.nextId, ?_, ?_⟩, hanswer⟩
    · show Function.update t.recordToDocument who
        (backend.getRecord t.documents (t.recordToDocument who) recordId).1 who =
          Function.update s.recordToDocument who
            (backend.getRecord s.documents (s.recordToDocument who) recordId).1 who
      rw [Function.update_self, Function.update_self]
      exact congrArg Prod.fst heq
    · intro rid id hr
      have hr : Function.update s.recordToDocument who
        (backend.getRecord s.documents (s.recordToDocument who) recordId).1 who rid = some id := hr
      rw [Function.update_self] at hr
      exact hmapped rid id hr
  | listRecords => exact ⟨h, congrArg CrewAnswer.records (listRecords_alone h hapart).symm⟩
  | count scopePrefix =>
    refine ⟨h, congrArg CrewAnswer.number (Eq.symm (count_alone h ?_ ?_))⟩
    · rintro rfl
      exact hapart
    · intro hsome
      cases scopePrefix with
      | none => exact absurd rfl hsome
      | some p => exact hapart
  | delete recordIds filter =>
    rw [step_delete, step_delete]
    have hraises : (recordIds = [] ∧ (backend.rows t.documents).any (backend.comparisonRaises filter) = true) ↔
        recordIds = [] ∧ (backend.rows s.documents).any (backend.comparisonRaises filter) = true := by
      refine and_congr_right fun hids => ?_
      have hfilter : backend.DeletesOwn owner who s recordIds filter := hapart
      unfold DeletesOwn at hfilter
      rw [if_pos hids] at hfilter
      rw [raises_alone h hfilter]
    simp only [hraises]
    split
    · exact ⟨h, rfl⟩
    · obtain ⟨hstate, hdeleted⟩ := delete_alone h hapart
      exact ⟨hstate, congrArg CrewAnswer.number hdeleted.symm⟩
  | reset scopePrefix =>
    rw [step_reset, step_reset]
    exact ⟨(delete_alone h hapart).1, rfl⟩

end Alone

/-! ## Runs -/

section Runs

theorem le_time_of_mem {calls : List (W × CrewOp V K)} {c : CrewCall W V K} :
    ∀ {time : ℕ}, c ∈ crewSchedule time calls → time ≤ c.time := by
  induction calls with
  | nil => exact fun h => absurd h List.not_mem_nil
  | cons call calls ih =>
    intro time h
    rcases List.mem_cons.mp h with rfl | h
    · exact Nat.le_refl time
    · exact Nat.le_trans (Nat.le_add_right _ _) (ih h)

/-- The uuids that a call draws are of documents saved through its backend. -/
theorem savedThrough_draw {calls : List (W × CrewOp V K)} {c : CrewCall W V K} {i : ℕ}
    (hi : i < c.op.draws) :
    ∀ {time : ℕ}, c ∈ crewSchedule time calls →
      savedThrough (crewSchedule time calls) (c.time + i) = some c.who := by
  induction calls with
  | nil => exact fun h => absurd h List.not_mem_nil
  | cons call calls ih =>
    intro time h
    unfold savedThrough crewSchedule
    rcases List.mem_cons.mp h with rfl | h
    · rw [List.find?_cons_of_pos]
      · rfl
      · exact decide_eq_true ⟨Nat.le_add_right _ _, Nat.add_lt_add_left hi _⟩
    · have hlater := le_time_of_mem h
      rw [List.find?_cons_of_neg]
      · exact ih h
      · intro hcovers
        have hlt : c.time + i < time + call.2.draws := (of_decide_eq_true hcovers).2
        omega

/-- What was there before was saved through none of them. -/
theorem savedThrough_of_lt {calls : List (W × CrewOp V K)} {time id : ℕ} (h : id < time) :
    savedThrough (crewSchedule time calls) id = none := by
  unfold savedThrough
  rw [Option.map_eq_none_iff, List.find?_eq_none]
  intro c hc hcovers
  have hle := le_time_of_mem hc
  have hcovers := (of_decide_eq_true hcovers).1
  omega

variable [DecidableEq W] [DecidableEq V] [DecidableEq U] [DecidableEq H] {backend}

/-- What the conditions and the times give in a state of a run. -/
def Timely (backend : KhoraStorageBackend W V U H) (owner : ℕ → Option W) (s : State W V U)
    (c : CrewCall W V K) : Prop :=
  s.documents.nextId ≤ c.time ∧ (∀ i < c.op.draws, own owner c.who (c.time + i) = true) ∧
    backend.Apart owner s c

theorem timely_of_guarded {owner : ℕ → Option W} {calls : List (W × CrewOp V K)} :
    ∀ {time : ℕ} {s : State W V U},
      (∀ c ∈ crewSchedule time calls, ∀ i < c.op.draws, owner (c.time + i) = some c.who) →
      s.documents.nextId ≤ time →
      Runs.Guarded (Isolation.next backend.step) (backend.Apart owner) s (crewSchedule time calls) →
      Runs.Guarded (Isolation.next backend.step) (Timely backend owner) s (crewSchedule time calls) := by
  induction calls with
  | nil => exact fun _ _ _ => trivial
  | cons call calls ih =>
    intro time s hdraws htime h
    unfold crewSchedule at hdraws
    rw [List.forall_mem_cons] at hdraws
    refine ⟨⟨htime, fun i hi => decide_eq_true (hdraws.1 i hi), h.1⟩, ?_⟩
    exact ih hdraws.2 (nextId_step htime) h.2

omit [DecidableEq V] [DecidableEq U] in
theorem alone_init (documents : Docs V U) (calls : List (W × CrewOp V K)) (who : W) :
    Alone (savedThrough (crewSchedule documents.nextId calls)) who (State.init W documents)
      (State.init W documents) where
  documents := by
    apply Eq.symm
    apply List.filter_eq_self.mpr
    intro d hd
    unfold notOthers
    rw [savedThrough_of_lt (documents.fresh d hd)]
    rfl
  nextId := Nat.le_refl _
  mapping := rfl
  mapped := fun _ _ h => absurd h.symm (Option.some_ne_none _)

/-- **The backends are isolated** in a run in which no call reads another's document and every write is
to documents of its own. -/
theorem isolated (backend : KhoraStorageBackend W V U H) (documents : Docs V U)
    (calls : List (W × CrewOp V K))
    (h : Runs.Guarded (Isolation.next backend.step)
      (backend.Apart (savedThrough (crewSchedule documents.nextId calls))) (State.init W documents)
      (crewSchedule documents.nextId calls)) (who : W) :
    Isolation.answers backend.step (fun c => decide (c.who = who)) (State.init W documents)
        (crewSchedule documents.nextId calls) =
      Isolation.answers backend.step (fun c => decide (c.who = who)) (State.init W documents)
        ((crewSchedule documents.nextId calls).filter fun c => decide (c.who = who)) ∧
    Runs.Guarded (Isolation.next backend.step)
      (fun s c => c.who ≠ who → (Isolation.next backend.step s c).documents.kept
          (own (savedThrough (crewSchedule documents.nextId calls)) who) =
        s.documents.kept (own (savedThrough (crewSchedule documents.nextId calls)) who))
      (State.init W documents) (crewSchedule documents.nextId calls) := by
  have htimely : Runs.Guarded (Isolation.next backend.step)
      (Timely backend (savedThrough (crewSchedule documents.nextId calls))) (State.init W documents)
      (crewSchedule documents.nextId calls) :=
    timely_of_guarded (fun c hc i hi => savedThrough_draw hi hc) (Nat.le_refl _) h
  constructor
  · apply Isolation.answers_eq_alone _ _ (alone_init documents calls who) htimely
    · rintro s t c hwho ⟨htime, hdraws, hapart⟩ halone
      obtain rfl : c.who = who := of_decide_eq_true hwho
      exact step_alone halone htime hdraws hapart
    · rintro s t c hwho ⟨htime, hdraws, hapart⟩ halone
      have hne : c.who ≠ who := fun heq => hwho (decide_eq_true heq)
      apply halone.only hne
      · exact step_only (fun _ => notOthers_of_other hne) htime hdraws hapart
      · exact le_nextId_step
  · apply htimely.imp
    rintro s c ⟨htime, hdraws, hapart⟩ hwho
    apply (step_only ?_ htime hdraws hapart).documents
    intro id hid
    unfold own at hid ⊢
    rw [of_decide_eq_true hid, decide_eq_false_iff_not, Option.some.injEq]
    exact hwho

end Runs

end KhoraStorageBackend

open KhoraStorageBackend

/-! ## Two users -/

/-- Two users on a namespace. -/
def twoUsers (isRowId : Bool) : KhoraStorageBackend Bool Unit Unit (List Char) where
  userId who := if who then "bobby-02".toList else "alice-01".toList
  appId _ := "crewai".toList
  isRowId := isRowId
  aware := true
  checksum := id
  stripOther := id
  chunks d := [⟨d.content, d.metadata, .null⟩]
  parseUuid _ := none
  showUuid _ := []
  nulFree _ := List.not_mem_nil
  showId n := (toString n).toList
  str _ := []
  parseTime _ := none
  defaultImportance := .null
  notPrivate := .null

def crewRecord (id content scope : String) : MemoryRecord Unit :=
  ⟨id.toList, content.toList, scope.toList, [], .empty, .null, .null, .null, .null, .null⟩

/-- Each in a scope and under ids of their own. -/
def ownScopes : List (Bool × CrewOp Unit ℕ) :=
  [(false, .save [crewRecord "m1" "tea" "/a"]), (true, .save [crewRecord "m2" "coffee" "/b"]),
    (false, .getRecord "m1".toList), (true, .count (some "/b".toList)),
    (false, .update (crewRecord "m1" "milk" "/a")),
    (true, .search (some "/b".toList) [] .empty 10 [(2, 0, 9), (1, 0, 5)]),
    (false, .delete [] ⟨some "/a".toList, [], some ⟨true, 9⟩, .empty⟩),
    (true, .listRecords (some "/b".toList) 10 0)]

theorem ownScopes_isolated :
    Isolation.answers (twoUsers true).step (fun c => decide (c.who = true)) (State.init Bool .empty)
        (crewSchedule 0 ownScopes) =
      Isolation.answers (twoUsers true).step (fun c => decide (c.who = true)) (State.init Bool .empty)
        ((crewSchedule 0 ownScopes).filter fun c => decide (c.who = true)) ∧
    Runs.Guarded (Isolation.next (twoUsers true).step)
      (fun s c => c.who ≠ true → (Isolation.next (twoUsers true).step s c).documents.kept
          (own (savedThrough (crewSchedule 0 ownScopes)) true) =
        s.documents.kept (own (savedThrough (crewSchedule 0 ownScopes)) true))
      (State.init Bool .empty) (crewSchedule 0 ownScopes) := by
  apply isolated (twoUsers true) .empty ownScopes
  decide

/-- Both save a record under one id; then the first searches. -/
def sharedRecordId : List (Bool × CrewOp Unit ℕ) :=
  [(false, .save [crewRecord "m1" "tea" "/a"]), (true, .save [crewRecord "m1" "coffee" "/b"]),
    (false, .search none [] .empty 10 [(0, 0, 1)])]

theorem another_users_record_lost :
    (twoUsers false).userId false ≠ (twoUsers false).userId true ∧
    Isolation.answers (twoUsers false).step (fun c => decide (c.who = false)) (State.init Bool .empty)
        (crewSchedule 0 sharedRecordId) ≠
      Isolation.answers (twoUsers false).step (fun c => decide (c.who = false)) (State.init Bool .empty)
        ((crewSchedule 0 sharedRecordId).filter fun c => decide (c.who = false)) ∧
    ¬Runs.Guarded (Isolation.next (twoUsers false).step)
      (fun s c => c.who ≠ false → (Isolation.next (twoUsers false).step s c).documents.kept
          (own (savedThrough (crewSchedule 0 sharedRecordId)) false) =
        s.documents.kept (own (savedThrough (crewSchedule 0 sharedRecordId)) false))
      (State.init Bool .empty) (crewSchedule 0 sharedRecordId) := by
  decide

end Khora
