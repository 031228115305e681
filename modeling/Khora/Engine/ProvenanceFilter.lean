import Khora.Engine.Retriever
import Khora.Lib.Pages

/-!
# Filtering items by their provenance

An entity or a relationship is kept if one of the chunks it came from passes the caller's filter.
The chunks are fetched page by page, and with each page the documents that were not seen before if
the filter reads a document key; the first page that fails ends the fetching.

* `filterPages_iff` — what the loop over the pages leaves, and when it returns.
* `filterItemsByProvenance_iff` — the result is verified, and exact if nothing failed, whenever the
  filter does not raise on a fetched chunk.
-/

namespace Khora

open Fallible

/-! ## The store -/

/-- A chunk with the document it belongs to. -/
structure ProvenanceChunk (Id Doc : Type) extends Chunk Id where
  documentId : Option Doc

/-- A `DocumentProjection`, as far as a record is made of it. -/
structure DocumentProjection where
  field : StringKey → Option String

/-- An exception of a fetch: `str(exc)` and the name of its type. -/
structure FetchError where
  text : String
  type : String

structure ProvenanceDegradation where
  component : String
  reason : String
  detail : Option String
  exception : String

/-- The storage seam: what is stored, in which order a batch comes, and which pages fail.  A page of
documents is known by the page of chunks it was asked for. -/
structure ProvenanceStore (Id Doc : Type) where
  chunk : Id → Option (ProvenanceChunk Id Doc)
  projection : Doc → Option DocumentProjection
  batch : List Id → List (Id × ProvenanceChunk Id Doc)
  mem_batch : ∀ page id ch, (id, ch) ∈ batch page ↔ id ∈ page ∧ chunk id = some ch
  chunksFail : List Id → Option FetchError
  documentsFail : List Id → List Doc → Option FetchError

variable {Id Doc Item : Type}

/-! ## Records -/

/-- `_DOC_KEYS`. -/
def docKeys : List String := StringKey.all.map StringKey.name

/-- The dict made of a raw chunk and the document's keys that have a value. -/
def hydratedRecord (ch : ProvenanceChunk Id Doc) (doc : Option DocumentProjection) : Record where
  attr := fun _ => none
  sourceDocument := none
  item := some fun name =>
    if name = "metadata" then some (.dict ch.metadata)
    else match SystemKey.ofName? name with
      | some (.date k) => some (((ch.toChunk.date k).map Value.datetime).getD .none)
      | some (.string k) => (doc.bind fun d => d.field k).map Value.str
      | none => none

/-- `_record_for`. -/
def recordFor (adapter : Option (ProvenanceChunk Id Doc → Option DocumentProjection → Record)) (needsDocs : Bool)
    (projections : Doc → Option DocumentProjection) (ch : ProvenanceChunk Id Doc) : Record :=
  let doc := if needsDocs then ch.documentId.bind projections else none
  match adapter with
  | some adapter => adapter ch doc
  | none => if needsDocs then hydratedRecord ch doc else ch.toChunk.record

/-! ## Fetching -/

section Fetch

variable [DecidableEq Doc] (s : ProvenanceStore Id Doc)

/-- `get_chunks_batch`. -/
def ProvenanceStore.getChunksBatch (page : List Id) : Except FetchError (List (Id × ProvenanceChunk Id Doc)) :=
  match s.chunksFail page with
  | some e => .error e
  | none => .ok (s.batch page)

/-- `get_document_projections_batch`. -/
def ProvenanceStore.getDocumentProjectionsBatch (page : List Id) (docPage : List Doc) :
    Except FetchError (Doc → Option DocumentProjection) :=
  match s.documentsFail page docPage with
  | some e => .error e
  | none => .ok fun d => if d ∈ docPage then s.projection d else none

/-- The documents of a page of chunks that are not hydrated yet. -/
def documentIds (projections : Doc → Option DocumentProjection) (chunks : List (Id × ProvenanceChunk Id Doc)) :
    List Doc :=
  ((chunks.filterMap fun entry => entry.2.documentId).filter fun d => (projections d).isNone).eraseDups

/-- The pages of documents asked for with a page of chunks. -/
def ProvenanceStore.hydrate (page : List Id) (docPages : List (List Doc))
    (projections : Doc → Option DocumentProjection) : Except FetchError (Doc → Option DocumentProjection) :=
  docPages.foldlM (fun projections docPage => do
    let found ← s.getDocumentProjectionsBatch page docPage
    .ok fun d => (found d).or (projections d)) projections

end Fetch

/-! ## The filter -/

section Filter

variable [DecidableEq Doc] (size : ℕ) (s : ProvenanceStore Id Doc)
  (adapter : Option (ProvenanceChunk Id Doc → Option DocumentProjection → Record)) (component : String)

def provenanceDegradation (reason : String) (e : FetchError) : ProvenanceDegradation where
  component := component
  reason := reason
  detail := if e.text = "" then none else some (String.ofList (e.text.toList.take 200))
  exception := e.type

/-- The loop over the pages, with the surviving ids and the degradations. -/
def filterPages (needsDocs : Bool) (p : Predicate) : List (List Id) → (Doc → Option DocumentProjection) →
    List Id → Except PyErr (List Id × List ProvenanceDegradation)
  | [], _, surviving => .ok (surviving, [])
  | page :: pages, projections, surviving =>
    match s.getChunksBatch page with
    | .error e => .ok (surviving, [provenanceDegradation component "provenance_fetch_failed" e])
    | .ok chunks =>
      match (if needsDocs then s.hydrate page (Pages.slices size (documentIds projections chunks)) projections
          else .ok projections) with
      | .error e => .ok (surviving, [provenanceDegradation component "document_fetch_failed" e])
      | .ok projections => do
        let passing ← filterE (fun entry => p (recordFor adapter needsDocs projections entry.2)) chunks
        filterPages needsDocs p pages projections (surviving ++ passing.map Prod.fst)

/-- The filter reads a key of the document. -/
def needsDocuments (t : Ast) : Bool := t.leafPaths.any fun key => key ∈ docKeys

/-- The provenance of all items, each chunk once. -/
def orderedIds [DecidableEq Id] (sourceChunkIds : Item → List Id) (items : List Item) : List Id :=
  (items.flatMap sourceChunkIds).eraseDups

/-- `filter_items_by_provenance`: the kept items and the degradations it appends. -/
def filterItemsByProvenance [DecidableEq Id] (sourceChunkIds : Item → List Id) (items : List Item) (t : Ast) :
    Except PyErr (List Item × List ProvenanceDegradation) :=
  if items.isEmpty then .ok ([], [])
  else do
    let p ← compilePython (chunkContext none) t
    let (surviving, degradations) ← filterPages size s adapter component (needsDocuments t) p
      (Pages.slices size (orderedIds sourceChunkIds items)) (fun _ => none) []
    .ok (items.filter fun item => (sourceChunkIds item).any fun id => id ∈ surviving, degradations)

/-! ## What was fetched -/

/-- The documents of stored chunks. -/
def documentsOf (ids : List Id) : List Doc := ids.filterMap fun id => (s.chunk id).bind fun ch => ch.documentId

/-- The projections of the documents of these chunks. -/
def hydrated (ids : List Id) (d : Doc) : Option DocumentProjection :=
  if d ∈ documentsOf s ids then s.projection d else none

/-- The chunks of the page were fetched and, if documents are needed, so were those of the page that
no page before it had brought. -/
def answered (needsDocs : Bool) (earlier page : List Id) : Bool :=
  (s.chunksFail page).isNone && (!needsDocs ||
    (Pages.slices size (documentIds (hydrated s earlier) (s.batch page))).all
      fun docPage => (s.documentsFail page docPage).isNone)

/-- The pages before the first that was not answered. -/
def answeredPages (needsDocs : Bool) (earlier : List Id) : List (List Id) → List (List Id)
  | [] => []
  | page :: pages =>
    if answered size s needsDocs earlier page then page :: answeredPages needsDocs (earlier ++ page) pages else []

/-- The record of a stored chunk, with the stored projection of its document. -/
def storedRecord (needsDocs : Bool) (ch : ProvenanceChunk Id Doc) : Record :=
  recordFor adapter needsDocs s.projection ch

/-- The chunk is stored and passes. -/
def Passes (needsDocs : Bool) (p : Predicate) (id : Id) : Prop :=
  ∃ ch, s.chunk id = some ch ∧ p (storedRecord s adapter needsDocs ch) = .ok true

variable {size s adapter component} {needsDocs : Bool} {p : Predicate}

omit [DecidableEq Doc] in
theorem mem_documentsOf {ids : List Id} {d : Doc} :
    d ∈ documentsOf s ids ↔ ∃ id ∈ ids, ∃ ch, s.chunk id = some ch ∧ ch.documentId = some d := by
  simp [documentsOf, List.mem_filterMap, Option.bind_eq_some_iff]

theorem mem_documentIds {projections : Doc → Option DocumentProjection} {page : List Id} {d : Doc} :
    d ∈ documentIds projections (s.batch page) ↔ d ∈ documentsOf s page ∧ projections d = none := by
  rw [documentIds, List.mem_eraseDups, List.mem_filter, List.mem_filterMap, Option.isNone_iff_eq_none,
    mem_documentsOf]
  refine and_congr_left fun _ => ?_
  constructor
  · rintro ⟨⟨id, ch⟩, hmem, hdoc⟩
    obtain ⟨hid, hch⟩ := (s.mem_batch page id ch).mp hmem
    exact ⟨id, hid, ch, hch, hdoc⟩
  · rintro ⟨id, hid, ch, hch, hdoc⟩
    exact ⟨(id, ch), (s.mem_batch page id ch).mpr ⟨hid, hch⟩, hdoc⟩

theorem hydrate_cons (page : List Id) (docPage : List Doc) (docPages : List (List Doc))
    (projections : Doc → Option DocumentProjection) : s.hydrate page (docPage :: docPages) projections =
      s.getDocumentProjectionsBatch page docPage >>= fun found =>
        s.hydrate page docPages fun d => (found d).or (projections d) := by
  unfold ProvenanceStore.hydrate
  rw [List.foldlM_cons]
  cases s.getDocumentProjectionsBatch page docPage <;> rfl

/-- Pages of documents that are all answered bring what is stored. -/
theorem hydrate_ok {page : List Id} {docPages : List (List Doc)}
    (h : ∀ docPage ∈ docPages, s.documentsFail page docPage = none) :
    ∀ projections, s.hydrate page docPages projections =
      .ok fun d => if d ∈ docPages.flatten then (s.projection d).or (projections d) else projections d := by
  induction docPages with
  | nil => exact fun _ => rfl
  | cons docPage docPages ih =>
    intro projections
    obtain ⟨hpage, hpages⟩ := List.forall_mem_cons.mp h
    rw [hydrate_cons, ProvenanceStore.getDocumentProjectionsBatch, hpage]
    show s.hydrate page docPages _ = _
    rw [ih hpages]
    refine congrArg Except.ok (funext fun d => ?_)
    simp only [List.flatten_cons, List.mem_append]
    by_cases hd : d ∈ docPage <;> by_cases hds : d ∈ docPages.flatten <;>
      cases s.projection d <;> simp [hd, hds]

theorem hydrate_error {page : List Id} {docPages : List (List Doc)}
    (h : ∃ docPage ∈ docPages, s.documentsFail page docPage ≠ none) :
    ∀ projections, ∃ e, s.hydrate page docPages projections = .error e := by
  induction docPages with
  | nil =>
    obtain ⟨docPage, hmem, -⟩ := h
    exact absurd hmem List.not_mem_nil
  | cons docPage docPages ih =>
    intro projections
    rw [hydrate_cons, ProvenanceStore.getDocumentProjectionsBatch]
    cases hpage : s.documentsFail page docPage with
    | some e => exact ⟨e, rfl⟩
    | none =>
      obtain ⟨other, hmem, hfail⟩ := h
      rcases List.mem_cons.mp hmem with rfl | hmem
      · exact absurd hpage hfail
      · exact ih ⟨other, hmem, hfail⟩ _

/-- After an answered page the documents of its chunks are hydrated too. -/
theorem hydrated_append (hsize : 0 < size) {earlier page : List Id}
    (h : ∀ docPage ∈ Pages.slices size (documentIds (hydrated s earlier) (s.batch page)),
      s.documentsFail page docPage = none) :
    s.hydrate page (Pages.slices size (documentIds (hydrated s earlier) (s.batch page))) (hydrated s earlier) =
      .ok (hydrated s (earlier ++ page)) := by
  rw [hydrate_ok h, Pages.flatten_slices hsize]
  refine congrArg Except.ok (funext fun d => ?_)
  have happend : d ∈ documentsOf s (earlier ++ page) ↔ d ∈ documentsOf s earlier ∨ d ∈ documentsOf s page := by
    rw [documentsOf, List.filterMap_append, List.mem_append]
    rfl
  simp only [mem_documentIds, hydrated, happend]
  by_cases he : d ∈ documentsOf s earlier <;> by_cases hp : d ∈ documentsOf s page <;>
    cases s.projection d <;> simp [he, hp]

/-- The record of a fetched chunk is made with the stored projection. -/
theorem recordFor_hydrated {ids : List Id} {id : Id} {ch : ProvenanceChunk Id Doc} (hid : id ∈ ids)
    (hch : s.chunk id = some ch) : recordFor adapter true (hydrated s ids) ch = storedRecord s adapter true ch := by
  have hdoc : ch.documentId.bind (hydrated s ids) = ch.documentId.bind s.projection := by
    cases hd : ch.documentId with
    | none => rfl
    | some d => exact if_pos (mem_documentsOf.mpr ⟨id, hid, ch, hch, hd⟩)
  simp only [storedRecord, recordFor, if_true, hdoc]

/-! ## The loop -/

/-- What the loop leaves. -/
structure PagesFiltered (s : ProvenanceStore Id Doc)
    (adapter : Option (ProvenanceChunk Id Doc → Option DocumentProjection → Record)) (needsDocs : Bool)
    (p : Predicate) (fetched pages : List (List Id)) (surviving : List Id)
    (out : List Id × List ProvenanceDegradation) : Prop where
  mem_iff : ∀ id, id ∈ out.1 ↔ id ∈ surviving ∨ ∃ page ∈ fetched, id ∈ page ∧ Passes s adapter needsDocs p id
  degradations : fetched = pages ∧ out.2 = [] ∨ fetched ≠ pages ∧ ∃ d, out.2 = [d]

theorem answered_iff {earlier page : List Id} : answered size s needsDocs earlier page = true ↔
    s.chunksFail page = none ∧ (needsDocs = true →
      ∀ docPage ∈ Pages.slices size (documentIds (hydrated s earlier) (s.batch page)),
        s.documentsFail page docPage = none) := by
  cases needsDocs <;> simp [answered]

/-- A page that was not answered ends the loop with a degradation. -/
theorem filterPages_of_not_answered {earlier page : List Id} {pages : List (List Id)}
    {projections : Doc → Option DocumentProjection} {surviving : List Id}
    (hproj : needsDocs = true → projections = hydrated s earlier)
    (h : ¬ answered size s needsDocs earlier page = true) :
    ∃ d, filterPages size s adapter component needsDocs p (page :: pages) projections surviving =
      .ok (surviving, [d]) := by
  rw [answered_iff] at h
  unfold filterPages
  cases hchunks : s.chunksFail page with
  | some e =>
    have hfetch : s.getChunksBatch page = .error e := by rw [ProvenanceStore.getChunksBatch, hchunks]
    rw [hfetch]
    exact ⟨_, rfl⟩
  | none =>
    have hfetch : s.getChunksBatch page = .ok (s.batch page) := by rw [ProvenanceStore.getChunksBatch, hchunks]
    have hdocs : needsDocs = true ∧ ∃ docPage ∈ Pages.slices size (documentIds (hydrated s earlier) (s.batch page)),
        s.documentsFail page docPage ≠ none := by
      by_contra hcon
      refine h ⟨hchunks, fun hneeds docPage hmem => ?_⟩
      by_contra hfail
      exact hcon ⟨hneeds, docPage, hmem, hfail⟩
    obtain ⟨rfl, hdocs⟩ := hdocs
    obtain ⟨e, he⟩ := hydrate_error hdocs projections
    rw [hproj rfl] at he ⊢
    rw [hfetch]
    simp only [if_true, he]
    exact ⟨_, rfl⟩

/-- An answered page leaves the chunks that pass. -/
theorem filterPages_of_answered (hsize : 0 < size) {earlier page : List Id} {pages : List (List Id)}
    {projections : Doc → Option DocumentProjection} {surviving : List Id}
    (hproj : needsDocs = true → projections = hydrated s earlier)
    (h : answered size s needsDocs earlier page = true) :
    ∃ projections', (needsDocs = true → projections' = hydrated s (earlier ++ page)) ∧
      filterPages size s adapter component needsDocs p (page :: pages) projections surviving =
        filterE (fun entry => p (storedRecord s adapter needsDocs entry.2)) (s.batch page) >>= fun passing =>
          filterPages size s adapter component needsDocs p pages projections' (surviving ++ passing.map Prod.fst) := by
  obtain ⟨hchunks, hdocs⟩ := answered_iff.mp h
  have hfetch : s.getChunksBatch page = .ok (s.batch page) := by rw [ProvenanceStore.getChunksBatch, hchunks]
  cases needsDocs with
  | false =>
    refine ⟨projections, (fun hfalse => by cases hfalse), ?_⟩
    rw [filterPages, hfetch]
    rfl
  | true =>
    refine ⟨hydrated s (earlier ++ page), fun _ => rfl, ?_⟩
    rw [filterPages, hfetch, hproj rfl]
    simp only [if_true, hydrated_append hsize (hdocs rfl)]
    rw [filterE_congr fun entry hentry => ?_]
    obtain ⟨hid, hch⟩ := (s.mem_batch page entry.1 entry.2).mp hentry
    rw [recordFor_hydrated (List.mem_append_right earlier hid) hch]

omit [DecidableEq Doc] in
/-- The predicate on the chunks of one page. -/
theorem returnsIff_batch (page : List Id) :
    ReturnsIff (filterE (fun entry => p (storedRecord s adapter needsDocs entry.2)) (s.batch page))
      (∀ id ∈ page, ∀ ch, s.chunk id = some ch → Returns (p (storedRecord s adapter needsDocs ch)))
      (fun passing => ∀ id, id ∈ passing.map Prod.fst ↔ id ∈ page ∧ Passes s adapter needsDocs p id) := by
  constructor
  · constructor
    · rintro ⟨passing, hpassing⟩ id hid ch hch
      exact (filterE_eq_ok.mp hpassing).1 (id, ch) ((s.mem_batch page id ch).mpr ⟨hid, hch⟩)
    · intro h
      apply returns_filterE
      intro entry hentry
      obtain ⟨hid, hch⟩ := (s.mem_batch page entry.1 entry.2).mp hentry
      exact h entry.1 hid entry.2 hch
  · intro passing hpassing id
    obtain ⟨-, rfl⟩ := filterE_eq_ok.mp hpassing
    simp only [List.mem_map, List.mem_filter, accepts_iff]
    constructor
    · rintro ⟨⟨id, ch⟩, ⟨hentry, hpass⟩, rfl⟩
      obtain ⟨hid, hch⟩ := (s.mem_batch page id ch).mp hentry
      exact ⟨hid, ch, hch, hpass⟩
    · rintro ⟨hid, ch, hch, hpass⟩
      exact ⟨(id, ch), ⟨(s.mem_batch page id ch).mpr ⟨hid, hch⟩, hpass⟩, rfl⟩

/-- **What the loop leaves, and when it returns.** -/
theorem filterPages_iff (hsize : 0 < size) (pages : List (List Id)) :
    ∀ (earlier : List Id) (projections : Doc → Option DocumentProjection) (surviving : List Id),
      (needsDocs = true → projections = hydrated s earlier) →
      ReturnsIff (filterPages size s adapter component needsDocs p pages projections surviving)
        (∀ page ∈ answeredPages size s needsDocs earlier pages, ∀ id ∈ page, ∀ ch, s.chunk id = some ch →
          Returns (p (storedRecord s adapter needsDocs ch)))
        (PagesFiltered s adapter needsDocs p (answeredPages size s needsDocs earlier pages) pages surviving) := by
  induction pages with
  | nil =>
    intro earlier projections surviving _
    refine (ReturnsIff.ok ⟨fun id => ?_, .inl ⟨rfl, rfl⟩⟩).congr ?_ fun _ h => h
    · simp [answeredPages]
    · simp [answeredPages]
  | cons page pages ih =>
    intro earlier projections surviving hproj
    by_cases h : answered size s needsDocs earlier page = true
    · obtain ⟨projections', hproj', heq⟩ := @filterPages_of_answered Id Doc _ size s adapter component needsDocs p
        hsize earlier page pages projections surviving hproj h
      rw [heq, answeredPages, if_pos h]
      have hpage : ReturnsIff (filterE (fun entry => p (storedRecord s adapter needsDocs entry.2)) (s.batch page))
          (∀ id ∈ page, ∀ ch, s.chunk id = some ch → Returns (p (storedRecord s adapter needsDocs ch)))
          (fun passing => ∀ id, id ∈ passing.map Prod.fst ↔ id ∈ page ∧ Passes s adapter needsDocs p id) :=
        returnsIff_batch page
      refine (hpage.bind fun passing hpassing => (ih (earlier ++ page) projections' _ hproj').congr Iff.rfl
        fun out hout => ?_).congr (by rw [List.forall_mem_cons]) fun _ h => h
      refine ⟨fun id => ?_, ?_⟩
      · rw [hout.mem_iff, List.mem_append, hpassing, or_assoc]
        simp only [List.exists_mem_cons_iff]
      · rcases hout.degradations with ⟨hall, hnone⟩ | ⟨hsome, hone⟩
        · exact .inl ⟨congrArg _ hall, hnone⟩
        · exact .inr ⟨fun heq => hsome (List.cons.inj heq).2, hone⟩
    · obtain ⟨d, heq⟩ := @filterPages_of_not_answered Id Doc _ size s adapter component needsDocs p
        earlier page pages projections surviving hproj h
      rw [heq, answeredPages, if_neg h]
      refine (ReturnsIff.ok ⟨fun id => ?_, .inr ⟨by simp, d, rfl⟩⟩).congr ?_ fun _ h => h
      · simp
      · simp

/-! ## The result -/

section Result

variable [DecidableEq Id] {sourceChunkIds : Item → List Id} {items : List Item} {t : Ast}

/-- The pages of the provenance of the items that were answered. -/
def fetchedPages (size : ℕ) (s : ProvenanceStore Id Doc) (sourceChunkIds : Item → List Id) (items : List Item)
    (t : Ast) : List (List Id) :=
  answeredPages size s (needsDocuments t) [] (Pages.slices size (orderedIds sourceChunkIds items))

/-- The stored chunk passes the filter. -/
def PassesFilter (s : ProvenanceStore Id Doc)
    (adapter : Option (ProvenanceChunk Id Doc → Option DocumentProjection → Record)) (t : Ast) (id : Id) : Prop :=
  ∃ p, compilePython (chunkContext none) t = .ok p ∧ Passes s adapter (needsDocuments t) p id

open scoped Classical in
/-- The kept items are verified, and all there are unless one degradation says otherwise. -/
structure FailsClosed (size : ℕ) (s : ProvenanceStore Id Doc)
    (adapter : Option (ProvenanceChunk Id Doc → Option DocumentProjection → Record))
    (sourceChunkIds : Item → List Id) (items : List Item) (t : Ast)
    (out : List Item × List ProvenanceDegradation) : Prop where
  sublist : out.1.Sublist items
  verified : ∀ item ∈ out.1, ∃ page ∈ fetchedPages size s sourceChunkIds items t, ∃ id ∈ page,
    id ∈ sourceChunkIds item ∧ PassesFilter s adapter t id
  one : out.2.length ≤ 1
  exact : out.2 = [] → out.1 = items.filter fun item => ∃ id ∈ sourceChunkIds item, PassesFilter s adapter t id

theorem mem_orderedIds {id : Id} : id ∈ orderedIds sourceChunkIds items ↔ ∃ item ∈ items, id ∈ sourceChunkIds item := by
  rw [orderedIds, List.mem_eraseDups, List.mem_flatMap]

/-- What the loop leaves makes a result that fails closed. -/
theorem failsClosed_of_pagesFiltered (hsize : 0 < size) (hp : compilePython (chunkContext none) t = .ok p)
    {out : List Id × List ProvenanceDegradation}
    (h : PagesFiltered s adapter (needsDocuments t) p (fetchedPages size s sourceChunkIds items t)
      (Pages.slices size (orderedIds sourceChunkIds items)) [] out) :
    FailsClosed size s adapter sourceChunkIds items t
      (items.filter fun item => (sourceChunkIds item).any fun id => id ∈ out.1, out.2) := by
  have hmem : ∀ id, id ∈ out.1 ↔ ∃ page ∈ fetchedPages size s sourceChunkIds items t,
      id ∈ page ∧ Passes s adapter (needsDocuments t) p id := by
    intro id
    rw [h.mem_iff]
    simp
  have hpasses : ∀ id, PassesFilter s adapter t id ↔ Passes s adapter (needsDocuments t) p id := by
    intro id
    constructor
    · rintro ⟨q, hq, hpass⟩
      rw [hp] at hq
      exact Except.ok.inj hq ▸ hpass
    · exact fun hpass => ⟨p, hp, hpass⟩
  refine ⟨List.filter_sublist, ?_, ?_, ?_⟩
  · intro item hitem
    obtain ⟨id, hid, hsurvives⟩ := List.any_eq_true.mp (List.mem_filter.mp hitem).2
    obtain ⟨page, hpage, hidpage, hpass⟩ := (hmem id).mp (of_decide_eq_true hsurvives)
    exact ⟨page, hpage, id, hidpage, hid, (hpasses id).mpr hpass⟩
  · rcases h.degradations with ⟨-, hnone⟩ | ⟨-, d, hone⟩
    · rw [hnone]
      exact Nat.zero_le 1
    · rw [hone]
      exact Nat.le_refl 1
  · intro hnone
    have hall : fetchedPages size s sourceChunkIds items t = Pages.slices size (orderedIds sourceChunkIds items) := by
      rcases h.degradations with ⟨hall, -⟩ | ⟨-, d, hone⟩
      · exact hall
      · rw [hone] at hnone
        cases hnone
    classical
    apply List.filter_congr
    intro item hitem
    rw [Bool.eq_iff_iff, List.any_eq_true, decide_eq_true_iff]
    simp only [decide_eq_true_iff, hmem, hpasses, hall]
    refine exists_congr fun id => and_congr_right fun hid => ?_
    constructor
    · rintro ⟨page, -, -, hpass⟩
      exact hpass
    · intro hpass
      obtain ⟨page, hpage, hidpage⟩ := (Pages.mem_slices hsize).mp (mem_orderedIds.mpr ⟨item, hitem, hid⟩)
      exact ⟨page, hpage, hidpage, hpass⟩

/-- **When the call returns, and with what.**  For a filter that an accepted document lowers to, the
call returns a result that fails closed exactly when the predicate does not raise on the record of a
fetched chunk. -/
theorem filterItemsByProvenance_iff {raw f : RecallFilter} (hvalid : raw.validate = .ok f)
    (hparse : parseToAst f = .ok t) (hsize : 0 < size) :
    (∃ out, filterItemsByProvenance size s adapter component sourceChunkIds items t = .ok out ∧
        FailsClosed size s adapter sourceChunkIds items t out) ↔
      ∀ page ∈ fetchedPages size s sourceChunkIds items t, ∀ id ∈ page, ∀ ch, s.chunk id = some ch →
        ∀ p, compilePython (chunkContext none) t = .ok p →
          Returns (p (storedRecord s adapter (needsDocuments t) ch)) := by
  obtain ⟨⟨p, hp, -⟩, -⟩ := @predicate_returns (chunkContext none) raw f t hvalid hparse rfl
  have hloop := @filterPages_iff Id Doc _ size s adapter component (needsDocuments t) p hsize
    (Pages.slices size (orderedIds sourceChunkIds items)) [] (fun _ => none) [] fun _ => rfl
  have hcond : (∀ page ∈ fetchedPages size s sourceChunkIds items t, ∀ id ∈ page, ∀ ch, s.chunk id = some ch →
      ∀ p, compilePython (chunkContext none) t = .ok p →
        Returns (p (storedRecord s adapter (needsDocuments t) ch))) ↔
      Returns (filterPages size s adapter component (needsDocuments t) p
        (Pages.slices size (orderedIds sourceChunkIds items)) (fun _ => none) []) := by
    rw [hloop.returns]
    refine forall₂_congr fun page _ => forall₂_congr fun id _ => forall₂_congr fun ch _ => ?_
    simp [hp]
  rw [hcond]
  by_cases hempty : items.isEmpty = true
  · obtain rfl := List.isEmpty_iff.mp hempty
    have hnone : Pages.slices size (orderedIds sourceChunkIds []) = [] := Pages.slices_nil hsize
    rw [hnone] at hloop ⊢
    have hleft : PagesFiltered s adapter (needsDocuments t) p (fetchedPages size s sourceChunkIds [] t)
        (Pages.slices size (orderedIds sourceChunkIds [])) [] ([], []) := by
      rw [fetchedPages, hnone]
      exact hloop.value ([], []) rfl
    exact iff_of_true ⟨([], []), rfl, failsClosed_of_pagesFiltered hsize hp hleft⟩ ⟨([], []), rfl⟩
  · have hrun : filterItemsByProvenance size s adapter component sourceChunkIds items t =
        filterPages size s adapter component (needsDocuments t) p
          (Pages.slices size (orderedIds sourceChunkIds items)) (fun _ => none) [] >>= fun out =>
          .ok (items.filter fun item => (sourceChunkIds item).any fun id => id ∈ out.1, out.2) := by
      rw [filterItemsByProvenance, if_neg hempty, hp]
      rfl
    rw [hrun]
    constructor
    · rintro ⟨out, hout, -⟩
      obtain ⟨left, hleft, -⟩ := bind_eq_ok.mp hout
      exact ⟨left, hleft⟩
    · rintro ⟨left, hleft⟩
      exact ⟨_, bind_eq_ok.mpr ⟨left, hleft, rfl⟩, failsClosed_of_pagesFiltered hsize hp (hloop.value left hleft)⟩

/-- A store without documents that answers every page in the order of its ids. -/
def plainStore (chunk : ℕ → Option (ProvenanceChunk ℕ ℕ)) : ProvenanceStore ℕ ℕ where
  chunk := chunk
  projection := fun _ => none
  batch := fun page => page.filterMap fun id => (chunk id).map fun ch => (id, ch)
  mem_batch := by
    intro page id ch
    simp only [List.mem_filterMap, Option.map_eq_some_iff, Prod.mk.injEq]
    constructor
    · rintro ⟨_, hid, _, hch, rfl, rfl⟩
      exact ⟨hid, hch⟩
    · rintro ⟨hid, hch⟩
      exact ⟨id, hid, ch, hch, rfl, rfl⟩
  chunksFail := fun _ => none
  documentsFail := fun _ _ => none

/-- A chunk with a metadata blob and nothing else. -/
def blobChunk (blob : List (Key × Value)) : ProvenanceChunk ℕ ℕ where
  id := 0
  content := ""
  metadata := blob
  createdAt := none
  occurredAt := none
  sourceTimestamp := none
  documentId := none

def titleFilter : RecallFilter :=
  { emptyFilter with strings := fun k => if k = .title then .value (.str "a") else .unset }

def titleAst : Ast := .node .and [.clause ⟨["title"], .eq, .str "a"⟩]

/-- Four chunks of four documents with the title, but for the second one; the second page fails. -/
def failingStore : ProvenanceStore ℕ ℕ :=
  { plainStore fun id => if id < 4 then some { blobChunk [] with documentId := some id } else none with
    projection := fun d => some ⟨fun _ => if d = 1 then "b" else "a"⟩
    chunksFail := fun page => if 2 ∈ page then some ⟨"timeout", "TimeoutError"⟩ else none }

/-- Items with one, two and two chunks. -/
def shelf : List (List ℕ) := [[0], [1, 2], [2, 3]]

/-- Of two pages the second one fails: the item that the first one verifies is kept, and nothing else. -/
theorem filterItemsByProvenance_iff_title : ∃ f, titleFilter.validate = .ok f ∧ parseToAst f = .ok titleAst ∧
    fetchedPages 2 failingStore id shelf titleAst = [[0, 1]] ∧
    filterItemsByProvenance 2 failingStore none "vectorcypher.entity_filter" id shelf titleAst =
      .ok ([[0]], [⟨"vectorcypher.entity_filter", "provenance_fetch_failed", some "timeout", "TimeoutError"⟩]) ∧
    FailsClosed 2 failingStore none id shelf titleAst
      ([[0]], [⟨"vectorcypher.entity_filter", "provenance_fetch_failed", some "timeout", "TimeoutError"⟩]) := by
  have hreturns : ∀ page ∈ fetchedPages 2 failingStore id shelf titleAst, ∀ i ∈ page, ∀ ch,
      failingStore.chunk i = some ch → ∀ p, compilePython (chunkContext none) titleAst = .ok p →
        Returns (p (storedRecord failingStore none (needsDocuments titleAst) ch)) := by
    rw [show fetchedPages 2 failingStore id shelf titleAst = [[0, 1]] from rfl]
    intro page hpage i hi ch hch p hp
    cases hp
    obtain rfl := List.mem_singleton.mp hpage
    obtain rfl | hi := List.mem_cons.mp hi
    · cases hch
      exact ⟨_, rfl⟩
    · obtain rfl := List.mem_singleton.mp hi
      cases hch
      exact ⟨_, rfl⟩
  obtain ⟨f, hvalid, hparse⟩ : ∃ f, titleFilter.validate = .ok f ∧ parseToAst f = .ok titleAst := ⟨_, rfl, rfl⟩
  obtain ⟨out, hout, hclosed⟩ := (@filterItemsByProvenance_iff ℕ ℕ _ _ 2 failingStore none
    "vectorcypher.entity_filter" _ id shelf titleAst titleFilter f hvalid hparse (by decide)).mpr hreturns
  cases hout
  exact ⟨f, hvalid, hparse, rfl, rfl, hclosed⟩

/-- A null stored under the key of a range filter with a null bound: the comparison raises, outside the
handlers of the fetches. -/
theorem filterItemsByProvenance_raises : ∃ f t, nullRangeFilter.validate = .ok f ∧ parseToAst f = .ok t ∧
    ¬ ∃ out, filterItemsByProvenance 500 (plainStore fun _ => some (blobChunk [(.str "k", .none)])) none
      "vectorcypher.entity_filter" (fun _ : Unit => [0]) [()] t = .ok out := by
  refine ⟨_, _, rfl, rfl, ?_⟩
  rintro ⟨out, hout⟩
  cases hout

end Result

end Filter

end Khora
