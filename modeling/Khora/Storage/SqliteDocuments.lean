import Khora.Filter.ChunkRow
import Khora.Filter.Lance
import Khora.Storage.ConcurrentScan

/-!
# The raw SQLite document store

`create_document` writes the string fields as they are and the metadata as JSON text;
`_row_to_document` reads an empty string back as `None`, and an empty or absent
`source_type` as `"library"`.  A pushed filter sees the column, the post-filter sees
the converted document.

* `nullFragment_misses_iff` — the fragment for `key = null` excludes the row of a document
  that passes the filter exactly when the stored text is empty and read back as `None`.
-/

namespace Khora

open Calendar (DateTime fromisoformat)
open Fallible Keyset

/-! ## Documents and rows -/

/-- `json.dumps` writes a member for each key of a dict; keys of different types may
have one text. -/
def dictSet (fs : List (Key × Value)) (k : Key) (v : Value) : List (Key × Value) :=
  if fs.any fun f => f.1 == k then fs.map fun f => if f.1 = k then (k, v) else f
  else fs ++ [(k, v)]

mutual

/-- `json.loads`: the last of several members of one name wins. -/
def jsonLoads : Json → Value
  | .obj fs => .dict (jsonLoadsFields fs [])
  | .arr xs => .list (jsonLoadsItems xs)
  | .null => .none
  | .bool b => .bool b
  | .int n => .int n
  | .float f => .float f
  | .str s => .str s

def jsonLoadsItems : List Json → List Value
  | [] => []
  | x :: xs => jsonLoads x :: jsonLoadsItems xs

def jsonLoadsFields : List (String × Json) → List (Key × Value) → List (Key × Value)
  | [], acc => acc
  | (k, v) :: fs, acc => jsonLoadsFields fs (dictSet acc (.str k) (jsonLoads v))

end

/-- The fields of a `Document` that a filter reads; `metadata` is the tree that
`json.dumps` writes for it. -/
structure DocumentFields where
  strings : StringKey → Option String
  createdAt : DateTime
  sourceTimestamp : Option DateTime
  metadata : List (String × Json)

/-- A row of `documents`, as far as a filter reads it: its text columns, and the tree of the
JSON text in `metadata_`. -/
structure DocumentRow where
  column : String → Option String
  metadata : Json

/-- `create_document`: the stored columns. -/
def createDocument (d : DocumentFields) : DocumentRow where
  column := fun name => match SystemKey.ofName? name with
    | some (.string k) => d.strings k
    | some (.date .createdAt) => some d.createdAt.isoformat
    | some (.date .sourceTimestamp) => d.sourceTimestamp.map DateTime.isoformat
    | _ => none
  metadata := .obj d.metadata

/-- `_parse_dt`; a text that is no date-time, which no writer stores, is left out. -/
def parseDt (text : Option String) : Value :=
  match text.bind fromisoformat with
  | some d => .datetime d
  | none => .none

/-- `_none_if_empty`. -/
def noneIfEmpty : Option String → Value
  | some s => if s = "" then .none else .str s
  | none => .none

/-- A string field of the converted document. -/
def readString (k : StringKey) (text : Option String) : Value :=
  match k with
  | .sourceType => match noneIfEmpty text with
      | .none => .str "library"
      | v => v
  | .externalId => (text.map Value.str).getD .none
  | _ => noneIfEmpty text

/-- `_row_to_document`, as far as the filter reads it.  A document has no `occurred_at`. -/
def rowToDocument (row : DocumentRow) : Record where
  attr := fun name =>
    if name = "metadata" then some (jsonLoads row.metadata)
    else match SystemKey.ofName? name with
      | some (.string k) => some (readString k (row.column name))
      | some (.date .occurredAt) => none
      | some (.date _) => some (parseDt (row.column name))
      | none => none
  sourceDocument := none
  item := none

/-- `_documents_compile_context`: the string keys are declared, the date keys withheld. -/
def sqliteDocumentsContext (json1 : Bool) : CompileContext where
  backendTarget := "documents"
  tableAlias := none
  paramNamespace := "f"
  fieldMapping := some (StringKey.all.map (fun k => (k.name, k.name)) ++ [("metadata", "metadata_")])
  schemaCapabilities := ⟨false, false, false, json1⟩
  onUnsupported := .split

/-- A row of `documents` in its table; `createdAt` is the place of its `created_at` text in
the order of the column. -/
structure RawDocument where
  createdAt : Int
  id : ℕ
  fields : DocumentFields

namespace RawDocument

def row (x : RawDocument) : DocumentRow := createDocument x.fields

def document (x : RawDocument) : Document := ⟨x.createdAt, x.id, rowToDocument x.row⟩

end RawDocument

/-! ## Null tests -/

mutual

/-- The truth value of a condition that only tests text columns for `NULL`, which is never
unknown; `none` for a condition that compares or reads JSON. -/
def SqliteCond.nullTest (row : DocumentRow) : SqliteCond → Option Bool
  | .const b => some b
  | .isNull (.column name) => some (row.column name).isNone
  | .isNotNull (.column name) => some (row.column name).isSome
  | .not c => (c.nullTest row).map Bool.not
  | .all cs => (SqliteCond.nullTests row cs).map fun bs => bs.all id
  | .any cs => (SqliteCond.nullTests row cs).map fun bs => bs.any id
  | _ => none

def SqliteCond.nullTests (row : DocumentRow) : List SqliteCond → Option (List Bool)
  | [] => some []
  | c :: cs => do some ((← c.nullTest row) :: (← SqliteCond.nullTests row cs))

end

/-- Documents without a value for the key. -/
def noValueFilter (key : StringKey) : RecallFilter :=
  { emptyFilter with strings := fun k => if k = key then .null else .unset }

/-- What `noValueFilter` lowers to. -/
def noValueAst (key : StringKey) : Ast := .node .and [.clause ⟨[key.name], .eq, .none⟩]

theorem parseToAst_noValue (key : StringKey) :
    ∃ f, (noValueFilter key).validate = .ok f ∧ parseToAst f = .ok (noValueAst key) := by
  cases key <;> exact ⟨_, rfl, rfl⟩

/-- The fragment the store pushes for it. -/
def noValueFragment (key : StringKey) : CompiledFilter SqliteCond :=
  ⟨.all [.isNull (.column key.name)], [key.name]⟩

theorem compileLance_noValue (json1 : Bool) (key : StringKey) :
    compileLance (sqliteDocumentsContext json1) (noValueAst key) = .ok (noValueFragment key) := by
  cases json1 <;> cases key <;> rfl

theorem nullTest_noValue (key : StringKey) (d : DocumentFields) :
    (noValueFragment key).predicate.nullTest (createDocument d) = some (d.strings key).isNone := by
  cases key <;> simp [noValueFragment, SqliteCond.nullTest, SqliteCond.nullTests, createDocument] <;> rfl

theorem resolveSystem_document (key : StringKey) (x : RawDocument) :
    resolveSystem documentsContext x.document.record key.name =
      readString key (x.fields.strings key) := by
  cases key <;> rfl

theorem compilePostFilter_noValue (key : StringKey) :
    ∃ post, compilePostFilter (some (noValueAst key)) = .ok post ∧ ∀ x : RawDocument,
      post x.document = .ok (readString key (x.fields.strings key)).isNone := by
  simp only [← resolveSystem_document]
  cases key <;> exact ⟨_, rfl, fun x => allM_singleton (fun fn : Predicate => fn x.document.record) _⟩

/-- **A null test misses the empty texts.**  The pushed fragment excludes the row of a document
that passes the filter exactly when the stored text is empty and read back as `None`. -/
theorem nullFragment_misses_iff {key : StringKey} {post : Document → Except PyErr Bool}
    (hpost : compilePostFilter (some (noValueAst key)) = .ok post) (x : RawDocument) :
    ((noValueFragment key).predicate.nullTest x.row = some false ∧ post x.document = .ok true) ↔
      x.fields.strings key = some "" ∧ key ≠ .sourceType ∧ key ≠ .externalId := by
  obtain ⟨post', hpost', hx⟩ := compilePostFilter_noValue key
  obtain rfl : post = post' := Except.ok.inj (hpost.symm.trans hpost')
  rw [hx, RawDocument.row, nullTest_noValue]
  cases hs : x.fields.strings key with
  | none => simp
  | some s =>
      by_cases he : s = ""
      · cases key <;> simp [readString, noneIfEmpty, he, Value.isNone]
      · cases key <;> simp [readString, noneIfEmpty, he, Value.isNone]

/-! ## A walk that misses a document -/

/-- Whether the fragment keeps the row of a document, read off a table of rows. -/
def KeepsRows (rows : List RawDocument) (fragment : CompiledFilter SqliteCond)
    (keep : Document → Bool) : Prop :=
  ∀ x ∈ rows, fragment.predicate.nullTest x.row = some (keep x.document)

/-- A document with a title and no other string field. -/
def titledDocument (title : String) : RawDocument where
  createdAt := 0
  id := 0
  fields := {
    strings := fun k => if k = .title then some title else none
    createdAt := january 1 rfl
    sourceTimestamp := none
    metadata := [] }

/-- An empty title is read back as `None`: the document passes the filter for no title, and a
walk over the store misses it, though nobody writes. -/
theorem emptyTitle_walk_misses : ∃ f t fragment post pages n keep,
    (noValueFilter .title).validate = .ok f ∧ parseToAst f = .ok t ∧
    compileLance (sqliteDocumentsContext true) t = .ok fragment ∧
    compilePostFilter (some t) = .ok post ∧ KeepsRows [titledDocument ""] fragment keep ∧
    walkPages (scanDocuments (tableAt [(titledDocument "").document] fun _ => []) keep .relational
      fragment.consumedKeys) 1 (some t) none 1 0 none = .ok (pages, n) ∧ Finished pages ∧
    Stays (tableAt [(titledDocument "").document] fun _ => []) n (titledDocument "").document ∧
    post (titledDocument "").document = .ok true ∧
    ¬ ReturnedOnce pages (titledDocument "").document := by
  obtain ⟨f, hvalid, hparse⟩ := parseToAst_noValue .title
  obtain ⟨post, hpost, -⟩ := compilePostFilter_noValue .title
  obtain ⟨hfragment, htrue⟩ := (nullFragment_misses_iff hpost (titledDocument "")).mpr
    ⟨rfl, by decide, by decide⟩
  have hempty : rawRows (tableAt [(titledDocument "").document] fun _ => []) (fun _ => false)
      .relational 0 none 1 = ([], 1) := by
    refine congrArg (·, 1) (List.eq_nil_iff_forall_not_mem.mpr fun d hd => ?_)
    exact absurd (mem_scanWindow hd).2 (by decide)
  refine ⟨f, _, _, post, _, _, fun _ => false, hvalid, hparse, compileLance_noValue true .title, hpost,
    ?_, walkPages_exhausted (by decide) (by simp) hpost (scanDocuments_eq le_rfl hempty _) rfl rfl,
    ⟨_, List.mem_singleton_self _, rfl⟩, ?_, htrue, by rintro ⟨⟩⟩
  · intro x hx
    obtain rfl := List.mem_singleton.mp hx
    exact hfragment
  · intro k hk
    obtain rfl : k = 0 := by omega
    exact List.mem_singleton_self _

end Khora
