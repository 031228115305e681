import Khora.Accel.CharClass
import Khora.Lib.KeyedMerge

/-!
# The graph that a document replacement rewrites

The entities and relationships of one namespace as the graph backend stores them, and the
plan by which the coordinator replaces the extraction of a document: what is retired, remapped,
stripped, and new.

* `planReplace` — which records are retired, remapped, stripped and net-new.
-/

namespace Khora

/-! ## Graphs -/

/-- An `:Entity` node.  The key is `(name, entity_type)`. -/
structure EntityNode (Id K Doc : Type) where
  id : Id
  key : K
  sources : List Doc
  retired : Bool
deriving DecidableEq

/-- An edge between entities, or a row to create one from. -/
structure EntityEdge (Id Doc : Type) where
  id : Id
  source : Id
  target : Id
  label : String
  sources : List Doc
  retired : Bool
deriving DecidableEq

/-- What the graph merges edges on. -/
def EntityEdge.key {Id Doc : Type} (e : EntityEdge Id Doc) : Id × Id × String :=
  (e.source, e.target, e.label)

structure EntityGraph (Id K Doc : Type) where
  nodes : List (EntityNode Id K Doc)
  edges : List (EntityEdge Id Doc)
deriving DecidableEq

/-! ## Extractions -/

/-- `Entity`, as extracted. -/
structure NewEntity (Id K Doc : Type) where
  id : Id
  key : K
  sources : List Doc
deriving DecidableEq

/-- `Relationship`, as extracted. -/
structure NewRelationship (Id Doc : Type) where
  id : Id
  source : Id
  target : Id
  relationshipType : String
  sources : List Doc
deriving DecidableEq

/-- `sanitize_cypher_label` -/
def sanitizeCypherLabel (label : String) : String :=
  let sanitized := (strip label.toList).map fun c => if c.isAlphanum || c == '_' then c else '_'
  if sanitized.isEmpty then "RELATES_TO" else String.ofList (sanitized.map Char.toUpper)

section Rows

variable {Id K Doc : Type}

/-- The edge a relationship asks for. -/
def NewRelationship.row (r : NewRelationship Id Doc) : EntityEdge Id Doc where
  id := r.id
  source := r.source
  target := r.target
  label := sanitizeCypherLabel r.relationshipType
  sources := r.sources
  retired := false

end Rows

/-! ## Sources -/

/-- `(a + b)[-limit..]` -/
def tailMerge {Doc : Type} (limit : ℕ) (a b : List Doc) : List Doc :=
  (a ++ b).drop ((a ++ b).length - limit)

section Sources

variable {Id K Doc : Type} [DecidableEq Id] [DecidableEq K] [DecidableEq Doc]

/-- All occurrences of the old document go; the new one takes its place, once. -/
def remapSources (oldDoc newDoc : Doc) (sources : List Doc) : List Doc :=
  let filtered := sources.filter fun d => decide (d ≠ oldDoc)
  filtered ++ if oldDoc ∈ sources ∧ newDoc ∉ filtered then [newDoc] else []

def stripSource (doc : Doc) (sources : List Doc) : List Doc :=
  sources.filter fun d => decide (d ≠ doc)

/-! ## The plan -/

/-- The computed graph plan, as the pending marker of a failed replace holds it too. -/
structure ReplacePlan (Id K Doc : Type) where
  oldDoc : Doc
  newDoc : Doc
  entityRetirement : List Id
  relationshipRetirement : List Id
  entityRemap : List Id
  relationshipRemap : List Id
  entityStrip : List Id
  relationshipStrip : List Id
  netNewEntities : List (NewEntity Id K Doc)
  netNewRelationships : List (NewRelationship Id Doc)

/-- `fetch_document_extraction_state`: the entities and edges that list the document. -/
def fetchEntities (g : EntityGraph Id K Doc) (doc : Doc) : List (EntityNode Id K Doc) :=
  g.nodes.filter fun n => decide (doc ∈ n.sources)

def fetchRelationships (g : EntityGraph Id K Doc) (doc : Doc) : List (EntityEdge Id Doc) :=
  g.edges.filter fun e => decide (doc ∈ e.sources)

/-- The classification of `replace_document_extraction`. -/
def planReplace (g : EntityGraph Id K Doc) (oldDoc newDoc : Doc)
    (newEntities : List (NewEntity Id K Doc)) (newRelationships : List (NewRelationship Id Doc)) :
    ReplacePlan Id K Doc :=
  let oldEntities := fetchEntities g oldDoc
  let oldRelationships := fetchRelationships g oldDoc
  let newEntityKeys := newEntities.map NewEntity.key
  let newRelationshipKeys := newRelationships.map fun r => r.row.key
  let survivorKeys := (oldEntities.filter fun n => decide (n.key ∈ newEntityKeys)).map EntityNode.key
  { oldDoc
    newDoc
    entityRetirement := (oldEntities.filter fun n =>
      decide (n.key ∉ newEntityKeys) && decide (n.sources.length = 1)).map EntityNode.id
    relationshipRetirement := (oldRelationships.filter fun e =>
      decide (e.key ∉ newRelationshipKeys) && decide (e.sources.length = 1)).map EntityEdge.id
    entityRemap := (oldEntities.filter fun n => decide (n.key ∈ newEntityKeys)).map EntityNode.id
    relationshipRemap := (oldRelationships.filter fun e =>
      decide (e.key ∈ newRelationshipKeys)).map EntityEdge.id
    entityStrip := (oldEntities.filter fun n =>
      decide (n.key ∉ newEntityKeys) && !decide (n.sources.length = 1)).map EntityNode.id
    relationshipStrip := (oldRelationships.filter fun e =>
      decide (e.key ∉ newRelationshipKeys) && !decide (e.sources.length = 1)).map EntityEdge.id
    netNewEntities := newEntities.filter fun e => decide (e.key ∉ survivorKeys)
    netNewRelationships := newRelationships.filter fun r =>
      decide (r.row.key ∉ oldRelationships.map EntityEdge.key) }

end Sources

end Khora
