import Khora.Lib.IsoText
import Khora.Lib.Json
import Khora.Lib.UuidText
import Mathlib.Data.List.Forall2

/-!
# The payload of a failed replace mirror

When the graph phase of a replace fails, `build_replace_mirror_payload` writes the net-new entities and relationships
to JSON, and the reconciler reads them back. The encoder walks lists; the decoder goes by the names of the fields. A
date-time comes back with the offset that its zone had, and without the zone.

* `ofJson_of_jsonOf?` — what JSON can hold is read back as it was.
* `plain_iff` — the values that the encoder and JSON leave alone.
* `entityFromJson_modelToJson`, `relationshipFromJson_modelToJson` — what is decoded from an encoded object.
* `ZonedDateTime.same_fixed_iff` — the date-times that are equal to what is read back.
* `payload_exact` — the plans of which the payload can be written and gives all objects back.
-/

namespace Khora

namespace ReplacePayload

open Calendar

/-! ## Date-times -/

/-- A date-time in a zone; `refolded` is the offset with the other `fold`, another one where the zone repeats or skips
the clock time. -/
structure ZonedDateTime extends DateTime where
  refolded : Option Int
deriving DecidableEq

namespace ZonedDateTime

/-- The date-time with its offset alone, as `fromisoformat` makes it. -/
def fixed (d : DateTime) : ZonedDateTime := ⟨d, d.offset⟩

/-- `==` of date-times that do not share a zone: a clock time that is repeated or skipped equals none. -/
def Same (a b : ZonedDateTime) : Prop :=
  a.refolded = a.offset ∧ b.refolded = b.offset ∧ a.aware = b.aware ∧ a.instant = b.instant

/-- **What is read back equals the date-time** unless its zone repeats or skips the clock time. -/
theorem same_fixed_iff (d : ZonedDateTime) : (fixed d.toDateTime).Same d ↔ d.refolded = d.offset :=
  ⟨fun h => h.2.1, fun h => ⟨rfl, h, rfl, rfl⟩⟩

end ZonedDateTime

/-! ## Values -/

/-- A Python value: what JSON has, and the two types it does not have. -/
inductive PyValue where
  | null
  | bool (b : Bool)
  | int (n : ℤ)
  | float (f : FloatLit)
  | str (s : String)
  | uuid (u : UuidInt)
  | datetime (d : ZonedDateTime)
  | list (items : List PyValue)
  | dict (fields : List (String × PyValue))

/-- Structural induction over a value, its items and its members. -/
theorem PyValue.induct {P : PyValue → Prop} (null : P .null) (bool : ∀ b, P (.bool b)) (int : ∀ n, P (.int n))
    (float : ∀ f, P (.float f)) (str : ∀ s, P (.str s)) (uuid : ∀ u, P (.uuid u)) (datetime : ∀ d, P (.datetime d))
    (list : ∀ xs, (∀ x ∈ xs, P x) → P (.list xs)) (dict : ∀ fs, (∀ f ∈ fs, P f.2) → P (.dict fs))
    (v : PyValue) : P v := by
  refine @PyValue.rec P (fun xs => ∀ x ∈ xs, P x) (fun fs => ∀ f ∈ fs, P f.2) (fun f => P f.2)
    null bool int float str uuid datetime list dict ?_ ?_ ?_ ?_ ?_ v
  · simp
  · intro x xs hx hxs
    exact List.forall_mem_cons.mpr ⟨hx, hxs⟩
  · simp
  · intro f fs hf hfs
    exact List.forall_mem_cons.mpr ⟨hf, hfs⟩
  · intro k v hv
    exact hv

mutual

/-- `_to_json_value`: lists are walked, dicts are not. -/
def toJsonValue : PyValue → PyValue
  | .uuid u => .str u.str
  | .datetime d => .str d.isoformat
  | .list items => .list (toJsonItems items)
  | v => v

def toJsonItems : List PyValue → List PyValue
  | [] => []
  | v :: vs => toJsonValue v :: toJsonItems vs

end

mutual

/-- What `json.dumps` writes; `none` is its `TypeError`. -/
def jsonOf? : PyValue → Option Json
  | .null => some .null
  | .bool b => some (.bool b)
  | .int n => some (.int n)
  | .float f => some (.float f)
  | .str s => some (.str s)
  | .uuid _ => none
  | .datetime _ => none
  | .list items => (jsonItems? items).map .arr
  | .dict fields => (jsonFields? fields).map .obj

def jsonItems? : List PyValue → Option (List Json)
  | [] => some []
  | v :: vs => (jsonOf? v).bind fun j => (jsonItems? vs).map (j :: ·)

def jsonFields? : List (String × PyValue) → Option (List (String × Json))
  | [] => some []
  | (k, v) :: fs => (jsonOf? v).bind fun j => (jsonFields? fs).map ((k, j) :: ·)

end

mutual

/-- What `json.loads` reads. -/
def ofJson : Json → PyValue
  | .null => .null
  | .bool b => .bool b
  | .int n => .int n
  | .float f => .float f
  | .str s => .str s
  | .arr items => .list (ofJsonItems items)
  | .obj fields => .dict (ofJsonFields fields)

def ofJsonItems : List Json → List PyValue
  | [] => []
  | j :: js => ofJson j :: ofJsonItems js

def ofJsonFields : List (String × Json) → List (String × PyValue)
  | [] => []
  | (k, j) :: fs => (k, ofJson j) :: ofJsonFields fs

end

mutual

/-- No UUID and no date-time, at any depth. -/
def PyValue.plain : PyValue → Bool
  | .uuid _ => false
  | .datetime _ => false
  | .list items => plainItems items
  | .dict fields => plainFields fields
  | _ => true

def plainItems : List PyValue → Bool
  | [] => true
  | v :: vs => v.plain && plainItems vs

def plainFields : List (String × PyValue) → Bool
  | [] => true
  | (_, v) :: fs => v.plain && plainFields fs

end

@[simp] theorem toJsonValue_str (s : String) : toJsonValue (.str s) = .str s := rfl
@[simp] theorem toJsonValue_int (n : ℤ) : toJsonValue (.int n) = .int n := rfl
@[simp] theorem toJsonValue_float (f : FloatLit) : toJsonValue (.float f) = .float f := rfl
@[simp] theorem toJsonValue_uuid (u : UuidInt) : toJsonValue (.uuid u) = .str u.str := rfl
@[simp] theorem toJsonValue_datetime (d : ZonedDateTime) : toJsonValue (.datetime d) = .str d.isoformat := rfl
@[simp] theorem plain_str (s : String) : (PyValue.str s).plain = true := rfl
@[simp] theorem plain_int (n : ℤ) : (PyValue.int n).plain = true := rfl
@[simp] theorem plain_float (f : FloatLit) : (PyValue.float f).plain = true := rfl
@[simp] theorem plain_dict (fs : List (String × PyValue)) : (PyValue.dict fs).plain = plainFields fs := rfl

theorem plainItems_iff {vs : List PyValue} : plainItems vs = true ↔ ∀ v ∈ vs, v.plain = true := by
  induction vs with
  | nil => simp [plainItems]
  | cons v vs ih => simp [plainItems, ih]

theorem plainFields_iff {fs : List (String × PyValue)} : plainFields fs = true ↔ ∀ f ∈ fs, f.2.plain = true := by
  induction fs with
  | nil => simp [plainFields]
  | cons f fs ih => simp [plainFields, ih]

/-- **What JSON can hold is read back as it was.** -/
theorem ofJson_of_jsonOf? (v : PyValue) : ∀ j, jsonOf? v = some j → ofJson j = v := by
  induction v using PyValue.induct with
  | null => rintro j ⟨⟩; rfl
  | bool b => rintro j ⟨⟩; rfl
  | int n => rintro j ⟨⟩; rfl
  | float f => rintro j ⟨⟩; rfl
  | str s => rintro j ⟨⟩; rfl
  | uuid u => intro j h; cases h
  | datetime d => intro j h; cases h
  | list xs ih =>
      intro j h
      obtain ⟨js, hjs, rfl⟩ := Option.map_eq_some_iff.mp h
      have hitems : ∀ js, jsonItems? xs = some js → ofJsonItems js = xs := by
        clear h hjs
        induction xs with
        | nil => rintro js ⟨⟩; rfl
        | cons x xs ihxs =>
            intro js hjs
            obtain ⟨j, hj, hrest⟩ := Option.bind_eq_some_iff.mp hjs
            obtain ⟨js', hjs', rfl⟩ := Option.map_eq_some_iff.mp hrest
            rw [ofJsonItems, ih x List.mem_cons_self j hj,
              ihxs (fun y hy => ih y (List.mem_cons_of_mem _ hy)) js' hjs']
      rw [ofJson, hitems js hjs]
  | dict fs ih =>
      intro j h
      obtain ⟨js, hjs, rfl⟩ := Option.map_eq_some_iff.mp h
      have hfields : ∀ js, jsonFields? fs = some js → ofJsonFields js = fs := by
        clear h hjs
        induction fs with
        | nil => rintro js ⟨⟩; rfl
        | cons f fs ihfs =>
            intro js hjs
            obtain ⟨j, hj, hrest⟩ := Option.bind_eq_some_iff.mp hjs
            obtain ⟨js', hjs', rfl⟩ := Option.map_eq_some_iff.mp hrest
            rw [ofJsonFields, ih f List.mem_cons_self j hj,
              ihfs (fun g hg => ih g (List.mem_cons_of_mem _ hg)) js' hjs']
      rw [ofJson, hfields js hjs]

/-- JSON can hold exactly the plain values. -/
theorem isSome_jsonOf? (v : PyValue) : (jsonOf? v).isSome = v.plain := by
  induction v using PyValue.induct with
  | null => rfl
  | bool b => rfl
  | int n => rfl
  | float f => rfl
  | str s => rfl
  | uuid u => rfl
  | datetime d => rfl
  | list xs ih =>
      have hitems : (jsonItems? xs).isSome = plainItems xs := by
        induction xs with
        | nil => rfl
        | cons x xs ihxs =>
            have hx := ih x List.mem_cons_self
            rw [plainItems, ← hx, ← ihxs fun y hy => ih y (List.mem_cons_of_mem _ hy), jsonItems?]
            cases jsonOf? x <;> simp
      rw [PyValue.plain, ← hitems, jsonOf?, Option.isSome_map]
  | dict fs ih =>
      have hfields : (jsonFields? fs).isSome = plainFields fs := by
        induction fs with
        | nil => rfl
        | cons f fs ihfs =>
            have hf := ih f List.mem_cons_self
            rw [plainFields, ← hf, ← ihfs fun g hg => ih g (List.mem_cons_of_mem _ hg), jsonFields?]
            cases jsonOf? f.2 <;> simp
      rw [PyValue.plain, ← hfields, jsonOf?, Option.isSome_map]

theorem toJsonItems_eq_map (vs : List PyValue) : toJsonItems vs = vs.map toJsonValue := by
  induction vs with
  | nil => rfl
  | cons v vs ih => rw [toJsonItems, ih, List.map_cons]

theorem toJsonValue_of_plain (v : PyValue) (h : v.plain = true) : toJsonValue v = v := by
  induction v using PyValue.induct with
  | null => rfl
  | bool b => rfl
  | int n => rfl
  | float f => rfl
  | str s => rfl
  | uuid u => cases h
  | datetime d => cases h
  | list xs ih =>
      have hplain := plainItems_iff.mp h
      rw [toJsonValue, toJsonItems_eq_map]
      congr 1
      conv_rhs => rw [← List.map_id xs]
      exact List.map_congr_left fun x hx => ih x hx (hplain x hx)
  | dict fs ih => rfl

/-- A value survives the encoder and JSON exactly if it is plain. -/
theorem plain_iff (v : PyValue) : ((toJsonValue v).plain = true ∧ toJsonValue v = v) ↔ v.plain = true := by
  constructor
  · rintro ⟨hplain, heq⟩
    rw [heq] at hplain
    exact hplain
  · intro h
    have heq := toJsonValue_of_plain v h
    exact ⟨by rw [heq]; exact h, heq⟩

/-! ## Reading a field -/

/-- `str(value)`, where the text may be one that a constructor reads. -/
def PyValue.str? : PyValue → Option String
  | .str s => some s
  | .int n => some (toString n)
  | _ => none

/-- The values of a `for` loop over the value. -/
def PyValue.iterate? : PyValue → Option (List PyValue)
  | .list items => some items
  | .dict fields => some (fields.map fun f => .str f.1)
  | .str s => some (s.toList.map fun c => .str (String.singleton c))
  | _ => none

/-- `UUID(str(value))` -/
def uuidOf? (v : PyValue) : Option UuidInt := v.str?.bind UuidInt.parse?

@[simp] def uuidListFields : List String := ["source_document_ids", "source_chunk_ids"]

@[simp] def datetimeFields : List String := ["valid_from", "valid_until", "created_at", "updated_at"]

/-- A branch of `_coerce`; `none` when a constructor raises. -/
def coerceValue (uuidFields : List String) (key : String) : PyValue → Option PyValue
  | .null => some .null
  | value =>
      if key ∈ uuidFields then (uuidOf? value).map .uuid
      else if key ∈ uuidListFields then
        value.iterate?.bind fun items => (items.mapM fun v => (uuidOf? v).map PyValue.uuid).map .list
      else if key ∈ datetimeFields then (value.str?.bind fromisoformat).map fun d => .datetime (.fixed d)
      else some value

/-- `_coerce` -/
def coerce (uuidFields : List String) (raw : List (String × PyValue)) : Option (List (String × PyValue)) :=
  raw.mapM fun f => (coerceValue uuidFields f.1 f.2).map fun v => (f.1, v)

section Coerce

variable {uuidFields : List String} {key : String}

theorem coerceValue_uuid (h : key ∈ uuidFields) (u : UuidInt) :
    coerceValue uuidFields key (.str u.str) = some (.uuid u) := by
  simp [coerceValue, h, uuidOf?, PyValue.str?, UuidInt.parse?_str]

theorem mapM_uuids (ids : List UuidInt) :
    ((ids.map fun u => PyValue.str u.str).mapM fun v => (uuidOf? v).map PyValue.uuid) =
      some (ids.map PyValue.uuid) := by
  induction ids with
  | nil => rfl
  | cons u ids ih =>
      have hu : (uuidOf? (.str u.str)).map PyValue.uuid = some (.uuid u) := by
        simp [uuidOf?, PyValue.str?, UuidInt.parse?_str]
      rw [List.map_cons, List.mapM_cons, hu, ih]
      rfl

theorem coerceValue_uuids (hu : key ∉ uuidFields) (h : key ∈ uuidListFields) (ids : List UuidInt) :
    coerceValue uuidFields key (.list (ids.map fun u => .str u.str)) = some (.list (ids.map .uuid)) := by
  simp only [coerceValue, if_neg hu, if_pos h, PyValue.iterate?, Option.bind_some, mapM_uuids, Option.map_some]

/-- A date-time or `None`. -/
def optDate : Option ZonedDateTime → PyValue
  | some d => .datetime d
  | none => .null

theorem coerceValue_date (hu : key ∉ uuidFields) (hl : key ∉ uuidListFields) (h : key ∈ datetimeFields)
    (d : Option ZonedDateTime) : coerceValue uuidFields key (toJsonValue (optDate d)) =
      some (optDate (d.map fun d => .fixed d.toDateTime)) := by
  cases d with
  | none => rfl
  | some d =>
      simp only [optDate, toJsonValue, coerceValue, if_neg hu, if_neg hl, if_pos h, PyValue.str?, Option.bind_some,
        DateTime.fromisoformat_isoformat, Option.map_some]

theorem coerceValue_other (h : key ∉ uuidFields ++ (uuidListFields ++ datetimeFields)) (v : PyValue) :
    coerceValue uuidFields key v = some v := by
  simp only [List.mem_append, not_or] at h
  obtain ⟨hu, hl, hd⟩ := h
  cases v <;> simp only [coerceValue, if_neg hu, if_neg hl, if_neg hd]

end Coerce

theorem coerce_cons {uuidFields : List String} {key : String} {v w : PyValue} {raw out : List (String × PyValue)}
    (hv : coerceValue uuidFields key v = some w) (h : coerce uuidFields raw = some out) :
    coerce uuidFields ((key, v) :: raw) = some ((key, w) :: out) := by
  unfold coerce at h ⊢
  rw [List.mapM_cons, h, hv]
  rfl

/-- A keyword argument of a constructor: the default when it is missing, `none` when it has a type that the field does
not have. -/
def argument {α : Type} (data : List (String × PyValue)) (key : String) (default : α) (as : PyValue → Option α) :
    Option α :=
  match data.lookup key with
  | some v => as v
  | none => some default

namespace PyValue

def asUuid : PyValue → Option UuidInt
  | .uuid u => some u
  | _ => none

def asUuids : PyValue → Option (List UuidInt)
  | .list items => items.mapM asUuid
  | _ => none

def asStr : PyValue → Option String
  | .str s => some s
  | _ => none

def asOptStr : PyValue → Option (Option String)
  | .null => some none
  | .str s => some (some s)
  | _ => none

def asInt : PyValue → Option ℤ
  | .int n => some n
  | _ => none

def asFloat : PyValue → Option FloatLit
  | .float f => some f
  | _ => none

def asOptFloats : PyValue → Option (Option (List FloatLit))
  | .null => some none
  | .list items => (items.mapM asFloat).map some
  | _ => none

def asDate : PyValue → Option ZonedDateTime
  | .datetime d => some d
  | _ => none

def asOptDate : PyValue → Option (Option ZonedDateTime)
  | .null => some none
  | .datetime d => some (some d)
  | _ => none

end PyValue

/-- An embedding or `None`. -/
def optFloats : Option (List FloatLit) → PyValue
  | some fs => .list (fs.map .float)
  | none => .null

theorem asUuids_map (ids : List UuidInt) : PyValue.asUuids (.list (ids.map .uuid)) = some ids := by
  show (ids.map PyValue.uuid).mapM PyValue.asUuid = some ids
  induction ids with
  | nil => rfl
  | cons u ids ih => simp [List.mapM_cons, ih, PyValue.asUuid]

theorem asOptFloats_optFloats (e : Option (List FloatLit)) : PyValue.asOptFloats (optFloats e) = some e := by
  cases e with
  | none => rfl
  | some fs =>
      have hmap : (fs.map PyValue.float).mapM PyValue.asFloat = some fs := by
        induction fs with
        | nil => rfl
        | cons f fs ih => simp [List.mapM_cons, ih, PyValue.asFloat]
      simp only [optFloats, PyValue.asOptFloats, hmap, Option.map_some]

theorem asOptDate_optDate (d : Option ZonedDateTime) : PyValue.asOptDate (optDate d) = some d := by
  cases d <;> rfl

theorem toJsonValue_uuids (ids : List UuidInt) :
    toJsonValue (.list (ids.map .uuid)) = .list (ids.map fun u => .str u.str) := by
  rw [toJsonValue, toJsonItems_eq_map, List.map_map]
  rfl

theorem plain_optFloats (e : Option (List FloatLit)) : (optFloats e).plain = true := by
  cases e with
  | none => rfl
  | some fs =>
      rw [optFloats, PyValue.plain, plainItems_iff]
      intro v hv
      obtain ⟨f, -, rfl⟩ := List.mem_map.mp hv
      rfl

/-- A date-time or `None` that is read back. -/
theorem same_fixed_optDate_iff (d : Option ZonedDateTime) :
    Option.Rel ZonedDateTime.Same (d.map fun d => .fixed d.toDateTime) d ↔ ∀ d' ∈ d, d'.refolded = d'.offset := by
  cases d with
  | none => exact iff_of_true .none fun _ h => nomatch h
  | some d =>
      rw [Option.map_some, Option.rel_some_some, ZonedDateTime.same_fixed_iff]
      simp

theorem plain_toJsonValue_optDate (d : Option ZonedDateTime) : (toJsonValue (optDate d)).plain = true := by
  cases d <;> rfl

theorem plain_uuidTexts (ids : List UuidInt) : (PyValue.list (ids.map fun u => .str u.str)).plain = true := by
  rw [PyValue.plain, plainItems_iff]
  intro v hv
  obtain ⟨u, -, rfl⟩ := List.mem_map.mp hv
  rfl

/-! ## Entities -/

/-- The fields that `__post_init__` leaves alone; `D` is the type of `source_documents`. -/
structure EntityFields (D : Type) where
  id : UuidInt
  namespaceId : UuidInt
  entityType : String
  attributes : PyValue
  sourceDocumentIds : List UuidInt
  sourceChunkIds : List UuidInt
  sourceDocuments : Option D
  mentionCount : ℤ
  embedding : Option (List FloatLit)
  embeddingModel : String
  validFrom : Option ZonedDateTime
  validUntil : Option ZonedDateTime
  confidence : FloatLit
  metadata : PyValue
  createdAt : ZonedDateTime
  updatedAt : ZonedDateTime

/-- The arguments of `Entity(...)`. -/
structure EntityArgs (D : Type) extends EntityFields D where
  name : Option String
  description : Option String
  sourceTool : Option String

/-- An entity; its name is at most 512 characters long. -/
structure Entity (D : Type) extends EntityFields D where
  name : String
  description : String
  sourceTool : String
  name_length : name.length ≤ 512

/-- `name[:509] + "..."`, for a name of more than 512 characters. -/
def truncateName (name : String) : String :=
  if 512 < name.length then String.ofList (name.toList.take 509 ++ ['.', '.', '.']) else name

theorem length_truncateName (name : String) : (truncateName name).length ≤ 512 := by
  unfold truncateName
  split
  · rw [String.length_ofList, List.length_append, List.length_take]
    simp only [List.length_cons, List.length_nil]
    omega
  · omega

theorem truncateName_eq_self {name : String} (h : name.length ≤ 512) : truncateName name = name :=
  if_neg (by omega)

/-- `Entity(...)`, with `__post_init__` -/
def Entity.init {D : Type} (args : EntityArgs D) : Entity D where
  toEntityFields := args.toEntityFields
  name := truncateName (args.name.getD "")
  description := args.description.getD ""
  sourceTool := args.sourceTool.getD ""
  name_length := length_truncateName _

section Entities

variable {D : Type}

/-- The fields in the order of the class, without `source_documents`. -/
def Entity.fields (e : Entity D) : List (String × PyValue) :=
  [("id", .uuid e.id),
   ("namespace_id", .uuid e.namespaceId),
   ("name", .str e.name),
   ("entity_type", .str e.entityType),
   ("description", .str e.description),
   ("attributes", e.attributes),
   ("source_tool", .str e.sourceTool),
   ("source_document_ids", .list (e.sourceDocumentIds.map .uuid)),
   ("source_chunk_ids", .list (e.sourceChunkIds.map .uuid)),
   ("mention_count", .int e.mentionCount),
   ("embedding", optFloats e.embedding),
   ("embedding_model", .str e.embeddingModel),
   ("valid_from", optDate e.validFrom),
   ("valid_until", optDate e.validUntil),
   ("confidence", .float e.confidence),
   ("metadata", e.metadata),
   ("created_at", .datetime e.createdAt),
   ("updated_at", .datetime e.updatedAt)]

/-- `_model_to_json` -/
def modelToJson (fields : List (String × PyValue)) : PyValue := .dict (fields.map fun f => (f.1, toJsonValue f.2))

@[simp] def entityUuidFields : List String := ["id", "namespace_id"]

/-- The names of `fields(Entity)`. -/
def entityKnown : List String :=
  ["id", "namespace_id", "name", "entity_type", "description", "attributes", "source_tool", "source_document_ids",
   "source_chunk_ids", "source_documents", "mention_count", "embedding", "embedding_model", "valid_from", "valid_until",
   "confidence", "metadata", "created_at", "updated_at"]

/-- `Entity(**data)`; `defaults` has what the default factories give. -/
def entityOfData (defaults : EntityArgs D) (data : List (String × PyValue)) : Option (Entity D) := do
  let id ← argument data "id" defaults.id PyValue.asUuid
  let namespaceId ← argument data "namespace_id" defaults.namespaceId PyValue.asUuid
  let name ← argument data "name" defaults.name PyValue.asOptStr
  let entityType ← argument data "entity_type" defaults.entityType PyValue.asStr
  let description ← argument data "description" defaults.description PyValue.asOptStr
  let attributes ← argument data "attributes" defaults.attributes some
  let sourceTool ← argument data "source_tool" defaults.sourceTool PyValue.asOptStr
  let sourceDocumentIds ← argument data "source_document_ids" defaults.sourceDocumentIds PyValue.asUuids
  let sourceChunkIds ← argument data "source_chunk_ids" defaults.sourceChunkIds PyValue.asUuids
  let mentionCount ← argument data "mention_count" defaults.mentionCount PyValue.asInt
  let embedding ← argument data "embedding" defaults.embedding PyValue.asOptFloats
  let embeddingModel ← argument data "embedding_model" defaults.embeddingModel PyValue.asStr
  let validFrom ← argument data "valid_from" defaults.validFrom PyValue.asOptDate
  let validUntil ← argument data "valid_until" defaults.validUntil PyValue.asOptDate
  let confidence ← argument data "confidence" defaults.confidence PyValue.asFloat
  let metadata ← argument data "metadata" defaults.metadata some
  let createdAt ← argument data "created_at" defaults.createdAt PyValue.asDate
  let updatedAt ← argument data "updated_at" defaults.updatedAt PyValue.asDate
  return Entity.init
    { id, namespaceId, name, entityType, description, attributes, sourceTool, sourceDocumentIds, sourceChunkIds,
      sourceDocuments := none, mentionCount, embedding, embeddingModel, validFrom, validUntil, confidence, metadata,
      createdAt, updatedAt }

/-- `_entity_from_json` -/
def entityFromJson (defaults : EntityArgs D) : PyValue → Option (Entity D)
  | .dict raw => (coerce entityUuidFields (raw.filter fun f => f.1 ∈ entityKnown)).bind (entityOfData defaults)
  | _ => none

/-- What the encoder makes of the trees and the dates; the sources are not in the payload. -/
def Entity.encoded (e : Entity D) : Entity D :=
  { e with
    attributes := toJsonValue e.attributes
    metadata := toJsonValue e.metadata
    sourceDocuments := none
    validFrom := e.validFrom.map fun d => .fixed d.toDateTime
    validUntil := e.validUntil.map fun d => .fixed d.toDateTime
    createdAt := .fixed e.createdAt.toDateTime
    updatedAt := .fixed e.updatedAt.toDateTime }

theorem coerce_entity (e : Entity D) :
    coerce entityUuidFields ((e.fields.map fun f => (f.1, toJsonValue f.2)).filter fun f => f.1 ∈ entityKnown) =
      some e.encoded.fields := by
  have hfilter : ((e.fields.map fun f => (f.1, toJsonValue f.2)).filter fun f => f.1 ∈ entityKnown) =
      e.fields.map fun f => (f.1, toJsonValue f.2) := by
    rw [List.filter_eq_self]
    simp [Entity.fields, entityKnown]
  rw [hfilter]
  simp only [Entity.fields, List.map_cons, List.map_nil, toJsonValue_uuids,
    toJsonValue_of_plain _ (plain_optFloats e.embedding)]
  apply coerce_cons (coerceValue_uuid (by simp) _)
  apply coerce_cons (coerceValue_uuid (by simp) _)
  apply coerce_cons (coerceValue_other (by simp) _)
  apply coerce_cons (coerceValue_other (by simp) _)
  apply coerce_cons (coerceValue_other (by simp) _)
  apply coerce_cons (coerceValue_other (by simp) _)
  apply coerce_cons (coerceValue_other (by simp) _)
  apply coerce_cons (coerceValue_uuids (by simp) (by simp) _)
  apply coerce_cons (coerceValue_uuids (by simp) (by simp) _)
  apply coerce_cons (coerceValue_other (by simp) _)
  apply coerce_cons (coerceValue_other (by simp) _)
  apply coerce_cons (coerceValue_other (by simp) _)
  apply coerce_cons (coerceValue_date (by simp) (by simp) (by simp) _)
  apply coerce_cons (coerceValue_date (by simp) (by simp) (by simp) _)
  apply coerce_cons (coerceValue_other (by simp) _)
  apply coerce_cons (coerceValue_other (by simp) _)
  apply coerce_cons (coerceValue_date (by simp) (by simp) (by simp) (some e.createdAt))
  apply coerce_cons (coerceValue_date (by simp) (by simp) (by simp) (some e.updatedAt))
  rfl

/-- The arguments that give the entity again. -/
def Entity.args (e : Entity D) : EntityArgs D :=
  { e.toEntityFields with name := some e.name, description := some e.description, sourceTool := some e.sourceTool }

/-- `__post_init__` leaves what it has made alone. -/
theorem Entity.init_args (e : Entity D) : Entity.init e.args = e := by
  obtain ⟨fields, name, description, sourceTool, hname⟩ := e
  simp only [Entity.init, Entity.args, Option.getD_some, truncateName_eq_self hname]

theorem entityOfData_fields (defaults : EntityArgs D) (e : Entity D) (hsources : e.sourceDocuments = none) :
    entityOfData defaults e.fields = some e := by
  have hargs : entityOfData defaults e.fields = some (Entity.init { e.args with sourceDocuments := none }) := by
    simp [entityOfData, Entity.fields, Entity.args, argument, List.lookup_cons, PyValue.asUuid, PyValue.asOptStr,
      PyValue.asStr, PyValue.asInt, PyValue.asFloat, PyValue.asDate, asUuids_map, asOptFloats_optFloats,
      asOptDate_optDate]
  have hsame : ({ e.args with sourceDocuments := none } : EntityArgs D) = e.args := by
    rw [← hsources]
    rfl
  rw [hargs, hsame, e.init_args]

/-- **What is decoded from an encoded entity.** -/
theorem entityFromJson_modelToJson (defaults : EntityArgs D) (e : Entity D) :
    entityFromJson defaults (modelToJson e.fields) = some e.encoded := by
  rw [modelToJson, entityFromJson, coerce_entity]
  exact entityOfData_fields defaults e.encoded rfl

/-- The entity without its sources. -/
def Entity.withoutSources (e : Entity D) : Entity D := { e with sourceDocuments := none }

/-- `==` of two entities that share no zone. -/
def Entity.Same (a b : Entity D) : Prop :=
  { a with
    validFrom := b.validFrom, validUntil := b.validUntil, createdAt := b.createdAt, updatedAt := b.updatedAt } = b ∧
  Option.Rel ZonedDateTime.Same a.validFrom b.validFrom ∧ Option.Rel ZonedDateTime.Same a.validUntil b.validUntil ∧
    a.createdAt.Same b.createdAt ∧ a.updatedAt.Same b.updatedAt

/-- No zone repeats or skips the clock time of a date of the entity. -/
def Entity.Settled (e : Entity D) : Prop :=
  (∀ d ∈ e.validFrom, d.refolded = d.offset) ∧ (∀ d ∈ e.validUntil, d.refolded = d.offset) ∧
    e.createdAt.refolded = e.createdAt.offset ∧ e.updatedAt.refolded = e.updatedAt.offset

theorem Entity.encoded_same_iff (e : Entity D) : e.encoded.Same e.withoutSources ↔
    (toJsonValue e.attributes = e.attributes ∧ toJsonValue e.metadata = e.metadata) ∧ e.Settled := by
  refine and_congr ⟨fun h => ?_, ?_⟩ ?_
  · exact ⟨congrArg (fun e : Entity D => e.attributes) h, congrArg (fun e : Entity D => e.metadata) h⟩
  · rintro ⟨ha, hm⟩
    simp only [Entity.encoded, Entity.withoutSources, ha, hm]
  · exact and_congr (same_fixed_optDate_iff _) (and_congr (same_fixed_optDate_iff _)
      (and_congr (ZonedDateTime.same_fixed_iff _) (ZonedDateTime.same_fixed_iff _)))

/-- What an encoded entity has beside its trees can be written. -/
theorem plain_modelToJson_entity (e : Entity D) : (modelToJson e.fields).plain = true ↔
    (toJsonValue e.attributes).plain = true ∧ (toJsonValue e.metadata).plain = true := by
  simp [modelToJson, Entity.fields, plainFields, toJsonValue_uuids, plain_uuidTexts, plain_toJsonValue_optDate,
    toJsonValue_of_plain _ (plain_optFloats e.embedding), plain_optFloats]

end Entities

/-! ## Relationships -/

structure Relationship (D : Type) where
  id : UuidInt
  namespaceId : UuidInt
  sourceEntityId : UuidInt
  targetEntityId : UuidInt
  relationshipType : String
  description : String
  sourceEntityName : String
  targetEntityName : String
  properties : PyValue
  sourceDocumentIds : List UuidInt
  sourceChunkIds : List UuidInt
  sourceDocuments : Option D
  validFrom : Option ZonedDateTime
  validUntil : Option ZonedDateTime
  confidence : FloatLit
  weight : FloatLit
  metadata : PyValue
  createdAt : ZonedDateTime
  updatedAt : ZonedDateTime

section Relationships

variable {D : Type}

def Relationship.fields (r : Relationship D) : List (String × PyValue) :=
  [("id", .uuid r.id),
   ("namespace_id", .uuid r.namespaceId),
   ("source_entity_id", .uuid r.sourceEntityId),
   ("target_entity_id", .uuid r.targetEntityId),
   ("relationship_type", .str r.relationshipType),
   ("description", .str r.description),
   ("source_entity_name", .str r.sourceEntityName),
   ("target_entity_name", .str r.targetEntityName),
   ("properties", r.properties),
   ("source_document_ids", .list (r.sourceDocumentIds.map .uuid)),
   ("source_chunk_ids", .list (r.sourceChunkIds.map .uuid)),
   ("valid_from", optDate r.validFrom),
   ("valid_until", optDate r.validUntil),
   ("confidence", .float r.confidence),
   ("weight", .float r.weight),
   ("metadata", r.metadata),
   ("created_at", .datetime r.createdAt),
   ("updated_at", .datetime r.updatedAt)]

@[simp] def relUuidFields : List String := ["id", "namespace_id", "source_entity_id", "target_entity_id"]

/-- The names of `fields(Relationship)`. -/
def relationshipKnown : List String :=
  ["id", "namespace_id", "source_entity_id", "target_entity_id", "relationship_type", "description",
   "source_entity_name", "target_entity_name", "properties", "source_document_ids", "source_chunk_ids",
   "source_documents", "valid_from", "valid_until", "confidence", "weight", "metadata", "created_at", "updated_at"]

/-- `Relationship(**data)` -/
def relationshipOfData (defaults : Relationship D) (data : List (String × PyValue)) : Option (Relationship D) := do
  let id ← argument data "id" defaults.id PyValue.asUuid
  let namespaceId ← argument data "namespace_id" defaults.namespaceId PyValue.asUuid
  let sourceEntityId ← argument data "source_entity_id" defaults.sourceEntityId PyValue.asUuid
  let targetEntityId ← argument data "target_entity_id" defaults.targetEntityId PyValue.asUuid
  let relationshipType ← argument data "relationship_type" defaults.relationshipType PyValue.asStr
  let description ← argument data "description" defaults.description PyValue.asStr
  let sourceEntityName ← argument data "source_entity_name" defaults.sourceEntityName PyValue.asStr
  let targetEntityName ← argument data "target_entity_name" defaults.targetEntityName PyValue.asStr
  let properties ← argument data "properties" defaults.properties some
  let sourceDocumentIds ← argument data "source_document_ids" defaults.sourceDocumentIds PyValue.asUuids
  let sourceChunkIds ← argument data "source_chunk_ids" defaults.sourceChunkIds PyValue.asUuids
  let validFrom ← argument data "valid_from" defaults.validFrom PyValue.asOptDate
  let validUntil ← argument data "valid_until" defaults.validUntil PyValue.asOptDate
  let confidence ← argument data "confidence" defaults.confidence PyValue.asFloat
  let weight ← argument data "weight" defaults.weight PyValue.asFloat
  let metadata ← argument data "metadata" defaults.metadata some
  let createdAt ← argument data "created_at" defaults.createdAt PyValue.asDate
  let updatedAt ← argument data "updated_at" defaults.updatedAt PyValue.asDate
  return { id, namespaceId, sourceEntityId, targetEntityId, relationshipType, description, sourceEntityName,
           targetEntityName, properties, sourceDocumentIds, sourceChunkIds, sourceDocuments := none, validFrom,
           validUntil, confidence, weight, metadata, createdAt, updatedAt }

/-- `_relationship_from_json` -/
def relationshipFromJson (defaults : Relationship D) : PyValue → Option (Relationship D)
  | .dict raw =>
      (coerce relUuidFields (raw.filter fun f => f.1 ∈ relationshipKnown)).bind (relationshipOfData defaults)
  | _ => none

def Relationship.encoded (r : Relationship D) : Relationship D :=
  { r with
    properties := toJsonValue r.properties
    metadata := toJsonValue r.metadata
    sourceDocuments := none
    validFrom := r.validFrom.map fun d => .fixed d.toDateTime
    validUntil := r.validUntil.map fun d => .fixed d.toDateTime
    createdAt := .fixed r.createdAt.toDateTime
    updatedAt := .fixed r.updatedAt.toDateTime }

theorem coerce_relationship (r : Relationship D) :
    coerce relUuidFields ((r.fields.map fun f => (f.1, toJsonValue f.2)).filter fun f => f.1 ∈ relationshipKnown) =
      some r.encoded.fields := by
  have hfilter : ((r.fields.map fun f => (f.1, toJsonValue f.2)).filter fun f => f.1 ∈ relationshipKnown) =
      r.fields.map fun f => (f.1, toJsonValue f.2) := by
    rw [List.filter_eq_self]
    simp [Relationship.fields, relationshipKnown]
  rw [hfilter]
  simp only [Relationship.fields, List.map_cons, List.map_nil, toJsonValue_uuids]
  apply coerce_cons (coerceValue_uuid (by simp) _)
  apply coerce_cons (coerceValue_uuid (by simp) _)
  apply coerce_cons (coerceValue_uuid (by simp) _)
  apply coerce_cons (coerceValue_uuid (by simp) _)
  apply coerce_cons (coerceValue_other (by simp) _)
  apply coerce_cons (coerceValue_other (by simp) _)
  apply coerce_cons (coerceValue_other (by simp) _)
  apply coerce_cons (coerceValue_other (by simp) _)
  apply coerce_cons (coerceValue_other (by simp) _)
  apply coerce_cons (coerceValue_uuids (by simp) (by simp) _)
  apply coerce_cons (coerceValue_uuids (by simp) (by simp) _)
  apply coerce_cons (coerceValue_date (by simp) (by simp) (by simp) _)
  apply coerce_cons (coerceValue_date (by simp) (by simp) (by simp) _)
  apply coerce_cons (coerceValue_other (by simp) _)
  apply coerce_cons (coerceValue_other (by simp) _)
  apply coerce_cons (coerceValue_other (by simp) _)
  apply coerce_cons (coerceValue_date (by simp) (by simp) (by simp) (some r.createdAt))
  apply coerce_cons (coerceValue_date (by simp) (by simp) (by simp) (some r.updatedAt))
  rfl

theorem relationshipOfData_fields (defaults : Relationship D) (r : Relationship D)
    (hsources : r.sourceDocuments = none) :
    relationshipOfData defaults r.fields = some r := by
  have hargs : relationshipOfData defaults r.fields = some { r with sourceDocuments := none } := by
    simp [relationshipOfData, Relationship.fields, argument, List.lookup_cons, PyValue.asUuid, PyValue.asStr,
      PyValue.asFloat, PyValue.asDate, asUuids_map, asOptDate_optDate]
  rw [hargs, ← hsources]

/-- **What is decoded from an encoded relationship.** -/
theorem relationshipFromJson_modelToJson (defaults : Relationship D) (r : Relationship D) :
    relationshipFromJson defaults (modelToJson r.fields) = some r.encoded := by
  rw [modelToJson, relationshipFromJson, coerce_relationship]
  exact relationshipOfData_fields defaults r.encoded rfl

def Relationship.withoutSources (r : Relationship D) : Relationship D := { r with sourceDocuments := none }

def Relationship.Same (a b : Relationship D) : Prop :=
  { a with
    validFrom := b.validFrom, validUntil := b.validUntil, createdAt := b.createdAt, updatedAt := b.updatedAt } = b ∧
  Option.Rel ZonedDateTime.Same a.validFrom b.validFrom ∧ Option.Rel ZonedDateTime.Same a.validUntil b.validUntil ∧
    a.createdAt.Same b.createdAt ∧ a.updatedAt.Same b.updatedAt

def Relationship.Settled (r : Relationship D) : Prop :=
  (∀ d ∈ r.validFrom, d.refolded = d.offset) ∧ (∀ d ∈ r.validUntil, d.refolded = d.offset) ∧
    r.createdAt.refolded = r.createdAt.offset ∧ r.updatedAt.refolded = r.updatedAt.offset

theorem Relationship.encoded_same_iff (r : Relationship D) : r.encoded.Same r.withoutSources ↔
    (toJsonValue r.properties = r.properties ∧ toJsonValue r.metadata = r.metadata) ∧ r.Settled := by
  refine and_congr ⟨fun h => ?_, ?_⟩ ?_
  · exact ⟨congrArg Relationship.properties h, congrArg Relationship.metadata h⟩
  · rintro ⟨hp, hm⟩
    simp only [Relationship.encoded, Relationship.withoutSources, hp, hm]
  · exact and_congr (same_fixed_optDate_iff _) (and_congr (same_fixed_optDate_iff _)
      (and_congr (ZonedDateTime.same_fixed_iff _) (ZonedDateTime.same_fixed_iff _)))

theorem plain_modelToJson_relationship (r : Relationship D) : (modelToJson r.fields).plain = true ↔
    (toJsonValue r.properties).plain = true ∧ (toJsonValue r.metadata).plain = true := by
  simp [modelToJson, Relationship.fields, plainFields, toJsonValue_uuids, plain_uuidTexts, plain_toJsonValue_optDate]

end Relationships

/-! ## The payload -/

/-- A retired relationship; ids are already the texts of `str`. -/
structure RetirementRow where
  relationshipId : String
  oldDocId : String
  retiredAt : DateTime ⊕ String

/-- The arguments of `build_replace_mirror_payload`, with the clock and the name of the exception's type. -/
structure ReplacePlan (D : Type) where
  oldDocumentId : UuidInt
  failedAt : DateTime
  exception : String
  entityRetirementRows : List (List (String × String))
  relationshipRetirementRows : List RetirementRow
  entitySurvivorRemapRows : List (List (String × String))
  relationshipSurvivorRemapRows : List (List (String × String))
  entitySurvivorStripIds : List UuidInt
  relationshipSurvivorStripIds : List UuidInt
  netNewEntities : List (Entity D)
  netNewRelationships : List (Relationship D)

section Payload

variable {D : Type}

/-- A row of texts, and a list of them. -/
def textRow (row : List (String × String)) : PyValue := .dict (row.map fun f => (f.1, .str f.2))

def textRows (rows : List (List (String × String))) : PyValue := .list (rows.map textRow)

def RetirementRow.value (row : RetirementRow) : PyValue :=
  .dict
    [("relationship_id", .str row.relationshipId),
     ("old_doc_id", .str row.oldDocId),
     ("retired_at", .str (row.retiredAt.elim DateTime.isoformat id))]

/-- `build_replace_mirror_payload` -/
def buildReplaceMirrorPayload (p : ReplacePlan D) : PyValue :=
  .dict
    [("version", .int 1),
     ("old_document_id", .str p.oldDocumentId.str),
     ("failed_at", .str p.failedAt.isoformat),
     ("exception", .str p.exception),
     ("entity_retirement_rows", textRows p.entityRetirementRows),
     ("relationship_retirement_rows", .list (p.relationshipRetirementRows.map RetirementRow.value)),
     ("entity_survivor_remap_rows", textRows p.entitySurvivorRemapRows),
     ("relationship_survivor_remap_rows", textRows p.relationshipSurvivorRemapRows),
     ("entity_survivor_strip_ids", .list (p.entitySurvivorStripIds.map fun u => .str u.str)),
     ("relationship_survivor_strip_ids", .list (p.relationshipSurvivorStripIds.map fun u => .str u.str)),
     ("net_new_entities", .list (p.netNewEntities.map fun e => modelToJson e.fields)),
     ("net_new_relationships", .list (p.netNewRelationships.map fun r => modelToJson r.fields))]

/-- `payload.get(key) or []`, of a list. -/
def rawItems (payload : PyValue) (key : String) : List PyValue :=
  match payload with
  | .dict fields =>
      match fields.lookup key with
      | some (.list items) => items
      | _ => []
  | _ => []

/-- The objects that `apply_replace_mirror_payload` decodes. -/
def netNewEntities (defaults : EntityArgs D) (payload : PyValue) : Option (List (Entity D)) :=
  (rawItems payload "net_new_entities").mapM (entityFromJson defaults)

def netNewRelationships (defaults : Relationship D) (payload : PyValue) : Option (List (Relationship D)) :=
  (rawItems payload "net_new_relationships").mapM (relationshipFromJson defaults)

/-- The payload can be written as JSON, and what is read back equals the objects, but for their sources. -/
def PayloadRight (entityDefaults : EntityArgs D) (relationshipDefaults : Relationship D) (p : ReplacePlan D) : Prop :=
  ∃ j, jsonOf? (buildReplaceMirrorPayload p) = some j ∧
    (∃ entities, netNewEntities entityDefaults (ofJson j) = some entities ∧
      List.Forall₂ Entity.Same entities (p.netNewEntities.map Entity.withoutSources)) ∧
    ∃ relationships, netNewRelationships relationshipDefaults (ofJson j) = some relationships ∧
      List.Forall₂ Relationship.Same relationships (p.netNewRelationships.map Relationship.withoutSources)

theorem mapM_encoded {A : Type} {f : PyValue → Option A} {g : A → PyValue} {h k : A → A} {R : A → A → Prop}
    (hf : ∀ a, f (g a) = some (h a)) (as : List A) :
    (∃ bs, (as.map g).mapM f = some bs ∧ List.Forall₂ R bs (as.map k)) ↔ ∀ a ∈ as, R (h a) (k a) := by
  have hmap : (as.map g).mapM f = some (as.map h) := by
    induction as with
    | nil => rfl
    | cons a as ih =>
        rw [List.map_cons, List.mapM_cons, hf, ih]
        rfl
  simp only [hmap, Option.some.injEq, exists_eq_left', List.forall₂_map_left_iff, List.forall₂_map_right_iff,
    List.forall₂_same]

theorem plain_list_map {A : Type} (g : A → PyValue) (as : List A) :
    (PyValue.list (as.map g)).plain = true ↔ ∀ a ∈ as, (g a).plain = true := by
  rw [PyValue.plain, plainItems_iff]
  simp

theorem plain_textRows (rows : List (List (String × String))) : (textRows rows).plain = true := by
  rw [textRows, plain_list_map]
  intro row _
  rw [textRow, PyValue.plain, plainFields_iff]
  intro f hf
  obtain ⟨g, -, rfl⟩ := List.mem_map.mp hf
  rfl

theorem plain_retirementRows (rows : List RetirementRow) :
    (PyValue.list (rows.map RetirementRow.value)).plain = true := by
  rw [plain_list_map]
  intro row _
  rfl

/-- The payload can be written exactly if each object can. -/
theorem plain_payload (p : ReplacePlan D) : (buildReplaceMirrorPayload p).plain = true ↔
    (∀ e ∈ p.netNewEntities, (modelToJson e.fields).plain = true) ∧
      ∀ r ∈ p.netNewRelationships, (modelToJson r.fields).plain = true := by
  rw [← plain_list_map (fun e : Entity D => modelToJson e.fields),
    ← plain_list_map (fun r : Relationship D => modelToJson r.fields)]
  simp only [buildReplaceMirrorPayload, plain_dict, plainFields, plain_textRows, plain_retirementRows,
    plain_uuidTexts, plain_str, plain_int, Bool.true_and, Bool.and_true, Bool.and_eq_true]

/-- **The plans that survive**: those whose objects have no UUID and no date-time in their attributes, properties and
metadata, and no date whose clock time its zone repeats or skips. -/
theorem payload_exact (entityDefaults : EntityArgs D) (relationshipDefaults : Relationship D) (p : ReplacePlan D) :
    PayloadRight entityDefaults relationshipDefaults p ↔
      (∀ e ∈ p.netNewEntities, (e.attributes.plain = true ∧ e.metadata.plain = true) ∧ e.Settled) ∧
        ∀ r ∈ p.netNewRelationships, (r.properties.plain = true ∧ r.metadata.plain = true) ∧ r.Settled := by
  have hread : ∀ payload, payload = buildReplaceMirrorPayload p →
      ((∃ entities, netNewEntities entityDefaults payload = some entities ∧
          List.Forall₂ Entity.Same entities (p.netNewEntities.map Entity.withoutSources)) ↔
        ∀ e ∈ p.netNewEntities, e.encoded.Same e.withoutSources) ∧
      ((∃ relationships, netNewRelationships relationshipDefaults payload = some relationships ∧
          List.Forall₂ Relationship.Same relationships (p.netNewRelationships.map Relationship.withoutSources)) ↔
        ∀ r ∈ p.netNewRelationships, r.encoded.Same r.withoutSources) := by
    rintro payload rfl
    exact ⟨mapM_encoded (entityFromJson_modelToJson entityDefaults) _,
      mapM_encoded (relationshipFromJson_modelToJson relationshipDefaults) _⟩
  have hright : PayloadRight entityDefaults relationshipDefaults p ↔
      (buildReplaceMirrorPayload p).plain = true ∧
        (∀ e ∈ p.netNewEntities, e.encoded.Same e.withoutSources) ∧
          ∀ r ∈ p.netNewRelationships, r.encoded.Same r.withoutSources := by
    constructor
    · rintro ⟨j, hj, he, hr⟩
      obtain ⟨hentities, hrelationships⟩ := hread _ (ofJson_of_jsonOf? _ j hj)
      exact ⟨by rw [← isSome_jsonOf?, hj]; rfl, hentities.mp he, hrelationships.mp hr⟩
    · rintro ⟨hplain, he, hr⟩
      rw [← isSome_jsonOf?] at hplain
      obtain ⟨j, hj⟩ := Option.isSome_iff_exists.mp hplain
      obtain ⟨hentities, hrelationships⟩ := hread _ (ofJson_of_jsonOf? _ j hj)
      exact ⟨j, hj, hentities.mpr he, hrelationships.mpr hr⟩
  rw [hright, plain_payload]
  simp only [plain_modelToJson_entity, plain_modelToJson_relationship, Entity.encoded_same_iff,
    Relationship.encoded_same_iff]
  constructor
  · rintro ⟨⟨hep, hrp⟩, hee, hre⟩
    refine ⟨?_, ?_⟩
    · intro e he
      obtain ⟨⟨ha, hm⟩, hdates⟩ := hee e he
      exact ⟨⟨(plain_iff _).mp ⟨(hep e he).1, ha⟩, (plain_iff _).mp ⟨(hep e he).2, hm⟩⟩, hdates⟩
    · intro r hr
      obtain ⟨⟨hp, hm⟩, hdates⟩ := hre r hr
      exact ⟨⟨(plain_iff _).mp ⟨(hrp r hr).1, hp⟩, (plain_iff _).mp ⟨(hrp r hr).2, hm⟩⟩, hdates⟩
  · rintro ⟨he, hr⟩
    refine ⟨⟨?_, ?_⟩, ?_, ?_⟩
    · intro e hmem
      obtain ⟨⟨ha, hm⟩, -⟩ := he e hmem
      exact ⟨((plain_iff _).mpr ha).1, ((plain_iff _).mpr hm).1⟩
    · intro r hmem
      obtain ⟨⟨hp, hm⟩, -⟩ := hr r hmem
      exact ⟨((plain_iff _).mpr hp).1, ((plain_iff _).mpr hm).1⟩
    · intro e hmem
      obtain ⟨⟨ha, hm⟩, hdates⟩ := he e hmem
      exact ⟨⟨((plain_iff _).mpr ha).2, ((plain_iff _).mpr hm).2⟩, hdates⟩
    · intro r hmem
      obtain ⟨⟨hp, hm⟩, hdates⟩ := hr r hmem
      exact ⟨⟨((plain_iff _).mpr hp).2, ((plain_iff _).mpr hm).2⟩, hdates⟩

end Payload

/-- 1 January 2026, 09:00 UTC. -/
def newYear : DateTime := ⟨2026, 1, 1, 9, 0, 0, 0, some 0, by decide, by decide, Calendar.utc_valid⟩

def zeroUuid : UuidInt := ⟨0, by decide⟩

/-- The arguments of an entity with the given attributes. -/
def caseArgs (attributes : PyValue) : EntityArgs Unit where
  id := zeroUuid
  namespaceId := zeroUuid
  name := some "case 17"
  entityType := "CASE"
  description := none
  attributes := attributes
  sourceTool := none
  sourceDocumentIds := [zeroUuid]
  sourceChunkIds := []
  sourceDocuments := none
  mentionCount := 1
  embedding := none
  embeddingModel := ""
  validFrom := some (.fixed newYear)
  validUntil := none
  confidence := ⟨"1.0", by decide⟩
  metadata := .dict []
  createdAt := .fixed newYear
  updatedAt := .fixed newYear

/-- A plan with one net-new entity. -/
def casePlan (attributes : PyValue) : ReplacePlan Unit where
  oldDocumentId := zeroUuid
  failedAt := newYear
  exception := "ServiceUnavailable"
  entityRetirementRows := []
  relationshipRetirementRows := []
  entitySurvivorRemapRows := []
  relationshipSurvivorRemapRows := []
  entitySurvivorStripIds := []
  relationshipSurvivorStripIds := []
  netNewEntities := [Entity.init (caseArgs attributes)]
  netNewRelationships := []

/-- A date-time among the attributes: the payload cannot be written. -/
theorem openedAt_unserializable :
    ¬ ∃ defaults relationshipDefaults,
      PayloadRight defaults relationshipDefaults (casePlan (.dict [("opened_at", .datetime (.fixed newYear))])) := by
  rintro ⟨_, _, j, hj, -⟩
  have hplain :
      (buildReplaceMirrorPayload (casePlan (.dict [("opened_at", .datetime (.fixed newYear))]))).plain = true := by
    rw [← isSome_jsonOf?, hj]
    rfl
  have hentity := ((plain_payload _).mp hplain).1 _ (List.mem_singleton.mpr rfl)
  exact absurd ((plain_modelToJson_entity _).mp hentity).1 (by decide)

end ReplacePayload

end Khora
