import Khora.Filter.Cypher

/-!
# Retrieval by vector and graph

A recall collects chunks from several channels: vector search, a lexical search, a search
for recent chunks, and the chunks of the entities near the query, which are read from
the graph, by PageRank, or from the storage.  Each channel rebuilds the public `Chunk`
from what its reader returns.  The graph channel is filtered again in memory; then the
channels are fused and ranked.

Searches, scores and rankings are given by a `World`: what the stores answer in one
recall.  Which channel is asked, what it is passed, what its reader copies and what is
done with the answer is the code's.

* `mem_fuse`, `mem_vectorPool`, `mem_graphCandidates` — where the chunks of a result come
  from, and `Rebuilds` — what each of them keeps of its row.
* `coerce_node_date` — the graph gives back the dates that were written to it.
-/

namespace Khora

open Calendar (DateTime fromisoformat)
open Fallible

variable {Id : Type}

/-! ## Chunks -/

/-- A row of the chunk store. -/
structure StoredChunk extends TemporalChunk where
  content : String
  sourceSystem : Option String
  author : Option String
  channel : Option String

/-- The public `Chunk`, with the fields that a filter or the result reads. -/
structure Chunk (Id : Type) where
  id : Id
  content : String
  metadata : List (Key × Value)
  createdAt : Option DateTime
  occurredAt : Option DateTime
  sourceTimestamp : Option DateTime

namespace Chunk

variable (chunk : Chunk Id)

def date : DateKey → Option DateTime
  | .createdAt => chunk.createdAt
  | .occurredAt => chunk.occurredAt
  | .sourceTimestamp => chunk.sourceTimestamp

/-- The chunk as the in-memory filter reads it: the class has no attribute for the
fields of the document, and `source_document` is `None`. -/
def record : Record where
  attr := fun name =>
    if name = "metadata" then some (.dict chunk.metadata)
    else match SystemKey.ofName? name with
      | some (.date k) => some (match chunk.date k with
          | some d => .datetime d
          | none => .none)
      | _ => none
  sourceDocument := some none
  item := none

end Chunk

/-- `temporal_chunk_to_chunk` -/
def temporalChunkToChunk (now : DateTime) (id : Id) (row : StoredChunk) : Chunk Id where
  id := id
  content := row.content
  metadata := row.metadata
  createdAt := some ((row.dates .createdAt).getD now)
  occurredAt := row.dates .occurredAt
  sourceTimestamp := row.dates .sourceTimestamp

/-- The rebuild of `_vector_search_chunks` and of the simple path. -/
def vectorChunk (id : Id) (row : StoredChunk) : Chunk Id where
  id := id
  content := row.content
  metadata := row.metadata
  createdAt := (row.dates .createdAt).or (row.dates .occurredAt)
  occurredAt := row.dates .occurredAt
  sourceTimestamp := row.dates .sourceTimestamp

/-- The rebuild of `_recency_channel_chunks`. -/
def recentChunk (chunk : Chunk Id) : Chunk Id :=
  { chunk with createdAt := chunk.createdAt.or chunk.occurredAt }

/-- The rebuild of `ppr_retrieve_chunks`: the fields that it copies. -/
def pprChunk (chunk : Chunk Id) : Chunk Id where
  id := chunk.id
  content := chunk.content
  metadata := chunk.metadata
  createdAt := chunk.createdAt
  occurredAt := chunk.occurredAt
  sourceTimestamp := chunk.sourceTimestamp

/-- A time in a graph record: a text of the graph, or a `datetime` of the storage. -/
inductive RecordTime where
  | text (s : String)
  | datetime (d : DateTime)

/-- `_coerce_occurred_at` -/
def coerceOccurredAt : Option RecordTime → Option DateTime
  | none => none
  | some (.datetime d) => some d
  | some (.text s) => fromisoformat s

/-- An element of `chunk_records`. -/
structure ChunkRecord (Id : Type) where
  chunkId : Id
  content : String
  metadata : List (Key × Value)
  occurredAt : Option RecordTime
  sourceTimestamp : Option RecordTime

/-- The properties of a chunk node that a query reads. -/
def chunkNode (row : StoredChunk) (writtenAt : DateTime) : ChunkNode := fun name =>
  if name = "source_system" then row.sourceSystem
  else if name = "author" then row.author
  else if name = "channel" then row.channel
  else createChunkNode row.toTemporalChunk writtenAt name

/-- A row of `get_chunks_by_entities`.  The metadata was written by `json.dumps` and is
read by `json.loads`, which gives a JSON blob back. -/
def nodeRecord (id : Id) (row : StoredChunk) (writtenAt : DateTime) : ChunkRecord Id where
  chunkId := id
  content := row.content
  metadata := row.metadata
  occurredAt := (chunkNode row writtenAt "occurred_at").map .text
  sourceTimestamp := (chunkNode row writtenAt "source_timestamp").map .text

/-- A record of the storage fallback. -/
def storageRecord (chunk : Chunk Id) : ChunkRecord Id where
  chunkId := chunk.id
  content := chunk.content
  metadata := chunk.metadata
  occurredAt := chunk.occurredAt.map .datetime
  sourceTimestamp := chunk.sourceTimestamp.map .datetime

/-- The rebuild of `_fetch_chunks_from_entities` and of the typed-entity path: the
creation time is left to its default, the time of the call. -/
def graphChunk (now : DateTime) (record : ChunkRecord Id) : Chunk Id where
  id := record.chunkId
  content := record.content
  metadata := record.metadata
  createdAt := some now
  occurredAt := coerceOccurredAt record.occurredAt
  sourceTimestamp := coerceOccurredAt record.sourceTimestamp

/-! ## Requests -/

inductive SearchMode where
  | vector
  | graph
  | hybrid
  | all
  | keyword
deriving DecidableEq

inductive QueryComplexity where
  | simple
  | moderate
  | complex
  | entityAnchored
  | typedEntityRecent
deriving DecidableEq

inductive TemporalCategory where
  | none
  | explicit
  | stateQuery
  | ordinal
  | aggregate
  | recency
  | change
deriving DecidableEq

/-- `RETRIEVAL_PARAMS[category].default_window_days` -/
def TemporalCategory.defaultWindowDays : TemporalCategory → Option ℕ
  | .recency => some 30
  | .change => some 60
  | _ => Option.none

/-- `RETRIEVAL_PARAMS[category].prefer_current` -/
def TemporalCategory.preferCurrent : TemporalCategory → Bool
  | .stateQuery | .recency | .change => true
  | _ => false

/-- The part of a `ChunkTemporalFilter` that the retriever reads. -/
structure ChunkTemporalFilter where
  occurredAfter : Option DateTime
  occurredBefore : Option DateTime
  sourceSystem : Option String
  author : Option String
  channel : Option String

structure TemporalSignal where
  isTemporal : Bool
  category : TemporalCategory
  temporalFilter : Option ChunkTemporalFilter

structure RetrieverConfig where
  maxChunks : ℕ
  metadataOverfetchMultiplier : ℕ
  enableBm25Channel : Bool
  /-- `lexical_channel == "keyword_ppr"` -/
  keywordPprLexical : Bool
  enablePprRetrieval : Bool
  enableSessionAwareSearch : Bool
  lazyEntityExpansion : Bool
  /-- `skeleton_core_ratio <= 0.6` -/
  lowSkeletonRatio : Bool
  temporalRecencyFloorEnabled : Bool
  temporalRecencyChannelEnabled : Bool

/-- The arguments of `retrieve` besides the filters. -/
structure RetrieveArgs where
  mode : SearchMode
  limit : ℕ
  /-- The effective `min_similarity` is above 0. -/
  hasFloor : Bool
  complexity : QueryComplexity

/-- The chunk searches of one recall. -/
inductive VectorCall where
  | simple
  | floorGate
  | main
  | session (channel : String)
  | unscoped
  | rerun
  | change
deriving DecidableEq

/-- What the stores answer in one recall, and what is decided there by texts, scores and
embeddings. -/
structure World (Id : Type) where
  /-- The row of each chunk, and the time its graph node was written. -/
  row : Id → StoredChunk
  writtenAt : Id → DateTime
  now : DateTime
  /-- A storage coordinator, a graph driver and a full-text search are there. -/
  hasStorage : Bool
  hasDualNodes : Bool
  hasFulltext : Bool
  vectorSearch : VectorCall → Option ChunkTemporalFilter → Option Ast → List Id
  searchFulltext : Option Ast → List Id
  searchFulltextChunks : List Id
  keywordPprRanked : List Id
  searchRecentChunks : Option DateTime → Option Ast → List Id
  /-- The chunk passes the relevance floors of the recency channel. -/
  relevant : Id → Bool
  /-- `get_chunks_batch` finds the chunk. -/
  inBatch : Id → Bool
  /-- The entities near the query: whether there are any, their channels, the chunks that
  mention them in the order of the graph query and those a current entity is in, and the
  `source_chunk_ids` of each. -/
  entryFound : Bool
  entityChannels : List String
  mentioned : List Id
  mentionsCurrent : Id → Bool
  sourceChunkIds : List (List Id)
  pprRanked : List Id
  /-- The chunk names an entry entity. -/
  namesEntity : Id → Bool
  /-- The evidence gate closes the graph channel; the expansion, or the whole graph
  path, fails with a transient error. -/
  gateCloses : Bool
  expansionFails : Bool
  graphFails : Bool
  /-- The rows of the typed-entity query, each with its evidence chunk; `none` if the
  query cannot be run. -/
  typedRows : Option (List (Option Id))
  /-- There is a version history, and the query has a part on the current state. -/
  changeDecomposes : Bool
  antiRecencyToken : Bool
  floorVetoed : Bool
  /-- The start of the synthetic window of so many days. -/
  recencyFloor : ℕ → DateTime
  /-- The temporal signal detected in the query, and a window resolved from it. -/
  detected : TemporalSignal
  resolved : Option ChunkTemporalFilter

/-! ## Channels -/

section Channels

variable [DecidableEq Id] (w : World Id) (cfg : RetrieverConfig)

/-- A chunk of `get_chunks_batch`. -/
def World.batchChunk (id : Id) : Chunk Id := temporalChunkToChunk w.now id (w.row id)

/-- `get_chunks_batch`, the found ones in the order of the ids. -/
def World.getChunksBatch (ids : List Id) : List (Chunk Id) := (ids.filter w.inBatch).map w.batchChunk

def World.vectorChunks (ids : List Id) : List (Chunk Id) := ids.map fun id => vectorChunk id (w.row id)

/-- `filter_ast is None or not filter_ast.children` -/
def unconstrained : Option Ast → Bool
  | some (.node _ (_ :: _)) => false
  | some (.clause _) => false
  | _ => true

def RetrieverConfig.lexicalChannelActive : Bool := cfg.enableBm25Channel || cfg.keywordPprLexical

/-- `_keyword_ppr_search_chunks` -/
def keywordPprSearchChunks (ast : Option Ast) : List (Chunk Id) :=
  if !w.hasStorage || !unconstrained ast then [] else w.getChunksBatch w.keywordPprRanked

/-- `_bm25_search_chunks` -/
def bm25SearchChunks (ast : Option Ast) : List (Chunk Id) :=
  let results := if w.hasFulltext then w.searchFulltext ast else []
  let results :=
    if results.isEmpty && ast.isNone && w.hasStorage then w.searchFulltextChunks else results
  results.map w.batchChunk

/-- `_lexical_search_chunks` -/
def lexicalSearchChunks (ast : Option Ast) : List (Chunk Id) :=
  if cfg.keywordPprLexical then keywordPprSearchChunks w ast else bm25SearchChunks w ast

/-- `_recency_channel_chunks`, which is called without a temporal filter. -/
def recencyChannelChunks (ast : Option Ast) : List (Chunk Id) :=
  ((w.searchRecentChunks none ast).filter w.relevant).map fun id => recentChunk (w.batchChunk id)

/-- The context of the graph compile and of the post-filter. -/
def chunkContext (nodeVar : Option String) : CompileContext where
  backendTarget := "Chunk"
  tableAlias := nodeVar
  paramNamespace := "f"
  fieldMapping := none
  schemaCapabilities := ⟨false, false, false, false⟩
  onUnsupported := .split

/-- A non-empty text. -/
def given (s : Option String) : Option String := s.filter fun t => !t.isEmpty

/-- The temporal conditions of `get_chunks_by_entities`: dates are compared as texts. -/
def temporalConditions : Option ChunkTemporalFilter → List CypherCond
  | none => []
  | some tf =>
      (tf.occurredAfter.map fun d => .compare .gte "occurred_at" (.str d.isoformat)).toList ++
      (tf.occurredBefore.map fun d => .compare .lt "occurred_at" (.str d.isoformat)).toList ++
      ((given tf.sourceSystem).map fun s => .equals "source_system" (.str s)).toList ++
      ((given tf.author).map fun s => .equals "author" (.str s)).toList ++
      ((given tf.channel).map fun s => .equals "channel" (.str s)).toList

/-- The predicate of the filter, spliced only if some leaf was pushed. -/
def pushedCondition : Option Ast → Except PyErr (List CypherCond)
  | none => .ok []
  | some ast => do
      let compiled ← compileCypher (chunkContext (some "c")) ast
      .ok (if compiled.consumedKeys.isEmpty then [] else [compiled.predicate])

/-- `get_chunks_by_entities` -/
def getChunksByEntities (tf : Option ChunkTemporalFilter) (preferCurrent : Bool)
    (ast : Option Ast) (limit : ℕ) : Except PyErr (List (ChunkRecord Id)) := do
  let pushed ← pushedCondition ast
  let rows := w.mentioned.filter fun id =>
    ((CypherCond.all (temporalConditions tf ++ pushed)).eval (chunkNode (w.row id) (w.writtenAt id)) ==
      some true) && (!preferCurrent || w.mentionsCurrent id)
  .ok ((rows.take limit).map fun id => nodeRecord id (w.row id) (w.writtenAt id))

/-- The records of the entities' chunks: the graph, or the storage where there is none. -/
def entityChunkRecords (tf : Option ChunkTemporalFilter) (preferCurrent : Bool)
    (ast : Option Ast) (limit : ℕ) : Except PyErr (List (ChunkRecord Id)) :=
  if w.hasDualNodes then getChunksByEntities w tf preferCurrent ast limit
  else if w.hasStorage then
    .ok ((w.getChunksBatch (w.sourceChunkIds.flatMap (List.take 5)).dedup).map storageRecord)
  else .ok []

/-- `_fetch_chunks_from_entities` -/
def fetchChunksFromEntities (tf : Option ChunkTemporalFilter) (preferCurrent : Bool)
    (ast : Option Ast) (limit : ℕ) : Except PyErr (List (Chunk Id)) :=
  List.map (graphChunk w.now) <$> entityChunkRecords w tf preferCurrent ast limit

/-- `ppr_retrieve_chunks` -/
def pprRetrieveChunks (limit : ℕ) : List (Chunk Id) :=
  (w.getChunksBatch (w.pprRanked.take limit)).map pprChunk

/-- The graph fetch budget, wider if some leaf is left to the post-filter. -/
def graphFetchLimit (limit : ℕ) : Option Ast → Except PyErr ℕ
  | none => .ok (limit * 2)
  | some ast => do
      let compiled ← compileCypher (chunkContext (some "c")) ast
      let residual := ast.leaves.any fun c => !compiled.consumedKeys.contains c.pathStr
      .ok (if residual then min (limit * cfg.metadataOverfetchMultiplier) 200 else limit * 2)

/-! ## Paths -/

/-- The items of a list operand. -/
def operandItems : Value → List Value
  | .tuple xs => xs
  | .list xs => xs
  | _ => []

/-- The channels that the children of the root pin; `none` if some leaf on the channel is
no equality or membership. -/
def pinnedChannels : List Ast → Option (List String)
  | [] => some []
  | .node _ _ :: rest => pinnedChannels rest
  | .clause c :: rest =>
      if c.path = ["metadata", "channel"] then
        match c.op, c.operand with
        | .eq, .str s => (pinnedChannels rest).map (s :: ·)
        | .in_, operand => (pinnedChannels rest).map fun chs =>
            (operandItems operand).filterMap (fun v => match v with
              | .str s => some s
              | _ => none) ++ chs
        | _, _ => none
      else pinnedChannels rest

/-- `caller_channel_constraint` -/
def callerChannelConstraint : Ast → Option (List String)
  | .node .and children => (pinnedChannels children).filter fun chs => !chs.isEmpty
  | _ => none

/-- The first chunk of each id. -/
def dedupById : List (Chunk Id) → List (Chunk Id)
  | [] => []
  | c :: cs => c :: (dedupById cs).filter fun c' => c'.id ≠ c.id

/-- The union of the channels, which fusion scores. -/
def fuse (vector graph bm25 : List (Chunk Id)) : List (Chunk Id) :=
  dedupById (vector ++ (graph ++ bm25))

/-- The chunks whose id some other channel has. -/
def restrictTo (others cs : List (Chunk Id)) : List (Chunk Id) :=
  cs.filter fun c => c.id ∈ others.map Chunk.id

/-- What fusion scores, boosts, rerankers and diversity make of a list. -/
abbrev Ranking (Id : Type) := List (Chunk Id) → List (Chunk Id)

variable (args : RetrieveArgs) (rank : Ranking Id)

/-- `_simple_retrieve`.  Lexical hits count only if the vector search has found them,
when there is a similarity floor. -/
def simpleRetrieve (mode : SearchMode) (hasFloor : Bool) (limit : ℕ)
    (tf : Option ChunkTemporalFilter) (ast : Option Ast) : List (Chunk Id) :=
  let runBm25 := mode = .hybrid || mode = .all || mode = .keyword
  let vector := if mode = .keyword then [] else w.vectorChunks (w.vectorSearch .simple tf ast)
  if runBm25 && w.hasStorage && (cfg.lexicalChannelActive || mode = .keyword) then
    let bm25 := lexicalSearchChunks w cfg ast
    if mode = .keyword then
      let gate := w.vectorChunks (w.vectorSearch .floorGate tf ast)
      rank ((if hasFloor then restrictTo gate bm25 else bm25).take limit)
    else if bm25.isEmpty then rank vector
    else
      let fused := fuse vector [] bm25
      (rank (if hasFloor then restrictTo vector fused else fused)).take limit
  else rank vector

/-- The sessions of the fan-out; fewer than two leave the one global search. -/
def fanoutChannels (signal : Option TemporalSignal) (ast : Option Ast) : List String :=
  if cfg.enableSessionAwareSearch && w.hasDualNodes && signal.any TemporalSignal.isTemporal then
    match ast.bind callerChannelConstraint with
    | some pinned => w.entityChannels.filter (· ∈ pinned)
    | none => w.entityChannels
  else []

/-- The filter of one session. -/
def sessionFilter (tf : Option ChunkTemporalFilter) (channel : String) : ChunkTemporalFilter :=
  match tf with
  | some tf => { tf with channel := some channel }
  | none => ⟨none, none, none, none, some channel⟩

/-- A window that leaves too few chunks is dropped, unless it was asked for. -/
def dropsWindow (mode : SearchMode) (limit : ℕ) (signal : Option TemporalSignal)
    (tf : Option ChunkTemporalFilter) (ast : Option Ast) (found : ℕ) : Bool :=
  let explicitWithDate := signal.any fun s => decide (s.category = .explicit) && s.temporalFilter.isSome
  mode ≠ .graph && tf.isSome && decide (found < limit / 2) && !explicitWithDate && ast.isNone

/-- The chunks of the session searches, or of the one global search. -/
def vectorFound (mode : SearchMode) (signal : Option TemporalSignal)
    (tf : Option ChunkTemporalFilter) (ast : Option Ast) : List Id :=
  let fanout := fanoutChannels w cfg signal ast
  if 2 ≤ fanout.length then
    (fanout.flatMap (fun ch => w.vectorSearch (.session ch) (some (sessionFilter tf ch)) ast) ++
      w.vectorSearch .unscoped tf ast).dedup
  else if mode = .graph then []
  else w.vectorSearch .main tf ast

/-- The vector channel before the recency channel and the decomposition add to it. -/
def vectorBase (mode : SearchMode) (limit : ℕ) (signal : Option TemporalSignal)
    (tf : Option ChunkTemporalFilter) (ast : Option Ast) : List Id :=
  let found := vectorFound w cfg mode signal tf ast
  if dropsWindow mode limit signal tf ast found.length then w.vectorSearch .rerun none none
  else found

/-- The recency channel runs: the signal has a window, and nothing speaks against it. -/
def recencyRuns (signal : Option TemporalSignal) (tf : Option ChunkTemporalFilter) : Bool :=
  cfg.temporalRecencyChannelEnabled && signal.any fun s =>
    s.isTemporal && s.category.defaultWindowDays.isSome &&
      !(w.antiRecencyToken || (cfg.temporalRecencyFloorEnabled && tf.isNone))

/-- Chunks of `extra` that `cs` does not have, after those of `cs`. -/
def appendNew (cs extra : List (Chunk Id)) : List (Chunk Id) :=
  cs ++ extra.filter fun c => c.id ∉ cs.map Chunk.id

/-- `vector_chunks` at fusion. -/
def vectorPool (mode : SearchMode) (limit : ℕ) (signal : Option TemporalSignal)
    (tf : Option ChunkTemporalFilter) (ast : Option Ast) : List (Chunk Id) :=
  let base := w.vectorChunks (vectorBase w cfg mode limit signal tf ast)
  let changed :=
    if signal.any (fun s => decide (s.category = .change)) && w.changeDecomposes then
      appendNew base (w.vectorChunks (w.vectorSearch .change none ast))
    else base
  if recencyRuns w cfg signal tf then appendNew changed (recencyChannelChunks w ast) else changed

/-- `graph_chunks` as it is fetched: nothing, PageRank, or the chunks of the entities. -/
def graphFetch (mode : SearchMode) (limit : ℕ) (signal : Option TemporalSignal)
    (tf : Option ChunkTemporalFilter) (ast : Option Ast) : Except PyErr (List (Chunk Id)) := do
  let budget ← graphFetchLimit cfg limit ast
  let suppressed := w.gateCloses && mode ≠ .graph && !signal.any TemporalSignal.isTemporal
  if w.expansionFails || suppressed then .ok []
  else if cfg.enablePprRetrieval && w.hasStorage then .ok (pprRetrieveChunks w budget)
  else fetchChunksFromEntities w tf (signal.any fun s => s.category.preferCurrent) ast budget

/-- `_lazy_expand_chunks` on the chunks of the vector channel that the graph has not. -/
def lazyExpandChunks (vector graph : List (Chunk Id)) : List (Chunk Id) :=
  if cfg.lazyEntityExpansion && cfg.lowSkeletonRatio then
    vector.filter fun c => c.id ∉ graph.map Chunk.id && w.namesEntity c.id
  else []

/-- The graph channel before the post-filter. -/
def graphCandidates (mode : SearchMode) (limit : ℕ) (signal : Option TemporalSignal)
    (tf : Option ChunkTemporalFilter) (ast : Option Ast) : Except PyErr (List (Chunk Id)) := do
  let graph ← graphFetch w cfg mode limit signal tf ast
  .ok (graph ++ lazyExpandChunks w cfg (vectorPool w cfg mode limit signal tf ast) graph)

/-- The whole filter, in memory, on the graph channel. -/
def graphPostFilter (ast : Option Ast) (cs : List (Chunk Id)) : Except PyErr (List (Chunk Id)) :=
  match ast with
  | some ast =>
      if cs.isEmpty then .ok cs
      else do
        let keep ← compilePython (chunkContext none) ast
        filterE (fun c => keep c.record) cs
  | none => .ok cs

/-- `_vectorcypher_retrieve` -/
def vectorcypherRetrieve (mode : SearchMode) (hasFloor : Bool) (limit : ℕ)
    (signal : Option TemporalSignal) (tf : Option ChunkTemporalFilter) (ast : Option Ast) :
    Except PyErr (List (Chunk Id)) :=
  if !w.entryFound then .ok (simpleRetrieve w cfg rank mode hasFloor limit tf ast)
  else do
    let candidates ← graphCandidates w cfg mode limit signal tf ast
    let graph ← graphPostFilter ast candidates
    let vector := vectorPool w cfg mode limit signal tf ast
    let bm25 :=
      if mode ≠ .graph && cfg.lexicalChannelActive && w.hasStorage then lexicalSearchChunks w cfg ast
      else []
    let fused := fuse vector graph bm25
    .ok ((rank (if hasFloor then restrictTo (vector ++ graph) fused else fused)).take limit)

/-- `_typed_entity_recent_retrieve`: one graph query, without the filters; its fallback
drops the mode, the floor and the temporal signal. -/
def typedEntityRecentRetrieve (limit : ℕ) (tf : Option ChunkTemporalFilter) (ast : Option Ast) :
    Except PyErr (List (Chunk Id)) :=
  match (if w.hasDualNodes then w.typedRows else none) with
  | some (row :: rows) =>
      .ok ((row :: rows).filterMap fun evidence =>
        evidence.map fun id => graphChunk w.now (nodeRecord id (w.row id) (w.writtenAt id)))
  | _ => vectorcypherRetrieve w cfg rank .hybrid false limit none tf ast

/-- The synthetic window of a query on recent things. -/
def recencyFloorFilter (signal : Option TemporalSignal) (tf : Option ChunkTemporalFilter) :
    Option ChunkTemporalFilter :=
  match tf, signal with
  | none, some s =>
      match s.category.defaultWindowDays with
      | some days =>
          if cfg.temporalRecencyFloorEnabled && s.isTemporal && !(w.antiRecencyToken || w.floorVetoed) then
            some ⟨some (w.recencyFloor days), none, none, none, none⟩
          else none
      | none => none
  | tf, _ => tf

/-- `retrieve` -/
def retrieve (signal : Option TemporalSignal) (tf : Option ChunkTemporalFilter) (ast : Option Ast) :
    Except PyErr (List (Chunk Id)) :=
  let limit := if args.limit = 0 then cfg.maxChunks else args.limit
  let tf := recencyFloorFilter w cfg signal tf
  let forceSimple := args.mode = .vector || args.mode = .keyword
  let forceGraph := args.mode = .graph
  if !forceSimple && !forceGraph && args.complexity = .typedEntityRecent && unconstrained ast then
    typedEntityRecentRetrieve w cfg rank limit tf ast
  else if forceSimple || (!forceGraph && args.complexity = .simple) then
    .ok (simpleRetrieve w cfg rank args.mode args.hasFloor limit tf ast)
  else if w.graphFails then
    -- the vector-only fallback; it answers a graph request too
    .ok (simpleRetrieve w cfg rank (if args.mode = .graph then .hybrid else args.mode) args.hasFloor
      limit tf ast)
  else vectorcypherRetrieve w cfg rank args.mode args.hasFloor limit signal tf ast

/-! ## Recall -/

/-- `filter_constrains_date_key` -/
def filterConstrainsDateKey : Ast → Bool
  | .node .and children => children.any fun child => match child with
      | .clause c => c.path = ["occurred_at"] || c.path = ["created_at"]
      | .node _ _ => false
  | _ => false

/-- The characters that `str.strip` removes. -/
def pySpace (c : Char) : Bool :=
  let n := c.toNat
  (9 ≤ n && n ≤ 13) || (28 ≤ n && n ≤ 32) || n = 0x85 || n = 0xa0 || n = 0x1680 ||
    (0x2000 ≤ n && n ≤ 0x200a) || n = 0x2028 || n = 0x2029 || n = 0x202f || n = 0x205f || n = 0x3000

/-- `str.strip` -/
def pyStrip (s : String) : List Char :=
  ((s.toList.dropWhile pySpace).reverse.dropWhile pySpace).reverse

/-- The content is long enough to be returned. -/
def Chunk.substantial (c : Chunk Id) : Bool := 10 ≤ (pyStrip c.content).length

/-- `_validate_recall_results` -/
def validateRecallResults (cs : List (Chunk Id)) : List (Chunk Id) :=
  (dedupById cs).filter Chunk.substantial

/-- A chunk of the result. -/
structure RecallChunk (Id : Type) where
  id : Id
  content : String
  occurredAt : Option DateTime

def Chunk.toRecallChunk (c : Chunk Id) : RecallChunk Id where
  id := c.id
  content := c.content
  occurredAt := c.occurredAt.or c.sourceTimestamp

/-- `VectorCypherEngine.recall`: a filter on time that the caller gives is an explicit
temporal signal; else the signal is detected in the query. -/
def «recall» (tf : Option ChunkTemporalFilter) (ast : Option Ast) :
    Except PyErr (List (RecallChunk Id)) := do
  let explicit := tf.isSome || ast.any filterConstrainsDateKey
  let signal : TemporalSignal := if explicit then ⟨true, .explicit, tf⟩ else w.detected
  let tf :=
    if explicit then tf
    else w.detected.temporalFilter.or (if w.detected.isTemporal then w.resolved else none)
  let chunks ← retrieve w cfg args rank (some signal) tf ast
  .ok ((validateRecallResults chunks).map Chunk.toRecallChunk)

/-! ## What a rebuilt chunk keeps -/

/-- The time that a result reports for the row. -/
def StoredChunk.eventTime (row : StoredChunk) : Option DateTime :=
  (row.dates .occurredAt).or (row.dates .sourceTimestamp)

/-- The chunk has the content, the metadata and the two event times of its row. -/
structure Rebuilds (c : Chunk Id) : Prop where
  content : c.content = (w.row c.id).content
  metadata : c.metadata = (w.row c.id).metadata
  occurredAt : c.occurredAt = (w.row c.id).dates .occurredAt
  sourceTimestamp : c.sourceTimestamp = (w.row c.id).dates .sourceTimestamp

variable {w} {cfg}

omit [DecidableEq Id] in
theorem Rebuilds.eventTime {c : Chunk Id} (h : Rebuilds w c) :
    c.toRecallChunk.occurredAt = (w.row c.id).eventTime := by
  simp only [Chunk.toRecallChunk, StoredChunk.eventTime, h.occurredAt, h.sourceTimestamp]

omit [DecidableEq Id] in
theorem rebuilds_vectorChunk (id : Id) : Rebuilds w (vectorChunk id (w.row id)) := ⟨rfl, rfl, rfl, rfl⟩

omit [DecidableEq Id] in
theorem rebuilds_batchChunk (id : Id) : Rebuilds w (w.batchChunk id) := ⟨rfl, rfl, rfl, rfl⟩

omit [DecidableEq Id] in
theorem Rebuilds.pprChunk {c : Chunk Id} (h : Rebuilds w c) : Rebuilds w (pprChunk c) :=
  ⟨h.content, h.metadata, h.occurredAt, h.sourceTimestamp⟩

omit [DecidableEq Id] in
theorem Rebuilds.recentChunk {c : Chunk Id} (h : Rebuilds w c) : Rebuilds w (recentChunk c) :=
  ⟨h.content, h.metadata, h.occurredAt, h.sourceTimestamp⟩

/-- **The graph gives back the dates that were written to it.** -/
theorem coerce_node_date (row : StoredChunk) (writtenAt : DateTime) {k : DateKey} (hk : k ≠ .createdAt) :
    coerceOccurredAt ((chunkNode row writtenAt k.name).map .text) = row.dates k := by
  have hnode : chunkNode row writtenAt k.name = (row.dates k).map DateTime.isoformat := by
    cases k
    case createdAt => exact absurd rfl hk
    all_goals rfl
  rw [hnode]
  cases row.dates k with
  | none => rfl
  | some d => exact d.fromisoformat_isoformat

omit [DecidableEq Id] in
theorem rebuilds_nodeRecord (now : DateTime) (id : Id) :
    Rebuilds w (graphChunk now (nodeRecord id (w.row id) (w.writtenAt id))) where
  content := rfl
  metadata := rfl
  occurredAt := coerce_node_date (w.row id) (w.writtenAt id) (k := .occurredAt) (by decide)
  sourceTimestamp := coerce_node_date (w.row id) (w.writtenAt id) (k := .sourceTimestamp) (by decide)

omit [DecidableEq Id] in
theorem coerce_datetime (d : Option DateTime) : coerceOccurredAt (d.map .datetime) = d := by
  cases d with
  | none => rfl
  | some d => rfl

omit [DecidableEq Id] in
theorem Rebuilds.storageRecord {c : Chunk Id} (h : Rebuilds w c) (now : DateTime) :
    Rebuilds w (graphChunk now (storageRecord c)) where
  content := h.content
  metadata := h.metadata
  occurredAt := (coerce_datetime _).trans h.occurredAt
  sourceTimestamp := (coerce_datetime _).trans h.sourceTimestamp

/-! ## Where the chunks come from -/

theorem mem_dedupById {c : Chunk Id} {cs : List (Chunk Id)} (h : c ∈ dedupById cs) : c ∈ cs := by
  induction cs with
  | nil => cases h
  | cons c' cs ih =>
      rcases List.mem_cons.mp h with rfl | h
      · exact List.mem_cons_self
      · exact List.mem_cons_of_mem _ (ih (List.mem_filter.mp h).1)

/-- No id is lost. -/
theorem exists_mem_dedupById {c : Chunk Id} {cs : List (Chunk Id)} (h : c ∈ cs) :
    ∃ c' ∈ dedupById cs, c'.id = c.id := by
  induction cs with
  | nil => cases h
  | cons c' cs ih =>
      by_cases hid : c'.id = c.id
      · exact ⟨c', List.mem_cons_self, hid⟩
      · rcases List.mem_cons.mp h with rfl | h
        · exact absurd rfl hid
        · obtain ⟨c'', hmem, heq⟩ := ih h
          refine ⟨c'', List.mem_cons_of_mem _ (List.mem_filter.mpr ⟨hmem, ?_⟩), heq⟩
          rw [decide_eq_true_eq, heq]
          exact fun h => hid h.symm

theorem mem_fuse {c : Chunk Id} {vector graph bm25 : List (Chunk Id)}
    (h : c ∈ fuse vector graph bm25) : c ∈ vector ∨ c ∈ graph ∨ c ∈ bm25 := by
  have h := mem_dedupById h
  rw [List.mem_append, List.mem_append] at h
  exact h

theorem mem_restrictTo {c : Chunk Id} {others cs : List (Chunk Id)} :
    c ∈ restrictTo others cs ↔ c ∈ cs ∧ ∃ c' ∈ others, c'.id = c.id := by
  simp [restrictTo]

omit [DecidableEq Id] in
theorem mem_vectorChunks {c : Chunk Id} {ids : List Id} :
    c ∈ w.vectorChunks ids ↔ ∃ id ∈ ids, c = vectorChunk id (w.row id) := by
  simp [World.vectorChunks, eq_comm]

omit [DecidableEq Id] in
theorem rebuilds_getChunksBatch {c : Chunk Id} {ids : List Id} (h : c ∈ w.getChunksBatch ids) :
    Rebuilds w c := by
  obtain ⟨id, -, rfl⟩ := List.mem_map.mp h
  exact rebuilds_batchChunk id

omit [DecidableEq Id] in
theorem rebuilds_lexicalSearchChunks {c : Chunk Id} {ast : Option Ast}
    (h : c ∈ lexicalSearchChunks w cfg ast) : Rebuilds w c := by
  unfold lexicalSearchChunks keywordPprSearchChunks bm25SearchChunks at h
  split at h
  · split at h
    · cases h
    · exact rebuilds_getChunksBatch h
  · obtain ⟨id, -, rfl⟩ := List.mem_map.mp h
    exact rebuilds_batchChunk id

omit [DecidableEq Id] in
theorem rebuilds_vectorChunks {c : Chunk Id} {ids : List Id} (h : c ∈ w.vectorChunks ids) :
    Rebuilds w c := by
  obtain ⟨id, -, rfl⟩ := mem_vectorChunks.mp h
  exact rebuilds_vectorChunk id

theorem rebuilds_fetchChunksFromEntities {c : Chunk Id} {tf : Option ChunkTemporalFilter}
    {preferCurrent : Bool} {ast : Option Ast} {limit : ℕ} {cs : List (Chunk Id)}
    (h : fetchChunksFromEntities w tf preferCurrent ast limit = .ok cs) (hc : c ∈ cs) :
    Rebuilds w c := by
  obtain ⟨records, hrecords, rfl⟩ := map_eq_ok.mp h
  obtain ⟨record, hrecord, rfl⟩ := List.mem_map.mp hc
  unfold entityChunkRecords at hrecords
  split at hrecords
  · obtain ⟨pushed, -, hrows⟩ := bind_eq_ok.mp hrecords
    cases hrows
    obtain ⟨id, -, rfl⟩ := List.mem_map.mp hrecord
    exact rebuilds_nodeRecord w.now id
  · split at hrecords
    · cases hrecords
      obtain ⟨chunk, hchunk, rfl⟩ := List.mem_map.mp hrecord
      exact (rebuilds_getChunksBatch hchunk).storageRecord w.now
    · cases hrecords
      cases hrecord

variable {mode : SearchMode} {limit : ℕ} {signal : Option TemporalSignal}
  {tf : Option ChunkTemporalFilter} {ast : Option Ast}

theorem rebuilds_graphFetch {c : Chunk Id} {cs : List (Chunk Id)}
    (h : graphFetch w cfg mode limit signal tf ast = .ok cs) (hc : c ∈ cs) : Rebuilds w c := by
  obtain ⟨budget, -, h⟩ := bind_eq_ok.mp h
  dsimp only at h
  split at h
  · cases h
    cases hc
  · split at h
    · cases h
      obtain ⟨chunk, hchunk, rfl⟩ := List.mem_map.mp hc
      exact (rebuilds_getChunksBatch hchunk).pprChunk
    · exact rebuilds_fetchChunksFromEntities h hc

/-- The vector channel holds chunks of a vector search or of the recency channel. -/
theorem mem_vectorPool {c : Chunk Id} (h : c ∈ vectorPool w cfg mode limit signal tf ast) :
    c ∈ w.vectorChunks (vectorBase w cfg mode limit signal tf ast) ∨
      (signal.any (fun s => decide (s.category = .change)) = true ∧
        c ∈ w.vectorChunks (w.vectorSearch .change none ast)) ∨
      (recencyRuns w cfg signal tf = true ∧ c ∈ recencyChannelChunks w ast) := by
  unfold vectorPool appendNew at h
  dsimp only at h
  have hchanged : ∀ cs, (c ∈ if (signal.any (fun s => decide (s.category = .change)) &&
      w.changeDecomposes) = true then w.vectorChunks (vectorBase w cfg mode limit signal tf ast) ++ cs
      else w.vectorChunks (vectorBase w cfg mode limit signal tf ast)) →
      c ∈ w.vectorChunks (vectorBase w cfg mode limit signal tf ast) ∨
        signal.any (fun s => decide (s.category = .change)) = true ∧ c ∈ cs := by
    intro cs hc
    split at hc
    · rename_i hrun
      rcases List.mem_append.mp hc with hc | hc
      · exact .inl hc
      · exact .inr ⟨(Bool.and_eq_true_iff.mp hrun).1, hc⟩
    · exact .inl hc
  split at h
  · rename_i hrec
    rcases List.mem_append.mp h with h | h
    · rcases hchanged _ h with h | ⟨hsig, h⟩
      · exact .inl h
      · exact .inr (.inl ⟨hsig, (List.mem_filter.mp h).1⟩)
    · exact .inr (.inr ⟨hrec, (List.mem_filter.mp h).1⟩)
  · rcases hchanged _ h with h | ⟨hsig, h⟩
    · exact .inl h
    · exact .inr (.inl ⟨hsig, (List.mem_filter.mp h).1⟩)

theorem rebuilds_vectorPool {c : Chunk Id} (h : c ∈ vectorPool w cfg mode limit signal tf ast) :
    Rebuilds w c := by
  rcases mem_vectorPool h with h | ⟨-, h⟩ | ⟨-, h⟩
  · exact rebuilds_vectorChunks h
  · exact rebuilds_vectorChunks h
  · obtain ⟨id, -, rfl⟩ := List.mem_map.mp h
    exact (rebuilds_batchChunk id).recentChunk

/-- A graph candidate was fetched, or comes from the vector channel. -/
theorem mem_graphCandidates {c : Chunk Id} {cs : List (Chunk Id)}
    (h : graphCandidates w cfg mode limit signal tf ast = .ok cs) (hc : c ∈ cs) :
    (∃ fetched, graphFetch w cfg mode limit signal tf ast = .ok fetched ∧ c ∈ fetched) ∨
      c ∈ vectorPool w cfg mode limit signal tf ast := by
  obtain ⟨fetched, hfetch, h⟩ := bind_eq_ok.mp h
  cases h
  rcases List.mem_append.mp hc with hc | hc
  · exact .inl ⟨fetched, hfetch, hc⟩
  · unfold lazyExpandChunks at hc
    split at hc
    · exact .inr (List.mem_filter.mp hc).1
    · cases hc

theorem rebuilds_graphCandidates {c : Chunk Id} {cs : List (Chunk Id)}
    (h : graphCandidates w cfg mode limit signal tf ast = .ok cs) (hc : c ∈ cs) : Rebuilds w c := by
  rcases mem_graphCandidates h hc with ⟨fetched, hfetch, hc⟩ | hc
  · exact rebuilds_graphFetch hfetch hc
  · exact rebuilds_vectorPool hc

omit [DecidableEq Id] in
/-- The post-filter keeps the candidates that the filter accepts. -/
theorem mem_graphPostFilter {cs kept : List (Chunk Id)} (h : graphPostFilter ast cs = .ok kept)
    {c : Chunk Id} : c ∈ kept ↔ c ∈ cs ∧ ∀ t, ast = some t → ∀ p,
      compilePython (chunkContext none) t = .ok p → p c.record = .ok true := by
  unfold graphPostFilter at h
  split at h
  · rename_i t
    split at h
    · rename_i hempty
      cases h
      rw [List.isEmpty_iff.mp hempty]
      simp
    · obtain ⟨p, hp, h⟩ := bind_eq_ok.mp h
      obtain ⟨-, rfl⟩ := filterE_eq_ok.mp h
      rw [List.mem_filter, accepts_iff]
      refine and_congr_right fun _ => ⟨?_, ?_⟩
      · rintro htrue t' ⟨⟩ p' hp'
        obtain rfl := Except.ok.inj (hp.symm.trans hp')
        exact htrue
      · exact fun hall => hall t rfl p hp
  · cases h
    simp

/-- A ranking reorders and drops; it makes up no chunk. -/
def Selects (rank : Ranking Id) : Prop := ∀ cs, ∀ c ∈ rank cs, c ∈ cs

/-- The chunks of the simple path come from the vector search or the lexical channel. -/
theorem mem_simpleRetrieve {rank : Ranking Id} (hrank : Selects rank) {hasFloor : Bool} {c : Chunk Id}
    (h : c ∈ simpleRetrieve w cfg rank mode hasFloor limit tf ast) :
    c ∈ w.vectorChunks (w.vectorSearch .simple tf ast) ∨ c ∈ lexicalSearchChunks w cfg ast := by
  unfold simpleRetrieve at h
  dsimp only at h
  split at h
  · split at h
    · have hmem := List.mem_of_mem_take (hrank _ _ h)
      split at hmem
      · exact .inr (mem_restrictTo.mp hmem).1
      · exact .inr hmem
    · split at h
      · exact .inl (hrank _ _ h)
      · have hfused : c ∈ fuse (w.vectorChunks (w.vectorSearch .simple tf ast)) []
            (lexicalSearchChunks w cfg ast) := by
          have hmem := hrank _ _ (List.mem_of_mem_take h)
          split at hmem
          · exact (mem_restrictTo.mp hmem).1
          · exact hmem
        rcases mem_fuse hfused with hc | hc | hc
        · exact .inl hc
        · cases hc
        · exact .inr hc
  · have hmem := hrank _ _ h
    split at hmem
    · cases hmem
    · exact .inl hmem

/-- The chunks of the graph path come from the simple path, or from one of the three
channels. -/
theorem mem_vectorcypherRetrieve {rank : Ranking Id} (hrank : Selects rank) {hasFloor : Bool}
    {cs : List (Chunk Id)} {c : Chunk Id}
    (h : vectorcypherRetrieve w cfg rank mode hasFloor limit signal tf ast = .ok cs) (hc : c ∈ cs) :
    c ∈ simpleRetrieve w cfg rank mode hasFloor limit tf ast ∨
    c ∈ vectorPool w cfg mode limit signal tf ast ∨
    (∃ candidates graph, graphCandidates w cfg mode limit signal tf ast = .ok candidates ∧
      graphPostFilter ast candidates = .ok graph ∧ c ∈ graph) ∨
    c ∈ lexicalSearchChunks w cfg ast := by
  unfold vectorcypherRetrieve at h
  split at h
  · cases h
    exact .inl hc
  · obtain ⟨candidates, hcands, h⟩ := bind_eq_ok.mp h
    obtain ⟨graph, hgraph, h⟩ := bind_eq_ok.mp h
    cases h
    have hmem := hrank _ _ (List.mem_of_mem_take hc)
    have hfused : c ∈ fuse (vectorPool w cfg mode limit signal tf ast) graph
        (if (decide (mode ≠ .graph) && cfg.lexicalChannelActive && w.hasStorage) = true
          then lexicalSearchChunks w cfg ast else []) := by
      split at hmem
      · exact (mem_restrictTo.mp hmem).1
      · exact hmem
    rcases mem_fuse hfused with hc | hc | hc
    · exact .inr (.inl hc)
    · exact .inr (.inr (.inl ⟨candidates, graph, hcands, hgraph, hc⟩))
    · split at hc
      · exact .inr (.inr (.inr hc))
      · cases hc

theorem rebuilds_simpleRetrieve {rank : Ranking Id} (hrank : Selects rank) {hasFloor : Bool}
    {c : Chunk Id} (h : c ∈ simpleRetrieve w cfg rank mode hasFloor limit tf ast) : Rebuilds w c := by
  rcases mem_simpleRetrieve hrank h with h | h
  · exact rebuilds_vectorChunks h
  · exact rebuilds_lexicalSearchChunks h

theorem rebuilds_vectorcypherRetrieve {rank : Ranking Id} (hrank : Selects rank) {hasFloor : Bool}
    {cs : List (Chunk Id)} {c : Chunk Id}
    (h : vectorcypherRetrieve w cfg rank mode hasFloor limit signal tf ast = .ok cs) (hc : c ∈ cs) :
    Rebuilds w c := by
  rcases mem_vectorcypherRetrieve hrank h hc with hc | hc | ⟨candidates, graph, hcands, hgraph, hc⟩ | hc
  · exact rebuilds_simpleRetrieve hrank hc
  · exact rebuilds_vectorPool hc
  · exact rebuilds_graphCandidates hcands ((mem_graphPostFilter hgraph).mp hc).1
  · exact rebuilds_lexicalSearchChunks hc

/-- **Every chunk of a result has the times of its row.** -/
theorem rebuilds_retrieve {rank : Ranking Id} (hrank : Selects rank) {args : RetrieveArgs}
    {cs : List (Chunk Id)} {c : Chunk Id} (h : retrieve w cfg args rank signal tf ast = .ok cs)
    (hc : c ∈ cs) : Rebuilds w c := by
  unfold retrieve at h
  dsimp only at h
  split at h
  · unfold typedEntityRecentRetrieve at h
    split at h
    · cases h
      obtain ⟨evidence, -, hmap⟩ := List.mem_filterMap.mp hc
      obtain ⟨id, -, rfl⟩ := Option.map_eq_some_iff.mp hmap
      exact rebuilds_nodeRecord w.now id
    · exact rebuilds_vectorcypherRetrieve hrank h hc
  · split at h
    · cases h
      exact rebuilds_simpleRetrieve hrank hc
    · split at h
      · cases h
        exact rebuilds_simpleRetrieve hrank hc
      · exact rebuilds_vectorcypherRetrieve hrank h hc

/-! ## Ranking -/

section Ranking

variable {P : Id → Prop}

omit [DecidableEq Id] in
theorem rank_forall_iff {cs : List (Chunk Id)} :
    (∀ rank, Selects rank → ∀ c ∈ rank cs, P c.id) ↔ ∀ c ∈ cs, P c.id := by
  constructor
  · exact fun h => h id fun _ _ hc => hc
  · exact fun h rank hrank c hc => h c (hrank cs c hc)

/-- A ranking can bring any one chunk to the front. -/
theorem take_rank_forall_iff {cs : List (Chunk Id)} {limit : ℕ} :
    (∀ rank, Selects rank → ∀ c ∈ (rank cs).take limit, P c.id) ↔
      (0 < limit → ∀ c ∈ cs, P c.id) := by
  constructor
  · intro h hlimit c hc
    have hfront := h (fun cs => cs.filter fun c' => c'.id = c.id) fun cs c' hc' => (List.mem_filter.mp hc').1
    cases hfilter : cs.filter fun c' => c'.id = c.id with
    | nil =>
        have : c ∈ cs.filter fun c' => c'.id = c.id := List.mem_filter.mpr ⟨hc, by simp⟩
        rw [hfilter] at this
        cases this
    | cons c' rest =>
        have hid : c'.id = c.id := by
          have : c' ∈ cs.filter fun c' => c'.id = c.id := by simp [hfilter]
          simpa using (List.mem_filter.mp this).2
        rw [← hid]
        apply hfront c'
        simp only [hfilter]
        exact List.mem_take_iff_getElem.mpr ⟨0, by simpa using hlimit, rfl⟩
  · intro h rank hrank c hc
    have hlimit : 0 < limit := by
      rcases Nat.eq_zero_or_pos limit with rfl | hpos
      · simp at hc
      · exact hpos
    exact h hlimit c (hrank cs c (List.mem_of_mem_take hc))

theorem fuse_forall_iff {vector graph bm25 : List (Chunk Id)} :
    (∀ c ∈ fuse vector graph bm25, P c.id) ↔
      (∀ c ∈ vector, P c.id) ∧ (∀ c ∈ graph, P c.id) ∧
        ∀ c ∈ bm25, P c.id := by
  constructor
  · intro h
    have hall : ∀ c ∈ vector ++ (graph ++ bm25), P c.id := by
      intro c hc
      obtain ⟨c', hc', hid⟩ := exists_mem_dedupById hc
      exact hid ▸ h c' hc'
    exact ⟨fun c hc => hall c (by simp [hc]), fun c hc => hall c (by simp [hc]),
      fun c hc => hall c (by simp [hc])⟩
  · rintro ⟨hv, hg, hb⟩ c hc
    rcases mem_fuse hc with hc | hc | hc
    · exact hv c hc
    · exact hg c hc
    · exact hb c hc

/-- A floor leaves the chunks of the channels that it restricts to. -/
theorem restrict_forall_iff {vector graph bm25 : List (Chunk Id)} :
    (∀ c ∈ restrictTo (vector ++ graph) (fuse vector graph bm25), P c.id) ↔
      (∀ c ∈ vector, P c.id) ∧ ∀ c ∈ graph, P c.id := by
  constructor
  · intro h
    have hall : ∀ c ∈ vector ++ graph, P c.id := by
      intro c hc
      have hmem : c ∈ vector ++ (graph ++ bm25) := by
        rw [← List.append_assoc]
        exact List.mem_append_left _ hc
      obtain ⟨c', hc', hid⟩ := exists_mem_dedupById hmem
      exact hid ▸ h c' (mem_restrictTo.mpr ⟨hc', c, hc, hid.symm⟩)
    exact ⟨fun c hc => hall c (List.mem_append_left _ hc), fun c hc => hall c (List.mem_append_right _ hc)⟩
  · rintro ⟨hv, hg⟩ c hc
    obtain ⟨-, c', hc', hid⟩ := mem_restrictTo.mp hc
    rw [← hid]
    rcases List.mem_append.mp hc' with hc' | hc'
    · exact hv c' hc'
    · exact hg c' hc'

/-- **What the graph path returns has a property of ids, whatever the ranking, exactly if
the three channels have it**; with a floor the lexical one does not count. -/
theorem vectorcypherRetrieve_forall_iff {hasFloor : Bool} {candidates graph : List (Chunk Id)}
    (hentry : w.entryFound = true)
    (hcands : graphCandidates w cfg mode limit signal tf ast = .ok candidates)
    (hgraph : graphPostFilter ast candidates = .ok graph) :
    (∀ rank, Selects rank → ∀ cs,
      vectorcypherRetrieve w cfg rank mode hasFloor limit signal tf ast = .ok cs → ∀ c ∈ cs, P c.id) ↔
    (0 < limit → (∀ c ∈ vectorPool w cfg mode limit signal tf ast, P c.id) ∧ (∀ c ∈ graph, P c.id) ∧
      ((decide (mode ≠ .graph) && cfg.lexicalChannelActive && w.hasStorage) = true → hasFloor = false →
        ∀ c ∈ lexicalSearchChunks w cfg ast, P c.id)) := by
  have hrun : ∀ rank : Ranking Id, vectorcypherRetrieve w cfg rank mode hasFloor limit signal tf ast =
      let vector := vectorPool w cfg mode limit signal tf ast
      let fused := fuse vector graph
        (if (decide (mode ≠ .graph) && cfg.lexicalChannelActive && w.hasStorage) = true
          then lexicalSearchChunks w cfg ast else [])
      .ok ((rank (if hasFloor then restrictTo (vector ++ graph) fused else fused)).take limit) := by
    intro rank
    simp only [vectorcypherRetrieve, hentry, Bool.not_true, Bool.false_eq_true, if_false, hcands, bind,
      Except.bind, hgraph]
  simp only [hrun, Except.ok.injEq, forall_eq']
  rw [take_rank_forall_iff]
  refine imp_congr_right fun _ => ?_
  cases hasFloor with
  | true =>
      simp only [if_true, Bool.true_eq_false, false_implies, implies_true, and_true]
      exact restrict_forall_iff
  | false =>
      simp only [Bool.false_eq_true, if_false, true_implies]
      rw [fuse_forall_iff]
      refine and_congr_right fun _ => and_congr_right fun _ => ?_
      cases (decide (mode ≠ .graph) && cfg.lexicalChannelActive && w.hasStorage) with
      | false => simp
      | true => simp

end Ranking

end Channels

/-! ## Small worlds -/

/-- A chunk that occurred at a time, with enough content to be returned. -/
def storedAt (d : DateTime) : StoredChunk where
  toTemporalChunk := chunkOccurring d
  content := "The launch moved to March."
  sourceSystem := none
  author := none
  channel := none

/-- A world in which nothing is found; every chunk has the same row. -/
def quietWorld (row : StoredChunk) : World ℕ where
  row := fun _ => row
  writtenAt := fun _ => january 2 (Eq.refl true)
  now := january 4 (Eq.refl true)
  hasStorage := true
  hasDualNodes := true
  hasFulltext := true
  vectorSearch := fun _ _ _ => []
  searchFulltext := fun _ => []
  searchFulltextChunks := []
  keywordPprRanked := []
  searchRecentChunks := fun _ _ => []
  relevant := fun _ => true
  inBatch := fun _ => true
  entryFound := true
  entityChannels := []
  mentioned := []
  mentionsCurrent := fun _ => true
  sourceChunkIds := []
  pprRanked := []
  namesEntity := fun _ => false
  gateCloses := false
  expansionFails := false
  graphFails := false
  typedRows := none
  changeDecomposes := false
  antiRecencyToken := false
  floorVetoed := false
  recencyFloor := fun _ => january 1 (Eq.refl true)
  detected := ⟨false, .none, none⟩
  resolved := none

/-- The channels that are on by default: vector and graph. -/
def plainConfig : RetrieverConfig where
  maxChunks := 20
  metadataOverfetchMultiplier := 4
  enableBm25Channel := false
  keywordPprLexical := false
  enablePprRetrieval := false
  enableSessionAwareSearch := false
  lazyEntityExpansion := false
  lowSkeletonRatio := false
  temporalRecencyFloorEnabled := false
  temporalRecencyChannelEnabled := false

end Khora
