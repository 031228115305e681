import Khora.Engine.Retriever
import Mathlib.Data.List.Dedup

/-!
# The caller's filter across the channels

The searches of the store apply the filter to their rows.  The graph channel applies it in
memory to the chunks that its readers rebuilt, which have neither the texts of the document
nor always the creation time of the row.

* `channels_agree` — every chunk of the result passes the filter, and the post-filter
  removes no chunk that does, exactly if the filter gives each graph candidate the verdict
  of its row; a filter over the metadata and the kept times always does.
* `sourceType_removed` — a chunk of the right source that the post-filter removes.
-/

namespace Khora

open Calendar (DateTime)
open Fallible

variable {Id : Type}

/-! ## The filter on a row -/

/-- The stored record passes the filter. -/
def Satisfies (t : Ast) (row : StoredChunk) : Prop :=
  ∃ p, compilePython (chunkContext none) t = .ok p ∧ p row.toTemporalChunk.record = .ok true

/-- The searches that are given the filter return only rows that pass it. -/
structure SearchesSatisfy (w : World Id) (t : Ast) : Prop where
  vector : ∀ call tf, ∀ id ∈ w.vectorSearch call tf (some t), Satisfies t (w.row id)
  fulltext : ∀ id ∈ w.searchFulltext (some t), Satisfies t (w.row id)
  recent : ∀ start, ∀ id ∈ w.searchRecentChunks start (some t), Satisfies t (w.row id)

/-- The row of a chunk without what its reader has dropped: the texts, and a creation time
that is the reader's own. -/
def World.blanked (w : World Id) (c : Chunk Id) : TemporalChunk where
  dates := fun k => match k with
    | .createdAt => c.createdAt
    | k => (w.row c.id).dates k
  strings := fun _ => none
  metadata := (w.row c.id).metadata

/-! ## What the post-filter reads -/

section Reads

variable {ctx : CompileContext} {w : World Id}

theorem resolveSystem_chunk (hmap : ctx.fieldMapping = none) (chunk : TemporalChunk) {key : String}
    {k : SystemKey} (hk : SystemKey.ofName? key = some k) :
    resolveSystem ctx chunk.record key = chunk.value k := by
  have hne : key ≠ "metadata" := by
    rintro rfl
    rw [SystemKey.ofName?_metadata] at hk
    cases hk
  simp [resolveSystem, CompileContext.physical, hmap, TemporalChunk.record, hne, hk]

theorem resolveMetadata_chunk (chunk : TemporalChunk) :
    resolveMetadata chunk.record = chunk.metadata := by
  simp [resolveMetadata, TemporalChunk.record]

/-- The post-filter reads a rebuilt chunk as the row that its reader has blanked. -/
theorem predicate_blanked (hmap : ctx.fieldMapping = none) {t : Ast} (hw : t.wellFormed = true)
    {p : Predicate} (hp : compilePython ctx t = .ok p) {c : Chunk Id} (hc : Rebuilds w c) :
    p c.record = p (w.blanked c).record := by
  refine predicate_record_congr hw hp (fun l _ key hkey => ?_) ?_
  · obtain ⟨k, hk, -⟩ := SystemKey.exists_ofName? (systemKey?_mem hkey)
    have hne : key ≠ "metadata" := by
      rintro rfl
      rw [SystemKey.ofName?_metadata] at hk
      cases hk
    rw [resolveSystem_chunk hmap _ hk]
    simp only [resolveSystem, CompileContext.physical, hmap, Chunk.record, hne, hk, if_false]
    cases k with
    | date k =>
        have hdate : c.date k = (w.blanked c).dates k := by
          cases k
          case createdAt => rfl
          case occurredAt => exact hc.occurredAt
          case sourceTimestamp => exact hc.sourceTimestamp
        cases hdates : (w.blanked c).dates k <;> simp [hdate, hdates, TemporalChunk.value]
    | string k => simp [Record.getItem, TemporalChunk.value, World.blanked]
  · rw [resolveMetadata_chunk]
    simp [resolveMetadata, Chunk.record, World.blanked, hc.metadata]

/-- The filter reads only what the reader of the chunk has kept. -/
def KeptLeaves (w : World Id) (t : Ast) (c : Chunk Id) : Prop :=
  ∀ l ∈ t.leaves, ∀ key, l.systemKey? = some key →
    key = DateKey.occurredAt.name ∨ key = DateKey.sourceTimestamp.name ∨
      key = DateKey.createdAt.name ∧ c.createdAt = (w.row c.id).dates .createdAt

/-- A filter that reads only what was kept has one verdict on the row, blanked or not. -/
theorem KeptLeaves.predicate_eq (hmap : ctx.fieldMapping = none) {t : Ast} (hw : t.wellFormed = true)
    {p : Predicate} (hp : compilePython ctx t = .ok p) {c : Chunk Id} (h : KeptLeaves w t c) :
    p (w.blanked c).record = p (w.row c.id).toTemporalChunk.record := by
  refine predicate_record_congr hw hp (fun l hl key hkey => ?_) ?_
  · have hvalue : ∀ k : DateKey, (w.blanked c).dates k = (w.row c.id).dates k →
        resolveSystem ctx (w.blanked c).record k.name =
          resolveSystem ctx (w.row c.id).toTemporalChunk.record k.name := by
      intro k hk
      rw [resolveSystem_chunk hmap _ (ofName?_date k), resolveSystem_chunk hmap _ (ofName?_date k)]
      simp only [TemporalChunk.value, hk]
    rcases h l hl key hkey with rfl | rfl | ⟨rfl, hcreated⟩
    · exact hvalue .occurredAt rfl
    · exact hvalue .sourceTimestamp rfl
    · exact hvalue .createdAt hcreated
  · rw [resolveMetadata_chunk, resolveMetadata_chunk]
    rfl

end Reads

/-! ## Which graph run a retrieval makes -/

section Agree

variable [DecidableEq Id] (w : World Id) (cfg : RetrieverConfig) (args : RetrieveArgs) (t : Ast)
  (signal : Option TemporalSignal) (tf : Option ChunkTemporalFilter)

def effectiveLimit : ℕ := if args.limit = 0 then cfg.maxChunks else args.limit

/-- The mode and the signal that the graph channel is run with, if it is run. -/
def graphRun : Option (SearchMode × Option TemporalSignal) :=
  let forceSimple := args.mode = .vector || args.mode = .keyword
  let forceGraph := args.mode = .graph
  if !forceSimple && !forceGraph && args.complexity = .typedEntityRecent && unconstrained (some t) then
    match (if w.hasDualNodes then w.typedRows else none) with
    | some (_ :: _) => none
    | _ => if w.entryFound then some (.hybrid, none) else none
  else if forceSimple || (!forceGraph && args.complexity = .simple) then none
  else if w.graphFails then none
  else if w.entryFound then some (args.mode, signal)
  else none

/-- The candidates of the graph run. -/
def runCandidates (run : SearchMode × Option TemporalSignal) : Except PyErr (List (Chunk Id)) :=
  graphCandidates w cfg run.1 (effectiveLimit cfg args) run.2 (recencyFloorFilter w cfg signal tf) (some t)

/-- Every chunk of the result passes the filter on its row, and a candidate that the
post-filter removes does not. -/
structure ChannelsAgree (rank : Ranking Id) : Prop where
  result : ∀ cs, retrieve w cfg args rank signal tf (some t) = .ok cs →
    ∀ c ∈ cs, Satisfies t (w.row c.id)
  removed : ∀ run ∈ graphRun w args t signal, ∀ candidates,
    runCandidates w cfg args t signal tf run = .ok candidates →
    ∀ graph, graphPostFilter (some t) candidates = .ok graph →
    ∀ c ∈ candidates, c ∉ graph → ¬ Satisfies t (w.row c.id)

/-- On each graph candidate the filter has the verdict of its row, although the reader
has blanked it; if the filter raises on one, there is no result. -/
def VerdictsKept : Prop :=
  ∀ run ∈ graphRun w args t signal, ∀ candidates,
    runCandidates w cfg args t signal tf run = .ok candidates →
    ∀ p, compilePython (chunkContext none) t = .ok p →
    (∀ c ∈ candidates, Returns (p (w.blanked c).record)) → ∀ c ∈ candidates,
      (p (w.blanked c).record = .ok false → p (w.row c.id).toTemporalChunk.record ≠ .ok true) ∧
      (0 < effectiveLimit cfg args → p (w.blanked c).record = .ok true →
        p (w.row c.id).toTemporalChunk.record = .ok true)

variable {w cfg args t signal tf} {mode : SearchMode} {limit : ℕ} {p : Predicate}

/-! ## The searches -/

/-- A filter without conditions accepts every record. -/
theorem exists_predicate_of_unconstrained (hwf : t.wellFormed = true) (hor : t.orsFilled = true)
    (h : unconstrained (some t) = true) :
    ∃ p, compilePython (chunkContext none) t = .ok p ∧ ∀ r, p r = .ok true := by
  cases t with
  | clause c => simp [unconstrained] at h
  | node op cs =>
      cases cs with
      | cons c cs => simp [unconstrained] at h
      | nil =>
          cases op
          case and => exact ⟨_, rfl, fun _ => rfl⟩
          case or => exact absurd rfl ((Ast.orsFilled_node.mp hor).1 rfl)
          all_goals simp [Ast.wellFormed] at hwf

theorem satisfies_of_unconstrained (hwf : t.wellFormed = true) (hor : t.orsFilled = true)
    (h : unconstrained (some t) = true) (row : StoredChunk) : Satisfies t row := by
  obtain ⟨p, hp, hall⟩ := exists_predicate_of_unconstrained hwf hor h
  exact ⟨p, hp, hall _⟩

theorem vectorPool_satisfies (hs : SearchesSatisfy w t) :
    ∀ c ∈ vectorPool w cfg mode limit signal tf (some t), Satisfies t (w.row c.id) := by
  intro c hc
  rcases mem_vectorPool hc with hc | ⟨-, hc⟩ | ⟨-, hc⟩
  · obtain ⟨id, hid, rfl⟩ := mem_vectorChunks.mp hc
    show Satisfies t (w.row id)
    -- with a filter the search is not run again without it
    have hbase : vectorBase w cfg mode limit signal tf (some t) = vectorFound w cfg mode signal tf (some t) := by
      simp [vectorBase, dropsWindow]
    rw [hbase] at hid
    unfold vectorFound at hid
    dsimp only at hid
    split at hid
    · rw [List.mem_dedup, List.mem_append, List.mem_flatMap] at hid
      rcases hid with ⟨ch, -, hid⟩ | hid
      · exact hs.vector _ _ id hid
      · exact hs.vector _ _ id hid
    · split at hid
      · cases hid
      · exact hs.vector _ _ id hid
  · obtain ⟨id, hid, rfl⟩ := mem_vectorChunks.mp hc
    exact hs.vector _ _ id hid
  · obtain ⟨id, hid, rfl⟩ := List.mem_map.mp hc
    exact hs.recent _ id (List.mem_filter.mp hid).1

omit [DecidableEq Id] in
theorem lexicalSearchChunks_satisfies (hs : SearchesSatisfy w t) (hwf : t.wellFormed = true)
    (hor : t.orsFilled = true) :
    ∀ c ∈ lexicalSearchChunks w cfg (some t), Satisfies t (w.row c.id) := by
  intro c hc
  unfold lexicalSearchChunks keywordPprSearchChunks at hc
  split at hc
  · split at hc
    · cases hc
    · rename_i hrun
      simp only [Bool.or_eq_true, Bool.not_eq_true', not_or, Bool.not_eq_false] at hrun
      exact satisfies_of_unconstrained hwf hor hrun.2 _
  · obtain ⟨id, hid, rfl⟩ := List.mem_map.mp hc
    simp only [Option.isNone_some, Bool.and_false, Bool.false_and, Bool.false_eq_true, if_false] at hid
    split at hid
    · exact hs.fulltext id hid
    · cases hid

theorem simpleRetrieve_satisfies (hs : SearchesSatisfy w t) (hwf : t.wellFormed = true)
    (hor : t.orsFilled = true) {rank : Ranking Id} (hrank : Selects rank) {hasFloor : Bool} :
    ∀ c ∈ simpleRetrieve w cfg rank mode hasFloor limit tf (some t), Satisfies t (w.row c.id) := by
  intro c hc
  rcases mem_simpleRetrieve hrank hc with hc | hc
  · obtain ⟨id, hid, rfl⟩ := mem_vectorChunks.mp hc
    exact hs.vector _ _ id hid
  · exact lexicalSearchChunks_satisfies hs hwf hor c hc

/-! ## The graph channel -/

omit [DecidableEq Id] in
theorem graphPostFilter_eq_ok (hp : compilePython (chunkContext none) t = .ok p)
    {candidates graph : List (Chunk Id)} : graphPostFilter (some t) candidates = .ok graph ↔
      (∀ c ∈ candidates, Returns (p c.record)) ∧ graph = candidates.filter fun c => accepts (p c.record) := by
  unfold graphPostFilter
  cases candidates with
  | nil => simp [eq_comm]
  | cons c cs =>
      rw [← filterE_eq_ok]
      simp [hp, bind, Except.bind]

theorem satisfies_iff (hp : compilePython (chunkContext none) t = .ok p) {row : StoredChunk} :
    Satisfies t row ↔ p row.toTemporalChunk.record = .ok true := by
  constructor
  · rintro ⟨p', hp', h⟩
    obtain rfl := Except.ok.inj (hp.symm.trans hp')
    exact h
  · exact fun h => ⟨p, hp, h⟩

/-- **One graph run decides as the rows do exactly if blanking keeps the verdicts.** -/
theorem graphRun_agrees_iff (hs : SearchesSatisfy w t) (hwf : t.wellFormed = true)
    (hor : t.orsFilled = true) (hp : compilePython (chunkContext none) t = .ok p) {hasFloor : Bool}
    (hentry : w.entryFound = true) :
    ((∀ rank, Selects rank → ∀ cs,
        vectorcypherRetrieve w cfg rank mode hasFloor limit signal tf (some t) = .ok cs →
        ∀ c ∈ cs, Satisfies t (w.row c.id)) ∧
      ∀ candidates, graphCandidates w cfg mode limit signal tf (some t) = .ok candidates →
        ∀ graph, graphPostFilter (some t) candidates = .ok graph →
        ∀ c ∈ candidates, c ∉ graph → ¬ Satisfies t (w.row c.id)) ↔
    ∀ candidates, graphCandidates w cfg mode limit signal tf (some t) = .ok candidates →
      (∀ c ∈ candidates, Returns (p (w.blanked c).record)) → ∀ c ∈ candidates,
        (p (w.blanked c).record = .ok false → p (w.row c.id).toTemporalChunk.record ≠ .ok true) ∧
        (0 < limit → p (w.blanked c).record = .ok true →
          p (w.row c.id).toTemporalChunk.record = .ok true) := by
  cases hcands : graphCandidates w cfg mode limit signal tf (some t) with
  | error e =>
      refine iff_of_true ⟨fun rank _ cs hcs => ?_, fun _ h => by cases h⟩ fun _ h => by cases h
      simp [vectorcypherRetrieve, hentry, hcands, bind, Except.bind] at hcs
  | ok candidates =>
      have hread : ∀ c ∈ candidates, p c.record = p (w.blanked c).record := fun c hc =>
        predicate_blanked rfl hwf hp (rebuilds_graphCandidates hcands hc)
      simp only [Except.ok.injEq, forall_eq', satisfies_iff hp]
      by_cases hreturns : ∀ c ∈ candidates, Returns (p (w.blanked c).record)
      · have hgraph : graphPostFilter (some t) candidates =
            .ok (candidates.filter fun c => accepts (p c.record)) :=
          (graphPostFilter_eq_ok hp).mpr ⟨fun c hc => by rw [hread c hc]; exact hreturns c hc, rfl⟩
        have hmem : ∀ c ∈ candidates, (c ∈ candidates.filter fun c => accepts (p c.record)) ↔
            p (w.blanked c).record = .ok true := by
          intro c hc
          rw [List.mem_filter, accepts_iff, hread c hc]
          exact and_iff_right hc
        rw [@vectorcypherRetrieve_forall_iff _ _ _ _ _ _ _ _ _
          (fun id => p (w.row id).toTemporalChunk.record = .ok true) hasFloor _ _ hentry hcands hgraph]
        constructor
        · rintro ⟨hresult, hremoved⟩ - c hc
          refine ⟨fun hfalse => hremoved _ hgraph c hc ?_, fun hlimit htrue => ?_⟩
          · rw [hmem c hc, hfalse]
            simp
          · exact (hresult hlimit).2.1 c ((hmem c hc).mpr htrue)
        · intro hkept
          refine ⟨fun hlimit => ⟨?_, ?_, ?_⟩, ?_⟩
          · exact fun c hc => (satisfies_iff hp).mp (vectorPool_satisfies hs c hc)
          · intro c hc
            have hcand := (List.mem_filter.mp hc).1
            exact (hkept hreturns c hcand).2 hlimit ((hmem c hcand).mp hc)
          · exact fun _ _ c hc => (satisfies_iff hp).mp (lexicalSearchChunks_satisfies hs hwf hor c hc)
          · intro graph hgraph' c hc hnot
            obtain rfl := Except.ok.inj (hgraph.symm.trans hgraph')
            refine (hkept hreturns c hc).1 ?_
            obtain ⟨b, hb⟩ := hreturns c hc
            cases b with
            | true => exact absurd ((hmem c hc).mpr hb) hnot
            | false => exact hb
      · -- the post-filter raises, and with it the retrieval
        have herror : ∀ graph, graphPostFilter (some t) candidates ≠ .ok graph := by
          intro graph hgraph
          refine hreturns fun c hc => ?_
          rw [← hread c hc]
          exact ((graphPostFilter_eq_ok hp).mp hgraph).1 c hc
        refine iff_of_true ⟨fun rank _ cs hcs => ?_, fun graph hgraph => absurd hgraph (herror graph)⟩
          fun h => absurd h hreturns
        simp only [vectorcypherRetrieve, hentry, Bool.not_true, Bool.false_eq_true, if_false, hcands, bind,
          Except.bind] at hcs
        cases hgraph : graphPostFilter (some t) candidates with
        | error e =>
            rw [hgraph] at hcs
            cases hcs
        | ok graph => exact absurd hgraph (herror graph)

/-! ## Every path -/

/-- Only the result depends on the ranking. -/
theorem channelsAgree_iff : (∀ rank, Selects rank → ChannelsAgree w cfg args t signal tf rank) ↔
    (∀ rank, Selects rank → ∀ cs, retrieve w cfg args rank signal tf (some t) = .ok cs →
      ∀ c ∈ cs, Satisfies t (w.row c.id)) ∧
    ∀ run ∈ graphRun w args t signal, ∀ candidates,
      runCandidates w cfg args t signal tf run = .ok candidates →
      ∀ graph, graphPostFilter (some t) candidates = .ok graph →
      ∀ c ∈ candidates, c ∉ graph → ¬ Satisfies t (w.row c.id) := by
  constructor
  · exact fun h => ⟨fun rank hrank => (h rank hrank).result, (h id fun _ _ hc => hc).removed⟩
  · exact fun h rank hrank => ⟨h.1 rank hrank, h.2⟩

/-- A filter without conditions is decided alike everywhere. -/
theorem agrees_of_unconstrained (hwf : t.wellFormed = true) (hor : t.orsFilled = true)
    (hun : unconstrained (some t) = true) :
    (∀ rank, Selects rank → ChannelsAgree w cfg args t signal tf rank) ↔
      VerdictsKept w cfg args t signal tf := by
  obtain ⟨p, hp, hall⟩ := exists_predicate_of_unconstrained hwf hor hun
  refine iff_of_true (channelsAgree_iff.mpr
    ⟨fun _ _ _ _ c _ => satisfies_of_unconstrained hwf hor hun _, ?_⟩) ?_
  · intro run _ candidates _ graph hgraph c hc hnot
    rw [((graphPostFilter_eq_ok hp).mp hgraph).2, List.mem_filter, accepts_iff] at hnot
    exact absurd ⟨hc, hall _⟩ hnot
  · intro run _ candidates _ p' hp' _ c _
    obtain rfl := Except.ok.inj (hp.symm.trans hp')
    rw [hall]
    exact ⟨fun h => (by cases h), fun _ _ => hall _⟩

/-- A retrieval that runs no graph channel is one of the simple path. -/
theorem agrees_of_simple (hs : SearchesSatisfy w t) (hwf : t.wellFormed = true)
    (hor : t.orsFilled = true) (hrun : graphRun w args t signal = none) {hasFloor : Bool}
    (hretrieve : ∀ rank, retrieve w cfg args rank signal tf (some t) =
      .ok (simpleRetrieve w cfg rank mode hasFloor limit (recencyFloorFilter w cfg signal tf) (some t))) :
    (∀ rank, Selects rank → ChannelsAgree w cfg args t signal tf rank) ↔
      VerdictsKept w cfg args t signal tf := by
  refine iff_of_true (channelsAgree_iff.mpr ⟨fun rank hrank cs hcs => ?_, ?_⟩) ?_
  · rw [hretrieve] at hcs
    cases hcs
    exact simpleRetrieve_satisfies hs hwf hor hrank
  · simp [hrun]
  · simp [VerdictsKept, hrun]

/-- **The channels decide as the rows do exactly if the graph candidates keep the verdict
of their rows**, whatever the ranking prefers; a filter over the metadata and the times
that a reader keeps has one verdict on the row and on the rebuilt chunk. -/
theorem channels_agree (w : World Id) (cfg : RetrieverConfig) (args : RetrieveArgs)
    (signal : Option TemporalSignal) (tf : Option ChunkTemporalFilter) (raw f : RecallFilter) (t : Ast)
    (hvalid : raw.validate = .ok f) (hparse : parseToAst f = .ok t) (hs : SearchesSatisfy w t) :
    ((∀ rank, Selects rank → ChannelsAgree w cfg args t signal tf rank) ↔
      VerdictsKept w cfg args t signal tf) ∧
    ∀ c p, compilePython (chunkContext none) t = .ok p → KeptLeaves w t c →
      p (w.blanked c).record = p (w.row c.id).toTemporalChunk.record := by
  have hlow := ((parseToAst_iff f (RecallFilter.valid_of_validate hvalid)).value t hparse).2
  have hwf := hlow.wellFormed t (by simp)
  have hor := hlow.orsFilled t (by simp)
  refine ⟨?_, fun c p hp h => h.predicate_eq rfl hwf hp⟩
  obtain ⟨p, hp, -⟩ := (@predicate_returns (chunkContext none) _ _ _ hvalid hparse rfl).1
  by_cases htyped : (!(decide (args.mode = .vector) || decide (args.mode = .keyword)) &&
      !decide (args.mode = .graph) && decide (args.complexity = .typedEntityRecent) &&
      unconstrained (some t)) = true
  · exact agrees_of_unconstrained hwf hor (Bool.and_eq_true_iff.mp htyped).2
  rcases Bool.eq_false_or_eq_true ((decide (args.mode = .vector) || decide (args.mode = .keyword)) ||
      (!decide (args.mode = .graph) && decide (args.complexity = .simple))) with hforce | hforce
  · apply agrees_of_simple hs hwf hor
    · simp only [graphRun, htyped, hforce, if_false, if_true, Bool.false_eq_true]
    · intro rank
      simp only [retrieve, htyped, hforce, if_false, if_true, Bool.false_eq_true]
      rfl
  cases hfails : w.graphFails with
  | true =>
      apply agrees_of_simple hs hwf hor
      · simp only [graphRun, htyped, hforce, hfails, if_false, if_true, Bool.false_eq_true]
      · intro rank
        simp only [retrieve, htyped, hforce, hfails, if_false, if_true, Bool.false_eq_true]
        rfl
  | false =>
      have hretrieve : ∀ rank, retrieve w cfg args rank signal tf (some t) =
          vectorcypherRetrieve w cfg rank args.mode args.hasFloor (effectiveLimit cfg args) signal
            (recencyFloorFilter w cfg signal tf) (some t) := by
        intro rank
        simp only [retrieve, htyped, hforce, hfails, if_false, Bool.false_eq_true]
        rfl
      cases hentry : w.entryFound with
      | false =>
          apply agrees_of_simple hs hwf hor
          · simp only [graphRun, htyped, hforce, hfails, hentry, if_false, Bool.false_eq_true]
          · intro rank
            simp only [hretrieve, vectorcypherRetrieve, hentry, Bool.not_false, if_true]
            rfl
      | true =>
          have hrun : graphRun w args t signal = some (args.mode, signal) := by
            simp only [graphRun, htyped, hforce, hfails, hentry, if_false, if_true, Bool.false_eq_true]
          rw [channelsAgree_iff]
          simp only [VerdictsKept, hretrieve, hrun, Option.mem_some_iff, forall_eq', hp,
            Except.ok.injEq]
          exact graphRun_agrees_iff hs hwf hor hp hentry

end Agree

/-! ## Runs -/

/-- A chunk of Slack. -/
def slackChunk : StoredChunk :=
  { storedAt (january 3 (Eq.refl true)) with
    strings := fun k => if k = .sourceType then some "slack" else none }

/-- One chunk of Slack, which the graph holds near the query. -/
def slackWorld : World ℕ := { quietWorld slackChunk with mentioned := [7], pprRanked := [7] }

/-- The chunks of two projects; of the one the graph holds one and the vector search another, of the other one
the graph holds a third. -/
def projectWorld : World ℕ :=
  { quietWorld slackChunk with
    row := fun id => { slackChunk with metadata := [(.str "k", .str (if id = 9 then "y" else "x"))] }
    mentioned := [7, 9]
    vectorSearch := fun _ _ _ => [8] }

/-- The filter for one project: the result has its two chunks, and the post-filter removes the third. -/
theorem channels_agree_projectWorld : ∃ f t,
    (equalFilter (.str "x")).validate = .ok f ∧ parseToAst f = .ok t ∧ SearchesSatisfy projectWorld t ∧
    graphRun projectWorld ⟨.hybrid, 10, false, .complex⟩ t none = some (.hybrid, none) ∧
    ChannelsAgree projectWorld plainConfig ⟨.hybrid, 10, false, .complex⟩ t none none id ∧
    ∃ cs, retrieve projectWorld plainConfig ⟨.hybrid, 10, false, .complex⟩ id none none (some t) = .ok cs ∧
      cs.map Chunk.id = [8, 7] := by
  have hs : SearchesSatisfy projectWorld (.node .and [.clause ⟨["metadata", "k"], .eq, .str "x"⟩]) := by
    refine ⟨fun _ _ id hid => ?_, fun id hid => (by cases hid), fun _ id hid => (by cases hid)⟩
    rw [List.mem_singleton.mp hid]
    exact ⟨_, rfl, rfl⟩
  refine ⟨_, _, rfl, rfl, hs, rfl, ?_, _, rfl, rfl⟩
  obtain ⟨hiff, hkept⟩ := channels_agree projectWorld plainConfig ⟨.hybrid, 10, false, .complex⟩ none none
    (equalFilter (.str "x")) _ _ rfl rfl hs
  refine hiff.mpr ?_ id fun _ _ hc => hc
  intro run _ candidates _ p hp _ c _
  rw [hkept c p hp fun l hl key hkey => ?_]
  · refine ⟨fun hfalse htrue => ?_, fun _ htrue => htrue⟩
    rw [hfalse] at htrue
    cases htrue
  · rw [List.mem_singleton.mp hl] at hkey
    cases hkey

/-- `{"source_type": ...}` -/
def sourceTypeFilter (p : StringPredicate) : RecallFilter :=
  { emptyFilter with strings := fun k => if k = .sourceType then .value p else .unset }

def fromSlack : Ast := .node .and [.clause ⟨["source_type"], .eq, .str "slack"⟩]

def notFromSlack : Ast := .node .and [.clause ⟨["source_type"], .ne, .str "slack"⟩]

/-- **The post-filter removes a chunk of the right source, and lets one of an excluded
source through**, since the rebuilt chunk has none. -/
theorem sourceType_removed :
    (∃ f, (sourceTypeFilter (.str "slack")).validate = .ok f ∧ parseToAst f = .ok fromSlack ∧
      SearchesSatisfy slackWorld fromSlack ∧
      ¬ ChannelsAgree slackWorld plainConfig ⟨.hybrid, 10, false, .complex⟩ fromSlack none none id) ∧
    ∃ f, (sourceTypeFilter (.ops ⟨.unset, .value "slack", .unset, .unset, .unset, .unset⟩)).validate =
        .ok f ∧ parseToAst f = .ok notFromSlack ∧ SearchesSatisfy slackWorld notFromSlack ∧
      ∃ cs, retrieve slackWorld { plainConfig with enablePprRetrieval := true }
          ⟨.hybrid, 10, false, .complex⟩ id none none (some notFromSlack) = .ok cs ∧
        cs.map Chunk.id = [7] ∧ ¬ Satisfies notFromSlack slackChunk := by
  refine ⟨⟨_, rfl, rfl, ?_, ?_⟩, ⟨_, rfl, rfl, ?_, _, rfl, rfl, ?_⟩⟩
  · exact ⟨fun _ _ id hid => (by cases hid), fun id hid => (by cases hid), fun _ id hid => (by cases hid)⟩
  · intro h
    refine h.removed (.hybrid, none) rfl _ rfl _ rfl _ List.mem_cons_self (by simp) ⟨_, rfl, rfl⟩
  · exact ⟨fun _ _ id hid => (by cases hid), fun id hid => (by cases hid), fun _ id hid => (by cases hid)⟩
  · rintro ⟨p, hp, htrue⟩
    cases hp
    cases htrue

end Khora
