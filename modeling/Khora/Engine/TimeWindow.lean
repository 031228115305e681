import Khora.Engine.Retriever
import Mathlib.Data.List.Dedup

/-!
# The time window of a recall

A caller may pass a `ChunkTemporalFilter` with a start and an end.  The vector searches
are given the window; the lexical search, the PageRank channel, the storage fallback and
the typed-entity query are not, and the graph query compares the bounds as texts.

* `recall_in_window` — every returned chunk lies in the window exactly if no such channel
  finds one outside it; a similarity floor shuts out the lexical hits, and the texts of
  UTC values compare as the instants do.
* `keywordHit_outside` — a keyword recall that returns a chunk from before the window.
-/

namespace Khora

open Calendar (DateTime)
open Fallible

variable {Id : Type}

/-! ## The window -/

/-- `occurred_after <= t < occurred_before` as instants, for the bounds that are set. -/
def InWindow (tf : ChunkTemporalFilter) (t : Option DateTime) : Prop :=
  (∀ a, tf.occurredAfter = some a → ∃ d, t = some d ∧ a.instant ≤ d.instant) ∧
    ∀ b, tf.occurredBefore = some b → ∃ d, t = some d ∧ d.instant < b.instant

/-- The vector searches honour the window that they are given. -/
def HonoursWindow (w : World Id) : Prop :=
  ∀ call tf ast, ∀ id ∈ w.vectorSearch call (some tf) ast, InWindow tf ((w.row id).dates .occurredAt)

/-- A chunk that the result could hold lies in the window. -/
def World.Inside (w : World Id) (tf : ChunkTemporalFilter) (id : Id) : Prop :=
  10 ≤ (pyStrip (w.row id).content).length → InWindow tf (w.row id).eventTime

variable {w : World Id} {cfg : RetrieverConfig} {f : ChunkTemporalFilter}

theorem InWindow.eventTime {row : StoredChunk} (h : InWindow f (row.dates .occurredAt)) :
    InWindow f row.eventTime := by
  refine ⟨fun a ha => ?_, fun b hb => ?_⟩
  · obtain ⟨d, hd, hle⟩ := h.1 a ha
    exact ⟨d, by simp [StoredChunk.eventTime, hd], hle⟩
  · obtain ⟨d, hd, hlt⟩ := h.2 b hb
    exact ⟨d, by simp [StoredChunk.eventTime, hd], hlt⟩

theorem HonoursWindow.inside (h : HonoursWindow w) {call : VectorCall} {ast : Option Ast} {id : Id}
    (hid : id ∈ w.vectorSearch call (some f) ast) : w.Inside f id :=
  fun _ => (h call f ast id hid).eventTime

/-- The filter of a session has the bounds of the caller's. -/
theorem inWindow_sessionFilter {ch : String} {t : Option DateTime} :
    InWindow (sessionFilter (some f) ch) t ↔ InWindow f t := Iff.rfl

/-! ## Texts of UTC values -/

theorem cmpString_gte_isoformat {a d : DateTime} (ha : a.offset = some 0) (hd : d.offset = some 0) :
    Value.cmpString .gte d.isoformat a.isoformat = true ↔ a.instant ≤ d.instant := by
  have h := DateTime.isoformat_lt_iff hd ha
  simp only [Value.cmpString, Value.Cmp.decide, Bool.not_eq_true', decide_eq_false_iff_not, h]
  exact Int.not_lt

theorem cmpString_lt_isoformat {b d : DateTime} (hb : b.offset = some 0) (hd : d.offset = some 0) :
    Value.cmpString .lt d.isoformat b.isoformat = true ↔ d.instant < b.instant := by
  have h := DateTime.isoformat_lt_iff hd hb
  simp only [Value.cmpString, Value.Cmp.decide, decide_eq_true_eq, h]

/-- Between UTC values the temporal conditions of the graph query say that the chunk is
in the window. -/
theorem inWindow_of_conditions {row : StoredChunk} {writtenAt : DateTime}
    (hbounds : ∀ b, f.occurredAfter = some b ∨ f.occurredBefore = some b → b.offset = some 0)
    (hrow : ∀ d, row.dates .occurredAt = some d → d.offset = some 0)
    (h : (CypherCond.all (temporalConditions (some f))).eval (chunkNode row writtenAt) = some true) :
    InWindow f row.eventTime := by
  apply InWindow.eventTime
  have hconds : ∀ e ∈ temporalConditions (some f), e.eval (chunkNode row writtenAt) = some true := by
    rw [CypherCond.eval, CypherCond.evals_eq, Ternary.all_eq_true] at h
    intro e he
    exact h _ (List.mem_map.mpr ⟨e, he, rfl⟩)
  have hnode : chunkNode row writtenAt "occurred_at" =
      (row.dates .occurredAt).map DateTime.isoformat := rfl
  refine ⟨fun a ha => ?_, fun b hb => ?_⟩
  · have hcond := hconds (.compare .gte "occurred_at" (.str a.isoformat)) (by simp [temporalConditions, ha])
    rw [CypherCond.eval, hnode] at hcond
    cases hd : row.dates .occurredAt with
    | none => simp [hd, cypherCompare] at hcond
    | some d =>
        simp only [hd, Option.map_some, cypherCompare, Option.some.injEq] at hcond
        exact ⟨d, rfl, (cmpString_gte_isoformat (hbounds a (.inl ha)) (hrow d hd)).mp hcond⟩
  · have hcond := hconds (.compare .lt "occurred_at" (.str b.isoformat)) (by simp [temporalConditions, hb])
    rw [CypherCond.eval, hnode] at hcond
    cases hd : row.dates .occurredAt with
    | none => simp [hd, cypherCompare] at hcond
    | some d =>
        simp only [hd, Option.map_some, cypherCompare, Option.some.injEq] at hcond
        exact ⟨d, rfl, (cmpString_lt_isoformat (hbounds b (.inr hb)) (hrow d hd)).mp hcond⟩

/-! ## When the window is kept -/

section Kept

variable [DecidableEq Id] (w) (cfg) (f)

/-- The lexical channel feeds the result in this mode. -/
def lexicalFeeds (mode : SearchMode) : Bool :=
  (mode = .hybrid || mode = .all || mode = .keyword) && w.hasStorage &&
    (cfg.lexicalChannelActive || mode = .keyword)

/-- The lexical hits that the simple path ranks. -/
def simpleLexicalHits (mode : SearchMode) (limit : ℕ) (ast : Option Ast) : List (Chunk Id) :=
  if mode = .keyword then (lexicalSearchChunks w cfg ast).take limit else lexicalSearchChunks w cfg ast

/-- The simple path: without a floor, no lexical hit is outside. -/
def SimpleInside (mode : SearchMode) (hasFloor : Bool) (limit : ℕ) (ast : Option Ast) : Prop :=
  lexicalFeeds w cfg mode = true → hasFloor = false → 0 < limit →
    ∀ c ∈ simpleLexicalHits w cfg mode limit ast, w.Inside f c.id

/-- The graph path: no chunk of the graph channel is outside, nor a lexical hit without a
floor, nor a chunk of a search that is run again without the window. -/
def VectorcypherInside (mode : SearchMode) (hasFloor : Bool) (limit : ℕ)
    (signal : Option TemporalSignal) (ast : Option Ast) : Prop :=
  if w.entryFound then
    ∀ candidates graph, graphCandidates w cfg mode limit signal (some f) ast = .ok candidates →
      graphPostFilter ast candidates = .ok graph → 0 < limit →
      (dropsWindow mode limit signal (some f) ast (vectorFound w cfg mode signal (some f) ast).length = true →
        ∀ id ∈ w.vectorSearch .rerun none none, w.Inside f id) ∧
      (∀ c ∈ graph, w.Inside f c.id) ∧
      (lexicalFeeds w cfg mode = true → hasFloor = false →
        ∀ c ∈ lexicalSearchChunks w cfg ast, w.Inside f c.id)
  else SimpleInside w cfg f mode hasFloor limit ast

/-- The signal of a recall with a window of the caller. -/
def explicitSignal : TemporalSignal := ⟨true, .explicit, some f⟩

/-- The condition on a recall, path by path. -/
def WindowKept (args : RetrieveArgs) (ast : Option Ast) : Prop :=
  let limit := if args.limit = 0 then cfg.maxChunks else args.limit
  let forceSimple := args.mode = .vector || args.mode = .keyword
  let forceGraph := args.mode = .graph
  if !forceSimple && !forceGraph && args.complexity = .typedEntityRecent && unconstrained ast then
    match (if w.hasDualNodes then w.typedRows else none) with
    | some (row :: rows) => ∀ id, some id ∈ row :: rows → w.Inside f id
    | _ => VectorcypherInside w cfg f .hybrid false limit none ast
  else if forceSimple || (!forceGraph && args.complexity = .simple) then
    SimpleInside w cfg f args.mode args.hasFloor limit ast
  else if w.graphFails then
    SimpleInside w cfg f (if args.mode = .graph then .hybrid else args.mode) args.hasFloor limit ast
  else VectorcypherInside w cfg f args.mode args.hasFloor limit (some (explicitSignal f)) ast

variable {w cfg f} {mode : SearchMode} {hasFloor : Bool} {limit : ℕ} {ast : Option Ast}

omit [DecidableEq Id] in
theorem vector_inside (hw : HonoursWindow w) {call : VectorCall} :
    ∀ c ∈ w.vectorChunks (w.vectorSearch call (some f) ast), w.Inside f c.id := by
  intro c hc
  obtain ⟨id, hid, rfl⟩ := mem_vectorChunks.mp hc
  exact hw.inside hid

theorem simpleRetrieve_inside_iff (hw : HonoursWindow w) :
    (∀ rank, Selects rank → ∀ c ∈ simpleRetrieve w cfg rank mode hasFloor limit (some f) ast,
      w.Inside f c.id) ↔ SimpleInside w cfg f mode hasFloor limit ast := by
  have hfeeds : (((decide (mode = .hybrid) || decide (mode = .all) || decide (mode = .keyword)) &&
      w.hasStorage && (cfg.lexicalChannelActive || decide (mode = .keyword)))) =
      lexicalFeeds w cfg mode := rfl
  have hvector : ∀ c ∈ (if mode = .keyword then []
      else w.vectorChunks (w.vectorSearch .simple (some f) ast)), w.Inside f c.id := by
    intro c hc
    split at hc
    · cases hc
    · exact vector_inside hw c hc
  unfold simpleRetrieve SimpleInside simpleLexicalHits
  simp only [hfeeds]
  cases lexicalFeeds w cfg mode with
  | false =>
      simp only [Bool.false_eq_true, if_false, false_implies, iff_true]
      exact rank_forall_iff.mpr hvector
  | true =>
      simp only [if_true, true_implies]
      by_cases hmode : mode = .keyword
      · simp only [hmode, if_true]
        rw [rank_forall_iff]
        cases hasFloor with
        | true =>
            -- a keyword hit has passed the floor only if the vector search found it
            simp only [if_true, Bool.true_eq_false, false_implies, iff_true]
            intro c hc
            obtain ⟨-, c', hc', hid⟩ := mem_restrictTo.mp (List.mem_of_mem_take hc)
            exact hid ▸ vector_inside hw c' hc'
        | false =>
            simp only [Bool.false_eq_true, if_false, true_implies]
            constructor
            · exact fun h _ => h
            · intro h c hc
              refine h ?_ c hc
              rcases Nat.eq_zero_or_pos limit with rfl | hpos
              · simp at hc
              · exact hpos
      · simp only [hmode, if_false] at hvector ⊢
        cases hempty : (lexicalSearchChunks w cfg ast).isEmpty with
        | true =>
            rw [List.isEmpty_iff.mp hempty]
            simp only [if_true, List.not_mem_nil, false_implies, implies_true, iff_true]
            exact rank_forall_iff.mpr hvector
        | false =>
            simp only [Bool.false_eq_true, if_false]
            rw [take_rank_forall_iff]
            cases hasFloor with
            | true =>
                simp only [if_true, Bool.true_eq_false, false_implies, iff_true]
                intro _
                have hfloor := (@restrict_forall_iff _ _ (w.Inside f)
                  (w.vectorChunks (w.vectorSearch .simple (some f) ast)) []
                  (lexicalSearchChunks w cfg ast)).mpr ⟨hvector, by simp⟩
                rwa [List.append_nil] at hfloor
            | false =>
                simp only [Bool.false_eq_true, if_false, true_implies]
                refine imp_congr_right fun _ => ?_
                rw [fuse_forall_iff]
                exact ⟨fun h => h.2.2, fun h => ⟨hvector, by simp, h⟩⟩

/-- The searches of the vector channel are inside, unless the window is dropped. -/
theorem vectorBase_inside_iff (hw : HonoursWindow w) {signal : Option TemporalSignal} :
    (∀ id ∈ vectorBase w cfg mode limit signal (some f) ast, w.Inside f id) ↔
      (dropsWindow mode limit signal (some f) ast (vectorFound w cfg mode signal (some f) ast).length = true →
        ∀ id ∈ w.vectorSearch .rerun none none, w.Inside f id) := by
  have hfound : ∀ id ∈ vectorFound w cfg mode signal (some f) ast, w.Inside f id := by
    intro id hid
    unfold vectorFound at hid
    dsimp only at hid
    split at hid
    · rw [List.mem_dedup, List.mem_append, List.mem_flatMap] at hid
      rcases hid with ⟨ch, -, hid⟩ | hid
      · intro _
        exact inWindow_sessionFilter.mp (hw _ _ _ id hid).eventTime
      · exact hw.inside hid
    · split at hid
      · cases hid
      · exact hw.inside hid
  unfold vectorBase
  dsimp only
  split
  · rename_i hdrop
    exact ⟨fun h _ => h, fun h => h hdrop⟩
  · rename_i hdrop
    exact ⟨fun _ h => absurd h hdrop, fun _ => hfound⟩

/-- A signal that adds no search to the vector channel. -/
def Plain (signal : Option TemporalSignal) : Prop :=
  ∀ s, signal = some s → s.category = .explicit

theorem vectorPool_eq {signal : Option TemporalSignal} (h : Plain signal)
    (tf : Option ChunkTemporalFilter) : vectorPool w cfg mode limit signal tf ast =
      w.vectorChunks (vectorBase w cfg mode limit signal tf ast) := by
  have hchange : signal.any (fun s => decide (s.category = .change)) = false := by
    cases signal with
    | none => rfl
    | some s => simp [h s rfl]
  have hrec : recencyRuns w cfg signal tf = false := by
    cases signal with
    | none => simp [recencyRuns]
    | some s => simp [recencyRuns, h s rfl, TemporalCategory.defaultWindowDays]
  simp [vectorPool, hchange, hrec]

theorem vectorPool_inside_iff (hw : HonoursWindow w) {signal : Option TemporalSignal}
    (h : Plain signal) :
    (∀ c ∈ vectorPool w cfg mode limit signal (some f) ast, w.Inside f c.id) ↔
      (dropsWindow mode limit signal (some f) ast (vectorFound w cfg mode signal (some f) ast).length = true →
        ∀ id ∈ w.vectorSearch .rerun none none, w.Inside f id) := by
  rw [vectorPool_eq h, ← vectorBase_inside_iff hw]
  constructor
  · intro hall id hid
    exact hall (vectorChunk id (w.row id)) (mem_vectorChunks.mpr ⟨id, hid, rfl⟩)
  · intro hall c hc
    obtain ⟨id, hid, rfl⟩ := mem_vectorChunks.mp hc
    exact hall id hid

omit [DecidableEq Id] in
/-- The lexical list that the graph path fuses. -/
theorem graphPath_feeds (hmode : mode ≠ .vector ∧ mode ≠ .keyword) :
    (decide (mode ≠ .graph) && cfg.lexicalChannelActive && w.hasStorage) = lexicalFeeds w cfg mode := by
  unfold lexicalFeeds
  cases mode
  case vector => exact absurd rfl hmode.1
  case keyword => exact absurd rfl hmode.2
  all_goals cases cfg.lexicalChannelActive <;> cases w.hasStorage <;> rfl

omit [DecidableEq Id] in
theorem forall_candidates {candidates graph : List (Chunk Id)}
    (h : graphPostFilter ast candidates = .ok graph) {P : List (Chunk Id) → Prop} :
    (∀ candidates' graph', candidates = candidates' → graphPostFilter ast candidates' = .ok graph' →
      P graph') ↔ P graph := by
  constructor
  · exact fun hall => hall candidates graph rfl h
  · rintro hP _ graph' rfl h'
    obtain rfl := Except.ok.inj (h.symm.trans h')
    exact hP

theorem vectorcypherRetrieve_inside_iff (hw : HonoursWindow w) {signal : Option TemporalSignal}
    (hsignal : Plain signal) (hmode : mode ≠ .vector ∧ mode ≠ .keyword) :
    (∀ rank, Selects rank → ∀ cs,
      vectorcypherRetrieve w cfg rank mode hasFloor limit signal (some f) ast = .ok cs →
      ∀ c ∈ cs, w.Inside f c.id) ↔ VectorcypherInside w cfg f mode hasFloor limit signal ast := by
  unfold VectorcypherInside
  cases hentry : w.entryFound with
  | false =>
      simp only [vectorcypherRetrieve, hentry, Bool.not_false, if_true, Bool.false_eq_true, if_false,
        Except.ok.injEq, forall_eq']
      exact simpleRetrieve_inside_iff hw
  | true =>
      -- a candidate or the post-filter that raises leaves nothing to show
      cases hcands : graphCandidates w cfg mode limit signal (some f) ast with
      | error e =>
          refine iff_of_true (fun rank _ cs hcs => ?_) fun _ _ h => by cases h
          simp [vectorcypherRetrieve, hentry, hcands, bind, Except.bind] at hcs
      | ok candidates =>
          cases hgraph : graphPostFilter ast candidates with
          | error e =>
              refine iff_of_true (fun rank _ cs hcs => ?_) ?_
              · simp [vectorcypherRetrieve, hentry, hcands, bind, Except.bind, hgraph] at hcs
              · rintro _ graph ⟨⟩ hok
                rw [hgraph] at hok
                cases hok
          | ok graph =>
              rw [vectorcypherRetrieve_forall_iff hentry hcands hgraph, vectorPool_inside_iff hw hsignal,
                graphPath_feeds hmode]
              simp only [if_true, Except.ok.injEq]
              rw [forall_candidates hgraph]

/-- What validation leaves is inside exactly if what it is given is. -/
theorem validated_inside_iff {path : Ranking Id → Except PyErr (List (Chunk Id))}
    (hpath : ∀ rank, Selects rank → ∀ cs, path rank = .ok cs → ∀ c ∈ cs, Rebuilds w c) :
    (∀ rank, Selects rank → ∀ cs, path rank = .ok cs →
      ∀ c ∈ validateRecallResults cs, InWindow f c.toRecallChunk.occurredAt) ↔
    ∀ rank, Selects rank → ∀ cs, path rank = .ok cs → ∀ c ∈ cs, w.Inside f c.id := by
  refine forall₂_congr fun rank hrank => forall₂_congr fun cs hcs => ?_
  have hreb := hpath rank hrank cs hcs
  constructor
  · intro h c hc hlong
    obtain ⟨c', hc', hid⟩ := exists_mem_dedupById hc
    have hrow := hreb c' (mem_dedupById hc')
    have hsub : c'.substantial = true := by
      rw [Chunk.substantial, hrow.content, hid]
      exact decide_eq_true hlong
    have hwin := h c' (List.mem_filter.mpr ⟨hc', hsub⟩)
    rwa [hrow.eventTime, hid] at hwin
  · intro h c hc
    obtain ⟨hmem, hsub⟩ := List.mem_filter.mp hc
    have hrow := hreb c (mem_dedupById hmem)
    rw [hrow.eventTime]
    apply h c (mem_dedupById hmem)
    rw [← hrow.content]
    exact of_decide_eq_true hsub

theorem retrieve_inside_iff (hw : HonoursWindow w) (args : RetrieveArgs) :
    (∀ rank, Selects rank → ∀ cs,
      retrieve w cfg args rank (some (explicitSignal f)) (some f) ast = .ok cs →
      ∀ c ∈ cs, w.Inside f c.id) ↔ WindowKept w cfg f args ast := by
  have hplain : Plain (some (explicitSignal f)) := by
    rintro s ⟨⟩
    rfl
  have hnone : Plain none := by
    rintro s ⟨⟩
  have htf : recencyFloorFilter w cfg (some (explicitSignal f)) (some f) = some f := rfl
  unfold retrieve WindowKept
  simp only [htf]
  split
  · have hfallback : ∀ limit, (∀ rank, Selects rank → ∀ cs,
        vectorcypherRetrieve w cfg rank .hybrid false limit none (some f) ast = .ok cs →
        ∀ c ∈ cs, w.Inside f c.id) ↔ VectorcypherInside w cfg f .hybrid false limit none ast :=
      fun limit => vectorcypherRetrieve_inside_iff hw hnone ⟨by decide, by decide⟩
    unfold typedEntityRecentRetrieve
    generalize (if w.hasDualNodes = true then w.typedRows else none) = typed
    rcases typed with _ | _ | ⟨row, rows⟩
    · exact hfallback _
    · exact hfallback _
    · simp only [Except.ok.injEq, forall_eq']
      constructor
      · intro h id hid
        apply h (fun cs => cs) (fun _ _ hc => hc)
          (graphChunk w.now (nodeRecord id (w.row id) (w.writtenAt id)))
        exact List.mem_filterMap.mpr ⟨some id, hid, rfl⟩
      · intro h rank _ c hc
        obtain ⟨evidence, hmem, hmap⟩ := List.mem_filterMap.mp hc
        obtain ⟨id, rfl, rfl⟩ := Option.map_eq_some_iff.mp hmap
        exact h id hmem
  · split
    · simp only [Except.ok.injEq, forall_eq']
      exact simpleRetrieve_inside_iff hw
    · rename_i hsimple
      split
      · simp only [Except.ok.injEq, forall_eq']
        exact simpleRetrieve_inside_iff hw
      · apply vectorcypherRetrieve_inside_iff hw hplain
        simp only [Bool.or_eq_true, decide_eq_true_eq, not_or] at hsimple
        exact hsimple.1

/-- **The window bounds the whole result exactly if no channel that is not given the
window finds a chunk outside it**, whatever the ranking prefers; and the graph query,
which compares texts, finds none outside it where the times are in UTC. -/
theorem recall_in_window (w : World Id) (cfg : RetrieverConfig) (f : ChunkTemporalFilter)
    (args : RetrieveArgs) (ast : Option Ast) (hw : HonoursWindow w) :
    ((∀ rank, Selects rank → ∀ cs, Khora.recall w cfg args rank (some f) ast = .ok cs →
      ∀ c ∈ cs, InWindow f c.occurredAt) ↔ WindowKept w cfg f args ast) ∧
    ∀ id, (∀ b, f.occurredAfter = some b ∨ f.occurredBefore = some b → b.offset = some 0) →
      (∀ d, (w.row id).dates .occurredAt = some d → d.offset = some 0) →
      (CypherCond.all (temporalConditions (some f))).eval (chunkNode (w.row id) (w.writtenAt id)) =
        some true → w.Inside f id := by
  refine ⟨?_, fun id hbounds hrow h _ => inWindow_of_conditions hbounds hrow h⟩
  rw [← retrieve_inside_iff hw args,
    ← validated_inside_iff fun rank hrank cs hcs c hc => rebuilds_retrieve hrank hcs hc]
  refine forall₂_congr fun rank _ => ?_
  -- the signal of the recall is the explicit one
  have hrecall : Khora.recall w cfg args rank (some f) ast =
      retrieve w cfg args rank (some (explicitSignal f)) (some f) ast >>= fun cs =>
        .ok ((validateRecallResults cs).map Chunk.toRecallChunk) := rfl
  rw [hrecall]
  constructor
  · intro h cs hcs c hc
    refine h _ ?_ _ (List.mem_map.mpr ⟨c, hc, rfl⟩)
    rw [hcs]
    rfl
  · intro h out hout rc hrc
    obtain ⟨cs, hcs, hmap⟩ := bind_eq_ok.mp hout
    cases hmap
    obtain ⟨c, hc, rfl⟩ := List.mem_map.mp hrc
    exact h cs hcs c hc

end Kept

/-! ## Runs -/

/-- From 2 January 2024 on. -/
def fromSecond : ChunkTemporalFilter :=
  ⟨some (january 2 (Eq.refl true)), none, none, none, none⟩

/-- Chunks of 1, 2 and 3 January. -/
def dayOf (id : ℕ) : DateTime :=
  if id = 7 then january 3 (Eq.refl true) else if id = 8 then january 2 (Eq.refl true)
  else january 1 (Eq.refl true)

/-- The bounds of a filter, on an instant. -/
def ChunkTemporalFilter.holds (tf : ChunkTemporalFilter) (d : DateTime) : Bool :=
  (tf.occurredAfter.all fun a => decide (a.instant ≤ d.instant)) &&
    tf.occurredBefore.all fun b => decide (d.instant < b.instant)

theorem inWindow_of_holds {tf : ChunkTemporalFilter} {d : DateTime} (h : tf.holds d = true) :
    InWindow tf (some d) := by
  obtain ⟨hafter, hbefore⟩ := Bool.and_eq_true_iff.mp h
  constructor
  · intro a ha
    rw [ha] at hafter
    exact ⟨d, rfl, of_decide_eq_true hafter⟩
  · intro b hb
    rw [hb] at hbefore
    exact ⟨d, rfl, of_decide_eq_true hbefore⟩

/-- The graph holds the chunk of 3 January; the vector search has the others, those within the window. -/
def threeDays : World ℕ :=
  { quietWorld (storedAt (january 3 (Eq.refl true))) with
    row := fun id => storedAt (dayOf id)
    mentioned := [7]
    vectorSearch := fun _ tf _ => [8, 9].filter fun id => tf.all fun tf => tf.holds (dayOf id) }

theorem honoursWindow_threeDays : HonoursWindow threeDays := by
  intro _ tf _ id hid
  exact inWindow_of_holds (List.mem_filter.mp hid).2

theorem recall_in_window_threeDays :
    ∃ cs, Khora.recall threeDays plainConfig ⟨.hybrid, 10, false, .complex⟩ (fun cs => cs)
        (some fromSecond) none = .ok cs ∧
      cs.map RecallChunk.id = [8, 7] ∧ ∀ c ∈ cs, InWindow fromSecond c.occurredAt := by
  refine ⟨_, rfl, rfl, (recall_in_window threeDays plainConfig fromSecond
    ⟨.hybrid, 10, false, .complex⟩ none honoursWindow_threeDays).1.mpr ?_ (fun cs => cs) (fun _ _ hc => hc) _ rfl⟩
  show VectorcypherInside threeDays plainConfig fromSecond .hybrid false 10 _ none
  intro candidates graph hcandidates hgraph _
  cases hcandidates
  cases hgraph
  refine ⟨fun hdrops => absurd hdrops (by decide), ?_, fun hfeeds => absurd hfeeds (by decide)⟩
  intro c hc _
  rw [List.mem_singleton.mp hc]
  exact inWindow_of_holds (d := january 3 (Eq.refl true)) (by decide)

/-- The full-text index holds one chunk for the query, of 1 January. -/
def keywordWorld : World ℕ :=
  { quietWorld (storedAt (january 1 (Eq.refl true))) with searchFulltext := fun _ => [7] }

/-- **A keyword recall returns a chunk from before the window.** -/
theorem keywordHit_outside :
    HonoursWindow keywordWorld ∧
    Khora.recall keywordWorld plainConfig ⟨.keyword, 10, false, .simple⟩ (fun cs => cs) (some fromSecond) none =
      .ok [⟨7, "The launch moved to March.", some (january 1 (by decide))⟩] ∧
    ¬ InWindow fromSecond (some (january 1 (by decide))) := by
  refine ⟨fun _ _ _ id hid => (by cases hid), rfl, ?_⟩
  intro h
  obtain ⟨d, hd, hle⟩ := h.1 _ rfl
  cases hd
  revert hle
  decide

end Khora
