import Khora.Hooks.LlmEvaluator
import Khora.Lib.Separated
import Mathlib.Algebra.Order.Ring.Rat
import Mathlib.Data.List.Induction

/-!
# The event summaries of the filter evaluator

`_event_summary_hash` joins the type, the name and the description of an event, each cut to a length, and hashes
the text. Events of one hash share a prompt line of a batch and, for one filter, an entry of the cache.

* `summaryText_iff` — when the text of an event tells its prompt fields.
* `Shared.step` — a decision is shared under the hash of an event that the model was asked about.
* `summary_exact` — events whose texts tell them apart share decisions on equal prompt fields only.
-/

namespace Khora

namespace EventSummary

variable {F H : Type} [DecidableEq F] [DecidableEq H]

/-! ## Summaries -/

/-- The fields of `event.data` that the evaluator reads, as `str` gives them. -/
structure EventData where
  name : Option (List Char)
  entityType : Option (List Char)
  relationshipType : Option (List Char)
  description : Option (List Char)

/-- What a line of the prompt is made of. -/
structure PromptFields where
  name : List Char
  etype : List Char
  descr : List Char
deriving DecidableEq

/-- The cut fields, of `_build_user_message` and of `_event_summary_hash`. -/
def EventData.promptFields (e : EventData) : PromptFields where
  name := (e.name.getD []).take 100
  etype := ((e.entityType.or e.relationshipType).getD []).take 50
  descr := (e.description.getD []).take 200

def PromptFields.text (fields : PromptFields) : List Char :=
  Separated.pair ['|'] (fields.etype, Separated.pair ['|'] (fields.name, fields.descr))

/-- The text that `_event_summary_hash` hashes: `f"{etype}|{name}|{descr}"`. -/
def EventData.summaryText (e : EventData) : List Char := e.promptFields.text

variable (hash : List Char → H)

def eventSummaryHash (e : EventData) : H := hash e.summaryText

/-! ## The cache -/

structure CacheConfig where
  llmCacheSize : ℤ
  llmCacheTtlSeconds : ℚ

/-- The decisions by filter and hash, oldest first, each with the time it expires, if it does. -/
abbrev DecisionCache (F H : Type) := OrderedDict (F × H) (Bool × Option ℚ)

variable (config : CacheConfig)

/-- `_cache_lookup` -/
def cacheLookup (cache : DecisionCache F H) (key : F × H) (now : ℚ) : DecisionCache F H × Option Bool :=
  if config.llmCacheSize ≤ 0 then (cache, none)
  else
    match cache.get? key with
    | none => (cache, none)
    | some (decision, expiresAt) =>
        if 0 < config.llmCacheTtlSeconds ∧ expiresAt.any (fun t => decide (t ≤ now)) then (cache.erase key, none)
        else (cache.moveToEnd key, some decision)

/-- `_cache_store` -/
def cacheStore (cache : DecisionCache F H) (key : F × H) (decision : Bool) (now : ℚ) : DecisionCache F H :=
  if config.llmCacheSize ≤ 0 then cache
  else
    let expiresAt := if 0 < config.llmCacheTtlSeconds then some (now + config.llmCacheTtlSeconds) else none
    (cache.setLast key (decision, expiresAt)).popTo config.llmCacheSize.toNat

/-! ## The evaluator -/

/-- A decision for the event of an evaluation, under a filter. -/
structure Decision (F : Type) where
  filter : F
  evaluation : ℕ
  decision : Bool
deriving DecidableEq

/-- The cache and the futures, with what the model decided and what the callers were answered on its word. -/
structure Evaluations (F H : Type) where
  cache : DecisionCache F H
  settled : FutureLog
  decisions : List (Decision F)
  answers : List (Decision F)

/-- `evaluate` as far as the cache; or `_evaluate_bucket` with the reply to its call. -/
inductive Act (F : Type) where
  | lookup (filter : F) (evaluation : ℕ) (now : ℚ)
  | bucket (filter : F) (evaluations : List ℕ) (reply : ℕ → Verdict) (now : ℕ → ℚ)

variable (events : ℕ → EventData)

/-- The queued evaluation of an event. -/
def pendingEvaluation (filter : F) (k : ℕ) : PendingEvaluation F H :=
  ⟨k, filter, eventSummaryHash hash (events k)⟩

/-- The answers that a decision gives: to the duplicates whose futures are not done. -/
def newAnswers (filter : F) (duplicates : List (PendingEvaluation F H)) (d : Bool) (settled : FutureLog) :
    List (Decision F) :=
  (duplicates.filter fun p => decide (¬settled.Done p.future)).map fun p => ⟨filter, p.future, d⟩

/-- The loop over the representatives of a bucket. -/
def resolveLoop (filter : F) (groups : OrderedDict H (List (PendingEvaluation F H))) (reply : ℕ → Verdict)
    (now : ℕ → ℚ) : ℕ → Evaluations F H → List (PendingEvaluation F H) → Evaluations F H
  | _, s, [] => s
  | idx, s, rep :: reps =>
      match groups.get? rep.summary with
      | none => s
      | some duplicates =>
          match reply idx with
          | .missing =>
              resolveLoop filter groups reply now (idx + 1)
                { s with settled := setResults true s.settled duplicates } reps
          | .malformed => s
          | .decided d =>
              resolveLoop filter groups reply now (idx + 1)
                { cache := cacheStore config s.cache (filter, rep.summary) d (now idx)
                  settled := setResults d s.settled duplicates
                  decisions := s.decisions ++ [⟨filter, rep.future, d⟩]
                  answers := s.answers ++ newAnswers filter duplicates d s.settled } reps

/-- What `evaluate` makes of the lookup; a caller is answered from the cache. -/
def answerCached (s : Evaluations F H) (filter : F) (k : ℕ) :
    DecisionCache F H × Option Bool → Evaluations F H
  | (cache, none) => { s with cache := cache }
  | (cache, some d) => { s with cache := cache, answers := s.answers ++ [⟨filter, k, d⟩] }

def step (s : Evaluations F H) : Act F → Evaluations F H
  | .lookup filter k now =>
      answerCached s filter k (cacheLookup config s.cache (filter, eventSummaryHash hash (events k)) now)
  | .bucket filter evaluations reply now =>
      let c := coalesce (evaluations.map (pendingEvaluation hash events filter))
      resolveLoop config filter c.2 reply now 0 s c.1

def start : Evaluations F H := ⟨.empty, [], [], []⟩

/-- Every answer is what the model decided, under the same filter, for an event with the same prompt fields. -/
def SharedRightly (s : Evaluations F H) : Prop :=
  ∀ a ∈ s.answers, ∃ d ∈ s.decisions, d.filter = a.filter ∧ d.decision = a.decision ∧
    (events d.evaluation).promptFields = (events a.evaluation).promptFields

/-! ## When the text tells the fields -/

/-- One text of the first pair is that of the second with a separator and a part of what follows it, or the other
way round. -/
def Shifted (p q : List Char × List Char) : Prop := Separated.Shifts ['|'] p q ∨ Separated.Shifts ['|'] q p

/-- No type runs on into the name, and under equal types no name runs on into the description. -/
def Apart (e e' : PromptFields) : Prop :=
  ¬Shifted (e.etype, Separated.pair ['|'] (e.name, e.descr)) (e'.etype, Separated.pair ['|'] (e'.name, e'.descr)) ∧
    (e.etype = e'.etype → ¬Shifted (e.name, e.descr) (e'.name, e'.descr))

theorem text_iff (e e' : PromptFields) : (e.text = e'.text → e = e') ↔ Apart e e' := by
  have hname : (Separated.pair ['|'] (e.name, e.descr) = Separated.pair ['|'] (e'.name, e'.descr) →
      (e.name, e.descr) = (e'.name, e'.descr)) ↔ ¬Shifted (e.name, e.descr) (e'.name, e'.descr) :=
    Separated.eq_of_pair_eq_iff
  constructor
  · intro h
    constructor
    · intro hshift
      have htext : e.text = e'.text := Separated.pair_eq_pair_iff.mpr (Or.inr hshift)
      rw [h htext] at hshift
      exact hshift.elim (Separated.not_shifts_of_fst_eq _ _ _) (Separated.not_shifts_of_fst_eq _ _ _)
    · intro htype
      refine hname.mp fun heq => ?_
      have htext : e.text = e'.text := by rw [PromptFields.text, PromptFields.text, htype, heq]
      rw [h htext]
  · rintro ⟨htype, hnames⟩ htext
    rcases Separated.pair_eq_pair_iff.mp htext with heq | hshift
    · obtain ⟨htypes, hrest⟩ := Prod.mk.inj heq
      obtain ⟨hn, hd⟩ := Prod.mk.inj (hname.mpr (hnames htypes) hrest)
      cases e
      cases e'
      simp_all
    · exact absurd hshift htype

/-- **The text of an event tells its prompt fields** exactly from those that no separator is shifted to. -/
theorem summaryText_iff (e e' : EventData) :
    (e.summaryText = e'.summaryText → e.promptFields = e'.promptFields) ↔ Apart e.promptFields e'.promptFields :=
  text_iff _ _

/-! ## Sharing under a hash -/

section Shared

variable {hash} {config} {events}

omit [DecidableEq F] in
/-- An item is filed under its own hash, and represented by one of the items. -/
theorem coalesce_filed (items : List (PendingEvaluation F H)) :
    (∀ rep ∈ (coalesce items).1, rep ∈ items) ∧
      ∀ h ps, (coalesce items).2.get? h = some ps → ∀ p ∈ ps, p ∈ items ∧ p.summary = h := by
  unfold coalesce
  induction items using List.reverseRecOn with
  | nil => exact ⟨fun _ h => (nomatch h), fun _ _ h => (nomatch h)⟩
  | append_singleton items p ih =>
      obtain ⟨hreps, hfiled⟩ := ih
      rw [List.foldl_append, List.foldl_cons, List.foldl_nil]
      generalize items.foldl coalesceStep ([], OrderedDict.empty) = c at hreps hfiled ⊢
      have hold : ∀ q ∈ items, q ∈ items ++ [p] := fun q hq => List.mem_append_left _ hq
      have hlast : p ∈ items ++ [p] := List.mem_append_right _ List.mem_cons_self
      unfold coalesceStep
      cases hget : c.2.get? p.summary with
      | none =>
          constructor
          · intro rep hrep
            rcases List.mem_append.mp hrep with hrep | hrep
            · exact hold rep (hreps rep hrep)
            · exact List.mem_singleton.mp hrep ▸ hlast
          · intro h ps hps q hq
            rw [OrderedDict.get?_set] at hps
            split at hps
            · obtain rfl := Option.some.inj hps
              obtain rfl := List.mem_singleton.mp hq
              exact ⟨hlast, Eq.symm ‹_›⟩
            · obtain ⟨hmem, hsummary⟩ := hfiled h ps hps q hq
              exact ⟨hold q hmem, hsummary⟩
      | some qs =>
          refine ⟨fun rep hrep => hold rep (hreps rep hrep), ?_⟩
          intro h ps hps q hq
          rw [OrderedDict.get?_set] at hps
          split at hps
          · rename_i hh
            obtain rfl := Option.some.inj hps
            rcases List.mem_append.mp hq with hq | hq
            · obtain ⟨hmem, hsummary⟩ := hfiled _ qs hget q hq
              exact ⟨hold q hmem, hsummary.trans hh.symm⟩
            · obtain rfl := List.mem_singleton.mp hq
              exact ⟨hlast, hh.symm⟩
          · obtain ⟨hmem, hsummary⟩ := hfiled h ps hps q hq
            exact ⟨hold q hmem, hsummary⟩

/-- A lookup finds an entry of the cache, and adds none. -/
theorem cacheLookup_spec (cache : DecisionCache F H) (key : F × H) (now : ℚ) :
    (∀ key' v, (cacheLookup config cache key now).1.get? key' = some v → cache.get? key' = some v) ∧
      ∀ d, (cacheLookup config cache key now).2 = some d → ∃ t, cache.get? key = some (d, t) := by
  unfold cacheLookup
  split
  · exact ⟨fun _ _ h => h, fun _ h => (by cases h)⟩
  · cases hget : cache.get? key with
    | none => exact ⟨fun _ _ h => h, fun _ h => (by cases h)⟩
    | some entry =>
        obtain ⟨decision, expiresAt⟩ := entry
        dsimp only
        split
        · refine ⟨fun key' v h => ?_, fun _ h => (by cases h)⟩
          rw [OrderedDict.get?_erase] at h
          split at h
          · cases h
          · exact h
        · refine ⟨fun key' v h => ?_, fun d h => ⟨expiresAt, ?_⟩⟩
          · rwa [OrderedDict.get?_moveToEnd] at h
          · rw [Option.some.inj h]

/-- A store adds the one decision. -/
theorem cacheStore_spec {cache : DecisionCache F H} {key key' : F × H} {decision : Bool} {now : ℚ}
    {v : Bool × Option ℚ} (h : (cacheStore config cache key decision now).get? key' = some v) :
    (key' = key ∧ v.1 = decision) ∨ cache.get? key' = some v := by
  unfold cacheStore at h
  split at h
  · exact Or.inr h
  · have hkept := OrderedDict.get?_of_popTo h
    rw [OrderedDict.get?_setLast] at hkept
    split at hkept
    · rename_i hkey
      exact Or.inl ⟨hkey, by rw [← Option.some.inj hkept]⟩
    · exact Or.inr hkept

/-- The model decided so under the filter, for an event of the hash. -/
def DecidedFor (hash : List Char → H) (events : ℕ → EventData) (decisions : List (Decision F)) (filter : F) (h : H)
    (d : Bool) : Prop :=
  ∃ x ∈ decisions, x.filter = filter ∧ x.decision = d ∧ eventSummaryHash hash (events x.evaluation) = h

omit [DecidableEq F] [DecidableEq H] in
theorem DecidedFor.append {decisions more : List (Decision F)} {filter : F} {h : H} {d : Bool}
    (hd : DecidedFor hash events decisions filter h d) : DecidedFor hash events (decisions ++ more) filter h d := by
  obtain ⟨x, hx, hrest⟩ := hd
  exact ⟨x, List.mem_append_left _ hx, hrest⟩

/-- The cache and the answers hold what the model decided for an event of the same hash. -/
structure Shared (hash : List Char → H) (events : ℕ → EventData) (s : Evaluations F H) : Prop where
  cached : ∀ filter h v, s.cache.get? (filter, h) = some v → DecidedFor hash events s.decisions filter h v.1
  answered : ∀ a ∈ s.answers,
    DecidedFor hash events s.decisions a.filter (eventSummaryHash hash (events a.evaluation)) a.decision

theorem shared_start : Shared hash events (start : Evaluations F H) :=
  ⟨fun _ _ _ h => (nomatch h), fun _ h => (nomatch h)⟩

/-- **A bucket shares each decision under its hash.** -/
theorem Shared.resolveLoop {filter : F} {groups : OrderedDict H (List (PendingEvaluation F H))} {reply : ℕ → Verdict}
    {now : ℕ → ℚ} (hgroups : ∀ h ps, groups.get? h = some ps → ∀ p ∈ ps,
      eventSummaryHash hash (events p.future) = h) {reps : List (PendingEvaluation F H)}
    (hreps : ∀ rep ∈ reps, eventSummaryHash hash (events rep.future) = rep.summary) :
    ∀ {idx : ℕ} {s : Evaluations F H}, Shared hash events s →
      Shared hash events (EventSummary.resolveLoop config filter groups reply now idx s reps) := by
  induction reps with
  | nil => exact fun h => h
  | cons rep reps ih =>
      intro idx s h
      have ih := @ih fun rep hrep => hreps rep (List.mem_cons_of_mem _ hrep)
      unfold EventSummary.resolveLoop
      cases hget : groups.get? rep.summary with
      | none => exact h
      | some duplicates =>
          cases hreply : reply idx with
          | missing => exact ih ⟨h.cached, h.answered⟩
          | malformed => exact h
          | decided d =>
              have hnew : DecidedFor hash events (s.decisions ++ [⟨filter, rep.future, d⟩]) filter rep.summary d :=
                ⟨_, List.mem_append_right _ List.mem_cons_self, rfl, rfl, hreps rep List.mem_cons_self⟩
              refine ih ⟨fun filter' h' v hv => ?_, fun a ha => ?_⟩
              · rcases cacheStore_spec hv with ⟨hkey, hdecision⟩ | hold
                · obtain ⟨rfl, rfl⟩ := Prod.mk.inj hkey
                  exact hdecision ▸ hnew
                · exact (h.cached filter' h' v hold).append
              · rcases List.mem_append.mp ha with ha | ha
                · exact (h.answered a ha).append
                · obtain ⟨p, hp, rfl⟩ := List.mem_map.mp ha
                  rw [hgroups rep.summary duplicates hget p (List.mem_filter.mp hp).1]
                  exact hnew

/-- **A caller is answered from an entry under its hash.** -/
theorem Shared.answerCached {s : Evaluations F H} (h : Shared hash events s) {filter : F} {k : ℕ}
    {found : DecisionCache F H × Option Bool} (hold : ∀ key v, found.1.get? key = some v → s.cache.get? key = some v)
    (hfound : ∀ d, found.2 = some d → ∃ t, s.cache.get? (filter, eventSummaryHash hash (events k)) = some (d, t)) :
    Shared hash events (EventSummary.answerCached s filter k found) := by
  have hcached : ∀ filter' h' v, found.1.get? (filter', h') = some v →
      DecidedFor hash events s.decisions filter' h' v.1 := fun filter' h' v hv => h.cached filter' h' v (hold _ v hv)
  obtain ⟨cache, answer⟩ := found
  cases answer with
  | none => exact ⟨hcached, h.answered⟩
  | some d =>
      obtain ⟨t, hget⟩ := hfound d rfl
      refine ⟨hcached, fun a ha => ?_⟩
      rcases List.mem_append.mp ha with ha | ha
      · exact h.answered a ha
      · rw [List.mem_singleton.mp ha]
        exact h.cached _ _ _ hget

theorem Shared.step {s : Evaluations F H} (h : Shared hash events s) (act : Act F) :
    Shared hash events (EventSummary.step hash config events s act) := by
  cases act with
  | lookup filter k now =>
      obtain ⟨hold, hfound⟩ := @cacheLookup_spec F H _ _ config s.cache (filter, eventSummaryHash hash (events k)) now
      exact h.answerCached hold hfound
  | bucket filter evaluations reply now =>
      obtain ⟨hreps, hfiled⟩ := coalesce_filed (evaluations.map (pendingEvaluation hash events filter))
      have hnamed : ∀ p ∈ evaluations.map (pendingEvaluation hash events filter),
          eventSummaryHash hash (events p.future) = p.summary := by
        intro p hp
        obtain ⟨k, -, rfl⟩ := List.mem_map.mp hp
        rfl
      refine h.resolveLoop (fun h' ps hps p hp => ?_) fun rep hrep => hnamed rep (hreps rep hrep)
      obtain ⟨hmem, hsummary⟩ := hfiled h' ps hps p hp
      exact (hnamed p hmem).trans hsummary

end Shared

/-- **The texts of two events tell their prompt fields** exactly if no separator shifts one to the other; and in
every run over events that are told apart, each shared decision was given for equal prompt fields. -/
theorem summary_exact {hash : List Char → H} (hinjective : Function.Injective hash) :
    (∀ e e' : EventData, (e.summaryText = e'.summaryText → e.promptFields = e'.promptFields) ↔
      Apart e.promptFields e'.promptFields) ∧
    ∀ (config : CacheConfig) (events : ℕ → EventData),
      (∀ j k, Apart (events j).promptFields (events k).promptFields) → ∀ acts : List (Act F),
        SharedRightly events (Runs.run (step hash config events) start acts) := by
  refine ⟨summaryText_iff, fun config events hapart acts => ?_⟩
  have hstart : Shared hash events (start : Evaluations F H) := shared_start
  have hstep : ∀ (s : Evaluations F H) (act : Act F), Shared hash events s →
      Shared hash events (step hash config events s act) := fun _ act h => h.step act
  have hshared := Runs.run_of_step hstep hstart acts
  intro a ha
  obtain ⟨d, hd, hfilter, hdecision, hhash⟩ := hshared.answered a ha
  exact ⟨d, hd, hfilter, hdecision, (summaryText_iff _ _).mpr (hapart _ _) (hinjective hhash)⟩

/-- Two evaluations of one event and one of another, the first two asked in one batch and the third later. -/
def threeEvents : ℕ → EventData
  | 2 => ⟨some ['b'], some ['T'], none, none⟩
  | _ => ⟨some ['a'], some ['T'], none, some ['d']⟩

theorem summary_exact_threeEvents :
    (∀ e e' : EventData, (e.summaryText = e'.summaryText → e.promptFields = e'.promptFields) ↔
      Apart e.promptFields e'.promptFields) ∧
    SharedRightly threeEvents (Runs.run (step (fun text => text) ⟨8, 0⟩ threeEvents) start
      [.bucket 0 [0, 1] (fun _ => .decided true) (fun _ => 0), .lookup 0 2 1, .lookup 0 0 1]) := by
  have hexact := @summary_exact ℕ (List Char) _ _ (fun text => text) Function.injective_id
  refine ⟨hexact.1, hexact.2 ⟨8, 0⟩ threeEvents (fun j k => (summaryText_iff _ _).mp ?_) _⟩
  have hcases : ∀ i, threeEvents i = threeEvents 2 ∨ threeEvents i = threeEvents 0 := by
    intro i
    by_cases h : i = 2
    · exact Or.inl (by rw [h])
    · exact Or.inr (by simp [threeEvents])
  rcases hcases j with hj | hj <;> rcases hcases k with hk | hk <;> rw [hj, hk] <;> decide

/-- A type that runs on into the name. -/
def pipedType : EventData := ⟨some ['c'], some ['a', '|', 'b'], none, some ['d']⟩

def pipedName : EventData := ⟨some ['b', '|', 'c'], some ['a'], none, some ['d']⟩

theorem piped_diverges :
    ¬(pipedType.summaryText = pipedName.summaryText → pipedType.promptFields = pipedName.promptFields) := by
  decide

end EventSummary

end Khora
