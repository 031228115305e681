import Khora.Engine.ChecksumIdentity
import Khora.Lib.Table

/-!
# What becomes of the inputs of a batch

Inputs of one `external_id` meet in the unique index, and inputs without one meet the row that the store
returns for their checksum.

* `afterReplace_store` — the pre-pass leaves the stored documents with the content of the last input.
* `created_of_free` — stage 1 creates every input whose `external_id` no document and no other input has.
* `inputs_kept` — an input without `external_id` is stored; an `external_id` has its last content exactly if
  its other inputs are told as duplicates.
* `sameExternalId_diverges` — two new versions of one document in a batch.
-/

namespace Khora

namespace RememberBatch

variable {Id S K : Type} [DecidableEq Id] [DecidableEq S] [DecidableEq K] {env : Env Id S K}
  {docs : List (Entry S)} {store : List (Document Id S K)}

/-! ## Namespaces -/

/-- The unique index over `external_id`. -/
def UniqueExternal (store : List (Document Id S K)) : Prop :=
  ∀ d ∈ store, ∀ d' ∈ store, d.externalId ≠ none → d.externalId = d'.externalId → d = d'

/-- The rows of a namespace: the keys are unique, the checksums are those of the contents, and the ids of
new documents are new. -/
structure Valid (env : Env Id S K) (store : List (Document Id S K)) : Prop where
  ids : (store.map Document.id).Nodup
  external : UniqueExternal store
  checksums : ∀ d ∈ store, d.checksum = env.sha256 d.content
  fresh : ∀ d ∈ store, ∀ i, d.id ≠ env.newId i

/-- No call fails on its own; checksums and new ids are distinct. -/
structure Calm (env : Env Id S K) : Prop where
  replacement : ∀ i, ∃ n, env.replacement i = .ok n
  creation : ∀ i, ∃ n, env.creation i = .chunked n
  sha256 : Function.Injective env.sha256
  newId : Function.Injective env.newId

/-! ## The pre-pass -/

/-- A stored document of an `external_id` of the batch, with the content of its last input. -/
def refreshedBy (env : Env Id S K) (docs : List (Entry S)) (i : ℕ) (d : Document Id S K) : Document Id S K :=
  match docs[i]?, env.replacement i with
  | some e, .ok n => { d with
      content := e.content
      checksum := env.sha256 e.content
      sessionId := e.sessionId <|> d.sessionId
      status := .completed
      updatedAt := env.now
      chunkCount := n }
  | _, _ => d

/-- The stored documents, brought up to date by the batch. -/
def refreshed (env : Env Id S K) (docs : List (Entry S)) (store : List (Document Id S K)) :
    List (Document Id S K) :=
  store.map fun d =>
    match d.externalId.bind (extIdToIdx docs).get? with
    | some i => refreshedBy env docs i d
    | none => d

omit [DecidableEq Id] [DecidableEq S] [DecidableEq K] in
theorem refreshedBy_key (i : ℕ) (d : Document Id S K) :
    (refreshedBy env docs i d).id = d.id ∧ (refreshedBy env docs i d).externalId = d.externalId := by
  unfold refreshedBy
  split <;> exact ⟨rfl, rfl⟩

omit [DecidableEq S] [DecidableEq K] in
theorem foldl_replaceStep_store (hcalm : Calm env) (hstore : Valid env store) {ps : List (String × ℕ)}
    (hps : ∀ p ∈ ps, p.2 < docs.length) {f : Document Id S K → Document Id S K}
    (hf : ∀ d, (f d).id = d.id ∧ (f d).externalId = d.externalId) {s : State Id S K}
    (hs : s.store = store.map f) :
    (ps.foldl (replaceStep env docs store) s).store = store.map fun d =>
      ps.foldl (fun d p => if d.externalId = some p.1 then refreshedBy env docs p.2 d else d) (f d) := by
  induction ps generalizing f s with
  | nil => exact hs
  | cons p ps ih =>
      rw [List.forall_mem_cons] at hps
      simp only [List.foldl_cons]
      have hf' : ∀ d : Document Id S K,
          (if (f d).externalId = some p.1 then refreshedBy env docs p.2 (f d) else f d).id = d.id ∧
          (if (f d).externalId = some p.1 then refreshedBy env docs p.2 (f d) else f d).externalId =
            d.externalId := by
        intro d
        split
        · exact ⟨(refreshedBy_key p.2 (f d)).1.trans (hf d).1, (refreshedBy_key p.2 (f d)).2.trans (hf d).2⟩
        · exact hf d
      refine @ih hps.2 (fun d => if (f d).externalId = some p.1 then refreshedBy env docs p.2 (f d) else f d)
        hf' (replaceStep env docs store s p) ?_
      have he : docs[p.2]? = some docs[p.2] := List.getElem?_eq_getElem hps.1
      cases hget : getDocumentByExternalId store p.1 with
      | none =>
          have hstep : replaceStep env docs store s p = s := by simp only [replaceStep, hget]
          rw [hstep, hs]
          apply List.map_congr_left
          intro d hd
          have hne : d.externalId ≠ some p.1 := by
            have := List.find?_eq_none.mp hget d hd
            simpa using this
          rw [if_neg]
          rw [(hf d).2]
          exact hne
      | some existing =>
          have hfound := List.find?_some hget
          have hmem := List.mem_of_find?_eq_some hget
          have hext : existing.externalId = some p.1 := by simpa using hfound
          have hstep : (replaceStep env docs store s p).store =
              replaceDocument env docs[p.2] p.2 existing s.store := by
            simp only [replaceStep, hget, he]
          rw [hstep, hs, replaceDocument, List.map_map]
          apply List.map_congr_left
          intro d hd
          obtain ⟨n, hn⟩ := hcalm.replacement p.2
          -- the row of the id is the row of the `external_id`
          have hrow : (f d).id = existing.id ↔ (f d).externalId = some p.1 := by
            rw [(hf d).1, (hf d).2]
            constructor
            · intro hid
              rw [List.inj_on_of_nodup_map hstore.ids hd hmem hid]
              exact hext
            · intro hdx
              rw [hstore.external d hd existing hmem (by rw [hdx]; exact Option.some_ne_none _) (hdx.trans hext.symm)]
          by_cases h : (f d).externalId = some p.1
          · simp only [Function.comp_apply, if_pos h, if_pos (hrow.mpr h), refreshedBy, he, hn]
          · simp only [Function.comp_apply, if_neg h, if_neg fun hid => h (hrow.mp hid)]

omit [DecidableEq S] [DecidableEq K] in
/-- **The pre-pass** brings the stored documents up to date. -/
theorem afterReplace_store (hcalm : Calm env) (hstore : Valid env store) :
    (replaceStored env docs (start docs store)).store = refreshed env docs store := by
  have h := @foldl_replaceStep_store Id S K _ env docs store hcalm hstore (extIdToIdx docs).items
    (fun p hp => (mem_extIdToIdx hp).1) id (fun d => ⟨rfl, rfl⟩) (start docs store) (List.map_id _).symm
  refine h.trans (List.map_congr_left fun d _ => ?_)
  have hn : ((extIdToIdx docs).items.map fun p => some p.1).Nodup := by
    have := (extIdToIdx docs).nodup.map fun a b (h : some a = some b) => Option.some.inj h
    rwa [List.map_map] at this
  cases hget : d.externalId.bind (extIdToIdx docs).get? with
  | some i =>
      obtain ⟨x, hx, hi⟩ := Option.bind_eq_some_iff.mp hget
      exact @Table.foldl_key_of_mem _ _ _ Document.externalId _ (fun p : String × ℕ => some p.1)
        (fun p d => refreshedBy env docs p.2 d) (fun p d => (refreshedBy_key p.2 d).2) _ hn _
        (OrderedDict.get?_eq_some_iff.mp hi) d hx
  | none =>
      refine @Table.foldl_key_of_not_mem _ _ _ Document.externalId _ (fun p : String × ℕ => some p.1)
        (fun p d => refreshedBy env docs p.2 d) _ d fun hmem => ?_
      obtain ⟨p, hp, hx⟩ := List.mem_map.mp hmem
      rw [← hx, Option.bind_some, OrderedDict.get?_eq_some_iff.mpr hp] at hget
      cases hget

omit [DecidableEq Id] [DecidableEq S] [DecidableEq K] in
/-- The keys stay; a document is refreshed or as it was. -/
theorem mem_refreshed {d : Document Id S K} (h : d ∈ refreshed env docs store) :
    ∃ d₀ ∈ store, d.id = d₀.id ∧ d.externalId = d₀.externalId ∧
      (d = d₀ ∨ ∃ x i, d₀.externalId = some x ∧ (extIdToIdx docs).get? x = some i ∧
        d = refreshedBy env docs i d₀) := by
  obtain ⟨d₀, hd₀, rfl⟩ := List.mem_map.mp h
  refine ⟨d₀, hd₀, ?_⟩
  cases hget : d₀.externalId.bind (extIdToIdx docs).get? with
  | none => exact ⟨rfl, rfl, Or.inl rfl⟩
  | some i =>
      obtain ⟨x, hx, hi⟩ := Option.bind_eq_some_iff.mp hget
      exact ⟨(refreshedBy_key i d₀).1, (refreshedBy_key i d₀).2, Or.inr ⟨x, i, hx, hi, rfl⟩⟩

omit [DecidableEq Id] [DecidableEq S] [DecidableEq K] in
theorem valid_refreshed (hstore : Valid env store) : Valid env (refreshed env docs store) := by
  have hids : (refreshed env docs store).map Document.id = store.map Document.id := by
    rw [refreshed, List.map_map]
    apply List.map_congr_left
    intro d _
    simp only [Function.comp_apply]
    split
    · exact (refreshedBy_key _ d).1
    · rfl
  constructor
  · rw [hids]
    exact hstore.ids
  · intro d hd d' hd' hne heq
    obtain ⟨d₀, hd₀, hid, hext, -⟩ := mem_refreshed hd
    obtain ⟨d₀', hd₀', hid', hext', -⟩ := mem_refreshed hd'
    have hsame := hstore.external d₀ hd₀ d₀' hd₀' (hext ▸ hne) (by rw [← hext, ← hext', heq])
    have hn : ((refreshed env docs store).map Document.id).Nodup := hids ▸ hstore.ids
    exact List.inj_on_of_nodup_map hn hd hd' (by rw [hid, hid', hsame])
  · intro d hd
    obtain ⟨d₀, hd₀, -, -, rfl | ⟨x, i, -, -, rfl⟩⟩ := mem_refreshed hd
    · exact hstore.checksums d hd₀
    · unfold refreshedBy
      split
      · rfl
      · exact hstore.checksums d₀ hd₀
  · intro d hd i
    obtain ⟨d₀, hd₀, hid, -⟩ := mem_refreshed hd
    rw [hid]
    exact hstore.fresh d₀ hd₀ i

omit [DecidableEq Id] [DecidableEq S] [DecidableEq K] in
theorem refreshed_external {x : String} :
    (∀ d ∈ refreshed env docs store, d.externalId ≠ some x) ↔ ∀ d ∈ store, d.externalId ≠ some x := by
  have hmap : (refreshed env docs store).map Document.externalId = store.map Document.externalId := by
    rw [refreshed, List.map_map]
    apply List.map_congr_left
    intro d _
    simp only [Function.comp_apply]
    split
    · exact (refreshedBy_key _ d).2
    · rfl
  rw [← List.forall_mem_map (P := (· ≠ some x)), hmap, List.forall_mem_map]

/-! ## Stage 1 -/

/-- Stage 1 after the tasks `order`. -/
structure CreatedAll (env : Env Id S K) (docs : List (Entry S)) (store : List (Document Id S K))
    (order : List ℕ) (s : List (Document Id S K) × (ℕ → DocState Id)) : Prop where
  keeps : ∀ d ∈ store, d ∈ s.1
  origin : ∀ d ∈ s.1, d ∈ store ∨ ∃ j ∈ order, ∃ e, docs[j]? = some e ∧ d = newDocument env j e
  created : ∀ j id n, s.2 j = .created id n →
    ∃ e, docs[j]? = some e ∧ id = env.newId j ∧ newDocument env j e ∈ s.1
  external : UniqueExternal s.1

omit [DecidableEq Id] [DecidableEq S] [DecidableEq K] in
theorem createDocument_eq_some_iff {d : Document Id S K} {store' : List (Document Id S K)} :
    createDocument store d = some store' ↔
      store' = store ++ [d] ∧ (d.externalId ≠ none → ∀ d' ∈ store, d'.externalId ≠ d.externalId) := by
  unfold createDocument
  split
  · rename_i h
    obtain ⟨hne, d', hd', heq⟩ := h
    exact iff_of_false nofun fun hand => hand.2 hne d' hd' heq
  · rename_i h
    rw [Option.some_inj, eq_comm]
    refine (and_iff_left fun hne d' hd' heq => h ⟨hne, d', hd', heq⟩).symm

omit [DecidableEq Id] [DecidableEq S] [DecidableEq K] in
theorem createStep_createdAll {order : List ℕ} {s : List (Document Id S K) × (ℕ → DocState Id)}
    (h : CreatedAll env docs store order s) (idx : ℕ) :
    CreatedAll env docs store (order ++ [idx]) (createStep env docs s idx) := by
  have horigin : ∀ d ∈ s.1, d ∈ store ∨ ∃ j ∈ order ++ [idx], ∃ e, docs[j]? = some e ∧
      d = newDocument env j e := by
    intro d hd
    refine (h.origin d hd).imp_right ?_
    rintro ⟨j, hj, hrest⟩
    exact ⟨j, List.mem_append_left _ hj, hrest⟩
  -- a task that adds its document, and one that does not
  have hadd : ∀ (e : Entry S) (store' : List (Document Id S K)) (o : DocState Id), docs[idx]? = some e →
      createDocument s.1 (newDocument env idx e) = some store' →
      (∀ id n, o = .created id n → id = env.newId idx) →
      CreatedAll env docs store (order ++ [idx]) (store', Function.update s.2 idx o) := by
    intro e store' o he hcreate ho
    obtain ⟨rfl, hfree⟩ := createDocument_eq_some_iff.mp hcreate
    constructor
    · exact fun d hd => List.mem_append_left _ (h.keeps d hd)
    · intro d hd
      rcases List.mem_append.mp hd with hd | hd
      · exact horigin d hd
      · exact Or.inr ⟨idx, List.mem_append_right _ List.mem_cons_self, e, he, List.mem_singleton.mp hd⟩
    · intro j id n hj
      have hj' : Function.update s.2 idx o j = .created id n := hj
      by_cases heq : j = idx
      · subst heq
        rw [Function.update_self] at hj'
        exact ⟨e, he, ho id n hj', List.mem_append_right _ List.mem_cons_self⟩
      · rw [Function.update_of_ne heq] at hj'
        obtain ⟨e', he', hid, hmem⟩ := h.created j id n hj'
        exact ⟨e', he', hid, List.mem_append_left _ hmem⟩
    · intro d hd d' hd' hne heq
      rcases List.mem_append.mp hd with hd | hd <;> rcases List.mem_append.mp hd' with hd' | hd'
      · exact h.external d hd d' hd' hne heq
      · rw [List.mem_singleton.mp hd'] at heq
        exact absurd heq (hfree (heq ▸ hne) d hd)
      · rw [List.mem_singleton.mp hd] at heq hne
        exact absurd heq.symm (hfree hne d' hd')
      · rw [List.mem_singleton.mp hd, List.mem_singleton.mp hd']
  have hkeep : ∀ document error, CreatedAll env docs store (order ++ [idx])
      (s.1, Function.update s.2 idx (.failed document error)) := by
    intro document error
    refine ⟨h.keeps, horigin, fun j id n hj => ?_, h.external⟩
    have hj' : Function.update s.2 idx (.failed document error) j = .created id n := hj
    by_cases heq : j = idx
    · rw [heq, Function.update_self] at hj'
      cases hj'
    · rw [Function.update_of_ne heq] at hj'
      exact h.created j id n hj'
  unfold createStep
  split
  · exact hkeep _ _
  · exact ⟨h.keeps, horigin, h.created, h.external⟩
  · rename_i he
    split
    · rename_i hcreate
      exact hadd _ _ _ he hcreate nofun
    · exact hkeep _ _
  · rename_i he
    split
    · rename_i hcreate
      refine hadd _ _ _ he hcreate ?_
      rintro id n ⟨⟩
      rfl
    · exact hkeep _ _

omit [DecidableEq Id] [DecidableEq S] [DecidableEq K] in
theorem foldl_createStep_createdAll (hstore : UniqueExternal store) (states : ℕ → DocState Id)
    (hstates : ∀ j id n, states j ≠ .created id n) (order : List ℕ) :
    CreatedAll env docs store order (order.foldl (createStep env docs) (store, states)) := by
  induction order using List.reverseRecOn with
  | nil => exact ⟨fun d hd => hd, fun d hd => Or.inl hd, fun j id n hj => absurd hj (hstates j id n), hstore⟩
  | append_singleton order idx ih =>
      rw [List.foldl_append]
      exact createStep_createdAll ih idx

omit [DecidableEq Id] [DecidableEq S] [DecidableEq K] in
theorem createStep_chunked {s : List (Document Id S K) × (ℕ → DocState Id)} {idx n : ℕ} {e : Entry S}
    {store' : List (Document Id S K)} (hchunked : env.creation idx = .chunked n) (he : docs[idx]? = some e)
    (hcreate : createDocument s.1 (newDocument env idx e) = some store') :
    createStep env docs s idx = (store', Function.update s.2 idx (.created (env.newId idx) n)) := by
  unfold createStep
  simp only [hchunked, he, hcreate]

/-- No document and no other input has the `external_id` of the input. -/
def Free (docs : List (Entry S)) (store : List (Document Id S K)) (order : List ℕ) (i : ℕ) : Prop :=
  ∀ x, (docs[i]?).bind Entry.externalId = some x → (∀ d ∈ store, d.externalId ≠ some x) ∧
    ∀ j ∈ order, (docs[j]?).bind Entry.externalId = some x → j = i

omit [DecidableEq Id] [DecidableEq S] [DecidableEq K] in
theorem createStep_other {s : List (Document Id S K) × (ℕ → DocState Id)} {i idx : ℕ} (h : i ≠ idx) :
    (createStep env docs s idx).2 i = s.2 i := by
  unfold createStep
  split
  · exact Function.update_of_ne h _ _
  · rfl
  · split <;> exact Function.update_of_ne h _ _
  · split <;> exact Function.update_of_ne h _ _

omit [DecidableEq Id] [DecidableEq S] [DecidableEq K] in
/-- **A free input** is created, in whatever order the tasks insert. -/
theorem created_of_free (hcalm : Calm env) (hstore : UniqueExternal store) {states : ℕ → DocState Id}
    (hstates : ∀ j id n, states j ≠ .created id n) {order : List ℕ} (hn : order.Nodup) {i : ℕ}
    (hi : i ∈ order) (hlt : i < docs.length) (hfree : Free docs store order i) :
    ∃ n, (order.foldl (createStep env docs) (store, states)).2 i = .created (env.newId i) n := by
  induction order using List.reverseRecOn with
  | nil => exact absurd hi List.not_mem_nil
  | append_singleton order idx ih =>
      rw [List.nodup_append] at hn
      rw [List.foldl_append]
      show ∃ n, (createStep env docs _ idx).2 i = _
      by_cases heq : i = idx
      · subst heq
        have hnot : i ∉ order := fun hmem => hn.2.2 i hmem i List.mem_cons_self rfl
        have hall := @foldl_createStep_createdAll Id S K env docs store hstore states hstates order
        obtain ⟨n, hchunked⟩ := hcalm.creation i
        obtain ⟨e, he⟩ : ∃ e, docs[i]? = some e := ⟨_, List.getElem?_eq_getElem hlt⟩
        -- no document that is there by now has the `external_id`
        have hcreate : createDocument (order.foldl (createStep env docs) (store, states)).1
            (newDocument env i e) =
              some ((order.foldl (createStep env docs) (store, states)).1 ++ [newDocument env i e]) := by
          refine createDocument_eq_some_iff.mpr ⟨rfl, fun hne d hd heq => ?_⟩
          obtain ⟨x, hx⟩ := Option.ne_none_iff_exists'.mp hne
          have hbind : (docs[i]?).bind Entry.externalId = some x := by
            rw [he, Option.bind_some]
            exact hx
          obtain ⟨hnone, hother⟩ := hfree x hbind
          rcases hall.origin d hd with hd | ⟨j, hj, a, ha, rfl⟩
          · exact hnone d hd (heq.trans hx)
          · have hji := hother j (List.mem_append_left _ hj) (by
              rw [ha, Option.bind_some]
              exact heq.trans hx)
            exact hnot (hji ▸ hj)
        rw [createStep_chunked hchunked he hcreate]
        exact ⟨n, Function.update_self _ _ _⟩
      · rw [createStep_other heq]
        have hmem : i ∈ order := (List.mem_append.mp hi).resolve_right fun h => heq (List.mem_singleton.mp h)
        refine ih hn.1 hmem fun x hx => ?_
        obtain ⟨hnone, hother⟩ := hfree x hx
        exact ⟨hnone, fun j hj => hother j (List.mem_append_left _ hj)⟩

/-! ## Accepted inputs -/

/-- The last input of an `external_id` that is stored. -/
def IsReplaced (docs : List (Entry S)) (store : List (Document Id S K)) (i : ℕ) : Prop :=
  ∃ x, (extIdToIdx docs).get? x = some i ∧ ∃ d ∈ store, d.externalId = some x

/-- Every input of an `external_id`, save the one that replaces, repeats a stored document, or the inputs
of the `external_id` are one and the same and it is new. -/
def OneVersion (env : Env Id S K) (docs : List (Entry S)) (store : List (Document Id S K)) : Prop :=
  ∀ i e x, docs[i]? = some e → e.externalId = some x → ¬ IsReplaced docs store i →
    dbDup env (refreshed env docs store) e ≠ none ∨ (∀ d ∈ store, d.externalId ≠ some x) ∧
      ∀ e' ∈ docs, e'.externalId = some x → identityKey env e' = identityKey env e

omit [DecidableEq Id] in
/-- The row of an input that repeats a stored document. -/
theorem dbDup_row {e : Entry S} {d : Document Id S K} (h : dbDup env store e = some d) :
    d ∈ store ∧ d.checksum = env.sha256 e.content ∧
      (∀ x, e.externalId = some x → d.externalId = some x) ∧
      ∀ x, e.sessionId = some x → d.sessionId = some x := by
  have hmem := mem_of_dbDup h
  unfold dbDup at h
  split at h
  · obtain ⟨hrow, happlies⟩ := Option.filter_eq_some_iff.mp h
    have hfound := List.find?_some hrow
    rw [Bool.and_eq_true, decide_eq_true_iff] at hfound
    exact ⟨hmem, hfound.1, checksumDedupApplies_iff.mp happlies⟩
  · cases h

section Trace

variable {s : State Id S K} {recs₀ recs₁ recs₂ : List (ℕ × Outcome Id)}

theorem BatchTrace.handled_iff (h : BatchTrace env docs store s recs₀ recs₁ recs₂) (i : ℕ) :
    i ∈ (afterReplace env docs store).handled ↔ IsReplaced docs store i := by
  have hstored : ∀ x, (getDocumentByExternalId store x).isSome = true ↔ ∃ d ∈ store, d.externalId = some x := by
    intro x
    rw [getDocumentByExternalId, List.find?_isSome]
    simp
  rw [h.handled, h.replacedIdx]
  constructor
  · intro hi
    obtain ⟨p, hp, rfl⟩ := List.mem_map.mp hi
    obtain ⟨hitem, hsome⟩ := List.mem_filter.mp hp
    exact ⟨p.1, OrderedDict.get?_eq_some_iff.mpr hitem, (hstored p.1).mp hsome⟩
  · rintro ⟨x, hget, hd⟩
    exact List.mem_map.mpr ⟨(x, i), List.mem_filter.mpr
      ⟨OrderedDict.get?_eq_some_iff.mp hget, (hstored x).mpr hd⟩, rfl⟩

/-- An input that is neither replaced nor stored is left, or an earlier one of its identity is. -/
theorem BatchTrace.winner (h : BatchTrace env docs store s recs₀ recs₁ recs₂) {i : ℕ} {e : Entry S}
    (he : docs[i]? = some e) (hnot : ¬ IsReplaced docs store i)
    (hnone : dbDup env (afterReplace env docs store).store e = none) :
    ∃ j ∈ (afterSkips env docs store).active, SameKey env docs j i := by
  rcases h.deduped.cover i (List.getElem?_eq_some_iff.mp he).1 with hhandled | hmem | hactive
  · exact absurd ((h.handled_iff i).mp hhandled) hnot
  · obtain ⟨p, hp, rfl⟩ := List.mem_map.mp hmem
    rcases h.deduped.only p hp with ⟨e', d, he', hdup, -⟩ | ⟨e', key, j, -, -, -, hj, -, hsame, -⟩
    · cases he.symm.trans he'
      rw [hnone] at hdup
      cases hdup
    · exact ⟨j, hj, hsame⟩
  · exact ⟨i, hactive, e, e, he, he, rfl⟩

theorem BatchTrace.createdAll (h : BatchTrace env docs store s recs₀ recs₁ recs₂) (hcalm : Calm env)
    (hstore : Valid env store) :
    CreatedAll env docs (refreshed env docs store) (env.insertOrder (afterSkips env docs store).active)
      (createAll env docs (afterSkips env docs store)) := by
  have hrefreshed : (afterSkips env docs store).store = refreshed env docs store :=
    h.deduped.frame.1.trans (afterReplace_store hcalm hstore)
  rw [createAll, hrefreshed]
  exact foldl_createStep_createdAll (valid_refreshed hstore).external _ (fun _ _ _ h => by cases h) _

end Trace

omit [DecidableEq Id] [DecidableEq S] [DecidableEq K] in
theorem created_of_left {s : State Id S K} (hcalm : Calm env) (hstore : Valid env s.store) (hn : s.active.Nodup)
    {i : ℕ} (hi : i ∈ s.active) (hlt : i < docs.length) (hfree : Free docs s.store s.active i) :
    ∃ n, (createAll env docs s).2 i = .created (env.newId i) n := by
  have hperm := env.insertOrder_perm s.active
  refine created_of_free hcalm hstore.external (fun _ _ _ h => by cases h) (hperm.nodup_iff.mpr hn)
    (hperm.mem_iff.mpr hi) hlt fun x hx => ?_
  obtain ⟨hnone, hother⟩ := hfree x hx
  exact ⟨hnone, fun k hk => hother k (hperm.mem_iff.mp hk)⟩

omit [DecidableEq Id] [DecidableEq S] [DecidableEq K] in
/-- **The inputs that are left are all created** exactly if each is free. -/
theorem created_iff_free {s : State Id S K} (hcalm : Calm env) (hstore : Valid env s.store)
    (hn : s.active.Nodup) (hlt : ∀ i ∈ s.active, i < docs.length) :
    (∀ i ∈ s.active, ∃ n, (createAll env docs s).2 i = .created (env.newId i) n) ↔
      ∀ i ∈ s.active, Free docs s.store s.active i := by
  have hall : CreatedAll env docs s.store (env.insertOrder s.active) (createAll env docs s) :=
    foldl_createStep_createdAll hstore.external _ (fun _ _ _ h => by cases h) _
  constructor
  · intro hcreated i hi x hx
    obtain ⟨n, hin⟩ := hcreated i hi
    obtain ⟨e, he, -, hmem⟩ := hall.created i _ n hin
    rw [he, Option.bind_some] at hx
    have hne : (newDocument env i e).externalId ≠ none := by
      rw [show (newDocument env i e).externalId = some x from hx]
      exact Option.some_ne_none x
    refine ⟨fun d hd hdx => ?_, fun j hj hjx => ?_⟩
    · have hsame := hall.external _ hmem d (hall.keeps d hd) hne (hx.trans hdx.symm)
      exact hstore.fresh d hd i (congrArg Document.id hsame).symm
    · obtain ⟨m, hjm⟩ := hcreated j hj
      obtain ⟨a, ha, -, hmem'⟩ := hall.created j _ m hjm
      rw [ha, Option.bind_some] at hjx
      have hsame := hall.external _ hmem _ hmem' hne (hx.trans hjx.symm)
      exact (hcalm.newId (congrArg Document.id hsame)).symm
  · intro hfree i hi
    exact created_of_left hcalm hstore hn hi (hlt i hi) (hfree i hi)

/-- **The inputs that are left are free** exactly if each `external_id` comes in one version. -/
theorem BatchTrace.free_iff {s : State Id S K} {recs₀ recs₁ recs₂ : List (ℕ × Outcome Id)}
    (h : BatchTrace env docs store s recs₀ recs₁ recs₂) (hcalm : Calm env) (hstore : Valid env store) :
    (∀ i ∈ (afterSkips env docs store).active,
      Free docs (refreshed env docs store) (afterSkips env docs store).active i) ↔
      OneVersion env docs store := by
  have hrefreshed : (afterReplace env docs store).store = refreshed env docs store :=
    afterReplace_store hcalm hstore
  have hleft : ∀ i ∈ (afterSkips env docs store).active,
      ∃ e, docs[i]? = some e ∧ dbDup env (refreshed env docs store) e = none := by
    intro i hi
    obtain ⟨e, he, hnone, -⟩ := h.deduped.active i hi
    exact ⟨e, he, hrefreshed ▸ hnone⟩
  constructor
  · intro hfree i e x he hx hnot
    by_cases hdup : dbDup env (refreshed env docs store) e = none
    · obtain ⟨j, hj, hsame⟩ := h.winner he hnot (hrefreshed ▸ hdup)
      obtain ⟨a, e', ha, he', hkey⟩ := hsame
      cases he.symm.trans he'
      have hext : (docs[j]?).bind Entry.externalId = some x := by
        rw [ha, Option.bind_some, ← hx]
        exact congrArg (fun k => k.2.1) hkey
      obtain ⟨hnew, hother⟩ := hfree j hj x hext
      refine Or.inr ⟨refreshed_external.mp hnew, fun b hb hbx => ?_⟩
      obtain ⟨k, hk⟩ := List.mem_iff_getElem?.mp hb
      -- an input of a new `external_id` is neither replaced nor stored
      have hnot' : ¬ IsReplaced docs store k := by
        rintro ⟨y, hget, d, hd, hdy⟩
        have hy := (get?_extIdToIdx.mp hget).2.1
        rw [hk, Option.bind_some, hbx] at hy
        cases hy
        exact refreshed_external.mp hnew d hd hdy
      have hnone : dbDup env (refreshed env docs store) b = none := by
        rw [Option.eq_none_iff_forall_ne_some]
        intro d hd
        obtain ⟨hmem, -, hdx, -⟩ := dbDup_row hd
        exact hnew d hmem (hdx x hbx)
      obtain ⟨j', hj', c, b', hc, hb', hkey'⟩ := h.winner hk hnot' (hrefreshed ▸ hnone)
      cases hk.symm.trans hb'
      have hjj : j' = j := hother j' hj' (by
        rw [hc, Option.bind_some, ← hbx]
        exact congrArg (fun k => k.2.1) hkey')
      subst hjj
      cases ha.symm.trans hc
      exact hkey'.symm.trans hkey
    · exact Or.inl hdup
  · intro hversion i hi x hx
    obtain ⟨e, he, hnone⟩ := hleft i hi
    rw [he, Option.bind_some] at hx
    have hnot : ¬ IsReplaced docs store i := fun hrep =>
      (h.deduped.bounds i (List.mem_append_right _ hi)).2 ((h.handled_iff i).mpr hrep)
    obtain ⟨hnew, hsame⟩ := (hversion i e x he hx hnot).resolve_left fun hne => hne hnone
    refine ⟨refreshed_external.mpr hnew, fun j hj hjx => ?_⟩
    obtain ⟨a, ha, -⟩ := hleft j hj
    rw [ha, Option.bind_some] at hjx
    exact h.deduped.unique hj hi ⟨a, e, ha, he, hsame a (List.mem_of_getElem? ha) hjx⟩

/-! ## The result -/

/-- No input is refused, and the documents of an `external_id` have the content of its last input. -/
structure LastVersions (docs : List (Entry S)) (r : BatchResult Id S K) : Prop where
  accepted : ∀ entry ∈ r.perDocument, entry.error = none
  content : ∀ (i : ℕ) (e : Entry S) (x : String), docs[i]? = some e → e.externalId = some x →
    (∀ j, i < j → (docs[j]?).bind Entry.externalId ≠ some x) →
      (∃ d ∈ r.store, d.externalId = some x) ∧ ∀ d ∈ r.store, d.externalId = some x → d.content = e.content

/-- The entry of the input names a stored document of its content, and of a session that `sameSession`
allows. -/
def EntryStored (r : BatchResult Id S K) (sameSession : Option S → Option S → Prop) (i : ℕ) (e : Entry S) :
    Prop :=
  ∃ entry d, r.perDocument[i]? = some entry ∧ entry.error = none ∧ d ∈ r.store ∧
    entry.documentId = some d.id ∧ d.content = e.content ∧ sameSession e.sessionId d.sessionId

/-- Nothing is lost: every input without `external_id` is stored, in its session. -/
def KeepsInputs (docs : List (Entry S)) (r : BatchResult Id S K) : Prop :=
  LastVersions docs r ∧ ∀ i e, docs[i]? = some e → e.externalId = none → EntryStored r Eq i e

/-- The session that the input names, if it names one. -/
def NamedSession (named stored : Option S) : Prop := ∀ x, named = some x → stored = some x

section Result

variable {s : State Id S K} {recs₀ recs₁ recs₂ : List (ℕ × Outcome Id)}

theorem BatchTrace.processed (h : BatchTrace env docs store s recs₀ recs₁ recs₂) {i n : ℕ} {id : Id}
    (hi : i ∈ (afterSkips env docs store).active)
    (hstate : (createAll env docs (afterSkips env docs store)).2 i = .created id n) :
    (i, .processed id n) ∈ recs₂ := by
  refine h.created.mem_iff.mpr (List.mem_map.mpr ⟨i, hi, ?_⟩)
  simp only [stage1Outcome, hstate]

/-- The stored documents are those that stage 1 leaves. -/
theorem BatchTrace.exists_row (h : BatchTrace env docs store s recs₀ recs₁ recs₂) {d : Document Id S K}
    (hd : d ∈ (createAll env docs (afterSkips env docs store)).1) :
    ∃ d' ∈ s.store, d'.id = d.id ∧ d'.content = d.content ∧ d'.externalId = d.externalId ∧
      d'.sessionId = d.sessionId := by
  obtain ⟨d', hd', hw⟩ := exists_written h.stored hd
  simp only [Document.written, Prod.mk.injEq] at hw
  exact ⟨d', hd', hw.1, hw.2.1, hw.2.2.2.1, hw.2.2.2.2⟩

/-- **No input is refused** exactly if each that is left is created. -/
theorem BatchTrace.accepted_iff (h : BatchTrace env docs store s recs₀ recs₁ recs₂) (hcalm : Calm env)
    (hstore : Valid env store) : (∀ entry ∈ (finish docs s).perDocument, entry.error = none) ↔
      ∀ i ∈ (afterSkips env docs store).active, ∃ n,
        (createAll env docs (afterSkips env docs store)).2 i = .created (env.newId i) n := by
  have hall := h.createdAll hcalm hstore
  constructor
  · intro haccepted i hi
    have hrec : (i, stage1Outcome (createAll env docs (afterSkips env docs store)).2 i) ∈ recs₂ :=
      h.created.mem_iff.mpr (List.mem_map_of_mem hi)
    obtain ⟨id, hentry, -⟩ := h.entry (List.mem_append_right _ hrec)
    have hnone := haccepted _ (List.mem_of_getElem? hentry)
    cases hstate : (createAll env docs (afterSkips env docs store)).2 i with
    | failed document error =>
        simp only [stage1Outcome, hstate, entryOf] at hnone
        cases hnone
    | created id n =>
        obtain ⟨e, -, rfl, -⟩ := hall.created i id n hstate
        exact ⟨n, rfl⟩
  · intro hcreated entry hentry
    obtain ⟨i, hi⟩ := List.mem_iff_getElem?.mp hentry
    have hlt : i < docs.length := by
      by_contra hge
      rw [(h.past (Nat.le_of_not_lt hge)).1] at hi
      cases hi
    obtain ⟨o, ho⟩ := h.filled hlt
    obtain ⟨id, hfinal, -⟩ := h.entry ho
    cases hi.symm.trans hfinal
    show (entryOf docs i o).error = none
    rcases List.mem_append.mp ho with ho | ho
    · rcases List.mem_append.mp ho with ho | ho
      · obtain ⟨x, existing, -, hout⟩ := h.replaced _ ho
        obtain ⟨n, hn⟩ := hcalm.replacement i
        simp only [replaceOutcome, hn] at hout
        rw [hout]
        rfl
      · rcases h.deduped.only _ ho with ⟨e, d, -, -, hout⟩ | ⟨e, key, j, -, -, hout, -⟩
        · cases hout
          rfl
        · cases hout
          rfl
    · obtain ⟨j, hj, heq⟩ := List.mem_map.mp (h.created.mem_iff.mp ho)
      obtain ⟨n, hn⟩ := hcreated j hj
      simp only [stage1Outcome, hn] at heq
      cases heq
      rfl

/-- **An input of an `external_id`** leaves a row of its content, if none is refused. -/
theorem BatchTrace.exists_version (h : BatchTrace env docs store s recs₀ recs₁ recs₂) (hcalm : Calm env)
    (hstore : Valid env store) (hcreated : ∀ i ∈ (afterSkips env docs store).active, ∃ n,
      (createAll env docs (afterSkips env docs store)).2 i = .created (env.newId i) n)
    {i : ℕ} {e : Entry S} {x : String} (he : docs[i]? = some e) (hx : e.externalId = some x) :
    ∃ d ∈ (createAll env docs (afterSkips env docs store)).1, d.externalId = some x ∧ d.content = e.content := by
  have hall := h.createdAll hcalm hstore
  have hrefreshed : (afterReplace env docs store).store = refreshed env docs store :=
    afterReplace_store hcalm hstore
  by_cases hrep : IsReplaced docs store i
  · obtain ⟨y, hget, d, hd, hdy⟩ := hrep
    have hy := (get?_extIdToIdx.mp hget).2.1
    rw [he, Option.bind_some, hx] at hy
    cases hy
    obtain ⟨n, hn⟩ := hcalm.replacement i
    have hmem : refreshedBy env docs i d ∈ refreshed env docs store := by
      refine List.mem_map.mpr ⟨d, hd, ?_⟩
      rw [hdy, Option.bind_some, hget]
    refine ⟨_, hall.keeps _ hmem, (refreshedBy_key i d).2.trans hdy, ?_⟩
    simp only [refreshedBy, he, hn]
  · cases hdup : dbDup env (refreshed env docs store) e with
    | some d =>
        obtain ⟨hmem, hchecksum, hdx, -⟩ := dbDup_row hdup
        refine ⟨d, hall.keeps d hmem, hdx x hx, ?_⟩
        exact hcalm.sha256 (((valid_refreshed hstore).checksums d hmem).symm.trans hchecksum)
    | none =>
        obtain ⟨j, hj, a, e', ha, he', hkey⟩ := h.winner he hrep (hrefreshed ▸ hdup)
        cases he.symm.trans he'
        obtain ⟨n, hn⟩ := hcreated j hj
        obtain ⟨a', ha', -, hmem⟩ := hall.created j _ n hn
        cases ha.symm.trans ha'
        refine ⟨_, hmem, ?_, hcalm.sha256 (congrArg Prod.fst hkey)⟩
        exact (congrArg (fun k => k.2.1) hkey).trans hx

theorem BatchTrace.afterSkips_store (h : BatchTrace env docs store s recs₀ recs₁ recs₂) (hcalm : Calm env)
    (hstore : Valid env store) : (afterSkips env docs store).store = refreshed env docs store :=
  h.deduped.frame.1.trans (afterReplace_store hcalm hstore)

theorem BatchTrace.valid (h : BatchTrace env docs store s recs₀ recs₁ recs₂) (hcalm : Calm env)
    (hstore : Valid env store) : Valid env (afterSkips env docs store).store := by
  rw [h.afterSkips_store hcalm hstore]
  exact valid_refreshed hstore

theorem BatchTrace.created_iff (h : BatchTrace env docs store s recs₀ recs₁ recs₂) (hcalm : Calm env)
    (hstore : Valid env store) : (∀ i ∈ (afterSkips env docs store).active, ∃ n,
      (createAll env docs (afterSkips env docs store)).2 i = .created (env.newId i) n) ↔
      OneVersion env docs store := by
  rw [created_iff_free hcalm (h.valid hcalm hstore) (List.nodup_append.mp h.deduped.nodup).2.1
    fun i hi => (h.deduped.bounds i (List.mem_append_right _ hi)).1, h.afterSkips_store hcalm hstore]
  exact h.free_iff hcalm hstore

/-- **The last versions** are kept exactly if each `external_id` comes in one version. -/
theorem BatchTrace.lastVersions_iff (h : BatchTrace env docs store s recs₀ recs₁ recs₂) (hcalm : Calm env)
    (hstore : Valid env store) : LastVersions docs (finish docs s) ↔ OneVersion env docs store := by
  constructor
  · intro hlast
    exact (h.created_iff hcalm hstore).mp ((h.accepted_iff hcalm hstore).mp hlast.accepted)
  · intro hversion
    have hcreated := (h.created_iff hcalm hstore).mpr hversion
    refine ⟨(h.accepted_iff hcalm hstore).mpr hcreated, fun i e x he hx _ => ?_⟩
    obtain ⟨d, hd, hdx, hcontent⟩ := h.exists_version hcalm hstore hcreated he hx
    obtain ⟨d', hd', -, -, hext, -⟩ := h.exists_row hd
    refine ⟨⟨d', hd', hext.trans hdx⟩, fun a ha hax => ?_⟩
    obtain ⟨b, hb, hw⟩ := exists_written h.stored.symm ha
    simp only [Document.written, Prod.mk.injEq] at hw
    have hsame := (h.createdAll hcalm hstore).external b hb d hd
      (by rw [hw.2.2.2.1, hax]; exact Option.some_ne_none x) (by rw [hw.2.2.2.1, hax, hdx])
    rw [← hw.2.1, hsame]
    exact hcontent

/-- An input without `external_id` that is left is stored. -/
theorem BatchTrace.exists_new (h : BatchTrace env docs store s recs₀ recs₁ recs₂) (hcalm : Calm env)
    (hstore : Valid env store) {i : ℕ} {e : Entry S} (hi : i ∈ (afterSkips env docs store).active)
    (he : docs[i]? = some e) (hx : e.externalId = none) :
    ∃ n, (i, .processed (env.newId i) n) ∈ recs₂ ∧ ∃ d ∈ s.store, d.id = env.newId i ∧
      d.content = e.content ∧ d.sessionId = e.sessionId := by
  have hlt := (List.getElem?_eq_some_iff.mp he).1
  obtain ⟨n, hn⟩ := created_of_left hcalm (h.valid hcalm hstore) (List.nodup_append.mp h.deduped.nodup).2.1 hi hlt
    (by
      intro x hbind
      rw [he, Option.bind_some, hx] at hbind
      cases hbind)
  obtain ⟨a, ha, -, hmem⟩ := (h.createdAll hcalm hstore).created i _ n hn
  cases he.symm.trans ha
  obtain ⟨d, hd, hid, hcontent, -, hsession⟩ := h.exists_row hmem
  exact ⟨n, h.processed hi hn, d, hd, hid, hcontent, hsession⟩

/-- **An input without `external_id`** is stored, in the session that it names. -/
theorem BatchTrace.entryStored (h : BatchTrace env docs store s recs₀ recs₁ recs₂) (hcalm : Calm env)
    (hstore : Valid env store) {i : ℕ} {e : Entry S} (he : docs[i]? = some e) (hx : e.externalId = none) :
    EntryStored (finish docs s) NamedSession i e := by
  have hdups : (s.dups.map Prod.fst).Nodup := h.frame.2.1 ▸ h.deduped.dups_nodup
  -- an input that is recorded with an id is no duplicate that waits for one
  have hown : ∀ o, (i, o) ∈ recs₀ ++ recs₁ ++ recs₂ → o ≠ .skipped none → i ∉ s.dups.map Prod.fst := by
    intro o ho hne hmem
    obtain ⟨q, hq, rfl⟩ := List.mem_map.mp hmem
    have hrec := h.deduped.dups q (h.frame.2.1 ▸ hq)
    have heq := List.inj_on_of_nodup_map h.nodup ho
      (List.mem_append_left _ (List.mem_append_right _ hrec)) rfl
    exact hne (congrArg Prod.snd heq)
  rcases h.deduped.cover i (List.getElem?_eq_some_iff.mp he).1 with hhandled | hmem | hactive
  · obtain ⟨y, hget, -⟩ := (h.handled_iff i).mp hhandled
    have hy := (get?_extIdToIdx.mp hget).2.1
    rw [he, Option.bind_some, hx] at hy
    cases hy
  · obtain ⟨⟨i', o⟩, hp, rfl⟩ := List.mem_map.mp hmem
    have ho := List.mem_append_left recs₂ (List.mem_append_right recs₀ hp)
    obtain ⟨id, hfinal, hid, hwinner⟩ := h.entry ho
    rcases h.deduped.only _ hp with ⟨a, d, ha, hdup, hout⟩ | ⟨a, key, j, -, -, hout, hj, -, hsame, hd, hw⟩
    · cases he.symm.trans ha
      cases hout
      obtain ⟨hrow, hchecksum, -, hsession⟩ := dbDup_row hdup
      have hmem : d ∈ (createAll env docs (afterSkips env docs store)).1 :=
        (h.createdAll hcalm hstore).keeps d ((afterReplace_store hcalm hstore) ▸ hrow)
      obtain ⟨d', hd', hid', hcontent, -, hsession'⟩ := h.exists_row hmem
      refine ⟨_, d', hfinal, rfl, hd', ?_, hcontent.trans ?_, fun x hs => hsession'.trans (hsession x hs)⟩
      · rw [hid', hid (hown _ ho nofun)]
        rfl
      · refine hcalm.sha256 (Eq.trans ?_ hchecksum)
        exact ((valid_refreshed hstore).checksums d ((afterReplace_store hcalm hstore) ▸ hrow)).symm
    · cases hout
      obtain ⟨b, c, hb, hc, hkey⟩ := hsame
      cases he.symm.trans hc
      have hbx : b.externalId = none := (congrArg (fun k => k.2.1) hkey).trans hx
      obtain ⟨n, hrec, d, hd', hid', hcontent, hsession⟩ := h.exists_new hcalm hstore hj hb hbx
      have hn := h.nodup
      rw [List.map_append] at hn
      have hlookup : s.ids.lookup j = some (env.newId j) := by
        rw [h.frame.2.2]
        exact lookup_processedIds (List.nodup_append.mp hn).2.1 hrec
      have hentry := hwinner key j (by rw [h.frame.2.1]; exact hd)
        (by rw [h.frame.1]; exact lookup_of_mem h.deduped.keys hw)
      refine ⟨_, d, hfinal, rfl, hd', ?_, hcontent.trans (hcalm.sha256 (congrArg Prod.fst hkey)), ?_⟩
      · rw [hentry, hlookup, hid']
      · intro x hs
        exact hsession.trans ((congrArg (fun k => k.2.2) hkey).trans hs)
  · obtain ⟨n, hrec, d, hd, hid', hcontent, hsession⟩ := h.exists_new hcalm hstore hactive he hx
    have ho := List.mem_append_right (recs₀ ++ recs₁) hrec
    obtain ⟨id, hfinal, hid, -⟩ := h.entry ho
    refine ⟨_, d, hfinal, rfl, hd, ?_, hcontent, fun x hs => hsession.trans hs⟩
    rw [hid', hid (hown _ ho nofun)]
    rfl

end Result

/-- **What a batch keeps**: every input without `external_id` is stored, in the session that it names, and
the `external_id`s have their last contents exactly if each comes in one version. -/
theorem inputs_kept (env : Env Id S K) (docs : List (Entry S)) (store : List (Document Id S K))
    (hcalm : Calm env) (hstore : Valid env store) :
    (∀ i e, docs[i]? = some e → e.externalId = none →
      EntryStored (rememberBatch env docs store) NamedSession i e) ∧
    (LastVersions docs (rememberBatch env docs store) ↔ OneVersion env docs store) := by
  obtain ⟨recs₀, recs₁, recs₂, h⟩ := runStages_trace env docs store
  exact ⟨fun i e he hx => h.entryStored hcalm hstore he hx, h.lastVersions_iff hcalm hstore⟩

/-! ## A new version, and two of them -/

theorem calm_calmEnv : Calm calmEnv := by
  constructor
  · exact fun i => ⟨1, rfl⟩
  · exact fun i => ⟨1, rfl⟩
  · exact Function.injective_id
  · exact fun i j h => Nat.add_left_cancel h

def versionOf (content : String) : Entry ℕ := ⟨content, "", some "x", none⟩

def storedVersion : Document ℕ ℕ String := ⟨1, "a", "a", some "x", none, .completed, 0, 1⟩

/-- Two identical inputs of a stored document, two of a new one, and two without an `external_id`. -/
def sixInputs : List (Entry ℕ) :=
  [versionOf "b", greeting 8, ⟨"n", "", some "y", none⟩, versionOf "b", ⟨"n", "", some "y", none⟩, greeting 7]

/-- The `external_id`s have their last contents, and the others are stored in their sessions. -/
theorem inputs_kept_sixInputs :
    LastVersions sixInputs (rememberBatch calmEnv sixInputs [storedVersion, greetingOf 2 7]) ∧
      EntryStored (rememberBatch calmEnv sixInputs [storedVersion, greetingOf 2 7]) NamedSession 1 (greeting 8) ∧
      EntryStored (rememberBatch calmEnv sixInputs [storedVersion, greetingOf 2 7]) NamedSession 5 (greeting 7) := by
  have hstore : Valid calmEnv [storedVersion, greetingOf 2 7] := by
    constructor
    · decide
    · simp [UniqueExternal, storedVersion, greetingOf]
    · simp [storedVersion, greetingOf, calmEnv]
    · intro d hd i hid
      rcases List.mem_pair.mp hd with rfl | rfl
      · have : 1 = 100 + i := hid
        omega
      · have : 2 = 100 + i := hid
        omega
  have hkept := inputs_kept calmEnv sixInputs [storedVersion, greetingOf 2 7] calm_calmEnv hstore
  refine ⟨hkept.2.mpr ?_, hkept.1 1 _ rfl rfl, hkept.1 5 _ rfl rfl⟩
  intro i e x he hx hnot
  match i with
  -- the first input of the stored document repeats what the last one has written
  | 0 =>
      cases he
      exact Or.inl (by decide)
  | 1 =>
      cases he
      cases hx
  | 2 | 4 =>
      cases he
      cases hx
      refine Or.inr ⟨by simp [storedVersion, greetingOf], ?_⟩
      simp [sixInputs, versionOf, greeting]
  | 3 => exact absurd ⟨"x", by decide, storedVersion, List.mem_cons_self, rfl⟩ hnot
  | 5 =>
      cases he
      cases hx
  | i + 6 => cases he

/-- **Two new versions of one document**: the second meets the unique index. And an input that names no
session is answered with a document of one. -/
theorem sameExternalId_diverges :
    ¬ KeepsInputs [versionOf "a", versionOf "b"] (rememberBatch calmEnv [versionOf "a", versionOf "b"] []) ∧
    ¬ KeepsInputs [⟨"hello", "", none, none⟩]
      (rememberBatch calmEnv [⟨"hello", "", none, none⟩] [greetingOf 1 7]) := by
  constructor
  · intro h
    have hsecond : (rememberBatch calmEnv [versionOf "a", versionOf "b"] []).perDocument[1]? =
        some ⟨none, none, 0, false, some (some "x", "unique violation")⟩ := by decide
    cases h.1.accepted _ (List.mem_of_getElem? hsecond)
  · intro h
    obtain ⟨entry, d, -, -, hd, -, -, hsession⟩ := h.2 0 ⟨"hello", "", none, none⟩ rfl rfl
    have hrows : (rememberBatch calmEnv [⟨"hello", "", none, none⟩] [greetingOf 1 7]).store =
        [greetingOf 1 7] := by decide
    rw [hrows, List.mem_singleton] at hd
    rw [hd] at hsession
    cases hsession

end RememberBatch

end Khora
