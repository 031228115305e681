import Khora.Engine.BatchAccounting

/-!
# Duplicates of one identity

A call is a duplicate of a stored document of the same content if the identity that the caller supplies
is that of the document. The store returns one row of a checksum, and the test is made on that row.

* `skipped_iff` — what an entry of a batch is skipped for.
* `dedup_exact_iff` — a call and an entry are told from duplicates exactly if the row that is returned
  has the identity whenever a row has it.
* `otherSession_diverges` — a text of two sessions is stored a third time.
-/

namespace Khora

namespace RememberBatch

variable {Id S K : Type} [DecidableEq Id] [DecidableEq S] [DecidableEq K] {env : Env Id S K}
  {docs : List (Entry S)} {store : List (Document Id S K)} {e : Entry S}

/-! ## One call -/

/-- What `remember` does with a call. -/
inductive Remembered (Id S K : Type) where
  | replaced (existing : Document Id S K)
  | duplicate (existing : Document Id S K)
  | created

/-- The dispatch of `remember`. -/
def remember (env : Env Id S K) (store : List (Document Id S K)) (e : Entry S) : Remembered Id S K :=
  match e.externalId.bind (getDocumentByExternalId store) with
  | some existing => .replaced existing
  | none =>
      match getDocumentByChecksum env.staleBefore store (env.sha256 e.content) with
      | some existing => if checksumDedupApplies existing e then .duplicate existing else .created
      | none => .created

/-- The store after the call, if nothing fails; a new document gets the id and `n` chunks. -/
def storeAfter (env : Env Id S K) (store : List (Document Id S K)) (e : Entry S) (id : Id) (n : ℕ) :
    List (Document Id S K) :=
  match remember env store e with
  | .replaced existing => replaceDocument { env with replacement := fun _ => .ok n } e 0 existing store
  | .duplicate _ => store
  | .created => store ++ [⟨id, e.content, env.sha256 e.content, e.externalId, e.sessionId, .completed, env.now, n⟩]

/-- The namespace holds a document of the same checksum, neither failed nor a stale half-ingest, that
has the identity the caller supplies. -/
def Held (env : Env Id S K) (store : List (Document Id S K)) (e : Entry S) : Prop :=
  ∃ d ∈ store, d.checksum = env.sha256 e.content ∧ d.status ≠ .failed ∧
    ¬ (d.status = .pending ∧ d.updatedAt < env.staleBefore) ∧
    (∀ x, e.externalId = some x → d.externalId = some x) ∧ ∀ s, e.sessionId = some s → d.sessionId = some s

/-- The `external_id` is absent, or not stored yet. -/
def NotStored (store : List (Document Id S K)) (e : Entry S) : Prop :=
  ∀ d ∈ store, d.externalId = e.externalId → e.externalId = none

/-- If a document of the identity is held, the row that the lookup returns has the identity. -/
def FirstCarries (env : Env Id S K) (store : List (Document Id S K)) (e : Entry S) : Prop :=
  Held env store e → ∃ d, getDocumentByChecksum env.staleBefore store (env.sha256 e.content) = some d ∧
    checksumDedupApplies d e = true

omit [DecidableEq Id] [DecidableEq K] in
theorem checksumDedupApplies_iff {d : Document Id S K} : checksumDedupApplies d e = true ↔
    (∀ x, e.externalId = some x → d.externalId = some x) ∧
      ∀ s, e.sessionId = some s → d.sessionId = some s := by
  rw [checksumDedupApplies, Bool.and_eq_true]
  apply and_congr
  · cases e.externalId <;> simp
  · cases e.sessionId <;> simp

omit [DecidableEq Id] [DecidableEq S] [DecidableEq K] in
theorem dedupable_iff {staleBefore : ℤ} {d : Document Id S K} : dedupable staleBefore d = true ↔
    d.status ≠ .failed ∧ ¬ (d.status = .pending ∧ d.updatedAt < staleBefore) := by
  rw [dedupable, decide_eq_true_iff, not_and_or, Int.not_lt]

omit [DecidableEq Id] [DecidableEq K] in
theorem held_of_row {d : Document Id S K} (hd : d ∈ store) (hchecksum : d.checksum = env.sha256 e.content)
    (hstatus : dedupable env.staleBefore d = true) (happlies : checksumDedupApplies d e = true) :
    Held env store e := by
  obtain ⟨hfailed, hstale⟩ := dedupable_iff.mp hstatus
  obtain ⟨hext, hsession⟩ := checksumDedupApplies_iff.mp happlies
  exact ⟨d, hd, hchecksum, hfailed, hstale, hext, hsession⟩

omit [DecidableEq Id] in
theorem held_of_lookup {d : Document Id S K}
    (hd : getDocumentByChecksum env.staleBefore store (env.sha256 e.content) = some d)
    (happlies : checksumDedupApplies d e = true) : Held env store e := by
  have hrow := List.find?_some hd
  rw [Bool.and_eq_true] at hrow
  exact held_of_row (List.mem_of_find?_eq_some hd) (of_decide_eq_true hrow.1) hrow.2 happlies

omit [DecidableEq Id] [DecidableEq S] [DecidableEq K] in
theorem bind_getDocumentByExternalId_eq_none (h : NotStored store e) :
    e.externalId.bind (getDocumentByExternalId store) = none := by
  cases hext : e.externalId with
  | none => rfl
  | some x =>
      rw [Option.bind_some, getDocumentByExternalId, List.find?_eq_none]
      intro d hd hdx
      have := h d hd ((of_decide_eq_true hdx).trans hext.symm)
      rw [hext] at this
      cases this

omit [DecidableEq Id] in
/-- A duplicate is a row that the lookup returns. -/
theorem remember_duplicate_iff (h : e.externalId.bind (getDocumentByExternalId store) = none) :
    (∃ d, remember env store e = .duplicate d) ↔
      ∃ d, getDocumentByChecksum env.staleBefore store (env.sha256 e.content) = some d ∧
        checksumDedupApplies d e = true := by
  unfold remember
  rw [h]
  cases hrow : getDocumentByChecksum env.staleBefore store (env.sha256 e.content) with
  | none => simp
  | some d =>
      by_cases happlies : checksumDedupApplies d e = true
      · simp [happlies]
      · simp [happlies]

omit [DecidableEq Id] in
theorem remember_ne_created_iff (h : e.externalId.bind (getDocumentByExternalId store) = none) :
    remember env store e ≠ .created ↔ ∃ d, remember env store e = .duplicate d := by
  have hnot : ∀ d, remember env store e ≠ .replaced d := by
    intro d hd
    unfold remember at hd
    simp only [h] at hd
    split at hd
    · split at hd <;> cases hd
    · cases hd
  cases hr : remember env store e with
  | replaced d => exact absurd hr (hnot d)
  | duplicate d => exact iff_of_true (by simp) ⟨d, rfl⟩
  | created => exact iff_of_false (fun hne => hne rfl) (by simp)

/-! ## The same call again -/

omit [DecidableEq Id] in
/-- A stored `external_id` is replaced. -/
theorem exists_replaced {x : String} (hx : e.externalId = some x) {d : Document Id S K} (hd : d ∈ store)
    (hdx : d.externalId = some x) : ∃ existing, remember env store e = .replaced existing ∧
      existing ∈ store ∧ existing.externalId = some x := by
  cases hget : getDocumentByExternalId store x with
  | none =>
      have := List.find?_eq_none.mp hget d hd
      exact absurd (decide_eq_true hdx) this
  | some existing =>
      have hfound := List.find?_some hget
      refine ⟨existing, ?_, List.mem_of_find?_eq_some hget, by simpa using hfound⟩
      unfold remember
      rw [hx, Option.bind_some, hget]

/-- **After a call** its `external_id` is stored, or the document that it stored or found is held. -/
theorem storeAfter_spec (env : Env Id S K) (store : List (Document Id S K)) (e : Entry S) (id : Id) (n : ℕ) :
    (∃ x, e.externalId = some x ∧ ∃ d ∈ storeAfter env store e id n, d.externalId = some x) ∨
      (e.externalId = none ∧ Held env (storeAfter env store e id n) e) := by
  cases hbind : e.externalId.bind (getDocumentByExternalId store) with
  | some existing =>
      obtain ⟨x, hx, hget⟩ := Option.bind_eq_some_iff.mp hbind
      have hfound := List.find?_some hget
      have hr : remember env store e = .replaced existing := by
        unfold remember
        rw [hbind]
      refine Or.inl ⟨x, hx, ?_⟩
      unfold storeAfter replaceDocument
      rw [hr]
      refine ⟨_, List.mem_map_of_mem (List.mem_of_find?_eq_some hget), ?_⟩
      rw [if_pos rfl]
      simpa using hfound
  | none =>
      cases hr : remember env store e with
      | replaced existing =>
          unfold remember at hr
          simp only [hbind] at hr
          split at hr
          · split at hr <;> cases hr
          · cases hr
      | duplicate d =>
          obtain ⟨d', hrow, happlies⟩ := (remember_duplicate_iff hbind).mp ⟨d, hr⟩
          have hafter : storeAfter env store e id n = store := by
            unfold storeAfter
            rw [hr]
          rw [hafter]
          cases hext : e.externalId with
          | none => exact Or.inr ⟨rfl, held_of_lookup hrow happlies⟩
          | some x =>
              exact Or.inl ⟨x, rfl, d', List.mem_of_find?_eq_some hrow,
                (checksumDedupApplies_iff.mp happlies).1 x hext⟩
      | created =>
          have hafter : storeAfter env store e id n = store ++ [⟨id, e.content, env.sha256 e.content,
              e.externalId, e.sessionId, .completed, env.now, n⟩] := by
            unfold storeAfter
            rw [hr]
          rw [hafter]
          cases hext : e.externalId with
          | some x => exact Or.inl ⟨x, rfl, _, List.mem_append_right _ List.mem_cons_self, rfl⟩
          | none =>
              refine Or.inr ⟨rfl, _, List.mem_append_right _ List.mem_cons_self, rfl, by simp,
                fun h => absurd h.1 (by simp), ?_, fun _ h => h⟩
              intro x hx
              rw [hext] at hx
              cases hx

/-- **The same call again** stores no second document exactly if the row that is returned carries the
identity. -/
theorem again_iff {id : Id} {n : ℕ} {store' : List (Document Id S K)}
    (hperm : store'.Perm (storeAfter env store e id n)) :
    remember env store' e ≠ .created ↔ (e.externalId = none → FirstCarries env store' e) := by
  rcases storeAfter_spec env store e id n with ⟨x, hx, d, hd, hdx⟩ | ⟨hext, d, hd, hrest⟩
  · obtain ⟨existing, hr, -⟩ := exists_replaced hx (hperm.mem_iff.mpr hd) hdx
    rw [hr]
    refine iff_of_true nofun fun hnone => ?_
    rw [hx] at hnone
    cases hnone
  · have hbind : e.externalId.bind (getDocumentByExternalId store') = none := by rw [hext, Option.bind_none]
    rw [remember_ne_created_iff hbind, remember_duplicate_iff hbind]
    constructor
    · exact fun h _ _ => h
    · exact fun h => h hext ⟨d, hperm.mem_iff.mpr hd, hrest⟩

/-! ## The entries of a batch -/

/-- The entry is reported as a duplicate. -/
def SkippedAt (r : BatchResult Id S K) (i : ℕ) : Prop :=
  ∃ entry, r.perDocument[i]? = some entry ∧ entry.skipped = true

/-- An earlier input of the batch has the same identity. -/
def Repeats (env : Env Id S K) (docs : List (Entry S)) (i : ℕ) : Prop := ∃ j < i, SameKey env docs j i

/-- If a document of the identity is held, the row that stays in the dictionary has the identity, or an
earlier input of the batch has it. -/
def LastCarries (env : Env Id S K) (docs : List (Entry S)) (store : List (Document Id S K)) (i : ℕ)
    (e : Entry S) : Prop :=
  Held env (afterReplace env docs store).store e →
    (∃ d, getDocumentsByChecksums env.staleBefore (afterReplace env docs store).store
      (env.sha256 e.content) = some d ∧ checksumDedupApplies d e = true) ∨ Repeats env docs i

omit [DecidableEq Id] in
theorem dbDup_congr {a b : Entry S} (h : identityKey env a = identityKey env b) :
    dbDup env store a = dbDup env store b := by
  unfold identityKey at h
  obtain ⟨hchecksum, hrest⟩ := Prod.ext_iff.mp h
  obtain ⟨hext, hsession⟩ := Prod.ext_iff.mp hrest
  simp only at hchecksum hext hsession
  unfold dbDup checksumDedupApplies
  rw [hchecksum, hext, hsession]

omit [DecidableEq Id] in
theorem dbDup_ne_none_iff (hdedup : env.deduplicate = true) : dbDup env store e ≠ none ↔
    ∃ d, getDocumentsByChecksums env.staleBefore store (env.sha256 e.content) = some d ∧
      checksumDedupApplies d e = true := by
  rw [dbDup, if_pos hdedup]
  cases getDocumentsByChecksums env.staleBefore store (env.sha256 e.content) with
  | none => simp
  | some d => simp [Option.filter]

theorem not_handled {recs₀ recs₁ recs₂ : List (ℕ × Outcome Id)} {s : State Id S K}
    (h : BatchTrace env docs store s recs₀ recs₁ recs₂) {i : ℕ} (he : docs[i]? = some e)
    (hnew : NotStored store e) : i ∉ recs₀.map Prod.fst := by
  intro hi
  rw [h.replacedIdx] at hi
  obtain ⟨p, hp, rfl⟩ := List.mem_map.mp hi
  obtain ⟨hitem, hstored⟩ := List.mem_filter.mp hp
  have hext := (mem_extIdToIdx hitem).2
  rw [he, Option.bind_some] at hext
  have hnone := bind_getDocumentByExternalId_eq_none hnew
  rw [hext, Option.bind_some] at hnone
  rw [hnone] at hstored
  cases hstored

/-- **An entry is skipped** for the row of its checksum, or for an earlier input of its identity. -/
theorem skipped_iff {i : ℕ} (he : docs[i]? = some e) (hnew : NotStored store e) :
    SkippedAt (rememberBatch env docs store) i ↔
      dbDup env (afterReplace env docs store).store e ≠ none ∨ Repeats env docs i := by
  obtain ⟨recs₀, recs₁, recs₂, h⟩ := runStages_trace env docs store
  have hi : i < docs.length := (List.getElem?_eq_some_iff.mp he).1
  have hnot := not_handled h he hnew
  have hrecorded : SkippedAt (rememberBatch env docs store) i ↔ i ∈ recs₁.map Prod.fst := by
    constructor
    · rintro ⟨entry, hentry, hskipped⟩
      obtain ⟨o, ho⟩ := h.filled hi
      obtain ⟨id, hfinal, -⟩ := h.entry ho
      cases hentry.symm.trans hfinal
      cases o with
      | processed id n => cases hskipped
      | failed id error => cases hskipped
      | skipped target => exact List.mem_map_of_mem (h.skipped ho)
    · intro hmem
      obtain ⟨⟨j, o⟩, hp, rfl⟩ := List.mem_map.mp hmem
      obtain ⟨id, hfinal, -⟩ := h.entry (List.mem_append_left _ (List.mem_append_right _ hp))
      refine ⟨_, hfinal, ?_⟩
      rcases h.deduped.only _ hp with ⟨e', d, -, -, hout⟩ | ⟨e', key, j', -, -, hout, -⟩
      · cases hout
        rfl
      · cases hout
        rfl
  rw [hrecorded]
  constructor
  · intro hmem
    obtain ⟨p, hp, rfl⟩ := List.mem_map.mp hmem
    rcases h.deduped.only _ hp with ⟨e', d, he', hdup, -⟩ | ⟨e', key, j, -, -, -, -, hji, hsame, -⟩
    · cases he.symm.trans he'
      rw [hdup]
      exact Or.inl (Option.some_ne_none d)
    · exact Or.inr ⟨j, hji, hsame⟩
  · intro hdup
    rcases h.deduped.cover i hi with hhandled | hmem | hactive
    · exact absurd (h.handled ▸ hhandled) hnot
    · exact hmem
    · exfalso
      obtain ⟨e', he', hnone, -⟩ := h.deduped.active i hactive
      cases he.symm.trans he'
      rcases hdup with hne | ⟨j, hji, a, b, ha, hb, hkey⟩
      · exact hne hnone
      · cases he.symm.trans hb
        have hnew' : NotStored store a := by
          intro d hd hext
          have hsame : a.externalId = e.externalId := congrArg (fun k => k.2.1) hkey
          rw [hsame] at hext ⊢
          exact hnew d hd hext
        rcases h.deduped.cover j (hji.trans hi) with hhandled | hmem | hj
        · exact not_handled h ha hnew' (h.handled ▸ hhandled)
        · obtain ⟨p, hp, rfl⟩ := List.mem_map.mp hmem
          rcases h.deduped.only _ hp with ⟨a', d, ha', hdup, -⟩ | ⟨a', key, j', -, -, -, hj', hlt, hsame, -⟩
          · cases ha.symm.trans ha'
            rw [dbDup_congr hkey, hnone] at hdup
            cases hdup
          · obtain ⟨x, y, hx, hy, hxy⟩ := hsame
            cases ha.symm.trans hy
            have := h.deduped.unique hj' hactive ⟨x, e, hx, he, hxy.trans hkey⟩
            omega
        · have := h.deduped.unique hj hactive ⟨a, e, ha, he, hkey⟩
          omega

omit [DecidableEq Id] in
theorem held_of_lastRow {d : Document Id S K}
    (hd : getDocumentsByChecksums env.staleBefore store (env.sha256 e.content) = some d)
    (happlies : checksumDedupApplies d e = true) : Held env store e := by
  have hrow := List.find?_some hd
  rw [Bool.and_eq_true] at hrow
  exact held_of_row (List.mem_reverse.mp (List.mem_of_find?_eq_some hd)) (of_decide_eq_true hrow.1) hrow.2
    happlies

/-- **Duplicates are told by identity** exactly if the row that is returned for the checksum carries the
identity whenever a row does: for a call, for the same call again, and for an entry of a batch. -/
theorem dedup_exact_iff (env : Env Id S K) (hdedup : env.deduplicate = true) (store : List (Document Id S K))
    (docs : List (Entry S)) (i : ℕ) (e : Entry S) (he : docs[i]? = some e) (hnew : NotStored store e) :
    (((∃ d, remember env store e = .duplicate d) ↔ Held env store e) ↔ FirstCarries env store e) ∧
    (∀ id n store', store'.Perm (storeAfter env store e id n) →
      (remember env store' e ≠ .created ↔ (e.externalId = none → FirstCarries env store' e))) ∧
    ((SkippedAt (rememberBatch env docs store) i ↔
      Held env (afterReplace env docs store).store e ∨ Repeats env docs i) ↔ LastCarries env docs store i e) := by
  refine ⟨?_, fun id n store' hperm => again_iff hperm, ?_⟩
  · rw [remember_duplicate_iff (bind_getDocumentByExternalId_eq_none hnew)]
    constructor
    · exact fun h => h.mpr
    · exact fun h => ⟨fun ⟨d, hd, happlies⟩ => held_of_lookup hd happlies, h⟩
  · rw [skipped_iff he hnew, dbDup_ne_none_iff hdedup]
    constructor
    · exact fun h hheld => h.mpr (Or.inl hheld)
    · intro h
      constructor
      · exact fun hskip => hskip.imp_left fun ⟨d, hd, happlies⟩ => held_of_lastRow hd happlies
      · rintro (hheld | hrep)
        · exact h hheld
        · exact Or.inr hrep

/-! ## One text in two sessions -/

def greeting (sessionId : ℕ) : Entry ℕ := ⟨"hello", "", none, some sessionId⟩

def greetingOf (id sessionId : ℕ) : Document ℕ ℕ String :=
  ⟨id, "hello", "hello", none, some sessionId, .completed, 0, 1⟩

/-- Nothing fails, nothing is in flight; a text stands for its checksum. -/
def calmEnv : Env ℕ ℕ String where
  sha256 := id
  staleBefore := 0
  now := 0
  deduplicate := true
  maxChunksInFlight := none
  newId := fun i => 100 + i
  replacement := fun _ => .ok 1
  leftOver := fun _ d => d
  creation := fun _ => .chunked 1
  insertOrder := id
  insertOrder_perm := fun _ => List.Perm.refl _
  uniqueViolation := "unique violation"

/-- One text in two sessions; the first row and the last one are of one session. -/
def twoSessions : List (Document ℕ ℕ String) := [greetingOf 1 7, greetingOf 2 8, greetingOf 3 7]

/-- A call of that session, its entry of a batch, and an entry of a new session that comes twice. -/
theorem dedup_twoSessions :
    ((∃ d, remember calmEnv twoSessions (greeting 7) = .duplicate d) ↔ Held calmEnv twoSessions (greeting 7)) ∧
    ∀ i e, (i, e) = (1, greeting 7) ∨ (i, e) = (2, greeting 9) →
      (SkippedAt (rememberBatch calmEnv [greeting 9, greeting 7, greeting 9] twoSessions) i ↔
        Held calmEnv (afterReplace calmEnv [greeting 9, greeting 7, greeting 9] twoSessions).store e ∨
          Repeats calmEnv [greeting 9, greeting 7, greeting 9] i) := by
  have hnew : ∀ sessionId, NotStored twoSessions (greeting sessionId) := fun _ _ _ _ => rfl
  have hseven := dedup_exact_iff calmEnv rfl twoSessions [greeting 9, greeting 7, greeting 9] 1 (greeting 7) rfl
    (hnew 7)
  have hnine := dedup_exact_iff calmEnv rfl twoSessions [greeting 9, greeting 7, greeting 9] 2 (greeting 9) rfl
    (hnew 9)
  refine ⟨hseven.1.mpr fun _ => ⟨greetingOf 1 7, rfl, by decide⟩, ?_⟩
  rintro i e (h | h)
  · cases h
    exact hseven.2.2.mpr fun _ => Or.inl ⟨greetingOf 3 7, rfl, by decide⟩
  · cases h
    exact hnine.2.2.mpr fun _ => Or.inr ⟨0, by decide, greeting 9, greeting 9, rfl, rfl, rfl⟩

/-- **The text of a second session is stored again and again**: the row of the first session answers for
the checksum, and for a batch that of the last one. -/
theorem otherSession_diverges :
    Held calmEnv [greetingOf 1 7, greetingOf 2 8] (greeting 8) ∧
    remember calmEnv [greetingOf 1 7, greetingOf 2 8] (greeting 8) = .created ∧
    ¬ ((∃ d, remember calmEnv [greetingOf 1 7, greetingOf 2 8] (greeting 8) = .duplicate d) ↔
      Held calmEnv [greetingOf 1 7, greetingOf 2 8] (greeting 8)) := by
  have hheld : Held calmEnv [greetingOf 1 7, greetingOf 2 8] (greeting 8) :=
    ⟨greetingOf 2 8, by simp, rfl, by decide, by decide, nofun, fun _ h => h⟩
  have hcreated : remember calmEnv [greetingOf 1 7, greetingOf 2 8] (greeting 8) = .created := rfl
  refine ⟨hheld, hcreated, fun h => ?_⟩
  obtain ⟨d, hd⟩ := h.mpr hheld
  rw [hcreated] at hd
  cases hd

end RememberBatch

end Khora
