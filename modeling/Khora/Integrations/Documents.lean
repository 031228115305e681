import Mathlib.Data.List.Nodup
import Mathlib.Data.List.Pairwise

/-!
# The documents of a namespace

The calls through which the adapters reach the documents of one namespace: `remember`, `forget`,
the lookup by external id and the listing.  At most one document has an external id, and NUL bytes
are stripped from every text that is remembered.

* `NamespaceDocuments.remember_cases` — what a `remember` can do: replace the document with the
  external id, find the content there already, or create a document.
* `NamespaceDocuments.remember_unclaimed`, `NamespaceDocuments.remember_new` — when it creates one.
* `NamespaceDocuments.Part.remember`, `NamespaceDocuments.kept_remember` — a `remember` in a part of the
  documents, and outside of it.
-/

namespace Khora

/-- What the adapters read of a document; `M` is its metadata. -/
structure NamespaceDocument (M S : Type) where
  id : ℕ
  externalId : Option (List Char)
  sessionId : Option S
  content : List Char
  metadata : M
  deriving DecidableEq, Repr

/-- The documents of a namespace, newest first. -/
structure NamespaceDocuments (M S : Type) where
  docs : List (NamespaceDocument M S)
  nextId : ℕ
  fresh : ∀ d ∈ docs, d.id < nextId
  distinct : (docs.map NamespaceDocument.id).Nodup
  /-- `ix_documents_namespace_external_id_unique` -/
  unique : (docs.filterMap NamespaceDocument.externalId).Nodup

/-- `strip_nul` -/
def stripNul (s : List Char) : List Char := s.filter (· ≠ '\x00')

theorem stripNul_eq_self_iff {s : List Char} : stripNul s = s ↔ '\x00' ∉ s := by
  unfold stripNul
  rw [List.filter_eq_self]
  constructor
  · intro h hmem
    exact absurd rfl (of_decide_eq_true (h _ hmem))
  · intro h c hc
    apply decide_eq_true
    rintro rfl
    exact h hc

/-- What `remember` takes of a document: its checksum, and how NUL is stripped from its metadata. -/
structure Ingest (M H : Type) where
  checksum : List Char → H
  stripNulJson : M → M

namespace NamespaceDocuments

variable {M S H : Type}

def empty : NamespaceDocuments M S where
  docs := []
  nextId := 0
  fresh := by simp
  distinct := List.nodup_nil
  unique := List.nodup_nil

/-- `get_document_by_external_id` -/
def getByExternalId (s : NamespaceDocuments M S) (externalId : List Char) :
    Option (NamespaceDocument M S) :=
  s.docs.find? fun d => decide (d.externalId = some externalId)

/-- `get_document_by_checksum` -/
def getByChecksum [DecidableEq H] (checksum : List Char → H) (s : NamespaceDocuments M S)
    (content : List Char) : Option (NamespaceDocument M S) :=
  s.docs.find? fun d => decide (checksum d.content = checksum content)

def listDocuments (s : NamespaceDocuments M S) (limit offset : ℕ) : List (NamespaceDocument M S) :=
  (s.docs.drop offset).take limit

/-- `forget`, which tells whether there was a document -/
def forget (s : NamespaceDocuments M S) (id : ℕ) : NamespaceDocuments M S where
  docs := s.docs.filter fun d => decide (d.id ≠ id)
  nextId := s.nextId
  fresh := fun d hd => s.fresh d (List.mem_filter.mp hd).1
  distinct := s.distinct.sublist (List.filter_sublist.map _)
  unique := s.unique.sublist (List.filter_sublist.filterMap _)

/-- The document is new under its external id. -/
def Unclaimed (s : NamespaceDocuments M S) (externalId : Option (List Char)) : Prop :=
  ∀ x ∈ externalId, x ∉ s.docs.filterMap NamespaceDocument.externalId

instance (s : NamespaceDocuments M S) (externalId : Option (List Char)) :
    Decidable (s.Unclaimed externalId) :=
  inferInstanceAs (Decidable (∀ x ∈ externalId, _))

theorem unclaimed_iff {s : NamespaceDocuments M S} {externalId : Option (List Char)} :
    s.Unclaimed externalId ↔ ∀ d ∈ s.docs, ∀ x ∈ externalId, d.externalId ≠ some x := by
  unfold Unclaimed
  constructor
  · intro h d hd x hx heq
    exact h x hx (List.mem_filterMap.mpr ⟨d, hd, heq⟩)
  · intro h x hx hmem
    obtain ⟨d, hd, heq⟩ := List.mem_filterMap.mp hmem
    exact h d hd x hx heq

/-- The row that `create_document` writes. -/
def newDocument (s : NamespaceDocuments M S) (externalId : Option (List Char)) (sessionId : Option S)
    (content : List Char) (metadata : M) : NamespaceDocument M S :=
  ⟨s.nextId, externalId, sessionId, content, metadata⟩

/-- `create_document`, which the unique index refuses for an external id that is taken. -/
def create (s : NamespaceDocuments M S) (externalId : Option (List Char)) (sessionId : Option S)
    (content : List Char) (metadata : M) : NamespaceDocuments M S :=
  if h : s.Unclaimed externalId then
    { docs := s.newDocument externalId sessionId content metadata :: s.docs
      nextId := s.nextId + 1
      fresh := by
        intro d hd
        rcases List.mem_cons.mp hd with rfl | hd
        · exact Nat.lt_succ_self _
        · exact Nat.lt_succ_of_lt (s.fresh d hd)
      distinct := by
        rw [List.map_cons, List.nodup_cons]
        refine ⟨?_, s.distinct⟩
        intro hmem
        obtain ⟨d, hd, heq⟩ := List.mem_map.mp hmem
        exact absurd heq (Nat.ne_of_lt (s.fresh d hd))
      unique := by
        cases externalId with
        | none => exact s.unique
        | some x =>
          show (x :: s.docs.filterMap NamespaceDocument.externalId).Nodup
          exact List.nodup_cons.mpr ⟨h x rfl, s.unique⟩ }
  else s

/-- The row that a `remember` leaves in the place of `d`. -/
def replacedRow (sessionId : Option S) (content : List Char) (metadata : M)
    (d : NamespaceDocument M S) : NamespaceDocument M S :=
  ⟨d.id, d.externalId, sessionId.or d.sessionId, content, metadata⟩

/-- `_remember_via_replace` -/
def replace (s : NamespaceDocuments M S) (id : ℕ) (sessionId : Option S) (content : List Char)
    (metadata : M) : NamespaceDocuments M S where
  docs := s.docs.map fun d => if d.id = id then replacedRow sessionId content metadata d else d
  nextId := s.nextId
  fresh := by
    intro d hd
    obtain ⟨d', hd', rfl⟩ := List.mem_map.mp hd
    have hid : (if d'.id = id then replacedRow sessionId content metadata d' else d').id = d'.id := by
      split <;> rfl
    rw [hid]
    exact s.fresh d' hd'
  distinct := by
    rw [List.map_map]
    have hids : (NamespaceDocument.id ∘ fun d =>
        if d.id = id then replacedRow sessionId content metadata d else d) = NamespaceDocument.id := by
      funext d
      show NamespaceDocument.id (if d.id = id then _ else d) = d.id
      split <;> rfl
    rw [hids]
    exact s.distinct
  unique := by
    rw [List.filterMap_map]
    have hexternal : (NamespaceDocument.externalId ∘ fun d =>
        if d.id = id then replacedRow sessionId content metadata d else d) =
          NamespaceDocument.externalId := by
      funext d
      show NamespaceDocument.externalId (if d.id = id then _ else d) = d.externalId
      split <;> rfl
    rw [hexternal]
    exact s.unique

/-- `_checksum_dedup_applies` -/
def checksumDedupApplies [DecidableEq S] (existing : NamespaceDocument M S)
    (externalId : Option (List Char)) (sessionId : Option S) : Bool :=
  !(externalId.isSome && existing.externalId != externalId) &&
    !(sessionId.isSome && existing.sessionId != sessionId)

/-- `remember`, and the id of the document that it returns -/
def remember [DecidableEq H] [DecidableEq S] (ingest : Ingest M H) (s : NamespaceDocuments M S)
    (content : List Char) (metadata : M) (externalId : Option (List Char)) (sessionId : Option S) :
    NamespaceDocuments M S × ℕ :=
  let content := stripNul content
  let metadata := ingest.stripNulJson metadata
  let externalId := externalId.map stripNul
  match externalId.bind s.getByExternalId with
  | some existing => (s.replace existing.id sessionId content metadata, existing.id)
  | none =>
    match s.getByChecksum ingest.checksum content with
    | some existing =>
      if checksumDedupApplies existing externalId sessionId then (s, existing.id)
      else (s.create externalId sessionId content metadata, s.nextId)
    | none => (s.create externalId sessionId content metadata, s.nextId)

/-! ## Lookups -/

theorem eq_of_id_eq (s : NamespaceDocuments M S) {d d' : NamespaceDocument M S} (hd : d ∈ s.docs)
    (hd' : d' ∈ s.docs) (h : d.id = d'.id) : d = d' :=
  List.inj_on_of_nodup_map s.distinct hd hd' h

/-- One document has an external id. -/
theorem eq_of_externalId_eq (s : NamespaceDocuments M S) {d d' : NamespaceDocument M S}
    {x : List Char} (hd : d ∈ s.docs) (hd' : d' ∈ s.docs) (h : d.externalId = some x)
    (h' : d'.externalId = some x) : d = d' := by
  have hpair := List.pairwise_filterMap.mp s.unique
  have : Std.Symm fun a b : NamespaceDocument M S =>
      ∀ y, a.externalId = some y → ∀ z, b.externalId = some z → y ≠ z :=
    ⟨fun _ _ hab y hy z hz heq => hab z hz y hy heq.symm⟩
  by_contra hne
  exact hpair.forall hd hd' hne x h x h' rfl

theorem getByExternalId_eq_some_iff {s : NamespaceDocuments M S} {x : List Char}
    {d : NamespaceDocument M S} :
    s.getByExternalId x = some d ↔ d ∈ s.docs ∧ d.externalId = some x := by
  unfold getByExternalId
  constructor
  · intro h
    exact ⟨List.mem_of_find?_eq_some h, by simpa using List.find?_some h⟩
  · rintro ⟨hd, hx⟩
    cases h : s.docs.find? fun d => decide (d.externalId = some x) with
    | none => exact absurd (decide_eq_true hx) (List.find?_eq_none.mp h d hd)
    | some d' =>
      rw [s.eq_of_externalId_eq hd (List.mem_of_find?_eq_some h) hx
        (by simpa using List.find?_some h)]

theorem getByExternalId_eq_none_iff {s : NamespaceDocuments M S} {x : List Char} :
    s.getByExternalId x = none ↔ ∀ d ∈ s.docs, d.externalId ≠ some x := by
  unfold getByExternalId
  rw [List.find?_eq_none]
  exact forall₂_congr fun d _ => by rw [decide_eq_true_eq]

theorem unclaimed_of_getByExternalId {s : NamespaceDocuments M S} {x : List Char}
    (h : s.getByExternalId x = none) : s.Unclaimed (some x) := by
  rw [unclaimed_iff]
  intro d hd y hy
  rw [Option.mem_some_iff] at hy
  subst hy
  exact getByExternalId_eq_none_iff.mp h d hd

/-! ## What the calls leave -/

theorem mem_forget {s : NamespaceDocuments M S} {id : ℕ} {d : NamespaceDocument M S} :
    d ∈ (s.forget id).docs ↔ d ∈ s.docs ∧ d.id ≠ id := by
  show d ∈ s.docs.filter _ ↔ _
  rw [List.mem_filter, decide_eq_true_eq]

/-- Forgetting the document found leaves its external id free. -/
theorem mem_forget_found {s : NamespaceDocuments M S} {x : List Char} {d e : NamespaceDocument M S}
    (h : s.getByExternalId x = some d) :
    e ∈ (s.forget d.id).docs ↔ e ∈ s.docs ∧ e.externalId ≠ some x := by
  rw [getByExternalId_eq_some_iff] at h
  rw [mem_forget]
  refine and_congr_right fun he => not_congr ?_
  constructor
  · intro hid
    rw [s.eq_of_id_eq he h.1 hid]
    exact h.2
  · intro hx
    rw [s.eq_of_externalId_eq he h.1 hx h.2]

theorem docs_create {s : NamespaceDocuments M S} {externalId : Option (List Char)}
    {sessionId : Option S} {content : List Char} {metadata : M} (h : s.Unclaimed externalId) :
    (s.create externalId sessionId content metadata).docs =
      s.newDocument externalId sessionId content metadata :: s.docs := by
  unfold create
  rw [dif_pos h]

theorem nextId_create {s : NamespaceDocuments M S} {externalId : Option (List Char)}
    {sessionId : Option S} {content : List Char} {metadata : M} (h : s.Unclaimed externalId) :
    (s.create externalId sessionId content metadata).nextId = s.nextId + 1 := by
  unfold create
  rw [dif_pos h]

theorem docs_replace {s : NamespaceDocuments M S} {id : ℕ} {sessionId : Option S}
    {content : List Char} {metadata : M} :
    (s.replace id sessionId content metadata).docs =
      s.docs.map fun d => if d.id = id then replacedRow sessionId content metadata d else d := rfl

section Remember

variable [DecidableEq H] [DecidableEq S] {ingest : Ingest M H} {s : NamespaceDocuments M S}
  {content : List Char} {metadata : M} {externalId : Option (List Char)} {sessionId : Option S}

/-- **What a `remember` can do.** -/
theorem remember_cases :
    (∃ x d, externalId.map stripNul = some x ∧ s.getByExternalId x = some d ∧
      s.remember ingest content metadata externalId sessionId =
        (s.replace d.id sessionId (stripNul content) (ingest.stripNulJson metadata), d.id)) ∨
    (s.Unclaimed (externalId.map stripNul) ∧
      ∃ d ∈ s.docs, ingest.checksum d.content = ingest.checksum (stripNul content) ∧
        checksumDedupApplies d (externalId.map stripNul) sessionId = true ∧
        s.remember ingest content metadata externalId sessionId = (s, d.id)) ∨
    (s.Unclaimed (externalId.map stripNul) ∧
      s.remember ingest content metadata externalId sessionId =
        (s.create (externalId.map stripNul) sessionId (stripNul content)
          (ingest.stripNulJson metadata), s.nextId)) := by
  cases hext : (externalId.map stripNul).bind s.getByExternalId with
  | some d =>
    obtain ⟨x, hx, hd⟩ := Option.bind_eq_some_iff.mp hext
    refine Or.inl ⟨x, d, hx, hd, ?_⟩
    simp only [remember, hext]
  | none =>
    have hfree : s.Unclaimed (externalId.map stripNul) := by
      rw [unclaimed_iff]
      intro d hd x hx
      rw [Option.mem_def] at hx
      rw [hx] at hext
      exact getByExternalId_eq_none_iff.mp hext d hd
    cases hsum : s.getByChecksum ingest.checksum (stripNul content) with
    | none => exact Or.inr (Or.inr ⟨hfree, by simp only [remember, hext, hsum]⟩)
    | some d =>
      by_cases hdup : checksumDedupApplies d (externalId.map stripNul) sessionId = true
      · refine Or.inr (Or.inl ⟨hfree, d, List.mem_of_find?_eq_some hsum,
          by simpa using List.find?_some hsum, hdup, ?_⟩)
        simp only [remember, hext, hsum, if_pos hdup]
      · refine Or.inr (Or.inr ⟨hfree, ?_⟩)
        simp only [remember, hext, hsum, if_neg hdup]

/-- A document under another external id is not taken for a duplicate. -/
theorem checksumDedupApplies_of_unclaimed {x : List Char} {d : NamespaceDocument M S}
    (hfree : s.Unclaimed (some x)) (hd : d ∈ s.docs) :
    checksumDedupApplies d (some x) sessionId = false := by
  have hne := unclaimed_iff.mp hfree d hd x rfl
  unfold checksumDedupApplies
  rw [Bool.and_eq_false_iff]
  apply Or.inl
  rw [Option.isSome_some, Bool.true_and, Bool.not_eq_false', bne_iff_ne]
  exact hne

/-- Without an external id, without a session and with content of its own, a document is created. -/
theorem remember_new (h : ∀ d ∈ s.docs, ingest.checksum d.content ≠ ingest.checksum (stripNul content)) :
    (s.remember ingest content metadata none sessionId).1.docs =
      s.newDocument none sessionId (stripNul content) (ingest.stripNulJson metadata) :: s.docs := by
  rcases @remember_cases _ _ _ _ _ ingest s content metadata none sessionId with
    ⟨x, d, hx, _⟩ | ⟨_, d, hd, heq, _⟩ | ⟨hfree, heq⟩
  · cases hx
  · exact absurd heq (h d hd)
  · rw [heq]
    exact docs_create hfree

/-- Without an external id and a session, content that is there already is not stored. -/
theorem remember_known (h : ∃ d ∈ s.docs, ingest.checksum d.content = ingest.checksum (stripNul content)) :
    (s.remember ingest content metadata none none).1 = s := by
  have hsum : ∃ d, s.getByChecksum ingest.checksum (stripNul content) = some d := by
    rw [← Option.isSome_iff_exists]
    unfold getByChecksum
    rw [List.find?_isSome]
    obtain ⟨d, hd, heq⟩ := h
    exact ⟨d, hd, decide_eq_true heq⟩
  obtain ⟨d, hsum⟩ := hsum
  unfold remember
  simp only [Option.map_none, Option.bind_none, hsum]
  exact congrArg Prod.fst (if_pos rfl)

/-- **Under an external id that is free, a document is created.** -/
theorem remember_eq_create {x : List Char} (h : s.Unclaimed (some (stripNul x))) :
    s.remember ingest content metadata (some x) sessionId =
      (s.create (some (stripNul x)) sessionId (stripNul content) (ingest.stripNulJson metadata),
        s.nextId) := by
  rcases @remember_cases _ _ _ _ _ ingest s content metadata (some x) sessionId with
    ⟨y, d, hy, hd, _⟩ | ⟨_, d, hd, _, hdup, _⟩ | ⟨_, heq⟩
  · rw [Option.map_some, Option.some.injEq] at hy
    subst hy
    rw [getByExternalId_eq_some_iff] at hd
    exact absurd hd.2 (unclaimed_iff.mp h d hd.1 _ rfl)
  · rw [Option.map_some, checksumDedupApplies_of_unclaimed h hd] at hdup
    cases hdup
  · exact heq

theorem remember_unclaimed {x : List Char} (h : s.Unclaimed (some (stripNul x))) :
    (s.remember ingest content metadata (some x) sessionId).1.docs =
      s.newDocument (some (stripNul x)) sessionId (stripNul content) (ingest.stripNulJson metadata) ::
        s.docs := by
  rw [remember_eq_create h]
  exact docs_create h

/-- Under an external id, `remember` replaces the document found or creates one. -/
theorem remember_externalId {x : List Char} :
    s.remember ingest content metadata (some x) sessionId =
      match s.getByExternalId (stripNul x) with
      | some d => (s.replace d.id sessionId (stripNul content) (ingest.stripNulJson metadata), d.id)
      | none => (s.create (some (stripNul x)) sessionId (stripNul content)
          (ingest.stripNulJson metadata), s.nextId) := by
  cases h : s.getByExternalId (stripNul x) with
  | some d =>
    unfold remember
    simp only [Option.map_some, Option.bind_some, h]
  | none =>
    exact remember_eq_create (unclaimed_of_getByExternalId h)

end Remember

/-! ## A part of the documents -/

section Part

variable {keep : ℕ → Bool} {s t : NamespaceDocuments M S}

/-- The documents with the ids that are kept. -/
def kept (keep : ℕ → Bool) (s : NamespaceDocuments M S) : List (NamespaceDocument M S) :=
  s.docs.filter fun d => keep d.id

@[simp] theorem mem_kept {d : NamespaceDocument M S} :
    d ∈ s.kept keep ↔ d ∈ s.docs ∧ keep d.id = true := List.mem_filter

/-- The documents of `t` are those of `s` that are kept. -/
def Part (keep : ℕ → Bool) (s t : NamespaceDocuments M S) : Prop := t.docs = s.kept keep

theorem Part.mem_iff (h : Part keep s t) {d : NamespaceDocument M S} :
    d ∈ t.docs ↔ d ∈ s.docs ∧ keep d.id = true := by
  rw [h, mem_kept]

theorem Part.forget (h : Part keep s t) (id : ℕ) : Part keep (s.forget id) (t.forget id) := by
  show t.docs.filter _ = (s.docs.filter _).filter _
  rw [h, kept, List.filter_comm]

/-- Forgetting what is not kept. -/
theorem kept_forget {id : ℕ} (hid : keep id = false) : (s.forget id).kept keep = s.kept keep := by
  show (s.docs.filter _).filter _ = _
  rw [List.filter_filter]
  apply List.filter_congr
  intro d _
  by_cases hd : d.id = id
  · rw [hd, hid, Bool.false_and]
  · rw [decide_eq_true hd, Bool.and_true]

theorem Part.replace (h : Part keep s t) (id : ℕ) (sessionId : Option S) (content : List Char)
    (metadata : M) :
    Part keep (s.replace id sessionId content metadata) (t.replace id sessionId content metadata) := by
  unfold Part kept
  rw [docs_replace, docs_replace, h, kept, List.filter_map]
  congr 1
  apply List.filter_congr
  intro d _
  show keep d.id = keep (NamespaceDocument.id (if d.id = id then _ else d))
  split <;> rfl

/-- Replacing what is not kept. -/
theorem kept_replace {id : ℕ} (hid : keep id = false) (sessionId : Option S) (content : List Char)
    (metadata : M) : (s.replace id sessionId content metadata).kept keep = s.kept keep := by
  unfold kept
  rw [docs_replace]
  generalize s.docs = ds
  induction ds with
  | nil => rfl
  | cons d ds ih =>
    rw [List.map_cons]
    by_cases hd : d.id = id
    · have hdrop : keep d.id = false := by rw [hd, hid]
      rw [if_pos hd, List.filter_cons_of_neg (by exact Bool.eq_false_iff.mp hdrop),
        List.filter_cons_of_neg (by exact Bool.eq_false_iff.mp hdrop), ih]
    · rw [if_neg hd, List.filter_cons, List.filter_cons, ih]

theorem Part.unclaimed (h : Part keep s t) {externalId : Option (List Char)}
    (hfree : s.Unclaimed externalId) : t.Unclaimed externalId := by
  rw [unclaimed_iff] at hfree ⊢
  exact fun d hd => hfree d (h.mem_iff.mp hd).1

theorem Part.getByExternalId (h : Part keep s t) {x : List Char}
    (hkeep : ∀ d ∈ s.getByExternalId x, keep d.id = true) :
    t.getByExternalId x = s.getByExternalId x := by
  cases hs : s.getByExternalId x with
  | none =>
    rw [getByExternalId_eq_none_iff] at hs ⊢
    exact fun d hd => hs d (h.mem_iff.mp hd).1
  | some d =>
    have hd := hkeep d hs
    rw [getByExternalId_eq_some_iff] at hs ⊢
    exact ⟨h.mem_iff.mpr ⟨hs.1, hd⟩, hs.2⟩

variable [DecidableEq H] [DecidableEq S] {ingest : Ingest M H} {content : List Char} {metadata : M}
  {sessionId : Option S} {x : List Char}

/-- **A document that is kept is remembered alike.** -/
theorem Part.remember (h : Part keep s t) (hnext : t.nextId = s.nextId) (hnew : keep s.nextId = true)
    (hfound : ∀ d ∈ s.getByExternalId (stripNul x), keep d.id = true) :
    Part keep (s.remember ingest content metadata (some x) sessionId).1
        (t.remember ingest content metadata (some x) sessionId).1 ∧
      (t.remember ingest content metadata (some x) sessionId).1.nextId =
        (s.remember ingest content metadata (some x) sessionId).1.nextId ∧
      (t.remember ingest content metadata (some x) sessionId).2 =
        (s.remember ingest content metadata (some x) sessionId).2 ∧
      keep (s.remember ingest content metadata (some x) sessionId).2 = true := by
  rw [remember_externalId, remember_externalId, h.getByExternalId hfound]
  cases hs : s.getByExternalId (stripNul x) with
  | some d => exact ⟨h.replace _ _ _ _, hnext, rfl, hfound d hs⟩
  | none =>
    have hfree := unclaimed_of_getByExternalId hs
    refine ⟨?_, ?_, hnext, hnew⟩
    · show (t.create _ _ _ _).docs = (s.create _ _ _ _).docs.filter _
      rw [docs_create hfree, docs_create (h.unclaimed hfree), h]
      unfold newDocument
      rw [hnext, List.filter_cons_of_pos (by exact hnew)]
      rfl
    · show (t.create _ _ _ _).nextId = (s.create _ _ _ _).nextId
      rw [nextId_create hfree, nextId_create (h.unclaimed hfree), hnext]

/-- **Remembering what is not kept.** -/
theorem kept_remember (hnew : keep s.nextId = false)
    (hfound : ∀ d ∈ s.getByExternalId (stripNul x), keep d.id = false) :
    (s.remember ingest content metadata (some x) sessionId).1.kept keep = s.kept keep := by
  rw [remember_externalId]
  cases hs : s.getByExternalId (stripNul x) with
  | some d => exact kept_replace (hfound d hs) _ _ _
  | none =>
    have hfree := unclaimed_of_getByExternalId hs
    show (s.create _ _ _ _).docs.filter _ = _
    rw [docs_create hfree, List.filter_cons_of_neg (by exact Bool.eq_false_iff.mp hnew)]
    rfl

theorem nextId_remember :
    (s.remember ingest content metadata (some x) sessionId).1.nextId = s.nextId ∨
      (s.remember ingest content metadata (some x) sessionId).1.nextId = s.nextId + 1 := by
  rw [remember_externalId]
  cases hs : s.getByExternalId (stripNul x) with
  | some d => exact Or.inl rfl
  | none => exact Or.inr (nextId_create (unclaimed_of_getByExternalId hs))

end Part

end NamespaceDocuments

end Khora
