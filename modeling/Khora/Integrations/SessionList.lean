import Khora.Integrations.KhoraSession
import Khora.Lib.Pages
import Std.Data.String.ToNat

/-!
# A session as a list

The calls of several `KhoraSession` objects for one session id, one after the other, beside a list.  An
item is its JSON text in the metadata of a document; its place is a number that each object counts for
itself, from what it has discovered last.

* `session_answers_as_list` — the answers are those of a list in every run in which no object writes under a counter
  that another has passed, no null is read, and no read has the limit zero.
* `counter_passed_by_another` — an item is replaced by a later one; a limit of zero returns every item;
  and a null is left out.
-/

namespace Khora

namespace SessionList

/-- JSON values and their texts: `json.dumps` and `json.loads`, which reads what was written. -/
structure JsonText (J : Type) where
  null : J
  dumps : J → String
  loads : String → Option J
  loads_dumps : ∀ x, loads (dumps x) = some x

/-- A call. -/
inductive SessionOp (J : Type) where
  | addItems (items : List J)
  | popItem
  | clearSession
  | getItems (limit : Option ℤ)
deriving DecidableEq, Repr

inductive Answer (J : Type) where
  | done
  | popped (item : J)
  | items (items : List J)
deriving DecidableEq, Repr

/-- The documents of the namespace, and `_next_seq` of each object. -/
structure State (W U : Type) where
  docs : KhoraSession.Docs String U
  nextSeq : W → Option ℕ

open KhoraSession (Docs Doc seqOf pageSize missingSeq discoveredSeq)

section Model

variable {J W U H : Type} [DecidableEq J] [DecidableEq W] [DecidableEq U] [DecidableEq H]
variable (json : JsonText J) (session : KhoraSession String U H)

/-! ## The calls -/

/-- The document is stamped with the session. -/
def isOwn (d : Doc String U) : Bool := decide (d.metadata.oaiSessionId = some session.sessionId)

/-- `_load_session_documents` -/
def loadSessionDocuments (docs : Docs String U) : List (Doc String U) :=
  SortBy.sortBy seqOf (Pages.foldPages pageSize (fun _ => false)
    (fun gathered d => if isOwn session d then gathered ++ [d] else gathered) docs.docs (docs.docs.length + 1) 0 [])

/-- `_decode_item_from_doc` -/
def decodeItem (d : Doc String U) : J :=
  match d.metadata.oaiItem with
  | none => json.null
  | some raw => (json.loads raw).getD json.null

/-- `get_items`; `items[-0:]` is the whole list. -/
def getItems (docs : Docs String U) (limit : Option ℤ) : List J :=
  let items := ((loadSessionDocuments session docs).map (decodeItem json)).filter (· ≠ json.null)
  match limit with
  | none => items
  | some l =>
      if 0 ≤ l ∧ l < items.length then
        if l = 0 then items else items.drop (items.length - l.toNat)
      else items

/-- One turn of the loop of `add_items`. -/
def addItem (docs : Docs String U) (seq : ℕ) (item : J) : Docs String U :=
  let docs :=
    match docs.getByExternalId (session.eventExternalId seq) with
    | some existing => docs.forget existing.id
    | none => docs
  (docs.remember session.ingest (session.content (json.dumps item)) (session.itemMetadata seq (json.dumps item))
    (some (session.eventExternalId seq)) (some session.sessionUuid)).1

def addLoop (docs : Docs String U) (seq : ℕ) : List J → Docs String U
  | [] => docs
  | item :: items => addLoop (addItem json session docs seq item) (seq + 1) items

/-- The number that the next `add_items` of the object begins with. -/
def startSeq (s : State W U) (who : W) : ℕ :=
  (s.nextSeq who).getD (discoveredSeq (loadSessionDocuments session s.docs))

/-- A call of an object. -/
def step (s : State W U) (call : W × SessionOp J) : State W U × Answer J :=
  match call with
  | (_, .addItems []) => (s, .done)
  | (who, .addItems items) =>
      let start := startSeq session s who
      (⟨addLoop json session s.docs start items, Function.update s.nextSeq who (some (start + items.length))⟩, .done)
  | (who, .popItem) =>
      match (loadSessionDocuments session s.docs).getLast? with
      | none => (s, .popped json.null)
      | some last =>
          (⟨s.docs.forget last.id, Function.update s.nextSeq who none⟩, .popped (decodeItem json last))
  | (who, .clearSession) =>
      (⟨(loadSessionDocuments session s.docs).foldl (fun docs d => docs.forget d.id) s.docs,
        Function.update s.nextSeq who (some 0)⟩, .done)
  | (_, .getItems limit) => (s, .items (getItems json session s.docs limit))

def next (s : State W U) (call : W × SessionOp J) : State W U := (step json session s call).1

/-- The answers of the calls, in order. -/
def answers : State W U → List (W × SessionOp J) → List (Answer J)
  | _, [] => []
  | s, call :: calls => (step json session s call).2 :: answers (next json session s call) calls

/-! ## A list -/

/-- A call on a list; `limit` is the number of the last items. -/
def listStep (xs : List J) : SessionOp J → List J × Answer J
  | .addItems items => (xs ++ items, .done)
  | .popItem => (xs.dropLast, .popped (xs.getLast?.getD json.null))
  | .clearSession => ([], .done)
  | .getItems none => (xs, .items xs)
  | .getItems (some limit) => (xs, .items (xs.drop (xs.length - limit.toNat)))

def listAnswers : List J → List (SessionOp J) → List (Answer J)
  | _, [] => []
  | xs, op :: ops => (listStep json xs op).2 :: listAnswers (listStep json xs op).1 ops

/-! ## The condition -/

/-- The documents of the session, in the order of the listing. -/
def ownDocs (docs : Docs String U) : List (Doc String U) := docs.docs.filter (isOwn session)

/-- The counter of an object that adds is past every number, the numbers do not reach the one that
stands for none, and nothing null is read, nor with the limit zero. -/
def Meets (s : State W U) : W × SessionOp J → Prop
  | (_, .addItems []) => True
  | (who, .addItems items) => '\x00' ∉ session.sessionId ∧
      (∀ n ∈ s.nextSeq who, ∀ d ∈ ownDocs session s.docs, seqOf d < n) ∧
      (missingSeq < startSeq session s who ∨ startSeq session s who + items.length ≤ missingSeq)
  | (_, .popItem) => True
  | (_, .clearSession) => True
  | (_, .getItems none) => ∀ d ∈ loadSessionDocuments session s.docs, decodeItem json d ≠ json.null
  | (_, .getItems (some limit)) =>
      (0 < limit ∧ ∀ d ∈ (loadSessionDocuments session s.docs).drop
        ((loadSessionDocuments session s.docs).length - limit.toNat), decodeItem json d ≠ json.null) ∨
      (limit = 0 ∧ ∀ d ∈ loadSessionDocuments session s.docs, decodeItem json d = json.null)

/-! ## Loading -/

omit [DecidableEq U] [DecidableEq H] in
theorem loadSessionDocuments_eq (docs : Docs String U) :
    loadSessionDocuments session docs = SortBy.sortBy seqOf (ownDocs session docs) := by
  have hfold : ∀ (l gathered : List (Doc String U)), l.foldl (fun gathered d =>
      if isOwn session d then gathered ++ [d] else gathered) gathered = gathered ++ l.filter (isOwn session) := by
    intro l
    induction l with
    | nil => exact fun gathered => (List.append_nil _).symm
    | cons d l ih =>
      intro gathered
      rw [List.foldl_cons, ih]
      cases hd : isOwn session d with
      | true => simp [hd]
      | false => simp [hd]
  have hpage : 0 < pageSize := by decide
  rw [loadSessionDocuments, Pages.foldPages_eq hpage (fun _ _ h => absurd h Bool.false_ne_true) _ (Nat.lt_succ_self _),
    List.drop_zero, hfold]
  rfl

omit [DecidableEq U] [DecidableEq H] in
theorem mem_loadSessionDocuments {docs : Docs String U} {d : Doc String U} :
    d ∈ loadSessionDocuments session docs ↔ d ∈ ownDocs session docs := by
  rw [loadSessionDocuments_eq, SortBy.mem_sortBy]

/-! ## Numbers in external ids -/

theorem digits_plain (n : ℕ) : ∀ c ∈ (toString n).toList, c ≠ ':' ∧ c ≠ '\x00' := by
  intro c hc
  have hdigit : c.isDigit = true := by
    apply Nat.isDigit_of_mem_toDigits (b := 10) (n := n) (by decide) (by decide)
    simpa [Nat.repr] using hc
  constructor
  · rintro rfl
    exact absurd hdigit (by decide)
  · rintro rfl
    exact absurd hdigit (by decide)

omit [DecidableEq U] [DecidableEq H] in
/-- The number is what stands behind the last colon. -/
theorem stripNul_eventExternalId (seq : ℕ) : ∃ front,
    stripNul (session.eventExternalId seq) = front ++ ':' :: (toString seq).toList := by
  have hdigits : stripNul (toString seq).toList = (toString seq).toList :=
    stripNul_eq_self_iff.mpr fun h => (digits_plain seq _ h).2 rfl
  have hsplit : ∀ front : List Char, stripNul (front ++ ":".toList ++ (toString seq).toList) =
      stripNul front ++ ':' :: (toString seq).toList := by
    intro front
    rw [stripNul, List.filter_append, List.filter_append, List.append_assoc]
    congr 1
    exact congrArg (':' :: ·) hdigits
  unfold KhoraSession.eventExternalId
  simp only
  split
  · exact ⟨_, hsplit _⟩
  · exact ⟨_, hsplit _⟩

omit [DecidableEq U] [DecidableEq H] in
/-- **No two numbers have one external id.** -/
theorem eventExternalId_inj {m n : ℕ}
    (h : stripNul (session.eventExternalId m) = stripNul (session.eventExternalId n)) : m = n := by
  obtain ⟨front, hm⟩ := stripNul_eventExternalId session m
  obtain ⟨front', hn⟩ := stripNul_eventExternalId session n
  rw [hm, hn] at h
  have hlast : ∀ (k : ℕ) (x : List Char),
      ((x ++ ':' :: (toString k).toList).reverse.takeWhile (· ≠ ':')).reverse = (toString k).toList := by
    intro k x
    have hk : ∀ c ∈ (toString k).toList.reverse, decide (c ≠ ':') = true :=
      fun c hc => decide_eq_true (digits_plain k c (List.mem_reverse.mp hc)).1
    rw [List.reverse_append, List.reverse_cons, List.append_assoc, List.takeWhile_append_of_pos hk]
    simp
  have hread := congrArg (fun x : List Char => (x.reverse.takeWhile (· ≠ ':')).reverse) h
  have hdigits := (hlast m front).symm.trans (hread.trans (hlast n front'))
  exact Nat.repr_injective (String.toList_inj.mp hdigits)

/-! ## The session holds a list -/

/-- The documents of the session, by their numbers, are the items in order. -/
structure Holds (docs : Docs String U) (xs : List J) : Prop where
  items : (loadSessionDocuments session docs).map (fun d => d.metadata.oaiItem) = xs.map fun x => some (json.dumps x)
  ascending : (loadSessionDocuments session docs).Pairwise fun a b => seqOf a < seqOf b
  named : ∀ d ∈ ownDocs session docs, seqOf d ≠ missingSeq ∧
    d.externalId = some (stripNul (session.eventExternalId (seqOf d)))

section Holds

variable {json session} {docs : Docs String U} {xs : List J}

omit [DecidableEq J] [DecidableEq U] [DecidableEq H] in
theorem Holds.decode (h : Holds json session docs xs) :
    (loadSessionDocuments session docs).map (decodeItem json) = xs := by
  have hdecode : ∀ d : Doc String U, decodeItem json d =
      (d.metadata.oaiItem.elim json.null fun raw => (json.loads raw).getD json.null) := by
    intro d
    unfold decodeItem
    cases d.metadata.oaiItem <;> rfl
  calc (loadSessionDocuments session docs).map (decodeItem json)
      = ((loadSessionDocuments session docs).map fun d => d.metadata.oaiItem).map
          fun item => item.elim json.null fun raw => (json.loads raw).getD json.null := by
        rw [List.map_map]
        exact List.map_congr_left fun d _ => hdecode d
    _ = xs := by
        rw [h.items, List.map_map]
        refine (List.map_congr_left fun x _ => ?_).trans (List.map_id xs)
        simp [json.loads_dumps]

omit [DecidableEq J] [DecidableEq U] [DecidableEq H] in
/-- A session without documents holds the empty list. -/
theorem holds_nil (hown : ownDocs session docs = []) : Holds json session docs ([] : List J) := by
  have hload : loadSessionDocuments session docs = [] := by
    rw [loadSessionDocuments_eq, hown]
    rfl
  constructor
  · rw [hload]
    rfl
  · rw [hload]
    exact List.Pairwise.nil
  · rw [hown]
    exact fun d hd => absurd hd List.not_mem_nil

omit [DecidableEq J] [DecidableEq U] [DecidableEq H] in
/-- **The number discovered is past every other.** -/
theorem Holds.lt_discovered (h : Holds json session docs xs) :
    ∀ d ∈ ownDocs session docs, seqOf d < discoveredSeq (loadSessionDocuments session docs) := by
  have hfold : ∀ (l : List (Doc String U)) (n : ℕ), (∀ d ∈ l, seqOf d ≠ missingSeq) →
      n ≤ l.foldl (fun next d => if seqOf d ≠ missingSeq ∧ next ≤ seqOf d then seqOf d + 1 else next) n ∧
      ∀ d ∈ l, seqOf d <
        l.foldl (fun next d => if seqOf d ≠ missingSeq ∧ next ≤ seqOf d then seqOf d + 1 else next) n := by
    intro l
    induction l with
    | nil => exact fun n _ => ⟨Nat.le_refl n, fun d hd => absurd hd List.not_mem_nil⟩
    | cons d l ih =>
      intro n hl
      rw [List.forall_mem_cons] at hl
      obtain ⟨hge, hall⟩ := ih (if seqOf d ≠ missingSeq ∧ n ≤ seqOf d then seqOf d + 1 else n) hl.2
      rw [List.foldl_cons, List.forall_mem_cons]
      by_cases hcase : n ≤ seqOf d
      · rw [if_pos ⟨hl.1, hcase⟩] at hge hall ⊢
        exact ⟨by omega, by omega, hall⟩
      · rw [if_neg fun hand => hcase hand.2] at hge hall ⊢
        exact ⟨hge, by omega, hall⟩
  intro d hd
  refine (hfold _ 0 fun e he => ?_).2 d ?_
  · exact (h.named e ((mem_loadSessionDocuments session).mp (SortBy.mem_sortBy.mp he))).1
  · exact SortBy.mem_sortBy.mpr ((mem_loadSessionDocuments session).mpr hd)

omit [DecidableEq J] in
/-- **An item under a number past every other** goes to the end. -/
theorem Holds.addItem (h : Holds json session docs xs) (hsession : '\x00' ∉ session.sessionId)
    (hsha : ∀ x, '\x00' ∉ session.sha1 x) {seq : ℕ} (hseq : seq ≠ missingSeq)
    (hpast : ∀ d ∈ ownDocs session docs, seqOf d < seq) (item : J) :
    Holds json session (addItem json session docs seq item) (xs ++ [item]) ∧
      ∀ d ∈ ownDocs session (addItem json session docs seq item), seqOf d < seq + 1 := by
  have hplain : '\x00' ∉ session.eventExternalId seq := by
    have hdigits : '\x00' ∉ (toString seq).toList := fun hmem => (digits_plain seq _ hmem).2 rfl
    unfold KhoraSession.eventExternalId
    generalize (toString seq).toList = digits at hdigits ⊢
    simp only
    split
    · simp [hsession, hdigits]
    · simp [hsha, hdigits]
  have hstrip := stripNul_eq_self_iff.mpr hplain
  -- a document found under the external id is not the session's own
  obtain ⟨docs', hstart, hfree, hkept⟩ : ∃ docs' : Docs String U,
      docs' = (match docs.getByExternalId (session.eventExternalId seq) with
        | some existing => docs.forget existing.id
        | none => docs) ∧
      docs'.Unclaimed (some (stripNul (session.eventExternalId seq))) ∧
      ownDocs session docs' = ownDocs session docs := by
    refine ⟨_, rfl, ?_⟩
    cases hfound : docs.getByExternalId (session.eventExternalId seq) with
    | none =>
      rw [hstrip]
      exact ⟨NamespaceDocuments.unclaimed_of_getByExternalId hfound, rfl⟩
    | some existing =>
      constructor
      · rw [hstrip, NamespaceDocuments.unclaimed_iff]
        rintro d hd x hx
        obtain rfl := Option.some.inj hx
        exact ((NamespaceDocuments.mem_forget_found hfound).mp hd).2
      · show (docs.docs.filter _).filter _ = _
        rw [List.filter_comm]
        refine List.filter_eq_self.mpr fun d hd => decide_eq_true ?_
        intro hid
        obtain ⟨hmem, hext⟩ := NamespaceDocuments.getByExternalId_eq_some_iff.mp hfound
        obtain rfl := docs.eq_of_id_eq (List.mem_filter.mp hd).1 hmem hid
        have hname := Option.some.inj ((h.named d hd).2.symm.trans (hext.trans (congrArg some hstrip.symm)))
        have hlt := hpast d hd
        rw [eventExternalId_inj session hname] at hlt
        exact Nat.lt_irrefl _ hlt
  have hdocs : ∃ new : Doc String U, (SessionList.addItem json session docs seq item).docs = new :: docs'.docs ∧
      new.metadata = session.storedMetadata seq (json.dumps item) ∧
      new.externalId = some (stripNul (session.eventExternalId seq)) := by
    refine ⟨docs'.newDocument (some (stripNul (session.eventExternalId seq))) (some session.sessionUuid)
      (stripNul (session.content (json.dumps item))) (session.storedMetadata seq (json.dumps item)), ?_, rfl, rfl⟩
    rw [SessionList.addItem, ← hstart]
    exact NamespaceDocuments.remember_unclaimed hfree
  obtain ⟨new, hdocs, hmeta, hext⟩ := hdocs
  have hstored : new.metadata = ⟨some session.sessionId, some seq, some (json.dumps item)⟩ := by
    rw [hmeta, KhoraSession.storedMetadata, KhoraSession.ingest, KhoraSession.itemMetadata]
    simp [stripNul_eq_self_iff.mpr hsession]
  have hnewSeq : seqOf new = seq := by
    rw [KhoraSession.seqOf, hstored]
    rfl
  have hown : ownDocs session (SessionList.addItem json session docs seq item) = new :: ownDocs session docs := by
    rw [ownDocs, hdocs, List.filter_cons_of_pos, ← hkept]
    · rfl
    · rw [isOwn, hstored]
      exact decide_eq_true rfl
  have hload : loadSessionDocuments session (SessionList.addItem json session docs seq item) =
      loadSessionDocuments session docs ++ [new] := by
    rw [loadSessionDocuments_eq, hown]
    apply SortBy.sortBy_eq
    · rw [loadSessionDocuments_eq]
      exact (List.perm_append_singleton _ _).trans ((SortBy.perm_sortBy _).cons new)
    · refine List.pairwise_append.mpr ⟨h.ascending, List.pairwise_singleton _ _, fun d hd e he => ?_⟩
      rw [List.mem_singleton.mp he, hnewSeq]
      exact hpast d ((mem_loadSessionDocuments session).mp hd)
  refine ⟨⟨?_, ?_, ?_⟩, ?_⟩
  · rw [hload, List.map_append, List.map_append, h.items]
    congr 1
    rw [List.map_singleton, List.map_singleton, hstored]
  · rw [hload]
    refine List.pairwise_append.mpr ⟨h.ascending, List.pairwise_singleton _ _, fun d hd e he => ?_⟩
    rw [List.mem_singleton.mp he, hnewSeq]
    exact hpast d ((mem_loadSessionDocuments session).mp hd)
  · rw [hown, List.forall_mem_cons]
    refine ⟨?_, h.named⟩
    rw [hnewSeq]
    exact ⟨hseq, hext⟩
  · rw [hown, List.forall_mem_cons, hnewSeq]
    exact ⟨Nat.lt_succ_self seq, fun d hd => Nat.lt_succ_of_lt (hpast d hd)⟩

omit [DecidableEq J] in
/-- The items of a call, one after the other. -/
theorem Holds.addLoop (hsession : '\x00' ∉ session.sessionId) (hsha : ∀ x, '\x00' ∉ session.sha1 x)
    {items : List J} : ∀ {docs : Docs String U} {xs : List J} {seq : ℕ}, Holds json session docs xs →
      missingSeq < seq ∨ seq + items.length ≤ missingSeq → (∀ d ∈ ownDocs session docs, seqOf d < seq) →
      Holds json session (addLoop json session docs seq items) (xs ++ items) := by
  induction items with
  | nil =>
    intro docs xs seq h _ _
    rwa [List.append_nil]
  | cons item items ih =>
    intro docs xs seq h hseq hpast
    rw [List.length_cons] at hseq
    obtain ⟨hnext, hpast'⟩ := h.addItem hsession hsha (by omega) hpast item
    have hrest := ih hnext (by omega) hpast'
    rwa [List.append_assoc] at hrest

omit [DecidableEq J] [DecidableEq U] [DecidableEq H] in
/-- The last document goes with the last item. -/
theorem Holds.forget (h : Holds json session docs xs) {front : List (Doc String U)} {last : Doc String U}
    (hload : loadSessionDocuments session docs = front ++ [last]) :
    Holds json session (docs.forget last.id) xs.dropLast := by
  have hlast : last ∈ docs.docs := by
    have hmem : last ∈ loadSessionDocuments session docs := hload ▸ List.mem_append_right _ (List.mem_singleton.mpr rfl)
    exact (List.mem_filter.mp ((mem_loadSessionDocuments session).mp hmem)).1
  have hown : ownDocs session (docs.forget last.id) =
      (ownDocs session docs).filter fun d => decide (d.id ≠ last.id) := by
    show (docs.docs.filter _).filter _ = (docs.docs.filter _).filter _
    rw [List.filter_comm]
  have hasc := h.ascending
  rw [hload] at hasc
  obtain ⟨hfront, -, hbelow⟩ := List.pairwise_append.mp hasc
  have hloaded : loadSessionDocuments session (docs.forget last.id) = front := by
    rw [loadSessionDocuments_eq, hown]
    apply SortBy.sortBy_eq _ hfront
    have hperm : (front ++ [last]).Perm (ownDocs session docs) := by
      rw [← hload, loadSessionDocuments_eq]
      exact SortBy.perm_sortBy _
    have hfilter : ((front ++ [last]).filter fun d => decide (d.id ≠ last.id)) = front := by
      rw [List.filter_append, List.filter_eq_self.mpr]
      · simp
      · intro d hd
        refine decide_eq_true fun hid => ?_
        have hmem : d ∈ loadSessionDocuments session docs := hload ▸ List.mem_append_left _ hd
        have heq := docs.eq_of_id_eq (List.mem_filter.mp ((mem_loadSessionDocuments session).mp hmem)).1 hlast hid
        have hlt := hbelow d hd last (List.mem_singleton.mpr rfl)
        rw [heq] at hlt
        exact Nat.lt_irrefl _ hlt
    rw [← hfilter]
    exact hperm.filter _
  constructor
  · have hitems := congrArg List.dropLast h.items
    rw [hload, List.map_append, List.map_singleton, List.dropLast_concat] at hitems
    rw [hloaded, hitems, List.map_dropLast]
  · rw [hloaded]
    exact hfront
  · intro d hd
    rw [hown] at hd
    exact h.named d (List.mem_filter.mp hd).1

omit [DecidableEq U] [DecidableEq H] in
/-- Forgetting every document of the session leaves it empty. -/
theorem ownDocs_foldl_forget (docs : Docs String U) :
    ownDocs session ((loadSessionDocuments session docs).foldl (fun docs d => docs.forget d.id) docs) = [] := by
  have hfold : ∀ (l : List (Doc String U)) (docs : Docs String U) (d : Doc String U),
      d ∈ (l.foldl (fun docs d => docs.forget d.id) docs).docs ↔ d ∈ docs.docs ∧ ∀ e ∈ l, d.id ≠ e.id := by
    intro l
    induction l with
    | nil => simp
    | cons e l ih =>
      intro docs d
      rw [List.foldl_cons, ih, NamespaceDocuments.mem_forget, List.forall_mem_cons, and_assoc]
  refine List.filter_eq_nil_iff.mpr fun d hd howned => ?_
  obtain ⟨hmem, hnone⟩ := (hfold _ docs d).mp hd
  exact hnone d ((mem_loadSessionDocuments session).mpr (List.mem_filter.mpr ⟨hmem, howned⟩)) rfl

end Holds

/-! ## One call -/

/-- The end of a list, if nothing in it is left out. -/
theorem drop_filter {X : Type} {p : X → Bool} {xs : List X} {l : ℕ} (h : ∀ x ∈ xs.drop (xs.length - l), p x = true) :
    (if l < (xs.filter p).length then (xs.filter p).drop ((xs.filter p).length - l) else xs.filter p) =
      xs.drop (xs.length - l) := by
  have hsplit : xs.filter p = (xs.take (xs.length - l)).filter p ++ xs.drop (xs.length - l) := by
    conv_lhs => rw [← List.take_append_drop (xs.length - l) xs, List.filter_append]
    rw [List.filter_eq_self.mpr h]
  have hlength : (xs.drop (xs.length - l)).length = min l xs.length := by
    rw [List.length_drop]
    omega
  rw [hsplit, List.length_append, hlength]
  generalize hfront : (xs.take (xs.length - l)).filter p = front
  have hshort : xs.length ≤ l → front = [] := by
    intro hle
    rw [← hfront, Nat.sub_eq_zero_of_le hle]
    rfl
  by_cases hle : xs.length ≤ l
  · rw [hshort hle, if_neg (by simp [hle]), List.nil_append]
  · rw [Nat.min_eq_left (by omega)]
    by_cases hempty : front = []
    · rw [hempty, if_neg (by simp), List.nil_append]
    · have hpos := List.length_pos_of_ne_nil hempty
      rw [if_pos (by omega), Nat.add_sub_cancel, List.drop_left]

section Step

variable {json session} {xs : List J}

omit [DecidableEq W] [DecidableEq U] [DecidableEq H] in
theorem Holds.getItems {s : State W U} (h : Holds json session s.docs xs) {who : W} {limit : Option ℤ}
    (hmeets : Meets json session s (who, .getItems limit)) :
    Answer.items (getItems json session s.docs limit) = (listStep json xs (.getItems limit)).2 := by
  unfold SessionList.getItems
  rw [h.decode]
  cases limit with
  | none =>
    simp only [listStep]
    rw [List.filter_eq_self.mpr]
    intro x hx
    rw [← h.decode] at hx
    obtain ⟨d, hd, rfl⟩ := List.mem_map.mp hx
    exact decide_eq_true (hmeets d hd)
  | some l =>
    simp only [listStep]
    congr 1
    rcases hmeets with ⟨hpos, hlast⟩ | ⟨rfl, hnull⟩
    · have hdrop := @drop_filter J (fun x => decide (x ≠ json.null)) xs l.toNat (fun x hx => by
        rw [← h.decode, ← List.map_drop, List.length_map] at hx
        obtain ⟨d, hd, rfl⟩ := List.mem_map.mp hx
        exact decide_eq_true (hlast d hd))
      have hcond : (0 ≤ l ∧ l < (xs.filter fun x => decide (x ≠ json.null)).length) ↔
          l.toNat < (xs.filter fun x => decide (x ≠ json.null)).length := by omega
      rw [← hdrop, if_neg (show l ≠ 0 by omega)]
      exact if_congr hcond rfl rfl
    · have hnone : xs.filter (fun x => decide (x ≠ json.null)) = [] := by
        refine List.filter_eq_nil_iff.mpr fun x hx => ?_
        rw [← h.decode] at hx
        obtain ⟨d, hd, rfl⟩ := List.mem_map.mp hx
        simp [hnull d hd]
      rw [hnone]
      simp

/-- **One call answers as the list does**, and leaves what the list is then. -/
theorem Holds.step (hsha : ∀ x, '\x00' ∉ session.sha1 x) {s : State W U} (h : Holds json session s.docs xs)
    {call : W × SessionOp J} (hmeets : Meets json session s call) :
    (step json session s call).2 = (listStep json xs call.2).2 ∧
      Holds json session (next json session s call).docs (listStep json xs call.2).1 := by
  obtain ⟨who, op⟩ := call
  cases op with
  | addItems items =>
    cases items with
    | nil =>
      refine ⟨rfl, ?_⟩
      show Holds json session s.docs (xs ++ [])
      rwa [List.append_nil]
    | cons item items =>
      obtain ⟨hsession, hcounter, hroom⟩ := hmeets
      refine ⟨rfl, h.addLoop hsession hsha hroom fun d hd => ?_⟩
      unfold startSeq
      cases hn : s.nextSeq who with
      | none => exact h.lt_discovered d hd
      | some n => exact hcounter n hn d hd
  | popItem =>
    rw [next, SessionList.step, listStep]
    rcases List.eq_nil_or_concat (loadSessionDocuments session s.docs) with hload | ⟨front, last, hload⟩
    · have hxs : xs = [] := by
        rw [← h.decode, hload]
        rfl
      subst hxs
      rw [hload]
      exact ⟨rfl, h⟩
    · rw [List.concat_eq_append] at hload
      have hxs : xs = front.map (decodeItem json) ++ [decodeItem json last] := by
        rw [← h.decode, hload, List.map_append, List.map_singleton]
      rw [hload, List.getLast?_append_of_ne_nil _ (List.cons_ne_nil _ _)]
      refine ⟨?_, h.forget hload⟩
      rw [hxs, List.getLast?_append_of_ne_nil _ (List.cons_ne_nil _ _)]
      rfl
  | clearSession => exact ⟨rfl, holds_nil (ownDocs_foldl_forget s.docs)⟩
  | getItems limit =>
    refine ⟨h.getItems hmeets, ?_⟩
    cases limit with
    | none => exact h
    | some l => exact h

/-- **The answers are those of a list.** -/
theorem Holds.answers_eq (hsha : ∀ x, '\x00' ∉ session.sha1 x) {calls : List (W × SessionOp J)} :
    ∀ {s : State W U} {xs : List J}, Holds json session s.docs xs →
      Runs.Guarded (next json session) (Meets json session) s calls →
      answers json session s calls = listAnswers json xs (calls.map Prod.snd) := by
  induction calls with
  | nil => exact fun _ _ => rfl
  | cons call calls ih =>
    intro s xs h hguarded
    obtain ⟨hanswer, hnext⟩ := h.step hsha hguarded.1
    rw [answers, List.map_cons, listAnswers, hanswer, ih hnext hguarded.2]

end Step

/-- **A session is a list** in every run in which an object that adds has a counter past every number of
the session, and what is read has no null in it and not the limit zero. -/
theorem session_answers_as_list (hsha : ∀ x, '\x00' ∉ session.sha1 x) (docs : Docs String U)
    (hothers : ∀ d ∈ docs.docs, d.metadata.oaiSessionId ≠ some session.sessionId) (calls : List (W × SessionOp J))
    (h : Runs.Guarded (next json session) (Meets json session) ⟨docs, fun _ => none⟩ calls) :
    answers json session ⟨docs, fun _ => none⟩ calls = listAnswers json [] (calls.map Prod.snd) := by
  refine Holds.answers_eq hsha (holds_nil ?_) h
  exact List.filter_eq_nil_iff.mpr fun d hd howned => hothers d hd (of_decide_eq_true howned)

instance (s : State W U) (call : W × SessionOp J) : Decidable (Meets json session s call) :=
  match call with
  | (_, .addItems []) | (_, .popItem) | (_, .clearSession) => .isTrue trivial
  | (_, .addItems (_ :: _)) => inferInstanceAs (Decidable (_ ∧ _ ∧ _))
  | (_, .getItems none) => inferInstanceAs (Decidable (∀ d ∈ _, _))
  | (_, .getItems (some _)) => inferInstanceAs (Decidable (_ ∨ _))

end Model

/-! ## Two objects -/

/-- The texts of null and the truth values. -/
def boolText : JsonText (Option Bool) where
  null := none
  dumps
    | none => "null"
    | some true => "true"
    | some false => "false"
  loads text :=
    if text = "null" then some none
    else if text = "true" then some (some true)
    else if text = "false" then some (some false)
    else none
  loads_dumps
    | none => by decide
    | some true => by decide
    | some false => by decide

def chatSession : KhoraSession String Unit (List Char) where
  sessionId := "chat".toList
  sessionUuid := ()
  sha1 _ := List.replicate 40 '0'
  content := String.toList
  checksum := id

def emptyChat : State Bool Unit := ⟨.empty, fun _ => none⟩

/-- Another object adds once the first has popped what it had added. -/
def inTurns : List (Bool × SessionOp (Option Bool)) :=
  [(false, .addItems [some true, some true]), (false, .getItems (some 1)), (false, .popItem),
    (true, .addItems [some false]), (false, .getItems none), (true, .clearSession), (true, .getItems (some 0)),
    (true, .popItem)]

theorem inTurns_eq : answers boolText chatSession emptyChat inTurns =
    listAnswers boolText [] (inTurns.map Prod.snd) := by
  refine session_answers_as_list boolText chatSession (fun _ => ?_) .empty (fun d hd => absurd hd List.not_mem_nil)
    inTurns ?_
  · show '\x00' ∉ List.replicate 40 '0'
    decide
  · show Runs.Guarded _ _ emptyChat inTurns
    decide +kernel

/-- The first object writes again under a number that the second has used; a limit of zero returns all;
and a null is left out. -/
theorem counter_passed_by_another :
    answers boolText chatSession emptyChat [(false, .addItems [some true]), (true, .addItems [some false]),
        (false, .addItems [some true]), (false, .getItems none)] =
      [.done, .done, .done, .items [some true, some true]] ∧
    listAnswers boolText [] [.addItems [some true], .addItems [some false], .addItems [some true], .getItems none] =
      [.done, .done, .done, .items [some true, some false, some true]] ∧
    answers boolText chatSession emptyChat [(false, .addItems [some true]), (false, .getItems (some 0))] =
      [.done, .items [some true]] ∧
    listAnswers boolText [] [.addItems [some true], .getItems (some 0)] = [.done, .items []] ∧
    answers boolText chatSession emptyChat [(false, .addItems [none]), (false, .getItems none)] =
      [.done, .items []] ∧
    listAnswers boolText [] [.addItems [none], .getItems none] = [.done, .items [none]] := by
  decide +kernel

end SessionList

end Khora
