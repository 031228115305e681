import Khora.Lib.Keyset
import Khora.Lib.Runs
import Mathlib.Data.Int.Order.Basic

/-!
# Forgetting a session

`forget_session` lists the namespace page by page, newest first, collects the documents of the session, and
forgets them one by one. Other clients insert and delete documents in between.

* `others_kept` — no document of another session is deleted.
* `forgets_iff` — the session is gone exactly if each of its documents is on a page when that is read; it is,
  if no deletion lets one slip before the next page.
* `slipped_diverges` — a deletion between two pages.
-/

namespace Khora

namespace ForgetSession

variable {N S Id : Type} [DecidableEq N] [DecidableEq S] [LinearOrder Id]

/-! ## The listing -/

/-- A row of `documents`. -/
structure Document (N S Id : Type) where
  id : Id
  namespaceId : N
  sessionId : Option S
  createdAt : ℤ
deriving DecidableEq

/-- `ORDER BY created_at DESC, id DESC` -/
def Document.listKey (d : Document N S Id) : ℤ ×ₗ Id := Keyset.stampKey Document.createdAt Document.id d

def inNamespace (namespaceId : N) (d : Document N S Id) : Bool := decide (d.namespaceId = namespaceId)

def listDocuments (namespaceId : N) (limit offset : ℕ) (table : List (Document N S Id)) :
    List (Document N S Id) :=
  Keyset.selectPage Document.listKey (inNamespace namespaceId) limit offset table

def pageSize : ℕ := 500

/-! ## The call among other clients -/

inductive Phase (Id : Type) where
  | listing (offset : ℕ) (matchingIds : List Id)
  | forgetting (docIds : List Id) (deleted : ℕ)
  | returned (deleted : ℕ)

/-- The documents that are yet to be forgotten. -/
def Phase.pending : Phase Id → List Id
  | .listing _ matchingIds => matchingIds
  | .forgetting docIds _ => docIds
  | .returned _ => []

inductive Action (N S Id : Type) where
  /-- another client stores a document -/
  | insert (d : Document N S Id)
  /-- another client deletes one -/
  | delete (id : Id)
  /-- `forget_session` reads its next page, or forgets its next document -/
  | advance

/-- The table, the ids that were ever given out, and where the call is. -/
structure State (N S Id : Type) where
  table : List (Document N S Id)
  used : List Id
  phase : Phase Id

def start (table : List (Document N S Id)) : State N S Id :=
  ⟨table, table.map Document.id, .listing 0 []⟩

/-- `forget`, of a document of the namespace. -/
def forget (namespaceId : N) (table : List (Document N S Id)) (id : Id) : Option (List (Document N S Id)) :=
  if ∃ d ∈ table, d.id = id ∧ d.namespaceId = namespaceId then some (table.filter fun d => d.id ≠ id) else none

/-- The ids that a page adds. -/
def foundOn (namespaceId : N) (sessionId : S) (offset : ℕ) (table : List (Document N S Id)) : List Id :=
  ((listDocuments namespaceId pageSize offset table).filter fun d => d.sessionId = some sessionId).map
    Document.id

def advance (namespaceId : N) (sessionId : S) (s : State N S Id) : State N S Id :=
  match s.phase with
  | .listing offset matchingIds =>
      let found := matchingIds ++ foundOn namespaceId sessionId offset s.table
      if (listDocuments namespaceId pageSize offset s.table).length < pageSize then
        if found = [] then { s with phase := .returned 0 } else { s with phase := .forgetting found 0 }
      else { s with phase := .listing (offset + pageSize) found }
  | .forgetting [] deleted => { s with phase := .returned deleted }
  | .forgetting (id :: docIds) deleted =>
      match forget namespaceId s.table id with
      | some table => { s with table := table, phase := .forgetting docIds (deleted + 1) }
      | none => { s with phase := .forgetting docIds deleted }
  | .returned _ => s

/-- An id is given out once. -/
def step (namespaceId : N) (sessionId : S) (s : State N S Id) : Action N S Id → State N S Id
  | .insert d => if d.id ∈ s.used then s else { s with table := s.table ++ [d], used := s.used ++ [d.id] }
  | .delete id => { s with table := s.table.filter fun d => d.id ≠ id }
  | .advance => advance namespaceId sessionId s

/-- A document that is tagged with the session. -/
def InSession (namespaceId : N) (sessionId : S) (d : Document N S Id) : Prop :=
  d.namespaceId = namespaceId ∧ d.sessionId = some sessionId

/-! ## Steps -/

variable {namespaceId : N} {sessionId : S} {table : List (Document N S Id)} {s : State N S Id}

/-- **Reading a page** collects its documents of the session; the last page is a short one. -/
theorem advance_listing {offset : ℕ} {matchingIds : List Id} (h : s.phase = .listing offset matchingIds) :
    (advance namespaceId sessionId s).table = s.table ∧ (advance namespaceId sessionId s).used = s.used ∧
    (advance namespaceId sessionId s).phase.pending =
      matchingIds ++ foundOn namespaceId sessionId offset s.table ∧
    ((listDocuments namespaceId pageSize offset s.table).length < pageSize ∨
      (advance namespaceId sessionId s).phase =
        .listing (offset + pageSize) (matchingIds ++ foundOn namespaceId sessionId offset s.table)) := by
  by_cases hshort : (listDocuments namespaceId pageSize offset s.table).length < pageSize
  · by_cases hnil : matchingIds ++ foundOn namespaceId sessionId offset s.table = []
    · have hstep : advance namespaceId sessionId s = { s with phase := .returned 0 } := by
        simp only [advance, h, if_pos hshort, if_pos hnil]
      rw [hstep]
      exact ⟨rfl, rfl, hnil.symm, Or.inl hshort⟩
    · have hstep : advance namespaceId sessionId s = ⟨s.table, s.used,
          .forgetting (matchingIds ++ foundOn namespaceId sessionId offset s.table) 0⟩ := by
        simp only [advance, h, if_pos hshort, if_neg hnil]
      rw [hstep]
      exact ⟨rfl, rfl, rfl, Or.inl hshort⟩
  · have hstep : advance namespaceId sessionId s = ⟨s.table, s.used,
        .listing (offset + pageSize) (matchingIds ++ foundOn namespaceId sessionId offset s.table)⟩ := by
      simp only [advance, h, if_neg hshort]
    rw [hstep]
    exact ⟨rfl, rfl, rfl, Or.inr rfl⟩

/-- **Forgetting a document** removes it from the namespace, and no other one. -/
theorem advance_forgetting {id : Id} {docIds : List Id} {deleted : ℕ}
    (h : s.phase = .forgetting (id :: docIds) deleted) :
    (advance namespaceId sessionId s).used = s.used ∧
    (advance namespaceId sessionId s).table.Sublist s.table ∧
    (advance namespaceId sessionId s).phase.pending = docIds ∧
    (∀ d ∈ s.table, d.id ≠ id → d ∈ (advance namespaceId sessionId s).table) ∧
    ∀ d ∈ (advance namespaceId sessionId s).table, d.id = id → d.namespaceId ≠ namespaceId := by
  by_cases hstored : ∃ d ∈ s.table, d.id = id ∧ d.namespaceId = namespaceId
  · have hstep : advance namespaceId sessionId s =
        { s with table := s.table.filter fun d => d.id ≠ id, phase := .forgetting docIds (deleted + 1) } := by
      simp only [advance, h, forget, if_pos hstored]
    rw [hstep]
    refine ⟨rfl, List.filter_sublist, rfl, fun d hd hne => ?_, fun d hd heq => ?_⟩
    · exact List.mem_filter.mpr ⟨hd, by simpa using hne⟩
    · exact absurd heq (by simpa using (List.mem_filter.mp hd).2)
  · have hstep : advance namespaceId sessionId s = { s with phase := .forgetting docIds deleted } := by
      simp only [advance, h, forget, if_neg hstored]
    rw [hstep]
    exact ⟨rfl, List.Sublist.refl _, rfl, fun d hd _ => hd, fun d hd heq hns => hstored ⟨d, hd, heq, hns⟩⟩

/-! ## The state of a call -/

/-- A call that lists and forgets the documents of the session `table` had when it began. -/
structure Sound (namespaceId : N) (sessionId : S) (table : List (Document N S Id)) (s : State N S Id) :
    Prop where
  nodup : (s.table.map Document.id).Nodup
  used : ∀ d ∈ s.table, d.id ∈ s.used
  given : ∀ d ∈ table, d.id ∈ s.used
  pending : ∀ id ∈ s.phase.pending, id ∈ s.used
  tagged : ∀ d ∈ s.table, d.id ∈ s.phase.pending → InSession namespaceId sessionId d
  original : ∀ d ∈ table, ∀ d' ∈ s.table, d'.id = d.id → d' = d

omit [DecidableEq N] [DecidableEq S] [LinearOrder Id] in
theorem listKey_nodup (h : (table.map Document.id).Nodup) : (table.map Document.listKey).Nodup := by
  refine List.Nodup.of_map (fun k => (ofLex k).2) ?_
  rw [List.map_map]
  exact h

theorem mem_of_foundOn {offset : ℕ} (hn : (table.map Document.id).Nodup) {id : Id}
    (hid : id ∈ foundOn namespaceId sessionId offset table) : ∃ d ∈ table, d.id = id := by
  obtain ⟨d, hd, rfl⟩ := List.mem_map.mp hid
  exact ⟨d, ((Keyset.mem_selectPage_iff (listKey_nodup hn)).mp (List.mem_of_mem_filter hd)).1, rfl⟩

theorem mem_foundOn {offset : ℕ} (hn : (table.map Document.id).Nodup) {d : Document N S Id} (hd : d ∈ table) :
    d.id ∈ foundOn namespaceId sessionId offset table ↔ InSession namespaceId sessionId d ∧
      d ∈ listDocuments namespaceId pageSize offset table := by
  constructor
  · intro hid
    obtain ⟨d', hd', heq⟩ := List.mem_map.mp hid
    obtain ⟨hpage, hsession⟩ := List.mem_filter.mp hd'
    have hrow := (Keyset.mem_selectPage_iff (listKey_nodup hn)).mp hpage
    cases List.inj_on_of_nodup_map hn hrow.1 hd heq
    exact ⟨⟨by simpa [inNamespace] using hrow.2.1, by simpa using hsession⟩, hpage⟩
  · rintro ⟨⟨-, hsession⟩, hpage⟩
    exact List.mem_map_of_mem (List.mem_filter.mpr ⟨hpage, by simpa using hsession⟩)

omit [DecidableEq N] [DecidableEq S] [LinearOrder Id] in
theorem sound_start (hids : (table.map Document.id).Nodup) : Sound namespaceId sessionId table (start table) := by
  constructor
  · exact hids
  · exact fun d hd => List.mem_map_of_mem hd
  · exact fun d hd => List.mem_map_of_mem hd
  · exact fun id hid => absurd hid List.not_mem_nil
  · exact fun d _ hid => absurd hid List.not_mem_nil
  · exact fun d hd d' hd' heq => List.inj_on_of_nodup_map hids hd' hd heq

omit [DecidableEq N] [DecidableEq S] [LinearOrder Id] in
/-- A table that loses documents, and ids that are pending no more. -/
theorem Sound.sublist (h : Sound namespaceId sessionId table s) {s' : State N S Id}
    (htable : s'.table.Sublist s.table) (hused : s'.used = s.used)
    (hpending : s'.phase.pending ⊆ s.phase.pending) : Sound namespaceId sessionId table s' := by
  constructor
  · exact h.nodup.sublist (htable.map _)
  · exact fun d hd => hused ▸ h.used d (htable.subset hd)
  · exact fun d hd => hused ▸ h.given d hd
  · exact fun id hid => hused ▸ h.pending id (hpending hid)
  · exact fun d hd hid => h.tagged d (htable.subset hd) (hpending hid)
  · exact fun d hd d' hd' => h.original d hd d' (htable.subset hd')

theorem Sound.step (h : Sound namespaceId sessionId table s) (a : Action N S Id) :
    Sound namespaceId sessionId table (step namespaceId sessionId s a) := by
  cases a with
  | insert d =>
      show Sound namespaceId sessionId table
        (if d.id ∈ s.used then s else { s with table := s.table ++ [d], used := s.used ++ [d.id] })
      by_cases hnew : d.id ∈ s.used
      · rw [if_pos hnew]
        exact h
      · rw [if_neg hnew]
        have hd : ∀ d' ∈ s.table ++ [d], d' ∈ s.table ∨ d' = d := by simp
        constructor
        · show ((s.table ++ [d]).map Document.id).Nodup
          rw [List.map_append, List.nodup_append]
          refine ⟨h.nodup, List.nodup_singleton _, ?_⟩
          rintro id hid id' hid' rfl
          obtain ⟨d', hd', rfl⟩ := List.mem_map.mp hid
          rw [List.map_singleton, List.mem_singleton] at hid'
          exact hnew (hid' ▸ h.used d' hd')
        · intro d' hd'
          rcases hd d' hd' with hd' | rfl
          · exact List.mem_append_left _ (h.used d' hd')
          · exact List.mem_append_right _ List.mem_cons_self
        · exact fun d' hd' => List.mem_append_left _ (h.given d' hd')
        · exact fun id hid => List.mem_append_left _ (h.pending id hid)
        · intro d' hd' hid
          rcases hd d' hd' with hd' | rfl
          · exact h.tagged d' hd' hid
          · exact absurd (h.pending _ hid) hnew
        · intro e he d' hd' heq
          rcases hd d' hd' with hd' | rfl
          · exact h.original e he d' hd' heq
          · exact absurd (heq ▸ h.given e he) hnew
  | delete id => exact h.sublist List.filter_sublist rfl (fun _ hid => hid)
  | advance =>
      show Sound namespaceId sessionId table (advance namespaceId sessionId s)
      cases hphase : s.phase with
      | listing offset matchingIds =>
          obtain ⟨htable, hused, hpending, -⟩ := @advance_listing N S Id _ _ _ namespaceId sessionId s _ _ hphase
          have hfrom : ∀ id ∈ (advance namespaceId sessionId s).phase.pending,
              id ∈ s.phase.pending ∨ id ∈ foundOn namespaceId sessionId offset s.table := by
            intro id hid
            rw [hpending] at hid
            rw [hphase]
            exact List.mem_append.mp hid
          constructor
          · rw [htable]
            exact h.nodup
          · exact fun d hd => hused ▸ h.used d (htable ▸ hd)
          · exact fun d hd => hused ▸ h.given d hd
          · intro id hid
            rw [hused]
            rcases hfrom id hid with hid | hid
            · exact h.pending id hid
            · obtain ⟨d, hd, rfl⟩ := mem_of_foundOn h.nodup hid
              exact h.used d hd
          · intro d hd hid
            rw [htable] at hd
            rcases hfrom d.id hid with hid | hid
            · exact h.tagged d hd hid
            · exact ((mem_foundOn h.nodup hd).mp hid).1
          · exact fun d hd d' hd' => h.original d hd d' (htable ▸ hd')
      | forgetting docIds deleted =>
          cases docIds with
          | nil =>
              have hstep : advance namespaceId sessionId s = { s with phase := .returned deleted } := by
                simp only [advance, hphase]
              rw [hstep]
              exact h.sublist (List.Sublist.refl _) rfl fun _ hid => absurd hid List.not_mem_nil
          | cons id docIds =>
              obtain ⟨hused, htable, hpending, -⟩ :=
                @advance_forgetting N S Id _ _ _ namespaceId sessionId s _ _ _ hphase
              refine h.sublist htable hused ?_
              rw [hpending, hphase]
              exact List.subset_cons_self _ _
      | returned deleted =>
          have hstep : advance namespaceId sessionId s = s := by simp only [advance, hphase]
          rw [hstep]
          exact h

/-! ## One document -/

/-- The document is gone, or will be forgotten. -/
def Handled (s : State N S Id) (d : Document N S Id) : Prop := d ∉ s.table ∨ d.id ∈ s.phase.pending

/-- The documents of the namespace that are newer. -/
def newer (namespaceId : N) (table : List (Document N S Id)) (d : Document N S Id) : ℕ :=
  Keyset.rank Document.listKey (inNamespace namespaceId) table d

/-- The document is on the page that is read next. -/
def OnPage (namespaceId : N) (s : State N S Id) (d : Document N S Id) : Prop :=
  ∃ offset matchingIds, s.phase = .listing offset matchingIds ∧ d ∈ s.table ∧
    offset ≤ newer namespaceId s.table d ∧ newer namespaceId s.table d < offset + pageSize

variable {d : Document N S Id}

theorem mem_foundOn_iff (h : Sound namespaceId sessionId table s) {offset : ℕ} {matchingIds : List Id}
    (hphase : s.phase = .listing offset matchingIds) (hin : InSession namespaceId sessionId d)
    (hd : d ∈ s.table) :
    d.id ∈ foundOn namespaceId sessionId offset s.table ↔ OnPage namespaceId s d := by
  rw [mem_foundOn h.nodup hd, listDocuments, Keyset.mem_selectPage_iff (listKey_nodup h.nodup)]
  constructor
  · rintro ⟨-, -, -, hrank⟩
    exact ⟨offset, matchingIds, hphase, hd, hrank⟩
  · rintro ⟨offset', ids, hphase', -, hrank⟩
    cases hphase.symm.trans hphase'
    exact ⟨hin, hd, by simpa [inNamespace] using hin.1, hrank⟩

/-- **A document that is handled** stays so. -/
theorem Handled.step (hs : Sound namespaceId sessionId table s) (hd : d ∈ table)
    (hin : InSession namespaceId sessionId d) (h : Handled s d) (a : Action N S Id) :
    Handled (step namespaceId sessionId s a) d := by
  cases a with
  | insert e =>
      show Handled (if e.id ∈ s.used then s else { s with table := s.table ++ [e], used := s.used ++ [e.id] }) d
      by_cases hnew : e.id ∈ s.used
      · rw [if_pos hnew]
        exact h
      · rw [if_neg hnew]
        refine h.imp_left fun hgone hmem => ?_
        rcases List.mem_append.mp hmem with hmem | hmem
        · exact hgone hmem
        · exact hnew (List.mem_singleton.mp hmem ▸ hs.given d hd)
  | delete id => exact h.imp_left fun hgone hmem => hgone (List.mem_of_mem_filter hmem)
  | advance =>
      show Handled (advance namespaceId sessionId s) d
      cases hphase : s.phase with
      | listing offset matchingIds =>
          obtain ⟨htable, -, hpending, -⟩ := @advance_listing N S Id _ _ _ namespaceId sessionId s _ _ hphase
          refine h.imp (fun hgone => htable ▸ hgone) fun hid => ?_
          rw [hphase] at hid
          rw [hpending]
          exact List.mem_append_left _ hid
      | forgetting docIds deleted =>
          cases docIds with
          | nil =>
              have hstep : advance namespaceId sessionId s = { s with phase := .returned deleted } := by
                simp only [advance, hphase]
              rw [hstep]
              refine Or.inl (h.resolve_right fun hid => ?_)
              rw [hphase] at hid
              exact List.not_mem_nil hid
          | cons id docIds =>
              obtain ⟨-, htable, hpending, -, hgone⟩ :=
                @advance_forgetting N S Id _ _ _ namespaceId sessionId s _ _ _ hphase
              rcases h with h | hid
              · exact Or.inl fun hmem => h (htable.subset hmem)
              · rw [hphase] at hid
                rcases List.mem_cons.mp hid with heq | hid
                · exact Or.inl fun hmem => hgone d hmem heq hin.1
                · exact Or.inr (hpending ▸ hid)
      | returned deleted =>
          have hstep : advance namespaceId sessionId s = s := by simp only [advance, hphase]
          rw [hstep]
          exact h

/-- A document that is neither deleted nor on the page stays, unhandled. -/
theorem unhandled_step (hs : Sound namespaceId sessionId table s) (hin : InSession namespaceId sessionId d)
    (h : d ∈ s.table ∧ d.id ∉ s.phase.pending) {a : Action N S Id} (hdelete : a ≠ .delete d.id)
    (hpage : a = .advance → ¬ OnPage namespaceId s d) :
    d ∈ (step namespaceId sessionId s a).table ∧ d.id ∉ (step namespaceId sessionId s a).phase.pending := by
  cases a with
  | insert e =>
      show d ∈ (if e.id ∈ s.used then s else { s with table := s.table ++ [e], used := s.used ++ [e.id] }).table ∧
        d.id ∉ (if e.id ∈ s.used then s else
          { s with table := s.table ++ [e], used := s.used ++ [e.id] }).phase.pending
      split
      · exact h
      · exact ⟨List.mem_append_left _ h.1, h.2⟩
  | delete id =>
      refine ⟨List.mem_filter.mpr ⟨h.1, ?_⟩, h.2⟩
      simpa using fun heq : d.id = id => hdelete (heq ▸ rfl)
  | advance =>
      show d ∈ (advance namespaceId sessionId s).table ∧ d.id ∉ (advance namespaceId sessionId s).phase.pending
      cases hphase : s.phase with
      | listing offset matchingIds =>
          obtain ⟨htable, -, hpending, -⟩ := @advance_listing N S Id _ _ _ namespaceId sessionId s _ _ hphase
          rw [htable, hpending, List.mem_append, not_or]
          rw [hphase] at h
          exact ⟨h.1, h.2, fun hid => hpage rfl ((mem_foundOn_iff hs hphase hin h.1).mp hid)⟩
      | forgetting docIds deleted =>
          cases docIds with
          | nil =>
              have hstep : advance namespaceId sessionId s = { s with phase := .returned deleted } := by
                simp only [advance, hphase]
              rw [hstep]
              exact ⟨h.1, List.not_mem_nil⟩
          | cons id docIds =>
              obtain ⟨-, -, hpending, hkept, -⟩ :=
                @advance_forgetting N S Id _ _ _ namespaceId sessionId s _ _ _ hphase
              rw [hphase] at h
              obtain ⟨hne, hrest⟩ := not_or.mp fun hor => h.2 (List.mem_cons.mpr hor)
              exact ⟨hkept d h.1 hne, hpending ▸ hrest⟩
      | returned deleted =>
          have hstep : advance namespaceId sessionId s = s := by simp only [advance, hphase]
          rw [hstep]
          exact h

/-! ## Whole calls -/

/-- The state of a call on `table` after the actions. -/
def after (namespaceId : N) (sessionId : S) (table : List (Document N S Id)) (acts : List (Action N S Id)) :
    State N S Id := Runs.run (step namespaceId sessionId) (start table) acts

/-- The documents of the session are gone, and others only if another client deletes them. -/
structure Forgets (namespaceId : N) (sessionId : S) (table : List (Document N S Id))
    (acts : List (Action N S Id)) : Prop where
  session : ∀ d ∈ table, InSession namespaceId sessionId d →
    d ∉ (after namespaceId sessionId table acts).table
  others : ∀ xs ys, acts = xs ++ ys → ∀ d ∈ (after namespaceId sessionId table xs).table,
    ¬ InSession namespaceId sessionId d → .delete d.id ∉ ys → d ∈ (after namespaceId sessionId table acts).table

/-- Some page of the call has the document on it when it is read. -/
def Listed (namespaceId : N) (sessionId : S) (table : List (Document N S Id)) (acts : List (Action N S Id))
    (d : Document N S Id) : Prop :=
  ∃ xs ys, acts = xs ++ .advance :: ys ∧ OnPage namespaceId (after namespaceId sessionId table xs) d

/-- Another client deletes no document that lets an unread one of the session slip before the next page. -/
def NoSlip (namespaceId : N) (sessionId : S) (s : State N S Id) : Action N S Id → Prop
  | .delete id => ∀ offset matchingIds, s.phase = .listing offset matchingIds →
      ∀ d ∈ s.table, InSession namespaceId sessionId d → offset ≤ newer namespaceId s.table d →
        d.id = id ∨ d.id ∈ matchingIds ∨
          offset ≤ newer namespaceId (s.table.filter fun d => d.id ≠ id) d
  | _ => True

theorem sound_after (hids : (table.map Document.id).Nodup) (acts : List (Action N S Id)) :
    Sound namespaceId sessionId table (after namespaceId sessionId table acts) :=
  Runs.run_of_step (fun _ a h => h.step a) (sound_start hids) acts

theorem others_step (hs : Sound namespaceId sessionId table s) (hin : ¬ InSession namespaceId sessionId d)
    (hd : d ∈ s.table) {a : Action N S Id} (ha : a ≠ .delete d.id) :
    d ∈ (step namespaceId sessionId s a).table := by
  cases a with
  | insert e =>
      show d ∈ (if e.id ∈ s.used then s else { s with table := s.table ++ [e], used := s.used ++ [e.id] }).table
      split
      · exact hd
      · exact List.mem_append_left _ hd
  | delete id =>
      refine List.mem_filter.mpr ⟨hd, ?_⟩
      simpa using fun heq : d.id = id => ha (heq ▸ rfl)
  | advance =>
      show d ∈ (advance namespaceId sessionId s).table
      cases hphase : s.phase with
      | listing offset matchingIds =>
          rw [(@advance_listing N S Id _ _ _ namespaceId sessionId s _ _ hphase).1]
          exact hd
      | forgetting docIds deleted =>
          cases docIds with
          | nil =>
              have hstep : advance namespaceId sessionId s = { s with phase := .returned deleted } := by
                simp only [advance, hphase]
              rw [hstep]
              exact hd
          | cons id docIds =>
              refine (@advance_forgetting N S Id _ _ _ namespaceId sessionId s _ _ _ hphase).2.2.2.1 d hd ?_
              rintro rfl
              refine hin (hs.tagged d hd ?_)
              rw [hphase]
              exact List.mem_cons_self
      | returned deleted =>
          have hstep : advance namespaceId sessionId s = s := by simp only [advance, hphase]
          rw [hstep]
          exact hd

/-- **No document of another session is deleted**, whatever other clients do. -/
theorem others_kept (hids : (table.map Document.id).Nodup) (xs ys : List (Action N S Id))
    (hd : d ∈ (after namespaceId sessionId table xs).table) (hin : ¬ InSession namespaceId sessionId d)
    (hdelete : .delete d.id ∉ ys) : d ∈ (after namespaceId sessionId table (xs ++ ys)).table := by
  unfold after
  rw [Runs.run_append]
  refine (@Runs.run_invariant _ _ _ (fun _ a => a ≠ .delete d.id)
    (fun s => Sound namespaceId sessionId table s ∧ d ∈ s.table) ?_ ys _ ⟨sound_after hids xs, hd⟩ ?_).2
  · intro s a h ha
    exact ⟨h.1.step a, others_step h.1 hin h.2 ha⟩
  · refine Runs.guarded_of_forall (fun a ha _ => ?_) _
    rintro rfl
    exact hdelete ha

omit [DecidableEq N] [DecidableEq S] [LinearOrder Id] in
/-- A returned call has nothing left to do. -/
theorem Handled.gone {deleted : ℕ} (h : Handled s d) (hphase : s.phase = .returned deleted) : d ∉ s.table := by
  refine h.resolve_right fun hid => ?_
  rw [hphase] at hid
  exact List.not_mem_nil hid

theorem handled_append (hids : (table.map Document.id).Nodup) (hd : d ∈ table)
    (hin : InSession namespaceId sessionId d) {xs : List (Action N S Id)}
    (h : Handled (after namespaceId sessionId table xs) d) (ys : List (Action N S Id)) :
    Handled (after namespaceId sessionId table (xs ++ ys)) d := by
  unfold after
  rw [Runs.run_append]
  exact (@Runs.run_of_step _ _ _ (fun s => Sound namespaceId sessionId table s ∧ Handled s d)
    (fun s a h => ⟨h.1.step a, h.2.step h.1 hd hin a⟩) _ ⟨sound_after hids xs, h⟩ ys).2

/-- **The session is gone** exactly if each of its documents is on a page when that is read. -/
theorem forgotten_iff (hids : (table.map Document.id).Nodup) {acts : List (Action N S Id)} {deleted : ℕ}
    (hphase : (after namespaceId sessionId table acts).phase = .returned deleted) (hd : d ∈ table)
    (hin : InSession namespaceId sessionId d) :
    d ∉ (after namespaceId sessionId table acts).table ↔
      .delete d.id ∈ acts ∨ Listed namespaceId sessionId table acts d := by
  constructor
  · intro hgone
    by_contra hnot
    obtain ⟨hdelete, hlisted⟩ := not_or.mp hnot
    refine hgone (@Runs.run_invariant _ _ _
      (fun s a => a ≠ .delete d.id ∧ (a = .advance → ¬ OnPage namespaceId s d))
      (fun s => Sound namespaceId sessionId table s ∧ d ∈ s.table ∧ d.id ∉ s.phase.pending)
      ?_ acts _ ⟨sound_start hids, hd, List.not_mem_nil⟩ ?_).2.1
    · intro s a h ha
      exact ⟨h.1.step a, unhandled_step h.1 hin h.2 ha.1 ha.2⟩
    · refine Runs.guarded_iff_split.mpr fun xs a ys heq => ⟨?_, ?_⟩
      · rintro rfl
        exact hdelete (heq ▸ List.mem_append_right _ List.mem_cons_self)
      · rintro rfl hpage
        exact hlisted ⟨xs, ys, heq, hpage⟩
  · intro hor
    refine Handled.gone ?_ hphase
    rcases hor with hdelete | ⟨xs, ys, rfl, hpage⟩
    · obtain ⟨xs, ys, rfl⟩ := List.append_of_mem hdelete
      rw [List.append_cons]
      refine handled_append hids hd hin (Or.inl fun hmem => ?_) ys
      unfold after at hmem
      rw [Runs.run_append] at hmem
      exact of_decide_eq_true (List.mem_filter.mp hmem).2 rfl
    · rw [List.append_cons]
      refine handled_append hids hd hin (Or.inr ?_) ys
      unfold after
      rw [Runs.run_append]
      show d.id ∈ (advance namespaceId sessionId (after namespaceId sessionId table xs)).phase.pending
      have hsound := @sound_after N S Id _ _ _ namespaceId sessionId table hids xs
      obtain ⟨offset, matchingIds, hlisting, hmem, hrank⟩ := hpage
      rw [(advance_listing hlisting).2.2.1]
      refine List.mem_append_right _ ((mem_foundOn_iff hsound hlisting hin hmem).mpr ?_)
      exact ⟨offset, matchingIds, hlisting, hmem, hrank⟩

/-- The document is handled, or the listing has not come to it. -/
def Ahead (namespaceId : N) (s : State N S Id) (d : Document N S Id) : Prop :=
  Handled s d ∨ ∃ offset matchingIds, s.phase = .listing offset matchingIds ∧ offset ≤ newer namespaceId s.table d

/-- Without a slip a document of the session stays ahead until it is handled. -/
theorem Ahead.step (hs : Sound namespaceId sessionId table s) (hd : d ∈ table)
    (hin : InSession namespaceId sessionId d) (h : Ahead namespaceId s d) {a : Action N S Id}
    (hguard : NoSlip namespaceId sessionId s a) : Ahead namespaceId (step namespaceId sessionId s a) d := by
  by_cases hhandled : Handled s d
  · exact Or.inl (hhandled.step hs hd hin a)
  obtain ⟨hmem, hpending⟩ := not_or.mp hhandled
  rw [not_not] at hmem
  obtain ⟨offset, matchingIds, hphase, hle⟩ := h.resolve_left hhandled
  cases a with
  | insert e =>
      show Ahead namespaceId
        (if e.id ∈ s.used then s else { s with table := s.table ++ [e], used := s.used ++ [e.id] }) d
      split
      · exact h
      · exact Or.inr ⟨offset, matchingIds, hphase, hle.trans (Keyset.rank_append _ d)⟩
  | delete id =>
      rcases hguard offset matchingIds hphase d hmem hin hle with heq | hid | hle'
      · exact Or.inl (Or.inl fun hmem' => of_decide_eq_true (List.mem_filter.mp hmem').2 heq)
      · rw [hphase] at hpending
        exact absurd hid hpending
      · exact Or.inr ⟨offset, matchingIds, hphase, hle'⟩
  | advance =>
      show Ahead namespaceId (advance namespaceId sessionId s) d
      obtain ⟨htable, -, hfound, hnext⟩ := @advance_listing N S Id _ _ _ namespaceId sessionId s _ _ hphase
      by_cases hlt : newer namespaceId s.table d < offset + pageSize
      · refine Or.inl (Or.inr ?_)
        rw [hfound]
        refine List.mem_append_right _ ((mem_foundOn_iff hs hphase hin hmem).mpr ?_)
        exact ⟨offset, matchingIds, hphase, hmem, hle, hlt⟩
      · refine Or.inr ⟨_, _, hnext.resolve_left fun hshort => hlt (Keyset.rank_lt_of_short hshort d), ?_⟩
        rw [htable]
        exact Nat.le_of_not_lt hlt

/-- **Forgetting a session** is exact if its documents are on a page when that is read, and they are if no
deletion lets one slip. -/
theorem forgets_iff (hids : (table.map Document.id).Nodup) {acts : List (Action N S Id)} {deleted : ℕ}
    (hphase : (after namespaceId sessionId table acts).phase = .returned deleted) :
    (Forgets namespaceId sessionId table acts ↔ ∀ d ∈ table, InSession namespaceId sessionId d →
      .delete d.id ∈ acts ∨ Listed namespaceId sessionId table acts d) ∧
    (Runs.Guarded (step namespaceId sessionId) (NoSlip namespaceId sessionId) (start table) acts →
      Forgets namespaceId sessionId table acts) := by
  have hothers : ∀ xs ys, acts = xs ++ ys → ∀ d ∈ (after namespaceId sessionId table xs).table,
      ¬ InSession namespaceId sessionId d → .delete d.id ∉ ys →
        d ∈ (after namespaceId sessionId table acts).table := by
    rintro xs ys rfl d hd hin hdelete
    exact others_kept hids xs ys hd hin hdelete
  refine ⟨⟨fun h d hd hin => ?_, fun h => ⟨fun d hd hin => ?_, hothers⟩⟩,
    fun hguard => ⟨fun d hd hin => ?_, hothers⟩⟩
  · exact (forgotten_iff hids hphase hd hin).mp (h.session d hd hin)
  · exact (forgotten_iff hids hphase hd hin).mpr (h d hd hin)
  · have hahead := (@Runs.run_invariant _ _ _ _
      (fun s => Sound namespaceId sessionId table s ∧ Ahead namespaceId s d)
      (fun s a h ha => ⟨h.1.step a, h.2.step h.1 hd hin ha⟩) acts _
      ⟨sound_start hids, Or.inr ⟨0, [], rfl, Nat.zero_le _⟩⟩ hguard).2
    refine Handled.gone (hahead.resolve_right ?_) hphase
    rintro ⟨offset, matchingIds, hlisting, -⟩
    cases hphase.symm.trans hlisting

/-! ## A deletion between two pages -/

/-- One document, forgotten while another client stores a second one. -/
theorem forgets_oneDocument :
    Forgets () 7 [(⟨1, (), some 7, 0⟩ : Document Unit ℕ ℕ)]
      [.advance, .insert ⟨2, (), none, 1⟩, .advance, .advance] := by
  have hphase : (after () 7 [(⟨1, (), some 7, 0⟩ : Document Unit ℕ ℕ)]
      [.advance, .insert ⟨2, (), none, 1⟩, .advance, .advance]).phase = .returned 1 := by
    simp [after, step, start, advance, foundOn, listDocuments, Keyset.selectPage, inNamespace, pageSize, forget]
  exact (forgets_iff (by decide) hphase).2 (by simp [Runs.Guarded, NoSlip])

/-- A full page of other documents, and behind it one of the session. -/
def fullPage : List (Document Unit ℕ ℕ) :=
  (List.range 501).map fun i => ⟨i, (), if i = 0 then some 7 else none, i⟩

/-- What the first delete leaves of it. -/
def shiftedPage : List (Document Unit ℕ ℕ) := fullPage.filter fun d => d.id ≠ 500

theorem foundOn_fullPage : foundOn () 7 0 fullPage = [] := by
  have hids : (fullPage.map Document.id).Nodup := by
    have hmap : fullPage.map Document.id = List.range 501 := by
      simp [fullPage, Function.comp_def]
    rw [hmap]
    exact List.nodup_range
  have hrank : newer () fullPage ⟨0, (), some 7, 0⟩ = 500 := by decide +kernel
  refine List.eq_nil_iff_forall_not_mem.mpr fun id hid => ?_
  obtain ⟨d, hd, rfl⟩ := mem_of_foundOn hids hid
  obtain ⟨hin, hpage⟩ := (mem_foundOn hids hd).mp hid
  obtain ⟨i, -, rfl⟩ := List.mem_map.mp hd
  have hi : i = 0 := by
    by_contra hne
    have := hin.2
    simp [hne] at this
  subst hi
  have hlt := ((Keyset.mem_selectPage_iff (listKey_nodup hids)).mp hpage).2.2.2
  exact absurd hrank (Nat.ne_of_lt hlt)

/-- **A document of the session slips to the page that was read**: another client deletes the newest
document of the namespace. -/
theorem slipped_diverges : (after () 7 fullPage [.advance, .delete 500, .advance]).phase = .returned 0 ∧
    ¬ Forgets () 7 fullPage [.advance, .delete 500, .advance] := by
  have hfull : ¬ (listDocuments () pageSize 0 fullPage).length < pageSize := by
    rw [listDocuments, Keyset.length_selectPage]
    decide +kernel
  have hshort : listDocuments () pageSize pageSize shiftedPage = [] := by
    rw [← List.length_eq_zero_iff, listDocuments, Keyset.length_selectPage]
    decide +kernel
  have hfirst : advance () 7 (start fullPage) = ⟨fullPage, fullPage.map Document.id, .listing pageSize []⟩ := by
    simp only [advance, start, if_neg hfull, foundOn_fullPage, Nat.zero_add, List.append_nil]
  have hdelete : step () 7 ⟨fullPage, fullPage.map Document.id, .listing pageSize []⟩ (.delete 500) =
      ⟨shiftedPage, fullPage.map Document.id, .listing pageSize []⟩ := by
    simp only [step, shiftedPage]
  have hsecond : advance () 7 ⟨shiftedPage, fullPage.map Document.id, .listing pageSize []⟩ =
      ⟨shiftedPage, fullPage.map Document.id, .returned 0⟩ := by
    simp only [advance, foundOn, hshort, List.filter_nil, List.map_nil, List.append_nil, List.length_nil]
    rw [if_pos (by decide), if_pos trivial]
  have hlast : after () 7 fullPage [.advance, .delete 500, .advance] =
      ⟨shiftedPage, fullPage.map Document.id, .returned 0⟩ := by
    rw [after, Runs.run_cons, Runs.run_cons, Runs.run_cons, Runs.run_nil]
    rw [show step () 7 (start fullPage) .advance = advance () 7 (start fullPage) from rfl, hfirst, hdelete]
    exact hsecond
  rw [hlast]
  refine ⟨rfl, fun h => ?_⟩
  have hgone := h.session ⟨0, (), some 7, 0⟩ (by decide +kernel) ⟨rfl, rfl⟩
  rw [hlast] at hgone
  exact hgone (by decide +kernel)

end ForgetSession

end Khora
