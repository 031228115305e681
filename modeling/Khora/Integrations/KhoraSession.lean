import Khora.Integrations.Documents
import Khora.Lib.Runs
import Khora.Lib.SortBy
import Khora.Lib.Tasks
import Mathlib.Algebra.Group.Nat.Defs

/-!
# The session of the OpenAI agents adapter

`KhoraSession` keeps each item of a conversation as a document under its number.  Calls on one session
run side by side and are interrupted at every storage call: `add_items` reserves its numbers under a
lock and writes later without it, `pop_item` and `clear_session` reset the counter.

* `lossless` — in every run in which no `add_items` comes upon a document under its number, and no
  `pop_item` forgets a document that another has forgotten, every item is stored, popped or cleared.
* `item_lost_and_item_popped_twice` — runs that lose an item, and return one twice.
-/

namespace Khora

/-! ## Documents of a session -/

/-- The metadata of a document that the session reads: the number as an integer, if it is one. -/
structure SessionMetadata (I : Type) where
  oaiSessionId : Option (List Char)
  oaiSeq : Option ℕ
  oaiItem : Option I
  deriving DecidableEq, Repr

/-- What a session is constructed with, and the functions that it uses. -/
structure KhoraSession (I U H : Type) where
  sessionId : List Char
  sessionUuid : U
  sha1 : List Char → List Char
  content : I → List Char
  checksum : List Char → H

/-- An `add_items` with its numbers reserved, and the ids that `remember` has returned to it. -/
structure AddRecord (I : Type) where
  start : ℕ
  items : List I
  stored : List ℕ
  deriving DecidableEq, Repr

/-- The number under which it writes next. -/
def AddRecord.seq {I : Type} (r : AddRecord I) : ℕ := r.start + r.stored.length

/-- Where a call stands, at its next storage call or behind its last one. -/
inductive SessionTask (I D : Type) where
  /-- waits for the lock -/
  | reserving (items : List I)
  /-- lists the documents, with the lock -/
  | discovering (items : List I) (cursor : ℕ) (gathered : List D)
  | discovered (items : List I) (gathered : List D)
  /-- looks up the number of the next item -/
  | adding (r : AddRecord I)
  /-- forgets the document found -/
  | replacing (r : AddRecord I) (existing : ℕ)
  | remembering (r : AddRecord I)
  | added (r : AddRecord I)
  | popListing (cursor : ℕ) (gathered : List D)
  /-- forgets the last document -/
  | popping (id : ℕ)
  /-- has forgotten it -/
  | popped (id : ℕ)
  | popReturned (id : Option ℕ)
  | clearListing (cursor : ℕ) (gathered : List D)
  | clearing (todo forgotten : List ℕ)
  | cleared (forgotten : List ℕ)
  deriving DecidableEq, Repr

inductive SessionCall (I : Type) where
  | addItems (items : List I)
  | popItem
  | clearSession
  deriving DecidableEq, Repr

namespace KhoraSession

variable {I U H : Type}

abbrev Docs (I U : Type) := NamespaceDocuments (SessionMetadata I) U

abbrev Doc (I U : Type) := NamespaceDocument (SessionMetadata I) U

structure State (I U : Type) where
  docs : Docs I U
  nextSeq : Option ℕ
  locked : Bool
  tasks : List (SessionTask I (Doc I U))

inductive Action (I : Type) where
  | call (c : SessionCall I)
  | advance (i : ℕ)
  deriving DecidableEq, Repr

def pageSize : ℕ := 200

/-- The number of a document without one. -/
def missingSeq : ℕ := 2 ^ 31

def seqOf (d : Doc I U) : ℕ := d.metadata.oaiSeq.getD missingSeq

/-- `_discover_max_seq() + 1` -/
def discoveredSeq (gathered : List (Doc I U)) : ℕ :=
  (SortBy.sortBy seqOf gathered).foldl
    (fun next d => if seqOf d ≠ missingSeq ∧ next ≤ seqOf d then seqOf d + 1 else next) 0

variable (session : KhoraSession I U H)

def externalIdLen : ℕ := 512

/-- `event_external_id` -/
def eventExternalId (seq : ℕ) : List Char :=
  let raw := "oai:".toList ++ session.sessionId ++ ":".toList ++ (toString seq).toList
  if raw.length ≤ externalIdLen then raw
  else "oai:h".toList ++ session.sha1 session.sessionId ++ ":".toList ++ (toString seq).toList

def ingest : Ingest (SessionMetadata I) H where
  checksum := session.checksum
  stripNulJson m := { m with oaiSessionId := m.oaiSessionId.map stripNul }

def itemMetadata (seq : ℕ) (item : I) : SessionMetadata I :=
  ⟨some session.sessionId, some seq, some item⟩

/-- A page of `_load_session_documents`: what is gathered, and the next cursor, if the page was full. -/
def readPage (s : Docs I U) (cursor : ℕ) (gathered : List (Doc I U)) :
    List (Doc I U) × Option ℕ :=
  let page := s.listDocuments pageSize cursor
  (gathered ++ page.filter fun d => decide (d.metadata.oaiSessionId = some session.sessionId),
    if page.length < pageSize then none else some (cursor + pageSize))

/-! ## Steps -/

section Steps

variable [DecidableEq U] [DecidableEq H]

/-- How a call begins; without items, `add_items` returns at once. -/
def begin : SessionCall I → SessionTask I (Doc I U)
  | .addItems [] => .added ⟨0, [], []⟩
  | .addItems items => .reserving items
  | .popItem => .popListing 0 []
  | .clearSession => .clearListing 0 []

/-- The task behind a document remembered under `id`. -/
def afterRemember (r : AddRecord I) (id : ℕ) : SessionTask I (Doc I U) :=
  let r := { r with stored := r.stored ++ [id] }
  if r.stored.length = r.items.length then .added r else .adding r

def advanceTask (s : State I U) (i : ℕ) : SessionTask I (Doc I U) → State I U
  | .reserving items =>
    if s.locked then s
    else
      match s.nextSeq with
      | none => { s with locked := true, tasks := s.tasks.set i (.discovering items 0 []) }
      | some start =>
        { s with nextSeq := some (start + items.length), tasks := s.tasks.set i (.adding ⟨start, items, []⟩) }
  | .discovering items cursor gathered =>
    match session.readPage s.docs cursor gathered with
    | (gathered, none) => { s with tasks := s.tasks.set i (.discovered items gathered) }
    | (gathered, some cursor) => { s with tasks := s.tasks.set i (.discovering items cursor gathered) }
  | .discovered items gathered =>
    let start := discoveredSeq gathered
    ⟨s.docs, some (start + items.length), false, s.tasks.set i (.adding ⟨start, items, []⟩)⟩
  | .adding r =>
    match s.docs.getByExternalId (session.eventExternalId r.seq) with
    | none => { s with tasks := s.tasks.set i (.remembering r) }
    | some existing => { s with tasks := s.tasks.set i (.replacing r existing.id) }
  | .replacing r existing =>
    { s with docs := s.docs.forget existing, tasks := s.tasks.set i (.remembering r) }
  | .remembering r =>
    match r.items[r.stored.length]? with
    | none => s
    | some item =>
      let result := s.docs.remember session.ingest (session.content item)
        (session.itemMetadata r.seq item) (some (session.eventExternalId r.seq)) (some session.sessionUuid)
      { s with docs := result.1, tasks := s.tasks.set i (afterRemember r result.2) }
  | .popListing cursor gathered =>
    match session.readPage s.docs cursor gathered with
    | (gathered, some cursor) => { s with tasks := s.tasks.set i (.popListing cursor gathered) }
    | (gathered, none) =>
      match (SortBy.sortBy seqOf gathered).getLast? with
      | none => { s with tasks := s.tasks.set i (.popReturned none) }
      | some last => { s with tasks := s.tasks.set i (.popping last.id) }
  | .popping id => { s with docs := s.docs.forget id, tasks := s.tasks.set i (.popped id) }
  | .popped id => { s with nextSeq := none, tasks := s.tasks.set i (.popReturned (some id)) }
  | .clearListing cursor gathered =>
    match session.readPage s.docs cursor gathered with
    | (gathered, some cursor) => { s with tasks := s.tasks.set i (.clearListing cursor gathered) }
    | (gathered, none) =>
      let ids := (SortBy.sortBy seqOf gathered).map NamespaceDocument.id
      { s with tasks := s.tasks.set i (.clearing ids []) }
  | .clearing [] forgotten =>
    { s with nextSeq := some 0, tasks := s.tasks.set i (.cleared forgotten) }
  | .clearing (id :: todo) forgotten =>
    { s with docs := s.docs.forget id, tasks := s.tasks.set i (.clearing todo (forgotten ++ [id])) }
  | .added _ | .popReturned _ | .cleared _ => s

def step (s : State I U) : Action I → State I U
  | .call c => { s with tasks := s.tasks ++ [begin c] }
  | .advance i =>
    match s.tasks[i]? with
    | none => s
    | some task => session.advanceTask s i task

end Steps

/-! ## What is to hold -/

def recordOf : SessionTask I (Doc I U) → Option (AddRecord I)
  | .adding r | .replacing r _ | .remembering r | .added r => some r
  | _ => none

/-- The documents that an `add_items` has stored. -/
def storedBy (t : SessionTask I (Doc I U)) : List ℕ := ((recordOf t).map AddRecord.stored).getD []

/-- The document that a `pop_item` has forgotten, and returns. -/
def takenBy : SessionTask I (Doc I U) → List ℕ
  | .popped id | .popReturned (some id) => [id]
  | _ => []

/-- The documents that a `clear_session` has forgotten. -/
def forgottenBy : SessionTask I (Doc I U) → List ℕ
  | .clearing _ forgotten | .cleared forgotten => forgotten
  | _ => []

def Finished : SessionTask I (Doc I U) → Prop
  | .added _ | .popReturned _ | .cleared _ => True
  | _ => False

instance (t : SessionTask I (Doc I U)) : Decidable (Finished t) :=
  match t with
  | .added _ | .popReturned _ | .cleared _ => .isTrue trivial
  | .reserving _ | .discovering _ _ _ | .discovered _ _ | .adding _ | .replacing _ _ | .remembering _
  | .popListing _ _ | .popping _ | .popped _ | .clearListing _ _ | .clearing _ _ => .isFalse id

/-- The metadata as it is stored, without NUL bytes. -/
def storedMetadata (seq : ℕ) (item : I) : SessionMetadata I :=
  session.ingest.stripNulJson (session.itemMetadata seq item)

/-- The document is stored with its item and its number, or a `pop_item` returns it, or a
`clear_session` has removed it. -/
def Safe (s : State I U) (id seq : ℕ) (item : I) : Prop :=
  (∃ d ∈ s.docs.docs, d.id = id ∧ d.metadata = session.storedMetadata seq item) ∨
    Tasks.Has takenBy s.tasks id ∨ Tasks.Has forgottenBy s.tasks id

/-- Once all calls have finished: every item of every `add_items` has a document of its own, under
increasing numbers, that is stored, popped or cleared, and no two `pop_item` return one document. -/
structure Lossless (s : State I U) : Prop where
  safe : ∀ r, .added r ∈ s.tasks → r.stored.length = r.items.length ∧
    ∀ k id item, r.stored[k]? = some id → r.items[k]? = some item → session.Safe s id (r.start + k) item
  own : Tasks.Exclusive storedBy s.tasks ∧ ∀ t ∈ s.tasks, (storedBy t).Nodup
  popped : Tasks.Exclusive takenBy s.tasks

/-- The condition on a turn: the document found under a number is gone when `add_items` forgets it, the
number is free when it remembers, and no other `pop_item` has forgotten the document. -/
def MeetsTurn (s : State I U) : SessionTask I (Doc I U) → Prop
  | .replacing _ existing => existing ∉ s.docs.docs.map NamespaceDocument.id
  | .remembering r => s.docs.Unclaimed (some (stripNul (session.eventExternalId r.seq)))
  | .popping id => ¬ Tasks.Has takenBy s.tasks id
  | _ => True

def Meets (s : State I U) : Action I → Prop
  | .call _ => True
  | .advance i => ∀ t ∈ s.tasks[i]?, session.MeetsTurn s t

instance (s : State I U) (t : SessionTask I (Doc I U)) : Decidable (session.MeetsTurn s t) :=
  match t with
  | .replacing _ _ => inferInstanceAs (Decidable (_ ∉ _))
  | .remembering _ => inferInstanceAs (Decidable (s.docs.Unclaimed _))
  | .popping _ => inferInstanceAs (Decidable (¬ Tasks.Has _ _ _))
  | .reserving _ | .discovering _ _ _ | .discovered _ _ | .adding _ | .added _ | .popListing _ _
  | .popped _ | .popReturned _ | .clearListing _ _ | .clearing _ _ | .cleared _ => .isTrue trivial

instance (s : State I U) (action : Action I) : Decidable (session.Meets s action) :=
  match action with
  | .call _ => .isTrue trivial
  | .advance i => inferInstanceAs (Decidable (∀ t ∈ s.tasks[i]?, session.MeetsTurn s t))

/-! ## What one step keeps -/

structure Inv (s : State I U) : Prop where
  kept : ∀ t ∈ s.tasks, ∀ r, recordOf t = some r → ∀ k id item, r.stored[k]? = some id →
    r.items[k]? = some item → session.Safe s id (r.start + k) item
  complete : ∀ r, .added r ∈ s.tasks → r.stored.length = r.items.length
  bound : ∀ t ∈ s.tasks, ∀ id ∈ storedBy t, id < s.docs.nextId
  own : Tasks.Exclusive storedBy s.tasks
  nodup : ∀ t ∈ s.tasks, (storedBy t).Nodup
  popped : Tasks.Exclusive takenBy s.tasks

theorem Inv.loses_none {s : State I U} (h : session.Inv s) : session.Lossless s := by
  refine ⟨?_, ⟨h.own, h.nodup⟩, h.popped⟩
  intro r hr
  exact ⟨h.complete r hr, h.kept _ hr r rfl⟩

theorem storedBy_of_recordOf {t : SessionTask I (Doc I U)} {r : AddRecord I} (h : recordOf t = some r) :
    storedBy t = r.stored := by
  unfold storedBy
  rw [h]
  rfl

/-- What is safe stays so, when no document is lost but to a `pop_item` or a `clear_session`. -/
theorem Safe.mono {s s' : State I U} {id seq : ℕ} {item : I} (h : session.Safe s id seq item)
    (hdocs : ∀ d ∈ s.docs.docs, d ∈ s'.docs.docs ∨ Tasks.Has takenBy s'.tasks d.id ∨
      Tasks.Has forgottenBy s'.tasks d.id)
    (htaken : Tasks.Has takenBy s.tasks id → Tasks.Has takenBy s'.tasks id)
    (hforgotten : Tasks.Has forgottenBy s.tasks id → Tasks.Has forgottenBy s'.tasks id) :
    session.Safe s' id seq item := by
  rcases h with ⟨d, hd, rfl, hmeta⟩ | h | h
  · rcases hdocs d hd with hkept | hgone
    · exact Or.inl ⟨d, hkept, rfl, hmeta⟩
    · exact Or.inr hgone
  · exact Or.inr (Or.inl (htaken h))
  · exact Or.inr (Or.inr (hforgotten h))

/-- What a step does to one task, as far as documents go. -/
structure Turn (s : State I U) (t t' : SessionTask I (Doc I U)) (docs : Docs I U) : Prop where
  lost : ∀ d ∈ s.docs.docs, d ∈ docs.docs ∨ d.id ∈ takenBy t' ∨ d.id ∈ forgottenBy t'
  nextId : s.docs.nextId ≤ docs.nextId
  taken : ∀ id ∈ takenBy t, id ∈ takenBy t'
  forgotten : ∀ id ∈ forgottenBy t, id ∈ forgottenBy t'
  takes : ∀ id ∈ takenBy t', id ∈ takenBy t ∨ ¬ Tasks.Has takenBy s.tasks id
  complete : ∀ r, t' = .added r → r.stored.length = r.items.length

theorem Turn.safe {s : State I U} {i : ℕ} {t t' : SessionTask I (Doc I U)} {docs : Docs I U}
    (hturn : Turn s t t' docs) (hi : s.tasks[i]? = some t) {nextSeq : Option ℕ} {locked : Bool}
    {id seq : ℕ} {item : I} (h : session.Safe s id seq item) :
    session.Safe ⟨docs, nextSeq, locked, s.tasks.set i t'⟩ id seq item := by
  apply h.mono session
  · intro d hd
    rcases hturn.lost d hd with hkept | htaken | hforgotten
    · exact Or.inl hkept
    · exact Or.inr (Or.inl (Tasks.has_set_self hi htaken))
    · exact Or.inr (Or.inr (Tasks.has_set_self hi hforgotten))
  · exact fun htaken => htaken.set hi hturn.taken
  · exact fun hforgotten => hforgotten.set hi hturn.forgotten

/-- **A step of one task keeps the invariant**, if what it has stored now is safe, bounded and its own. -/
theorem Inv.turn {s : State I U} (h : session.Inv s) {i : ℕ} {t t' : SessionTask I (Doc I U)}
    {docs : Docs I U} (hi : s.tasks[i]? = some t) (hturn : Turn s t t' docs) {nextSeq : Option ℕ}
    {locked : Bool}
    (hkept : ∀ r, recordOf t' = some r → ∀ k id item, r.stored[k]? = some id →
      r.items[k]? = some item →
        session.Safe ⟨docs, nextSeq, locked, s.tasks.set i t'⟩ id (r.start + k) item)
    (hbound : ∀ id ∈ storedBy t', id < docs.nextId)
    (hown : ∀ id ∈ storedBy t', id ∈ storedBy t ∨ ¬ Tasks.Has storedBy s.tasks id)
    (hnodup : (storedBy t').Nodup) : session.Inv ⟨docs, nextSeq, locked, s.tasks.set i t'⟩ := by
  refine ⟨?_, ?_, ?_, h.own.set hi hown, ?_, h.popped.set hi hturn.takes⟩
  · intro u hu r hr k id item hid hitem
    rcases Tasks.mem_set hi hu with rfl | hu
    · exact hkept r hr k id item hid hitem
    · exact hturn.safe session hi (h.kept u hu r hr k id item hid hitem)
  · intro r hr
    rcases Tasks.mem_set hi hr with heq | hr
    · exact hturn.complete r heq.symm
    · exact h.complete r hr
  · intro u hu id hid
    rcases Tasks.mem_set hi hu with rfl | hu
    · exact hbound id hid
    · exact Nat.lt_of_lt_of_le (h.bound u hu id hid) hturn.nextId
  · intro u hu
    rcases Tasks.mem_set hi hu with rfl | hu
    · exact hnodup
    · exact h.nodup u hu

/-- A step that stores nothing keeps the invariant. -/
theorem Inv.turn_same {s : State I U} (h : session.Inv s) {i : ℕ} {t t' : SessionTask I (Doc I U)}
    {docs : Docs I U} (hi : s.tasks[i]? = some t) (hturn : Turn s t t' docs)
    (hrecord : ∀ r, recordOf t' = some r → recordOf t = some r ∨ r.stored = []) (nextSeq : Option ℕ)
    (locked : Bool) : session.Inv ⟨docs, nextSeq, locked, s.tasks.set i t'⟩ := by
  have hmem := List.mem_of_getElem? hi
  have hstored : storedBy t' = storedBy t ∨ storedBy t' = [] := by
    cases hr : recordOf t' with
    | none =>
      apply Or.inr
      unfold storedBy
      rw [hr]
      rfl
    | some r =>
      rw [storedBy_of_recordOf hr]
      rcases hrecord r hr with hold | hempty
      · exact Or.inl (storedBy_of_recordOf hold).symm
      · exact Or.inr hempty
  apply h.turn session hi hturn
  · intro r hr k id item hid hitem
    rcases hrecord r hr with hold | hempty
    · exact hturn.safe session hi (h.kept t hmem r hold k id item hid hitem)
    · rw [hempty] at hid
      cases hid
  · intro id hid
    rcases hstored with heq | heq
    · rw [heq] at hid
      exact Nat.lt_of_lt_of_le (h.bound t hmem id hid) hturn.nextId
    · rw [heq] at hid
      cases hid
  · intro id hid
    rcases hstored with heq | heq
    · exact Or.inl (heq ▸ hid)
    · rw [heq] at hid
      cases hid
  · rcases hstored with heq | heq
    · rw [heq]
      exact h.nodup t hmem
    · rw [heq]
      exact List.nodup_nil

/-- A step that touches no document. -/
theorem turn_silent {s : State I U} {t t' : SessionTask I (Doc I U)} (htaken : takenBy t' = takenBy t)
    (hforgotten : forgottenBy t' = forgottenBy t) (hadded : ∀ r, t' ≠ .added r) :
    Turn s t t' s.docs := by
  refine ⟨fun d hd => Or.inl hd, Nat.le_refl _, ?_, ?_, ?_, fun r heq => absurd heq (hadded r)⟩
  · rw [htaken]
    exact fun _ => id
  · rw [hforgotten]
    exact fun _ => id
  · rw [htaken]
    exact fun _ => Or.inl

/-- A turn without a write and without a result. -/
structure QuietTurn (t t' : SessionTask I (Doc I U)) : Prop where
  taken : takenBy t' = takenBy t
  forgotten : forgottenBy t' = forgottenBy t
  record : recordOf t' = recordOf t
  running : ∀ r, t' ≠ .added r

theorem Inv.quiet {s : State I U} (h : session.Inv s) {i : ℕ} {t : SessionTask I (Doc I U)}
    (hi : s.tasks[i]? = some t) (t' : SessionTask I (Doc I U)) (hquiet : QuietTurn t t')
    {nextSeq : Option ℕ} {locked : Bool} :
    session.Inv ⟨s.docs, nextSeq, locked, s.tasks.set i t'⟩ := by
  apply h.turn_same session hi (turn_silent hquiet.taken hquiet.forgotten hquiet.running)
  intro r hr
  rw [hquiet.record] at hr
  exact Or.inl hr

/-- Numbers are reserved without a write. -/
theorem Inv.reserve {s : State I U} (h : session.Inv s) {i : ℕ} {t : SessionTask I (Doc I U)}
    (hi : s.tasks[i]? = some t) (htaken : takenBy t = []) (hforgotten : forgottenBy t = [])
    (start : ℕ) (items : List I) {nextSeq : Option ℕ} {locked : Bool} :
    session.Inv ⟨s.docs, nextSeq, locked, s.tasks.set i (.adding ⟨start, items, []⟩)⟩ := by
  have hturn : Turn s t (.adding ⟨start, items, []⟩) s.docs :=
    turn_silent htaken.symm hforgotten.symm (by simp)
  apply h.turn_same session hi hturn
  intro r hr
  exact Or.inr (congrArg AddRecord.stored (Option.some.inj hr).symm)

section Steps

variable [DecidableEq U] [DecidableEq H]

omit [DecidableEq U] [DecidableEq H] in
theorem afterRemember_cases (r : AddRecord I) (id : ℕ) :
    (afterRemember r id : SessionTask I (Doc I U)) = .adding { r with stored := r.stored ++ [id] } ∨
      (afterRemember r id : SessionTask I (Doc I U)) = .added { r with stored := r.stored ++ [id] } ∧
        (r.stored ++ [id]).length = r.items.length := by
  unfold afterRemember
  by_cases h : (r.stored ++ [id]).length = r.items.length
  · exact Or.inr ⟨if_pos h, h⟩
  · exact Or.inl (if_neg h)

/-- The documents with an item stored under a free number. -/
def createItem (s : Docs I U) (r : AddRecord I) (item : I) : Docs I U :=
  s.create (some (stripNul (session.eventExternalId r.seq))) (some session.sessionUuid)
    (stripNul (session.content item)) (session.storedMetadata r.seq item)

theorem advanceTask_remembering {s : State I U} {i : ℕ} {r : AddRecord I} {item : I}
    (hitem : r.items[r.stored.length]? = some item)
    (hfree : s.docs.Unclaimed (some (stripNul (session.eventExternalId r.seq)))) :
    session.advanceTask s i (.remembering r) =
      ⟨session.createItem s.docs r item, s.nextSeq, s.locked,
        s.tasks.set i (afterRemember r s.docs.nextId)⟩ := by
  simp only [advanceTask, hitem, NamespaceDocuments.remember_eq_create hfree]
  rfl

/-- **A document remembered under a free number** is the task's own. -/
theorem Inv.remembering {s : State I U} (h : session.Inv s) {i : ℕ} {r : AddRecord I}
    (hi : s.tasks[i]? = some (.remembering r)) {item : I} (hitem : r.items[r.stored.length]? = some item)
    (hfree : s.docs.Unclaimed (some (stripNul (session.eventExternalId r.seq)))) :
    session.Inv (session.advanceTask s i (.remembering r)) := by
  have hmem := List.mem_of_getElem? hi
  obtain ⟨new, hdocs, hid, hmeta⟩ : ∃ new, (session.createItem s.docs r item).docs = new :: s.docs.docs ∧
      new.id = s.docs.nextId ∧ new.metadata = session.storedMetadata r.seq item :=
    ⟨_, NamespaceDocuments.docs_create hfree, rfl, rfl⟩
  have hnext : (session.createItem s.docs r item).nextId = _ := NamespaceDocuments.nextId_create hfree
  rw [session.advanceTask_remembering hitem hfree]
  have hrecord : ∃ t' : SessionTask I (Doc I U), afterRemember r s.docs.nextId = t' ∧
      recordOf t' = some { r with stored := r.stored ++ [s.docs.nextId] } ∧ takenBy t' = [] ∧
      forgottenBy t' = [] ∧ ∀ r', t' = .added r' → r'.stored.length = r'.items.length := by
    refine ⟨_, rfl, ?_⟩
    rcases afterRemember_cases (U := U) r s.docs.nextId with heq | ⟨heq, hlength⟩
    · rw [heq]
      exact ⟨rfl, rfl, rfl, fun r' h => by cases h⟩
    · rw [heq]
      refine ⟨rfl, rfl, rfl, fun r' h => ?_⟩
      cases h
      exact hlength
  obtain ⟨t', heq, hrecord, htaken, hforgotten, hcomplete⟩ := hrecord
  rw [heq]
  have hturn : Turn s (.remembering r) t' (session.createItem s.docs r item) := by
    refine ⟨?_, ?_, fun id hid => absurd hid List.not_mem_nil, fun id hid => absurd hid List.not_mem_nil,
      ?_, hcomplete⟩
    · intro d hd
      rw [hdocs]
      exact Or.inl (List.mem_cons_of_mem _ hd)
    · rw [hnext]
      exact Nat.le_succ _
    · rw [htaken]
      exact fun id hid => absurd hid List.not_mem_nil
  have hstored : storedBy t' = r.stored ++ [s.docs.nextId] := storedBy_of_recordOf hrecord
  have hold : ∀ id ∈ r.stored, id < s.docs.nextId := h.bound _ hmem
  apply h.turn session hi hturn
  · intro r' hr' k id item' hk hitem'
    rw [hrecord, Option.some.injEq] at hr'
    subst hr'
    rw [List.getElem?_append] at hk
    by_cases hlt : k < r.stored.length
    · rw [if_pos hlt] at hk
      exact hturn.safe session hi (h.kept _ hmem r rfl k id item' hk hitem')
    · rw [if_neg hlt, List.getElem?_singleton] at hk
      have hlast : k = r.stored.length ∧ s.docs.nextId = id := by
        split at hk
        · exact ⟨by omega, Option.some.inj hk⟩
        · cases hk
      obtain ⟨rfl, rfl⟩ := hlast
      rw [hitem, Option.some.injEq] at hitem'
      subst hitem'
      refine Or.inl ⟨new, ?_, hid, hmeta⟩
      rw [hdocs]
      exact List.mem_cons_self
  · intro id hid
    rw [hstored, List.mem_append, List.mem_singleton] at hid
    rw [hnext]
    rcases hid with hid | rfl
    · exact Nat.lt_succ_of_lt (hold id hid)
    · exact Nat.lt_succ_self _
  · intro id hid
    rw [hstored, List.mem_append, List.mem_singleton] at hid
    rcases hid with hid | rfl
    · exact Or.inl hid
    · apply Or.inr
      rintro ⟨u, hu, hid⟩
      exact absurd (h.bound u hu _ hid) (Nat.lt_irrefl _)
  · rw [hstored, List.nodup_append]
    refine ⟨h.nodup _ hmem, List.nodup_singleton _, ?_⟩
    intro id hid id' hid' heq
    rw [List.mem_singleton] at hid'
    rw [heq, hid'] at hid
    exact absurd (hold _ hid) (Nat.lt_irrefl _)

/-- A turn that meets the condition keeps the invariant. -/
theorem Inv.advance {s : State I U} (h : session.Inv s) {i : ℕ} {t : SessionTask I (Doc I U)}
    (hi : s.tasks[i]? = some t) (hmeets : session.MeetsTurn s t) :
    session.Inv (session.advanceTask s i t) := by
  cases t with
  | added _ | popReturned _ | cleared _ => exact h
  | remembering r =>
    cases hitem : r.items[r.stored.length]? with
    | none =>
      unfold advanceTask
      simp only [hitem]
      exact h
    | some item => exact h.remembering session hi hitem hmeets
  | replacing r existing =>
    have hsame : ∀ d ∈ s.docs.docs, d ∈ (s.docs.forget existing).docs := by
      intro d hd
      rw [NamespaceDocuments.mem_forget]
      exact ⟨hd, fun heq => hmeets (heq ▸ List.mem_map_of_mem hd)⟩
    have hturn : Turn s (.replacing r existing) (.remembering r) (s.docs.forget existing) :=
      ⟨fun d hd => Or.inl (hsame d hd), Nat.le_refl _, fun _ => id, fun _ => id, fun _ => Or.inl,
        fun r heq => by cases heq⟩
    exact h.turn_same session hi hturn (fun _ => Or.inl) _ _
  | popping id =>
    have hturn : Turn s (.popping id) (.popped id) (s.docs.forget id) := by
      refine ⟨?_, Nat.le_refl _, fun _ hid => absurd hid List.not_mem_nil, fun _ => fun h => h, ?_,
        fun r heq => by cases heq⟩
      · intro d hd
        by_cases heq : d.id = id
        · exact Or.inr (Or.inl (List.mem_singleton.mpr heq))
        · exact Or.inl (NamespaceDocuments.mem_forget.mpr ⟨hd, heq⟩)
      · intro id' hid
        rw [List.mem_singleton.mp hid]
        exact Or.inr hmeets
    exact h.turn_same session hi hturn (fun _ => Or.inl) _ _
  | clearing todo forgotten =>
    cases todo with
    | nil =>
      exact h.quiet session hi (.cleared forgotten) ⟨rfl, rfl, rfl, by simp⟩
    | cons id todo =>
      have hturn : Turn s (.clearing (id :: todo) forgotten) (.clearing todo (forgotten ++ [id]))
          (s.docs.forget id) := by
        refine ⟨?_, Nat.le_refl _, fun _ hid => absurd hid List.not_mem_nil,
          fun _ => List.mem_append_left _, fun _ hid => absurd hid List.not_mem_nil,
          fun r heq => by cases heq⟩
        intro d hd
        by_cases heq : d.id = id
        · exact Or.inr (Or.inr (List.mem_append_right _ (List.mem_singleton.mpr heq)))
        · exact Or.inl (NamespaceDocuments.mem_forget.mpr ⟨hd, heq⟩)
      exact h.turn_same session hi hturn (fun _ => Or.inl) _ _
  | popped id =>
    exact h.quiet session hi (.popReturned (some id)) ⟨rfl, rfl, rfl, by simp⟩
  | discovered items gathered =>
    exact h.reserve session hi rfl rfl _ _
  | reserving items =>
    simp only [advanceTask]
    by_cases hlocked : s.locked = true
    · rw [if_pos hlocked]
      exact h
    · rw [if_neg hlocked]
      cases s.nextSeq with
      | none =>
        exact h.quiet session hi (.discovering items 0 []) ⟨rfl, rfl, rfl, by simp⟩
      | some start => exact h.reserve session hi rfl rfl _ _
  | adding r =>
    cases hget : s.docs.getByExternalId (session.eventExternalId r.seq) with
    | none =>
      simp only [advanceTask, hget]
      exact h.quiet session hi (.remembering r) ⟨rfl, rfl, rfl, by simp⟩
    | some existing =>
      simp only [advanceTask, hget]
      exact h.quiet session hi (.replacing r existing.id) ⟨rfl, rfl, rfl, by simp⟩
  | discovering items cursor gathered =>
    rcases hpage : session.readPage s.docs cursor gathered with ⟨read, _ | next⟩
    · simp only [advanceTask, hpage]
      exact h.quiet session hi (.discovered items read) ⟨rfl, rfl, rfl, by simp⟩
    · simp only [advanceTask, hpage]
      exact h.quiet session hi (.discovering items next read) ⟨rfl, rfl, rfl, by simp⟩
  | popListing cursor gathered =>
    rcases hpage : session.readPage s.docs cursor gathered with ⟨read, _ | next⟩
    · cases hlast : (SortBy.sortBy seqOf read).getLast? with
      | none =>
        simp only [advanceTask, hpage, hlast]
        exact h.quiet session hi (.popReturned none) ⟨rfl, rfl, rfl, by simp⟩
      | some last =>
        simp only [advanceTask, hpage, hlast]
        exact h.quiet session hi (.popping last.id) ⟨rfl, rfl, rfl, by simp⟩
    · simp only [advanceTask, hpage]
      exact h.quiet session hi (.popListing next read) ⟨rfl, rfl, rfl, by simp⟩
  | clearListing cursor gathered =>
    rcases hpage : session.readPage s.docs cursor gathered with ⟨read, _ | next⟩
    · simp only [advanceTask, hpage]
      exact h.quiet session hi (.clearing _ []) ⟨rfl, rfl, rfl, by simp⟩
    · simp only [advanceTask, hpage]
      exact h.quiet session hi (.clearListing next read) ⟨rfl, rfl, rfl, by simp⟩

/-- **One step that meets the condition keeps the invariant.** -/
theorem Inv.step {s : State I U} {action : Action I} (h : session.Inv s)
    (hmeets : session.Meets s action) : session.Inv (session.step s action) := by
  cases action with
  | call c =>
    have hbegin : storedBy (begin c : SessionTask I (Doc I U)) = [] ∧
        takenBy (begin c : SessionTask I (Doc I U)) = [] ∧
        (∀ r, recordOf (begin c : SessionTask I (Doc I U)) = some r → r = ⟨0, [], []⟩) ∧
        ∀ r, (begin c : SessionTask I (Doc I U)) = .added r → r = ⟨0, [], []⟩ := by
      cases c with
      | addItems items =>
        cases items with
        | nil => exact ⟨rfl, rfl, fun r hr => (Option.some.inj hr).symm, fun r hr => by cases hr; rfl⟩
        | cons _ _ => exact ⟨rfl, rfl, fun r hr => (by cases hr), fun r hr => (by cases hr)⟩
      | popItem | clearSession =>
        exact ⟨rfl, rfl, fun r hr => (by cases hr), fun r hr => (by cases hr)⟩
    obtain ⟨hstored, htaken, hrecord, hadded⟩ := hbegin
    refine ⟨?_, ?_, ?_, h.own.append hstored, ?_, h.popped.append htaken⟩
    · intro t ht r hr k id item hid hitem
      rcases List.mem_append.mp ht with ht | ht
      · apply (h.kept t ht r hr k id item hid hitem).mono session
        · exact fun d hd => Or.inl hd
        · exact fun hhas => hhas.append _
        · exact fun hhas => hhas.append _
      · rw [List.mem_singleton.mp ht] at hr
        rw [hrecord r hr] at hid
        cases hid
    · intro r hr
      rcases List.mem_append.mp hr with hr | hr
      · exact h.complete r hr
      · rw [hadded r (List.mem_singleton.mp hr).symm]
        rfl
    · intro t ht id hid
      rcases List.mem_append.mp ht with ht | ht
      · exact h.bound t ht id hid
      · rw [List.mem_singleton.mp ht, hstored] at hid
        cases hid
    · intro t ht
      rcases List.mem_append.mp ht with ht | ht
      · exact h.nodup t ht
      · rw [List.mem_singleton.mp ht, hstored]
        exact List.nodup_nil
  | advance i =>
    show session.Inv (match s.tasks[i]? with | none => s | some t => session.advanceTask s i t)
    cases hi : s.tasks[i]? with
    | none => exact h
    | some t => exact h.advance session hi (hmeets t hi)

omit [DecidableEq U] [DecidableEq H] in
theorem inv_init (docs : Docs I U) : session.Inv ⟨docs, none, false, []⟩ := by
  refine ⟨?_, ?_, ?_, Tasks.exclusive_nil, ?_, Tasks.exclusive_nil⟩
  · exact fun t ht => absurd ht List.not_mem_nil
  · exact fun r hr => absurd hr List.not_mem_nil
  · exact fun t ht => absurd ht List.not_mem_nil
  · exact fun t ht => absurd ht List.not_mem_nil

/-- **No item is lost and none is returned twice** in a run whose steps meet the condition. -/
theorem lossless (docs : Docs I U) {actions : List (Action I)}
    (h : Runs.Guarded session.step session.Meets ⟨docs, none, false, []⟩ actions) :
    Runs.Always session.step session.Lossless ⟨docs, none, false, []⟩ actions := by
  have hstep : ∀ (s : State I U) (action : Action I), True → session.Inv s → session.Meets s action →
      session.Inv (session.step s action) := fun s action _ hinv hmeets => hinv.step session hmeets
  exact Runs.always_of_guarded hstep (fun _ hinv => hinv.loses_none session) (fun _ _ => trivial)
    (session.inv_init docs) h

end Steps

end KhoraSession

/-! ## A number used again, and two pops -/

/-- A session of numbers. -/
def numberSession : KhoraSession ℕ Unit (List Char) where
  sessionId := "chat".toList
  sessionUuid := ()
  sha1 _ := List.replicate 40 '0'
  content n := (toString n).toList
  checksum := id

def emptySession : KhoraSession.State ℕ Unit := ⟨.empty, none, false, []⟩

/-- Turns of one task, one after the other. -/
def turns (i n : ℕ) : List (KhoraSession.Action ℕ) := List.replicate n (.advance i)

/-- An `add_items` that has written its first item, a pop of that item, another `add_items` that
discovers no number, and the rest of the first. -/
def reusedNumber : List (KhoraSession.Action ℕ) :=
  .call (.addItems [1, 2]) :: turns 0 5 ++ (.call .popItem :: turns 1 3) ++
    (.call (.addItems [3, 4]) :: turns 2 7) ++ turns 0 3

/-- Two pops that list the same last document. -/
def overlappingPops : List (KhoraSession.Action ℕ) :=
  .call (.addItems [7]) :: turns 0 5 ++
    [.call .popItem, .call .popItem, .advance 1, .advance 2] ++ turns 1 2 ++ turns 2 2

def afterReuse : KhoraSession.State ℕ Unit := Runs.run numberSession.step emptySession reusedNumber

def afterPops : KhoraSession.State ℕ Unit := Runs.run numberSession.step emptySession overlappingPops

theorem item_lost_and_item_popped_twice :
    ((∀ t ∈ afterReuse.tasks, KhoraSession.Finished t) ∧ .added ⟨0, [3, 4], [1, 2]⟩ ∈ afterReuse.tasks ∧
      (∀ d ∈ afterReuse.docs.docs, d.metadata.oaiItem ≠ some 4) ∧
      ¬ Tasks.Has KhoraSession.takenBy afterReuse.tasks 2 ∧
      ¬ Tasks.Has KhoraSession.forgottenBy afterReuse.tasks 2) ∧
    (∀ t ∈ afterPops.tasks, KhoraSession.Finished t) ∧
      afterPops.tasks[1]? = some (.popReturned (some 0)) ∧
      afterPops.tasks[2]? = some (.popReturned (some 0)) := by
  decide

/-- Two `add_items` side by side, then a pop. -/
def orderlyRun : List (KhoraSession.Action ℕ) :=
  [.call (.addItems [1, 2]), .call (.addItems [3])] ++ turns 0 3 ++ turns 1 3 ++ turns 0 4 ++
    (.call .popItem :: turns 2 3)

theorem orderlyRun_lossless :
    Runs.Always numberSession.step numberSession.Lossless emptySession orderlyRun := by
  apply numberSession.lossless .empty
  decide

end Khora
