import Khora.Accel.CharClass
import Khora.Integrations.Documents
import Khora.Lib.Runs
import Khora.Lib.SortBy
import Mathlib.Data.List.Dedup
import Mathlib.Data.List.Lex

/-!
# The LlamaIndex chat store

`KhoraChatStore` keeps a conversation as one document for each message, with the key and the place of
the message in the metadata.  A message is remembered without an external id and without a session,
so that `remember` drops it when a document of the namespace has its text.

* `getMessages_eq` — a conversation read off from the documents.
* `refines_iff` — the store is a dictionary of lists exactly in the runs that never store a
  text twice.
* `repeated_text_lost` — two messages with one text.
-/

namespace Khora

/-! ## Messages -/

/-- `ChatMessage`: the value of its role, its text and its further arguments. -/
@[ext]
structure ChatMessage (K : Type) where
  role : List Char
  text : List Char
  additionalKwargs : K
  deriving DecidableEq, Repr

/-- What `chat_message_metadata` stamps on a document. -/
structure ChatMetadata (K : Type) where
  chatKey : List Char
  chatIndex : ℕ
  chatRole : List Char
  chatAdditional : K
  deriving DecidableEq, Repr

def chatMessageMetadata {K : Type} (key : List Char) (index : ℕ) (message : ChatMessage K) :
    ChatMetadata K :=
  ⟨key, index, message.role, message.additionalKwargs⟩

/-- The functions of texts and arguments that the store uses. -/
structure ChatStore (K H : Type) where
  checksum : List Char → H
  stripNulJson : K → K
  noKwargs : K

namespace ChatStore

variable {K H : Type} (store : ChatStore K H)

/-- The documents of the store's namespace; those of other writers have no chat metadata. -/
abbrev Docs (K : Type) := NamespaceDocuments (Option (ChatMetadata K)) Unit

abbrev Doc (K : Type) := NamespaceDocument (Option (ChatMetadata K)) Unit

def ingest : Ingest (Option (ChatMetadata K)) H where
  checksum := store.checksum
  stripNulJson metadata := metadata.map fun m =>
    ⟨stripNul m.chatKey, m.chatIndex, stripNul m.chatRole, store.stripNulJson m.chatAdditional⟩

/-! ## The calls -/

def listLimit : ℕ := 10000

/-- The document is stamped with the key. -/
def hasKey (key : List Char) (d : Doc K) : Bool := decide (d.metadata.map ChatMetadata.chatKey = some key)

def indexOf (d : Doc K) : ℕ := (d.metadata.map ChatMetadata.chatIndex).getD 0

/-- `_list_for_key` -/
def listForKey (s : Docs K) (key : List Char) : List (Doc K) :=
  SortBy.sortBy indexOf ((s.listDocuments listLimit 0).filter (hasKey key))

/-- `_document_to_message`, with the defaults of a document without chat metadata -/
def documentToMessage (d : Doc K) : ChatMessage K :=
  match d.metadata with
  | some m => ⟨m.chatRole, d.content, m.chatAdditional⟩
  | none => ⟨"user".toList, d.content, store.noKwargs⟩

def getMessages (s : Docs K) (key : List Char) : List (ChatMessage K) :=
  (listForKey s key).map store.documentToMessage

/-- `sorted` of a set of keys -/
def getKeys (s : Docs K) : List (List Char) :=
  (((s.listDocuments listLimit 0).filterMap fun d => d.metadata.map ChatMetadata.chatKey).dedup).insertionSort
    (· ≤ ·)

/-- The text that `_remember_message` stores: a blank one becomes a single space. -/
def rememberedText (message : ChatMessage K) : List Char :=
  if strip message.text = [] then [' '] else message.text

def forgetAll (s : Docs K) (ids : List ℕ) : Docs K := ids.foldl NamespaceDocuments.forget s

def deleteMessages (s : Docs K) (key : List Char) : Docs K :=
  forgetAll s ((listForKey s key).map NamespaceDocument.id)

def deleteMessage (s : Docs K) (key : List Char) (idx : ℤ) : Docs K :=
  if idx < 0 then s
  else
    match (listForKey s key)[idx.toNat]? with
    | none => s
    | some target => s.forget target.id

def deleteLastMessage (s : Docs K) (key : List Char) : Docs K :=
  match (listForKey s key).getLast? with
  | none => s
  | some target => s.forget target.id

/-- The index of a further message. -/
def nextIndex (s : Docs K) (key : List Char) : ℕ :=
  match (listForKey s key).getLast? with
  | none => 0
  | some last => indexOf last + 1

section Writes

variable [DecidableEq H]

/-- `_remember_message` -/
def rememberMessage (s : Docs K) (key : List Char) (index : ℕ) (message : ChatMessage K) : Docs K :=
  (s.remember store.ingest (rememberedText message) (some (chatMessageMetadata key index message)) none
    none).1

/-- The loop over `enumerate(messages)`. -/
def rememberFrom (s : Docs K) (key : List Char) (index : ℕ) : List (ChatMessage K) → Docs K
  | [] => s
  | message :: messages =>
    rememberFrom (store.rememberMessage s key index message) key (index + 1) messages

def setMessages (s : Docs K) (key : List Char) (messages : List (ChatMessage K)) : Docs K :=
  store.rememberFrom (deleteMessages s key) key 0 messages

def addMessage (s : Docs K) (key : List Char) (message : ChatMessage K) : Docs K :=
  store.rememberMessage s key (nextIndex s key) message

end Writes

/-! ## Runs beside a dictionary -/

inductive Call (K : Type) where
  | setMessages (key : List Char) (messages : List (ChatMessage K))
  | addMessage (key : List Char) (message : ChatMessage K)
  | deleteMessage (key : List Char) (idx : ℤ)
  | deleteLastMessage (key : List Char)
  | deleteMessages (key : List Char)

/-- The messages of a call have a text that is not blank. -/
def Call.Spoken : Call K → Prop
  | .setMessages _ messages => ∀ message ∈ messages, strip message.text ≠ []
  | .addMessage _ message => strip message.text ≠ []
  | .deleteMessage _ _ | .deleteLastMessage _ | .deleteMessages _ => True

/-- The documents, and the lists that the store should hold. -/
structure State (K : Type) where
  docs : Docs K
  lists : List Char → List (ChatMessage K)

/-- The call on a dictionary of lists. -/
def dictStep (lists : List Char → List (ChatMessage K)) : Call K → List Char → List (ChatMessage K)
  | .setMessages key messages => Function.update lists key messages
  | .addMessage key message => Function.update lists key (lists key ++ [message])
  | .deleteMessage key idx =>
    if idx < 0 then lists else Function.update lists key ((lists key).eraseIdx idx.toNat)
  | .deleteLastMessage key => Function.update lists key (lists key).dropLast
  | .deleteMessages key => Function.update lists key []

def docsStep [DecidableEq H] (s : Docs K) : Call K → Docs K
  | .setMessages key messages => store.setMessages s key messages
  | .addMessage key message => store.addMessage s key message
  | .deleteMessage key idx => deleteMessage s key idx
  | .deleteLastMessage key => deleteLastMessage s key
  | .deleteMessages key => deleteMessages s key

def step [DecidableEq H] (s : State K) (call : Call K) : State K :=
  ⟨store.docsStep s.docs call, dictStep s.lists call⟩

/-- `get_messages` and `get_keys` answer as the dictionary does. -/
structure Answers (s : State K) : Prop where
  messages : ∀ key, store.getMessages s.docs key = s.lists key
  keys : ∀ key, key ∈ getKeys s.docs ↔ s.lists key ≠ []

/-- The listing shows every document. -/
def Listed (s : State K) : Prop := s.docs.docs.length ≤ listLimit

instance (s : State K) : Decidable (Listed s) := inferInstanceAs (Decidable (_ ≤ _))

/-! ## A conversation in the documents -/

/-- The documents of a key, newest first. -/
def keyed (s : Docs K) (key : List Char) : List (Doc K) := s.docs.filter (hasKey key)

/-- A conversation stands in the documents: newer messages have greater indexes. -/
structure Holds (s : Docs K) (key : List Char) (messages : List (ChatMessage K)) : Prop where
  ordered : (keyed s key).Pairwise fun a b => indexOf b < indexOf a
  reads : (keyed s key).reverse.map store.documentToMessage = messages

def Inv (s : State K) : Prop := ∀ key, store.Holds s.docs key (s.lists key)

theorem listDocuments_eq {s : Docs K} (h : s.docs.length ≤ listLimit) :
    s.listDocuments listLimit 0 = s.docs := by
  unfold NamespaceDocuments.listDocuments
  rw [List.drop_zero, List.take_of_length_le h]

theorem listForKey_eq {s : Docs K} (hlisted : s.docs.length ≤ listLimit) {key : List Char}
    (h : (keyed s key).Pairwise fun a b => indexOf b < indexOf a) :
    listForKey s key = (keyed s key).reverse := by
  unfold listForKey
  rw [listDocuments_eq hlisted]
  exact SortBy.sortBy_eq_reverse h

/-- **A conversation is read off in order.** -/
theorem getMessages_eq {s : Docs K} (hlisted : s.docs.length ≤ listLimit) {key : List Char}
    {messages : List (ChatMessage K)} (h : store.Holds s key messages) :
    store.getMessages s key = messages := by
  unfold getMessages
  rw [listForKey_eq hlisted h.ordered]
  exact h.reads

theorem mem_getKeys {s : Docs K} (hlisted : s.docs.length ≤ listLimit) {key : List Char} :
    key ∈ getKeys s ↔ keyed s key ≠ [] := by
  unfold getKeys keyed
  rw [List.mem_insertionSort, List.mem_dedup, listDocuments_eq hlisted, List.mem_filterMap, ne_eq,
    List.filter_eq_nil_iff, not_forall]
  refine exists_congr fun d => ?_
  rw [Classical.not_imp, not_not]
  unfold hasKey
  rw [decide_eq_true_eq]

theorem Inv.answers {s : State K} (hlisted : Listed s) (h : store.Inv s) : store.Answers s := by
  refine ⟨fun key => store.getMessages_eq hlisted (h key), ?_⟩
  intro key
  rw [mem_getKeys hlisted, ← (h key).reads, ne_eq, ne_eq, List.map_eq_nil_iff, List.reverse_eq_nil_iff]

/-! ## Deletions -/

theorem docs_forgetAll (s : Docs K) (ids : List ℕ) :
    (forgetAll s ids).docs = s.docs.filter fun d => decide (d.id ∉ ids) := by
  induction ids generalizing s with
  | nil =>
    show s.docs = _
    rw [List.filter_eq_self.mpr]
    exact fun d _ => decide_eq_true List.not_mem_nil
  | cons i ids ih =>
    show (forgetAll (s.forget i) ids).docs = _
    rw [ih]
    show (s.docs.filter _).filter _ = _
    rw [List.filter_filter]
    apply List.filter_congr
    intro d _
    rw [← Bool.decide_and]
    apply decide_eq_decide.mpr
    rw [List.mem_cons, not_or]
    exact And.comm

theorem keyed_forgetAll (s : Docs K) (ids : List ℕ) (key : List Char) :
    keyed (forgetAll s ids) key = (keyed s key).filter fun d => decide (d.id ∉ ids) := by
  unfold keyed
  rw [docs_forgetAll, List.filter_comm]

/-- Deletions among the documents of one key leave the other conversations alone. -/
theorem keyed_forgetAll_of_ne {s : Docs K} {key other : List Char} (hne : other ≠ key) {ids : List ℕ}
    (hids : ∀ i ∈ ids, ∃ d ∈ keyed s key, d.id = i) :
    keyed (forgetAll s ids) other = keyed s other := by
  rw [keyed_forgetAll, List.filter_eq_self]
  intro d hd
  rw [decide_eq_true_eq]
  intro hmem
  obtain ⟨d', hd', hid⟩ := hids d.id hmem
  rw [keyed, List.mem_filter] at hd hd'
  rw [s.eq_of_id_eq hd'.1 hd.1 hid] at hd'
  have hkey := of_decide_eq_true hd'.2
  rw [of_decide_eq_true hd.2] at hkey
  exact hne (Option.some.inj hkey)

theorem Holds.of_keyed_eq {s s' : Docs K} {key : List Char} {messages : List (ChatMessage K)}
    (h : store.Holds s key messages) (heq : keyed s' key = keyed s key) :
    store.Holds s' key messages := by
  refine ⟨?_, ?_⟩
  · rw [heq]
    exact h.ordered
  · rw [heq]
    exact h.reads

/-- **Deleting documents of a key** takes their messages from its list. -/
theorem inv_forgetAll {s : State K} (h : store.Inv s) {key : List Char} {ids : List ℕ}
    (hids : ∀ i ∈ ids, ∃ d ∈ keyed s.docs key, d.id = i) {messages : List (ChatMessage K)}
    (hmessages : ((keyed s.docs key).reverse.filter fun d => decide (d.id ∉ ids)).map
      store.documentToMessage = messages) :
    store.Inv ⟨forgetAll s.docs ids, Function.update s.lists key messages⟩ := by
  intro other
  show store.Holds (forgetAll s.docs ids) other (Function.update s.lists key messages other)
  by_cases hne : other = key
  · subst hne
    rw [Function.update_self]
    refine ⟨?_, ?_⟩
    · rw [keyed_forgetAll]
      exact (h other).ordered.sublist List.filter_sublist
    · rw [keyed_forgetAll, ← List.filter_reverse]
      exact hmessages
  · rw [Function.update_of_ne hne]
    exact (h other).of_keyed_eq store (keyed_forgetAll_of_ne hne hids)

theorem exists_keyed_of_mem_listForKey {s : Docs K} (hlisted : s.docs.length ≤ listLimit)
    {key : List Char} {d : Doc K} (hd : d ∈ listForKey s key) : ∃ d' ∈ keyed s key, d'.id = d.id := by
  unfold listForKey at hd
  rw [SortBy.mem_sortBy, listDocuments_eq hlisted] at hd
  exact ⟨d, hd, rfl⟩

theorem inv_deleteMessages {s : State K} (hlisted : Listed s) (h : store.Inv s) (key : List Char) :
    store.Inv ⟨deleteMessages s.docs key, Function.update s.lists key []⟩ := by
  apply inv_forgetAll store h
  · intro i hi
    obtain ⟨d, hd, rfl⟩ := List.mem_map.mp hi
    exact exists_keyed_of_mem_listForKey hlisted hd
  · rw [listForKey_eq hlisted (h key).ordered, List.map_eq_nil_iff, List.filter_eq_nil_iff]
    intro d hd
    rw [decide_eq_true_eq, not_not]
    exact List.mem_map_of_mem hd

/-- Filtering out the one element with a key erases it. -/
theorem filter_notMem_eq_eraseIdx {X Y : Type} [DecidableEq Y] {f : X → Y} {l : List X}
    (hn : (l.map f).Nodup) {i : ℕ} {x : X} (hx : l[i]? = some x) :
    (l.filter fun y => decide (f y ∉ [f x])) = l.eraseIdx i := by
  induction l generalizing i with
  | nil => cases hx
  | cons y l ih =>
    rw [List.map_cons, List.nodup_cons] at hn
    cases i with
    | zero =>
      rw [List.getElem?_cons_zero, Option.some.injEq] at hx
      subst hx
      rw [List.filter_cons_of_neg (by simp), List.eraseIdx_cons_zero, List.filter_eq_self]
      intro z hz
      rw [decide_eq_true_eq, List.mem_singleton]
      intro heq
      exact hn.1 (heq ▸ List.mem_map_of_mem hz)
    | succ i =>
      rw [List.getElem?_cons_succ] at hx
      have hne : f y ∉ [f x] := by
        rw [List.mem_singleton]
        intro heq
        exact hn.1 (heq ▸ List.mem_map_of_mem (List.mem_of_getElem? hx))
      rw [List.filter_cons_of_pos (by simpa using hne), List.eraseIdx_cons_succ, ih hn.2 hx]

theorem map_eraseIdx {X Y : Type} (f : X → Y) (l : List X) (i : ℕ) :
    (l.eraseIdx i).map f = (l.map f).eraseIdx i := by
  rw [List.eraseIdx_eq_take_drop_succ, List.eraseIdx_eq_take_drop_succ, List.map_append, List.map_take,
    List.map_drop]

theorem keyed_ids_nodup (s : Docs K) (key : List Char) :
    ((keyed s key).reverse.map NamespaceDocument.id).Nodup := by
  rw [List.map_reverse, List.nodup_reverse]
  exact s.distinct.sublist (List.filter_sublist.map _)

/-- **Deleting the document at a place** takes the message at that place. -/
theorem inv_forget {s : State K} (h : store.Inv s) {key : List Char} {i : ℕ} {target : Doc K}
    (htarget : (keyed s.docs key).reverse[i]? = some target) :
    store.Inv ⟨s.docs.forget target.id, Function.update s.lists key ((s.lists key).eraseIdx i)⟩ := by
  show store.Inv ⟨forgetAll s.docs [target.id], _⟩
  apply inv_forgetAll store h
  · intro j hj
    rw [List.mem_singleton.mp hj]
    exact ⟨target, List.mem_reverse.mp (List.mem_of_getElem? htarget), rfl⟩
  · rw [filter_notMem_eq_eraseIdx (keyed_ids_nodup s.docs key) htarget, map_eraseIdx, (h key).reads]

theorem length_lists {s : State K} (h : store.Inv s) (key : List Char) :
    (s.lists key).length = (keyed s.docs key).reverse.length := by
  rw [← (h key).reads, List.length_map]

theorem inv_deleteMessage {s : State K} (hlisted : Listed s) (h : store.Inv s) (key : List Char)
    (idx : ℤ) : store.Inv ⟨deleteMessage s.docs key idx, dictStep s.lists (.deleteMessage key idx)⟩ := by
  show store.Inv ⟨deleteMessage s.docs key idx, if idx < 0 then s.lists else _⟩
  unfold deleteMessage
  by_cases hneg : idx < 0
  · rw [if_pos hneg, if_pos hneg]
    exact h
  · rw [if_neg hneg, if_neg hneg, listForKey_eq hlisted (h key).ordered]
    cases htarget : (keyed s.docs key).reverse[idx.toNat]? with
    | some target => exact store.inv_forget h htarget
    | none =>
      rw [List.getElem?_eq_none_iff, ← store.length_lists h key] at htarget
      rw [List.eraseIdx_of_length_le htarget, Function.update_eq_self]
      exact h

theorem inv_deleteLastMessage {s : State K} (hlisted : Listed s) (h : store.Inv s) (key : List Char) :
    store.Inv ⟨deleteLastMessage s.docs key, Function.update s.lists key (s.lists key).dropLast⟩ := by
  unfold deleteLastMessage
  rw [listForKey_eq hlisted (h key).ordered, List.getLast?_eq_getElem?,
    ← List.eraseIdx_length_sub_one, store.length_lists h key]
  cases htarget : (keyed s.docs key).reverse[(keyed s.docs key).reverse.length - 1]? with
  | some target => exact store.inv_forget h htarget
  | none =>
    rw [List.getElem?_eq_none_iff, ← store.length_lists h key] at htarget
    rw [← store.length_lists h key, List.eraseIdx_of_length_le htarget, Function.update_eq_self]
    exact h

/-! ## Messages remembered -/

/-- No document, and no other of the messages, has the text of a message. -/
def TextsFresh (docs : List (Doc K)) (messages : List (ChatMessage K)) : Prop :=
  (∀ message ∈ messages, ∀ d ∈ docs, store.checksum d.content ≠ store.checksum (stripNul message.text)) ∧
    (messages.map fun message => store.checksum (stripNul message.text)).Nodup

theorem textsFresh_cons {docs : List (Doc K)} {message : ChatMessage K}
    {messages : List (ChatMessage K)} {new : Doc K} (hnew : new.content = stripNul message.text) :
    store.TextsFresh docs (message :: messages) ↔
      (∀ d ∈ docs, store.checksum d.content ≠ store.checksum (stripNul message.text)) ∧
        store.TextsFresh (new :: docs) messages := by
  unfold TextsFresh
  rw [List.forall_mem_cons, List.map_cons, List.nodup_cons, and_assoc]
  refine and_congr_right fun _ => ?_
  rw [← and_assoc]
  refine and_congr_left fun _ => ?_
  constructor
  · rintro ⟨hdocs, hne⟩ m hm d hd
    rcases List.mem_cons.mp hd with rfl | hd
    · rw [hnew]
      exact fun heq => hne (List.mem_map.mpr ⟨m, hm, heq.symm⟩)
    · exact hdocs m hm d hd
  · intro h
    refine ⟨fun m hm d hd => h m hm d (List.mem_cons_of_mem _ hd), ?_⟩
    intro hmem
    obtain ⟨m, hm, heq⟩ := List.mem_map.mp hmem
    exact h m hm new List.mem_cons_self (by rw [hnew]; exact heq.symm)

/-- What is stored of a message. -/
def stamped (key : List Char) (index : ℕ) (message : ChatMessage K) :
    List Char × Option (ChatMetadata K) :=
  (stripNul message.text, store.ingest.stripNulJson (some (chatMessageMetadata key index message)))

def stampedFrom (key : List Char) (index : ℕ) :
    List (ChatMessage K) → List (List Char × Option (ChatMetadata K))
  | [] => []
  | message :: messages => store.stamped key index message :: stampedFrom key (index + 1) messages

/-- What `stamped` gives, read off from a document. -/
def view (d : Doc K) : List Char × Option (ChatMetadata K) := (d.content, d.metadata)

theorem rememberMessage_known [DecidableEq H] {s : Docs K} {key : List Char} {index : ℕ}
    {message : ChatMessage K} (hspoken : strip message.text ≠ [])
    (h : ∃ d ∈ s.docs, store.checksum d.content = store.checksum (stripNul message.text)) :
    store.rememberMessage s key index message = s := by
  unfold rememberMessage rememberedText
  rw [if_neg hspoken]
  exact @NamespaceDocuments.remember_known _ _ _ _ _ store.ingest _ _ _ h

theorem rememberMessage_new [DecidableEq H] {s : Docs K} {key : List Char} {index : ℕ}
    {message : ChatMessage K} (hspoken : strip message.text ≠ [])
    (h : ∀ d ∈ s.docs, store.checksum d.content ≠ store.checksum (stripNul message.text)) :
    ∃ new, view new = store.stamped key index message ∧
      (store.rememberMessage s key index message).docs = new :: s.docs := by
  unfold rememberMessage rememberedText
  rw [if_neg hspoken]
  exact ⟨_, rfl, @NamespaceDocuments.remember_new _ _ _ _ _ store.ingest _ _ _ _ h⟩

/-- **The loop stores every message exactly when every text is fresh.** -/
theorem rememberFrom_spec [DecidableEq H] (key : List Char) {messages : List (ChatMessage K)}
    (hspoken : ∀ message ∈ messages, strip message.text ≠ []) : ∀ (s : Docs K) (index : ℕ),
    ∃ extra : List (Doc K), (store.rememberFrom s key index messages).docs = extra.reverse ++ s.docs ∧
      extra.length ≤ messages.length ∧
      (extra.length = messages.length → store.TextsFresh s.docs messages) ∧
      (store.TextsFresh s.docs messages → extra.map view = store.stampedFrom key index messages) := by
  induction messages with
  | nil =>
    intro s index
    exact ⟨[], rfl, Nat.le_refl _, fun _ => ⟨by simp, List.nodup_nil⟩, fun _ => rfl⟩
  | cons message messages ih =>
    intro s index
    rw [List.forall_mem_cons] at hspoken
    show ∃ extra, (store.rememberFrom (store.rememberMessage s key index message) key (index + 1)
      messages).docs = _ ∧ _
    by_cases hknown : ∃ d ∈ s.docs, store.checksum d.content = store.checksum (stripNul message.text)
    · rw [store.rememberMessage_known hspoken.1 hknown]
      obtain ⟨extra, hdocs, hlength, _⟩ := ih hspoken.2 s (index + 1)
      refine ⟨extra, hdocs, Nat.le_succ_of_le hlength, ?_, ?_⟩
      · intro heq
        rw [List.length_cons] at heq
        omega
      · intro hfresh
        obtain ⟨d, hd, heq⟩ := hknown
        exact absurd heq (hfresh.1 message List.mem_cons_self d hd)
    · have hnew : ∀ d ∈ s.docs, store.checksum d.content ≠ store.checksum (stripNul message.text) :=
        fun d hd heq => hknown ⟨d, hd, heq⟩
      obtain ⟨new, hview, hstored⟩ : ∃ new, view new = store.stamped key index message ∧ _ :=
        store.rememberMessage_new hspoken.1 hnew
      obtain ⟨extra, hdocs, hlength, hall, hviews⟩ := ih hspoken.2
        (store.rememberMessage s key index message) (index + 1)
      have hcons : store.TextsFresh s.docs (message :: messages) ↔ _ ∧ store.TextsFresh (new :: s.docs) messages :=
        store.textsFresh_cons (congrArg Prod.fst hview)
      rw [hstored] at hdocs hall hviews
      refine ⟨new :: extra, ?_, Nat.succ_le_succ hlength, ?_, ?_⟩
      · rw [hdocs, List.reverse_cons, List.append_assoc]
        rfl
      · intro heq
        exact hcons.mpr ⟨hnew, hall (Nat.succ.inj heq)⟩
      · intro hfresh
        rw [List.map_cons, hview, hviews (hcons.mp hfresh).2]
        rfl

/-- No NUL byte is stripped from what is stored of a message. -/
structure Clean (key : List Char) (message : ChatMessage K) : Prop where
  key : '\x00' ∉ key
  text : '\x00' ∉ message.text
  role : '\x00' ∉ message.role
  kwargs : store.stripNulJson message.additionalKwargs = message.additionalKwargs

theorem hasKey_of_view {d : Doc K} {key : List Char} {index : ℕ} {message : ChatMessage K}
    (h : view d = store.stamped key index message) (other : List Char) :
    hasKey other d = decide (stripNul key = other) := by
  have hmeta : d.metadata = _ := congrArg Prod.snd h
  unfold hasKey
  rw [hmeta]
  apply decide_eq_decide.mpr
  exact Option.some_inj

theorem indexOf_of_view {d : Doc K} {key : List Char} {index : ℕ} {message : ChatMessage K}
    (h : view d = store.stamped key index message) : indexOf d = index := by
  have hmeta : d.metadata = _ := congrArg Prod.snd h
  unfold indexOf
  rw [hmeta]
  rfl

theorem documentToMessage_of_view {d : Doc K} {key : List Char} {index : ℕ} {message : ChatMessage K}
    (h : view d = store.stamped key index message) :
    store.documentToMessage d =
      ⟨stripNul message.role, stripNul message.text, store.stripNulJson message.additionalKwargs⟩ := by
  have hmeta : d.metadata = _ := congrArg Prod.snd h
  have hcontent : d.content = stripNul message.text := congrArg Prod.fst h
  unfold documentToMessage
  rw [hmeta, hcontent]
  rfl

/-- A message is read back as it was exactly if no NUL byte is stripped from it. -/
theorem clean_iff {d : Doc K} {key : List Char} {index : ℕ} {message : ChatMessage K}
    (h : view d = store.stamped key index message) :
    store.Clean key message ↔ hasKey key d = true ∧ store.documentToMessage d = message := by
  rw [store.hasKey_of_view h, store.documentToMessage_of_view h, decide_eq_true_eq, stripNul_eq_self_iff,
    ChatMessage.ext_iff, stripNul_eq_self_iff, stripNul_eq_self_iff]
  constructor
  · exact fun hc => ⟨hc.key, hc.role, hc.text, hc.kwargs⟩
  · exact fun hc => ⟨hc.1, hc.2.2.1, hc.2.1, hc.2.2.2⟩

section Extra

variable {extra : List (Doc K)} {key : List Char} {index : ℕ} {messages : List (ChatMessage K)}

theorem indexes_of_views (h : extra.map view = store.stampedFrom key index messages) :
    (∀ d ∈ extra, index ≤ indexOf d) ∧ extra.Pairwise fun a b => indexOf a < indexOf b := by
  induction messages generalizing extra index with
  | nil =>
    rw [List.map_eq_nil_iff.mp h]
    exact ⟨by simp, List.Pairwise.nil⟩
  | cons message messages ih =>
    obtain ⟨d, extra, rfl, hd, hextra⟩ := List.map_eq_cons_iff.mp h
    obtain ⟨hle, hlt⟩ := ih hextra
    have hindex := store.indexOf_of_view hd
    refine ⟨?_, List.pairwise_cons.mpr ⟨?_, hlt⟩⟩
    · rw [List.forall_mem_cons]
      exact ⟨Nat.le_of_eq hindex.symm, fun e he => Nat.le_of_succ_le (hle e he)⟩
    · intro e he
      rw [hindex]
      exact hle e he

/-- The messages are read back exactly if they are clean. -/
theorem clean_messages_iff (h : extra.map view = store.stampedFrom key index messages) :
    (∀ message ∈ messages, store.Clean key message) ↔
      (∀ d ∈ extra, hasKey key d = true) ∧ extra.map store.documentToMessage = messages := by
  induction messages generalizing extra index with
  | nil =>
    rw [List.map_eq_nil_iff.mp h]
    simp
  | cons message messages ih =>
    obtain ⟨d, extra, rfl, hd, hextra⟩ := List.map_eq_cons_iff.mp h
    rw [List.forall_mem_cons, List.forall_mem_cons, List.map_cons, List.cons.injEq, store.clean_iff hd,
      ih hextra]
    exact and_and_and_comm

end Extra

/-- Documents with greater indexes go in front. -/
theorem ordered_append {extra base : List (Doc K)} {index : ℕ}
    (hlt : extra.Pairwise fun a b => indexOf a < indexOf b) (hle : ∀ d ∈ extra, index ≤ indexOf d)
    (hbase : base.Pairwise fun a b => indexOf b < indexOf a) (hindex : ∀ d ∈ base, indexOf d < index) :
    (extra.reverse ++ base).Pairwise fun a b => indexOf b < indexOf a := by
  rw [List.pairwise_append]
  refine ⟨List.pairwise_reverse.mpr hlt, hbase, ?_⟩
  intro a ha b hb
  exact Nat.lt_of_lt_of_le (hindex b hb) (hle a (List.mem_reverse.mp ha))

/-! ## What one call keeps -/

section Steps

variable [DecidableEq H]

/-- **Messages with fresh texts are appended.** -/
theorem inv_rememberFrom {s : Docs K} {lists : List Char → List (ChatMessage K)}
    (h : store.Inv ⟨s, lists⟩) {key : List Char} {index : ℕ}
    (hindex : ∀ d ∈ keyed s key, indexOf d < index) {messages : List (ChatMessage K)}
    (hspoken : ∀ message ∈ messages, strip message.text ≠ [])
    (hclean : ∀ message ∈ messages, store.Clean key message)
    (hfresh : store.TextsFresh s.docs messages) :
    store.Inv ⟨store.rememberFrom s key index messages,
      Function.update lists key (lists key ++ messages)⟩ := by
  obtain ⟨extra, hdocs, _, _, hviews⟩ := store.rememberFrom_spec key hspoken s index
  replace hviews := hviews hfresh
  obtain ⟨hle, hlt⟩ := store.indexes_of_views hviews
  obtain ⟨hkey, hreads⟩ := (store.clean_messages_iff hviews).mp hclean
  have hkeyed : ∀ other, keyed (store.rememberFrom s key index messages) other =
      (extra.filter (hasKey other)).reverse ++ keyed s other := by
    intro other
    unfold keyed
    rw [hdocs, List.filter_append, List.filter_reverse]
  intro other
  show store.Holds (store.rememberFrom s key index messages) other (Function.update lists key _ other)
  by_cases hne : other = key
  · subst hne
    have hself : keyed (store.rememberFrom s other index messages) other = extra.reverse ++ keyed s other := by
      rw [hkeyed, List.filter_eq_self.mpr hkey]
    rw [Function.update_self]
    refine ⟨?_, ?_⟩
    · rw [hself]
      exact ordered_append hlt hle (h other).ordered hindex
    · rw [hself, List.reverse_append, List.reverse_reverse, List.map_append, (h other).reads, hreads]
  · rw [Function.update_of_ne hne]
    apply (h other).of_keyed_eq
    rw [hkeyed, List.filter_eq_nil_iff.mpr]
    · rfl
    · intro d hd hother
      have hboth := (of_decide_eq_true (hkey d hd)).symm.trans (of_decide_eq_true hother)
      exact hne (Option.some.inj hboth).symm

/-- Messages that are all there afterwards were clean and had fresh texts. -/
theorem fresh_of_rememberFrom {s : Docs K} {lists : List Char → List (ChatMessage K)}
    (h : store.Inv ⟨s, lists⟩) {key : List Char} {index : ℕ}
    (hindex : ∀ d ∈ keyed s key, indexOf d < index) {messages : List (ChatMessage K)}
    (hspoken : ∀ message ∈ messages, strip message.text ≠ [])
    (hlisted : (store.rememberFrom s key index messages).docs.length ≤ listLimit)
    (hget : store.getMessages (store.rememberFrom s key index messages) key = lists key ++ messages) :
    (∀ message ∈ messages, store.Clean key message) ∧ store.TextsFresh s.docs messages := by
  obtain ⟨extra, hdocs, hlength, hall, hviews⟩ := store.rememberFrom_spec key hspoken s index
  have hkeyed : keyed (store.rememberFrom s key index messages) key =
      (extra.filter (hasKey key)).reverse ++ keyed s key := by
    unfold keyed
    rw [hdocs, List.filter_append, List.filter_reverse]
  have hcount : (extra.filter (hasKey key)).length = messages.length := by
    have hlengths := congrArg List.length hget
    unfold getMessages listForKey at hlengths
    rw [List.length_map, SortBy.length_sortBy, listDocuments_eq hlisted] at hlengths
    change (keyed _ key).length = _ at hlengths
    have hbase : (lists key).length = (keyed s key).length := by
      rw [store.length_lists h key, List.length_reverse]
    rw [hkeyed, List.length_append, List.length_append, List.length_reverse, hbase] at hlengths
    omega
  have hfilter : (extra.filter (hasKey key)).length = extra.length :=
    Nat.le_antisymm (List.length_filter_le _ _) (hcount ▸ hlength)
  have hfresh := hall (hfilter.symm.trans hcount)
  replace hviews := hviews hfresh
  have hkey : ∀ d ∈ extra, hasKey key d = true := List.length_filter_eq_length_iff.mp hfilter
  rw [List.filter_eq_self.mpr hkey] at hkeyed
  obtain ⟨hle, hlt⟩ := store.indexes_of_views hviews
  refine ⟨(store.clean_messages_iff hviews).mpr ⟨hkey, ?_⟩, hfresh⟩
  have hordered : (keyed (store.rememberFrom s key index messages) key).Pairwise
      fun a b => indexOf b < indexOf a := by
    rw [hkeyed]
    exact ordered_append hlt hle (h key).ordered hindex
  unfold getMessages at hget
  rw [listForKey_eq hlisted hordered, hkeyed, List.reverse_append, List.reverse_reverse, List.map_append,
    (h key).reads] at hget
  exact List.append_cancel_left hget

/-- The condition on a call: what it stores holds no NUL byte, and no text that is stored under
another key, that it stores already, or, when a message is added, that is stored at all. -/
def Meets (s : State K) : Call K → Prop
  | .setMessages key messages => (∀ message ∈ messages, store.Clean key message) ∧
      store.TextsFresh (s.docs.docs.filter fun d => !hasKey key d) messages
  | .addMessage key message => store.Clean key message ∧
      ∀ d ∈ s.docs.docs, store.checksum d.content ≠ store.checksum (stripNul message.text)
  | .deleteMessage _ _ | .deleteLastMessage _ | .deleteMessages _ => True

omit [DecidableEq H] in
theorem docs_deleteMessages {s : Docs K} (hlisted : s.docs.length ≤ listLimit) (key : List Char) :
    (deleteMessages s key).docs = s.docs.filter fun d => !hasKey key d := by
  unfold deleteMessages
  rw [docs_forgetAll]
  apply List.filter_congr
  intro d hd
  rw [Bool.eq_iff_iff, decide_eq_true_eq, Bool.not_eq_true', Bool.eq_false_iff, ne_eq, not_iff_not]
  constructor
  · intro hmem
    obtain ⟨d', hd', hid⟩ := List.mem_map.mp hmem
    unfold listForKey at hd'
    rw [SortBy.mem_sortBy, listDocuments_eq hlisted, List.mem_filter] at hd'
    rw [← s.eq_of_id_eq hd'.1 hd hid]
    exact hd'.2
  · intro hkey
    apply List.mem_map_of_mem
    unfold listForKey
    rw [SortBy.mem_sortBy, listDocuments_eq hlisted, List.mem_filter]
    exact ⟨hd, hkey⟩

omit [DecidableEq H] in
theorem lt_nextIndex {s : State K} (hlisted : Listed s) (h : store.Inv s) (key : List Char) :
    ∀ d ∈ keyed s.docs key, indexOf d < nextIndex s.docs key := by
  intro d hd
  unfold nextIndex
  rw [listForKey_eq hlisted (h key).ordered, List.getLast?_reverse]
  have hordered := (h key).ordered
  generalize keyed s.docs key = l at hd hordered
  cases l with
  | nil => cases hd
  | cons e l =>
    show indexOf d < indexOf e + 1
    rw [List.pairwise_cons] at hordered
    rcases List.mem_cons.mp hd with rfl | hd
    · exact Nat.lt_succ_self _
    · exact Nat.lt_succ_of_lt (hordered.1 d hd)

omit [DecidableEq H] in
theorem keyed_deleteMessages {s : State K} (hlisted : Listed s) (key : List Char) :
    keyed (deleteMessages s.docs key) key = [] := by
  unfold keyed
  rw [docs_deleteMessages hlisted, List.filter_filter, List.filter_eq_nil_iff]
  intro d _
  rw [Bool.and_not_self]
  exact Bool.false_ne_true

omit [DecidableEq H] in
theorem textsFresh_singleton {docs : List (Doc K)} {message : ChatMessage K} :
    store.TextsFresh docs [message] ↔
      ∀ d ∈ docs, store.checksum d.content ≠ store.checksum (stripNul message.text) := by
  unfold TextsFresh
  rw [List.forall_mem_singleton, List.map_singleton]
  exact and_iff_left (List.nodup_singleton _)

/-- A call that meets the condition keeps the invariant. -/
theorem inv_step {s : State K} {call : Call K} (hspoken : call.Spoken) (hlisted : Listed s)
    (h : store.Inv s) (hmeets : store.Meets s call) : store.Inv (store.step s call) := by
  cases call with
  | deleteMessage key idx => exact store.inv_deleteMessage hlisted h key idx
  | deleteLastMessage key => exact store.inv_deleteLastMessage hlisted h key
  | deleteMessages key => exact store.inv_deleteMessages hlisted h key
  | addMessage key message =>
    show store.Inv ⟨store.rememberFrom s.docs key _ [message], _⟩
    apply store.inv_rememberFrom h (store.lt_nextIndex hlisted h key)
    · rw [List.forall_mem_singleton]
      exact hspoken
    · rw [List.forall_mem_singleton]
      exact hmeets.1
    · exact store.textsFresh_singleton.mpr hmeets.2
  | setMessages key messages =>
    have hcleared := store.inv_deleteMessages hlisted h key
    have hnone : ∀ d ∈ keyed (deleteMessages s.docs key) key, indexOf d < 0 := by
      rw [keyed_deleteMessages hlisted]
      exact fun d hd => absurd hd List.not_mem_nil
    have hstored := store.inv_rememberFrom hcleared hnone hspoken hmeets.1 ?_
    · rw [Function.update_self, List.nil_append, Function.update_idem] at hstored
      exact hstored
    · rw [docs_deleteMessages hlisted]
      exact hmeets.2

/-- A call after which the store answers as the dictionary has met the condition. -/
theorem meets_of_answers {s : State K} {call : Call K} (hspoken : call.Spoken) (hlisted : Listed s)
    (hlisted' : Listed (store.step s call)) (h : store.Inv s)
    (hanswers : store.Answers (store.step s call)) : store.Meets s call := by
  cases call with
  | deleteMessage _ _ | deleteLastMessage _ | deleteMessages _ => trivial
  | addMessage key message =>
    have hget := hanswers.messages key
    change _ = Function.update s.lists key _ key at hget
    rw [Function.update_self] at hget
    have hone : ∀ m ∈ [message], strip m.text ≠ [] := by
      rw [List.forall_mem_singleton]
      exact hspoken
    have hall := store.fresh_of_rememberFrom h (store.lt_nextIndex hlisted h key) hone hlisted' hget
    exact ⟨hall.1 message (List.mem_singleton_self _), store.textsFresh_singleton.mp hall.2⟩
  | setMessages key messages =>
    have hcleared := store.inv_deleteMessages hlisted h key
    have hget := hanswers.messages key
    change _ = Function.update s.lists key _ key at hget
    rw [Function.update_self] at hget
    have hnone : ∀ d ∈ keyed (deleteMessages s.docs key) key, indexOf d < 0 := by
      rw [keyed_deleteMessages hlisted]
      exact fun d hd => absurd hd List.not_mem_nil
    have hall := store.fresh_of_rememberFrom hcleared hnone hspoken hlisted' ?_
    · rw [docs_deleteMessages hlisted] at hall
      exact hall
    · rw [Function.update_self, List.nil_append]
      exact hget

/-- **The store is a dictionary of lists exactly in the runs that never store a text twice.** -/
theorem refines_iff {foreign : Docs K} (hforeign : ∀ d ∈ foreign.docs, d.metadata = none)
    {calls : List (Call K)} (hspoken : ∀ call ∈ calls, call.Spoken)
    (hlisted : Listed (⟨foreign, fun _ => []⟩ : State K))
    (hall : Runs.Always store.step Listed ⟨foreign, fun _ => []⟩ calls) :
    Runs.Always store.step store.Answers ⟨foreign, fun _ => []⟩ calls ↔
      Runs.Guarded store.step store.Meets ⟨foreign, fun _ => []⟩ calls := by
  have hinv : store.Inv ⟨foreign, fun _ => []⟩ := by
    intro key
    have hnone : keyed foreign key = [] := by
      unfold keyed
      rw [List.filter_eq_nil_iff]
      intro d hd
      unfold hasKey
      rw [hforeign d hd]
      simp
    refine ⟨?_, ?_⟩
    · rw [hnone]
      exact List.Pairwise.nil
    · rw [hnone]
      rfl
  apply Runs.always_iff_guarded_within ?_ ?_ ?_ hspoken hlisted hall hinv
  · exact fun s call ha hs h hmeets => store.inv_step ha hs h hmeets
  · exact fun s hs h => h.answers store hs
  · exact fun s call ha hs hs' h hnot hgood => hnot (store.meets_of_answers ha hs hs' h hgood)

end Steps

end ChatStore

/-! ## A repeated text -/

/-- A store of messages without further arguments. -/
def plainChatStore : ChatStore Unit (List Char) where
  checksum := id
  stripNulJson := id
  noKwargs := ()

def noMessages : ChatStore.State Unit := ⟨.empty, fun _ => []⟩

def userMessage (text : String) : ChatMessage Unit := ⟨"user".toList, text.toList, ()⟩

/-- The same answer twice in one conversation, and in another one. -/
def repeatedText : ChatStore.State Unit :=
  Runs.run plainChatStore.step noMessages
    [.setMessages "a".toList [userMessage "yes", userMessage "yes"],
      .addMessage "b".toList (userMessage "yes")]

theorem repeated_text_lost :
    (plainChatStore.getMessages repeatedText.docs "a".toList = [userMessage "yes"] ∧
      repeatedText.lists "a".toList = [userMessage "yes", userMessage "yes"]) ∧
    plainChatStore.getMessages repeatedText.docs "b".toList = [] ∧
      repeatedText.lists "b".toList = [userMessage "yes"] := by
  decide

/-- A conversation in which no text is repeated. -/
def spokenOnce : List (ChatStore.Call Unit) :=
  [.setMessages "a".toList [userMessage "hello", userMessage "yes"], .deleteLastMessage "a".toList,
    .addMessage "b".toList (userMessage "yes")]

theorem spokenOnce_refines :
    Runs.Always plainChatStore.step plainChatStore.Answers noMessages spokenOnce := by
  have hforeign : ∀ d ∈ noMessages.docs.docs, d.metadata = none := fun d hd => absurd hd List.not_mem_nil
  have hspoken : ∀ call ∈ spokenOnce, call.Spoken := by
    intro call hcall
    rcases List.mem_cons.mp hcall with rfl | hcall
    · show ∀ message ∈ _, _
      decide
    · rcases List.mem_cons.mp hcall with rfl | hcall
      · trivial
      · rw [List.mem_singleton.mp hcall]
        show strip _ ≠ []
        decide
  have hlisted : Runs.Always plainChatStore.step ChatStore.Listed noMessages spokenOnce :=
    ⟨by decide, by decide, by decide, trivial⟩
  apply (plainChatStore.refines_iff hforeign hspoken (by decide) hlisted).mpr
  refine ⟨⟨?_, ?_⟩, trivial, ⟨⟨by decide, by decide, by decide, rfl⟩, ?_⟩, trivial⟩
  · rw [List.forall_mem_cons, List.forall_mem_singleton]
    exact ⟨⟨by decide, by decide, by decide, rfl⟩, ⟨by decide, by decide, by decide, rfl⟩⟩
  · exact ⟨by decide, by decide⟩
  · decide

end Khora
