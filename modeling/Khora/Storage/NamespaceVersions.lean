import Khora.Lib.Runs
import Khora.Lib.Slots

/-!
# Namespace versions

`create_namespace_version` deactivates the previous version in one transaction and inserts the
new one in a second.  Any number of clients call it for one stable id, each with a version it
has read, and every call may fail at every point.

* `one_active` — in every run in which a call that has deactivated the active version is not
  cut off, and nobody else inserts before it does, there is exactly one active version whenever
  no call is under way, and a call that raised has deactivated nothing.
* `stranded` — a call that fails between its transactions leaves no active version.
-/

namespace Khora

/-! ## The table -/

/-- A row of `memory_namespaces` for the one stable id.  Its `id` is its place in the table. -/
structure NamespaceRow where
  version : ℕ
  isActive : Bool
deriving DecidableEq, Repr

/-- The partial unique index on active rows and the unique version refuse a second row. -/
def insertNamespace (rows : List NamespaceRow) (r : NamespaceRow) : Option (List NamespaceRow) :=
  if (r.isActive = true ∧ ∃ x ∈ rows, x.isActive = true) ∨ (∃ x ∈ rows, x.version = r.version) then none
  else some (rows ++ [r])

/-- `deactivate_namespace` -/
def deactivateNamespace (rows : List NamespaceRow) (id : ℕ) : List NamespaceRow :=
  rows.modify id fun r => { r with isActive := false }

/-- The ids of the active rows. -/
def activeIds (rows : List NamespaceRow) : List ℕ :=
  (rows.zipIdx.filter fun r => r.1.isActive).map Prod.snd

/-- `resolve_namespace`: the id of the active row; more than one, or none, raises. -/
def resolveNamespace (rows : List NamespaceRow) : Option ℕ :=
  match activeIds rows with
  | [id] => some id
  | _ => none

/-! ## Calls -/

/-- A call under way: the version it supersedes, whether its first transaction is over, and
whether that found the version active. -/
structure VersionCall where
  previous : ℕ
  version : ℕ
  first : Bool
  deactivated : Bool
deriving DecidableEq, Repr

/-- A call that has ended. -/
structure EndedCall where
  raised : Bool
  deactivated : Bool
  created : Bool
deriving DecidableEq, Repr

structure NamespaceTable where
  rows : List NamespaceRow
  calls : List VersionCall := []
  ended : List EndedCall := []
deriving DecidableEq, Repr

/-- How a transaction ends. -/
inductive TxEnd where
  | committed
  /-- it raises, and nothing is stored -/
  | aborted
  /-- it raises although it was committed -/
  | lost
deriving DecidableEq, Repr

inductive VersionAction where
  /-- `create_namespace_version(previous_version=...)`, with a row of the table -/
  | call (previous : ℕ)
  | deactivate (call : ℕ) (e : TxEnd)
  | insert (call : ℕ) (e : TxEnd)
deriving DecidableEq, Repr

namespace NamespaceTable

/-- The row is there and active. -/
def activeAt (rows : List NamespaceRow) (id : ℕ) : Bool := rows[id]?.elim false NamespaceRow.isActive

/-- A call ends. -/
def finish (t : NamespaceTable) (n : ℕ) (rows : List NamespaceRow) (e : EndedCall) : NamespaceTable :=
  { rows := rows, calls := t.calls.eraseIdx n, ended := e :: t.ended }

/-- The first transaction. -/
def deactivate (t : NamespaceTable) (n : ℕ) (c : VersionCall) : TxEnd → NamespaceTable
  | .committed => { t with
      rows := deactivateNamespace t.rows c.previous
      calls := t.calls.set n { c with first := true, deactivated := activeAt t.rows c.previous } }
  | .aborted => t.finish n t.rows ⟨true, false, false⟩
  | .lost => t.finish n (deactivateNamespace t.rows c.previous) ⟨true, activeAt t.rows c.previous, false⟩

/-- The second transaction, which a constraint may refuse. -/
def insert (t : NamespaceTable) (n : ℕ) (c : VersionCall) (e : TxEnd) : NamespaceTable :=
  match e, insertNamespace t.rows ⟨c.version + 1, true⟩ with
  | .committed, some rows => t.finish n rows ⟨false, c.deactivated, true⟩
  | .lost, some rows => t.finish n rows ⟨true, c.deactivated, true⟩
  | _, _ => t.finish n t.rows ⟨true, c.deactivated, false⟩

def step (t : NamespaceTable) : VersionAction → NamespaceTable
  | .call previous =>
      match t.rows[previous]? with
      | none => t
      | some r => { t with calls := t.calls ++ [⟨previous, r.version, false, false⟩] }
  | .deactivate n e =>
      match t.calls[n]? with
      | none => t
      | some c => if c.first then t else t.deactivate n c e
  | .insert n e =>
      match t.calls[n]? with
      | none => t
      | some c => if c.first then t.insert n c e else t

/-- A call that deactivates the active version goes on to insert, and no one inserts before it
does. -/
def Unbroken (t : NamespaceTable) : VersionAction → Prop
  | .call _ => True
  | .deactivate n e => e = .lost → ∀ c, t.calls[n]? = some c → c.first = false →
      activeAt t.rows c.previous = false
  | .insert n e => ∀ c, t.calls[n]? = some c → c.first = true →
      (c.deactivated = true → e = .committed) ∧
        (c.deactivated = false → ∃ r ∈ t.rows, r.isActive = true)

/-! ## One active version -/

/-- The calls that have deactivated the active version and are still to insert the next. -/
def holders (calls : List VersionCall) : List VersionCall := calls.filter VersionCall.deactivated

def active (rows : List NamespaceRow) : List NamespaceRow := rows.filter NamespaceRow.isActive

/-- One version is active and is the newest, or none is and one call is to insert the next. -/
def Settled (t : NamespaceTable) : Prop :=
  (∃ r, active t.rows = [r] ∧ (∀ x ∈ t.rows, x.version ≤ r.version) ∧ holders t.calls = []) ∨
    (active t.rows = [] ∧ ∃ c, holders t.calls = [c] ∧ ∀ x ∈ t.rows, x.version ≤ c.version)

structure Versioned (t : NamespaceTable) : Prop where
  settled : t.Settled
  named : ∀ c ∈ t.calls, ∃ r, t.rows[c.previous]? = some r ∧ r.version = c.version
  unheld : ∀ c ∈ t.calls, c.first = false → c.deactivated = false
  ended : ∀ e ∈ t.ended, e.raised = true → e.deactivated = false ∧ e.created = false

section Rows

variable {rows : List NamespaceRow} {id : ℕ} {r : NamespaceRow}

/-- A row that is not active is not changed. -/
theorem deactivateNamespace_inactive (h : activeAt rows id = false) : deactivateNamespace rows id = rows := by
  cases hr : rows[id]? with
  | none => exact List.modify_eq_self (List.getElem?_eq_none_iff.mp hr)
  | some r =>
      have hinactive : r.isActive = false := by
        rw [activeAt, hr] at h
        exact h
      obtain ⟨p, q, hsplit, -, hmodify, -⟩ := Slots.split hr
      rw [deactivateNamespace, hmodify, hsplit, ← hinactive]

/-- The only active row is deactivated. -/
theorem active_deactivateNamespace (h : activeAt rows id = true) (hone : active rows = [r]) :
    active (deactivateNamespace rows id) = [] ∧ rows[id]? = some r := by
  cases hr : rows[id]? with
  | none =>
      rw [activeAt, hr] at h
      cases h
  | some r' =>
      have hactive : r'.isActive = true := by
        rw [activeAt, hr] at h
        exact h
      obtain ⟨rfl, -, hset⟩ := Slots.filter_of_pos hr hactive hone
      rw [deactivateNamespace, Slots.modify_eq_set hr]
      exact ⟨hset _ rfl, rfl⟩

/-- Versions are not changed. -/
theorem version_deactivateNamespace (rows : List NamespaceRow) (id j : ℕ) :
    (deactivateNamespace rows id)[j]?.map NamespaceRow.version = rows[j]?.map NamespaceRow.version := by
  rw [deactivateNamespace, List.getElem?_modify]
  cases rows[j]? with
  | none => rfl
  | some r =>
      show some (NamespaceRow.version (if id = j then _ else r)) = some r.version
      split
      · rfl
      · rfl

theorem mem_deactivateNamespace {x : NamespaceRow} (h : x ∈ deactivateNamespace rows id) :
    ∃ y ∈ rows, y.version = x.version := by
  obtain ⟨j, hj⟩ := List.getElem?_of_mem h
  have hver := version_deactivateNamespace rows id j
  rw [hj] at hver
  obtain ⟨y, hy, heq⟩ := Option.map_eq_some_iff.mp hver.symm
  exact ⟨y, List.mem_of_getElem? hy, heq⟩

theorem active_eq_nil : active rows = [] ↔ ∀ x ∈ rows, x.isActive = false := by
  rw [active, List.filter_eq_nil_iff]
  exact forall₂_congr fun x _ => iff_of_eq (Bool.not_eq_true _)

theorem activeAt_of_nil (h : active rows = []) (id : ℕ) : activeAt rows id = false := by
  unfold activeAt
  cases hr : rows[id]? with
  | none => rfl
  | some r => exact active_eq_nil.mp h r (List.mem_of_getElem? hr)

/-- With an active version no further one is inserted. -/
theorem insertNamespace_refused {x : NamespaceRow} (hx : x ∈ rows) (hactive : x.isActive = true)
    (version : ℕ) : insertNamespace rows ⟨version, true⟩ = none :=
  if_pos (.inl ⟨rfl, x, hx, hactive⟩)

/-- Without one, the next version is. -/
theorem insertNamespace_next {version : ℕ} (h : active rows = []) (hle : ∀ x ∈ rows, x.version ≤ version) :
    insertNamespace rows ⟨version + 1, true⟩ = some (rows ++ [⟨version + 1, true⟩]) := by
  refine if_neg ?_
  rintro (⟨-, x, hx, hactive⟩ | ⟨x, hx, heq⟩)
  · rw [active_eq_nil.mp h x hx] at hactive
    cases hactive
  · have hver : x.version = version + 1 := heq
    have := hle x hx
    omega

end Rows

section Step

variable {t : NamespaceTable} {n : ℕ} {c : VersionCall}

/-- A call that holds nothing ends without having stored anything. -/
theorem Versioned.finish (h : t.Versioned) (hn : t.calls[n]? = some c) (hc : c.deactivated = false) :
    (t.finish n t.rows ⟨true, c.deactivated, false⟩).Versioned := by
  obtain ⟨herase, -⟩ := Slots.filter_of_neg hn hc
  refine ⟨?_, ?_, ?_, ?_⟩
  · unfold Settled holders at *
    rw [NamespaceTable.finish, herase]
    exact h.settled
  · exact fun c' hc' => h.named c' (List.mem_of_mem_eraseIdx hc')
  · exact fun c' hc' => h.unheld c' (List.mem_of_mem_eraseIdx hc')
  · exact List.forall_mem_cons.mpr ⟨fun _ => ⟨hc, rfl⟩, h.ended⟩

theorem Versioned.deactivate (h : t.Versioned) (hn : t.calls[n]? = some c) (hfirst : c.first = false) :
    (t.deactivate n c .committed).Versioned := by
  have hmem : c ∈ t.calls := List.mem_of_getElem? hn
  have hfree := h.unheld c hmem hfirst
  have hnamed : ∀ c' : VersionCall, c'.previous = c.previous → c'.version = c.version →
      ∀ c'' ∈ t.calls.set n c', ∃ r, t.rows[c''.previous]? = some r ∧ r.version = c''.version := by
    intro c' hprev hver c'' hc''
    rcases List.mem_or_eq_of_mem_set hc'' with hc'' | rfl
    · exact h.named c'' hc''
    · rw [hprev, hver]
      exact h.named c hmem
  cases hact : activeAt t.rows c.previous with
  | false =>
      -- the version was superseded already
      unfold NamespaceTable.deactivate
      dsimp only
      rw [deactivateNamespace_inactive hact, hact]
      obtain ⟨-, hset⟩ := Slots.filter_of_neg hn hfree
      refine ⟨?_, hnamed _ rfl rfl, ?_, h.ended⟩
      · unfold Settled holders at *
        dsimp only
        rw [hset _ rfl]
        exact h.settled
      · intro c' hc'
        rcases List.mem_or_eq_of_mem_set hc' with hc' | rfl
        · exact h.unheld c' hc'
        · exact fun _ => rfl
  | true =>
      rcases h.settled with ⟨r, hactive, hle, hnone⟩ | ⟨hactive, -⟩
      · obtain ⟨hempty, hrow⟩ := active_deactivateNamespace hact hactive
        unfold NamespaceTable.deactivate
        dsimp only
        rw [hact]
        refine ⟨.inr ⟨hempty, _, Slots.filter_set_pos hn hnone rfl, ?_⟩, ?_, ?_, h.ended⟩
        · intro x hx
          obtain ⟨y, hy, hver⟩ := mem_deactivateNamespace hx
          obtain ⟨r', hr', hver'⟩ := h.named c hmem
          rw [hrow] at hr'
          cases hr'
          show x.version ≤ c.version
          rw [← hver, ← hver']
          exact hle y hy
        · intro c' hc'
          obtain ⟨r', hr', hver'⟩ := hnamed { c with first := true, deactivated := true } rfl rfl c' hc'
          have hsame := version_deactivateNamespace t.rows c.previous c'.previous
          rw [hr'] at hsame
          obtain ⟨r'', hr'', heq⟩ := Option.map_eq_some_iff.mp hsame
          exact ⟨r'', hr'', heq.trans hver'⟩
        · intro c' hc'
          rcases List.mem_or_eq_of_mem_set hc' with hc' | rfl
          · exact h.unheld c' hc'
          · exact fun hf => by cases hf
      · rw [activeAt_of_nil hactive] at hact
        cases hact

/-- The holder inserts the next version. -/
theorem Versioned.insert_holder (h : t.Versioned) (hn : t.calls[n]? = some c) (hc : c.deactivated = true) :
    (t.insert n c .committed).Versioned := by
  have hmem : c ∈ holders t.calls := List.mem_filter.mpr ⟨List.mem_of_getElem? hn, hc⟩
  rcases h.settled with ⟨r, -, -, hnone⟩ | ⟨hactive, c', hone, hle⟩
  · rw [hnone] at hmem
    cases hmem
  · obtain ⟨rfl, herase, -⟩ := Slots.filter_of_pos hn hc hone
    unfold NamespaceTable.insert
    rw [insertNamespace_next hactive hle]
    refine ⟨.inl ⟨⟨c'.version + 1, true⟩, ?_, ?_, herase⟩, ?_, ?_, ?_⟩
    · show active (t.rows ++ _) = _
      rw [active, List.filter_append]
      rw [active] at hactive
      rw [hactive]
      rfl
    · intro x hx
      rcases List.mem_append.mp hx with hx | hx
      · exact Nat.le_succ_of_le (hle x hx)
      · apply Nat.le_of_eq
        rw [List.mem_singleton.mp hx]
    · intro c'' hc''
      obtain ⟨r, hr, hver⟩ := h.named c'' (List.mem_of_mem_eraseIdx hc'')
      refine ⟨r, ?_, hver⟩
      show (t.rows ++ _)[c''.previous]? = some r
      rw [List.getElem?_append_left (List.getElem?_eq_some_iff.mp hr).1]
      exact hr
    · exact fun c'' hc'' => h.unheld c'' (List.mem_of_mem_eraseIdx hc'')
    · refine List.forall_mem_cons.mpr ⟨fun hraised => ?_, h.ended⟩
      cases hraised

/-- Another call is refused. -/
theorem insert_refused {e : TxEnd} (hx : ∃ r ∈ t.rows, r.isActive = true) :
    t.insert n c e = t.finish n t.rows ⟨true, c.deactivated, false⟩ := by
  obtain ⟨r, hr, hactive⟩ := hx
  unfold NamespaceTable.insert
  rw [insertNamespace_refused hr hactive]
  cases e with
  | committed => rfl
  | aborted => rfl
  | lost => rfl

theorem Versioned.call (h : t.Versioned) (previous : ℕ) : (t.step (.call previous)).Versioned := by
  rw [NamespaceTable.step]
  cases hr : t.rows[previous]? with
  | none => exact h
  | some r =>
      refine ⟨?_, ?_, ?_, h.ended⟩
      · have hsame : holders (t.calls ++ [⟨previous, r.version, false, false⟩]) = holders t.calls := by
          rw [holders, List.filter_append]
          exact List.append_nil _
        unfold Settled
        dsimp only
        rw [hsame]
        exact h.settled
      · intro c hc
        rcases List.mem_append.mp hc with hc | hc
        · exact h.named c hc
        · rw [List.mem_singleton.mp hc]
          exact ⟨r, hr, rfl⟩
      · intro c hc
        rcases List.mem_append.mp hc with hc | hc
        · exact h.unheld c hc
        · rw [List.mem_singleton.mp hc]
          exact fun _ => rfl

/-- **Every unbroken step keeps one active version, or the call that is to create it.** -/
theorem Versioned.step (h : t.Versioned) (a : VersionAction) (ha : t.Unbroken a) : (t.step a).Versioned := by
  cases a with
  | call previous => exact h.call previous
  | deactivate n e =>
      rw [NamespaceTable.step]
      cases hn : t.calls[n]? with
      | none => exact h
      | some c =>
          show (if c.first then t else t.deactivate n c e).Versioned
          split
          · exact h
          next hfirst =>
            have hfirst : c.first = false := Bool.not_eq_true _ ▸ hfirst
            have hfree := h.unheld c (List.mem_of_getElem? hn) hfirst
            have hend := h.finish hn hfree
            rw [hfree] at hend
            cases e with
            | committed => exact h.deactivate hn hfirst
            | aborted => exact hend
            | lost =>
                have hinactive := ha rfl c hn hfirst
                unfold NamespaceTable.deactivate
                rw [deactivateNamespace_inactive hinactive, hinactive]
                exact hend
  | insert n e =>
      rw [NamespaceTable.step]
      cases hn : t.calls[n]? with
      | none => exact h
      | some c =>
          show (if c.first then t.insert n c e else t).Versioned
          split
          next hfirst =>
            obtain ⟨hheld, hfree⟩ := ha c hn hfirst
            cases hc : c.deactivated with
            | true =>
                rw [hheld hc]
                exact h.insert_holder hn hc
            | false =>
                rw [insert_refused (hfree hc)]
                exact h.finish hn hc
          next => exact h

end Step

/-- The table after the stable id was created. -/
def created : NamespaceTable := { rows := [⟨1, true⟩] }

theorem versioned_created : created.Versioned := by
  refine ⟨.inl ⟨⟨1, true⟩, rfl, ?_, rfl⟩, List.forall_mem_nil _, List.forall_mem_nil _, List.forall_mem_nil _⟩
  intro x hx
  apply Nat.le_of_eq
  rw [List.mem_singleton.mp hx]

end NamespaceTable

theorem length_activeIds (rows : List NamespaceRow) :
    (activeIds rows).length = (NamespaceTable.active rows).length := by
  have hmap : NamespaceTable.active rows = (rows.zipIdx.filter fun r => r.1.isActive).map Prod.fst := by
    rw [NamespaceTable.active]
    conv_lhs => rw [← List.zipIdx_map_fst 0 rows]
    rw [List.filter_map]
    rfl
  rw [activeIds, hmap, List.length_map, List.length_map]

/-- **Whenever no call is under way there is exactly one active version**, which
`resolve_namespace` finds, and no call that raised has changed which one it is. -/
theorem one_active (acts : List VersionAction)
    (h : Runs.Guarded NamespaceTable.step NamespaceTable.Unbroken .created acts) :
    let t := Runs.run NamespaceTable.step .created acts
    (t.calls = [] → (activeIds t.rows).length = 1 ∧ (resolveNamespace t.rows).isSome = true) ∧
      ∀ e ∈ t.ended, e.raised = true → e.deactivated = false ∧ e.created = false := by
  intro t
  have ht : t.Versioned :=
    Runs.run_invariant (fun t a ht ha => ht.step a ha) NamespaceTable.versioned_created h
  refine ⟨fun hcalls => ?_, ht.ended⟩
  rcases ht.settled with ⟨r, hactive, -, -⟩ | ⟨-, c, hone, -⟩
  · have hlen : (activeIds t.rows).length = 1 := by
      rw [length_activeIds, hactive]
      rfl
    refine ⟨hlen, ?_⟩
    obtain ⟨id, hid⟩ := List.length_eq_one_iff.mp hlen
    rw [resolveNamespace, hid]
    rfl
  · rw [hcalls] at hone
    cases hone

/-- Two clients supersede version 1; the one that comes second is refused. -/
def twoClients : List VersionAction :=
  [.call 0, .call 0, .deactivate 0 .committed, .deactivate 1 .committed, .insert 0 .committed, .insert 0 .committed]

theorem one_active_twoClients :
    Runs.Guarded NamespaceTable.step NamespaceTable.Unbroken .created twoClients ∧
      (Runs.run NamespaceTable.step .created twoClients).rows = [⟨1, false⟩, ⟨2, true⟩] ∧
      (resolveNamespace (Runs.run NamespaceTable.step .created twoClients).rows).isSome = true := by
  have hguard : Runs.Guarded NamespaceTable.step NamespaceTable.Unbroken .created twoClients := by
    refine ⟨trivial, trivial, ?_, ?_, ?_, ?_, trivial⟩
    · exact fun h => by cases h
    · exact fun h => by cases h
    · intro c hc _
      cases hc
      exact ⟨fun _ => rfl, fun h => by cases h⟩
    · intro c hc _
      cases hc
      exact ⟨fun _ => rfl, fun _ => ⟨⟨2, true⟩, by decide, rfl⟩⟩
  exact ⟨hguard, by decide, ((one_active twoClients hguard).1 (by decide)).2⟩

/-- The first transaction is committed and the second is not. -/
def failsBetween : List VersionAction := [.call 0, .deactivate 0 .committed, .insert 0 .aborted]

/-- **A call that fails between its transactions leaves no active version**, and it has
changed which one is active. -/
theorem stranded :
    ¬(((Runs.run NamespaceTable.step .created failsBetween).calls = [] →
      (activeIds (Runs.run NamespaceTable.step .created failsBetween).rows).length = 1 ∧
        (resolveNamespace (Runs.run NamespaceTable.step .created failsBetween).rows).isSome = true) ∧
      ∀ e ∈ (Runs.run NamespaceTable.step .created failsBetween).ended,
        e.raised = true → e.deactivated = false ∧ e.created = false) := by
  rintro ⟨hone, -⟩
  have := (hone (by decide)).1
  revert this
  decide

end Khora
