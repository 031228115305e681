import Khora.Lib.Runs
import Khora.Lib.Table
import Mathlib.Data.List.Perm.Subperm

/-!
# Forgetting what was extracted from a document

`cascade_forget_extraction` lists the entities and relationships of the primary store, deletes
those that list no other document and strips the document from the others, first in the
primary store and then in the mirror.  It may fail at every call and is then called again.

* `forget_exact` — if every call is shown the records that list its document and none fails between
  the two stores, and no relationship outlives an endpoint, then after every document has been forgotten
  once both stores hold the records that never listed one of them or list another, without the forgotten
  ids; the order of the documents does not matter.
* `mirror_left_behind` — a call that fails between the two stores.
-/

namespace Khora

/-! ## Stores -/

/-- An entity, which has no endpoints, or a relationship between two entities, with its
`source_document_ids` and the time from which the listings hide it: `valid_until`, or 0 for a tombstone. -/
structure Extracted (I D : Type) where
  id : I
  endpoints : List I
  sources : List D
  validUntil : Option ℕ
deriving DecidableEq, Repr

/-- `_entity_live_filter`, `_relationship_live_filter` -/
def Extracted.live {I D : Type} (now : ℕ) (x : Extracted I D) : Bool := x.validUntil.all fun t => decide (now < t)

structure ExtractionStore (I D : Type) where
  entities : List (Extracted I D)
  relationships : List (Extracted I D)
deriving DecidableEq, Repr

section Primitives

variable {I D : Type} [DecidableEq I] [DecidableEq D]

/-- `document_id in sources and len(sources) == 1` -/
def isOrphan (d : D) (x : Extracted I D) : Bool := decide (d ∈ x.sources ∧ x.sources.length = 1)

/-- `document_id in sources and len(sources) > 1` -/
def isSurvivor (d : D) (x : Extracted I D) : Bool := decide (d ∈ x.sources ∧ 1 < x.sources.length)

omit [DecidableEq I] in
theorem mem_of_isOrphan {d : D} {x : Extracted I D} (h : isOrphan d x = true) : d ∈ x.sources :=
  (of_decide_eq_true h).1

omit [DecidableEq I] in
theorem mem_of_isSurvivor {d : D} {x : Extracted I D} (h : isSurvivor d x = true) : d ∈ x.sources :=
  (of_decide_eq_true h).1

/-- The record without the document in its list. -/
def Extracted.strip (d : D) (x : Extracted I D) : Extracted I D :=
  { x with sources := x.sources.filter fun s => s ≠ d }

def deleteIds (ids : List I) (l : List (Extracted I D)) : List (Extracted I D) :=
  l.filter fun x => x.id ∉ ids

/-- Relationships go with an endpoint: `DETACH DELETE`, `ON DELETE CASCADE`. -/
def detach (ids : List I) (l : List (Extracted I D)) : List (Extracted I D) :=
  l.filter fun x => ∀ e ∈ x.endpoints, e ∉ ids

def stripIds (ids : List I) (d : D) (l : List (Extracted I D)) : List (Extracted I D) :=
  l.map fun x => if x.id ∈ ids then x.strip d else x

/-- The writes of the cascade. -/
inductive CascadeWrite (I D : Type) where
  | deleteEntities (ids : List I)
  | deleteRelationships (ids : List I)
  | stripEntities (ids : List I) (d : D)
  | stripRelationships (ids : List I) (d : D)
deriving DecidableEq, Repr

def ExtractionStore.apply (s : ExtractionStore I D) : CascadeWrite I D → ExtractionStore I D
  | .deleteEntities ids => ⟨deleteIds ids s.entities, detach ids s.relationships⟩
  | .deleteRelationships ids => { s with relationships := deleteIds ids s.relationships }
  | .stripEntities ids d => { s with entities := stripIds ids d s.entities }
  | .stripRelationships ids d => { s with relationships := stripIds ids d s.relationships }

end Primitives

/-! ## The cascade -/

/-- A part of the cascade: a call that changes nothing here, or a write to the primary store
and then to the mirror. -/
inductive CascadeStage (I D : Type) where
  | read
  | write (w : CascadeWrite I D)
deriving DecidableEq, Repr

/-- Where a part fails: before the primary store has changed, between the two stores, or
after both. -/
inductive FaultPoint where
  | before
  | between
  | after
deriving DecidableEq, Repr

/-- The part that fails, counted from 0, and where. -/
structure CascadeFault where
  stage : ℕ
  point : FaultPoint
deriving DecidableEq, Repr

/-- A call of `cascade_forget_extraction` for a document, with the part that fails. -/
structure ForgetCall (D : Type) where
  doc : D
  now : ℕ
  fault : Option CascadeFault
deriving DecidableEq, Repr

/-- Both stores, the documents that were to be forgotten and those for which it succeeded. -/
structure ForgetState (I D : Type) where
  primary : ExtractionStore I D
  mirror : ExtractionStore I D
  tried : List D := []
  forgotten : List D := []
deriving DecidableEq, Repr

/-- `_SCAN_LIMIT` -/
def scanLimit : ℕ := 100000

namespace ForgetState

variable {I D : Type} [DecidableEq I] [DecidableEq D]

/-- `list_entities`, `list_relationships` -/
def listing (now : ℕ) (l : List (Extracted I D)) : List (Extracted I D) :=
  (l.filter (Extracted.live now)).take scanLimit

def listEntities (s : ForgetState I D) (now : ℕ) : List (Extracted I D) := listing now s.primary.entities

/-- The relationships that the primary store lists, or the mirror if it lists none. -/
def listRelationships (s : ForgetState I D) (now : ℕ) : List (Extracted I D) :=
  if (listing now s.primary.relationships).isEmpty then listing now s.mirror.relationships
  else listing now s.primary.relationships

/-- A write that is left out without ids. -/
def writeFor (ids : List I) (w : List I → CascadeWrite I D) : List (CascadeStage I D) :=
  if ids.isEmpty then [] else [.write (w ids)]

/-- The calls of `cascade_forget_extraction`, in order.  The sweep finds no malformed
relationship. -/
def stages (s : ForgetState I D) (d : D) (now : ℕ) : List (CascadeStage I D) :=
  let entities := s.listEntities now
  let relationships := s.listRelationships now
  let ids (p : Extracted I D → Bool) (l : List (Extracted I D)) : List I := (l.filter p).map Extracted.id
  [.read, .read] ++
    (if (listing now s.primary.relationships).isEmpty then [.read] else []) ++
    writeFor (ids (isOrphan d) entities) .deleteEntities ++
    writeFor (ids (isOrphan d) relationships) .deleteRelationships ++
    (if relationships.isEmpty then [] else [.read]) ++
    writeFor (ids (isSurvivor d) entities) (.stripEntities · d) ++
    writeFor (ids (isSurvivor d) relationships) (.stripRelationships · d)

/-- One part, which fails at the given point if there is one. -/
def runStage (s : ForgetState I D) (point : Option FaultPoint) : CascadeStage I D → ForgetState I D
  | .read => s
  | .write w =>
      match point with
      | some .before => s
      | some .between => { s with primary := s.primary.apply w }
      | _ => { s with primary := s.primary.apply w, mirror := s.mirror.apply w }

/-- `cascade_forget_extraction` -/
def attempt (s : ForgetState I D) (c : ForgetCall D) : ForgetState I D :=
  let stages := s.stages c.doc c.now
  let s := { s with tried := c.doc :: s.tried }
  match c.fault with
  | none => { stages.foldl (fun s g => s.runStage none g) s with forgotten := c.doc :: s.forgotten }
  | some f =>
      match stages[f.stage]? with
      | none => { stages.foldl (fun s g => s.runStage none g) s with forgotten := c.doc :: s.forgotten }
      | some g => ((stages.take f.stage).foldl (fun s g => s.runStage none g) s).runStage (some f.point) g

/-- **The condition on a call**: every record that lists the document is shown, and the call does not fail
between a write to the primary store and the write to the mirror. -/
structure Sound (s : ForgetState I D) (c : ForgetCall D) : Prop where
  shown : ∀ x ∈ s.primary.entities ++ s.primary.relationships, c.doc ∈ x.sources → x.live c.now = true
  notBetween : ∀ f w, c.fault = some f → (s.stages c.doc c.now)[f.stage]? = some (.write w) → f.point ≠ .between

end ForgetState

/-! ## What is left of a record -/

section Leaves

variable {I D : Type} [DecidableEq D] {forgotten tried : List D}

/-- The record that is left: documents of `tried` may be gone from its list, those of
`forgotten` are. -/
structure Extracted.Kept (forgotten tried : List D) (x y : Extracted I D) : Prop where
  id : y.id = x.id
  endpoints : y.endpoints = x.endpoints
  validUntil : y.validUntil = x.validUntil
  sources : ∃ gone : List D, (∀ s ∈ gone, s ∈ tried) ∧ y.sources = x.sources.filter fun s => s ∉ gone
  cleared : ∀ s ∈ forgotten, s ∉ y.sources
  listed : y.sources = [] → x.sources = []

/-- The record may be deleted. -/
def Extracted.Gone (tried : List D) (x : Extracted I D) : Prop :=
  x.sources ≠ [] ∧ ∀ s ∈ x.sources, s ∈ tried

/-- A record and what is left of it. -/
def Extracted.Traced (forgotten tried : List D) (x : Extracted I D) : Option (Extracted I D) → Prop
  | none => x.Gone tried
  | some y => x.Kept forgotten tried y

/-- The records `l` are what is left of `start`. -/
def Leaves (forgotten tried : List D) (start l : List (Extracted I D)) : Prop :=
  ∃ f, l = start.filterMap f ∧ ∀ x ∈ start, x.Traced forgotten tried (f x)

/-- What a record becomes when all the documents have been forgotten. -/
def Extracted.without (forgotten : List D) (x : Extracted I D) : Option (Extracted I D) :=
  let sources := x.sources.filter fun s => s ∉ forgotten
  if x.sources ≠ [] ∧ sources = [] then none else some { x with sources := sources }

variable {x y : Extracted I D}

theorem Extracted.Kept.subset (h : x.Kept forgotten tried y) : y.sources ⊆ x.sources := by
  obtain ⟨gone, -, heq⟩ := h.sources
  rw [heq]
  exact List.filter_sublist.subset

theorem Extracted.Kept.mem_or (h : x.Kept forgotten tried y) {s : D} (hs : s ∈ x.sources) :
    s ∈ tried ∨ s ∈ y.sources := by
  obtain ⟨gone, hgone, heq⟩ := h.sources
  by_cases hmem : s ∈ gone
  · exact .inl (hgone s hmem)
  · right
    rw [heq]
    exact List.mem_filter.mpr ⟨hs, decide_eq_true hmem⟩

theorem Extracted.Kept.nodup (h : x.Kept forgotten tried y) (hx : x.sources.Nodup) : y.sources.Nodup := by
  obtain ⟨gone, -, heq⟩ := h.sources
  rw [heq]
  exact hx.filter _

/-- Once every document that was tried has been forgotten, what is left is determined. -/
theorem Extracted.Traced.eq_without {o : Option (Extracted I D)} (h : x.Traced forgotten tried o)
    (hall : ∀ s ∈ tried, s ∈ forgotten) : o = x.without forgotten := by
  unfold Extracted.without
  cases o with
  | none =>
      have hempty : x.sources.filter (fun s => s ∉ forgotten) = [] := by
        rw [List.filter_eq_nil_iff]
        intro s hs
        rw [decide_eq_true_eq, not_not]
        exact hall s (h.2 s hs)
      rw [if_pos ⟨h.1, hempty⟩]
  | some y =>
      have hy : x.Kept forgotten tried y := h
      have hsources : x.sources.filter (fun s => s ∉ forgotten) = y.sources := by
        obtain ⟨gone, hgone, heq⟩ := hy.sources
        rw [heq]
        apply List.filter_congr
        intro s hs
        rw [decide_eq_decide]
        constructor
        · exact fun hnot hmem => hnot (hall s (hgone s hmem))
        · intro hnot hmem
          apply hy.cleared s hmem
          rw [heq]
          exact List.mem_filter.mpr ⟨hs, decide_eq_true hnot⟩
      dsimp only
      rw [hsources, if_neg fun hboth => hboth.1 (hy.listed hboth.2)]
      cases x
      cases y
      obtain ⟨rfl, rfl, rfl, -, -, -⟩ := hy
      rfl

theorem Leaves.eq_without {start l : List (Extracted I D)} (h : Leaves forgotten tried start l)
    (hall : ∀ s ∈ tried, s ∈ forgotten) : l = start.filterMap fun x => x.without forgotten := by
  obtain ⟨f, rfl, hf⟩ := h
  exact List.filterMap_congr fun x hx => (hf x hx).eq_without hall

omit [DecidableEq D] in
/-- The ids of what is left are ids from the start. -/
theorem map_id_filterMap_sublist {f : Extracted I D → Option (Extracted I D)} :
    ∀ {start : List (Extracted I D)}, (∀ x ∈ start, ∀ y, f x = some y → y.id = x.id) →
      ((start.filterMap f).map Extracted.id).Sublist (start.map Extracted.id) := by
  intro start
  induction start with
  | nil => exact fun _ => List.Sublist.refl _
  | cons x xs ih =>
      intro h
      rw [List.forall_mem_cons] at h
      cases hx : f x with
      | none =>
          rw [List.filterMap_cons_none hx, List.map_cons]
          exact (ih h.2).cons _
      | some y =>
          rw [List.filterMap_cons_some hx, List.map_cons, List.map_cons, h.1 y hx]
          exact (ih h.2).cons_cons _

end Leaves

/-! ### During one call -/

section Midway

variable {I D : Type} [DecidableEq D] {forgotten tried : List D} {d : D} {x y y₀ : Extracted I D}
  {o o₀ : Option (Extracted I D)}

/-- What is left of a record since it was listed: only the document of the call may have gone
from its list. -/
def Since (d : D) (o₀ o : Option (Extracted I D)) : Prop :=
  ∀ y, o = some y → ∃ y₀, o₀ = some y₀ ∧ y.sources ⊆ y₀.sources ∧
    y.sources.filter (fun s => s ≠ d) = y₀.sources.filter fun s => s ≠ d

theorem Since.refl (d : D) (o : Option (Extracted I D)) : Since d o o := by
  intro y hy
  exact ⟨y, hy, List.Subset.refl _, rfl⟩

theorem eq_singleton_of_orphan (h : isOrphan d y₀ = true) : y₀.sources = [d] := by
  obtain ⟨hmem, hlen⟩ := of_decide_eq_true h
  obtain ⟨s, hs⟩ := List.length_eq_one_iff.mp hlen
  rw [hs] at hmem ⊢
  rw [List.mem_singleton.mp hmem]

/-- A survivor lists another document. -/
theorem filter_ne_nil_of_survivor (h : isSurvivor d y₀ = true) (hn : y₀.sources.Nodup) :
    y₀.sources.filter (fun s => s ≠ d) ≠ [] := by
  obtain ⟨-, hlen⟩ := of_decide_eq_true h
  intro hnil
  have hsub : y₀.sources ⊆ [d] := by
    intro s hs
    have := (List.filter_eq_nil_iff.mp hnil) s hs
    rw [decide_eq_true_eq, not_not] at this
    exact List.mem_singleton.mpr this
  have hle := (List.subperm_of_subset hn hsub).length_le
  rw [List.length_singleton] at hle
  omega

/-- An orphan may be deleted. -/
theorem Extracted.Kept.gone_of_orphan (h₀ : x.Kept forgotten tried y₀) (h : isOrphan d y₀ = true) :
    x.Gone (d :: tried) := by
  have hone := eq_singleton_of_orphan h
  constructor
  · intro hnil
    have hmem : d ∈ y₀.sources := by
      rw [hone]
      exact List.mem_singleton_self d
    have := h₀.subset hmem
    rw [hnil] at this
    cases this
  · intro s hs
    rcases h₀.mem_or hs with hs | hs
    · exact List.mem_cons_of_mem _ hs
    · rw [hone, List.mem_singleton] at hs
      rw [hs]
      exact List.mem_cons_self

theorem Extracted.Kept.mono (h : x.Kept forgotten tried y) : x.Kept forgotten (d :: tried) y where
  id := h.id
  endpoints := h.endpoints
  validUntil := h.validUntil
  sources := by
    obtain ⟨gone, hgone, heq⟩ := h.sources
    exact ⟨gone, fun s hs => List.mem_cons_of_mem _ (hgone s hs), heq⟩
  cleared := h.cleared
  listed := h.listed

theorem Extracted.Traced.mono (h : x.Traced forgotten tried o) : x.Traced forgotten (d :: tried) o := by
  cases o with
  | none => exact ⟨h.1, fun s hs => List.mem_cons_of_mem _ (h.2 s hs)⟩
  | some y => exact Extracted.Kept.mono h

/-- The document is stripped from a survivor. -/
theorem Extracted.Kept.strip (h : x.Kept forgotten (d :: tried) y)
    (hother : y.sources.filter (fun s => s ≠ d) ≠ []) : x.Kept forgotten (d :: tried) (y.strip d) where
  id := h.id
  endpoints := h.endpoints
  validUntil := h.validUntil
  sources := by
    obtain ⟨gone, hgone, heq⟩ := h.sources
    refine ⟨d :: gone, ?_, ?_⟩
    · exact List.forall_mem_cons.mpr ⟨List.mem_cons_self, hgone⟩
    · show y.sources.filter (fun s => s ≠ d) = _
      rw [heq, List.filter_filter]
      apply List.filter_congr
      intro s _
      simp only [ne_eq, List.mem_cons, not_or, decide_not, Bool.decide_and]
  cleared := by
    intro s hs hmem
    exact h.cleared s hs (List.mem_filter.mp hmem).1
  listed := fun hnil => absurd hnil hother

/-- The records `l` during a call: `f₀` gives them as they were listed. -/
def Halfway (forgotten tried : List D) (d : D) (start : List (Extracted I D))
    (f₀ : Extracted I D → Option (Extracted I D)) (l : List (Extracted I D)) : Prop :=
  ∃ f, l = start.filterMap f ∧ ∀ x ∈ start, x.Traced forgotten (d :: tried) (f x) ∧ Since d (f₀ x) (f x)

variable {start l : List (Extracted I D)} {f₀ : Extracted I D → Option (Extracted I D)}

theorem halfway_start (h₀ : ∀ x ∈ start, x.Traced forgotten tried (f₀ x)) :
    Halfway forgotten tried d start f₀ (start.filterMap f₀) :=
  ⟨f₀, rfl, fun x hx => ⟨(h₀ x hx).mono, Since.refl d _⟩⟩

theorem Halfway.leaves (h : Halfway forgotten tried d start f₀ l) :
    Leaves forgotten (d :: tried) start l := by
  obtain ⟨f, hl, hf⟩ := h
  exact ⟨f, hl, fun x hx => (hf x hx).1⟩

/-- A record is classified by what was listed of it. -/
theorem listed_iff (hn : (start.map Extracted.id).Nodup)
    (h₀ : ∀ x ∈ start, x.Traced forgotten tried (f₀ x)) (p : Extracted I D → Bool)
    (hx : x ∈ start) (hy₀ : f₀ x = some y₀) :
    x.id ∈ ((start.filterMap f₀).filter p).map Extracted.id ↔ p y₀ = true := by
  have hid : ∀ x ∈ start, ∀ y, f₀ x = some y → y.id = x.id := by
    intro x hx y hy
    have := h₀ x hx
    rw [hy] at this
    exact Extracted.Kept.id this
  rw [← hid x hx y₀ hy₀]
  refine Table.key_mem_filter (hn.sublist (map_id_filterMap_sublist hid)) ?_
  exact List.mem_filterMap.mpr ⟨x, hx, hy₀⟩

/-- Records that may go are taken out. -/
theorem Halfway.filter (h : Halfway forgotten tried d start f₀ l) (p : Extracted I D → Bool)
    (hgone : ∀ x ∈ start, ∀ y, x.Kept forgotten (d :: tried) y → Since d (f₀ x) (some y) → p y = false →
      x.Gone (d :: tried)) : Halfway forgotten tried d start f₀ (l.filter p) := by
  obtain ⟨f, rfl, hf⟩ := h
  refine ⟨fun x => (f x).filter p, List.filter_filterMap, fun x hx => ?_⟩
  dsimp only
  obtain ⟨htraced, hsince⟩ := hf x hx
  cases hfx : f x with
  | none =>
      rw [hfx] at htraced
      exact ⟨htraced, fun y hy => by cases hy⟩
  | some y =>
      rw [hfx] at htraced hsince
      cases hp : p y with
      | true =>
          rw [Option.filter_some_pos hp]
          exact ⟨htraced, hsince⟩
      | false =>
          rw [Option.filter_some_neg hp]
          exact ⟨hgone x hx y htraced hsince hp, fun y hy => by cases hy⟩

variable [DecidableEq I]

/-- The orphans are deleted. -/
theorem Halfway.deleteOrphans (h : Halfway forgotten tried d start f₀ l)
    (hn : (start.map Extracted.id).Nodup) (h₀ : ∀ x ∈ start, x.Traced forgotten tried (f₀ x)) :
    Halfway forgotten tried d start f₀
      (deleteIds (((start.filterMap f₀).filter (isOrphan d)).map Extracted.id) l) := by
  refine h.filter _ fun x hx y hkept hsince hp => ?_
  obtain ⟨y₀, hy₀, -, -⟩ := hsince y rfl
  rw [decide_eq_false_iff_not, not_not, hkept.id, listed_iff hn h₀ _ hx hy₀] at hp
  have hx₀ := h₀ x hx
  rw [hy₀] at hx₀
  exact Extracted.Kept.gone_of_orphan hx₀ hp

/-- The survivors are stripped. -/
theorem Halfway.stripSurvivors (h : Halfway forgotten tried d start f₀ l)
    (hn : (start.map Extracted.id).Nodup) (h₀ : ∀ x ∈ start, x.Traced forgotten tried (f₀ x))
    (hsources : ∀ x ∈ start, x.sources.Nodup) :
    Halfway forgotten tried d start f₀
      (stripIds (((start.filterMap f₀).filter (isSurvivor d)).map Extracted.id) d l) := by
  obtain ⟨f, rfl, hf⟩ := h
  set ids := ((start.filterMap f₀).filter (isSurvivor d)).map Extracted.id with hids
  refine ⟨fun x => (f x).map fun y : Extracted I D => if y.id ∈ ids then y.strip d else y,
    List.map_filterMap, fun x hx => ?_⟩
  dsimp only
  obtain ⟨htraced, hsince⟩ := hf x hx
  cases hfx : f x with
  | none =>
      rw [hfx] at htraced
      exact ⟨htraced, fun y hy => by cases hy⟩
  | some y =>
      rw [hfx] at htraced hsince
      have hkept : x.Kept forgotten (d :: tried) y := htraced
      obtain ⟨y₀, hy₀, hsub, hsame⟩ := hsince y rfl
      rw [Option.map_some]
      split
      next hmem =>
        rw [hkept.id, hids, listed_iff hn h₀ _ hx hy₀] at hmem
        have hx₀ := h₀ x hx
        rw [hy₀] at hx₀
        have hother := filter_ne_nil_of_survivor hmem (Extracted.Kept.nodup hx₀ (hsources x hx))
        rw [← hsame] at hother
        refine ⟨hkept.strip hother, fun z hz => ?_⟩
        cases hz
        refine ⟨y₀, hy₀, fun s hs => hsub (List.mem_filter.mp hs).1, ?_⟩
        show (y.sources.filter fun s => s ≠ d).filter (fun s => s ≠ d) = _
        rw [List.filter_filter, ← hsame]
        exact List.filter_congr fun s _ => Bool.and_self _
      next => exact ⟨htraced, hsince⟩

end Midway

/-! ### One call -/

/-- The stores that the cascade is called on: ids and lists without repeats, and no more
records than it scans. -/
structure ExtractionStore.Scannable {I D : Type} (s : ExtractionStore I D) : Prop where
  entityIds : (s.entities.map Extracted.id).Nodup
  relationshipIds : (s.relationships.map Extracted.id).Nodup
  entitySources : ∀ x ∈ s.entities, x.sources.Nodup
  relationshipSources : ∀ x ∈ s.relationships, x.sources.Nodup
  entityCount : s.entities.length ≤ scanLimit
  relationshipCount : s.relationships.length ≤ scanLimit

/-- No relationship outlives an endpoint: what lists an endpoint's last document lists nothing
else. -/
def ExtractionStore.EndpointsOutlive {I D : Type} (s : ExtractionStore I D) : Prop :=
  ∀ r ∈ s.relationships, ∀ e ∈ s.entities, e.id ∈ r.endpoints → e.sources ≠ [] →
    r.sources ≠ [] ∧ r.sources ⊆ e.sources

namespace ForgetState

variable {I D : Type} [DecidableEq D] {start : ExtractionStore I D} {s : ForgetState I D} {d : D}

/-- The stores between two calls. -/
structure Tracked (start : ExtractionStore I D) (s : ForgetState I D) : Prop where
  same : s.mirror = s.primary
  entities : Leaves s.forgotten s.tried start.entities s.primary.entities
  relationships : Leaves s.forgotten s.tried start.relationships s.primary.relationships
  sub : ∀ d ∈ s.forgotten, d ∈ s.tried

variable [DecidableEq I]

/-- A write that is done in both stores. -/
def both (s : ForgetState I D) (w : CascadeWrite I D) : ForgetState I D :=
  { s with primary := s.primary.apply w, mirror := s.mirror.apply w }

/-- The ids of a listing by a classification. -/
def idsOf (p : Extracted I D → Bool) (l : List (Extracted I D)) : List I := (l.filter p).map Extracted.id

/-- A write with no ids changes nothing. -/
theorem foldl_writeFor (s : ForgetState I D) (ids : List I) (w : List I → CascadeWrite I D)
    (hw : ∀ s : ExtractionStore I D, s.apply (w []) = s) :
    (writeFor ids w).foldl (fun s g => s.runStage none g) s = s.both (w ids) := by
  unfold writeFor
  split
  next h =>
    rw [List.isEmpty_iff.mp h, both, hw, hw]
    rfl
  next => rfl

theorem foldl_reads (s : ForgetState I D) (c : Bool) (l l' : List (CascadeStage I D))
    (hl : ∀ g ∈ l, g = .read) (hl' : ∀ g ∈ l', g = .read) :
    (if c then l else l').foldl (fun s g => s.runStage none g) s = s := by
  have hread : ∀ (l : List (CascadeStage I D)) (s : ForgetState I D), (∀ g ∈ l, g = .read) →
      l.foldl (fun s g => s.runStage none g) s = s := by
    intro l
    induction l with
    | nil => exact fun _ _ => rfl
    | cons g gs ih =>
        intro s h
        rw [List.forall_mem_cons] at h
        rw [List.foldl_cons, h.1]
        exact ih s h.2
  split
  · exact hread l s hl
  · exact hread l' s hl'

omit [DecidableEq D] in
theorem deleteIds_nil (l : List (Extracted I D)) : deleteIds [] l = l :=
  List.filter_eq_self.mpr fun _ _ => decide_eq_true List.not_mem_nil

omit [DecidableEq D] in
theorem detach_nil (l : List (Extracted I D)) : detach [] l = l :=
  List.filter_eq_self.mpr fun _ _ => decide_eq_true fun _ _ => List.not_mem_nil

theorem stripIds_nil (d : D) (l : List (Extracted I D)) : stripIds [] d l = l :=
  (List.map_congr_left fun _ _ => if_neg List.not_mem_nil).trans (List.map_id l)

/-- **What a call does that goes through**: the four writes, in both stores. -/
theorem foldl_stages (s s' : ForgetState I D) (d : D) (now : ℕ) :
    (s.stages d now).foldl (fun s g => s.runStage none g) s' =
      (((s'.both (.deleteEntities (idsOf (isOrphan d) (s.listEntities now)))).both
        (.deleteRelationships (idsOf (isOrphan d) (s.listRelationships now)))).both
        (.stripEntities (idsOf (isSurvivor d) (s.listEntities now)) d)).both
        (.stripRelationships (idsOf (isSurvivor d) (s.listRelationships now)) d) := by
  unfold stages
  simp only [List.foldl_append]
  rw [foldl_reads _ _ [.read] [] (by simp) (by simp), foldl_reads _ _ [] [.read] (by simp) (by simp)]
  rw [foldl_writeFor, foldl_writeFor, foldl_writeFor, foldl_writeFor]
  · rfl
  · intro s
    rw [ExtractionStore.apply, deleteIds_nil, detach_nil]
  · intro s
    rw [ExtractionStore.apply, deleteIds_nil]
  · intro s
    rw [ExtractionStore.apply, stripIds_nil]
  · intro s
    rw [ExtractionStore.apply, stripIds_nil]

/-- What the records of the two stores were when a call listed them. -/
structure Listed (start : ExtractionStore I D) (s : ForgetState I D)
    (fE fR : Extracted I D → Option (Extracted I D)) : Prop where
  same : s.mirror = s.primary
  entities : s.primary.entities = start.entities.filterMap fE
  relationships : s.primary.relationships = start.relationships.filterMap fR
  entitiesTraced : ∀ x ∈ start.entities, x.Traced s.forgotten s.tried (fE x)
  relationshipsTraced : ∀ x ∈ start.relationships, x.Traced s.forgotten s.tried (fR x)

/-- The stores during a call on `d`, which started from `s`. -/
structure Midway (start : ExtractionStore I D) (s : ForgetState I D) (d : D)
    (fE fR : Extracted I D → Option (Extracted I D)) (s' : ForgetState I D) : Prop where
  same : s'.mirror = s'.primary
  entities : Halfway s.forgotten s.tried d start.entities fE s'.primary.entities
  relationships : Halfway s.forgotten s.tried d start.relationships fR s'.primary.relationships

/-- A part of the call that lists `E` and `R`. -/
def Planned (d : D) (E R : List (Extracted I D)) : CascadeStage I D → Prop
  | .read => True
  | .write w => w = .deleteEntities (idsOf (isOrphan d) E) ∨ w = .deleteRelationships (idsOf (isOrphan d) R) ∨
      w = .stripEntities (idsOf (isSurvivor d) E) d ∨ w = .stripRelationships (idsOf (isSurvivor d) R) d

omit [DecidableEq I] in
theorem planned_writeFor {E R : List (Extracted I D)} {ids : List I} {w : List I → CascadeWrite I D}
    (hw : Planned d E R (.write (w ids))) : ∀ g ∈ writeFor ids w, Planned d E R g := by
  intro g hg
  unfold writeFor at hg
  split at hg
  · cases hg
  · rw [List.mem_singleton.mp hg]
    exact hw

omit [DecidableEq I] in
theorem planned_reads {E R : List (Extracted I D)} {l : List (CascadeStage I D)} (h : ∀ g ∈ l, g = .read) :
    ∀ g ∈ l, Planned d E R g := by
  intro g hg
  rw [h g hg]
  trivial

omit [DecidableEq I] in
theorem planned_stages (s : ForgetState I D) (d : D) (now : ℕ) :
    ∀ g ∈ s.stages d now, Planned d (s.listEntities now) (s.listRelationships now) g := by
  unfold stages
  dsimp only
  simp only [List.forall_mem_append]
  refine ⟨⟨⟨⟨⟨⟨?_, ?_⟩, ?_⟩, ?_⟩, ?_⟩, ?_⟩, ?_⟩
  · exact planned_reads (by simp)
  · exact planned_reads (by split <;> simp)
  · exact planned_writeFor (.inl rfl)
  · exact planned_writeFor (.inr (.inl rfl))
  · exact planned_reads (by split <;> simp)
  · exact planned_writeFor (.inr (.inr (.inl rfl)))
  · exact planned_writeFor (.inr (.inr (.inr rfl)))

section Call

variable {fE fR : Extracted I D → Option (Extracted I D)} {s' : ForgetState I D} {now : ℕ}

omit [DecidableEq I] in
/-- The scan finds the orphans and the survivors of all records. -/
theorem Listed.idsOf_listings (h : s.Listed start fE fR) (hscan : start.Scannable)
    (hshown : ∀ x ∈ s.primary.entities ++ s.primary.relationships, d ∈ x.sources → x.live now = true)
    {p : Extracted I D → Bool} (hp : ∀ x, p x = true → d ∈ x.sources) :
    idsOf p (s.listEntities now) = idsOf p s.primary.entities ∧
      idsOf p (s.listRelationships now) = idsOf p s.primary.relationships := by
  have hlisting : ∀ {l : List (Extracted I D)}, l.length ≤ scanLimit →
      (∀ x ∈ l, d ∈ x.sources → x.live now = true) → idsOf p (listing now l) = idsOf p l := by
    intro l hl hlive
    unfold idsOf listing
    rw [List.take_of_length_le (Nat.le_trans (List.length_filter_le _ _) hl), List.filter_filter]
    congr 1
    refine List.filter_congr fun x hx => ?_
    cases hpx : p x with
    | false => rfl
    | true => exact hlive x hx (hp x hpx)
  rw [List.forall_mem_append] at hshown
  refine ⟨hlisting ?_ hshown.1, ?_⟩
  · rw [h.entities]
    exact Nat.le_trans (List.length_filterMap_le _ _) hscan.entityCount
  · rw [listRelationships, h.same, ite_self, hlisting ?_ hshown.2]
    rw [h.relationships]
    exact Nat.le_trans (List.length_filterMap_le _ _) hscan.relationshipCount

/-- A planned write is done in both stores. -/
theorem Midway.both (h : Midway start s d fE fR s') (hl : s.Listed start fE fR) (hscan : start.Scannable)
    (hends : start.EndpointsOutlive)
    (hshown : ∀ x ∈ s.primary.entities ++ s.primary.relationships, d ∈ x.sources → x.live now = true)
    {w : CascadeWrite I D} (hw : Planned d (s.listEntities now) (s.listRelationships now) (.write w)) :
    Midway start s d fE fR (s'.both w) := by
  obtain ⟨horphanE, horphanR⟩ := hl.idsOf_listings hscan hshown fun _ => mem_of_isOrphan
  obtain ⟨hsurvivorE, hsurvivorR⟩ := hl.idsOf_listings hscan hshown fun _ => mem_of_isSurvivor
  rw [Planned, horphanE, horphanR, hsurvivorE, hsurvivorR, hl.entities, hl.relationships] at hw
  have hsame : (s'.both w).mirror = (s'.both w).primary := by
    show s'.mirror.apply w = s'.primary.apply w
    rw [h.same]
  rcases hw with rfl | rfl | rfl | rfl
  · refine ⟨hsame, h.entities.deleteOrphans hscan.entityIds hl.entitiesTraced, ?_⟩
    -- a relationship goes with an orphaned endpoint, and lists nothing else
    refine h.relationships.filter _ fun r hr y hkept _ hp => ?_
    rw [decide_eq_false_iff_not, hkept.endpoints] at hp
    simp only [not_forall, not_not] at hp
    obtain ⟨i, hi, hid⟩ := hp
    obtain ⟨e₀, he₀, rfl⟩ := List.mem_map.mp hid
    obtain ⟨hmem, horphan⟩ := List.mem_filter.mp he₀
    obtain ⟨e, he, hfe⟩ := List.mem_filterMap.mp hmem
    have hkept₀ := hl.entitiesTraced e he
    rw [hfe] at hkept₀
    have hgone := Extracted.Kept.gone_of_orphan hkept₀ horphan
    obtain ⟨hne, hsub⟩ := hends r hr e he (Extracted.Kept.id hkept₀ ▸ hi) hgone.1
    exact ⟨hne, fun x hx => hgone.2 x (hsub hx)⟩
  · exact ⟨hsame, h.entities, h.relationships.deleteOrphans hscan.relationshipIds hl.relationshipsTraced⟩
  · exact ⟨hsame, h.entities.stripSurvivors hscan.entityIds hl.entitiesTraced hscan.entitySources,
      h.relationships⟩
  · exact ⟨hsame, h.entities, h.relationships.stripSurvivors hscan.relationshipIds hl.relationshipsTraced
      hscan.relationshipSources⟩

theorem Midway.foldl (hl : s.Listed start fE fR) (hscan : start.Scannable) (hends : start.EndpointsOutlive)
    (hshown : ∀ x ∈ s.primary.entities ++ s.primary.relationships, d ∈ x.sources → x.live now = true) :
    ∀ {gs : List (CascadeStage I D)} {s' : ForgetState I D}, Midway start s d fE fR s' →
      (∀ g ∈ gs, Planned d (s.listEntities now) (s.listRelationships now) g) →
      Midway start s d fE fR (gs.foldl (fun s g => s.runStage none g) s') := by
  intro gs
  induction gs with
  | nil => exact fun h _ => h
  | cons g gs ih =>
      intro s' h hgs
      rw [List.forall_mem_cons] at hgs
      rw [List.foldl_cons]
      refine ih ?_ hgs.2
      cases g with
      | read => exact h
      | write w => exact h.both hl hscan hends hshown hgs.1

/-- A stripped and purged listing does not list the document any more. -/
theorem not_mem_of_cleared {l l' : List (Extracted I D)} (hsub : l' ⊆ l) {y : Extracted I D}
    (hy : y ∈ stripIds (idsOf (isSurvivor d) l) d (deleteIds (idsOf (isOrphan d) l) l')) : d ∉ y.sources := by
  obtain ⟨z, hz, rfl⟩ := List.mem_map.mp hy
  obtain ⟨hzl, hzo⟩ := List.mem_filter.mp hz
  have hzl := hsub hzl
  intro hd
  split at hd
  · exact of_decide_eq_true (List.mem_filter.mp hd).2 rfl
  next hnot =>
    have hids : ∀ p : Extracted I D → Bool, p z = true → z.id ∈ idsOf p l := by
      intro p hp
      exact List.mem_map.mpr ⟨z, List.mem_filter.mpr ⟨hzl, hp⟩, rfl⟩
    by_cases hlen : z.sources.length = 1
    · exact of_decide_eq_true hzo (hids _ (decide_eq_true ⟨hd, hlen⟩))
    · have hpos := List.length_pos_of_mem hd
      exact hnot (hids _ (decide_eq_true ⟨hd, by omega⟩))

/-- The two logs are not touched by the parts of a call. -/
theorem logs_runStage (s : ForgetState I D) (p : Option FaultPoint) (g : CascadeStage I D) :
    (s.runStage p g).tried = s.tried ∧ (s.runStage p g).forgotten = s.forgotten := by
  unfold runStage
  split
  · exact ⟨rfl, rfl⟩
  · split
    · exact ⟨rfl, rfl⟩
    · exact ⟨rfl, rfl⟩
    · exact ⟨rfl, rfl⟩

theorem logs_foldl (gs : List (CascadeStage I D)) : ∀ s : ForgetState I D,
    (gs.foldl (fun s g => s.runStage none g) s).tried = s.tried ∧
      (gs.foldl (fun s g => s.runStage none g) s).forgotten = s.forgotten := by
  induction gs with
  | nil => exact fun _ => ⟨rfl, rfl⟩
  | cons g gs ih =>
      intro s
      rw [List.foldl_cons, (ih _).1, (ih _).2]
      exact logs_runStage s none g

/-- A call that goes through has forgotten its document. -/
theorem Midway.finished (hl : s.Listed start fE fR) (hscan : start.Scannable)
    (hends : start.EndpointsOutlive) (hmid : Midway start s d fE fR { s with tried := d :: s.tried })
    (hshown : ∀ x ∈ s.primary.entities ++ s.primary.relationships, d ∈ x.sources → x.live now = true)
    (hsub : ∀ x ∈ s.forgotten, x ∈ s.tried) :
    Tracked start { (s.stages d now).foldl (fun s g => s.runStage none g) { s with tried := d :: s.tried } with
      forgotten := d :: s.forgotten } := by
  obtain ⟨htried, hforgotten⟩ := logs_foldl (s.stages d now) { s with tried := d :: s.tried }
  have hend := Midway.foldl hl hscan hends hshown hmid (planned_stages s d now)
  have hclear : ∀ {x : Extracted I D} {o : Option (Extracted I D)}, x.Traced s.forgotten (d :: s.tried) o →
      (∀ y, o = some y → d ∉ y.sources) → x.Traced (d :: s.forgotten) (d :: s.tried) o := by
    intro x o ho hd
    cases o with
    | none => exact ho
    | some y =>
        have hkept : x.Kept s.forgotten (d :: s.tried) y := ho
        exact ⟨hkept.id, hkept.endpoints, hkept.validUntil, hkept.sources,
          List.forall_mem_cons.mpr ⟨hd y rfl, hkept.cleared⟩, hkept.listed⟩
  have hleaves : ∀ {l₀ l : List (Extracted I D)}, Leaves s.forgotten (d :: s.tried) l₀ l →
      (∀ y ∈ l, d ∉ y.sources) → Leaves (d :: s.forgotten) (d :: s.tried) l₀ l := by
    rintro l₀ l ⟨f, rfl, hf⟩ hd
    refine ⟨f, rfl, fun x hx => hclear (hf x hx) fun y hy => ?_⟩
    exact hd y (List.mem_filterMap.mpr ⟨x, hx, hy⟩)
  obtain ⟨horphanE, horphanR⟩ := hl.idsOf_listings hscan hshown fun _ => mem_of_isOrphan
  obtain ⟨hsurvivorE, hsurvivorR⟩ := hl.idsOf_listings hscan hshown fun _ => mem_of_isSurvivor
  have hform := foldl_stages s { s with tried := d :: s.tried } d now
  rw [horphanE, horphanR, hsurvivorE, hsurvivorR] at hform
  constructor
  case same => exact hend.same
  case sub =>
    intro x hx
    rw [htried]
    rcases List.mem_cons.mp hx with rfl | hx
    · exact List.mem_cons_self
    · exact List.mem_cons_of_mem _ (hsub x hx)
  case entities =>
    rw [htried]
    refine hleaves hend.entities.leaves fun y hy => ?_
    rw [hform] at hy
    exact not_mem_of_cleared (List.Subset.refl s.primary.entities) hy
  case relationships =>
    rw [htried]
    refine hleaves hend.relationships.leaves fun y hy => ?_
    rw [hform] at hy
    exact not_mem_of_cleared (l := s.primary.relationships) List.filter_sublist.subset hy

end Call

omit [DecidableEq I] in
theorem Tracked.listed (h : s.Tracked start) : ∃ fE fR, s.Listed start fE fR := by
  obtain ⟨fE, hE, hfE⟩ := h.entities
  obtain ⟨fR, hR, hfR⟩ := h.relationships
  exact ⟨fE, fR, h.same, hE, hR, hfE, hfR⟩

/-- **A call that does not fail between the stores keeps them in step.** -/
theorem Tracked.attempt (hscan : start.Scannable) (hends : start.EndpointsOutlive) (h : s.Tracked start)
    (c : ForgetCall D) (hc : s.Sound c) : (s.attempt c).Tracked start := by
  obtain ⟨d, now, fault⟩ := c
  obtain ⟨hshown, hbetween⟩ := hc
  obtain ⟨fE, fR, hl⟩ := h.listed
  have hmid : Midway start s d fE fR { s with tried := d :: s.tried } := by
    refine ⟨hl.same, ?_, ?_⟩
    · show Halfway _ _ _ _ _ s.primary.entities
      rw [hl.entities]
      exact halfway_start hl.entitiesTraced
    · show Halfway _ _ _ _ _ s.primary.relationships
      rw [hl.relationships]
      exact halfway_start hl.relationshipsTraced
  have hdone := Midway.finished hl hscan hends hmid hshown h.sub
  unfold ForgetState.attempt
  dsimp only
  cases fault with
  | none => exact hdone
  | some f =>
      dsimp only
      cases hg : (s.stages d now)[f.stage]? with
      | none => exact hdone
      | some g =>
          dsimp only
          have hplan := planned_stages s d now
          have hplan' : ∀ g ∈ (s.stages d now).take f.stage,
              Planned d (s.listEntities now) (s.listRelationships now) g :=
            fun g hg => hplan g (List.mem_of_mem_take hg)
          have hbefore := Midway.foldl hl hscan hends hshown hmid hplan'
          obtain ⟨htried, hforgotten⟩ := logs_foldl ((s.stages d now).take f.stage) { s with tried := d :: s.tried }
          generalize hs' : ((s.stages d now).take f.stage).foldl (fun s g => s.runStage none g)
            { s with tried := d :: s.tried } = s' at hbefore htried hforgotten
          have hafter : Midway start s d fE fR (s'.runStage (some f.point) g) := by
            cases g with
            | read => exact hbefore
            | write w =>
                cases hpoint : f.point with
                | before => exact hbefore
                | between => exact absurd hpoint (hbetween f w rfl hg)
                | after => exact hbefore.both hl hscan hends hshown (hplan _ (List.mem_of_getElem? hg))
          obtain ⟨htried', hforgotten'⟩ := logs_runStage s' (some f.point) g
          constructor
          case same => exact hafter.same
          case entities =>
            rw [htried', hforgotten', htried, hforgotten]
            exact hafter.entities.leaves
          case relationships =>
            rw [htried', hforgotten', htried, hforgotten]
            exact hafter.relationships.leaves
          case sub =>
            intro x hx
            rw [htried', htried]
            rw [hforgotten', hforgotten] at hx
            exact List.mem_cons_of_mem _ (h.sub x hx)

omit [DecidableEq I] in
theorem tracked_start (start : ExtractionStore I D) : Tracked start ⟨start, start, [], []⟩ := by
  have hself : ∀ l : List (Extracted I D), Leaves [] [] l l := by
    intro l
    refine ⟨some, List.filterMap_some.symm, fun x _ => ?_⟩
    refine ⟨rfl, rfl, rfl, ⟨[], List.forall_mem_nil _, ?_⟩, List.forall_mem_nil _, id⟩
    exact (List.filter_eq_self.mpr fun s _ => decide_eq_true List.not_mem_nil).symm
  exact ⟨rfl, hself _, hself _, List.forall_mem_nil _⟩

theorem tried_attempt (s : ForgetState I D) (c : ForgetCall D) : (s.attempt c).tried = c.doc :: s.tried := by
  have hfull := (logs_foldl (s.stages c.doc c.now) { s with tried := c.doc :: s.tried }).1
  unfold attempt
  dsimp only
  cases c.fault with
  | none => exact hfull
  | some f =>
      dsimp only
      split
      · exact hfull
      · exact (logs_runStage _ _ _).1.trans (logs_foldl _ _).1

theorem mem_tried_run (calls : List (ForgetCall D)) : ∀ {s : ForgetState I D} {d : D},
    d ∈ (Runs.run attempt s calls).tried ↔ d ∈ calls.map ForgetCall.doc ∨ d ∈ s.tried := by
  induction calls with
  | nil => exact fun {s d} => ⟨.inr, fun h => h.resolve_left List.not_mem_nil⟩
  | cons c calls ih =>
      intro s d
      rw [Runs.run_cons, ih, tried_attempt, List.map_cons, List.mem_cons, List.mem_cons]
      tauto

end ForgetState

theorem Extracted.without_congr {I D : Type} [DecidableEq D] {ds ds' : List D} (h : ∀ d, d ∈ ds ↔ d ∈ ds')
    (x : Extracted I D) : x.without ds = x.without ds' := by
  have hfilter : x.sources.filter (fun s => s ∉ ds) = x.sources.filter fun s => s ∉ ds' :=
    List.filter_congr fun s _ => decide_eq_decide.mpr (not_congr (h s))
  unfold Extracted.without
  rw [hfilter]

/-- **Both stores end with the records that never listed a forgotten document or still list
another one**, whatever the order of the calls and however often they failed: `without`
depends on the set of documents only. -/
theorem forget_exact {I D : Type} [DecidableEq I] [DecidableEq D] (start : ExtractionStore I D)
    (hscan : start.Scannable) (hends : start.EndpointsOutlive) (calls : List (ForgetCall D))
    (hcalls : Runs.Guarded ForgetState.attempt ForgetState.Sound ⟨start, start, [], []⟩ calls) :
    let s := Runs.run ForgetState.attempt ⟨start, start, [], []⟩ calls
    (∀ d ∈ calls.map ForgetCall.doc, d ∈ s.forgotten) →
      s.mirror = s.primary ∧
        s.primary.entities = start.entities.filterMap (fun x => x.without (calls.map ForgetCall.doc)) ∧
        s.primary.relationships = start.relationships.filterMap fun x => x.without (calls.map ForgetCall.doc) := by
  intro s hall
  have hend : s.Tracked start :=
    Runs.run_invariant (fun s a hs ha => hs.attempt hscan hends a ha) (ForgetState.tracked_start start) hcalls
  have htried : ∀ d, d ∈ s.tried ↔ d ∈ calls.map ForgetCall.doc := by
    intro d
    rw [ForgetState.mem_tried_run]
    exact or_iff_left List.not_mem_nil
  have hsame : ∀ d, d ∈ s.forgotten ↔ d ∈ calls.map ForgetCall.doc :=
    fun d => ⟨fun h => (htried d).mp (hend.sub d h), hall d⟩
  have hclosed : ∀ d ∈ s.tried, d ∈ s.forgotten := fun d hd => hall d ((htried d).mp hd)
  refine ⟨hend.same, ?_, ?_⟩
  · rw [hend.entities.eq_without hclosed]
    exact List.filterMap_congr fun x _ => x.without_congr hsame
  · rw [hend.relationships.eq_without hclosed]
    exact List.filterMap_congr fun x _ => x.without_congr hsame

/-- Two entities of the documents 7 and 8, one only of 7, and a relationship of 7. -/
def smallStore : ExtractionStore ℕ ℕ where
  entities := [⟨1, [], [7, 8], none⟩, ⟨2, [], [7], some 30⟩]
  relationships := [⟨3, [1, 2], [7], none⟩]

/-- The call on 7 fails before its first write to a store and after its last one; then both
calls go through. -/
def retriedCalls : List (ForgetCall ℕ) :=
  [⟨7, 10, some ⟨2, .before⟩⟩, ⟨7, 11, some ⟨5, .after⟩⟩, ⟨8, 12, none⟩, ⟨7, 13, none⟩]

theorem smallStore_scannable : smallStore.Scannable := by
  refine ⟨by decide, by decide, by decide, by decide, ?_, ?_⟩
  · show 2 ≤ 100000
    decide
  · show 1 ≤ 100000
    decide

theorem forget_exact_retried :
    let s := Runs.run ForgetState.attempt ⟨smallStore, smallStore, [], []⟩ retriedCalls
    smallStore.EndpointsOutlive ∧
      Runs.Guarded ForgetState.attempt ForgetState.Sound ⟨smallStore, smallStore, [], []⟩ retriedCalls ∧
      s.mirror = s.primary ∧ s.primary.entities = [] := by
  have hends : smallStore.EndpointsOutlive := by
    intro r hr e he hmem _
    rcases List.mem_cons.mp he with rfl | he
    · rw [List.mem_singleton.mp hr]
      exact ⟨by decide, by decide⟩
    · rw [List.mem_singleton.mp he, List.mem_singleton.mp hr]
      exact ⟨by decide, by decide⟩
  have hguard : Runs.Guarded ForgetState.attempt ForgetState.Sound ⟨smallStore, smallStore, [], []⟩
      retriedCalls := by
    refine ⟨?_, ?_, ?_, ?_, trivial⟩
    · refine ⟨by decide, fun f w hf _ hpoint => ?_⟩
      cases hf
      cases hpoint
    · refine ⟨by decide, fun f w hf _ hpoint => ?_⟩
      cases hf
      cases hpoint
    · refine ⟨by decide, fun f w hf => ?_⟩
      cases hf
    · refine ⟨by decide, fun f w hf => ?_⟩
      cases hf
  have hend := forget_exact smallStore smallStore_scannable hends retriedCalls hguard (by decide)
  refine ⟨hends, hguard, hend.1, ?_⟩
  rw [hend.2.1]
  decide

/-- The call on 7 deletes an entity from the primary store and fails before the mirror; the
second call goes through. -/
def failedBetween : List (ForgetCall ℕ) := [⟨7, 10, some ⟨2, .between⟩⟩, ⟨7, 11, none⟩]

/-- **The second call does not list what the first one has deleted**, so the mirror keeps it. -/
theorem mirror_left_behind :
    let s := Runs.run ForgetState.attempt ⟨smallStore, smallStore, [], []⟩ failedBetween
    (∀ d ∈ failedBetween.map ForgetCall.doc, d ∈ s.forgotten) ∧
      s.primary.entities = smallStore.entities.filterMap (fun x => x.without (failedBetween.map ForgetCall.doc)) ∧
      s.mirror.entities ≠ smallStore.entities.filterMap fun x => x.without (failedBetween.map ForgetCall.doc) := by
  refine ⟨by decide, by decide, by decide⟩

end Khora
