import Khora.Lib.FindUnion
import Khora.Lib.Runs
import Khora.Lib.Table
import Mathlib.Data.List.Flatten
import Mathlib.Data.List.MinMax
import Mathlib.Data.Prod.Lex
import Mathlib.Order.WellFoundedSet
import Mathlib.Algebra.Order.Ring.Rat

/-!
# Clusters of events

`chronicle/event_clustering.py` joins the events of a subject that are similar and close in time, keeps the best of
each cluster and points the others at it.

* `mem_clusterSets` — the clusters are the connected components with two or more events.
* `Sound.step` — a pointer leads to a better event of the same subject.
* `Sound.reaches_live` — following the pointers ends in a live event.
* `merges_plan` — there is one op for each cluster, and it merges the cluster.
* `eventClustering_correct` — all of it, over every list of events and every history.
-/

namespace Khora

namespace EventClustering

open DisjointSets FindUnion

/-! ## The table -/

/-- The columns of `chronicle_events` that the op reads or writes; times are instants in microseconds. -/
structure EventRow (Id V : Type) where
  id : Id
  namespaceId : Id
  chunkId : Id
  subject : String
  verb : String
  object : String
  referencedDate : Option ℤ
  observationDate : ℤ
  confidence : ℚ
  embedding : Option V
  invalidatedAt : Option ℤ
  invalidatedBy : Option Id
  mergedIntoEventId : Option Id

abbrev EventTable (Id V : Type) := Table Id (EventRow Id V) EventRow.id

structure ClusteringConfig where
  cosineThreshold : ℚ
  windowDays : ℤ

variable {Id V : Type}

/-! ## Clusters -/

section Cluster

variable (cfg : ClusteringConfig) (similarity : V → V → ℚ)

def microsPerDay : ℤ := 86400000000

/-- The rows that `_fetch_events` returns have both. -/
def fetchable (ns : Id) [DecidableEq Id] (r : EventRow Id V) : Bool :=
  r.namespaceId = ns && r.embedding.isSome && r.referencedDate.isSome && r.invalidatedAt.isNone

/-- `_fetch_events` -/
def fetchEvents [DecidableEq Id] (ns : Id) (table : EventTable Id V) : List (EventRow Id V) :=
  table.rows.filter (fetchable ns)

/-- `batch_dot_product`: the indices of the candidates with a score of at least the threshold, best first. -/
def batchDotProduct (query : Option V) (candidates : List (Option V)) : List (ℕ × ℚ) :=
  ((candidates.zipIdx.filterMap fun (candidate, j) =>
    match query, candidate with
    | some u, some v => if cfg.cosineThreshold ≤ similarity u v then some (j, similarity u v) else none
    | _, _ => none)).mergeSort fun a b => b.2 ≤ a.2

/-- `abs(row_i.referenced_date - row_j.referenced_date) <= window` -/
def inWindow (a b : EventRow Id V) : Bool :=
  match a.referencedDate, b.referencedDate with
  | some s, some t => |s - t| ≤ cfg.windowDays * microsPerDay
  | _, _ => false

/-- The pairs of indices that the loops over a bucket unite, in their order. -/
def unitedPairs (bucket : List (EventRow Id V)) : List (ℕ × ℕ) :=
  bucket.zipIdx.flatMap fun (row, i) =>
    (batchDotProduct cfg similarity row.embedding (bucket.map EventRow.embedding)).filterMap fun (j, _) =>
      if i < j && (bucket[j]?.any (inWindow cfg row)) then some (i, j) else none

/-- The clusters of a bucket. -/
def clusterBucket (bucket : List (EventRow Id V)) : List (List (EventRow Id V)) :=
  let n := bucket.length
  if n < 2 then []
  else
    let parent := unionAll (halve n) (unitedPairs cfg similarity bucket)
    (((groupAll (halve n) parent (List.range n)).items.map Prod.snd).map fun indices =>
      indices.filterMap fun i => bucket[i]?).filter fun members => 2 ≤ members.length

/-- `_cluster_events` -/
def clusterEvents (rows : List (EventRow Id V)) : List (List (EventRow Id V)) :=
  ((Grouping.groupBy EventRow.subject rows).items.map Prod.snd).flatMap (clusterBucket cfg similarity)

end Cluster

/-! ## Ops -/

-- the keys hold integers, whose order as a complete lattice is not computable
local instance intPartialOrder : PartialOrder ℤ := LinearOrder.toPartialOrder

local instance lawfulId [LinearOrder Id] : LawfulBEq Id := inferInstance

section Ops

variable [LinearOrder Id]

/-- `(r.confidence, r.observation_date, -int(r.event_id.int))` -/
def canonicalKey (r : EventRow Id V) : ℚ ×ₗ ℤ ×ₗ Idᵒᵈ :=
  toLex (r.confidence, toLex (r.observationDate, OrderDual.toDual r.id))

/-- The op, with its `inputs[0]`. -/
structure ClusterOp (Id : Type) where
  opId : Id
  canonicalId : Id
  mergedEventIds : List Id

/-- `_build_op`; a cluster is not empty. -/
def buildOp (opIdOf : Id → Id) (cluster : List (EventRow Id V)) : Option (ClusterOp Id) :=
  (cluster.argmax canonicalKey).map fun canonical =>
    { opId := opIdOf canonical.id
      canonicalId := canonical.id
      mergedEventIds := (cluster.map EventRow.id).mergeSort (· ≤ ·) }

/-- `plan_chronicle_event_clustering` -/
def plan (cfg : ClusteringConfig) (similarity : V → V → ℚ) (opIdOf : Id → Id) (ns : Id) (table : EventTable Id V) :
    List (ClusterOp Id) :=
  (clusterEvents cfg similarity (fetchEvents ns table)).filterMap (buildOp opIdOf)

/-- The ids other than the canonical. -/
def ClusterOp.tailIds (op : ClusterOp Id) : List Id := op.mergedEventIds.filter (· ≠ op.canonicalId)

/-- The assignments of `_soft_merge_tails`. -/
def EventRow.softMerge (now : ℤ) (op : ClusterOp Id) (r : EventRow Id V) : EventRow Id V :=
  { r with invalidatedAt := some now, invalidatedBy := some op.opId, mergedIntoEventId := some op.canonicalId }

/-- `UPDATE ... WHERE id = :tail_id AND invalidated_at IS NULL` -/
def softMergeTail (now : ℤ) (op : ClusterOp Id) (table : EventTable Id V) (tail : Id) : EventTable Id V :=
  table.update (fun r => r.id = tail && r.invalidatedAt.isNone) (EventRow.softMerge now op) fun _ => rfl

/-- What the undo record keeps of a tail. -/
structure PreviousState (Id : Type) where
  id : Id
  invalidatedAt : Option ℤ
  invalidatedBy : Option Id
  mergedIntoEventId : Option Id

/-- `_capture_previous_states` -/
def capturePreviousStates (table : EventTable Id V) (tailIds : List Id) : List (PreviousState Id) :=
  (table.rows.filter fun r => r.id ∈ tailIds).map fun r =>
    ⟨r.id, r.invalidatedAt, r.invalidatedBy, r.mergedIntoEventId⟩

/-- `apply_chronicle_event_clustering`: the table, and what the undo record has of the cluster. -/
def applyOp (now : ℤ) (op : ClusterOp Id) (table : EventTable Id V) : EventTable Id V × List (PreviousState Id) :=
  (op.tailIds.foldl (softMergeTail now op) table, capturePreviousStates table op.tailIds)

end Ops

/-! ## The clusters are the components -/

section Components

variable (cfg : ClusteringConfig) (similarity : V → V → ℚ)

/-- The cosine of two rows reaches the threshold. -/
def similar (a b : EventRow Id V) : Bool :=
  match a.embedding, b.embedding with
  | some u, some v => cfg.cosineThreshold ≤ similarity u v
  | _, _ => false

/-- Two rows are joined: of one subject, similar and within the window. -/
def Linked (rows : List (EventRow Id V)) (a b : EventRow Id V) : Prop :=
  a ∈ rows ∧ b ∈ rows ∧ a.subject = b.subject ∧ similar cfg similarity a b = true ∧ inWindow cfg a b = true

/-- The rows that links connect with a row. -/
def component (rows : List (EventRow Id V)) (a : EventRow Id V) : Set (EventRow Id V) :=
  { b | b ∈ rows ∧ Relation.EqvGen (Linked cfg similarity rows) a b }

variable {cfg similarity}

theorem mem_batchDotProduct {query : Option V} {candidates : List (Option V)} {j : ℕ} {score : ℚ} :
    (j, score) ∈ batchDotProduct cfg similarity query candidates ↔
      ∃ u v, query = some u ∧ candidates[j]? = some (some v) ∧ cfg.cosineThreshold ≤ similarity u v ∧
        score = similarity u v := by
  simp only [batchDotProduct, List.mem_mergeSort, List.mem_filterMap, Prod.exists, List.mk_mem_zipIdx_iff_getElem?]
  constructor
  · rintro ⟨candidate, i, hget, hsome⟩
    cases query with
    | none => simp at hsome
    | some u =>
        cases candidate with
        | none => simp at hsome
        | some v =>
            by_cases hle : cfg.cosineThreshold ≤ similarity u v
            · simp only [if_pos hle, Option.some.injEq, Prod.mk.injEq] at hsome
              obtain ⟨rfl, rfl⟩ := hsome
              exact ⟨u, v, rfl, hget, hle, rfl⟩
            · simp [if_neg hle] at hsome
  · rintro ⟨u, v, rfl, hget, hle, rfl⟩
    exact ⟨some v, j, hget, by simp [hle]⟩

theorem mem_unitedPairs {bucket : List (EventRow Id V)} {i j : ℕ} :
    (i, j) ∈ unitedPairs cfg similarity bucket ↔ i < j ∧ ∃ a b, bucket[i]? = some a ∧ bucket[j]? = some b ∧
      similar cfg similarity a b = true ∧ inWindow cfg a b = true := by
  simp only [unitedPairs, List.mem_flatMap, List.mem_filterMap, Prod.exists, List.mk_mem_zipIdx_iff_getElem?,
    mem_batchDotProduct, List.getElem?_map]
  constructor
  · rintro ⟨a, i', ha, j', score, ⟨u, v, hu, hv, hle, -⟩, hsome⟩
    split at hsome
    · rename_i hcond
      simp only [Option.some.injEq, Prod.mk.injEq] at hsome
      obtain ⟨rfl, rfl⟩ := hsome
      obtain ⟨hlt, hany⟩ := Bool.and_eq_true_iff.mp hcond
      obtain ⟨b, hb, hev⟩ := Option.map_eq_some_iff.mp hv
      refine ⟨of_decide_eq_true hlt, a, b, ha, hb, ?_, ?_⟩
      · simp [similar, hu, hev, hle]
      · simpa [hb] using hany
    · cases hsome
  · rintro ⟨hlt, a, b, ha, hb, hsim, hwin⟩
    unfold similar at hsim
    cases hu : a.embedding with
    | none => simp [hu] at hsim
    | some u =>
        cases hv : b.embedding with
        | none => simp [hu, hv] at hsim
        | some v =>
            simp only [hu, hv, decide_eq_true_eq] at hsim
            refine ⟨a, i, ha, j, similarity u v, ⟨u, v, hu, by simp [hb, hv], hsim, rfl⟩, ?_⟩
            simp [hlt, hb, hwin]

theorem similar_symm (hsymm : ∀ u v, similarity u v = similarity v u) (a b : EventRow Id V) :
    similar cfg similarity a b = similar cfg similarity b a := by
  unfold similar
  cases a.embedding with
  | none => cases b.embedding <;> rfl
  | some u =>
      cases b.embedding with
      | none => rfl
      | some v => simp only [hsymm u v]

theorem inWindow_symm (a b : EventRow Id V) : inWindow cfg a b = inWindow cfg b a := by
  unfold inWindow
  cases a.referencedDate with
  | none => cases b.referencedDate <;> rfl
  | some s =>
      cases b.referencedDate with
      | none => rfl
      | some t => simp only [abs_sub_comm s t]

section Bucket

variable {bucket : List (EventRow Id V)}

/-- Connected positions hold connected rows. -/
theorem eqvGen_of_connected (hsubject : ∀ a ∈ bucket, ∀ b ∈ bucket, a.subject = b.subject) {i j : ℕ}
    (h : Connected (unitedPairs cfg similarity bucket) i j) :
    i = j ∨ ∃ a b, bucket[i]? = some a ∧ bucket[j]? = some b ∧
      Relation.EqvGen (Linked cfg similarity bucket) a b := by
  induction h with
  | rel i j hpair =>
      obtain ⟨-, a, b, ha, hb, hsim, hwin⟩ := mem_unitedPairs.mp hpair
      have hma := List.mem_of_getElem? ha
      have hmb := List.mem_of_getElem? hb
      exact Or.inr ⟨a, b, ha, hb, .rel _ _ ⟨hma, hmb, hsubject a hma b hmb, hsim, hwin⟩⟩
  | refl i => exact Or.inl rfl
  | symm i j _ ih =>
      rcases ih with rfl | ⟨a, b, ha, hb, hab⟩
      · exact Or.inl rfl
      · exact Or.inr ⟨b, a, hb, ha, .symm _ _ hab⟩
  | trans i j k _ _ ih ih' =>
      rcases ih with rfl | ⟨a, b, ha, hb, hab⟩
      · exact ih'
      rcases ih' with rfl | ⟨b', c, hb', hc, hbc⟩
      · exact Or.inr ⟨a, b, ha, hb, hab⟩
      · obtain rfl : b = b' := by simpa [hb] using hb'
        exact Or.inr ⟨a, c, ha, hc, .trans _ _ _ hab hbc⟩

/-- Connected rows stand at connected positions. -/
theorem connected_of_eqvGen (hsymm : ∀ u v, similarity u v = similarity v u) {a b : EventRow Id V}
    (h : Relation.EqvGen (Linked cfg similarity bucket) a b) :
    a = b ∨ a ∈ bucket ∧ b ∈ bucket ∧ ∀ i j, bucket[i]? = some a → bucket[j]? = some b →
      Connected (unitedPairs cfg similarity bucket) i j := by
  induction h with
  | rel a b hlink =>
      obtain ⟨ha, hb, -, hsim, hwin⟩ := hlink
      refine Or.inr ⟨ha, hb, ?_⟩
      intro i j hi hj
      rcases lt_trichotomy i j with hlt | rfl | hlt
      · exact .rel _ _ (mem_unitedPairs.mpr ⟨hlt, a, b, hi, hj, hsim, hwin⟩)
      · exact .refl _
      · apply Relation.EqvGen.symm
        exact .rel _ _ (mem_unitedPairs.mpr ⟨hlt, b, a, hj, hi, by rw [similar_symm hsymm]; exact hsim,
          by rw [inWindow_symm]; exact hwin⟩)
  | refl a => exact Or.inl rfl
  | symm a b _ ih =>
      rcases ih with rfl | ⟨ha, hb, hij⟩
      · exact Or.inl rfl
      · exact Or.inr ⟨hb, ha, fun i j hi hj => .symm _ _ (hij j i hj hi)⟩
  | trans a b c _ _ ih ih' =>
      rcases ih with rfl | ⟨ha, hb, hab⟩
      · exact ih'
      rcases ih' with rfl | ⟨-, hc, hbc⟩
      · exact Or.inr ⟨ha, hb, hab⟩
      · obtain ⟨k, hk⟩ := List.getElem?_of_mem hb
        exact Or.inr ⟨ha, hc, fun i j hi hj => .trans _ _ _ (hab i k hi hk) (hbc k j hk hj)⟩

theorem connected_iff (hsymm : ∀ u v, similarity u v = similarity v u) (hnodup : bucket.Nodup)
    (hsubject : ∀ a ∈ bucket, ∀ b ∈ bucket, a.subject = b.subject) {i j : ℕ} {a b : EventRow Id V}
    (ha : bucket[i]? = some a) (hb : bucket[j]? = some b) :
    Connected (unitedPairs cfg similarity bucket) i j ↔ Relation.EqvGen (Linked cfg similarity bucket) a b := by
  constructor
  · intro h
    rcases eqvGen_of_connected hsubject h with rfl | ⟨a', b', ha', hb', hab⟩
    · obtain rfl : a = b := by simpa [ha] using hb
      exact .refl a
    · obtain rfl : a = a' := by simpa [ha] using ha'
      obtain rfl : b = b' := by simpa [hb] using hb'
      exact hab
  · intro h
    rcases connected_of_eqvGen hsymm h with rfl | ⟨-, -, hij⟩
    · -- one row stands at one position
      obtain ⟨hi, hai⟩ := List.getElem?_eq_some_iff.mp ha
      obtain ⟨hj, hbj⟩ := List.getElem?_eq_some_iff.mp hb
      obtain rfl : i = j := (hnodup.getElem_inj_iff).mp (hai.trans hbj.symm)
      exact .refl i
    · exact hij i j ha hb

/-- The groups of the positions, by connection. -/
theorem clusterBucket_eq {K : Type} [DecidableEq K] {key : ℕ → K}
    (hkey : ∀ i j, key i = key j ↔ Connected (unitedPairs cfg similarity bucket) i j) :
    clusterBucket cfg similarity bucket = ((Grouping.groups key (List.range bucket.length)).map fun indices =>
      indices.filterMap fun i => bucket[i]?).filter fun members => 2 ≤ members.length := by
  unfold clusterBucket
  simp only
  by_cases hn : bucket.length < 2
  · rw [if_pos hn]
    -- a group of one position at most is dropped
    symm
    rw [List.filter_eq_nil_iff]
    intro members hmem
    obtain ⟨indices, hindices, rfl⟩ := List.mem_map.mp hmem
    obtain ⟨i, -, rfl⟩ := Grouping.mem_groups.mp hindices
    have h1 := List.length_filterMap_le (fun i => bucket[i]?)
      ((List.range bucket.length).filter fun j => decide (key j = key i))
    have h2 := List.length_filter_le (fun j => decide (key j = key i)) (List.range bucket.length)
    rw [List.length_range] at h2
    simp only [decide_eq_true_eq]
    omega
  · have hpairs : ∀ p ∈ unitedPairs cfg similarity bucket,
        p.1 ∈ Finset.range bucket.length ∧ p.2 ∈ Finset.range bucket.length := by
      rintro ⟨i, j⟩ hp
      obtain ⟨-, a, b, ha, hb, -⟩ := mem_unitedPairs.mp hp
      exact ⟨Finset.mem_range.mpr (List.getElem?_eq_some_iff.mp ha).1,
        Finset.mem_range.mpr (List.getElem?_eq_some_iff.mp hb).1⟩
    rw [if_neg hn, groupAll_eq (find_halve (by simp)) hpairs hkey]

theorem two_le_length_iff {A : Type} {l : List A} (hnodup : l.Nodup) {a : A} (ha : a ∈ l) :
    2 ≤ l.length ↔ ∃ b ∈ l, b ≠ a := by
  constructor
  · intro hlen
    match l, hlen, hnodup with
    | x :: y :: l, _, hnodup =>
        by_cases hx : x = a
        · refine ⟨y, by simp, ?_⟩
          rintro rfl
          exact (List.nodup_cons.mp hnodup).1 (by simp [hx])
        · exact ⟨x, by simp, hx⟩
  · rintro ⟨b, hb, hne⟩
    match l, ha, hb with
    | [x], ha, hb =>
        rw [List.mem_singleton.mp ha, List.mem_singleton.mp hb] at hne
        exact absurd rfl hne
    | x :: y :: l, _, _ => simp

/-- **The clusters of a bucket** are the sets of rows that links connect, from two rows on. -/
theorem mem_clusterBucket (hsymm : ∀ u v, similarity u v = similarity v u) (hnodup : bucket.Nodup)
    (hsubject : ∀ a ∈ bucket, ∀ b ∈ bucket, a.subject = b.subject) (s : Set (EventRow Id V)) :
    (∃ members ∈ clusterBucket cfg similarity bucket, { b | b ∈ members } = s) ↔
      ∃ a ∈ bucket, s = component cfg similarity bucket a ∧ ∃ b ∈ s, b ≠ a := by
  classical
  have hkey := mk_eq_mk_iff (unitedPairs cfg similarity bucket)
  rw [clusterBucket_eq hkey]
  -- the rows at the positions of a group
  have hgroup : ∀ {i : ℕ} {a : EventRow Id V}, bucket[i]? = some a → ∀ b,
      b ∈ (((List.range bucket.length).filter fun j => decide (Quot.mk
        (Connected (unitedPairs cfg similarity bucket)) j = Quot.mk _ i)).filterMap fun j => bucket[j]?) ↔
        b ∈ component cfg similarity bucket a := by
    intro i a ha b
    simp only [Set.mem_ofPred_eq, List.mem_filterMap, List.mem_filter, List.mem_range, decide_eq_true_eq, hkey,
      component]
    constructor
    · rintro ⟨j, ⟨-, hj⟩, hb⟩
      exact ⟨List.mem_of_getElem? hb, .symm _ _ ((connected_iff hsymm hnodup hsubject hb ha).mp hj)⟩
    · rintro ⟨hb, hab⟩
      obtain ⟨j, hj⟩ := List.getElem?_of_mem hb
      exact ⟨j, ⟨(List.getElem?_eq_some_iff.mp hj).1,
        (connected_iff hsymm hnodup hsubject hj ha).mpr (.symm _ _ hab)⟩, hj⟩
  have hsub : ∀ i, (((List.range bucket.length).filter fun j => decide (Quot.mk
      (Connected (unitedPairs cfg similarity bucket)) j = Quot.mk _ i)).filterMap fun j => bucket[j]?).Nodup := by
    intro i
    have hsub := (List.filter_sublist (p := fun j => decide (Quot.mk
      (Connected (unitedPairs cfg similarity bucket)) j = Quot.mk _ i)) (l := List.range bucket.length)).filterMap
        fun j => bucket[j]?
    rw [Grouping.filterMap_getElem?_range] at hsub
    exact hsub.nodup hnodup
  constructor
  · rintro ⟨members, hmem, rfl⟩
    obtain ⟨hmem, hlen⟩ := List.mem_filter.mp hmem
    obtain ⟨indices, hindices, rfl⟩ := List.mem_map.mp hmem
    obtain ⟨i, hi, rfl⟩ := Grouping.mem_groups.mp hindices
    have ha := List.getElem?_eq_getElem (List.mem_range.mp hi)
    refine ⟨_, List.getElem_mem (List.mem_range.mp hi), Set.ext (hgroup ha), ?_⟩
    apply (two_le_length_iff (hsub i) ?_).mp (of_decide_eq_true hlen)
    rw [hgroup ha]
    exact ⟨List.getElem_mem (List.mem_range.mp hi), .refl _⟩
  · rintro ⟨a, ha, rfl, b, hb, hne⟩
    obtain ⟨i, hi⟩ := List.getElem?_of_mem ha
    refine ⟨_, List.mem_filter.mpr ⟨List.mem_map.mpr ⟨_, Grouping.mem_groups.mpr
      ⟨i, List.mem_range.mpr (List.getElem?_eq_some_iff.mp hi).1, rfl⟩, rfl⟩, ?_⟩, Set.ext (hgroup hi)⟩
    apply decide_eq_true
    apply (two_le_length_iff (hsub i) ?_).mpr ⟨b, (hgroup hi b).mpr hb, hne⟩
    rw [hgroup hi]
    exact ⟨ha, .refl _⟩

end Bucket

section Rows

variable {rows : List (EventRow Id V)}

theorem mem_clusterEvents_iff {members : List (EventRow Id V)} :
    members ∈ clusterEvents cfg similarity rows ↔
      ∃ x ∈ rows, members ∈ clusterBucket cfg similarity (rows.filter fun r => r.subject = x.subject) := by
  simp only [clusterEvents, Grouping.values_groupBy, List.mem_flatMap, Grouping.mem_groups]
  constructor
  · rintro ⟨_, ⟨x, hx, rfl⟩, hmem⟩
    exact ⟨x, hx, hmem⟩
  · rintro ⟨x, hx, hmem⟩
    exact ⟨_, ⟨x, hx, rfl⟩, hmem⟩

/-- Links stay in the bucket of a subject. -/
theorem eqvGen_bucket {a b : EventRow Id V} (h : Relation.EqvGen (Linked cfg similarity rows) a b) :
    a.subject = b.subject ∧
      Relation.EqvGen (Linked cfg similarity (rows.filter fun r => r.subject = a.subject)) a b := by
  induction h with
  | rel a b hlink =>
      obtain ⟨ha, hb, hsubject, hsim, hwin⟩ := hlink
      refine ⟨hsubject, .rel _ _ ⟨?_, ?_, hsubject, hsim, hwin⟩⟩
      · exact List.mem_filter.mpr ⟨ha, decide_eq_true rfl⟩
      · exact List.mem_filter.mpr ⟨hb, decide_eq_true hsubject.symm⟩
  | refl a => exact ⟨rfl, .refl _⟩
  | symm a b _ ih =>
      rw [← ih.1]
      exact ⟨rfl, .symm _ _ ih.2⟩
  | trans a b c _ _ ih ih' =>
      rw [← ih.1] at ih'
      exact ⟨ih'.1, .trans _ _ _ ih.2 ih'.2⟩

theorem component_bucket {a : EventRow Id V} :
    component cfg similarity (rows.filter fun r => r.subject = a.subject) a = component cfg similarity rows a := by
  ext b
  simp only [component, Set.mem_ofPred_eq, List.mem_filter, decide_eq_true_eq]
  constructor
  · rintro ⟨⟨hb, -⟩, hab⟩
    refine ⟨hb, hab.mono ?_⟩
    rintro x y ⟨hx, hy, hrest⟩
    exact ⟨(List.mem_filter.mp hx).1, (List.mem_filter.mp hy).1, hrest⟩
  · rintro ⟨hb, hab⟩
    obtain ⟨hsubject, hab'⟩ := eqvGen_bucket hab
    exact ⟨⟨hb, hsubject.symm⟩, hab'⟩

/-- The clusters, as sets. -/
def clusterSets (cfg : ClusteringConfig) (similarity : V → V → ℚ) (rows : List (EventRow Id V)) :
    Set (Set (EventRow Id V)) :=
  { s | ∃ members ∈ clusterEvents cfg similarity rows, { b | b ∈ members } = s }

/-- **The clusters are the connected components with two or more events.** -/
theorem mem_clusterSets (hsymm : ∀ u v, similarity u v = similarity v u) (hnodup : (rows.map EventRow.id).Nodup)
    (s : Set (EventRow Id V)) :
    s ∈ clusterSets cfg similarity rows ↔ ∃ a ∈ rows, s = component cfg similarity rows a ∧ ∃ b ∈ s, b ≠ a := by
  have hrows : rows.Nodup := hnodup.of_map _
  have hbucket : ∀ x : EventRow Id V, (rows.filter fun r => r.subject = x.subject).Nodup := fun x =>
    hrows.filter _
  have hsubject : ∀ x : EventRow Id V, ∀ a ∈ rows.filter (fun r => r.subject = x.subject),
      ∀ b ∈ rows.filter (fun r => r.subject = x.subject), a.subject = b.subject := by
    intro x a ha b hb
    exact (of_decide_eq_true (List.mem_filter.mp ha).2).trans (of_decide_eq_true (List.mem_filter.mp hb).2).symm
  constructor
  · rintro ⟨members, hmem, hs⟩
    obtain ⟨x, hx, hmem⟩ := mem_clusterEvents_iff.mp hmem
    obtain ⟨a, ha, hcomp, hother⟩ := (mem_clusterBucket hsymm (hbucket x) (hsubject x) s).mp ⟨members, hmem, hs⟩
    obtain ⟨ha, hax⟩ := List.mem_filter.mp ha
    refine ⟨a, ha, ?_, hother⟩
    rw [hcomp, ← of_decide_eq_true hax, component_bucket]
  · rintro ⟨a, ha, hcomp, hother⟩
    obtain ⟨members, hmem, hs⟩ := (mem_clusterBucket hsymm (hbucket a) (hsubject a) s).mpr
      ⟨a, List.mem_filter.mpr ⟨ha, decide_eq_true rfl⟩, by rw [component_bucket]; exact hcomp, hother⟩
    exact ⟨members, mem_clusterEvents_iff.mpr ⟨a, ha, hmem⟩, hs⟩

/-- **The clusters do not depend on the order of the rows.** -/
theorem clusterSets_perm (hsymm : ∀ u v, similarity u v = similarity v u) (hnodup : (rows.map EventRow.id).Nodup)
    {rows' : List (EventRow Id V)} (hperm : rows.Perm rows') :
    clusterSets cfg similarity rows = clusterSets cfg similarity rows' := by
  have hlinked : Linked cfg similarity rows = Linked cfg similarity rows' := by
    funext a b
    simp only [Linked, hperm.mem_iff]
  have hcomponent : component cfg similarity rows = component cfg similarity rows' := by
    funext a
    simp only [component, hlinked, hperm.mem_iff]
  ext s
  rw [mem_clusterSets hsymm hnodup, mem_clusterSets hsymm ((hperm.map _).nodup_iff.mp hnodup), hcomponent]
  simp only [hperm.mem_iff]

theorem two_le_of_mem_clusterEvents {members : List (EventRow Id V)}
    (h : members ∈ clusterEvents cfg similarity rows) : 2 ≤ members.length := by
  obtain ⟨x, -, hmem⟩ := mem_clusterEvents_iff.mp h
  unfold clusterBucket at hmem
  dsimp only at hmem
  split at hmem
  · exact absurd hmem List.not_mem_nil
  · exact of_decide_eq_true (List.mem_filter.mp hmem).2

theorem flatten_clusterBucket (bucket : List (EventRow Id V)) :
    (clusterBucket cfg similarity bucket).flatten.Subperm bucket := by
  classical
  rw [clusterBucket_eq (mk_eq_mk_iff _)]
  have hall : ((Grouping.groups (Quot.mk (Connected (unitedPairs cfg similarity bucket)))
      (List.range bucket.length)).map fun indices => indices.filterMap fun i => bucket[i]?).flatten.Perm bucket := by
    rw [← List.filterMap_flatten]
    refine ((Grouping.flatten_groups_perm _ _).filterMap _).trans ?_
    rw [Grouping.filterMap_getElem?_range]
  exact (List.Sublist.flatten List.filter_sublist).subperm.trans hall.subperm

/-- No event is in two clusters, nor twice in one. -/
theorem flatten_clusterEvents (rows : List (EventRow Id V)) :
    (clusterEvents cfg similarity rows).flatten.Subperm rows := by
  have hbuckets : ∀ buckets : List (List (EventRow Id V)),
      (buckets.flatMap (clusterBucket cfg similarity)).flatten.Subperm buckets.flatten := by
    intro buckets
    induction buckets with
    | nil => exact List.Subperm.refl _
    | cons bucket buckets ih =>
        rw [List.flatMap_cons, List.flatten_append, List.flatten_cons]
        exact (flatten_clusterBucket bucket).append ih
  unfold clusterEvents
  rw [Grouping.values_groupBy]
  exact (hbuckets _).trans (Grouping.flatten_groups_perm _ _).subperm

end Rows

end Components

/-! ## The ops are those of the clusters -/

section Merges

variable [LinearOrder Id] {opIdOf : Id → Id}

/-- The op merges these events, two or more, into the best of them. -/
structure Merges (opIdOf : Id → Id) (members : List (EventRow Id V)) (op : ClusterOp Id) : Prop where
  two_le : 2 ≤ members.length
  canonical : ∃ c ∈ members, c.id = op.canonicalId ∧ ∀ r ∈ members, canonicalKey r ≤ canonicalKey c
  opId : op.opId = opIdOf op.canonicalId
  merged : op.mergedEventIds.Perm (members.map EventRow.id)

theorem merges_buildOp {members : List (EventRow Id V)} (h : 2 ≤ members.length) :
    ∃ op, buildOp opIdOf members = some op ∧ Merges opIdOf members op := by
  unfold buildOp
  cases hargmax : members.argmax canonicalKey with
  | none =>
      rw [List.argmax_eq_none.mp hargmax] at h
      exact absurd h (by simp)
  | some c =>
      exact ⟨_, rfl, h, ⟨c, List.argmax_mem hargmax, rfl, fun r hr => List.le_of_mem_argmax hr hargmax⟩, rfl,
        List.mergeSort_perm _ _⟩

/-- **There is one op for each cluster**, and no other. -/
theorem merges_plan (cfg : ClusteringConfig) (similarity : V → V → ℚ) (ns : Id) (table : EventTable Id V) :
    List.Forall₂ (Merges opIdOf) (clusterEvents cfg similarity (fetchEvents ns table))
      (plan cfg similarity opIdOf ns table) := by
  have hclusters : ∀ clusters : List (List (EventRow Id V)), (∀ members ∈ clusters, 2 ≤ members.length) →
      List.Forall₂ (Merges opIdOf) clusters (clusters.filterMap (buildOp opIdOf)) := by
    intro clusters
    induction clusters with
    | nil => exact fun _ => .nil
    | cons members clusters ih =>
        intro h
        obtain ⟨htwo, hrest⟩ := List.forall_mem_cons.mp h
        obtain ⟨op, hop, hmerges⟩ := merges_buildOp htwo
        rw [List.filterMap_cons, hop]
        exact .cons hmerges (ih hrest)
  exact hclusters _ fun members hmem => two_le_of_mem_clusterEvents hmem

end Merges

/-! ## Histories -/

section History

variable [LinearOrder Id]

/-- An action on the table: an ingest, a run of the planner, or the handler on the op of a place in the plans. -/
inductive Action (Id V : Type) where
  | insert (r : EventRow Id V)
  | plan (cfg : ClusteringConfig) (opIdOf : Id → Id) (ns : Id)
  | apply (place : ℕ) (now : ℤ)

/-- The table, with all ops that were planned and those that were applied. -/
structure State (Id V : Type) where
  table : EventTable Id V
  planned : List (ClusterOp Id)
  applied : List (ClusterOp Id)

def emptyTable : EventTable Id V := ⟨[], List.nodup_nil⟩

def initial : State Id V := ⟨emptyTable, [], []⟩

/-- A row as it is inserted. -/
def EventRow.fresh (r : EventRow Id V) : EventRow Id V :=
  { r with invalidatedAt := none, invalidatedBy := none, mergedIntoEventId := none }

variable (similarity : V → V → ℚ)

/-- One action; an insertion that meets its key, and an op that was not planned, change nothing. -/
def step (s : State Id V) : Action Id V → State Id V
  | .insert r => { s with table := (s.table.insert r.fresh).getD s.table }
  | .plan cfg opIdOf ns => { s with planned := s.planned ++ plan cfg similarity opIdOf ns s.table }
  | .apply place now =>
      match s.planned[place]? with
      | some op => { s with table := (applyOp now op s.table).1, applied := s.applied ++ [op] }
      | none => s

/-- The handler on a row. -/
def mergeRow (now : ℤ) (op : ClusterOp Id) (r : EventRow Id V) : EventRow Id V :=
  if r.id ∈ op.tailIds ∧ r.invalidatedAt = none then r.softMerge now op else r

theorem rows_softMergeTail (now : ℤ) (op : ClusterOp Id) (table : EventTable Id V) (tail : Id) :
    (softMergeTail now op table tail).rows = table.rows.map fun r =>
      if (r.id = tail && r.invalidatedAt.isNone) = true then r.softMerge now op else r := rfl

/-- **The handler retires the live tails** and leaves the other rows alone. -/
theorem rows_applyOp (now : ℤ) (op : ClusterOp Id) (table : EventTable Id V) :
    (applyOp now op table).1.rows = table.rows.map (mergeRow now op) := by
  have hfold : ∀ (tails : List Id) (table : EventTable Id V),
      (tails.foldl (softMergeTail now op) table).rows = table.rows.map fun r =>
        if r.id ∈ tails ∧ r.invalidatedAt = none then r.softMerge now op else r := by
    intro tails
    induction tails with
    | nil => simp
    | cons tail tails ih =>
        intro table
        rw [List.foldl_cons, ih, rows_softMergeTail, List.map_map]
        apply List.map_congr_left
        intro r _
        cases hlive : r.invalidatedAt with
        | none =>
            by_cases htail : r.id = tail
            · simp [hlive, htail, EventRow.softMerge]
            · simp [hlive, htail]
        | some t => simp [hlive]
  exact hfold op.tailIds table

@[simp] theorem mergeRow_id (now : ℤ) (op : ClusterOp Id) (r : EventRow Id V) : (mergeRow now op r).id = r.id := by
  unfold mergeRow
  split <;> rfl

@[simp] theorem mergeRow_subject (now : ℤ) (op : ClusterOp Id) (r : EventRow Id V) :
    (mergeRow now op r).subject = r.subject := by
  unfold mergeRow
  split <;> rfl

@[simp] theorem mergeRow_chunkId (now : ℤ) (op : ClusterOp Id) (r : EventRow Id V) :
    (mergeRow now op r).chunkId = r.chunkId := by
  unfold mergeRow
  split <;> rfl

@[simp] theorem canonicalKey_mergeRow (now : ℤ) (op : ClusterOp Id) (r : EventRow Id V) :
    canonicalKey (mergeRow now op r) = canonicalKey r := by
  unfold mergeRow
  split <;> rfl

theorem mergeRow_of_retired {now : ℤ} {op : ClusterOp Id} {r : EventRow Id V} (h : r.invalidatedAt ≠ none) :
    mergeRow now op r = r := if_neg fun hlive => h hlive.2

/-! ## What every history keeps -/

/-- The row `r` may point at the event `c`: a better event of the same subject. -/
def Better (rows : List (EventRow Id V)) (r : EventRow Id V) (c : Id) : Prop :=
  ∃ t ∈ rows, t.id = c ∧ t.subject = r.subject ∧ canonicalKey r < canonicalKey t

/-- Every pointer leads to a better event of the subject, the retired events are those with pointers, every tail of
an op may point at its canonical, and the tails of the applied ops are retired. -/
structure Sound (s : State Id V) : Prop where
  pointers : ∀ r ∈ s.table.rows, ∀ c, r.mergedIntoEventId = some c → Better s.table.rows r c
  retired : ∀ r ∈ s.table.rows, r.invalidatedAt = none ↔ r.mergedIntoEventId = none
  tails : ∀ op ∈ s.planned, ∀ i ∈ op.tailIds, ∃ r ∈ s.table.rows, r.id = i ∧ Better s.table.rows r op.canonicalId
  applied : ∀ op ∈ s.applied, op ∈ s.planned ∧
    ∀ i ∈ op.tailIds, ∀ r ∈ s.table.rows, r.id = i → r.invalidatedAt ≠ none

theorem sound_initial : Sound (initial : State Id V) where
  pointers _ h := absurd h List.not_mem_nil
  retired _ h := absurd h List.not_mem_nil
  tails _ h := absurd h List.not_mem_nil
  applied _ h := absurd h List.not_mem_nil

/-- Two versions of one event. -/
structure SameEvent (r r' : EventRow Id V) : Prop where
  id : r'.id = r.id
  subject : r'.subject = r.subject
  chunkId : r'.chunkId = r.chunkId
  key : canonicalKey r' = canonicalKey r

omit [LinearOrder Id] in
theorem SameEvent.refl (r : EventRow Id V) : SameEvent r r := ⟨rfl, rfl, rfl, rfl⟩

omit [LinearOrder Id] in
theorem SameEvent.trans {r r' r'' : EventRow Id V} (h : SameEvent r r') (h' : SameEvent r' r'') : SameEvent r r'' where
  id := h'.id.trans h.id
  subject := h'.subject.trans h.subject
  chunkId := h'.chunkId.trans h.chunkId
  key := h'.key.trans h.key

theorem sameEvent_mergeRow (now : ℤ) (op : ClusterOp Id) (r : EventRow Id V) : SameEvent r (mergeRow now op r) := by
  constructor <;> simp

/-- Every event is still there. -/
def Kept (rows rows' : List (EventRow Id V)) : Prop :=
  ∀ r ∈ rows, ∃ r' ∈ rows', SameEvent r r'

theorem Better.mono {rows rows' : List (EventRow Id V)} {r r' : EventRow Id V} {c : Id} (h : Better rows r c)
    (hrows : Kept rows rows') (hr : SameEvent r r') : Better rows' r' c := by
  obtain ⟨t, ht, hid, hsubject, hlt⟩ := h
  obtain ⟨t', ht', hsame⟩ := hrows t ht
  refine ⟨t', ht', hsame.id.trans hid, ?_, ?_⟩
  · rw [hsame.subject, hsubject, hr.subject]
  · rw [hsame.key, hr.key]
    exact hlt

/-- **The tails of a planned op may point at its canonical.** -/
theorem better_of_mem_plan {cfg : ClusteringConfig} {opIdOf : Id → Id} {ns : Id} {table : EventTable Id V}
    {op : ClusterOp Id} (hop : op ∈ plan cfg similarity opIdOf ns table) {i : Id} (hi : i ∈ op.tailIds) :
    ∃ r ∈ table.rows, r.id = i ∧ Better table.rows r op.canonicalId := by
  obtain ⟨cluster, hcluster, hbuild⟩ := List.mem_filterMap.mp hop
  obtain ⟨canonical, hcanonical, rfl⟩ := Option.map_eq_some_iff.mp hbuild
  obtain ⟨hmerged, hne⟩ := List.mem_filter.mp hi
  obtain ⟨r, hr, rfl⟩ := List.mem_map.mp (List.mem_mergeSort.mp hmerged)
  have hne' : r.id ≠ canonical.id := by simpa using hne
  have hmem : canonical ∈ cluster := List.argmax_mem hcanonical
  obtain ⟨x, hx, hbucket⟩ := mem_clusterEvents_iff.mp hcluster
  -- all members are rows of the one subject
  have hmember : ∀ e ∈ cluster, e ∈ table.rows ∧ e.subject = x.subject := by
    intro e he
    have hflat : e ∈ (clusterBucket cfg similarity ((fetchEvents ns table).filter fun r =>
        r.subject = x.subject)).flatten := List.mem_flatten.mpr ⟨cluster, hbucket, he⟩
    obtain ⟨hfetch, hsubject⟩ := List.mem_filter.mp ((flatten_clusterBucket _).subset hflat)
    exact ⟨(List.mem_filter.mp hfetch).1, of_decide_eq_true hsubject⟩
  refine ⟨r, (hmember r hr).1, rfl, canonical, (hmember _ hmem).1, rfl, ?_, ?_⟩
  · rw [(hmember _ hmem).2, (hmember r hr).2]
  · apply lt_of_le_of_ne (List.le_of_mem_argmax hr hcanonical)
    intro heq
    have heq' : (r.confidence, toLex (r.observationDate, OrderDual.toDual r.id)) =
        (canonical.confidence, toLex (canonical.observationDate, OrderDual.toDual canonical.id)) := toLex.injective heq
    have hid := congrArg Prod.snd (toLex.injective (congrArg Prod.snd heq'))
    exact hne' (OrderDual.toDual.injective hid)

theorem kept_step (s : State Id V) (a : Action Id V) : Kept s.table.rows (step similarity s a).table.rows := by
  cases a with
  | insert r => exact fun t ht => ⟨t, Table.mem_getD_insert_of_mem ht, .refl t⟩
  | plan cfg opIdOf ns => exact fun t ht => ⟨t, ht, .refl t⟩
  | apply place now =>
      intro t ht
      simp only [step]
      cases s.planned[place]? with
      | none => exact ⟨t, ht, .refl t⟩
      | some op =>
          refine ⟨mergeRow now op t, ?_, sameEvent_mergeRow now op t⟩
          show mergeRow now op t ∈ (applyOp now op s.table).1.rows
          rw [rows_applyOp]
          exact List.mem_map_of_mem ht

theorem Sound.insert {s : State Id V} (h : Sound s) (r : EventRow Id V) : Sound (step similarity s (.insert r)) := by
  have hkept := kept_step similarity s (.insert r)
  have hold : ∀ t ∈ s.table.rows, t ∈ (step similarity s (.insert r)).table.rows := fun t ht =>
    Table.mem_getD_insert_of_mem ht
  constructor
  · intro t ht c hc
    rcases Table.mem_getD_insert ht with ht | rfl
    · exact (h.pointers t ht c hc).mono hkept (.refl t)
    · cases hc
  · intro t ht
    rcases Table.mem_getD_insert ht with ht | rfl
    · exact h.retired t ht
    · exact iff_of_true rfl rfl
  · intro op hop i hi
    obtain ⟨t, ht, hid, hbetter⟩ := h.tails op hop i hi
    exact ⟨t, hold t ht, hid, hbetter.mono hkept (.refl t)⟩
  · intro op hop
    obtain ⟨hplanned, hretired⟩ := h.applied op hop
    refine ⟨hplanned, ?_⟩
    intro i hi t ht hid
    -- the tail has its row since the op was planned
    obtain ⟨t', ht', hid', -⟩ := h.tails op hplanned i hi
    obtain rfl : t = t' := List.inj_on_of_nodup_map (step similarity s (.insert r)).table.nodup ht (hold t' ht')
      (hid.trans hid'.symm)
    exact hretired i hi t ht' hid

theorem Sound.plan {s : State Id V} (h : Sound s) (cfg : ClusteringConfig) (opIdOf : Id → Id) (ns : Id) :
    Sound (step similarity s (.plan cfg opIdOf ns)) where
  pointers := h.pointers
  retired := h.retired
  tails := by
    intro op hop i hi
    rcases List.mem_append.mp hop with hop | hop
    · exact h.tails op hop i hi
    · exact better_of_mem_plan similarity hop hi
  applied op hop := ⟨List.mem_append_left _ (h.applied op hop).1, (h.applied op hop).2⟩

theorem Sound.apply {s : State Id V} (h : Sound s) {op : ClusterOp Id} (hplanned : op ∈ s.planned) (now : ℤ) :
    Sound { s with table := (applyOp now op s.table).1, applied := s.applied ++ [op] } := by
  have hkept : Kept s.table.rows (applyOp now op s.table).1.rows := by
    intro t ht
    rw [rows_applyOp]
    exact ⟨_, List.mem_map_of_mem ht, sameEvent_mergeRow now op t⟩
  constructor
  · intro t' ht' c hc
    rw [rows_applyOp] at ht'
    obtain ⟨t, ht, rfl⟩ := List.mem_map.mp ht'
    by_cases htail : t.id ∈ op.tailIds ∧ t.invalidatedAt = none
    · rw [mergeRow, if_pos htail] at hc
      obtain rfl : op.canonicalId = c := Option.some.inj hc
      obtain ⟨t₀, ht₀, hid, hbetter⟩ := h.tails op hplanned t.id htail.1
      obtain rfl : t₀ = t := List.inj_on_of_nodup_map s.table.nodup ht₀ ht hid
      exact hbetter.mono hkept (sameEvent_mergeRow now op _)
    · rw [mergeRow, if_neg htail] at hc ⊢
      exact (h.pointers t ht c hc).mono hkept (.refl t)
  · intro t' ht'
    rw [rows_applyOp] at ht'
    obtain ⟨t, ht, rfl⟩ := List.mem_map.mp ht'
    by_cases htail : t.id ∈ op.tailIds ∧ t.invalidatedAt = none
    · rw [mergeRow, if_pos htail]
      simp [EventRow.softMerge]
    · rw [mergeRow, if_neg htail]
      exact h.retired t ht
  · intro op' hop' i hi
    obtain ⟨t, ht, hid, hbetter⟩ := h.tails op' hop' i hi
    refine ⟨mergeRow now op t, ?_, (mergeRow_id now op t).trans hid, hbetter.mono hkept (sameEvent_mergeRow now op t)⟩
    show mergeRow now op t ∈ (applyOp now op s.table).1.rows
    rw [rows_applyOp]
    exact List.mem_map_of_mem ht
  · intro op' hop'
    have hop'' : op' ∈ s.planned := by
      rcases List.mem_append.mp hop' with hop' | hop'
      · exact (h.applied op' hop').1
      · rw [List.mem_singleton.mp hop']
        exact hplanned
    refine ⟨hop'', ?_⟩
    intro i hi t' ht' hid
    rw [rows_applyOp] at ht'
    obtain ⟨t, ht, rfl⟩ := List.mem_map.mp ht'
    rw [mergeRow_id] at hid
    by_cases hlive : t.invalidatedAt = none
    · rcases List.mem_append.mp hop' with hop' | hop'
      · exact absurd hlive ((h.applied op' hop').2 i hi t ht hid)
      · -- the op itself retires its tails
        obtain rfl := List.mem_singleton.mp hop'
        rw [mergeRow, if_pos ⟨by rw [hid]; exact hi, hlive⟩]
        exact Option.some_ne_none now
    · rw [mergeRow_of_retired hlive]
      exact hlive

/-- **Every action keeps the pointers sound.** -/
theorem Sound.step {s : State Id V} (h : Sound s) (a : Action Id V) : Sound (step similarity s a) := by
  cases a with
  | insert r => exact h.insert similarity r
  | plan cfg opIdOf ns => exact h.plan similarity cfg opIdOf ns
  | apply place now =>
      simp only [EventClustering.step]
      cases hop : s.planned[place]? with
      | none => exact h
      | some op => exact h.apply (List.mem_of_getElem? hop) now

theorem sound_run (acts : List (Action Id V)) : Sound (Runs.run (step similarity) initial acts) :=
  Runs.run_of_step (fun _ a h => h.step similarity a) sound_initial acts

theorem kept_run (s : State Id V) (acts : List (Action Id V)) :
    Kept s.table.rows (Runs.run (step similarity) s acts).table.rows := by
  apply @Runs.run_of_step _ _ (step similarity) (fun s' => Kept s.table.rows s'.table.rows)
  · intro s' a h r hr
    obtain ⟨r', hr', hsame⟩ := h r hr
    obtain ⟨r'', hr'', hsame'⟩ := kept_step similarity s' a r' hr'
    exact ⟨r'', hr'', hsame.trans hsame'⟩
  · exact fun r hr => ⟨r, hr, .refl r⟩

/-- One row points at the other. -/
def PointsAt (rows : List (EventRow Id V)) (r t : EventRow Id V) : Prop :=
  t ∈ rows ∧ r.mergedIntoEventId = some t.id

/-- **Following the pointers ends in a live event of the subject.**  Every pointer leads to a greater key, and there
are finitely many events. -/
theorem Sound.reaches_live {s : State Id V} (h : Sound s) {r : EventRow Id V} (hr : r ∈ s.table.rows) :
    ∃ t ∈ s.table.rows, Relation.ReflTransGen (PointsAt s.table.rows) r t ∧ t.subject = r.subject ∧
      t.invalidatedAt = none := by
  let above : EventRow Id V → EventRow Id V → Prop := fun a b => canonicalKey b < canonicalKey a
  have horder : IsStrictOrder (EventRow Id V) above :=
    { irrefl := fun a => lt_irrefl (canonicalKey a)
      trans := fun _ _ _ hab hbc => lt_trans hbc hab }
  have hwf : Set.WellFoundedOn { t | t ∈ s.table.rows } above := (List.finite_toSet s.table.rows).wellFoundedOn
  refine hwf.induction hr (P := fun r => ∃ t ∈ s.table.rows, Relation.ReflTransGen (PointsAt s.table.rows) r t ∧
    t.subject = r.subject ∧ t.invalidatedAt = none) ?_
  intro r hr ih
  cases hc : r.mergedIntoEventId with
  | none => exact ⟨r, hr, .refl, rfl, (h.retired r hr).mpr hc⟩
  | some c =>
      obtain ⟨t, ht, rfl, hsubject, hlt⟩ := h.pointers r hr c hc
      obtain ⟨live, hlive, hpath, hsubject', hnone⟩ := ih t ht hlt
      exact ⟨live, hlive, .head ⟨ht, hc⟩ hpath, hsubject'.trans hsubject, hnone⟩

/-- An op that was applied changes nothing any more. -/
theorem Sound.reapply {s : State Id V} (h : Sound s) {op : ClusterOp Id} (hop : op ∈ s.applied) (now : ℤ) :
    (applyOp now op s.table).1 = s.table := by
  apply Table.ext
  rw [rows_applyOp, Table.map_eq_self]
  intro r hr
  unfold mergeRow
  apply if_neg
  rintro ⟨htail, hlive⟩
  exact (h.applied op hop).2 r.id htail r hr rfl hlive

/-- **Event clustering**, for every symmetric similarity: the clusters are the connected components with two or more
events, whatever the order of the rows, and no event is in two; the plan has an op for each cluster, and the handler
points the live events of the op, but for the best one, at that one and writes no other column or row; after every
history every event leads to a live event of its subject, keeps its chunk whatever follows, and the ops that were
applied do nothing any more. -/
theorem eventClustering_correct (hsymm : ∀ u v, similarity u v = similarity v u) :
    (∀ (cfg : ClusteringConfig) (rows : List (EventRow Id V)), (rows.map EventRow.id).Nodup →
      (∀ s, s ∈ clusterSets cfg similarity rows ↔
        ∃ a ∈ rows, s = component cfg similarity rows a ∧ ∃ b ∈ s, b ≠ a) ∧
      (clusterEvents cfg similarity rows).flatten.Subperm rows ∧
      ∀ rows', rows.Perm rows' → clusterSets cfg similarity rows' = clusterSets cfg similarity rows) ∧
    (∀ (cfg : ClusteringConfig) (opIdOf : Id → Id) (ns : Id) (table : EventTable Id V),
      List.Forall₂ (Merges opIdOf) (clusterEvents cfg similarity (fetchEvents ns table))
        (plan cfg similarity opIdOf ns table)) ∧
    (∀ (now : ℤ) (op : ClusterOp Id) (table : EventTable Id V), (applyOp now op table).1.rows =
      table.rows.map fun r =>
        if (r.id ∈ op.mergedEventIds ∧ r.id ≠ op.canonicalId) ∧ r.invalidatedAt = none then
          { r with
            invalidatedAt := some now
            invalidatedBy := some op.opId
            mergedIntoEventId := some op.canonicalId }
        else r) ∧
    ∀ acts : List (Action Id V),
      let s := Runs.run (step similarity) initial acts
      (∀ r ∈ s.table.rows, ∃ t ∈ s.table.rows, Relation.ReflTransGen (PointsAt s.table.rows) r t ∧
        t.subject = r.subject ∧ t.invalidatedAt = none) ∧
      (∀ acts', ∀ r ∈ s.table.rows, ∃ r' ∈ (Runs.run (step similarity) s acts').table.rows,
        r'.id = r.id ∧ r'.chunkId = r.chunkId) ∧
      ∀ op ∈ s.applied, ∀ now, (applyOp now op s.table).1 = s.table := by
  refine ⟨?_, fun cfg opIdOf ns table => merges_plan cfg similarity ns table, ?_, ?_⟩
  · intro cfg rows hnodup
    exact ⟨mem_clusterSets hsymm hnodup, flatten_clusterEvents rows,
      fun rows' hperm => (clusterSets_perm hsymm hnodup hperm).symm⟩
  · intro now op table
    rw [rows_applyOp]
    refine List.map_congr_left fun r _ => ?_
    simp only [mergeRow, ClusterOp.tailIds, List.mem_filter, decide_eq_true_eq]
    rfl
  · intro acts
    have hsound := sound_run similarity acts
    refine ⟨fun r hr => hsound.reaches_live hr, ?_, fun op hop now => hsound.reapply hop now⟩
    intro acts' r hr
    obtain ⟨r', hr', hsame⟩ := kept_run similarity _ acts' r hr
    exact ⟨r', hr', hsame.id, hsame.chunkId⟩

/-- Two notes of one meeting, on the same day. -/
def meetingNote (id : ℕ) (confidence : ℚ) : EventRow ℕ ℚ :=
  { id
    namespaceId := 0
    chunkId := id
    subject := "Ada"
    verb := "met"
    object := "Grace"
    referencedDate := some 0
    observationDate := 0
    confidence
    embedding := some 1
    invalidatedAt := none
    invalidatedBy := none
    mergedIntoEventId := none }

def notes : State ℕ ℚ :=
  Runs.run (step fun u v : ℚ => u * v) initial [.insert (meetingNote 1 (1 / 2)), .insert (meetingNote 2 1)]

/-- Both are stored, and a plan joins them. -/
def meeting : State ℕ ℚ :=
  Runs.run (step fun u v : ℚ => u * v) initial [.insert (meetingNote 1 (1 / 2)), .insert (meetingNote 2 1),
    .plan ⟨9 / 10, 7⟩ id 0, .apply 0 5]

theorem eventClustering_correct_notes :
    List.Forall₂ (Merges id) (clusterEvents ⟨9 / 10, 7⟩ (fun u v : ℚ => u * v) (fetchEvents 0 notes.table))
      (plan ⟨9 / 10, 7⟩ (fun u v : ℚ => u * v) id 0 notes.table) ∧
    (∀ r ∈ meeting.table.rows, ∃ t ∈ meeting.table.rows,
      Relation.ReflTransGen (PointsAt meeting.table.rows) r t ∧ t.subject = r.subject ∧ t.invalidatedAt = none) ∧
    ∀ op ∈ meeting.applied, ∀ now, (applyOp now op meeting.table).1 = meeting.table := by
  obtain ⟨-, hplan, -, hruns⟩ := @eventClustering_correct ℕ ℚ _ (fun u v => u * v) mul_comm
  obtain ⟨hlive, -, hreapply⟩ := hruns
    [.insert (meetingNote 1 (1 / 2)), .insert (meetingNote 2 1), .plan ⟨9 / 10, 7⟩ id 0, .apply 0 5]
  exact ⟨hplan _ _ _ _, hlive, hreapply⟩

end History

end EventClustering

end Khora
