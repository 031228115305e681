import Mathlib.Order.Lattice
import Mathlib.Data.List.Sort
import Mathlib.Data.List.Perm.Subperm
import Mathlib.Data.Prod.Lex

/-!
# Keyset windows

Reading a table window by window in descending key order, each window resumed
below the last key of the one before.  The table may change between windows; what
is read is judged against the rows that are there all the time.

* `Covers` — what the windows read so far say about the rows that are there.
* `Covers.full`, `Covers.short` — a window that is full moves the resume position,
  a window that is not ends the walk.
* `select_window` — an ordered, limited query is a window.
* `mem_selectPage_iff` — a row is on the page at an offset exactly if its rank is.
* `Window.eq` — windows over the same rows are the same.
* `window_of_ties` — so is a query of the ties at the position followed by a query
  below it, also when the table changes in between.
-/

namespace Keyset

variable {α κ : Type*} [LinearOrder κ] (key : α → κ)

/-- The keys a walk resumed at a position has yet to read; `none` is the start. -/
def Below (after : Option κ) (k : κ) : Prop :=
  match after with
  | none => True
  | some c => k < c

instance (after : Option κ) (k : κ) : Decidable (Below after k) :=
  match after with
  | none => .isTrue trivial
  | some c => inferInstanceAs (Decidable (k < c))

/-- Rows in strictly descending key order. -/
def Descending (rows : List α) : Prop := rows.Pairwise fun a b => key b < key a

/-- `SELECT … WHERE p ORDER BY key DESC LIMIT n`. -/
def select (p : α → Bool) (n : ℕ) (table : List α) : List α :=
  ((table.filter p).mergeSort fun a b => decide (key b ≤ key a)).take n

/-- One window: at most `n` rows below the position, and every row that is there is
among them unless the window is full above it. -/
structure Window (present : α → Prop) (after : Option κ) (n : ℕ) (rows : List α) : Prop where
  length_le : rows.length ≤ n
  descending : Descending key rows
  below : ∀ d ∈ rows, Below after (key d)
  complete : ∀ d, present d → Below after (key d) →
    d ∈ rows ∨ rows.length = n ∧ ∀ e ∈ rows, key d < key e

/-- The rows read so far, against the keys yet to read. -/
structure Covers (present : α → Prop) (unread : κ → Prop) (rows : List α) : Prop where
  descending : Descending key rows
  read : ∀ d ∈ rows, ¬ unread (key d)
  complete : ∀ d, present d → unread (key d) ∨ d ∈ rows

variable {key}

/-! ## Descending lists -/

theorem Descending.nodup {rows : List α} (h : Descending key rows) : rows.Nodup := by
  refine List.Pairwise.imp (fun {a b} hab => ?_) h
  rintro rfl
  exact lt_irrefl _ hab

/-- The last row has the least key. -/
theorem Descending.last_le {rows : List α} (h : Descending key rows) {e : α}
    (he : rows.getLast? = some e) : ∀ d ∈ rows, key e ≤ key d := by
  obtain ⟨init, rfl⟩ := List.getLast?_eq_some_iff.mp he
  intro d hd
  rcases List.mem_append.mp hd with hd | hd
  · exact (List.pairwise_append.mp h).2.2 d hd e (by simp) |>.le
  · rw [List.mem_singleton.mp hd]

/-- Descending lists with the same rows are the same list. -/
theorem Descending.eq_of_mem_iff {as bs : List α} (ha : Descending key as)
    (hb : Descending key bs) (h : ∀ d, d ∈ as ↔ d ∈ bs) : as = bs := by
  have hperm : as.Perm bs := (List.perm_ext_iff_of_nodup ha.nodup hb.nodup).mpr h
  refine hperm.eq_of_pairwise (fun a b _ _ hab hba => ?_) ha hb
  exact absurd hab (lt_asymm hba)

/-! ## Progress of a walk -/

variable {present : α → Prop} {after : Option κ} {n : ℕ} {rows window : List α}

theorem Window.mono {present' : α → Prop} (h : Window key present after n window)
    (hp : ∀ d, present' d → present d) : Window key present' after n window :=
  ⟨h.length_le, h.descending, h.below, fun d hd => h.complete d (hp d hd)⟩

theorem Covers.start : Covers key present (Below none) [] :=
  ⟨List.Pairwise.nil, by simp, fun _ _ => .inl trivial⟩

theorem below_of_le {k k' : κ} (h : Below after k) (hk : k' ≤ k) : Below after k' := by
  cases after with
  | none => trivial
  | some c => exact lt_of_le_of_lt hk h

/-- What a window reads lies below what was read before. -/
theorem Covers.append_descending (h : Covers key present (Below after) rows)
    (hw : Window key present after n window) : Descending key (rows ++ window) := by
  refine List.pairwise_append.mpr ⟨h.descending, hw.descending, fun a ha b hb => ?_⟩
  by_contra hlt
  exact h.read a ha (below_of_le (hw.below b hb) (not_lt.mp hlt))

/-- **A full window moves the resume position to its last row.** -/
theorem Covers.full (h : Covers key present (Below after) rows)
    (hw : Window key present after n window) {e : α} (he : window.getLast? = some e) :
    Covers key present (Below (some (key e))) (rows ++ window) := by
  have hmem : e ∈ window := List.mem_of_getLast? he
  have hdesc := h.append_descending hw
  refine ⟨hdesc, fun d hd => ?_, fun d hd => ?_⟩
  · have hlast : (rows ++ window).getLast? = some e := by
      rw [List.getLast?_append_of_ne_nil _ (List.ne_nil_of_mem hmem), he]
    exact not_lt.mpr (hdesc.last_le hlast d hd)
  · rcases h.complete d hd with hu | hr
    · rcases hw.complete d hd hu with hin | ⟨-, hlt⟩
      · exact .inr (List.mem_append_right _ hin)
      · exact .inl (hlt e hmem)
    · exact .inr (List.mem_append_left _ hr)

/-- **A window that is not full ends the walk.** -/
theorem Covers.short (h : Covers key present (Below after) rows)
    (hw : Window key present after n window) (hlen : window.length < n) :
    Covers key present (fun _ => False) (rows ++ window) := by
  refine ⟨h.append_descending hw, fun _ _ hf => hf, fun d hd => .inr ?_⟩
  rcases h.complete d hd with hu | hr
  · rcases hw.complete d hd hu with hin | ⟨hfull, -⟩
    · exact List.mem_append_right _ hin
    · omega
  · exact List.mem_append_left _ hr

/-! ## Ordered queries -/

section Select

variable {p : α → Bool} {table : List α}

theorem length_select_le : (select key p n table).length ≤ n := by
  simp [select]

theorem mem_of_mem_select {d : α} (h : d ∈ select key p n table) : d ∈ table ∧ p d = true := by
  have := List.mem_of_mem_take h
  simpa using this

theorem sorted_descending (h : (table.map key).Nodup) :
    Descending key ((table.filter p).mergeSort fun a b => decide (key b ≤ key a)) := by
  have hle : ((table.filter p).mergeSort fun a b => decide (key b ≤ key a)).Pairwise
      fun a b => key b ≤ key a := by
    have hsort := @List.pairwise_mergeSort _ (fun a b => decide (key b ≤ key a))
      (fun a b c hab hbc => by
        simp only [decide_eq_true_eq] at hab hbc ⊢
        exact hbc.trans hab)
      (fun a b => by simpa using le_total (key b) (key a)) (table.filter p)
    simpa using hsort
  have hne : ((table.filter p).mergeSort fun a b => decide (key b ≤ key a)).Pairwise
      fun a b => key a ≠ key b := by
    refine List.pairwise_map.mp ?_
    refine (List.Perm.nodup_iff ((List.mergeSort_perm _ _).map key)).mpr ?_
    exact h.sublist (List.filter_sublist.map key)
  exact hle.imp₂ (fun a b hab hne => lt_of_le_of_ne hab hne.symm) hne

theorem select_descending (h : (table.map key).Nodup) : Descending key (select key p n table) :=
  (sorted_descending h).sublist (List.take_sublist _ _)

/-- A row the query would keep is in its answer, unless the limit cuts it off. -/
theorem select_complete (h : (table.map key).Nodup) {d : α} (hd : d ∈ table) (hp : p d = true) :
    d ∈ select key p n table ∨
      (select key p n table).length = n ∧ ∀ e ∈ select key p n table, key d < key e := by
  set sorted := (table.filter p).mergeSort fun a b => decide (key b ≤ key a) with hs
  have hmem : d ∈ sorted.take n ++ sorted.drop n := by
    rw [List.take_append_drop, hs]
    simp [hd, hp]
  have hdesc : Descending key (sorted.take n ++ sorted.drop n) := by
    rw [List.take_append_drop]
    exact sorted_descending h
  rcases List.mem_append.mp hmem with hin | hdrop
  · exact .inl hin
  · refine .inr ⟨?_, fun e he => (List.pairwise_append.mp hdesc).2.2 e he d hdrop⟩
    have hpos : 0 < (sorted.drop n).length := List.length_pos_of_mem hdrop
    rw [List.length_drop] at hpos
    show (sorted.take n).length = n
    rw [List.length_take]
    omega

/-- **An ordered query below a position is a window over its table.** -/
theorem select_window (h : (table.map key).Nodup) (keep : α → Bool) :
    Window key (fun d => d ∈ table ∧ keep d = true) after n
      (select key (fun d => keep d && decide (Below after (key d))) n table) where
  length_le := length_select_le
  descending := select_descending h
  below := fun d hd => by simpa using (Bool.and_eq_true_iff.mp (mem_of_mem_select hd).2).2
  complete := fun d hd hb => select_complete h hd.1 (by simpa [hd.2] using hb)

end Select

/-! ## Pages by offset -/

section Offset

variable {p : α → Bool} {table : List α}

/-- `SELECT … WHERE p ORDER BY key DESC LIMIT n OFFSET offset`. -/
def selectPage (key : α → κ) (p : α → Bool) (n offset : ℕ) (table : List α) : List α :=
  (((table.filter p).mergeSort fun a b => decide (key b ≤ key a)).drop offset).take n

/-- The rows above a row in the order of the query. -/
def rank (key : α → κ) (p : α → Bool) (table : List α) (d : α) : ℕ :=
  (table.filter p).countP fun e => decide (key d < key e)

/-- In descending rows the rank is the position. -/
theorem Descending.mem_take_iff {rows : List α} (h : Descending key rows) {d : α} {n : ℕ} :
    d ∈ rows.take n ↔ d ∈ rows ∧ (rows.countP fun e => decide (key d < key e)) < n := by
  induction rows generalizing n with
  | nil => simp
  | cons a rows ih =>
    obtain ⟨ha, hrest⟩ := List.pairwise_cons.mp h
    cases n with
    | zero => simp
    | succ n =>
      rw [List.take_succ_cons, List.mem_cons, List.mem_cons, ih hrest]
      constructor
      · rintro (rfl | ⟨hd, hlt⟩)
        · refine ⟨Or.inl rfl, ?_⟩
          rw [List.countP_eq_zero.mpr]
          · exact Nat.succ_pos n
          · intro e he
            rcases List.mem_cons.mp he with rfl | he
            · simp
            · simpa using (ha e he).le
        · refine ⟨Or.inr hd, ?_⟩
          rw [List.countP_cons, if_pos (by simpa using ha d hd)]
          exact Nat.succ_lt_succ hlt
      · rintro ⟨hd, hlt⟩
        refine hd.imp_right fun hd => ⟨hd, ?_⟩
        rw [List.countP_cons, if_pos (by simpa using ha d hd)] at hlt
        exact Nat.lt_of_succ_lt_succ hlt

theorem Descending.mem_page_iff {rows : List α} (h : Descending key rows) {d : α} {n offset : ℕ} :
    d ∈ (rows.drop offset).take n ↔ d ∈ rows ∧
      offset ≤ (rows.countP fun e => decide (key d < key e)) ∧
      (rows.countP fun e => decide (key d < key e)) < offset + n := by
  induction rows generalizing offset with
  | nil => simp
  | cons a rows ih =>
    cases offset with
    | zero =>
      rw [List.drop_zero, h.mem_take_iff, Nat.zero_add]
      exact and_congr_right fun _ => (and_iff_right (Nat.zero_le _)).symm
    | succ offset =>
      obtain ⟨ha, hrest⟩ := List.pairwise_cons.mp h
      rw [List.drop_succ_cons, ih hrest, List.mem_cons]
      by_cases hd : d ∈ rows
      · rw [List.countP_cons, if_pos (by simpa using ha d hd)]
        simp only [hd, true_and, or_true]
        omega
      · refine iff_of_false (fun hand => hd hand.1) ?_
        rintro ⟨rfl | hd', hle, -⟩
        · rw [List.countP_eq_zero.mpr] at hle
          · exact absurd hle (Nat.not_succ_le_zero offset)
          · intro e he
            rcases List.mem_cons.mp he with rfl | he
            · simp
            · simpa using (ha e he).le
        · exact hd hd'

/-- **A row is on a page** exactly if its rank is. -/
theorem mem_selectPage_iff (h : (table.map key).Nodup) {d : α} {n offset : ℕ} :
    d ∈ selectPage key p n offset table ↔ d ∈ table ∧ p d = true ∧
      offset ≤ rank key p table d ∧ rank key p table d < offset + n := by
  rw [selectPage, (sorted_descending h).mem_page_iff, (List.mergeSort_perm _ _).countP_eq,
    (List.mergeSort_perm _ _).mem_iff, List.mem_filter, and_assoc]
  exact Iff.rfl

theorem length_selectPage {n offset : ℕ} :
    (selectPage key p n offset table).length = min n ((table.filter p).length - offset) := by
  rw [selectPage, List.length_take, List.length_drop, List.length_mergeSort]

/-- Behind a short page there is nothing. -/
theorem rank_lt_of_short {n offset : ℕ} (h : (selectPage key p n offset table).length < n) (d : α) :
    rank key p table d < offset + n := by
  have hle : rank key p table d ≤ (table.filter p).length := List.countP_le_length
  rw [length_selectPage] at h
  omega

theorem rank_append (table' : List α) (d : α) : rank key p table d ≤ rank key p (table ++ table') d := by
  unfold rank
  rw [List.filter_append, List.countP_append]
  exact Nat.le_add_right _ _

end Offset

/-! ## One window -/

/-- A window over the rows it may have, below a position and within its limit. -/
theorem Window.subset {window' : List α} (h : Window key present after n window)
    (h' : Window key present after n window') (hp : ∀ d ∈ window, present d)
    (hp' : ∀ d ∈ window', present d) : ∀ d ∈ window, d ∈ window' := by
  intro d hd
  rcases h'.complete d (hp d hd) (h.below d hd) with hin | ⟨hfull, habove⟩
  · exact hin
  -- the other window is full above `d`, and all of it is in this one
  · have hsub : ∀ e ∈ window', e ∈ window := by
      intro e he
      rcases h.complete e (hp' e he) (h'.below e he) with hin | ⟨_, hall⟩
      · exact hin
      · exact absurd (hall d hd) (lt_asymm (habove e he))
    have hd' : d ∉ window' := fun hin => lt_irrefl _ (habove d hin)
    have hcons : (d :: window').Nodup := List.nodup_cons.mpr ⟨hd', h'.descending.nodup⟩
    have hlength := (List.Nodup.subperm hcons (List.cons_subset.mpr ⟨hd, hsub⟩)).length_le
    have hle := h.length_le
    rw [List.length_cons] at hlength
    omega

/-- **Windows over the same rows are the same.** -/
theorem Window.eq {window' : List α} (h : Window key present after n window)
    (h' : Window key present after n window') (hp : ∀ d ∈ window, present d)
    (hp' : ∀ d ∈ window', present d) : window = window' :=
  h.descending.eq_of_mem_iff h'.descending fun d =>
    ⟨h.subset h' hp hp' d, h'.subset h hp' hp d⟩

/-- A query is not full when fewer rows pass. -/
theorem length_select {p : α → Bool} {table : List α} :
    (select key p n table).length = min n (table.filter p).length := by
  rw [select, List.length_take, List.length_mergeSort]

/-! ## The ties first, then the rest -/

section Ties

variable {τ ι : Type*} [LinearOrder τ] [LinearOrder ι] {at_ : α → τ} {id : α → ι}

/-- Rows ordered by a stamp, then by an id. -/
def stampKey (at_ : α → τ) (id : α → ι) (d : α) : τ ×ₗ ι := toLex (at_ d, id d)

theorem stampKey_lt {a b : α} :
    stampKey at_ id a < stampKey at_ id b ↔ at_ a < at_ b ∨ at_ a = at_ b ∧ id a < id b := by
  rw [stampKey, stampKey, Prod.Lex.toLex_lt_toLex]

/-- **Ties at the position, then the rows below its stamp, make one window.**  The
second query runs only when the first leaves room, and may see another table. -/
theorem window_of_ties {ties older : List α} {present : α → Prop} {t : τ} {i : ι} {n : ℕ}
    (hties : Window id (fun d => present d ∧ at_ d = t) (some i) n ties)
    (htie : ∀ d ∈ ties, at_ d = t)
    (holder : ties.length < n →
      Window (stampKey at_ id) (fun d => present d ∧ at_ d < t) none (n - ties.length) older)
    (hold : ∀ d ∈ older, at_ d < t) (hfull : ¬ ties.length < n → older = []) :
    Window (stampKey at_ id) present (some (toLex (t, i))) n (ties ++ older) := by
  have hbelow : ∀ d, stampKey at_ id d < toLex (t, i) ↔ at_ d < t ∨ at_ d = t ∧ id d < i :=
    fun d => by rw [stampKey, Prod.Lex.toLex_lt_toLex]
  have htiesDesc : Descending (stampKey at_ id) ties := by
    refine hties.descending.imp_of_mem fun {a b} ha hb hlt => stampKey_lt.mpr (.inr ⟨?_, hlt⟩)
    rw [htie a ha, htie b hb]
  have hcross : ∀ a ∈ ties, ∀ b ∈ older, stampKey at_ id b < stampKey at_ id a := by
    intro a ha b hb
    refine stampKey_lt.mpr (.inl ?_)
    rw [htie a ha]
    exact hold b hb
  by_cases hroom : ties.length < n
  · have ho := holder hroom
    refine ⟨?_, List.pairwise_append.mpr ⟨htiesDesc, ho.descending, hcross⟩, fun d hd => ?_,
      fun d hd hb => ?_⟩
    · rw [List.length_append]
      have := ho.length_le
      omega
    · refine (hbelow d).mpr ?_
      rcases List.mem_append.mp hd with hd | hd
      · exact .inr ⟨htie d hd, hties.below d hd⟩
      · exact .inl (hold d hd)
    · rcases (hbelow d).mp hb with hlt | ⟨heq, hlt⟩
      · rcases ho.complete d ⟨hd, hlt⟩ trivial with hin | ⟨hlen, hall⟩
        · exact .inl (List.mem_append_right _ hin)
        · refine .inr ⟨by rw [List.length_append]; omega, fun e he => ?_⟩
          rcases List.mem_append.mp he with he | he
          · exact stampKey_lt.mpr (.inl ((htie e he).symm ▸ hlt))
          · exact hall e he
      · rcases hties.complete d ⟨hd, heq⟩ hlt with hin | ⟨hlen, -⟩
        · exact .inl (List.mem_append_left _ hin)
        · omega
  · have hn : ties.length = n := le_antisymm hties.length_le (not_lt.mp hroom)
    rw [hfull hroom, List.append_nil]
    refine ⟨hties.length_le, htiesDesc, fun d hd => (hbelow d).mpr (.inr ⟨htie d hd, hties.below d hd⟩),
      fun d hd hb => ?_⟩
    rcases (hbelow d).mp hb with hlt | ⟨heq, hlt⟩
    · exact .inr ⟨hn, fun e he => stampKey_lt.mpr (.inl ((htie e he).symm ▸ hlt))⟩
    · rcases hties.complete d ⟨hd, heq⟩ hlt with hin | ⟨-, hall⟩
      · exact .inl hin
      · refine .inr ⟨hn, fun e he => stampKey_lt.mpr (.inr ⟨?_, hall e he⟩)⟩
        rw [heq, htie e he]

end Ties

end Keyset
