import DocBase.Keyed.Merge
/-!
# Sorting by key

A list in any order is sorted by key, members with the same key staying in the order they had, and
then rid of repeats. Main statements:

* `ascending_sorted` — the list is ascending;
* `mem_sorted` — of the members with the same key it has the first.
-/

namespace DocBase.Keyed

variable {α κ : Type}

/-! ## Order by key -/

section

variable [LE κ] [DecidableLE κ] [Std.IsLinearOrder κ]

theorem le_trans_key (key : α → κ) (x y z : α) :
    decide (key x ≤ key y) = true → decide (key y ≤ key z) = true → decide (key x ≤ key z) = true := by
  simp only [decide_eq_true_eq]
  exact Std.le_trans

theorem le_total_key (key : α → κ) (x y : α) :
    (decide (key x ≤ key y) || decide (key y ≤ key x)) = true := by
  simp only [Bool.or_eq_true, decide_eq_true_eq]
  exact Std.le_total

theorem pairwise_mergeSort (key : α → κ) (l : List α) :
    (l.mergeSort fun x y => key x ≤ key y).Pairwise fun x y => key x ≤ key y := by
  have hsorted := List.pairwise_mergeSort (le_trans_key key) (le_total_key key) l
  simpa only [decide_eq_true_eq] using hsorted

/-- Sorting leaves the members with the same key in the order they had. -/
theorem find?_mergeSort [DecidableEq κ] (key : α → κ) (k : κ) (l : List α) :
    find? key k (l.mergeSort fun x y => key x ≤ key y) = find? key k l := by
  have hsame : (l.filter fun x => key x = k).Pairwise fun x y => decide (key x ≤ key y) = true := by
    rw [List.pairwise_filter]
    refine List.pairwise_of_forall fun x y hx hy => ?_
    rw [of_decide_eq_true hx, of_decide_eq_true hy]
    exact decide_eq_true (Std.le_refl k)
  -- the sorted list has them in this order, and has no others
  have hsub := (List.sublist_mergeSort (le_trans_key key) (le_total_key key) hsame
    List.filter_sublist).filter fun x => decide (key x = k)
  have hperm := (List.mergeSort_perm l fun x y => decide (key x ≤ key y)).filter
    fun x => decide (key x = k)
  simp only [List.filter_filter, Bool.and_self] at hsub
  rw [find?, find?, ← List.head?_filter, ← List.head?_filter, hsub.eq_of_length hperm.length_eq.symm]

end

variable [DecidableEq κ]

/-! ## Repeats -/

/-- Leaves out members that have the same key as the one kept before. -/
def skipRepeats (key : α → κ) (last : α) : List α → List α
  | [] => []
  | x :: l => if key x = key last then skipRepeats key last l else x :: skipRepeats key x l

/-- Keeps the first of members with the same key that follow one another. -/
def dedup (key : α → κ) : List α → List α
  | [] => []
  | x :: l => x :: skipRepeats key x l

theorem dedup_map {key : α → κ} {f : α → α} (hf : ∀ x, key (f x) = key x) (l : List α) :
    dedup key (l.map f) = (dedup key l).map f := by
  have hskip (last : α) (l : List α) :
      skipRepeats key (f last) (l.map f) = (skipRepeats key last l).map f := by
    induction l generalizing last with
    | nil => rfl
    | cons x l ih =>
      simp only [List.map_cons, skipRepeats, hf, ih]
      split <;> rfl
  cases l with
  | nil => rfl
  | cons x l => rw [List.map_cons, dedup, dedup, hskip, List.map_cons]

section

variable [LE κ] [DecidableLE κ]

/-- Sorts a list by key and keeps one member for each key. -/
def sorted (key : α → κ) (l : List α) : List α :=
  dedup key (l.mergeSort fun x y => key x ≤ key y)

/-- Members that are changed under their keys keep their places. -/
theorem sorted_map {key : α → κ} {f : α → α} (hf : ∀ x, key (f x) = key x) (l : List α) :
    sorted key (l.map f) = (sorted key l).map f := by
  have hsort : (l.map f).mergeSort (fun x y => decide (key x ≤ key y)) =
      (l.mergeSort fun x y => decide (key x ≤ key y)).map f := by
    rw [List.map_mergeSort]
    intro x _ y _
    rw [hf, hf]
  rw [sorted, sorted, hsort, dedup_map hf]

end

/-! ## Repeats in a list in order -/

variable [LE κ] [LT κ] [Std.IsLinearOrder κ] [Std.LawfulOrderLT κ]
  {key : α → κ} {l : List α} {x z : α}

/-- No key is below that of the first member. -/
theorem ascending_skipRepeats (h : (x :: l).Pairwise fun x y => key x ≤ key y) :
    Ascending key (x :: skipRepeats key x l) := by
  induction l generalizing x with
  | nil => simp [skipRepeats, Ascending]
  | cons y l ih =>
    have hx := List.pairwise_cons.1 h
    rw [skipRepeats]
    split
    · exact ih (h.sublist (by simp))
    · next hne =>
      have hlt : key x < key y := Std.lt_of_le_of_ne (hx.1 y List.mem_cons_self) (Ne.symm hne)
      have hrest := ih hx.2
      exact List.pairwise_cons.2 ⟨hrest.lt_of_lt_head hlt, hrest⟩

theorem mem_skipRepeats (h : (x :: l).Pairwise fun x y => key x ≤ key y) :
    z ∈ skipRepeats key x l ↔ key x ≠ key z ∧ find? key (key z) l = some z := by
  induction l generalizing x with
  | nil => simp [skipRepeats, find?]
  | cons y l ih =>
    have hx := List.pairwise_cons.1 h
    rw [skipRepeats, find?, List.find?_cons]
    split
    · next heq =>
      rw [ih (h.sublist (by simp)), ← heq, find?]
      by_cases hz : key y = key z
      · simp [hz]
      · simp [hz]
    · next hne =>
      -- the keys after `y` are no smaller than its key, which is above that of `x`
      have hlt : key x < key y := Std.lt_of_le_of_ne (hx.1 y List.mem_cons_self) (Ne.symm hne)
      have hfirst : find? key (key z) l = some z → key x ≠ key z := by
        intro hz
        have hle := (List.pairwise_cons.1 hx.2).1 z (mem_of_find? hz).1
        exact Std.ne_of_lt (Std.lt_of_lt_of_le hlt hle)
      rw [List.mem_cons, ih hx.2]
      by_cases hz : key y = key z
      · rw [← hz]
        simp [Std.ne_of_lt hlt, eq_comm]
      · have hother : z ≠ y := by
          rintro rfl
          exact hz rfl
        simp only [hz, hother, decide_false, false_or, ne_eq, not_false_eq_true, true_and]
        exact ⟨fun h => ⟨hfirst h, h⟩, And.right⟩

/-- A list in order that is rid of repeats is ascending. -/
theorem ascending_dedup (h : l.Pairwise fun x y => key x ≤ key y) : Ascending key (dedup key l) := by
  cases l with
  | nil => exact List.Pairwise.nil
  | cons x l => exact ascending_skipRepeats h

theorem mem_dedup (h : l.Pairwise fun x y => key x ≤ key y) :
    z ∈ dedup key l ↔ find? key (key z) l = some z := by
  cases l with
  | nil => simp [dedup, find?]
  | cons x l =>
    rw [dedup, List.mem_cons, mem_skipRepeats h, find?, find?, List.find?_cons]
    by_cases hz : key x = key z
    · simp [hz, eq_comm]
    · have hother : z ≠ x := by
        rintro rfl
        exact hz rfl
      simp [hz, hother]

/-- A list that was sorted is ascending. -/
theorem ascending_sorted [DecidableLE κ] (key : α → κ) (l : List α) : Ascending key (sorted key l) :=
  ascending_dedup (pairwise_mergeSort key l)

/-- Of the members with the same key the first is kept. -/
theorem mem_sorted [DecidableLE κ] : z ∈ sorted key l ↔ find? key (key z) l = some z := by
  rw [sorted, mem_dedup (pairwise_mergeSort key l), find?_mergeSort]

end DocBase.Keyed
