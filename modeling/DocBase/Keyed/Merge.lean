import DocBase.Keyed
/-!
# Merging ascending lists

Two ascending lists are merged by comparing their first members; of two members with the same key
the one on the left is kept. Main statements:

* `ascending_merge` — a merged list is ascending;
* `mem_merge` — it has the members of the left list, and of the right one those with other keys.
-/

namespace DocBase.Keyed

variable {α κ : Type} [LT κ] [DecidableLT κ]

/-- Merges two ascending lists. -/
def merge (key : α → κ) : List α → List α → List α
  | [], r => r
  | l, [] => l
  | x :: l, y :: r =>
    if key x < key y then x :: merge key l (y :: r)
    else if key y < key x then y :: merge key (x :: l) r
    else x :: merge key l r
termination_by l r => l.length + r.length

theorem mem_of_mem_merge {key : α → κ} {l r : List α} {z : α} (h : z ∈ merge key l r) :
    z ∈ l ∨ z ∈ r := by
  fun_induction merge key l r with
  | case1 r => exact .inr h
  | case2 l => exact .inl h
  | case3 x l y r hlt ih =>
    rcases List.mem_cons.1 h with rfl | h
    · exact .inl List.mem_cons_self
    · exact (ih h).imp_left (List.mem_cons_of_mem _)
  | case4 x l y r hlt hgt ih =>
    rcases List.mem_cons.1 h with rfl | h
    · exact .inr List.mem_cons_self
    · exact (ih h).imp_right (List.mem_cons_of_mem _)
  | case5 x l y r hlt hgt ih =>
    rcases List.mem_cons.1 h with rfl | h
    · exact .inl List.mem_cons_self
    · exact (ih h).imp (List.mem_cons_of_mem _) (List.mem_cons_of_mem _)

/-- Members that are changed under their keys keep their places. -/
theorem merge_map {key : α → κ} {f : α → α} (hf : ∀ x, key (f x) = key x) (l r : List α) :
    merge key (l.map f) (r.map f) = (merge key l r).map f := by
  fun_induction merge key l r with
  | case1 r => rw [List.map_nil, merge]
  | case2 l => cases l <;> simp [merge]
  | case3 x l y r hlt ih =>
    rw [List.map_cons, List.map_cons, merge, hf, hf, if_pos hlt, List.map_cons, ← ih, List.map_cons]
  | case4 x l y r hlt hgt ih =>
    rw [List.map_cons, List.map_cons, merge, hf, hf, if_neg hlt, if_pos hgt, List.map_cons, ← ih,
      List.map_cons]
  | case5 x l y r hlt hgt ih =>
    rw [List.map_cons, List.map_cons, merge, hf, hf, if_neg hlt, if_neg hgt, List.map_cons, ← ih]

variable [LE κ] [Std.IsLinearOrder κ] [Std.LawfulOrderLT κ] {key : α → κ} {l r : List α} {x y z : α}

omit [DecidableLT κ] in
/-- What is below the first member of an ascending list is below all of them. -/
theorem Ascending.lt_of_lt_head (h : Ascending key (y :: r))
    (hlt : key x < key y) : ∀ w ∈ y :: r, key x < key w := by
  intro w hw
  rcases List.mem_cons.1 hw with rfl | hw
  · exact hlt
  · exact Std.lt_trans hlt ((List.pairwise_cons.1 h).1 w hw)

omit [DecidableLT κ] in
theorem eq_of_not_lt {j k : κ} (hlt : ¬j < k) (hgt : ¬k < j) : j = k := by
  rcases Std.lt_trichotomy j k with h | h | h
  · exact absurd h hlt
  · exact h
  · exact absurd h hgt

theorem ascending_merge (hl : Ascending key l) (hr : Ascending key r) :
    Ascending key (merge key l r) := by
  fun_induction merge key l r with
  | case1 r => exact hr
  | case2 l => exact hl
  | case3 x l y r hlt ih =>
    have hx := List.pairwise_cons.1 hl
    refine List.pairwise_cons.2 ⟨fun z hz => ?_, ih hx.2 hr⟩
    rcases mem_of_mem_merge hz with hz | hz
    · exact hx.1 z hz
    · exact hr.lt_of_lt_head hlt z hz
  | case4 x l y r hlt hgt ih =>
    have hy := List.pairwise_cons.1 hr
    refine List.pairwise_cons.2 ⟨fun z hz => ?_, ih hl hy.2⟩
    rcases mem_of_mem_merge hz with hz | hz
    · exact hl.lt_of_lt_head hgt z hz
    · exact hy.1 z hz
  | case5 x l y r hlt hgt ih =>
    have hx := List.pairwise_cons.1 hl
    have hy := List.pairwise_cons.1 hr
    refine List.pairwise_cons.2 ⟨fun z hz => ?_, ih hx.2 hy.2⟩
    rcases mem_of_mem_merge hz with hz | hz
    · exact hx.1 z hz
    · rw [eq_of_not_lt hlt hgt]
      exact hy.1 z hz

/-- A merged list has the members of the left list, and those of the right one whose keys the left
one does not have. -/
theorem mem_merge (hl : Ascending key l) (hr : Ascending key r) :
    z ∈ merge key l r ↔ z ∈ l ∨ z ∈ r ∧ ∀ x ∈ l, key x ≠ key z := by
  fun_induction merge key l r with
  | case1 r => simp
  | case2 l => simp
  | case3 x l y r hlt ih =>
    -- no member on the right has the key that is taken
    have hne : z ∈ y :: r → key x ≠ key z := fun hz => Std.ne_of_lt (hr.lt_of_lt_head hlt z hz)
    rw [List.mem_cons, ih (List.pairwise_cons.1 hl).2 hr, List.mem_cons (b := x), List.forall_mem_cons]
    grind
  | case4 x l y r hlt hgt ih =>
    -- no member on the left has it
    have hne : z = y → ∀ w ∈ x :: l, key w ≠ key z := by
      rintro rfl w hw
      exact (Std.ne_of_lt (hl.lt_of_lt_head hgt w hw)).symm
    rw [List.mem_cons, ih hl (List.pairwise_cons.1 hr).2, List.mem_cons (a := z) (b := y)]
    grind
  | case5 x l y r hlt hgt ih =>
    have heq := eq_of_not_lt hlt hgt
    have hne : z ∈ r → key x ≠ key z := by
      intro hz
      rw [heq]
      exact Std.ne_of_lt ((List.pairwise_cons.1 hr).1 z hz)
    have hdropped : z = y → key x = key z := by
      rintro rfl
      exact heq
    rw [List.mem_cons, ih (List.pairwise_cons.1 hl).2 (List.pairwise_cons.1 hr).2,
      List.mem_cons (b := x), List.mem_cons (a := z) (b := y), List.forall_mem_cons]
    grind

end DocBase.Keyed
