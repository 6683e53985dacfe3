import DocBase.Keyed
/-!
# Searching by halves

A key is looked for in the middle of a list and then in the half where it would have to be. In an
ascending list it is found if it is there at all, and otherwise the place is found that a member
with that key would have. Main statements:

* `locateFrom_taken` and `locateFrom_free` — what it means that a place is taken or free;
* `isTaken_locate` — in an ascending list it finds a member exactly when there is one;
* `insert_eq_insertIdx` — a free place is where `insert` puts a new member.
-/

namespace DocBase.Keyed

variable {α κ : Type} [LT κ] [DecidableLT κ] [DecidableEq κ]

/-- The position of a key in a list, or the one that a new member with that key would get. -/
inductive Place where
  | taken (position : Nat)
  | free (position : Nat)
deriving DecidableEq, Repr

def Place.isTaken : Place → Bool
  | .taken _ => true
  | .free _ => false

/-- Looks for a key in a part of a list that starts at a position. -/
def locateFrom (key : α → κ) (k : κ) (start : Nat) (l : List α) : Place :=
  match _ : l.drop (l.length / 2) with
  -- only an empty list has no middle
  | [] => .free start
  | x :: back =>
    if key x = k then .taken (start + l.length / 2)
    else if key x < k then locateFrom key k (start + l.length / 2 + 1) back
    else locateFrom key k start (l.take (l.length / 2))
termination_by l.length
decreasing_by
  · have := congrArg List.length ‹l.drop _ = _›
    simp only [List.length_drop, List.length_cons] at this
    omega
  · have := congrArg List.length ‹l.drop _ = _›
    simp only [List.length_drop, List.length_cons] at this
    rw [List.length_take]
    omega

/-- Looks for a key in a list. -/
def locate (key : α → κ) (k : κ) (l : List α) : Place := locateFrom key k 0 l

theorem locateFrom_eq (key : α → κ) (k : κ) (start : Nat) (l : List α) :
    locateFrom key k start l = match l.drop (l.length / 2) with
      | [] => .free start
      | x :: back =>
        if key x = k then .taken (start + l.length / 2)
        else if key x < k then locateFrom key k (start + l.length / 2 + 1) back
        else locateFrom key k start (l.take (l.length / 2)) := by
  rw [locateFrom]
  split
  · next h => rw [h]
  · next h => rw [h]

/-- Members that are changed under their keys keep their places. -/
theorem locateFrom_map {key : α → κ} {f : α → α} (hf : ∀ x, key (f x) = key x) (k : κ) (start : Nat)
    (l : List α) : locateFrom key k start (l.map f) = locateFrom key k start l := by
  -- the middle has the same key before and after, so both searches go the same way
  fun_induction locateFrom key k start l with
  | case1 start l hback =>
    rw [locateFrom_eq, List.length_map, ← List.map_drop, hback, List.map_nil]
  | case2 start l x back hback hx =>
    rw [locateFrom_eq, List.length_map, ← List.map_drop, hback, List.map_cons]
    simp only [hf, if_pos hx]
  | case3 start l x back hback hx hlt ih =>
    rw [locateFrom_eq, List.length_map, ← List.map_drop, hback, List.map_cons]
    simp only [hf, if_neg hx, if_pos hlt, ih]
  | case4 start l x back hback hx hlt ih =>
    rw [locateFrom_eq, List.length_map, ← List.map_drop, hback, List.map_cons]
    simp only [hf, if_neg hx, if_neg hlt, ← List.map_take, ih]

/-- A list that has a middle is what stands before it, the middle, and what stands after it. -/
theorem split_of_drop {x : α} {l back : List α} {n : Nat} (h : l.drop n = x :: back) :
    l = l.take n ++ x :: back ∧ (l.take n).length = n := by
  have hlength := congrArg List.length h
  simp only [List.length_drop, List.length_cons] at hlength
  refine ⟨by rw [← h, List.take_append_drop], ?_⟩
  rw [List.length_take]
  omega

/-- At a position that is taken there is a member with the key. -/
theorem locateFrom_taken {key : α → κ} {k : κ} {start i : Nat} {l : List α}
    (h : locateFrom key k start l = .taken i) :
    ∃ front x back, l = front ++ x :: back ∧ key x = k ∧ i = start + front.length := by
  fun_induction locateFrom key k start l with
  | case1 => simp at h
  | case2 start l x back hback hx =>
    rcases split_of_drop hback with ⟨hsplit, hlength⟩
    simp only [Place.taken.injEq] at h
    exact ⟨_, x, back, hsplit, hx, by rw [hlength, h]⟩
  | case3 start l x back hback hx hlt ih =>
    rcases split_of_drop hback with ⟨hsplit, hlength⟩
    rcases ih h with ⟨front, y, rest, rfl, hy, rfl⟩
    refine ⟨l.take (l.length / 2) ++ x :: front, y, rest, by simpa using hsplit, hy, ?_⟩
    simp only [List.length_append, hlength, List.length_cons]
    omega
  | case4 start l x back hback hx hlt ih =>
    rcases split_of_drop hback with ⟨hsplit, -⟩
    rcases ih h with ⟨front, y, rest, htake, hy, rfl⟩
    refine ⟨front, y, rest ++ x :: back, ?_, hy, rfl⟩
    rw [hsplit, htake]
    simp

variable [LE κ] [Std.IsLinearOrder κ] [Std.LawfulOrderLT κ]

/-- At a position that is free the smaller keys end and the larger ones begin. -/
theorem locateFrom_free {key : α → κ} {k : κ} {start i : Nat} {l : List α}
    (ascending : Ascending key l) (h : locateFrom key k start l = .free i) :
    ∃ front back, l = front ++ back ∧ i = start + front.length ∧
      (∀ x ∈ front, key x < k) ∧ ∀ x ∈ back, k < key x := by
  fun_induction locateFrom key k start l with
  | case1 start l hback =>
    simp only [Place.free.injEq] at h
    -- half the length is less than the length unless the list is empty
    have hnil : l = [] := by
      rw [List.drop_eq_nil_iff] at hback
      rw [← List.length_eq_zero_iff]
      omega
    exact ⟨[], [], hnil, h.symm, by simp, by simp⟩
  | case2 => simp at h
  | case3 start l x back hback hx hlt ih =>
    rcases split_of_drop hback with ⟨hsplit, hlength⟩
    rw [hsplit, Ascending, List.pairwise_append, List.pairwise_cons] at ascending
    -- all up to the middle is smaller, so the place lies behind it
    rcases ih ascending.2.1.2 h with ⟨front, rest, rfl, rfl, hfront, hrest⟩
    refine ⟨l.take (l.length / 2) ++ x :: front, rest, by simpa using hsplit, ?_, ?_, hrest⟩
    · simp only [List.length_append, hlength, List.length_cons]
      omega
    · intro y hy
      rcases List.mem_append.1 hy with hy | hy
      · exact Std.lt_trans (ascending.2.2 y hy x List.mem_cons_self) hlt
      · rcases List.mem_cons.1 hy with rfl | hy
        · exact hlt
        · exact hfront y hy
  | case4 start l x back hback hx hlt ih =>
    rcases split_of_drop hback with ⟨hsplit, -⟩
    have hgt : k < key x := by
      rcases Std.lt_trichotomy k (key x) with h | h | h
      · exact h
      · exact absurd h.symm hx
      · exact absurd h hlt
    rw [hsplit, Ascending, List.pairwise_append, List.pairwise_cons] at ascending
    -- the middle and all behind it is larger, so the place lies before it
    rcases ih ascending.1 h with ⟨front, rest, htake, rfl, hfront, hrest⟩
    refine ⟨front, rest ++ x :: back, ?_, rfl, hfront, ?_⟩
    · rw [hsplit, htake]
      simp
    · intro y hy
      rcases List.mem_append.1 hy with hy | hy
      · exact hrest y hy
      · rcases List.mem_cons.1 hy with rfl | hy
        · exact hgt
        · exact Std.lt_trans hgt (ascending.2.1.1 y hy)

/-- In an ascending list the search finds a member exactly when there is one. -/
theorem isTaken_locate {key : α → κ} {k : κ} {l : List α} (ascending : Ascending key l) :
    (locate key k l).isTaken = (find? key k l).isSome := by
  rw [Bool.eq_iff_iff, isSome_find?]
  cases hlocate : locate key k l with
  | taken i =>
    rcases locateFrom_taken hlocate with ⟨front, x, back, rfl, hx, -⟩
    exact iff_of_true rfl ⟨x, by simp, hx⟩
  | free i =>
    rcases locateFrom_free ascending hlocate with ⟨front, back, rfl, -, hfront, hback⟩
    refine iff_of_false Bool.false_ne_true ?_
    rintro ⟨x, hx, rfl⟩
    rcases List.mem_append.1 hx with hx | hx
    · exact Std.lt_irrefl (hfront x hx)
    · exact Std.lt_irrefl (hback x hx)

/-- A new member is put where the smaller keys end and the larger ones begin. -/
theorem insert_append {key : α → κ} {x : α} {front back : List α}
    (hfront : ∀ y ∈ front, key y < key x) (hback : ∀ y ∈ back, key x < key y) :
    insert key x (front ++ back) = front ++ x :: back := by
  induction front with
  | nil =>
    cases back with
    | nil => rfl
    | cons y back => simp [insert, hback y]
  | cons y front ih =>
    have hy := hfront y List.mem_cons_self
    -- a smaller key is passed over
    have hlt : ¬key x < key y := fun h => Std.lt_irrefl (Std.lt_trans h hy)
    have hne : key x ≠ key y := fun h => Std.lt_irrefl (h ▸ hy)
    rw [List.cons_append, insert, if_neg hlt, if_neg hne,
      ih fun z hz => hfront z (List.mem_cons_of_mem _ hz)]
    rfl

omit [LT κ] [DecidableLT κ] [DecidableEq κ] [LE κ] [Std.IsLinearOrder κ] [Std.LawfulOrderLT κ] in
theorem insertIdx_length_append (front back : List α) (x : α) :
    (front ++ back).insertIdx front.length x = front ++ x :: back := by
  induction front with
  | nil => rfl
  | cons y front ih => rw [List.cons_append, List.length_cons, List.insertIdx_succ_cons, ih]; rfl

/-- A place that is free is the place of a new member. -/
theorem insert_eq_insertIdx {key : α → κ} {x : α} {l : List α} {i : Nat}
    (ascending : Ascending key l) (h : locate key (key x) l = .free i) :
    l.insertIdx i x = insert key x l := by
  rcases locateFrom_free ascending h with ⟨front, back, rfl, rfl, hfront, hback⟩
  rw [insert_append hfront hback, Nat.zero_add]
  exact insertIdx_length_append front back x

omit [DecidableEq κ] in
/-- A key above the last one of an ascending list is above all of them. -/
theorem Ascending.lt_of_getLast? {key : α → κ} {k : κ} {l : List α} (ascending : Ascending key l)
    (hlast : (l.getLast?.all fun x => key x < k) = true) : ∀ x ∈ l, key x < k := by
  rcases List.eq_nil_or_concat l with rfl | ⟨front, last, rfl⟩
  · simp
  · have hlt : key last < k := by simpa using hlast
    rw [Ascending, List.concat_eq_append, List.pairwise_append] at ascending
    intro x hx
    rw [List.concat_eq_append, List.mem_append, List.mem_singleton] at hx
    rcases hx with hx | rfl
    · exact Std.lt_trans (ascending.2.2 x hx last (List.mem_singleton_self last)) hlt
    · exact hlt

/-- A member whose key is above all others is the last. -/
theorem insert_eq_append {key : α → κ} {x : α} {l : List α} (h : ∀ y ∈ l, key y < key x) :
    insert key x l = l ++ [x] := by
  have happend : insert key x (l ++ []) = l ++ [x] := insert_append h (by simp)
  rwa [List.append_nil] at happend

end DocBase.Keyed
