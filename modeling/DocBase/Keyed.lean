/-!
# Lists in ascending order of a key

A finite map from keys to members that know their own key: a list in strictly ascending key order.
Members are found, inserted and removed by key. Main statements: insertion keeps the order
(`ascending_insert`) and finding after inserting answers the new member at its own key and the old
one at every other key (`find?_insert`).
-/

namespace DocBase.Keyed

variable {α κ : Type} [LT κ] [DecidableLT κ] [DecidableEq κ]

/-- Every key is below all later ones, so no key occurs twice. -/
def Ascending (key : α → κ) (l : List α) : Prop :=
  l.Pairwise fun x y => key x < key y

/-- The member with a key. -/
def find? (key : α → κ) (k : κ) (l : List α) : Option α :=
  l.find? fun x => key x = k

/-- Puts a member at its place; it replaces a member with the same key. -/
def insert (key : α → κ) (x : α) : List α → List α
  | [] => [x]
  | y :: ys =>
    if key x < key y then x :: y :: ys
    else if key x = key y then x :: ys
    else y :: insert key x ys

/-- Puts a member at its place unless its key is taken. -/
def insertNew (key : α → κ) (x : α) (l : List α) : List α :=
  if (find? key (key x) l).isSome then l else insert key x l

/-- Removes the member with a key. -/
def erase (key : α → κ) (k : κ) (l : List α) : List α :=
  l.filter fun x => key x ≠ k

/-! ## Order -/

theorem mem_insert_of_mem {key : α → κ} {x y : α} {l : List α} (h : y ∈ insert key x l) :
    y = x ∨ y ∈ l := by
  induction l with
  | nil => simpa [insert] using h
  | cons z zs ih =>
    simp only [insert] at h
    split at h
    · simpa using h
    · split at h
      · rcases List.mem_cons.1 h with h | h
        · exact .inl h
        · exact .inr (List.mem_cons_of_mem _ h)
      · rcases List.mem_cons.1 h with h | h
        · exact .inr (h ▸ List.mem_cons_self)
        · exact (ih h).imp id (List.mem_cons_of_mem _)

variable [LE κ] [Std.IsLinearOrder κ] [Std.LawfulOrderLT κ]

theorem ascending_insert {key : α → κ} {l : List α} (h : Ascending key l) (x : α) :
    Ascending key (insert key x l) := by
  induction l with
  | nil => simp [insert, Ascending]
  | cons y ys ih =>
    have hy := List.pairwise_cons.1 h
    simp only [insert]
    split
    · next hlt =>
      refine List.pairwise_cons.2 ⟨fun z hz => ?_, h⟩
      rcases List.mem_cons.1 hz with rfl | hz
      · exact hlt
      · exact Std.lt_trans hlt (hy.1 z hz)
    · split
      · next heq => exact List.pairwise_cons.2 ⟨fun z hz => heq ▸ hy.1 z hz, hy.2⟩
      · next hlt hne =>
        -- what comes behind is the new member or was there, and the new one is larger here
        refine List.pairwise_cons.2 ⟨fun z hz => ?_, ih hy.2⟩
        rcases mem_insert_of_mem hz with rfl | hz
        · rcases Std.lt_trichotomy (key z) (key y) with h | h | h
          · exact absurd h hlt
          · exact absurd h hne
          · exact h
        · exact hy.1 z hz

theorem ascending_insertNew {key : α → κ} {l : List α} (h : Ascending key l) (x : α) :
    Ascending key (insertNew key x l) := by
  unfold insertNew
  split
  · exact h
  · exact ascending_insert h x

omit [LT κ] [DecidableLT κ] [LE κ] [Std.IsLinearOrder κ] [Std.LawfulOrderLT κ] in
theorem erase_sublist (key : α → κ) (k : κ) (l : List α) : (erase key k l).Sublist l :=
  List.filter_sublist

/-! ## Look-up -/

omit [LE κ] [Std.IsLinearOrder κ] [Std.LawfulOrderLT κ] in
theorem find?_insert_self (key : α → κ) (x : α) (l : List α) :
    find? key (key x) (insert key x l) = some x := by
  induction l with
  | nil => simp [insert, find?]
  | cons y ys ih =>
    simp only [insert]
    split
    · simp [find?]
    · split
      · simp [find?]
      · next hne => simpa [find?, Ne.symm hne] using ih

omit [LE κ] [Std.IsLinearOrder κ] [Std.LawfulOrderLT κ] in
theorem find?_insert_ne {key : α → κ} {x : α} {k : κ} (h : key x ≠ k) (l : List α) :
    find? key k (insert key x l) = find? key k l := by
  induction l with
  | nil => simp [insert, find?, h]
  | cons y ys ih =>
    simp only [insert]
    split
    · simp [find?, h]
    · split
      · next heq => simp [find?, h, heq ▸ h]
      · simp only [find?, List.find?_cons] at ih ⊢
        split
        · rfl
        · exact ih

omit [LE κ] [Std.IsLinearOrder κ] [Std.LawfulOrderLT κ] in
/-- Finding after inserting. -/
theorem find?_insert (key : α → κ) (x : α) (k : κ) (l : List α) :
    find? key k (insert key x l) = if key x = k then some x else find? key k l := by
  split
  · next h => exact h ▸ find?_insert_self key x l
  · next h => exact find?_insert_ne h l

omit [LT κ] [DecidableLT κ] [LE κ] [Std.IsLinearOrder κ] [Std.LawfulOrderLT κ] in
theorem find?_erase (key : α → κ) (k k' : κ) (l : List α) :
    find? key k' (erase key k l) = if k' = k then none else find? key k' l := by
  induction l with
  | nil => simp [erase, find?]
  | cons y ys ih =>
    simp only [erase, find?] at ih ⊢
    -- whether this member is erased, and whether it is looked for
    by_cases hy : key y = k <;> by_cases hk : key y = k' <;> simp_all

omit [LT κ] [DecidableLT κ] [LE κ] [Std.IsLinearOrder κ] [Std.LawfulOrderLT κ] in
/-- What is found is a member with the key. -/
theorem mem_of_find? {key : α → κ} {k : κ} {l : List α} {x : α} (h : find? key k l = some x) :
    x ∈ l ∧ key x = k :=
  ⟨List.mem_of_find?_eq_some h, by simpa using List.find?_some h⟩

omit [LT κ] [DecidableLT κ] [LE κ] [Std.IsLinearOrder κ] [Std.LawfulOrderLT κ] in
/-- Some member has a key exactly when one is found. -/
theorem isSome_find? {key : α → κ} {k : κ} {l : List α} :
    (find? key k l).isSome = true ↔ ∃ x ∈ l, key x = k := by
  rw [find?, List.find?_isSome]
  simp

omit [DecidableLT κ] [Std.IsLinearOrder κ] in
/-- In an ascending list every member is found by its key. -/
theorem find?_of_mem {key : α → κ} {l : List α} (h : Ascending key l) {x : α} (hx : x ∈ l) :
    find? key (key x) l = some x := by
  induction l with
  | nil => simp at hx
  | cons y ys ih =>
    have hy := List.pairwise_cons.1 h
    rcases List.mem_cons.1 hx with rfl | hx
    · simp [find?]
    · have hne : key y ≠ key x := fun heq => Std.lt_irrefl (heq ▸ hy.1 x hx)
      simpa [find?, hne] using ih hy.2 hx

/-! ## Members changed under their keys -/

section Map

variable {key : α → κ} {f : α → α}

omit [LT κ] [DecidableLT κ] [LE κ] [Std.IsLinearOrder κ] [Std.LawfulOrderLT κ] in
theorem find?_map (hf : ∀ x, key (f x) = key x) (k : κ) (l : List α) :
    find? key k (l.map f) = (find? key k l).map f := by
  rw [find?, find?, List.find?_map]
  simp only [Function.comp_def, hf]

omit [LE κ] [Std.IsLinearOrder κ] [Std.LawfulOrderLT κ] in
theorem insert_map (hf : ∀ x, key (f x) = key x) (x : α) (l : List α) :
    insert key (f x) (l.map f) = (insert key x l).map f := by
  induction l with
  | nil => rfl
  | cons y ys ih =>
    simp only [List.map_cons, insert, hf, ih]
    split
    · rfl
    · split <;> rfl

end Map

end DocBase.Keyed
