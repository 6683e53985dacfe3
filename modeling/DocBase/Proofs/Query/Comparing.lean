import DocBase.Query.Comparing
import Mathlib.Data.List.Basic
/-!
# Comparing either way round

To compare two values the other way round gives the opposite order, or fails as well. A comparison
of sequences looks at one pair of items after another until some pair satisfies it; where no pair
fails, neither the order of the items nor their repeats matter, and the sequences may change sides
if the operator is turned round. Main statements:

* `Atomic.code_of_compare` and `Atomic.exists_compare_error` — pairs that fail, either way round;
* `generalCompare_eq_ok` — whether some pair satisfies the operator;
* `generalCompare_either_way` — what can be seen of it in the operands.
-/

namespace DocBase.Query

variable {op : Comparison} {left right : Sequence} {a b : Atomic} {o : Option Ordering}
  {e : QueryError}

/-! ## Two values -/

theorem code_of_map_untypedNumber {s : String} {f : Double → Option Ordering}
    (h : (untypedNumber s).map f = .error e) : e.code = .xpty0004 := by
  unfold untypedNumber at h
  split at h
  · simp [Except.map] at h
  · obtain rfl := Except.error.inj h
    rfl

namespace Atomic

/-- Values that cannot be compared have the wrong type. -/
theorem code_of_compare (h : a.compare b = .error e) : e.code = .xpty0004 := by
  unfold compare at h
  split at h
  case h_7 =>
    split at h
    · simp at h
    · exact code_of_map_untypedNumber h
    · exact code_of_map_untypedNumber h
    · obtain rfl := Except.error.inj h
      rfl
  all_goals simp at h

/-- Values that cannot be compared cannot be compared the other way round either. -/
theorem exists_compare_error (h : a.compare b = .error e) :
    ∃ e', b.compare a = .error e' ∧ e'.code = e.code := by
  cases hback : b.compare a with
  | ok o =>
    rw [compare_comm hback] at h
    contradiction
  | error e' => exact ⟨e', rfl, (code_of_compare hback).trans (code_of_compare h).symm⟩

end Atomic

/-! ## Operators -/

namespace Comparison

/-- The orders that satisfy an operator. Values without an order are unequal, and nothing else. -/
def Allows : Comparison → Option Ordering → Prop
  | eq, o => o = some .eq
  | ne, o => o ≠ some .eq
  | lt, o => o = some .lt
  | le, o => o = some .lt ∨ o = some .eq
  | gt, o => o = some .gt
  | ge, o => o = some .gt ∨ o = some .eq

theorem holds_iff : op.holds o = true ↔ op.Allows o := by
  rcases o with _ | (_ | _ | _) <;> cases op <;> simp [holds, Allows]

/-- The operator that says the same of two values the other way round. -/
def mirrored : Comparison → Comparison
  | eq => eq
  | ne => ne
  | lt => gt
  | le => ge
  | gt => lt
  | ge => le

theorem mirrored_mirrored : op.mirrored.mirrored = op := by
  cases op <;> rfl

theorem allows_mirrored : op.mirrored.Allows (o.map Ordering.swap) ↔ op.Allows o := by
  rcases o with _ | (_ | _ | _) <;> cases op <;> simp [mirrored, Allows]

end Comparison

/-! ## Sequences -/

/-- No pair of items fails to compare. -/
def Comparable (left right : Sequence) : Prop :=
  ∀ l ∈ left, ∀ r ∈ right, ∃ o, l.atomize.compare r.atomize = .ok o

/-- The pair compares and satisfies the operator. -/
def Satisfies (op : Comparison) (l r : Item) : Prop :=
  ∃ o, l.atomize.compare r.atomize = .ok o ∧ op.Allows o

theorem Comparable.symm (h : Comparable left right) : Comparable right left := by
  intro r hr l hl
  rcases h l hl r hr with ⟨o, ho⟩
  exact ⟨_, Atomic.compare_comm ho⟩

/-- A pair satisfies an operator just if it satisfies the mirrored one the other way round. -/
theorem Satisfies.mirrored {l r : Item} (h : Satisfies op l r) : Satisfies op.mirrored r l := by
  rcases h with ⟨o, ho, hallows⟩
  exact ⟨_, Atomic.compare_comm ho, Comparison.allows_mirrored.2 hallows⟩

theorem satisfies_mirrored_iff {l r : Item} : Satisfies op.mirrored r l ↔ Satisfies op l r := by
  constructor
  · intro h
    have hback := h.mirrored
    rwa [Comparison.mirrored_mirrored] at hback
  · exact Satisfies.mirrored

/-- The items of the right are tried until one satisfies the operator. -/
theorem holdsForSome_eq_ok (op : Comparison) {l : Item}
    (h : ∀ r ∈ right, ∃ o, l.atomize.compare r.atomize = .ok o) :
    ∃ found, holdsForSome op l.atomize right = .ok found ∧
      (found = true ↔ ∃ r ∈ right, Satisfies op l r) := by
  induction right with
  | nil => exact ⟨false, rfl, by simp⟩
  | cons r rs ih =>
    rcases List.forall_mem_cons.1 h with ⟨⟨o, ho⟩, hrest⟩
    have hfirst : Satisfies op l r ↔ op.holds o = true := by
      simp [Satisfies, ho, Comparison.holds_iff]
    simp only [List.mem_cons, exists_eq_or_imp, hfirst]
    -- the first pair that satisfies the operator ends the search
    cases hholds : op.holds o with
    | true => exact ⟨true, by simp [holdsForSome, ho, hholds], by simp⟩
    | false =>
      rcases ih hrest with ⟨found, hfound, hiff⟩
      exact ⟨found, by simp [holdsForSome, ho, hholds, hfound], by simpa using hiff⟩

/-- Where no pair fails, a comparison tells whether some pair satisfies the operator. -/
theorem generalCompare_eq_ok (op : Comparison) (h : Comparable left right) :
    ∃ found, generalCompare op left right = .ok found ∧
      (found = true ↔ ∃ l ∈ left, ∃ r ∈ right, Satisfies op l r) := by
  induction left with
  | nil => exact ⟨false, rfl, by simp⟩
  | cons l ls ih =>
    rcases List.forall_mem_cons.1 h with ⟨hfirst, hrest⟩
    rcases holdsForSome_eq_ok op hfirst with ⟨found, hfound, hiff⟩
    simp only [List.mem_cons, exists_eq_or_imp, ← hiff]
    cases found with
    | true => exact ⟨true, by simp [generalCompare, hfound], by simp⟩
    | false =>
      rcases ih hrest with ⟨others, hothers, hiff'⟩
      exact ⟨others, by simp [generalCompare, hfound, hothers], by simpa using hiff'⟩

/-- Two comparisons in which the same is asked of some pair come to the same. -/
theorem generalCompare_congr {op' : Comparison} {left' right' : Sequence}
    (h : Comparable left right) (h' : Comparable left' right')
    (hsame : (∃ l ∈ left', ∃ r ∈ right', Satisfies op' l r) ↔
      ∃ l ∈ left, ∃ r ∈ right, Satisfies op l r) :
    generalCompare op' left' right' = generalCompare op left right := by
  rcases generalCompare_eq_ok op h with ⟨found, hfound, hiff⟩
  rcases generalCompare_eq_ok op' h' with ⟨found', hfound', hiff'⟩
  have heq : found' = found := Bool.eq_iff_iff.2 (hiff'.trans (hsame.trans hiff.symm))
  rw [hfound, hfound', heq]

/-- To compare two values the other way round gives the opposite order, or an error of the same
code. Where no pair of items fails to compare, a comparison of sequences is true exactly if some
pair satisfies the operator; so it is the same for all sequences with the same items, in whatever
order and however often they occur, and for the sequences on the other side with the operator turned
round. -/
theorem generalCompare_either_way :
    (∀ a b : Atomic, (∀ o, a.compare b = .ok o → b.compare a = .ok (o.map Ordering.swap)) ∧
      ∀ e, a.compare b = .error e → ∃ e', b.compare a = .error e' ∧ e'.code = e.code) ∧
    ∀ (op : Comparison) (left right : Sequence), Comparable left right →
      (∃ found, generalCompare op left right = .ok found ∧
        (found = true ↔ ∃ l ∈ left, ∃ r ∈ right, Satisfies op l r)) ∧
      (∀ left' right', (∀ i, i ∈ left' ↔ i ∈ left) → (∀ i, i ∈ right' ↔ i ∈ right) →
        generalCompare op left' right' = generalCompare op left right) ∧
      generalCompare op.mirrored right left = generalCompare op left right := by
  refine ⟨fun a b => ⟨fun o => Atomic.compare_comm, fun e => Atomic.exists_compare_error⟩, ?_⟩
  intro op left right h
  refine ⟨generalCompare_eq_ok op h, fun left' right' hleft hright => ?_, ?_⟩
  · -- the items are the same, so every pair still compares
    have h' : Comparable left' right' :=
      fun l hl r hr => h l ((hleft l).1 hl) r ((hright r).1 hr)
    exact generalCompare_congr h h' (by simp only [hleft, hright])
  · -- each pair is compared the other way round
    refine generalCompare_congr h h.symm ?_
    simp only [satisfies_mirrored_iff]
    constructor
    · rintro ⟨r, hr, l, hl, hlr⟩
      exact ⟨l, hl, r, hr, hlr⟩
    · rintro ⟨l, hl, r, hr, hlr⟩
      exact ⟨r, hr, l, hl, hlr⟩

/-- Among these pairs are numbers, texts that are read as numbers, and a NaN, which is ordered with
nothing. -/
theorem generalCompare_either_way_unordered :
    let one : Item := .atomic (.integer 1)
    let two : Item := .atomic (.untyped "2")
    let three : Item := .atomic (.double (.ofInt 3))
    let nan : Item := .atomic (.double .nan)
    generalCompare .lt [one, two] [nan, three] = .ok true ∧
    generalCompare .lt [two, one, two] [three, nan] = .ok true ∧
    generalCompare .gt [nan, three] [one, two] = .ok true ∧
    generalCompare .ge [one, two] [nan, three] = .ok false ∧
    generalCompare .le [nan, three] [one, two] = .ok false := by
  intro one two three nan
  have hcomparable : Comparable [one, two] [nan, three] := by
    have hall : ∀ l ∈ [one, two], ∀ r ∈ [nan, three],
        (l.atomize.compare r.atomize).toOption.isSome = true := by decide +kernel
    intro l hl r hr
    cases ho : l.atomize.compare r.atomize with
    | ok o => exact ⟨o, rfl⟩
    | error e =>
      have hsome := hall l hl r hr
      simp [ho, Except.toOption] at hsome
  have hsame := fun op => (generalCompare_either_way.2 op _ _ hcomparable).2
  have hless : generalCompare .lt [one, two] [nan, three] = .ok true := by decide +kernel
  have hgreater : generalCompare .ge [one, two] [nan, three] = .ok false := by decide +kernel
  refine ⟨hless, ?_, ?_, hgreater, ?_⟩
  · rw [← hless]
    exact (hsame .lt).1 _ _ (by simp) (by simp [or_comm])
  · rw [← hless]
    exact (hsame .lt).2
  · rw [← hgreater]
    exact (hsame .ge).2

end DocBase.Query
