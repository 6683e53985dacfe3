/-!
# Matching rules

A rule looks at the beginning of a text: it matches and leaves a value and the rest of the text, or
it fails. Choices are ordered and repetitions take as much as they can. Along the way a match counts
the characters it takes and notes how far into the text the rules that failed had begun, so that an
error can be placed where the farthest of them did, even if another alternative was then tried in
its stead. Only rules that are `named` are noted. What a rule matches never depends on the count and
the notes: they are an output only.
-/

namespace DocBase.Query.Grammar

/-- What a rule made of a text. -/
structure Match (α : Type) where
  /-- The value and the text behind the match. -/
  result : Option (α × List Char)
  /-- How many characters the match took. -/
  taken : Nat := 0
  /-- How many characters into the text the farthest of the failed rules began. -/
  farthest : Option Nat := none

def Rule (α : Type) : Type := List Char → Match α

namespace Rule

variable {α β : Type}

/-- The farther of two places. -/
def farther : Option Nat → Option Nat → Option Nat
  | some m, some n => some (max m n)
  | some m, none => some m
  | none, n => n

/-- Fails on every text. -/
def fail : Rule α := fun _ => { result := none }

/-- Matches without taking any text. -/
protected def pure (a : α) : Rule α := fun s => { result := some (a, s) }

/-- One rule after another. -/
protected def bind (p : Rule α) (f : α → Rule β) : Rule β := fun s =>
  match p s with
  | ⟨none, _, far⟩ => ⟨none, 0, far⟩
  | ⟨some (a, rest), k, far⟩ =>
    let m := f a rest
    -- the second rule counts from where the first one ended
    ⟨m.result, k + m.taken, farther far (m.farthest.map (k + ·))⟩

instance : Monad Rule where
  pure := Rule.pure
  bind := Rule.bind

/-- A match by a function that takes a value off the front of the text, whose characters `size`
counts. -/
def scan (size : α → Nat) (f : List Char → Option (α × List Char)) : Rule α := fun s =>
  match f s with
  | none => { result := none }
  | some (a, rest) => { result := some (a, rest), taken := size a }

/-- Notes where the rule begins if it fails. A rule inside it that failed began no earlier. -/
def named (p : Rule α) : Rule α := fun s =>
  match p s with
  | ⟨none, _, far⟩ => ⟨none, 0, some (far.getD 0)⟩
  | m => m

/-- The second rule is tried only where the first fails. -/
def orElse (p q : Rule α) : Rule α := fun s =>
  match p s with
  | ⟨none, _, far⟩ =>
    let m := q s
    ⟨m.result, m.taken, farther far m.farthest⟩
  | m => m

/-- The rule or nothing. -/
def optional (p : Rule α) : Rule (Option α) := fun s =>
  match p s with
  | ⟨none, _, far⟩ => ⟨some (none, s), 0, far⟩
  | ⟨some (a, rest), k, far⟩ => ⟨some (some a, rest), k, far⟩

/-- The rule as often as it matches, but at most once more than `clock` has elements. -/
def upTo (p : Rule α) (clock : List Char) : Rule (List α) := fun s =>
  match p s with
  | ⟨none, _, far⟩ => ⟨some ([], s), 0, far⟩
  | ⟨some (a, rest), k, far⟩ =>
    match clock with
    | [] => ⟨some ([a], rest), k, far⟩
    | _ :: clock =>
      let m := upTo p clock rest
      ⟨m.result.map fun (as, r) => (a :: as, r), k + m.taken,
        farther far (m.farthest.map (k + ·))⟩

/-- The rule as often as it matches. A rule that matches some text each time fails at the latest
where the text ends. -/
def many (p : Rule α) : Rule (List α) := fun s => p.upTo s s

/-! ## Results -/

theorem result_pure (a : α) (s : List Char) :
    (pure a : Rule α) s = { result := some (a, s) } := rfl

theorem result_bind_of_some {p : Rule α} {f : α → Rule β} {s rest : List Char} {a : α}
    (h : (p s).result = some (a, rest)) : ((p >>= f) s).result = (f a rest).result := by
  show (Rule.bind p f s).result = _
  unfold Rule.bind
  split
  · next hp => simp [hp] at h
  · next hp =>
    simp only [hp, Option.some.injEq, Prod.mk.injEq] at h
    simp [h.1, h.2]

theorem result_bind_of_none {p : Rule α} {f : α → Rule β} {s : List Char}
    (h : (p s).result = none) : ((p >>= f) s).result = none := by
  show (Rule.bind p f s).result = none
  unfold Rule.bind
  split
  · rfl
  · next hp => simp [hp] at h

@[simp] theorem result_named (p : Rule α) (s : List Char) :
    (p.named s).result = (p s).result := by
  unfold named
  split
  · next hp => simp [hp]
  · rfl

theorem result_orElse (p q : Rule α) (s : List Char) :
    (p.orElse q s).result = (p s).result.or (q s).result := by
  unfold orElse
  split
  · next hp => simp [hp]
  · next hp =>
    cases h : p s with
    | mk r k far =>
      cases r with
      | none => exact absurd h (hp k far)
      | some v => rfl

end Rule
end DocBase.Query.Grammar
