import DocBase.Query.Grammar.Match
/-!
# What rules make of a text

A rule reads a value off the front of a text or rejects the text. Which of the two it does follows
from what its parts do; so does what can be said of all its values. Main statements:

* `Rule.ReadsMany.many` — a repetition goes on as long as its rule matches;
* `Rule.Yields.bind` — what a rule yields follows from what its parts yield.
-/

namespace DocBase.Query.Grammar.Rule

variable {α β : Type}

/-- The rule takes a value off the front of the text and leaves the rest. -/
def Reads (p : Rule α) (s : List Char) (a : α) (rest : List Char) : Prop :=
  (p s).result = some (a, rest)

/-- The rule fails on the text. -/
def Rejects (p : Rule α) (s : List Char) : Prop := (p s).result = none

section

variable {p q : Rule α} {f : α → Rule β} {s rest rest' : List Char} {a : α} {b : β}

namespace Reads

theorem pure (a : α) (s : List Char) : (Pure.pure a : Rule α).Reads s a s := by
  rw [Reads, result_pure]

/-- The value may be given in another form. -/
theorem pure_of_eq {a' : α} (h : a = a') (s : List Char) : (Pure.pure a : Rule α).Reads s a' s :=
  h ▸ pure a s

theorem bind (hp : p.Reads s a rest) (hf : (f a).Reads rest b rest') :
    (p >>= f).Reads s b rest' := by
  rw [Reads, result_bind_of_some hp]
  exact hf

/-- The second of two rules fails where the first one ends. -/
theorem bind_rejects (hp : p.Reads s a rest) (hf : (f a).Rejects rest) : (p >>= f).Rejects s := by
  rw [Rejects, result_bind_of_some hp]
  exact hf

theorem named (h : p.Reads s a rest) : p.named.Reads s a rest := by
  rw [Reads, result_named]
  exact h

theorem orElse (h : p.Reads s a rest) (q : Rule α) : (p.orElse q).Reads s a rest := by
  rw [Reads, result_orElse, h, Option.some_or]

theorem optional (h : p.Reads s a rest) : p.optional.Reads s (some a) rest := by
  unfold Reads Rule.optional
  split
  · next hp => simp [Reads, hp] at h
  · next hp =>
    simp only [Reads, hp, Option.some.injEq, Prod.mk.injEq] at h
    simp [h]

theorem scan {size : α → Nat} {f : List Char → Option (α × List Char)} (h : f s = some (a, rest)) :
    (Rule.scan size f).Reads s a rest := by
  simp [Reads, Rule.scan, h]

end Reads

namespace Rejects

theorem bind (h : p.Rejects s) (f : α → Rule β) : (p >>= f).Rejects s :=
  result_bind_of_none h

theorem named (h : p.Rejects s) : p.named.Rejects s := by
  rw [Rejects, result_named]
  exact h

theorem orElse (hp : p.Rejects s) (hq : q.Rejects s) : (p.orElse q).Rejects s := by
  rw [Rejects, result_orElse, hp, hq, Option.none_or]

/-- The second of two choices is tried where the first one fails. -/
theorem orElse_reads (hp : p.Rejects s) (hq : q.Reads s a rest) : (p.orElse q).Reads s a rest := by
  rw [Reads, result_orElse, hp, Option.none_or]
  exact hq

theorem optional (h : p.Rejects s) : p.optional.Reads s none s := by
  unfold Reads Rule.optional
  split
  · rfl
  · next hp => simp [Rejects, hp] at h

theorem scan {size : α → Nat} {f : List Char → Option (α × List Char)} (h : f s = none) :
    (Rule.scan size f).Rejects s := by
  simp [Rejects, Rule.scan, h]

end Rejects

theorem exists_reads_of_bind (h : (p >>= f).Reads s b rest) :
    ∃ a rest', p.Reads s a rest' ∧ (f a).Reads rest' b rest := by
  cases hp : (p s).result with
  | none =>
    rw [Reads, result_bind_of_none hp] at h
    simp at h
  | some v =>
    rw [Reads, result_bind_of_some hp] at h
    exact ⟨v.1, v.2, hp, h⟩

end

/-! ## Repetitions -/

/-- The rule matches again and again, takes some text each time, and in the end fails. -/
inductive ReadsMany (p : Rule α) : List Char → List α → List Char → Prop where
  | stop {s : List Char} (h : p.Rejects s) : ReadsMany p s [] s
  | step {s r rest : List Char} {a : α} {as : List α} (h : p.Reads s a r)
      (shorter : r.length < s.length) (more : ReadsMany p r as rest) : ReadsMany p s (a :: as) rest

theorem ReadsMany.upTo {p : Rule α} {s rest : List Char} {as : List α} (h : p.ReadsMany s as rest) :
    ∀ clock : List Char, s.length ≤ clock.length → (p.upTo clock).Reads s as rest := by
  -- every match takes something off, so the clock outlasts the matches
  induction h with
  | stop h =>
    intro clock _
    unfold Reads Rule.upTo
    split
    · rfl
    · next hp => simp [Rejects, hp] at h
  | @step s r rest a as h shorter _ ih =>
    intro clock hclock
    rcases clock with _ | ⟨c, clock⟩
    · simp only [List.length_nil] at hclock
      omega
    · have more := ih clock (by simp only [List.length_cons] at hclock; omega)
      unfold Reads Rule.upTo
      split
      · -- the rule does match here, so it is not refused
        next hp => simp [Reads, hp] at h
      · next hp =>
        simp only [Reads, hp, Option.some.injEq, Prod.mk.injEq] at h
        obtain ⟨rfl, rfl⟩ := h
        rw [Reads] at more
        simp [more]

/-- A repetition goes on as long as its rule matches. -/
theorem ReadsMany.many {p : Rule α} {s rest : List Char} {as : List α}
    (h : p.ReadsMany s as rest) : p.many.Reads s as rest :=
  h.upTo s (Nat.le_refl _)

/-! ## Values -/

variable {P : α → Prop} {Q : β → Prop}

/-- Every value of the rule is such. -/
def Yields (p : Rule α) (P : α → Prop) : Prop := ∀ s a rest, p.Reads s a rest → P a

namespace Yields

theorem trivial (p : Rule α) : p.Yields fun _ => True := fun _ _ _ _ => ⟨⟩

theorem mono {P' : α → Prop} {p : Rule α} (h : p.Yields P) (himp : ∀ a, P a → P' a) :
    p.Yields P' :=
  fun s a rest hs => himp a (h s a rest hs)

theorem pure {a : α} (h : P a) : (Pure.pure a : Rule α).Yields P := by
  intro s b rest hs
  rw [Reads, result_pure] at hs
  simp only [Option.some.injEq, Prod.mk.injEq] at hs
  exact hs.1 ▸ h

theorem bind {p : Rule α} {f : α → Rule β} (hp : p.Yields P) (hf : ∀ a, P a → (f a).Yields Q) :
    (p >>= f).Yields Q := by
  intro s b rest h
  rcases exists_reads_of_bind h with ⟨a, rest', ha, hb⟩
  exact hf a (hp s a rest' ha) rest' b rest hb

/-- A step whose value does not matter. -/
theorem after {p : Rule α} {f : α → Rule β} (hf : ∀ a, (f a).Yields Q) : (p >>= f).Yields Q :=
  (Yields.trivial p).bind fun a _ => hf a

theorem named {p : Rule α} (h : p.Yields P) : p.named.Yields P := by
  intro s a rest hs
  rw [Reads, result_named] at hs
  exact h s a rest hs

theorem orElse {p q : Rule α} (hp : p.Yields P) (hq : q.Yields P) : (p.orElse q).Yields P := by
  intro s a rest h
  rw [Reads, result_orElse, Option.or_eq_some_iff] at h
  rcases h with h | ⟨-, h⟩
  · exact hp s a rest h
  · exact hq s a rest h

theorem scan {size : α → Nat} {f : List Char → Option (α × List Char)}
    (h : ∀ s a rest, f s = some (a, rest) → P a) : (Rule.scan size f).Yields P := by
  intro s a rest hs
  unfold Reads Rule.scan at hs
  split at hs
  · simp at hs
  · next hf =>
    simp only [Option.some.injEq, Prod.mk.injEq] at hs
    obtain ⟨rfl, rfl⟩ := hs
    exact h s _ _ hf

theorem optional {p : Rule α} (h : p.Yields P) : p.optional.Yields fun o => ∀ a ∈ o, P a := by
  intro s o rest hs a ha
  unfold Reads Rule.optional at hs
  split at hs
  · simp only [Option.some.injEq, Prod.mk.injEq] at hs
    rw [← hs.1] at ha
    simp at ha
  · next hp =>
    simp only [Option.some.injEq, Prod.mk.injEq] at hs
    rw [← hs.1, Option.mem_some_iff] at ha
    exact ha ▸ h s _ _ (by rw [Reads, hp])

theorem upTo {p : Rule α} (h : p.Yields P) (clock : List Char) :
    (p.upTo clock).Yields fun as => ∀ a ∈ as, P a := by
  -- on the clock; when it has run out one match more is still tried
  induction clock with
  | nil =>
    intro s as rest hs
    unfold Reads Rule.upTo at hs
    split at hs
    · simp only [Option.some.injEq, Prod.mk.injEq] at hs
      simp [← hs.1]
    · next hp =>
      simp only [Option.some.injEq, Prod.mk.injEq] at hs
      simpa [← hs.1] using h s _ _ (by rw [Reads, hp])
  | cons c clock ih =>
    intro s as rest hs
    unfold Reads Rule.upTo at hs
    split at hs
    · simp only [Option.some.injEq, Prod.mk.injEq] at hs
      simp [← hs.1]
    · next a rest' k far hp =>
      simp only [Option.map_eq_some_iff, Prod.mk.injEq] at hs
      rcases hs with ⟨⟨others, r⟩, hothers, heq, -⟩
      have head := h s a rest' (by rw [Reads, hp])
      have tail := ih rest' others r hothers
      rw [← heq]
      simpa using ⟨head, tail⟩

theorem many {p : Rule α} (h : p.Yields P) : p.many.Yields fun as => ∀ a ∈ as, P a :=
  fun s => h.upTo s s

end Yields

end DocBase.Query.Grammar.Rule
