import DocBase.Proofs.Query.Grammar.Matching
import DocBase.Query.Grammar.Token
/-!
# Layout

What may stand between two tokens without being part of either: spaces, and comments that nest. The
parser passes over exactly that. Main statements:

* `commentEnd?_append` — a comment ends where its own mark ends it, not where an inner one does;
* `reads_layout` — layout ends before the next token.
-/

namespace DocBase.Query.Grammar

/-- The text of a comment: other comments, and characters that cannot be taken for their marks. -/
inductive IsComment : List Char → Prop where
  | nil : IsComment []
  | plain {c : Char} {t : List Char} (other : c ∉ ['(', ':', ')']) (rest : IsComment t) :
      IsComment (c :: t)
  | nested {t u : List Char} (inner : IsComment t) (rest : IsComment u) :
      IsComment ('(' :: ':' :: t ++ ':' :: ')' :: u)

/-- Spaces and comments in any number and order. -/
inductive IsLayout : List Char → Prop where
  | nil : IsLayout []
  | space {c : Char} {l : List Char} (space : c ∈ [' ', '\t', '\r', '\n']) (rest : IsLayout l) :
      IsLayout (c :: l)
  | comment {t l : List Char} (text : IsComment t) (rest : IsLayout l) :
      IsLayout ('(' :: ':' :: t ++ ':' :: ')' :: l)

/-- A text that does not go on with layout. -/
structure IsSolid (s : List Char) : Prop where
  no_space : ∀ c r, s = c :: r → isSpace c = false
  no_comment : ∀ r, s ≠ '(' :: ':' :: r

/-- A text that is empty or begins with one of some characters. -/
def BeginsIn (cs s : List Char) : Prop := ∀ c r, s = c :: r → c ∈ cs

/-- A text before which a token has come to its end: the text ends too, or goes on with layout. -/
abbrev Ends (s : List Char) : Prop := BeginsIn ['(', ' ', '\t', '\r', '\n'] s

theorem isSpace_iff {c : Char} : isSpace c = true ↔ c ∈ [' ', '\t', '\r', '\n'] := by
  simp [isSpace, or_assoc]

namespace IsSolid

theorem nil : IsSolid [] := ⟨by simp, by simp⟩

theorem cons {c : Char} {r : List Char} (hspace : c ∉ ['(', ' ', '\t', '\r', '\n']) :
    IsSolid (c :: r) := by
  constructor
  · intro d r' h
    obtain ⟨rfl, -⟩ := List.cons.inj h
    rw [Bool.eq_false_iff]
    intro hd
    exact hspace (List.mem_cons_of_mem _ (isSpace_iff.1 hd))
  · intro r' h
    obtain ⟨rfl, -⟩ := List.cons.inj h
    simp at hspace

/-- An opening parenthesis that is followed by layout is not the beginning of a comment. -/
theorem parenthesis {r : List Char} (h : Ends r) : IsSolid ('(' :: r) := by
  constructor
  · intro d r' heq
    obtain ⟨rfl, -⟩ := List.cons.inj heq
    decide
  · intro r' heq
    obtain ⟨-, rfl⟩ := List.cons.inj heq
    exact absurd (h ':' r' rfl) (by decide)

end IsSolid

namespace BeginsIn

variable {cs s : List Char}

theorem nil (cs : List Char) : BeginsIn cs [] := fun _ _ h => by simp at h

theorem cons {c : Char} (h : c ∈ cs) (r : List Char) : BeginsIn cs (c :: r) := by
  intro d r' heq
  exact (List.cons.inj heq).1 ▸ h

theorem mono {cs' : List Char} (h : BeginsIn cs s) (hsub : cs ⊆ cs') : BeginsIn cs' s :=
  fun c r heq => hsub (h c r heq)

theorem ne_cons (h : BeginsIn cs s) {c : Char} (hc : c ∉ cs) (r : List Char) : s ≠ c :: r :=
  fun heq => hc (h c r heq)

/-- A text that begins otherwise than layout is no layout. -/
theorem solid (h : BeginsIn cs s) (hcs : ∀ c ∈ cs, c ∉ ['(', ' ', '\t', '\r', '\n']) :
    IsSolid s := by
  cases s with
  | nil => exact .nil
  | cons c r => exact .cons (hcs c (h c r rfl))

end BeginsIn

/-- Layout ends the token before it. -/
theorem IsLayout.ends {l : List Char} (h : IsLayout l) (hne : l ≠ []) (s : List Char) :
    Ends (l ++ s) := by
  cases h with
  | nil => exact absurd rfl hne
  | space hspace _ => exact .cons (List.mem_cons_of_mem _ hspace) _
  | comment _ _ => exact .cons (by simp) _

/-! ## Comments -/

/-- A comment ends where its own mark ends it. -/
theorem commentEnd?_append {t : List Char} (h : IsComment t) :
    ∀ (clock : List Char) (k : Nat) (rest : List Char), t.length < clock.length →
      commentEnd? clock k (t ++ ':' :: ')' :: rest) = some (k + t.length + 2, rest) := by
  -- on the comment; the clock is spent by a character at a time, or by a whole inner comment
  induction h with
  | nil =>
    intro clock k rest hclock
    rcases clock with _ | ⟨x, clock⟩
    · simp at hclock
    · simp [commentEnd?]
  | @plain c t other _ ih =>
    intro clock k rest hclock
    rcases clock with _ | ⟨x, clock⟩
    · simp at hclock
    · have hlt : t.length < clock.length := by simpa using hclock
      -- neither mark begins here, as the text of a comment says
      have step : commentEnd? (x :: clock) k (c :: (t ++ ':' :: ')' :: rest)) =
          commentEnd? clock (k + 1) (t ++ ':' :: ')' :: rest) := by
        simp only [List.mem_cons, List.not_mem_nil, or_false, not_or] at other
        rw [commentEnd?.eq_def]
        split <;> simp_all
      rw [List.cons_append, step, ih clock (k + 1) rest hlt, List.length_cons]
      congr 2
      omega
  | @nested t u _ _ iht ihu =>
    intro clock k rest hclock
    rcases clock with _ | ⟨x, clock⟩
    · simp at hclock
    · simp only [List.length_append, List.length_cons] at hclock
      -- the mark that ends the inner comment comes before the one that ends the outer one
      have inner := iht clock (k + 2) (u ++ ':' :: ')' :: rest) (by omega)
      have outer := ihu clock (k + 2 + t.length + 2) rest (by omega)
      simp only [List.cons_append, List.append_assoc, commentEnd?, inner, outer, List.length_append,
        List.length_cons]
      congr 2
      omega

/-! ## Layout -/

theorem skipLayout_of_solid {s : List Char} (h : IsSolid s) (clock : List Char) (k : Nat) :
    skipLayout clock k s = (k, s) := by
  rw [skipLayout.eq_def]
  split
  · next rest => exact absurd rfl (h.no_comment rest)
  · next c rest _ => simp [h.no_space c rest rfl]
  · rfl

theorem skipLayout_append {l : List Char} (h : IsLayout l) {s : List Char} (hs : IsSolid s) :
    ∀ (clock : List Char) (k : Nat), l.length ≤ clock.length →
      skipLayout clock k (l ++ s) = (k + l.length, s) := by
  -- on the layout; every step but the last leaves less of it
  induction h with
  | nil =>
    intro clock k _
    exact skipLayout_of_solid hs clock k
  | @space c l space _ ih =>
    intro clock k hclock
    rcases clock with _ | ⟨x, clock⟩
    · simp at hclock
    · have hle : l.length ≤ clock.length := by simpa using hclock
      -- a space is no parenthesis, so it is not taken for a comment
      have hc := isSpace_iff.2 space
      have hparen : c ≠ '(' := by
        rintro rfl
        simp at space
      have step : skipLayout (x :: clock) k (c :: (l ++ s)) =
          skipLayout clock (k + 1) (l ++ s) := by
        simp [skipLayout, hparen, hc]
      rw [List.cons_append, step, ih clock (k + 1) hle, List.length_cons]
      congr 1
      omega
  | @comment t l text _ ih =>
    intro clock k hclock
    rcases clock with _ | ⟨x, clock⟩
    · simp at hclock
    · simp only [List.length_append, List.length_cons] at hclock
      -- the comment is skipped as a whole, with a clock that is as long as what follows it
      have inner := commentEnd?_append text (t ++ ':' :: ')' :: (l ++ s)) (k + 2) (l ++ s) (by
        simp only [List.length_append, List.length_cons]
        omega)
      have outer := ih clock (k + 2 + t.length + 2) (by omega)
      simp only [List.cons_append, List.append_assoc, skipLayout, inner, outer, List.length_append,
        List.length_cons]
      congr 1
      omega

/-- Layout ends before the next token. -/
theorem reads_layout {l s : List Char} (h : IsLayout l) (hs : IsSolid s) :
    layout.Reads (l ++ s) () s := by
  have hskip := skipLayout_append h hs (l ++ s) 0 (by simp)
  simp [Rule.Reads, layout, hskip]

/-! ## What follows an expression -/

/-- Behind an expression the text ends, or there is layout and then something that begins with one
of some characters. -/
inductive Stops (cs : List Char) : List Char → Prop where
  | intro {l s : List Char} (layout : IsLayout l) (apart : l = [] → s = []) (next : BeginsIn cs s) :
      Stops cs (l ++ s)

namespace Stops

variable {cs rest : List Char}

theorem ends (h : Stops cs rest) : Ends rest := by
  rcases h with @⟨l, s, layout, apart, -⟩
  by_cases hl : l = []
  · rw [hl, apart hl]
    exact .nil _
  · exact layout.ends hl s

theorem mono {cs' : List Char} (h : Stops cs rest) (hsub : cs ⊆ cs') : Stops cs' rest := by
  rcases h with ⟨layout, apart, next⟩
  exact .intro layout apart (next.mono hsub)

/-- Behind layout a rule fails that fails on whatever begins with one of those characters. -/
theorem rejects {α : Type} {p : Rule α} (h : Stops cs rest)
    (hcs : ∀ c ∈ cs, c ∉ ['(', ' ', '\t', '\r', '\n']) (hp : ∀ s, BeginsIn cs s → p.Rejects s) :
    (layout >>= fun _ => p).Rejects rest := by
  rcases h with ⟨hlayout, -, next⟩
  exact (reads_layout hlayout (next.solid hcs)).bind_rejects (hp _ next)

end Stops

end DocBase.Query.Grammar
