import DocBase.Proofs.Query.Grammar.Tokens
/-!
# Operators and their operands

An operand ends where an operator begins that binds less tightly. Operators of one rank are read one
after another and applied from the left, which gives back the expression that they were spelled
from. Main statements:

* `reads_chain_of_many` — an operand on the left, whatever operators follow it;
* `readsUpTo_chain` — all operators of one rank.
-/

namespace DocBase.Query.Grammar

/-! ## What may follow an operand -/

/-- What commas, closing brackets and the words behind the parts of a `for` begin with. -/
def closingMarks : List Char := [',', ')', ']', 'w', 'r']

/-- What the operators of a rank begin with. Predicates count as operators of rank one. -/
def operatorMarks : Nat → List Char
  | 1 => ['[']
  | 2 => ['i', 'e']
  | 3 => ['u', '|']
  | 4 => ['=', '!', '<', '>']
  | 5 => ['a']
  | 6 => ['o']
  | _ => []

/-- What may follow an operand of a rank: an operator that binds less tightly, or the end of what
the operand is part of. -/
def marksBehind (rank : Nat) : List Char :=
  closingMarks ++ ([1, 2, 3, 4, 5, 6].filter (rank < ·)).flatMap operatorMarks

theorem marksBehind_anti {rank rank' : Nat} (h : rank ≤ rank') :
    marksBehind rank' ⊆ marksBehind rank := by
  intro c hc
  simp only [marksBehind, List.mem_append, List.mem_flatMap, List.mem_filter,
    decide_eq_true_eq] at hc ⊢
  rcases hc with hc | ⟨r, ⟨hr, hlt⟩, hc⟩
  · exact .inl hc
  · exact .inr ⟨r, ⟨hr, Nat.lt_of_le_of_lt h hlt⟩, hc⟩

theorem operatorMarks_subset {rank : Nat} (h : rank < 6) :
    operatorMarks (rank + 1) ⊆ marksBehind rank := by
  intro c hc
  simp only [marksBehind, List.mem_append, List.mem_flatMap, List.mem_filter, decide_eq_true_eq]
  refine .inr ⟨rank + 1, ⟨?_, Nat.lt_succ_self rank⟩, hc⟩
  simp only [List.mem_cons, List.not_mem_nil, or_false]
  omega

/-- None of these can be taken for layout. -/
theorem not_layout_of_mem_marksBehind {rank : Nat} :
    ∀ c ∈ marksBehind rank, c ∉ ['(', ' ', '\t', '\r', '\n'] := by
  intro c hc
  have hall : ∀ c ∈ marksBehind 0, c ∉ ['(', ' ', '\t', '\r', '\n'] := by
    simp [marksBehind, closingMarks, operatorMarks]
  exact hall c (marksBehind_anti (Nat.zero_le rank) hc)

/-- The rule reads back every expression of a rank that is spelled with at most `n` characters. -/
def ReadsUpTo (p : Rule (Reading Expr)) (rank n : Nat) : Prop :=
  ∀ (e : Expr) (ts : List Token) (s rest : List Char), e.Within rank → e.Spelled ts → Spaced ts s →
    s.length ≤ n → Stops (marksBehind rank) rest → p.Reads (s ++ rest) (.ok e) rest

theorem ReadsUpTo.named {p : Rule (Reading Expr)} {rank n : Nat} (h : ReadsUpTo p rank n) :
    ReadsUpTo p.named rank n :=
  fun e ts s rest he hts hs hlength hrest => (h e ts s rest he hts hs hlength hrest).named

/-! ## Operators -/

/-- An expression and its tokens fall apart at an operator of a rank, whose word a rule reads. -/
inductive Joined (operator : Rule (Expr → Expr → Expr)) (rank : Nat) :
    Expr → List Token → Prop where
  | intro {op : Expr → Expr → Expr} {l r : Expr} {us vs : List Token} {w : Token}
      (left : l.Within (rank + 1)) (right : r.Within rank) (smaller : l.size < (op l r).size)
      (spelled_left : l.Spelled us) (spelled_right : r.Spelled vs)
      (mark : ∃ c cs, w = c :: cs ∧ c ∈ operatorMarks (rank + 1))
      (reads : ∀ rest, Ends rest → operator.Reads (w ++ rest) op rest) :
      Joined operator rank (op l r) (us ++ w :: vs)

/-- Where tokens follow, what stands before them ends at the first of them. -/
theorem stops_of_trailing {c : Char} {cs : List Char} {ts : List Token} {s : List Char}
    (h : Trailing ((c :: cs) :: ts) s) {marks : List Char} (hc : c ∈ marks) (rest : List Char) :
    Stops marks (s ++ rest) := by
  rcases h.uncons with ⟨l, s', rfl, hl, hne, -⟩
  rw [List.append_assoc]
  exact .intro hl (fun h => absurd h hne) (.cons hc _)

section Chain

variable {operand : Rule (Reading Expr)} {operator : Rule (Expr → Expr → Expr)} {rank n : Nat}

/-- What stands behind the first operand. -/
abbrev chainStep (operand : Rule (Reading Expr)) (operator : Rule (Expr → Expr → Expr)) :
    Rule ((Expr → Expr → Expr) × Reading Expr) := do
  layout
  let op ← operator
  layout
  let right ← operand
  return (op, right)

/-- An operator with its right operand. -/
theorem reads_chainStep (hoperand : ReadsUpTo operand rank n) {op : Expr → Expr → Expr} {r : Expr}
    {c : Char} {cs s : List Char} {vs : List Token} (hr : r.Within rank) (hvs : r.Spelled vs)
    (hc : c ∉ ['(', ' ', '\t', '\r', '\n'])
    (hreads : ∀ rest, Ends rest → operator.Reads (c :: cs ++ rest) op rest)
    (hs : Trailing ((c :: cs) :: vs) s) (hlength : s.length ≤ n) {rest : List Char}
    (hrest : Stops (marksBehind rank) rest) :
    (chainStep operand operator).Reads (s ++ rest) (op, .ok r) rest := by
  -- operator and operand stand apart, since their tokens do
  rcases hs.uncons with ⟨l, s', rfl, hl, -, htrailing⟩
  rcases htrailing.spaced (hvs.ne_nil hr.grammatical) with ⟨l', s'', rfl, hl', hne, hspaced⟩
  have hsolid := r.solid hr.grammatical hvs hspaced hrest.ends
  have hlayout : layout.Reads (l ++ (c :: cs ++ (l' ++ (s'' ++ rest)))) ()
      (c :: cs ++ (l' ++ (s'' ++ rest))) := reads_layout hl (.cons hc)
  have hoperator := hreads (l' ++ (s'' ++ rest)) (hl'.ends hne _)
  have hright := hoperand r vs s'' rest hr hvs hspaced (by simp at hlength; omega) hrest
  -- the same text, cut where the four rules cut it
  have htext : l ++ (c :: cs ++ (l' ++ s'')) ++ rest =
      l ++ (c :: cs ++ (l' ++ (s'' ++ rest))) := by simp
  rw [htext]
  exact .bind hlayout (.bind hoperator (.bind (reads_layout hl' hsolid)
    (.bind hright (.pure _ rest))))

/-- Operands that are joined by operators of one rank are read by going on with whatever other
operators follow: an operand on the left is not complete before all of them are read. -/
theorem reads_chain_of_many (hoperand : ReadsUpTo operand rank n)
    (hjoined : ∀ e ts, e.Grammatical → e.rank = rank + 1 → e.Spelled ts →
      Joined operator rank e ts) (hrank : rank < 6) {e : Expr} {ts : List Token}
    {s rest rest' : List Char} {others : List ((Expr → Expr → Expr) × Reading Expr)}
    (he : e.Within (rank + 1)) (hts : e.Spelled ts) (hs : Spaced ts s) (hlength : s.length ≤ n)
    (hrest : Stops (marksBehind rank) rest)
    (hmany : (chainStep operand operator).ReadsMany rest others rest') :
    (chain operand operator).Reads (s ++ rest) (applyAll (.ok e) others) rest' := by
  -- on the size of the expression, for all lists of operators that follow
  induction hsize : e.size using Nat.strong_induction_on generalizing e ts s rest others with
  | h size ih =>
    by_cases hlow : e.rank ≤ rank
    · -- an operand alone: the operators that follow are all there are
      have hfirst := hoperand e ts s rest ⟨he.grammatical, hlow⟩ hts hs hlength hrest
      exact hfirst.bind (hmany.many.bind (.pure _ rest'))
    · have heq : e.rank = rank + 1 := by
        have := he.rank_le
        omega
      rcases hjoined e ts he.grammatical heq hts with
        @⟨op, l, r, us, vs, w, left, right, smaller, hus, hvs, ⟨c, cs, rfl, mark⟩, hreads⟩
      rcases hs.append (hus.ne_nil left.grammatical) with ⟨s₁, s₂, rfl, first, second⟩
      have hsub := operatorMarks_subset hrank mark
      -- no mark of an operator is taken for layout
      have hc := not_layout_of_mem_marksBehind c hsub
      have hlength' : s₁.length + s₂.length ≤ n := by simpa using hlength
      have hstep := reads_chainStep hoperand right hvs hc hreads second (by omega) hrest
      -- the operator that joins the two is the first of those that follow the left operand
      have hmany' : (chainStep operand operator).ReadsMany (s₂ ++ rest) ((op, .ok r) :: others)
          rest' := by
        refine .step hstep ?_ hmany
        rcases second.uncons with ⟨l', s', rfl, -, hne, -⟩
        have := List.length_pos_iff.2 hne
        simp only [List.length_append]
        omega
      have hstops := stops_of_trailing second hsub rest
      rw [List.append_assoc]
      have hleft := ih l.size (hsize ▸ smaller) left hus first (by omega) hstops hmany' rfl
      exact hleft

/-- Operators of one rank are read back. -/
theorem readsUpTo_chain (hoperand : ReadsUpTo operand rank n)
    (hjoined : ∀ e ts, e.Grammatical → e.rank = rank + 1 → e.Spelled ts →
      Joined operator rank e ts)
    (hrejects : ∀ s, BeginsIn (marksBehind (rank + 1)) s → operator.Rejects s) (hrank : rank < 6) :
    ReadsUpTo (chain operand operator) (rank + 1) n := by
  intro e ts s rest he hts hs hlength hrest
  have hstop : (chainStep operand operator).Rejects rest :=
    hrest.rejects not_layout_of_mem_marksBehind fun s hs => (hrejects s hs).bind _
  exact reads_chain_of_many hoperand hjoined hrank he hts hs hlength
    (hrest.mono (marksBehind_anti (Nat.le_succ rank))) (.stop hstop)

end Chain

end DocBase.Query.Grammar
