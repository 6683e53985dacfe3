import DocBase.Proofs.Query.Grammar.Layout
import DocBase.Proofs.Query.Grammar.Levels
/-!
# Spellings

The texts that stand for an expression: its tokens in order, with layout between them. A token can
be spelled in more than one way where the language has a choice, for quotes and for unions. Main
statements:

* `Expr.exists_spelled` — every expression without fractional numbers has a spelling;
* `Spaced.append` — a text of tokens falls apart where its tokens do;
* `Expr.leads` — the first token tells of what kind an expression is.
-/

namespace DocBase.Query

/-- The text of a token. -/
abbrev Token := List Char

/-- A string in quotes. A quote of the same kind is written twice. -/
def inQuotes (q : Char) (s : List Char) : Token :=
  q :: (s.flatMap fun c => if c = q then [q, q] else [c]) ++ [q]

/-- The marks that stand for an operator. -/
def SetOperator.spellings : SetOperator → List String
  | .union => ["union", "|"]
  | .intersect => ["intersect"]
  | .except => ["except"]

mutual

/-- The tokens of an expression. Sequences always have parentheses; fractional numbers have no
spelling here. -/
def Expr.Spelled : Expr → List Token → Prop
  | .literal (.integer i), ts => ts = [(toString i.toInt.toNat).toList]
  | .literal (.double _), _ => False
  | .literal (.string s), ts => ∃ q ∈ ['"', '\''], ts = [inQuotes q s.toList]
  | .var x, ts => ts = ['$' :: x.text.toList]
  | .contextItem, ts => ts = [['.']]
  | .sequence items, ts => ∃ us, ListSpelled items us ∧ ts = ['('] :: us ++ [[')']]
  | .filter input predicates, ts =>
    ∃ us vs, input.Spelled us ∧ SpelledEach [['[']] [[']']] predicates vs ∧ ts = us ++ vs
  | .forEach x input none body, ts =>
    ∃ us vs, input.Spelled us ∧ body.Spelled vs ∧
      ts = "for".toList :: ('$' :: x.text.toList) :: "in".toList :: us ++ "return".toList :: vs
  | .forEach x input (some c) body, ts =>
    ∃ us ws vs, input.Spelled us ∧ c.Spelled ws ∧ body.Spelled vs ∧
      ts = "for".toList :: ('$' :: x.text.toList) :: "in".toList :: us ++
        "where".toList :: ws ++ "return".toList :: vs
  | .compare op l r, ts =>
    ∃ us vs, l.Spelled us ∧ r.Spelled vs ∧ ts = us ++ op.symbol.toList :: vs
  | .connect op l r, ts =>
    ∃ us vs, l.Spelled us ∧ r.Spelled vs ∧ ts = us ++ op.symbol.toList :: vs
  | .combine op l r, ts =>
    ∃ us vs, ∃ w ∈ op.spellings, l.Spelled us ∧ r.Spelled vs ∧ ts = us ++ w.toList :: vs
  | .call f arguments, ts =>
    ∃ us, ListSpelled arguments us ∧ ts = f.text.toList :: ['('] :: us ++ [[')']]

/-- Expressions with commas between them. -/
def ListSpelled : List Expr → List Token → Prop
  | [], ts => ts = []
  | e :: es, ts => ∃ us vs, e.Spelled us ∧ SpelledEach [[',']] [] es vs ∧ ts = us ++ vs

/-- Expressions with the same tokens before and behind each of them. -/
def SpelledEach (before behind : List Token) : List Expr → List Token → Prop
  | [], ts => ts = []
  | e :: es, ts => ∃ us vs, e.Spelled us ∧ SpelledEach before behind es vs ∧
      ts = before ++ us ++ behind ++ vs

end

mutual

/-- No fractional number is written in the expression. -/
def Expr.DoubleFree : Expr → Prop
  | .literal (.double _) => False
  | .literal _ | .var _ | .contextItem => True
  | .sequence items => DoubleFreeEach items
  | .filter input predicates => input.DoubleFree ∧ DoubleFreeEach predicates
  | .forEach _ input none body => input.DoubleFree ∧ body.DoubleFree
  | .forEach _ input (some c) body => input.DoubleFree ∧ c.DoubleFree ∧ body.DoubleFree
  | .compare _ l r | .connect _ l r | .combine _ l r => l.DoubleFree ∧ r.DoubleFree
  | .call _ arguments => DoubleFreeEach arguments

def DoubleFreeEach : List Expr → Prop
  | [] => True
  | e :: es => e.DoubleFree ∧ DoubleFreeEach es

end

theorem doubleFreeEach_iff {es : List Expr} : DoubleFreeEach es ↔ ∀ e ∈ es, e.DoubleFree := by
  induction es with
  | nil => simp [DoubleFreeEach]
  | cons e es ih => simp [DoubleFreeEach, ih]

theorem exists_spelledEach {es : List Expr} (h : ∀ e ∈ es, ∃ ts, e.Spelled ts)
    (before behind : List Token) : ∃ ts, SpelledEach before behind es ts := by
  induction es with
  | nil => exact ⟨[], by simp [SpelledEach]⟩
  | cons e es ih =>
    rcases h e (by simp) with ⟨us, hus⟩
    rcases ih fun e he => h e (List.mem_cons_of_mem _ he) with ⟨vs, hvs⟩
    exact ⟨_, us, vs, hus, hvs, rfl⟩

theorem exists_listSpelled {es : List Expr} (h : ∀ e ∈ es, ∃ ts, e.Spelled ts) :
    ∃ ts, ListSpelled es ts := by
  cases es with
  | nil => exact ⟨[], by simp [ListSpelled]⟩
  | cons e es =>
    rcases h e (by simp) with ⟨us, hus⟩
    rcases exists_spelledEach (fun e he => h e (List.mem_cons_of_mem _ he)) [[',']] [] with
      ⟨vs, hvs⟩
    exact ⟨_, us, vs, hus, hvs, rfl⟩

/-- Every expression without fractional numbers has a spelling. -/
theorem Expr.exists_spelled (e : Expr) (h : e.DoubleFree) : ∃ ts, e.Spelled ts := by
  -- on the expression: its tokens are those of its parts with its own between them
  induction e using Expr.ind with
  | literal v =>
    cases v with
    | integer i => exact ⟨_, rfl⟩
    -- nothing is written for a double
    | double d => exact h.elim
    | string s => exact ⟨_, '"', by simp, rfl⟩
  | var x => exact ⟨_, rfl⟩
  | contextItem => exact ⟨_, rfl⟩
  | sequence items ih =>
    have hitems := doubleFreeEach_iff.1 h
    rcases exists_listSpelled fun e he => ih e he (hitems e he) with ⟨us, hus⟩
    exact ⟨_, us, hus, rfl⟩
  | filter input predicates ihi ihp =>
    have hpredicates := doubleFreeEach_iff.1 h.2
    rcases ihi h.1 with ⟨us, hus⟩
    rcases exists_spelledEach (fun p hp => ihp p hp (hpredicates p hp)) [['[']] [[']']] with
      ⟨vs, hvs⟩
    exact ⟨_, us, vs, hus, hvs, rfl⟩
  | forEach x input condition body ihi ihc ihb =>
    cases condition with
    | none =>
      rcases ihi h.1 with ⟨us, hus⟩
      rcases ihb h.2 with ⟨vs, hvs⟩
      exact ⟨_, us, vs, hus, hvs, rfl⟩
    | some c =>
      rcases ihi h.1 with ⟨us, hus⟩
      rcases ihc c rfl h.2.1 with ⟨ws, hws⟩
      rcases ihb h.2.2 with ⟨vs, hvs⟩
      exact ⟨_, us, ws, vs, hus, hws, hvs, rfl⟩
  | compare op l r ihl ihr | connect op l r ihl ihr =>
    rcases ihl h.1 with ⟨us, hus⟩
    rcases ihr h.2 with ⟨vs, hvs⟩
    exact ⟨_, us, vs, hus, hvs, rfl⟩
  | combine op l r ihl ihr =>
    rcases ihl h.1 with ⟨us, hus⟩
    rcases ihr h.2 with ⟨vs, hvs⟩
    -- each operator of sets has a spelling, its symbol
    have hw : op.symbol ∈ op.spellings := by
      cases op <;> simp [SetOperator.symbol, SetOperator.spellings]
    exact ⟨_, us, vs, op.symbol, hw, hus, hvs, rfl⟩
  | call f arguments ih =>
    have harguments := doubleFreeEach_iff.1 h
    rcases exists_listSpelled fun e he => ih e he (harguments e he) with ⟨us, hus⟩
    exact ⟨_, us, hus, rfl⟩

/-! ## Tokens and layout -/

open Grammar (IsLayout IsSolid Ends)

/-- Tokens with layout before each of them. -/
inductive Trailing : List Token → List Char → Prop where
  | nil : Trailing [] []
  | cons {t : Token} {ts : List Token} {l s : List Char} (layout : IsLayout l) (apart : l ≠ [])
      (rest : Trailing ts s) : Trailing (t :: ts) (l ++ t ++ s)

/-- Tokens with layout between any two of them. -/
inductive Spaced : List Token → List Char → Prop where
  | intro (t : Token) {ts : List Token} {s : List Char} (rest : Trailing ts s) :
      Spaced (t :: ts) (t ++ s)

/-- A whole text of tokens, with layout around it. -/
inductive LaidOut (ts : List Token) : List Char → Prop where
  | intro {front body back : List Char} (before : IsLayout front) (spaced : Spaced ts body)
      (behind : IsLayout back) : LaidOut ts (front ++ body ++ back)

namespace Trailing

theorem append {ts us : List Token} {s : List Char} (h : Trailing (ts ++ us) s) :
    ∃ s₁ s₂, s = s₁ ++ s₂ ∧ Trailing ts s₁ ∧ Trailing us s₂ := by
  induction ts generalizing s with
  | nil => exact ⟨[], s, rfl, .nil, h⟩
  | cons t ts ih =>
    rcases h with - | ⟨layout, apart, rest⟩
    rcases ih rest with ⟨s₁, s₂, rfl, first, second⟩
    exact ⟨_, s₂, by simp, .cons layout apart first, second⟩

/-- The first token stands behind layout. -/
theorem uncons {t : Token} {ts : List Token} {s : List Char} (h : Trailing (t :: ts) s) :
    ∃ l s', s = l ++ (t ++ s') ∧ IsLayout l ∧ l ≠ [] ∧ Trailing ts s' := by
  rcases h with - | ⟨layout, apart, rest⟩
  exact ⟨_, _, by simp, layout, apart, rest⟩

/-- Tokens that stand behind layout have layout between them. -/
theorem spaced {ts : List Token} {s : List Char} (hts : ts ≠ []) (h : Trailing ts s) :
    ∃ l s', s = l ++ s' ∧ IsLayout l ∧ l ≠ [] ∧ Spaced ts s' := by
  rcases h with - | ⟨layout, apart, rest⟩
  · exact absurd rfl hts
  · exact ⟨_, _, by simp, layout, apart, .intro _ rest⟩

/-- The token before them comes to its end. -/
theorem ends {ts : List Token} {s rest : List Char} (h : Trailing ts s) (hrest : Ends rest) :
    Ends (s ++ rest) := by
  cases h with
  | nil => exact hrest
  | cons layout apart _ =>
    rw [List.append_assoc, List.append_assoc]
    exact layout.ends apart _

end Trailing

namespace Spaced

theorem uncons {t : Token} {ts : List Token} {s : List Char} (h : Spaced (t :: ts) s) :
    ∃ s', s = t ++ s' ∧ Trailing ts s' := by
  rcases h with ⟨_, rest⟩
  exact ⟨_, rfl, rest⟩

/-- One token has nothing between it and another. -/
theorem eq_of_single {t : Token} {s : List Char} (h : Spaced [t] s) : s = t := by
  rcases h.uncons with ⟨s', rfl, hnil⟩
  cases hnil
  exact List.append_nil t

/-- A text of tokens falls apart where its tokens do. -/
theorem append {ts us : List Token} {s : List Char} (hts : ts ≠ []) (h : Spaced (ts ++ us) s) :
    ∃ s₁ s₂, s = s₁ ++ s₂ ∧ Spaced ts s₁ ∧ Trailing us s₂ := by
  rcases ts with _ | ⟨t, ts⟩
  · exact absurd rfl hts
  · rcases uncons h with ⟨s', rfl, rest⟩
    rcases rest.append with ⟨s₁, s₂, rfl, first, second⟩
    exact ⟨t ++ s₁, s₂, by simp, .intro t first, second⟩

/-- Tokens can be set out with a space between any two of them. -/
theorem exists_spaced {ts : List Token} (h : ts ≠ []) : ∃ s, Spaced ts s := by
  -- one space between two tokens is layout enough
  have htrailing : ∀ us : List Token, ∃ s, Trailing us s := by
    intro us
    induction us with
    | nil => exact ⟨[], .nil⟩
    | cons u us ih =>
      rcases ih with ⟨s, hs⟩
      have hspace : IsLayout [' '] := .space (by simp) .nil
      exact ⟨_, .cons hspace (by simp) hs⟩
  rcases ts with _ | ⟨t, ts⟩
  · exact absurd rfl h
  · rcases htrailing ts with ⟨s, hs⟩
    exact ⟨_, .intro t hs⟩

end Spaced

/-! ## First tokens -/

/-- How a text of tokens may begin that is not a `for` expression. -/
inductive Leads : List Token → Prop where
  | mark {c : Char} (cs : List Char) (ts : List Token) (solid : c ∉ ['(', ' ', '\t', '\r', '\n'])
      (other : c ≠ 'f') : Leads ((c :: cs) :: ts)
  | parenthesis (ts : List Token) : Leads (['('] :: ts)
  | function {f : QName} (formed : f.WellFormed) (ts : List Token) :
      Leads (f.text.toList :: ['('] :: ts)

theorem Leads.append {ts : List Token} (h : Leads ts) (us : List Token) : Leads (ts ++ us) := by
  cases h with
  | mark cs ts solid other => exact .mark cs (ts ++ us) solid other
  | parenthesis ts => exact .parenthesis (ts ++ us)
  | function formed ts => exact .function formed (ts ++ us)

theorem isDigit_of_mem_toString {n : Nat} {c : Char} (h : c ∈ (toString n).toList) :
    c.isDigit = true := by
  have hdigits : (toString n).toList = Nat.toDigits 10 n := by simp
  rw [hdigits] at h
  exact Nat.isDigit_of_mem_toDigits (by decide) (by decide) h

theorem toString_ne_nil (n : Nat) : (toString n).toList ≠ [] := by
  have hdigits : (toString n).toList = Nat.toDigits 10 n := by simp
  rw [hdigits]
  exact Nat.toDigits_ne_nil

/-- The first token of an expression that is not a `for`. -/
theorem Expr.leads (e : Expr) (hg : e.Grammatical) (hrank : e.rank < 7) {ts : List Token}
    (h : e.Spelled ts) : Leads ts := by
  -- on the expression: its first token is that of its leftmost part, or its own
  induction e using Expr.ind generalizing ts with
  | literal v =>
    cases v with
    | integer i =>
      obtain rfl := h
      -- the figures of a number; none of them is layout
      rcases hds : (toString i.toInt.toNat).toList with _ | ⟨d, ds⟩
      · exact absurd hds (toString_ne_nil _)
      · have hmem : d ∈ (toString i.toInt.toNat).toList := by
          rw [hds]
          exact List.mem_cons_self
        have hd := isDigit_of_mem_toString hmem
        refine .mark ds [] ?_ ?_
        · intro hspace
          simp only [List.mem_cons, List.not_mem_nil, or_false] at hspace
          rcases hspace with rfl | rfl | rfl | rfl | rfl <;> simp at hd
        · rintro rfl
          simp at hd
    | double d => exact h.elim
    | string s =>
      rcases h with ⟨q, hq, rfl⟩
      simp only [List.mem_cons, List.not_mem_nil, or_false] at hq
      rcases hq with rfl | rfl <;> exact .mark _ _ (by decide) (by decide)
  | var x =>
    obtain rfl := h
    exact .mark _ _ (by decide) (by decide)
  | contextItem =>
    obtain rfl := h
    exact .mark _ _ (by decide) (by decide)
  | sequence items ih =>
    rcases h with ⟨us, -, rfl⟩
    exact .parenthesis _
  | filter input predicates ihi ihp =>
    rcases h with ⟨us, vs, hinput, -, rfl⟩
    exact (ihi hg.2.2.1 (Nat.lt_of_lt_of_le hg.1 (by decide)) hinput).append vs
  -- this is the one expression of rank 7
  | forEach => simp [rank] at hrank
  | compare op l r ihl ihr =>
    rcases h with ⟨us, vs, hl, -, rfl⟩
    exact (ihl hg.2.2.1 (Nat.lt_of_lt_of_le hg.1 (by decide)) hl).append _
  | connect op l r ihl ihr =>
    rcases h with ⟨us, vs, hl, -, rfl⟩
    exact (ihl hg.2.2.1 (Nat.lt_of_le_of_lt hg.1 hrank) hl).append _
  | combine op l r ihl ihr =>
    rcases h with ⟨us, vs, w, -, hl, -, rfl⟩
    exact (ihl hg.2.2.1 (Nat.lt_of_le_of_lt hg.1 hrank) hl).append _
  | call f arguments ih =>
    rcases h with ⟨us, -, rfl⟩
    exact .function hg.1 _

/-- A spelling has a first token. -/
theorem Expr.leads_or_for {e : Expr} (hg : e.Grammatical) {ts : List Token}
    (h : e.Spelled ts) : Leads ts ∨ ∃ us, ts = "for".toList :: us := by
  by_cases hrank : e.rank < 7
  · exact .inl (e.leads hg hrank h)
  · -- no expression has a higher rank, and only loops have this one
    have hseven : e.rank = 7 := by
      have := hg.within.rank_le
      omega
    cases ranked_of_rank hseven with
    | forEach x input condition body =>
      cases condition with
      | none =>
        rcases h with ⟨us, vs, -, -, rfl⟩
        exact .inr ⟨_, rfl⟩
      | some c =>
        rcases h with ⟨us, ws, vs, -, -, -, rfl⟩
        exact .inr ⟨_, rfl⟩

theorem Expr.Spelled.ne_nil {e : Expr} (hg : e.Grammatical) {ts : List Token}
    (h : e.Spelled ts) : ts ≠ [] := by
  rcases Expr.leads_or_for hg h with h | ⟨us, rfl⟩
  · cases h <;> simp
  · simp

/-- A well-formed name begins with a letter or an underscore. -/
theorem QName.WellFormed.exists_cons {n : QName} (h : n.WellFormed) :
    ∃ c cs, n.text.toList = c :: cs ∧ Grammar.isNameStart c = true := by
  rcases n with ⟨qualifier, n⟩
  cases qualifier with
  | none =>
    rcases h.name with ⟨c, cs, heq, hc, -⟩
    exact ⟨c, cs, heq, hc⟩
  | some q =>
    rcases h.qualifier q rfl with ⟨c, cs, heq, hc, -⟩
    exact ⟨c, cs ++ ':' :: n.toList, by simp [text, heq], hc⟩

/-- Every expression takes some text. -/
theorem Spaced.length_pos {e : Expr} {ts : List Token} {s : List Char} (hs : Spaced ts s)
    (hg : e.Grammatical) (h : e.Spelled ts) : 0 < s.length := by
  rcases e.leads_or_for hg h with h | ⟨us, rfl⟩
  · cases h with
    | mark | parenthesis =>
      rcases hs.uncons with ⟨s', rfl, -⟩
      simp
    | function formed ts =>
      rcases hs.uncons with ⟨s', rfl, -⟩
      rcases formed.exists_cons with ⟨c, cs, heq, -⟩
      rw [heq]
      simp
  · rcases hs.uncons with ⟨s', rfl, -⟩
    simp

/-- An expression does not begin like layout. -/
theorem Expr.solid {e : Expr} (hg : e.Grammatical) {ts : List Token} (h : e.Spelled ts)
    {s rest : List Char} (hs : Spaced ts s) (hrest : Ends rest) : IsSolid (s ++ rest) := by
  -- no layout begins with what a token begins with, a parenthesis before a colon apart
  rcases leads_or_for hg h with h | ⟨us, rfl⟩
  · cases h with
    | mark cs ts solid _ =>
      rcases hs.uncons with ⟨s', rfl, -⟩
      exact .cons solid
    | parenthesis ts =>
      rcases hs.uncons with ⟨s', rfl, htrailing⟩
      exact .parenthesis (htrailing.ends hrest)
    | function formed ts =>
      rcases hs.uncons with ⟨s', rfl, -⟩
      rcases formed.exists_cons with ⟨c, cs, heq, hc⟩
      rw [heq]
      refine .cons fun hmem => ?_
      simp only [List.mem_cons, List.not_mem_nil, or_false] at hmem
      rcases hmem with rfl | rfl | rfl | rfl | rfl <;> simp [Grammar.isNameStart] at hc
  · rcases hs.uncons with ⟨s', rfl, -⟩
    exact .cons (by decide)

end DocBase.Query
