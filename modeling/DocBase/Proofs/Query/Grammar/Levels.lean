import DocBase.Proofs.Query.Grammar.Matching
import DocBase.Proofs.Query.Numbering
import DocBase.Query.Parse
import Mathlib.Data.List.TakeWhile
/-!
# What the parser produces

Which operands an operator may have follows from how tightly operators bind: the left operand binds
at least as tightly as the operator, the right one more tightly. An expression all of whose
operators have such operands can be written without further parentheses. The parser produces no
others. Main statements:

* `reaches_chain` — operators of one rank are grouped to the left;
* `Expr.grammatical_of_parse` — whatever is read is grammatical.
-/

namespace DocBase.Query

/-! ## Expressions that follow the grammar -/

/-- A letter or an underscore and further characters of names. -/
def IsSimpleName (s : String) : Prop :=
  ∃ c cs, s.toList = c :: cs ∧ Grammar.isNameStart c = true ∧
    ∀ d ∈ cs, Grammar.isNameChar d = true

/-- A simple name, or two of them around a colon. -/
structure QName.WellFormed (n : QName) : Prop where
  name : IsSimpleName n.name
  qualifier : ∀ q ∈ n.qualifier, IsSimpleName q

/-- Operators of lower rank bind more tightly. -/
def SetOperator.rank : SetOperator → Nat
  | .intersect | .except => 2
  | .union => 3

def Connective.rank : Connective → Nat
  | .and => 5
  | .or => 6

/-- How loosely the parts of an expression hang together: not at all if it is a single token or ends
with its own bracket, and most loosely in a `for`. -/
def Expr.rank : Expr → Nat
  | .literal _ | .var _ | .contextItem | .sequence _ | .call _ _ => 0
  | .filter _ _ => 1
  | .combine op _ _ => op.rank
  | .compare _ _ _ => 4
  | .connect op _ _ => op.rank
  | .forEach _ _ _ _ => 7

/-- Which expressions have which rank. -/
inductive Expr.Ranked : Nat → Expr → Prop where
  | literal (v : Literal) : Ranked 0 (.literal v)
  | var (x : QName) : Ranked 0 (.var x)
  | contextItem : Ranked 0 .contextItem
  | sequence (items : List Expr) : Ranked 0 (.sequence items)
  | call (f : QName) (arguments : List Expr) : Ranked 0 (.call f arguments)
  | filter (input : Expr) (predicates : List Expr) : Ranked 1 (.filter input predicates)
  | intersect (l r : Expr) : Ranked 2 (.combine .intersect l r)
  | except (l r : Expr) : Ranked 2 (.combine .except l r)
  | union (l r : Expr) : Ranked 3 (.combine .union l r)
  | compare (op : Comparison) (l r : Expr) : Ranked 4 (.compare op l r)
  | and (l r : Expr) : Ranked 5 (.connect .and l r)
  | or (l r : Expr) : Ranked 6 (.connect .or l r)
  | forEach (x : QName) (input : Expr) (condition : Option Expr) (body : Expr) :
      Ranked 7 (.forEach x input condition body)

theorem Expr.ranked_of_rank {e : Expr} {rank : Nat} (h : e.rank = rank) : Ranked rank e := by
  subst h
  cases e with
  | combine op => cases op <;> constructor
  | connect op => cases op <;> constructor
  | _ => constructor

mutual

/-- Every operator has operands that bind tightly enough: operators of one rank are nested on the
left, and comparisons not at all. Filters have predicates, integers no sign, names are well
formed. -/
def Expr.Grammatical : Expr → Prop
  | .literal (.integer i) => 0 ≤ i.toInt
  | .literal _ | .contextItem => True
  | .var x => x.WellFormed
  | .sequence items => GrammaticalEach items
  | .filter input predicates =>
    input.rank < 1 ∧ predicates ≠ [] ∧ input.Grammatical ∧ GrammaticalEach predicates
  | .forEach x input none body => x.WellFormed ∧ input.Grammatical ∧ body.Grammatical
  | .forEach x input (some c) body =>
    x.WellFormed ∧ input.Grammatical ∧ c.Grammatical ∧ body.Grammatical
  | .compare _ l r => l.rank < 4 ∧ r.rank < 4 ∧ l.Grammatical ∧ r.Grammatical
  | .connect op l r => l.rank ≤ op.rank ∧ r.rank < op.rank ∧ l.Grammatical ∧ r.Grammatical
  | .combine op l r => l.rank ≤ op.rank ∧ r.rank < op.rank ∧ l.Grammatical ∧ r.Grammatical
  | .call f arguments => f.WellFormed ∧ GrammaticalEach arguments

def GrammaticalEach : List Expr → Prop
  | [] => True
  | e :: es => e.Grammatical ∧ GrammaticalEach es

end

theorem grammaticalEach_iff {es : List Expr} : GrammaticalEach es ↔ ∀ e ∈ es, e.Grammatical := by
  induction es with
  | nil => simp [GrammaticalEach]
  | cons e es ih => simp [GrammaticalEach, ih]

/-- An expression that may stand where operators of some rank are read. -/
structure Expr.Within (rank : Nat) (e : Expr) : Prop where
  grammatical : e.Grammatical
  rank_le : e.rank ≤ rank

theorem Expr.Within.mono {rank rank' : Nat} {e : Expr} (h : e.Within rank) (hle : rank ≤ rank') :
    e.Within rank' :=
  ⟨h.grammatical, Nat.le_trans h.rank_le hle⟩

namespace Expr.Within

theorem combine {l r : Expr} {rank : Nat} (hl : l.Within (rank + 1)) (hr : r.Within rank)
    (op : SetOperator) (hop : op.rank = rank + 1) : (combine op l r).Within (rank + 1) :=
  ⟨⟨hop ▸ hl.rank_le, hop ▸ Nat.lt_succ_of_le hr.rank_le, hl.grammatical, hr.grammatical⟩,
    Nat.le_of_eq hop⟩

theorem connect {l r : Expr} {rank : Nat} (hl : l.Within (rank + 1)) (hr : r.Within rank)
    (op : Connective) (hop : op.rank = rank + 1) : (connect op l r).Within (rank + 1) :=
  ⟨⟨hop ▸ hl.rank_le, hop ▸ Nat.lt_succ_of_le hr.rank_le, hl.grammatical, hr.grammatical⟩,
    Nat.le_of_eq hop⟩

theorem compare {l r : Expr} (hl : l.Within 3) (hr : r.Within 3) (op : Comparison) :
    (compare op l r).Within 4 :=
  ⟨⟨Nat.lt_succ_of_le hl.rank_le, Nat.lt_succ_of_le hr.rank_le, hl.grammatical, hr.grammatical⟩,
    Nat.le_refl _⟩

end Expr.Within

/-- Every expression may stand inside brackets. -/
theorem Expr.Grammatical.within {e : Expr} (h : e.Grammatical) : e.Within 7 := by
  refine ⟨h, ?_⟩
  cases e with
  | combine op => cases op <;> simp [rank, SetOperator.rank]
  | connect op => cases op <;> simp [rank, Connective.rank]
  | _ => simp [rank]

namespace Grammar

/-! ## Readings -/

/-- A reading that, if it has a value, has such a one. -/
def Reading.Good {α : Type} (P : α → Prop) (r : Reading α) : Prop := ∀ a, r = .ok a → P a

namespace Reading.Good

variable {α β : Type} {P : α → Prop} {Q : β → Prop}

theorem ok {a : α} (h : P a) : Reading.Good P (.ok a) := by
  intro b hb
  exact Except.ok.inj hb ▸ h

theorem map {r : Reading α} {f : α → β} (hr : r.Good P) (hf : ∀ a, P a → Q (f a)) :
    Reading.Good Q (r.map f) := by
  intro b hb
  cases r with
  | error e => simp [Except.map] at hb
  | ok a =>
    simp only [Except.map, Except.ok.injEq] at hb
    exact hb ▸ hf a (hr a rfl)

theorem bind {r : Reading α} {f : α → Reading β} (hr : r.Good P) (hf : ∀ a, P a → (f a).Good Q) :
    Reading.Good Q (r >>= f) := by
  intro b hb
  cases r with
  | error e => simp [Bind.bind, Except.bind] at hb
  | ok a => exact hf a (hr a rfl) b hb

theorem gather {rs : List (Reading α)} (h : ∀ r ∈ rs, r.Good P) :
    (gather rs).Good fun as => ∀ a ∈ as, P a := by
  induction rs with
  | nil => exact .ok (by simp)
  | cons r rs ih =>
    have head := h r (by simp)
    have tail := ih fun r hr => h r (List.mem_cons_of_mem _ hr)
    refine head.bind fun a ha => tail.bind fun as has => .ok ?_
    simpa using ⟨ha, has⟩

end Reading.Good

/-- The rule yields readings of expressions that may stand at this rank. -/
abbrev Reaches (p : Rule (Reading Expr)) (rank : Nat) : Prop :=
  p.Yields (Reading.Good (Expr.Within rank))

theorem Reaches.mono {p : Rule (Reading Expr)} {rank rank' : Nat} (h : Reaches p rank)
    (hle : rank ≤ rank') : Reaches p rank' :=
  Rule.Yields.mono h fun _ hr e he => (hr e he).mono hle

/-! ## Tokens -/

theorem simpleName_of_simpleName? {s n rest : List Char} (h : simpleName? s = some (n, rest)) :
    IsSimpleName (String.ofList n) := by
  cases s with
  | nil => simp [simpleName?] at h
  | cons c cs =>
    simp only [simpleName?] at h
    split at h
    · next hc =>
      simp only [Option.some.injEq, Prod.mk.injEq] at h
      refine ⟨c, cs.takeWhile isNameChar, by simp [← h.1], hc, fun d hd => ?_⟩
      exact List.mem_takeWhile_imp hd
    · simp at h

theorem yields_name : name.Yields QName.WellFormed := by
  refine Rule.Yields.named (.scan fun s n rest h => ?_)
  -- a name has one part, or two with a colon between
  unfold name? at h
  split at h
  · simp at h
  · next hs =>
    have hfirst := simpleName_of_simpleName? hs
    split at h
    · split at h
      · next hsecond =>
        simp only [Option.some.injEq, Prod.mk.injEq] at h
        have hsecond := simpleName_of_simpleName? hsecond
        rw [← h.1]
        exact ⟨hsecond, by simpa using hfirst⟩
      · simp only [Option.some.injEq, Prod.mk.injEq] at h
        rw [← h.1]
        exact ⟨hfirst, by simp⟩
    · simp only [Option.some.injEq, Prod.mk.injEq] at h
      rw [← h.1]
      exact ⟨hfirst, by simp⟩

theorem yields_varName : varName.Yields QName.WellFormed :=
  .named (.after fun _ => yields_name)

theorem digits_of_digits? {s ds rest : List Char} (h : digits? s = some (ds, rest)) :
    ∃ d ds', ds = d :: ds' ∧ d.isDigit = true := by
  unfold digits? at h
  split at h
  · simp at h
  · next hne =>
    simp only [Option.some.injEq, Prod.mk.injEq] at h
    obtain ⟨rfl, -⟩ := h
    -- at least one digit was taken, as none at all is refused
    rcases hds : s.takeWhile Char.isDigit with _ | ⟨d, ds''⟩
    · exact absurd hds hne
    · have hmem : d ∈ s.takeWhile Char.isDigit := by simp [hds]
      exact ⟨d, ds'', rfl, List.mem_takeWhile_imp hmem⟩

/-- A number without a sign is not negative. -/
theorem toInt_of_readInt64 {d : Char} {ds : List Char} {i : Int64} (hd : d.isDigit = true)
    (h : Text.readInt64 (d :: ds) = .ok i) : 0 ≤ i.toInt := by
  -- with a digit in front there is no sign, so what is read is the number itself
  have hminus : d ≠ '-' := by
    rintro rfl
    simp at hd
  have hplus : d ≠ '+' := by
    rintro rfl
    simp at hd
  rw [Text.readInt64_unsigned hminus hplus] at h
  -- the digits are read below two to the sixty-three, so the number is not negative
  cases hn : Text.readDigits 10 (1 <<< 63) 0 (d :: ds) with
  | error e =>
    rw [hn] at h
    simp at h
  | ok n =>
    have hlt : n < 1 <<< 63 := Text.readDigits_lt (by decide) hn
    rw [hn] at h
    simp only [Except.ok.injEq] at h
    rw [← h, Int64.toInt_ofInt_of_le (by omega) (by omega)]
    omega

theorem good_integerValue {d : Char} {ds text : List Char} (hd : d.isDigit = true) :
    (integerValue (d :: ds) text).Good (Expr.Within 0) := by
  unfold integerValue
  split
  · next h => exact .ok ⟨toInt_of_readInt64 hd h, Nat.le_refl _⟩
  · intro e he
    simp at he

theorem reaches_integerLiteral : Reaches integerLiteral 0 := by
  refine .named fun s r rest h => ?_
  have hscan : (Rule.scan List.length digits?).Yields fun ds =>
      ∃ d ds', ds = d :: ds' ∧ d.isDigit = true :=
    .scan fun s ds rest h => digits_of_digits? h
  refine hscan.bind (fun ds hds => ?_) s r rest h
  rcases hds with ⟨d, ds, rfl, hd⟩
  exact .pure (good_integerValue hd)

theorem reaches_literal : Reaches literal 0 := by
  have hdouble : Reaches doubleLiteral 0 := .named (.after fun _ => .pure (.ok ⟨⟨⟩, Nat.le_refl _⟩))
  have hdecimal : Reaches decimalLiteral 0 :=
    .named (.after fun _ => .pure (.ok ⟨⟨⟩, Nat.le_refl _⟩))
  have hstring : Reaches stringLiteral 0 := .named (.after fun _ => .pure (.ok ⟨⟨⟩, Nat.le_refl _⟩))
  exact hdouble.orElse (hdecimal.orElse (reaches_integerLiteral.orElse hstring))

/-! ## Levels -/

section Levels

variable {single : Rule (Reading Expr)} (hsingle : Reaches single 7)

/-- Readings of several expressions, all of them grammatical. -/
abbrev GoodEach : Reading (List Expr) → Prop := Reading.Good fun es => ∀ e ∈ es, e.Grammatical

include hsingle

theorem yields_commaList : (commaList single).Yields GoodEach := by
  have hstep : Rule.Yields (do layout; mark ","; layout; single) (Reading.Good (Expr.Within 7)) :=
    .after fun _ => .after fun _ => .after fun _ => hsingle
  refine hsingle.bind fun first hfirst => hstep.many.bind fun others hothers => .pure ?_
  refine .gather fun r hr e he => ?_
  rcases List.mem_cons.1 hr with rfl | hr
  · exact (hfirst e he).grammatical
  · exact (hothers r hr e he).grammatical

omit hsingle in
/-- What stands in brackets or in the whole text. -/
theorem good_ofList {r : Reading (List Expr)} (h : GoodEach r) :
    Reading.Good (Expr.Within 7) (r.map ofList) := by
  refine Reading.Good.map h fun es hes => ?_
  unfold ofList
  split
  · exact (hes _ (by simp)).within
  · exact Expr.Grammatical.within (grammaticalEach_iff.2 hes)

theorem reaches_parenthesized : Reaches (parenthesized single) 0 := by
  refine .named (.after fun _ => .after fun _ => ?_)
  have hitems := (Rule.Yields.named (yields_commaList hsingle)).optional
  refine hitems.bind fun items hitems => .after fun _ => .after fun _ => .pure ?_
  cases items with
  | none => exact .ok ⟨⟨⟩, Nat.le_refl _⟩
  | some r =>
    refine (hitems r rfl).map fun es hes => ⟨?_, Nat.le_refl _⟩
    exact grammaticalEach_iff.2 hes

theorem reaches_call : Reaches (call single) 0 := by
  refine .named (yields_name.bind fun f hf => .after fun _ => .after fun _ => .after fun _ => ?_)
  have harguments := (yields_commaList hsingle).optional
  refine harguments.bind fun arguments harguments => .after fun _ => .after fun _ => .pure ?_
  cases arguments with
  | none => exact .ok ⟨⟨hf, ⟨⟩⟩, Nat.le_refl _⟩
  | some r =>
    refine (harguments r rfl).map fun es hes => ⟨⟨hf, ?_⟩, Nat.le_refl _⟩
    exact grammaticalEach_iff.2 hes

theorem reaches_primary : Reaches (primary single) 0 := by
  have hvar : Reaches (do let n ← varName; return .ok (.var n)) 0 :=
    yields_varName.bind fun n hn => .pure (.ok ⟨hn, Nat.le_refl _⟩)
  have hitem : Reaches contextItem 0 := .named (.after fun _ => .pure (.ok ⟨⟨⟩, Nat.le_refl _⟩))
  exact reaches_literal.orElse (hvar.orElse
    ((reaches_parenthesized hsingle).orElse (hitem.orElse (reaches_call hsingle))))

theorem reaches_predicate : Reaches (predicate single) 7 := by
  refine .named (.after fun _ => .after fun _ => ?_)
  have hexpressions := Rule.Yields.named (yields_commaList hsingle)
  exact hexpressions.bind fun r hr => .after fun _ => .after fun _ => .pure (good_ofList hr)

theorem reaches_filterLevel : Reaches (filterLevel single) 1 := by
  have hstep : Rule.Yields (do layout; predicate single) (Reading.Good (Expr.Within 7)) :=
    .after fun _ => reaches_predicate hsingle
  refine .named ((reaches_primary hsingle).bind fun input hinput =>
    hstep.many.bind fun predicates hpredicates => .pure ?_)
  refine hinput.bind fun e he => (Reading.Good.gather hpredicates).bind fun ps hps => ?_
  split
  · exact .ok (he.mono (by decide))
  · next hne =>
    refine .ok ⟨⟨Nat.lt_succ_of_le he.rank_le, hne, he.grammatical, ?_⟩, Nat.le_refl _⟩
    exact grammaticalEach_iff.2 fun p hp => (hps p hp).grammatical

omit hsingle in
/-- Operators applied from left to right to operands that bind more tightly. -/
theorem good_applyAll {rank : Nat} {first : Reading Expr}
    {others : List ((Expr → Expr → Expr) × Reading Expr)}
    (hfirst : first.Good (Expr.Within (rank + 1)))
    (hothers : ∀ x ∈ others, x.2.Good (Expr.Within rank) ∧
      ∀ l r, l.Within (rank + 1) → r.Within rank → (x.1 l r).Within (rank + 1)) :
    (applyAll first others).Good (Expr.Within (rank + 1)) := by
  -- on the operators from the left: what is joined so far is the left operand of the next
  induction others generalizing first with
  | nil => exact hfirst
  | cons x others ih =>
    rcases hothers x (by simp) with ⟨hright, hop⟩
    refine ih ?_ fun y hy => hothers y (List.mem_cons_of_mem _ hy)
    exact hfirst.bind fun l hl => hright.bind fun r hr => .ok (hop l r hl hr)

omit hsingle in
theorem reaches_chain {rank : Nat} {operand : Rule (Reading Expr)}
    {operator : Rule (Expr → Expr → Expr)} (hoperand : Reaches operand rank)
    (hoperator : operator.Yields fun op =>
      ∀ l r, l.Within (rank + 1) → r.Within rank → (op l r).Within (rank + 1)) :
    Reaches (chain operand operator) (rank + 1) := by
  -- one step gives the operator and its right operand, each good in its way
  have hstep : Rule.Yields
      (do layout; let op ← operator; layout; let right ← operand; return (op, right))
      fun x => x.2.Good (Expr.Within rank) ∧
        ∀ l r, l.Within (rank + 1) → r.Within rank → (x.1 l r).Within (rank + 1) :=
    .after fun _ => hoperator.bind fun op hop => .after fun _ =>
      hoperand.bind fun right hright => .pure ⟨hright, hop⟩
  refine hoperand.bind fun first hfirst => hstep.many.bind fun others hothers => .pure ?_
  exact good_applyAll (fun e he => (hfirst e he).mono (Nat.le_succ rank)) hothers

omit hsingle in
theorem yields_means {α : Type} {P : α → Prop} {a : α} (h : P a) (p : Rule Unit) :
    (means p a).Yields P :=
  .after fun _ => .pure h

theorem reaches_exceptLevel : Reaches (exceptLevel single) 2 := by
  refine .named (reaches_chain (reaches_filterLevel hsingle) (.named (.orElse ?_ ?_)))
  · exact yields_means (fun l r hl hr => hl.combine hr .intersect rfl) _
  · exact yields_means (fun l r hl hr => hl.combine hr .except rfl) _

theorem reaches_unionLevel : Reaches (unionLevel single) 3 := by
  refine .named (reaches_chain (reaches_exceptLevel hsingle) (.named ?_))
  exact yields_means (fun l r hl hr => hl.combine hr .union rfl) _

omit hsingle in
theorem yields_comparisonOperator :
    comparisonOperator.Yields fun op =>
      ∀ l r, l.Within 3 → r.Within 3 → (op l r).Within 4 := by
  have hmeans : ∀ (op : Comparison) (p : Rule Unit),
      (means p (Expr.compare op)).Yields fun op =>
        ∀ l r, l.Within 3 → r.Within 3 → (op l r).Within 4 := by
    intro op p
    exact yields_means (fun l r hl hr => hl.compare hr op) p
  exact .named ((hmeans .ne _).orElse ((hmeans .le _).orElse ((hmeans .ge _).orElse
    ((hmeans .eq _).orElse ((hmeans .lt _).orElse (hmeans .gt _))))))

theorem reaches_comparisonLevel : Reaches (comparisonLevel single) 4 := by
  have hunion := reaches_unionLevel hsingle
  -- at most one comparison, unlike the levels below, which are chains
  have hstep : Rule.Yields (do
      layout
      let op ← comparisonOperator
      layout
      let right ← unionLevel single
      return (op, right))
      fun x => x.2.Good (Expr.Within 3) ∧ ∀ l r, l.Within 3 → r.Within 3 → (x.1 l r).Within 4 :=
    .after fun _ => yields_comparisonOperator.bind fun op hop => .after fun _ =>
      hunion.bind fun right hright => .pure ⟨hright, hop⟩
  refine .named (hunion.bind fun first hfirst => hstep.optional.bind fun second hsecond => .pure ?_)
  cases second with
  | none => exact fun e he => (hfirst e he).mono (by decide)
  | some x =>
    rcases hsecond x rfl with ⟨hright, hop⟩
    exact hfirst.bind fun l hl => hright.bind fun r hr => .ok (hop l r hl hr)

theorem reaches_andLevel : Reaches (andLevel single) 5 := by
  refine .named (reaches_chain (reaches_comparisonLevel hsingle) ?_)
  exact yields_means (fun l r hl hr => hl.connect hr .and rfl) _

theorem reaches_orLevel : Reaches (orLevel single) 6 := by
  refine .named (reaches_chain (reaches_andLevel hsingle) ?_)
  exact yields_means (fun l r hl hr => hl.connect hr .or rfl) _

theorem reaches_forLoop : Reaches (forLoop single) 7 := by
  have hclause : Reaches (whereClause single) 7 := .named (.after fun _ => .after fun _ => hsingle)
  -- layout and keywords say nothing of the value; what counts are the three expressions
  refine .named (.after fun _ => .after fun _ => yields_varName.bind fun x hx =>
    .after fun _ => .after fun _ => .after fun _ => hsingle.bind fun input hinput =>
    .after fun _ => hclause.optional.bind fun condition hcondition =>
    .after fun _ => .after fun _ => .after fun _ => hsingle.bind fun body hbody => .pure ?_)
  -- the condition must be good as well, but only where there is one
  cases condition with
  | none =>
    refine hinput.bind fun i hi => ?_
    refine hbody.bind fun b hb => .ok (Expr.Grammatical.within ?_)
    exact ⟨hx, hi.grammatical, hb.grammatical⟩
  | some r =>
    refine hinput.bind fun i hi => ?_
    have hr : Reading.Good (fun o => ∃ c : Expr, o = some c ∧ c.Grammatical) (r.map some) :=
      Reading.Good.map (hcondition r rfl) fun c hc => ⟨c, rfl, hc.grammatical⟩
    refine hr.bind fun o ho => hbody.bind fun b hb => .ok (Expr.Grammatical.within ?_)
    rcases ho with ⟨c, rfl, hc⟩
    exact ⟨hx, hi.grammatical, hc, hb.grammatical⟩

end Levels

theorem reaches_single (n : Nat) : Reaches (single n) 7 := by
  induction n with
  | zero =>
    intro s a rest h
    simp [single, Rule.Reads, Rule.fail] at h
  | succ n ih => exact (reaches_forLoop ih).orElse ((reaches_orLevel ih).mono (by decide))

/-- A whole text holds what stands in it. -/
theorem good_of_query {s rest : List Char} {r : Reading Expr}
    (h : (query s).result = some (r, rest)) : r.Good (Expr.Within 7) := by
  -- expressions are nested no deeper than the text is long
  have hexpressions := Rule.Yields.named (yields_commaList (reaches_single (s.length + 1)))
  have hquery : Reaches (Rule.named do
      layout
      let es ← expressions (single (s.length + 1))
      layout
      endOfText
      return es.map ofList) 7 :=
    .named (.after fun _ => hexpressions.bind fun es hes => .after fun _ => .after fun _ =>
      .pure (good_ofList hes))
  exact hquery s r rest h

end Grammar

/-- Whatever is read is grammatical. -/
theorem Expr.grammatical_of_parse {source : String} {e : Expr} (h : parse source = .ok e) :
    e.Grammatical := by
  unfold parse at h
  simp only at h
  split at h
  · next hquery =>
    obtain rfl := Except.ok.inj h
    exact (Grammar.good_of_query hquery _ rfl).grammatical
  · simp at h
  · simp at h

end DocBase.Query
