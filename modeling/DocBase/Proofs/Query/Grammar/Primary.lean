import DocBase.Proofs.Query.Grammar.Operators
/-!
# Primary expressions

What needs no operator is told by its first character: numbers by a digit, strings by a quote,
variables by a dollar sign, sequences by a parenthesis, and calls by a letter. What stands in
parentheses or brackets is read by the rule for whole expressions. Main statements:

* `reads_commaList` — expressions between commas;
* `readsUpTo_primary` — primary expressions, one character longer than what stands inside.
-/

namespace DocBase.Query.Grammar

/-! ## Literals -/

theorem rejects_numbers {s : List Char} (hscientific : scientific? s = none)
    (hdecimal : decimal? s = none) : doubleLiteral.Rejects s ∧ decimalLiteral.Rejects s :=
  ⟨.named (.bind (.scan hscientific) _), .named (.bind (.scan hdecimal) _)⟩

theorem rejects_integerLiteral {s : List Char} (h : digits? s = none) : integerLiteral.Rejects s :=
  .named (Rule.Rejects.bind (.scan h) _)

theorem rejects_stringLiteral {s : List Char} (h : ∀ c r, s = c :: r → c ∉ ['"', '\'']) :
    stringLiteral.Rejects s :=
  .named (.bind (rejects_quoted h) _)

/-- A literal begins with a digit, a point or a quote. -/
theorem rejects_literal {s : List Char}
    (h : ∀ c r, s = c :: r → c.isDigit = false ∧ c ∉ ['.', '"', '\'']) : literal.Rejects s := by
  have hhead : ∀ c r, s = c :: r → c.isDigit = false ∧ c ≠ '.' := fun c r heq =>
    ⟨(h c r heq).1, List.ne_of_not_mem_cons (h c r heq).2⟩
  have hquote : ∀ c r, s = c :: r → c ∉ ['"', '\''] := fun c r heq =>
    List.not_mem_of_not_mem_cons (h c r heq).2
  have hnumbers := rejects_numbers (scientific?_of_head hhead) (decimal?_of_head hhead)
  have hinteger := rejects_integerLiteral (digits?_of_head fun c r heq => (h c r heq).1)
  exact hnumbers.1.orElse (hnumbers.2.orElse (hinteger.orElse (rejects_stringLiteral hquote)))

/-- A point alone is no literal. -/
theorem rejects_literal_point {rest : List Char} (h : Ends rest) :
    literal.Rejects ('.' :: rest) := by
  have hdigit : ∀ c r, '.' :: rest = c :: r → c.isDigit = false ∧ c ∉ ['"', '\''] := by
    intro c r heq
    rw [← (List.cons.inj heq).1]
    decide
  have hnumbers := rejects_numbers (scientific?_point h) (decimal?_point h)
  have hinteger := rejects_integerLiteral (digits?_of_head fun c r heq => (hdigit c r heq).1)
  have hstring := rejects_stringLiteral fun c r heq => (hdigit c r heq).2
  exact hnumbers.1.orElse (hnumbers.2.orElse (hinteger.orElse hstring))

theorem reads_literal_integer {i : Int64} (hi : 0 ≤ i.toInt) {rest : List Char} (h : Ends rest) :
    literal.Reads ((toString i.toInt.toNat).toList ++ rest) (.ok (.literal (.integer i))) rest := by
  have hne := toString_ne_nil i.toInt.toNat
  have hdigits : ∀ d ∈ (toString i.toInt.toNat).toList, d.isDigit = true :=
    fun d hd => isDigit_of_mem_toString hd
  -- the numbers with a point or an exponent are tried first
  have hnumbers :=
    rejects_numbers (scientific?_digits hne hdigits h) (decimal?_digits hne hdigits h)
  have hscan : (Rule.scan List.length digits?).Reads ((toString i.toInt.toNat).toList ++ rest)
      (toString i.toInt.toNat).toList rest :=
    .scan (digits?_append hne hdigits fun c r heq => not_isDigit_of_ends (r := r) (heq ▸ h))
  -- what is read is the number again, since it is not negative
  have hvalue : ∀ text, integerValue (toString i.toInt.toNat).toList text =
      .ok (.literal (.integer i)) := by
    intro text
    rw [integerValue, readInt64_toString hi]
  have hinteger : integerLiteral.Reads ((toString i.toInt.toNat).toList ++ rest)
      (.ok (.literal (.integer i))) rest := by
    refine .named (Rule.Reads.bind hscan ?_)
    rw [hvalue]
    exact .pure _ rest
  exact hnumbers.1.orElse_reads (hnumbers.2.orElse_reads (hinteger.orElse _))

theorem reads_literal_string {q : Char} (hq : q ∈ ['"', '\'']) (s : String) {rest : List Char}
    (h : Ends rest) :
    literal.Reads (inQuotes q s.toList ++ rest) (.ok (.literal (.string s))) rest := by
  -- a quotation mark is no digit and no point, so no number begins here
  have hhead : ∀ c r, inQuotes q s.toList ++ rest = c :: r → c.isDigit = false ∧ c ≠ '.' := by
    intro c r heq
    rw [← (List.cons.inj heq).1]
    simp only [List.mem_cons, List.not_mem_nil, or_false] at hq
    rcases hq with rfl | rfl <;> decide
  have hnumbers := rejects_numbers (scientific?_of_head hhead) (decimal?_of_head hhead)
  have hinteger := rejects_integerLiteral (digits?_of_head fun c r heq => (hhead c r heq).1)
  have hstring : stringLiteral.Reads (inQuotes q s.toList ++ rest) (.ok (.literal (.string s)))
      rest := by
    refine .named (.bind (reads_quoted hq s.toList h) ?_)
    rw [String.ofList_toList]
    exact .pure _ rest
  exact hnumbers.1.orElse_reads (hnumbers.2.orElse_reads (hinteger.orElse_reads hstring))

/-! ## Lists -/

section Lists

variable {single : Rule (Reading Expr)} {n : Nat}

theorem gather_ok {α : Type} (as : List α) : gather (as.map Except.ok) = .ok as := by
  induction as with
  | nil => rfl
  | cons a as ih => simp [gather, ih, bind, Except.bind, pure, Except.pure]

/-- Behind an expression the next one begins with a mark of its own, if there is a next one. -/
theorem stops_append {es : List Expr} {c : Char} {before behind vs : List Token}
    (h : SpelledEach ([c] :: before) behind es vs) {cs s rest : List Char} (hs : Trailing vs s)
    (hrest : Stops cs rest) : Stops (c :: cs) (s ++ rest) := by
  cases es with
  | nil =>
    obtain rfl := h
    cases hs
    exact hrest.mono (List.subset_cons_self c cs)
  | cons e es =>
    rcases h with ⟨us, vs, -, -, rfl⟩
    exact stops_of_trailing hs List.mem_cons_self rest

/-- The further expressions of a list, each behind a comma. -/
theorem readsMany_comma (hsingle : ReadsUpTo single 7 n) {es : List Expr} {vs : List Token}
    {s rest : List Char} (hes : ∀ e ∈ es, e.Grammatical) (hvs : SpelledEach [[',']] [] es vs)
    (hs : Trailing vs s) (hlength : s.length ≤ n) (hrest : Stops [')', ']'] rest) :
    Rule.ReadsMany (do layout; mark ","; layout; single) (s ++ rest) (es.map Except.ok) rest := by
  -- on the list, one comma and one expression at a time
  induction es generalizing vs s with
  | nil =>
    obtain rfl := hvs
    cases hs
    -- what follows the list is a closing mark, which is no comma
    refine .stop (hrest.rejects (by simp) fun s hs => .bind (rejects_mark rfl ?_) _)
    exact hs.ne_cons (by decide)
  | cons e es ih =>
    rcases hvs with ⟨us, vs, hus, hvs, rfl⟩
    have he := hes e List.mem_cons_self
    rw [List.append_nil, List.singleton_append, List.cons_append] at hs
    rcases hs.uncons with ⟨l, s', rfl, hl, hne, hs'⟩
    rcases hs'.append with ⟨s₁, s₂, rfl, hfirst, hothers⟩
    rcases hfirst.spaced (hus.ne_nil he) with ⟨l', s'', rfl, hl', -, hspaced⟩
    -- behind the first expression comes a comma, or what comes behind the whole list
    have hstops : Stops (marksBehind 7) (s₂ ++ rest) :=
      (stops_append hvs hothers hrest).mono (by decide)
    simp only [List.length_append, List.length_cons, List.length_nil] at hlength
    -- the expression has less room than the list, as the comma takes some
    have hread := hsingle e us s'' (s₂ ++ rest) he.within hus hspaced (by omega) hstops
    have hsolid := e.solid he hus hspaced hstops.ends
    have htext : l ++ ([','] ++ (l' ++ s'' ++ s₂)) ++ rest =
        l ++ (",".toList ++ (l' ++ (s'' ++ (s₂ ++ rest)))) := by simp
    rw [htext]
    refine .step ?_ ?_ (ih (fun e he => hes e (List.mem_cons_of_mem _ he)) hvs hothers (by omega))
    · exact .bind (reads_layout hl (.cons (by decide))) (.bind (reads_mark "," _)
        (.bind (reads_layout hl' hsolid) hread))
    · -- a step must take something, and the comma does
      have := List.length_pos_iff.2 hne
      simp only [List.length_append]
      omega

/-- Expressions between commas. -/
theorem reads_commaList (hsingle : ReadsUpTo single 7 n) {es : List Expr} {ts : List Token}
    {s rest : List Char} (hes : ∀ e ∈ es, e.Grammatical) (hts : ListSpelled es ts)
    (hs : Spaced ts s) (hlength : s.length ≤ n) (hrest : Stops [')', ']'] rest) :
    (commaList single).Reads (s ++ rest) (.ok es) rest := by
  cases es with
  | nil =>
    obtain rfl := hts
    cases hs
  | cons e es =>
    rcases hts with ⟨us, vs, hus, hvs, rfl⟩
    have he := hes e List.mem_cons_self
    rcases hs.append (hus.ne_nil he) with ⟨s₁, s₂, rfl, hfirst, hothers⟩
    have hstops : Stops (marksBehind 7) (s₂ ++ rest) :=
      (stops_append hvs hothers hrest).mono (by decide)
    rw [List.length_append] at hlength
    have hread := hsingle e us s₁ (s₂ ++ rest) he.within hus hfirst (by omega) hstops
    -- the first is read for itself, the others each behind its comma
    have hmany := readsMany_comma hsingle (fun e he => hes e (List.mem_cons_of_mem _ he)) hvs
      hothers (by omega) hrest
    -- none of the readings failed, so gathering them does not
    have hvalue := gather_ok (e :: es)
    rw [List.append_assoc]
    refine .bind hread (.bind hmany.many ?_)
    rw [List.map_cons] at hvalue
    rw [hvalue]
    exact .pure _ rest

theorem solid_of_listSpelled {es : List Expr} {ts : List Token} {s rest : List Char}
    (hes : ∀ e ∈ es, e.Grammatical) (hts : ListSpelled es ts) (hs : Spaced ts s)
    (hrest : Ends rest) : IsSolid (s ++ rest) := by
  cases es with
  | nil =>
    obtain rfl := hts
    cases hs
  | cons e es =>
    rcases hts with ⟨us, vs, hus, -, rfl⟩
    have he := hes e List.mem_cons_self
    rcases hs.append (hus.ne_nil he) with ⟨s₁, s₂, rfl, hfirst, hothers⟩
    rw [List.append_assoc]
    exact e.solid he hus hfirst (hothers.ends hrest)

/-- What stands in parentheses, which may be nothing. -/
theorem reads_parentheses (hsingle : ReadsUpTo single 7 n)
    (hclosed : ∀ r, single.Rejects (')' :: r)) {p : Rule (Reading (List Expr))}
    (hp : p = commaList single ∨ p = (commaList single).named)
    (f : Reading (List Expr) → Reading Expr) {es : List Expr} {us : List Token} {s : List Char}
    (hes : ∀ e ∈ es, e.Grammatical) (hus : ListSpelled es us) (hs : Trailing (us ++ [[')']]) s)
    (hlength : s.length ≤ n) (rest : List Char) :
    Rule.Reads (do
      layout
      let items ← p.optional
      layout
      mark ")"
      return f (items.getD (.ok []))) (s ++ rest) (f (.ok es)) rest := by
  have hsolid : IsSolid (')' :: rest) := .cons (by decide)
  have hmark : (mark ")").Reads (')' :: rest) () rest := reads_mark ")" rest
  -- what stands inside is read up to the layout before the closing parenthesis
  rcases hs.append with ⟨s₁, s₂, rfl, hinside, hclosing⟩
  rcases hclosing.uncons with ⟨l, s', rfl, hl, hne, hnil⟩
  cases hnil
  have htext : s₁ ++ (l ++ ([')'] ++ [])) ++ rest = s₁ ++ (l ++ ')' :: rest) := by simp
  rw [htext]
  -- whether anything stands inside decides what the optional list does
  cases es with
  | nil =>
    obtain rfl := hus
    cases hinside
    -- the closing parenthesis is not taken for the beginning of an expression
    have hlist : p.Rejects (')' :: rest) := by
      have hcomma : (commaList single).Rejects (')' :: rest) := .bind (hclosed rest) _
      rcases hp with rfl | rfl
      · exact hcomma
      · exact hcomma.named
    have hnothing : layout.Reads (')' :: rest) () (')' :: rest) := reads_layout .nil hsolid
    rw [List.nil_append]
    exact .bind (reads_layout hl hsolid) (.bind hlist.optional (.bind hnothing
      (.bind hmark (.pure _ rest))))
  | cons e es =>
    -- every list of expressions has tokens, so the list begins with a solid character
    have hne_nil : us ≠ [] := by
      rcases hus with ⟨us₁, vs, hus₁, -, rfl⟩
      intro h
      exact hus₁.ne_nil (hes e List.mem_cons_self) (List.append_eq_nil_iff.1 h).1
    rcases hinside.spaced hne_nil with ⟨l', s', rfl, hl', -, hspaced⟩
    have hstops : Stops [')', ']'] (l ++ ')' :: rest) :=
      .intro hl (fun h => absurd h hne) (.cons (by simp) _)
    simp only [List.length_append] at hlength
    have hcomma := reads_commaList hsingle hes hus hspaced (by omega) hstops
    have hlist : p.Reads (s' ++ (l ++ ')' :: rest)) (.ok (e :: es)) (l ++ ')' :: rest) := by
      rcases hp with rfl | rfl
      · exact hcomma
      · exact hcomma.named
    have hinner := solid_of_listSpelled hes hus hspaced hstops.ends
    rw [List.append_assoc]
    exact .bind (reads_layout hl' hinner) (.bind hlist.optional (.bind (reads_layout hl hsolid)
      (.bind hmark (.pure _ rest))))

/-! ## Primary expressions -/

/-- A variable as an expression. -/
abbrev varReading : Rule (Reading Expr) := do
  let n ← varName
  return .ok (.var n)

/-- Names begin otherwise than the other primary expressions. -/
theorem other_of_isNameStart {c : Char} (h : isNameStart c = true) :
    c.isDigit = false ∧ c ∉ ['.', '"', '\'', '$', '('] := by
  -- letters lie in two ranges, and the digits and marks in neither
  have hcases : (c.isUpper = true ∨ c.isLower = true) ∨ c = '_' := by
    have hor : (c.isUpper || c.isLower || c == '_') = true := h
    simpa using hor
  have hrange : (65 ≤ c.toNat ∧ c.toNat ≤ 90 ∨ 97 ≤ c.toNat ∧ c.toNat ≤ 122) ∨ c = '_' := by
    refine hcases.imp_left (Or.imp (fun hupper => ?_) fun hlower => ?_)
    · exact of_decide_eq_true (p := 65 ≤ c.toNat ∧ c.toNat ≤ 90) hupper
    · rcases (Bool.and_eq_true_iff.1 hlower) with ⟨hfirst, hlast⟩
      exact ⟨of_decide_eq_true (p := 97 ≤ c.toNat) hfirst,
        of_decide_eq_true (p := c.toNat ≤ 122) hlast⟩
  constructor
  · rw [Bool.eq_false_iff]
    intro hdigit
    have hdigit : 48 ≤ c.toNat ∧ c.toNat ≤ 57 := by
      simpa [Char.isDigit, UInt32.le_iff_toNat_le] using hdigit
    rcases hrange with hrange | rfl
    · omega
    · simp at hdigit
  · intro hmem
    simp only [List.mem_cons, List.not_mem_nil, or_false] at hmem
    rcases hmem with rfl | rfl | rfl | rfl | rfl <;> simp [isNameStart] at h

/-- Only calls begin like names. -/
theorem rejects_before_call (single : Rule (Reading Expr)) {s : List Char}
    (h : ∀ c r, s = c :: r → c.isDigit = false ∧ c ∉ ['.', '"', '\'', '$', '(']) :
    literal.Rejects s ∧ varReading.Rejects s ∧ (parenthesized single).Rejects s ∧
      contextItem.Rejects s := by
  have hne : ∀ d ∈ ['.', '"', '\'', '$', '('], ∀ r, s ≠ d :: r := fun d hd r heq =>
    (h d r heq).2 hd
  refine ⟨rejects_literal fun c r heq => ⟨(h c r heq).1, fun hmem => (h c r heq).2 ?_⟩, ?_, ?_, ?_⟩
  · exact List.mem_of_mem_take (i := 3) hmem
  · exact .bind (rejects_varName (hne '$' (by simp))) _
  · exact .named (.bind (rejects_mark rfl (hne '(' (by simp))) _)
  · exact .named (.bind (rejects_mark rfl (hne '.' (by simp))) _)

/-- A primary expression begins with a literal, a dollar sign, a parenthesis, a point or a name. -/
theorem rejects_primary {s : List Char} (h : ∀ c r, s = c :: r →
    (c.isDigit = false ∧ c ∉ ['.', '"', '\'', '$', '(']) ∧ isNameStart c = false) :
    (primary single).Rejects s := by
  rcases rejects_before_call single fun c r heq => (h c r heq).1 with
    ⟨hliteral, hvar, hparenthesized, hitem⟩
  have hcall : (call single).Rejects s :=
    .named (.bind (rejects_name fun c r heq => (h c r heq).2) _)
  exact hliteral.orElse (hvar.orElse (hparenthesized.orElse (hitem.orElse hcall)))

/-- Where a text begins like a name, a call is read or nothing. -/
theorem reads_primary_of_call {f : QName} (hf : f.WellFormed) {s rest : List Char}
    {e : Reading Expr} (h : (call single).Reads (f.text.toList ++ s) e rest) :
    (primary single).Reads (f.text.toList ++ s) e rest := by
  rcases hf.exists_cons with ⟨c, cs, heq, hc⟩
  rw [heq, List.cons_append] at h ⊢
  -- the rules tried before a call want a digit, a quotation mark or one of three signs
  have hother : ∀ d r, c :: (cs ++ s) = d :: r →
      d.isDigit = false ∧ d ∉ ['.', '"', '\'', '$', '('] := by
    intro d r heq
    obtain ⟨rfl, -⟩ := List.cons.inj heq
    exact other_of_isNameStart hc
  rcases rejects_before_call single hother with
    ⟨hliteral, hvar, hparenthesized, hitem⟩
  exact hliteral.orElse_reads (hvar.orElse_reads (hparenthesized.orElse_reads
    (hitem.orElse_reads h)))

/-- A dollar sign begins a variable and no literal. -/
theorem reads_primary_var {x : QName} (hx : x.WellFormed) {rest : List Char} (h : Ends rest) :
    (primary single).Reads ('$' :: x.text.toList ++ rest) (.ok (.var x)) rest := by
  have hliteral : literal.Rejects ('$' :: x.text.toList ++ rest) := by
    refine rejects_literal fun c r heq => ?_
    rw [← (List.cons.inj heq).1]
    decide
  have hvar : varReading.Reads ('$' :: x.text.toList ++ rest) (.ok (.var x)) rest :=
    .bind (reads_varName hx h) (.pure _ rest)
  exact hliteral.orElse_reads (hvar.orElse _)

/-- A point that ends its token begins no number, so it is the context item. -/
theorem reads_primary_contextItem {rest : List Char} (h : Ends rest) :
    (primary single).Reads ('.' :: rest) (.ok .contextItem) rest := by
  have hvar : varReading.Rejects ('.' :: rest) := .bind (rejects_varName (by simp)) _
  have hparenthesized : (parenthesized single).Rejects ('.' :: rest) :=
    .named (.bind (rejects_mark rfl fun r heq => absurd (List.cons.inj heq).1 (by decide)) _)
  have hitem : contextItem.Reads ('.' :: rest) (.ok .contextItem) rest :=
    .named (.bind (reads_mark "." rest) (.pure _ rest))
  exact (rejects_literal_point h).orElse_reads (hvar.orElse_reads
    (hparenthesized.orElse_reads (hitem.orElse _)))

/-- A parenthesis begins no literal and no variable. -/
theorem reads_primary_of_parenthesized {s rest : List Char} {e : Reading Expr}
    (h : (parenthesized single).Reads ('(' :: s) e rest) :
    (primary single).Reads ('(' :: s) e rest := by
  have hliteral : literal.Rejects ('(' :: s) := by
    refine rejects_literal fun c r heq => ?_
    rw [← (List.cons.inj heq).1]
    decide
  have hvar : varReading.Rejects ('(' :: s) := .bind (rejects_varName (by simp)) _
  exact hliteral.orElse_reads (hvar.orElse_reads (h.orElse _))

/-- Primary expressions are read back. What stands inside one is shorter than all of it. -/
theorem readsUpTo_primary (hsingle : ReadsUpTo single 7 n)
    (hclosed : ∀ r, single.Rejects (')' :: r)) : ReadsUpTo (primary single) 0 (n + 1) := by
  intro e ts s rest he hts hs hlength hrest
  have hends := hrest.ends
  have hgrammatical := he.grammatical
  -- only these have rank 0; of them literals, variables and the context item are one token each
  cases Expr.ranked_of_rank (Nat.le_zero.1 he.rank_le) with
  | literal v =>
    cases v with
    | integer i =>
      obtain rfl := hts
      obtain rfl := hs.eq_of_single
      exact (reads_literal_integer hgrammatical hends).orElse _
    | double d => exact hts.elim
    | string v =>
      rcases hts with ⟨q, hq, rfl⟩
      obtain rfl := hs.eq_of_single
      exact (reads_literal_string hq v hends).orElse _
  | var x =>
    obtain rfl := hts
    obtain rfl := hs.eq_of_single
    exact reads_primary_var hgrammatical hends
  | contextItem =>
    obtain rfl := hts
    obtain rfl := hs.eq_of_single
    exact reads_primary_contextItem hends
  | sequence items =>
    rcases hts with ⟨us, hus, rfl⟩
    rcases hs.uncons with ⟨s', rfl, htrailing⟩
    -- inside, the rule for whole expressions is used
    have hinside := reads_parentheses hsingle hclosed (.inr rfl) (fun r => r.map .sequence)
      (grammaticalEach_iff.1 hgrammatical) hus htrailing (by simp at hlength; omega) rest
    exact reads_primary_of_parenthesized (.named (.bind (reads_mark "(" (s' ++ rest)) hinside))
  | call f arguments =>
    rcases hts with ⟨us, hus, rfl⟩
    rcases hs.uncons with ⟨s', rfl, htrailing⟩
    rcases htrailing.uncons with ⟨l, s'', rfl, hl, hne, hinner⟩
    -- between the name and the parenthesis there may be layout, which ends the name
    have hends' : Ends (l ++ (['('] ++ s'') ++ rest) := by
      rw [List.append_assoc]
      exact hl.ends hne _
    have hsolid : IsSolid ('(' :: (s'' ++ rest)) := .parenthesis (hinner.ends hends)
    have hname := reads_name hgrammatical.1 hends'
    have hlayout : layout.Reads (l ++ (['('] ++ s'') ++ rest) () ('(' :: (s'' ++ rest)) := by
      have hread := reads_layout hl hsolid
      simpa using hread
    have hinside := reads_parentheses hsingle hclosed (.inl rfl) (fun r => r.map (.call f))
      (grammaticalEach_iff.1 hgrammatical.2) hus hinner (by simp at hlength; omega) rest
    have htext : f.text.toList ++ (l ++ (['('] ++ s'')) ++ rest =
        f.text.toList ++ (l ++ (['('] ++ s'') ++ rest) := by simp
    rw [htext]
    exact reads_primary_of_call hgrammatical.1
      (.named (.bind hname (.bind hlayout (.bind (reads_mark "(" (s'' ++ rest)) hinside))))

end Lists

end DocBase.Query.Grammar
