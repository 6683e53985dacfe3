import DocBase.Proofs.Query.Grammar.Primary
/-!
# Reading queries back

However an expression is spelled and laid out, the grammar reads it back: level by level, for whole
expressions by induction on the length of the text, and so for whole queries. Together with what the
parser produces at all, this says which expressions it produces. Main statements:

* `readsUpTo_single` — whole expressions inside brackets and loops;
* `parse_reads_back` — the parser reads back every expression that has a spelling, and produces
  grammatical expressions only.
-/

namespace DocBase.Query.Grammar

variable {single : Rule (Reading Expr)} {n : Nat}

/-! ## Filters -/

/-- One predicate in its brackets. -/
theorem reads_predicate (hsingle : ReadsUpTo single 7 n) {e : Expr} {us : List Token}
    {s : List Char} (he : e.Grammatical) (hus : e.Spelled us) (hs : Trailing (us ++ [[']']]) s)
    (hlength : s.length ≤ n) (rest : List Char) :
    (predicate single).Reads ('[' :: (s ++ rest)) (.ok e) rest := by
  -- the closing bracket ends the text inside, the layout in front of it included
  rcases hs.append with ⟨s₁, s₂, rfl, hinside, hclosing⟩
  rcases hinside.spaced (hus.ne_nil he) with ⟨l, s', rfl, hl, -, hspaced⟩
  rcases hclosing.uncons with ⟨l', s'', rfl, hl', hne, hnil⟩
  cases hnil
  have hstops : Stops [')', ']'] (l' ++ ']' :: rest) :=
    .intro hl' (fun h => absurd h hne) (.cons (by simp) _)
  -- a predicate is a list of one
  have hlist : ListSpelled [e] us := ⟨us, [], hus, by simp [SpelledEach], by simp⟩
  have hes : ∀ e' ∈ [e], e'.Grammatical := by simpa using he
  simp only [List.length_append] at hlength
  have hcomma := reads_commaList hsingle hes hlist hspaced (by omega) hstops
  have hsolid := e.solid he hus hspaced hstops.ends
  have htext : l ++ s' ++ (l' ++ ([']'] ++ [])) ++ rest = l ++ (s' ++ (l' ++ ']' :: rest)) := by
    simp
  rw [htext]
  exact .named (.bind (reads_mark "[" _) (.bind (reads_layout hl hsolid) (.bind hcomma.named
    (.bind (reads_layout hl' (.cons (by decide))) (.bind (reads_mark "]" rest) (.pure _ rest))))))

/-- All predicates of a filter. -/
theorem readsMany_predicate (hsingle : ReadsUpTo single 7 n) {ps : List Expr} {vs : List Token}
    {s rest : List Char} (hps : ∀ p ∈ ps, p.Grammatical) (hvs : SpelledEach [['[']] [[']']] ps vs)
    (hs : Trailing vs s) (hlength : s.length ≤ n) (hrest : Stops (marksBehind 1) rest) :
    Rule.ReadsMany (do layout; predicate single) (s ++ rest) (ps.map Except.ok) rest := by
  -- on the predicates; what stops them is no bracket
  induction ps generalizing vs s with
  | nil =>
    obtain rfl := hvs
    cases hs
    refine .stop (hrest.rejects not_layout_of_mem_marksBehind fun s hs => ?_)
    exact .named (.bind (rejects_mark rfl (hs.ne_cons (by decide))) _)
  | cons p ps ih =>
    rcases hvs with ⟨us, vs, hus, hvs, rfl⟩
    have hassoc : [['[']] ++ us ++ [[']']] ++ vs = ['['] :: (us ++ [[']']] ++ vs) := by simp
    rw [hassoc] at hs
    rcases hs.uncons with ⟨l, s', rfl, hl, hne, hs'⟩
    -- behind one predicate come the others, and then what comes behind them all
    rcases hs'.append with ⟨s₁, s₂, rfl, hfirst, hothers⟩
    simp only [List.length_append, List.length_cons] at hlength
    have hread := reads_predicate hsingle (hps p List.mem_cons_self) hus hfirst (by omega)
      (s₂ ++ rest)
    have htext : l ++ (['['] ++ (s₁ ++ s₂)) ++ rest = l ++ '[' :: (s₁ ++ (s₂ ++ rest)) := by simp
    rw [htext]
    refine .step (.bind (reads_layout hl (.cons (by decide))) hread) ?_
      (ih (fun p hp => hps p (List.mem_cons_of_mem _ hp)) hvs hothers (by omega))
    have := List.length_pos_iff.2 hne
    simp only [List.length_append, List.length_cons]
    omega

theorem readsUpTo_filterLevel (hsingle : ReadsUpTo single 7 n)
    (hclosed : ∀ r, single.Rejects (')' :: r)) : ReadsUpTo (filterLevel single) 1 (n + 1) := by
  have hprimary := readsUpTo_primary hsingle hclosed
  intro e ts s rest he hts hs hlength hrest
  by_cases hlow : e.rank ≤ 0
  · -- whatever follows is not taken for a predicate
    have hbehind := hrest.mono (marksBehind_anti (Nat.zero_le 1))
    have hinput := hprimary e ts s rest ⟨he.grammatical, hlow⟩ hts hs hlength hbehind
    have hnone : (do layout; predicate single : Rule (Reading Expr)).Rejects rest :=
      hrest.rejects not_layout_of_mem_marksBehind fun s hs =>
        .named (.bind (rejects_mark rfl (hs.ne_cons (by decide))) _)
    have hmany : Rule.ReadsMany (do layout; predicate single) rest [] rest := .stop hnone
    exact .named (.bind hinput (.bind hmany.many (.pure _ rest)))
  · have hone : e.rank = 1 := by
      have := he.rank_le
      omega
    cases Expr.ranked_of_rank hone with
    | filter input predicates =>
      rcases hts with ⟨us, vs, hus, hvs, rfl⟩
      rcases he.grammatical with ⟨hrank, hne, hinput, hpredicates⟩
      rcases hs.append (hus.ne_nil hinput) with ⟨s₁, s₂, rfl, hfirst, hothers⟩
      rw [List.length_append] at hlength
      -- an input takes room of its own, so the predicates have less
      have hpos := hfirst.length_pos hinput hus
      have hstops : Stops (marksBehind 0) (s₂ ++ rest) :=
        (stops_append hvs hothers hrest).mono (by decide)
      have hread := hprimary input us s₁ (s₂ ++ rest) ⟨hinput, Nat.le_of_lt_succ hrank⟩ hus hfirst
        (by omega) hstops
      have hmany := readsMany_predicate hsingle (grammaticalEach_iff.1 hpredicates) hvs hothers
        (by omega) hrest
      rw [List.append_assoc]
      refine .named (.bind hread (.bind hmany.many (.pure_of_eq ?_ rest)))
      -- a filter has a predicate, so what is gathered is a filter again
      rw [gather_ok]
      rcases predicates with _ | ⟨p, ps⟩
      · exact absurd rfl hne
      · rfl

/-! ## Set operators -/

/-- The words for an operator are read as that operator. -/
theorem reads_exceptOperator {op : SetOperator} (hop : op.rank = 2) {w : String}
    (hw : w ∈ op.spellings) {rest : List Char} (h : Ends rest) :
    exceptOperator.Reads (w.toList ++ rest) (.combine op) rest := by
  -- the two words begin differently, so the first rule refuses the second
  cases op with
  | union => simp [SetOperator.rank] at hop
  | intersect =>
    obtain rfl : w = "intersect" := by simpa [SetOperator.spellings] using hw
    have hword : (means (keyword "intersect") (Expr.combine .intersect)).Reads
        ("intersect".toList ++ rest) (.combine .intersect) rest :=
      .bind (reads_keyword "intersect" h) (.pure _ rest)
    exact .named (hword.orElse _)
  | except =>
    obtain rfl : w = "except" := by simpa [SetOperator.spellings] using hw
    have hother : (means (keyword "intersect") (Expr.combine .intersect)).Rejects
        ("except".toList ++ rest) :=
      .bind (rejects_keyword rfl fun r heq => absurd (List.cons.inj heq).1 (by decide)) _
    have hword : (means (keyword "except") (Expr.combine .except)).Reads
        ("except".toList ++ rest) (.combine .except) rest :=
      .bind (reads_keyword "except" h) (.pure _ rest)
    exact .named (hother.orElse_reads hword)

theorem reads_unionOperator {w : String} (hw : w ∈ SetOperator.union.spellings) {rest : List Char}
    (h : Ends rest) : unionOperator.Reads (w.toList ++ rest) (.combine .union) rest := by
  have hw : w = "union" ∨ w = "|" := by simpa [SetOperator.spellings] using hw
  have hsign : ((keyword "union").orElse (mark "|")).Reads (w.toList ++ rest) () rest := by
    rcases hw with rfl | rfl
    · exact (reads_keyword "union" h).orElse _
    · have hother : (keyword "union").Rejects ("|".toList ++ rest) :=
        rejects_keyword rfl fun r heq => absurd (List.cons.inj heq).1 (by decide)
      exact hother.orElse_reads (reads_mark "|" rest)
  exact .named (.bind hsign (.pure _ rest))

theorem exists_mark_of_mem_spellings {op : SetOperator} {w : String} (hw : w ∈ op.spellings) :
    ∃ c cs, w.toList = c :: cs ∧ c ∈ operatorMarks op.rank := by
  cases op with
  | union =>
    have hw : w = "union" ∨ w = "|" := by simpa [SetOperator.spellings] using hw
    rcases hw with rfl | rfl <;> exact ⟨_, _, rfl, by decide⟩
  | intersect =>
    obtain rfl : w = "intersect" := by simpa [SetOperator.spellings] using hw
    exact ⟨_, _, rfl, by decide⟩
  | except =>
    obtain rfl : w = "except" := by simpa [SetOperator.spellings] using hw
    exact ⟨_, _, rfl, by decide⟩

/-- A set operation falls apart at its operator. -/
theorem joined_combine {operator : Rule (Expr → Expr → Expr)} {rank : Nat}
    (hreads : ∀ op : SetOperator, op.rank = rank + 1 → ∀ w ∈ op.spellings, ∀ rest, Ends rest →
      operator.Reads (w.toList ++ rest) (.combine op) rest)
    (hrank : rank = 1 ∨ rank = 2) (e : Expr) (ts : List Token) (hg : e.Grammatical)
    (he : e.rank = rank + 1) (hts : e.Spelled ts) : Joined operator rank e ts := by
  -- only these have an operator of sets at the top and this rank
  have hcombine : ∃ op l r, e = .combine op l r ∧ op.rank = rank + 1 := by
    rcases hrank with rfl | rfl
    · cases Expr.ranked_of_rank he with
      | intersect l r => exact ⟨.intersect, l, r, rfl, rfl⟩
      | except l r => exact ⟨.except, l, r, rfl, rfl⟩
    · cases Expr.ranked_of_rank he with
      | union l r => exact ⟨.union, l, r, rfl, rfl⟩
  rcases hcombine with ⟨op, l, r, rfl, hop⟩
  rcases hts with ⟨us, vs, w, hw, hus, hvs, rfl⟩
  rcases hg with ⟨hl, hr, hgl, hgr⟩
  -- the parts are smaller, and the operator begins with a mark of its level
  refine .intro ⟨hgl, hop ▸ hl⟩ ⟨hgr, by omega⟩ ?_ hus hvs ?_ (hreads op hop w hw)
  · simp only [Expr.size]
    omega
  · rw [← hop]
    exact exists_mark_of_mem_spellings hw

theorem readsUpTo_exceptLevel (hfilter : ReadsUpTo (filterLevel single) 1 n) :
    ReadsUpTo (exceptLevel single) 2 n := by
  refine .named (readsUpTo_chain hfilter (joined_combine ?_ (.inl rfl)) (fun s hs => ?_)
    (by decide))
  · exact fun op hop w hw rest h => reads_exceptOperator hop hw h
  · have hintersect : (means (keyword "intersect") (Expr.combine .intersect)).Rejects s :=
      .bind (rejects_keyword rfl (hs.ne_cons (by decide))) _
    have hexcept : (means (keyword "except") (Expr.combine .except)).Rejects s :=
      .bind (rejects_keyword rfl (hs.ne_cons (by decide))) _
    exact .named (hintersect.orElse hexcept)

theorem readsUpTo_unionLevel (hexcept : ReadsUpTo (exceptLevel single) 2 n) :
    ReadsUpTo (unionLevel single) 3 n := by
  refine .named (readsUpTo_chain hexcept (joined_combine ?_ (.inr rfl)) (fun s hs => ?_)
    (by decide))
  · intro op hop w hw rest h
    obtain rfl : op = .union := by cases op <;> simp [SetOperator.rank] at hop ⊢
    exact reads_unionOperator hw h
  · have hword : ((keyword "union").orElse (mark "|")).Rejects s :=
      (rejects_keyword rfl (hs.ne_cons (by decide))).orElse
        (rejects_mark rfl (hs.ne_cons (by decide)))
    exact .named (.bind hword _)

/-! ## Comparisons -/

/-- One of the comparisons. -/
abbrev comparison (op : Comparison) : Rule (Expr → Expr → Expr) :=
  means (mark op.symbol) (Expr.compare op)

theorem rejects_comparison (op : Comparison) (c : Char) (hc : op.symbol.toList.head? ≠ some c)
    (s : List Char) : (comparison op).Rejects (c :: s) := by
  rcases hw : op.symbol.toList with _ | ⟨d, ds⟩
  · cases op <;> simp [Comparison.symbol] at hw
  · refine .bind (rejects_mark hw fun r heq => ?_) _
    rw [hw] at hc
    exact hc (congrArg some (List.cons.inj heq).1.symm)

/-- The longer of two marks fails where its second character is missing. -/
theorem rejects_longer {op : Comparison} {c : Char} {rest : List Char}
    (hop : op.symbol.toList = [c, '=']) (h : Ends rest) : (comparison op).Rejects (c :: rest) := by
  have hequals := dropWord?_of_head (w := []) (h.ne_cons (c := '=') (by decide))
  exact .bind (.scan (by simp [hop, dropWord?, hequals])) _

/-- The longer marks are tried first, so a mark is not taken for one that it begins with. -/
theorem reads_comparisonOperator (op : Comparison) {rest : List Char} (h : Ends rest) :
    comparisonOperator.Reads (op.symbol.toList ++ rest) (.compare op) rest := by
  -- in the order of the rules, two characters before one
  have hread : (comparison op).Reads (op.symbol.toList ++ rest) (.compare op) rest :=
    .bind (reads_mark op.symbol rest) (.pure _ rest)
  refine .named ?_
  cases op with
  | ne => exact hread.orElse _
  | le => exact (rejects_comparison .ne '<' (by decide) _).orElse_reads (hread.orElse _)
  | ge =>
    have hne := rejects_comparison .ne '>' (by decide) ('=' :: rest)
    have hle := rejects_comparison .le '>' (by decide) ('=' :: rest)
    exact hne.orElse_reads (hle.orElse_reads (hread.orElse _))
  | eq =>
    have hne := rejects_comparison .ne '=' (by decide) rest
    have hle := rejects_comparison .le '=' (by decide) rest
    have hge := rejects_comparison .ge '=' (by decide) rest
    exact hne.orElse_reads (hle.orElse_reads (hge.orElse_reads (hread.orElse _)))
  | lt =>
    have hne := rejects_comparison .ne '<' (by decide) rest
    -- the longer symbol needs an equals sign behind, which no token boundary gives
    have hle : (comparison .le).Rejects ('<' :: rest) := rejects_longer rfl h
    have hge := rejects_comparison .ge '<' (by decide) rest
    have heq := rejects_comparison .eq '<' (by decide) rest
    exact hne.orElse_reads (hle.orElse_reads (hge.orElse_reads (heq.orElse_reads
      (hread.orElse _))))
  | gt =>
    have hne := rejects_comparison .ne '>' (by decide) rest
    have hle := rejects_comparison .le '>' (by decide) rest
    -- the longer symbol needs an equals sign behind, which no token boundary gives
    have hge : (comparison .ge).Rejects ('>' :: rest) := rejects_longer rfl h
    have heq := rejects_comparison .eq '>' (by decide) rest
    have hlt := rejects_comparison .lt '>' (by decide) rest
    exact hne.orElse_reads (hle.orElse_reads (hge.orElse_reads (heq.orElse_reads
      (hlt.orElse_reads hread))))

theorem exists_mark_of_comparison (op : Comparison) :
    ∃ c cs, op.symbol.toList = c :: cs ∧ c ∈ operatorMarks 4 := by
  cases op <;> exact ⟨_, _, rfl, by decide⟩

theorem rejects_comparisonOperator {s : List Char} (h : BeginsIn (marksBehind 4) s) :
    comparisonOperator.Rejects s := by
  have hreject : ∀ op, (comparison op).Rejects s := by
    intro op
    rcases exists_mark_of_comparison op with ⟨c, cs, heq, hc⟩
    have hdisjoint : ∀ c ∈ operatorMarks 4, c ∉ marksBehind 4 := by
      simp [operatorMarks, marksBehind, closingMarks]
    exact .bind (rejects_mark heq (h.ne_cons (hdisjoint c hc))) _
  exact .named ((hreject .ne).orElse ((hreject .le).orElse ((hreject .ge).orElse
    ((hreject .eq).orElse ((hreject .lt).orElse (hreject .gt))))))

theorem readsUpTo_comparisonLevel (hunion : ReadsUpTo (unionLevel single) 3 n) :
    ReadsUpTo (comparisonLevel single) 4 n := by
  intro e ts s rest he hts hs hlength hrest
  by_cases hlow : e.rank ≤ 3
  · -- one operand alone, since no comparison follows
    have hbehind := hrest.mono (marksBehind_anti (Nat.le_succ 3))
    have hfirst := hunion e ts s rest ⟨he.grammatical, hlow⟩ hts hs hlength hbehind
    have hnone : (chainStep (unionLevel single) comparisonOperator).Rejects rest :=
      hrest.rejects not_layout_of_mem_marksBehind fun s hs =>
        (rejects_comparisonOperator hs).bind _
    exact .named (.bind hfirst (.bind hnone.optional (.pure _ rest)))
  · have hfour : e.rank = 4 := by
      have := he.rank_le
      omega
    cases Expr.ranked_of_rank hfour with
    | compare op l r =>
      -- the left operand ends where the operator begins
      rcases hts with ⟨us, vs, hus, hvs, rfl⟩
      rcases he.grammatical with ⟨hl, hr, hgl, hgr⟩
      rcases hs.append (hus.ne_nil hgl) with ⟨s₁, s₂, rfl, hfirst, hsecond⟩
      rw [List.length_append] at hlength
      rcases exists_mark_of_comparison op with ⟨c, cs, hop, hc⟩
      have hmark : c ∈ marksBehind 3 := operatorMarks_subset (by decide) hc
      have hbehind := hrest.mono (marksBehind_anti (Nat.le_succ 3))
      have hoperator : ∀ rest, Ends rest →
          comparisonOperator.Reads (c :: cs ++ rest) (.compare op) rest :=
        fun rest h => hop ▸ reads_comparisonOperator op h
      rw [hop] at hsecond
      have hright := reads_chainStep hunion ⟨hgr, Nat.le_of_lt_succ hr⟩ hvs
        (not_layout_of_mem_marksBehind c hmark) hoperator hsecond (by omega) hbehind
      have hstops := stops_of_trailing hsecond hmark rest
      have hleft := hunion l us s₁ (s₂ ++ rest) ⟨hgl, Nat.le_of_lt_succ hl⟩ hus hfirst (by omega)
        hstops
      rw [List.append_assoc]
      exact .named (.bind hleft (.bind hright.optional (.pure _ rest)))

/-! ## Connectives -/

/-- A connection of two operands falls apart at its connective. -/
theorem joined_connect (op : Connective) {rank : Nat} (hop : op.rank = rank + 1)
    (e : Expr) (ts : List Token) (hg : e.Grammatical)
    (he : e.rank = rank + 1) (hts : e.Spelled ts) :
    Joined (means (keyword op.symbol) (Expr.connect op)) rank e ts := by
  -- one connective for each of the two ranks
  have hconnect : ∃ l r, e = .connect op l r := by
    rw [← hop] at he
    cases op with
    | and =>
      cases Expr.ranked_of_rank he with
      | and l r => exact ⟨l, r, rfl⟩
    | or =>
      cases Expr.ranked_of_rank he with
      | or l r => exact ⟨l, r, rfl⟩
  rcases hconnect with ⟨l, r, rfl⟩
  rcases hts with ⟨us, vs, hus, hvs, rfl⟩
  rcases hg with ⟨hl, hr, hgl, hgr⟩
  refine .intro ⟨hgl, hop ▸ hl⟩ ⟨hgr, by omega⟩ ?_ hus hvs ?_ fun rest h => ?_
  · simp only [Expr.size]
    omega
  · rw [← hop]
    cases op <;> exact ⟨_, _, rfl, by decide⟩
  · exact .bind (reads_keyword _ h) (.pure _ rest)

theorem readsUpTo_andLevel (hcomparison : ReadsUpTo (comparisonLevel single) 4 n) :
    ReadsUpTo (andLevel single) 5 n := by
  refine .named (readsUpTo_chain hcomparison (joined_connect .and rfl) (fun s hs => ?_)
    (by decide))
  exact .bind (rejects_keyword rfl (hs.ne_cons (by decide))) _

theorem readsUpTo_orLevel (hand : ReadsUpTo (andLevel single) 5 n) :
    ReadsUpTo (orLevel single) 6 n := by
  refine .named (readsUpTo_chain hand (joined_connect .or rfl) (fun s hs => ?_) (by decide))
  exact .bind (rejects_keyword rfl (hs.ne_cons (by decide))) _

theorem readsUpTo_orLevel_of_single (hsingle : ReadsUpTo single 7 n)
    (hclosed : ∀ r, single.Rejects (')' :: r)) : ReadsUpTo (orLevel single) 6 (n + 1) :=
  readsUpTo_orLevel (readsUpTo_andLevel (readsUpTo_comparisonLevel (readsUpTo_unionLevel
    (readsUpTo_exceptLevel (readsUpTo_filterLevel hsingle hclosed)))))

/-- What is no primary expression is no expression at all. -/
theorem rejects_orLevel {s : List Char} (h : (primary single).Rejects s) :
    (orLevel single).Rejects s := by
  have hfilter : (filterLevel single).Rejects s := .named (h.bind _)
  have hexcept : (exceptLevel single).Rejects s := .named (hfilter.bind _)
  have hunion : (unionLevel single).Rejects s := .named (hexcept.bind _)
  have hcomparison : (comparisonLevel single).Rejects s := .named (hunion.bind _)
  have hand : (andLevel single).Rejects s := .named (hcomparison.bind _)
  exact .named (hand.bind _)

/-! ## Loops -/

/-- A keyword and an expression behind it. -/
theorem keyword_text {e : Expr} (he : e.Grammatical) {w : String} {us ts : List Token}
    {s : List Char} (hus : e.Spelled us) (hs : Trailing (w.toList :: us ++ ts) s) :
    ∃ l l' s₁ s₂, s = l ++ (w.toList ++ (l' ++ (s₁ ++ s₂))) ∧ IsLayout l ∧ l ≠ [] ∧
      IsLayout l' ∧ l' ≠ [] ∧ Spaced us s₁ ∧ Trailing ts s₂ := by
  rw [List.cons_append] at hs
  rcases hs.uncons with ⟨l, s', rfl, hl, hne, hs'⟩
  rcases hs'.append with ⟨s₁, s₂, rfl, hfirst, hrest⟩
  rcases hfirst.spaced (hus.ne_nil he) with ⟨l', s₁, rfl, hl', hne', hspaced⟩
  exact ⟨l, l', s₁, s₂, by simp, hl, hne, hl', hne', hspaced, hrest⟩

/-- A keyword and the expression behind it are read, and then what follows. -/
theorem reads_clause (hsingle : ReadsUpTo single 7 n) {e : Expr} {w : String} {us : List Token}
    {l l' s t rest : List Char} (he : e.Grammatical) (hus : e.Spelled us)
    (hw : IsSolid (w.toList ++ (l' ++ (s ++ t)))) (hl : IsLayout l) (hl' : IsLayout l')
    (hne : l' ≠ []) (hs : Spaced us s) (hlength : s.length ≤ n) (ht : Stops (marksBehind 7) t)
    {β : Type} {k : Reading Expr → Rule β} {b : β} (hk : (k (.ok e)).Reads t b rest) :
    Rule.Reads (do layout; keyword w; layout; let r ← single; k r)
      (l ++ (w.toList ++ (l' ++ (s ++ t)))) b rest := by
  have hkeyword := reads_keyword w (hl'.ends hne (s ++ t))
  have hsolid := e.solid he hus hs ht.ends
  have hread := hsingle e us s t he.within hus hs hlength ht
  exact .bind (reads_layout hl hw) (.bind hkeyword (.bind (reads_layout hl' hsolid)
    (.bind hread hk)))

/-- What a loop reads behind its input. -/
abbrev loopEnd (single : Rule (Reading Expr)) (x : QName) (input : Reading Expr) :
    Rule (Reading Expr) := do
  layout
  let condition ← (whereClause single).optional
  layout
  keyword "return"
  layout
  let body ← single
  return do
    let i ← input
    let c ← match condition with
      | some r => r.map some
      | none => .ok none
    let b ← body
    return .forEach x i c b

/-- A loop is read if what stands behind its input is. -/
theorem reads_forLoop_of_end (hsingle : ReadsUpTo single 7 n) {x : QName} {input : Expr}
    {us ts : List Token} {s rest : List Char} {b : Reading Expr} (hx : x.WellFormed)
    (hinput : input.Grammatical) (hus : input.Spelled us)
    (hs : Spaced ("for".toList :: ('$' :: x.text.toList) :: ("in".toList :: us ++ ts)) s)
    (hlength : s.length ≤ n + 1)
    (hend : ∀ s₂, Trailing ts s₂ → s₂.length ≤ n →
      Stops (marksBehind 7) (s₂ ++ rest) ∧
        (loopEnd single x (.ok input)).Reads (s₂ ++ rest) b rest) :
    (forLoop single).Reads (s ++ rest) b rest := by
  rcases hs.uncons with ⟨s', rfl, hvar⟩
  rcases hvar.uncons with ⟨l₁, s', rfl, hl₁, hne₁, hin⟩
  rcases keyword_text hinput hus hin with ⟨l₂, l₃, s₁, s₂, rfl, hl₂, hne₂, hl₃, hne₃, hs₁, hs₂⟩
  -- the word has three characters, so its parts have less room than the whole
  have hfor : "for".toList.length = 3 := by decide
  simp only [List.length_append] at hlength
  rcases hend s₂ hs₂ (by omega) with ⟨hstops, hread⟩
  have htext : "for".toList ++ (l₁ ++ ('$' :: x.text.toList ++ (l₂ ++ ("in".toList ++ (l₃ ++
      (s₁ ++ s₂)))))) ++ rest =
      "for".toList ++ (l₁ ++ ('$' :: x.text.toList ++ (l₂ ++ ("in".toList ++ (l₃ ++
        (s₁ ++ (s₂ ++ rest))))))) := by simp
  rw [htext]
  exact .named (.bind (reads_keyword "for" (hl₁.ends hne₁ _)) (.bind
    (reads_layout hl₁ (.cons (by decide))) (.bind (reads_varName hx (hl₂.ends hne₂ _))
    (reads_clause hsingle hinput hus (.cons (by decide)) hl₂ hl₃ hne₃ hs₁ (by omega) hstops
      hread))))

/-- The end of a loop without a condition. -/
theorem reads_loopEnd_none (hsingle : ReadsUpTo single 7 n) (x : QName) (input : Expr) {body : Expr}
    {vs : List Token} {s rest : List Char} (hbody : body.Grammatical) (hvs : body.Spelled vs)
    (hs : Trailing ("return".toList :: vs) s) (hlength : s.length ≤ n)
    (hrest : Stops (marksBehind 7) rest) :
    (loopEnd single x (.ok input)).Reads (s ++ rest) (.ok (.forEach x input none body)) rest := by
  rw [← List.append_nil ("return".toList :: vs)] at hs
  rcases keyword_text hbody hvs hs with ⟨l, l', s₁, s₂, rfl, hl, -, hl', hne', hs₁, hnil⟩
  cases hnil
  simp only [List.length_append] at hlength
  -- the word behind the layout is the other one
  have hnone : (whereClause single).Rejects ("return".toList ++ (l' ++ (s₁ ++ rest))) :=
    .named (.bind (rejects_keyword rfl fun r heq => absurd (List.cons.inj heq).1 (by decide)) _)
  have htext : l ++ ("return".toList ++ (l' ++ (s₁ ++ []))) ++ rest =
      l ++ ("return".toList ++ (l' ++ (s₁ ++ rest))) := by simp
  rw [htext]
  exact .bind (reads_layout hl (.cons (by decide))) (.bind hnone.optional
    (reads_clause hsingle hbody hvs (.cons (by decide)) .nil hl' hne' hs₁ (by omega) hrest (.pure _ rest)))

/-- The end of a loop with a condition. -/
theorem reads_loopEnd_some (hsingle : ReadsUpTo single 7 n) (x : QName) (input : Expr)
    {c body : Expr} {ws vs : List Token} {s rest : List Char} (hc : c.Grammatical) (hws : c.Spelled ws)
    (hbody : body.Grammatical) (hvs : body.Spelled vs)
    (hs : Trailing ("where".toList :: ws ++ "return".toList :: vs) s) (hlength : s.length ≤ n)
    (hrest : Stops (marksBehind 7) rest) :
    (loopEnd single x (.ok input)).Reads (s ++ rest)
      (.ok (.forEach x input (some c) body)) rest := by
  rcases keyword_text hc hws hs with ⟨l₁, l₂, s₁, s₂, rfl, hl₁, -, hl₂, hne₂, hs₁, hreturn⟩
  -- the condition ends at the word behind it
  have hstops : Stops (marksBehind 7) (s₂ ++ rest) :=
    stops_of_trailing (c := 'r') hreturn (by decide) rest
  rw [← List.append_nil ("return".toList :: vs)] at hreturn
  rcases keyword_text hbody hvs hreturn with ⟨l₃, l₄, s₃, s₄, rfl, hl₃, -, hl₄, hne₄, hs₃, hnil⟩
  cases hnil
  simp only [List.length_append] at hlength
  have htext' : l₃ ++ ("return".toList ++ (l₄ ++ (s₃ ++ []))) ++ rest =
      l₃ ++ ("return".toList ++ (l₄ ++ (s₃ ++ rest))) := by simp
  rw [htext'] at hstops
  have hcondition := hsingle c ws s₁ _ hc.within hws hs₁ (by omega) hstops
  have hsolid := c.solid hc hws hs₁ hstops.ends
  -- the optional clause is there, so it counts
  have hsome : (whereClause single).Reads ("where".toList ++ (l₂ ++ (s₁ ++
      (l₃ ++ ("return".toList ++ (l₄ ++ (s₃ ++ rest))))))) (.ok c) (l₃ ++ ("return".toList ++
      (l₄ ++ (s₃ ++ rest)))) :=
    .named (.bind (reads_keyword "where" (hl₂.ends hne₂ _)) (.bind (reads_layout hl₂ hsolid)
      hcondition))
  have htext : l₁ ++ ("where".toList ++ (l₂ ++ (s₁ ++
      (l₃ ++ ("return".toList ++ (l₄ ++ (s₃ ++ []))))))) ++ rest =
      l₁ ++ ("where".toList ++ (l₂ ++ (s₁ ++
        (l₃ ++ ("return".toList ++ (l₄ ++ (s₃ ++ rest))))))) := by simp
  rw [htext]
  exact .bind (reads_layout hl₁ (.cons (by decide))) (.bind hsome.optional
    (reads_clause hsingle hbody hvs (.cons (by decide)) hl₃ hl₄ hne₄ hs₃ (by omega) hrest (.pure _ rest)))

/-- Loops are read back. -/
theorem reads_forLoop (hsingle : ReadsUpTo single 7 n) {x : QName} {input body : Expr}
    {condition : Option Expr} {ts : List Token} {s rest : List Char}
    (he : (Expr.forEach x input condition body).Grammatical)
    (hts : (Expr.forEach x input condition body).Spelled ts) (hs : Spaced ts s)
    (hlength : s.length ≤ n + 1) (hrest : Stops (marksBehind 7) rest) :
    (forLoop single).Reads (s ++ rest) (.ok (.forEach x input condition body)) rest := by
  -- with and without a condition the part up to `in` and its expression is the same
  cases condition with
  | none =>
    rcases hts with ⟨us, vs, hus, hvs, rfl⟩
    rcases he with ⟨hx, hinput, hbody⟩
    refine reads_forLoop_of_end hsingle hx hinput hus hs hlength fun s₂ hs₂ hlength₂ => ⟨?_, ?_⟩
    · exact stops_of_trailing (c := 'r') hs₂ (by decide) rest
    · exact reads_loopEnd_none hsingle x input hbody hvs hs₂ hlength₂ hrest
  | some c =>
    rcases hts with ⟨us, ws, vs, hus, hws, hvs, rfl⟩
    rcases he with ⟨hx, hinput, hc, hbody⟩
    have hassoc : "for".toList :: ('$' :: x.text.toList) :: "in".toList :: us ++
        "where".toList :: ws ++ "return".toList :: vs =
        "for".toList :: ('$' :: x.text.toList) :: ("in".toList :: us ++
          ("where".toList :: ws ++ "return".toList :: vs)) := by simp
    rw [hassoc] at hs
    refine reads_forLoop_of_end hsingle hx hinput hus hs hlength fun s₂ hs₂ hlength₂ => ⟨?_, ?_⟩
    · exact stops_of_trailing (c := 'w') hs₂ (by decide) rest
    · exact reads_loopEnd_some hsingle x input hc hws hbody hvs hs₂ hlength₂ hrest

/-- A function's name that begins with the keyword `w` is `w`, with the parenthesis of its arguments
behind it, or has `w` as its qualifier. -/
theorem behind_keyword {f : QName} (formed : f.WellFormed) (w : String)
    (hword : ∀ c ∈ w.toList, isNameChar c = true) {s r : List Char} (hs : Ends s)
    (heq : f.text.toList ++ s = w.toList ++ r) (hname : ∀ c t, r = c :: t → isNameChar c = false) :
    r = s ∨ ∃ t, r = ':' :: t := by
  -- names with a qualifier end at their colon
  rcases exists_simpleName_append formed s with ⟨cs, tail, htail, hcs, hcase⟩
  have hends : ∀ c t, tail = c :: t → isNameChar c = false := by
    intro c t hc
    rcases hcase with rfl | ⟨u, rfl⟩
    · exact not_isNameChar_of_ends (r := t) (hc ▸ hs)
    · rw [← (List.cons.inj hc).1]
      decide
  -- both are what is left when the name is taken off
  have hsame : tail = r := by
    have hdrop := (takeWhile_dropWhile_append hcs hends).2
    rw [← htail, heq, (takeWhile_dropWhile_append hword hname).2] at hdrop
    exact hdrop.symm
  exact hsame ▸ hcase

/-- Where a loop could begin but no variable follows, there is none; so a function may be called
like a loop. -/
theorem rejects_forLoop {ts : List Token} {s rest : List Char} (h : Leads ts) (hs : Spaced ts s)
    (hrest : Ends rest) : (forLoop single).Rejects (s ++ rest) := by
  cases h with
  | @mark c cs ts _ other =>
    rcases hs.uncons with ⟨s', rfl, -⟩
    exact .named (.bind (rejects_keyword rfl fun r heq => other (List.cons.inj heq).1) _)
  | parenthesis ts =>
    rcases hs.uncons with ⟨s', rfl, -⟩
    exact .named (.bind (rejects_keyword rfl fun r heq =>
      absurd (List.cons.inj heq).1 (by decide)) _)
  -- a function may be called `for`, so here the word itself does not decide
  | @function f formed ts =>
    rcases hs.uncons with ⟨s', rfl, hbehind⟩
    rcases hbehind.uncons with ⟨l, s', rfl, hl, hne, htrailing⟩
    rcases rejects_or_reads_keyword "for" (f.text.toList ++ (l ++ (['('] ++ s')) ++ rest) with
      hrejects | ⟨r, heq, hreads, hname⟩
    · exact .named (hrejects.bind _)
    · rw [List.append_assoc] at heq
      have hlayout : Ends (l ++ (['('] ++ s') ++ rest) := by
        rw [List.append_assoc]
        exact hl.ends hne _
      have hword : ∀ c ∈ "for".toList, isNameChar c = true := by simp [isNameChar]
      refine .named (hreads.bind_rejects ?_)
      -- what follows is the parenthesis of the arguments, or the colon in the name
      rcases behind_keyword formed "for" hword hlayout heq hname with rfl | ⟨t, rfl⟩
      · have hsolid : IsSolid ('(' :: (s' ++ rest)) := .parenthesis (htrailing.ends hrest)
        have hread : layout.Reads (l ++ (['('] ++ s') ++ rest) () ('(' :: (s' ++ rest)) := by
          simpa using reads_layout hl hsolid
        exact hread.bind_rejects (.bind (rejects_varName (by simp)) _)
      · have hread : layout.Reads (':' :: t) () (':' :: t) :=
          reads_layout .nil (.cons (by decide))
        exact hread.bind_rejects (.bind (rejects_varName (by simp)) _)

/-! ## Whole expressions and queries -/

/-- No expression begins with a closing parenthesis. -/
theorem rejects_single (n : Nat) (r : List Char) : (Grammar.single n).Rejects (')' :: r) := by
  cases n with
  | zero => rfl
  | succ n =>
    have hfor : (forLoop (Grammar.single n)).Rejects (')' :: r) :=
      .named (.bind (rejects_keyword rfl fun r heq => absurd (List.cons.inj heq).1 (by decide)) _)
    refine hfor.orElse (rejects_orLevel (rejects_primary fun c r' heq => ?_))
    rw [← (List.cons.inj heq).1]
    decide

/-- Whole expressions are read back, if the bound on the depth of brackets and loops is no smaller
than the text is long. -/
theorem readsUpTo_single (n : Nat) : ReadsUpTo (Grammar.single n) 7 n := by
  -- on the depth; every level of the grammar asks for whole expressions one step less deep
  induction n with
  | zero =>
    -- there is no expression without text
    intro e ts s rest he hts hs hlength _
    have hpos := hs.length_pos he.grammatical hts
    omega
  | succ n ih =>
    intro e ts s rest he hts hs hlength hrest
    by_cases hrank : e.rank < 7
    · -- a loop is tried first, but none begins here
      have hleads := e.leads he.grammatical hrank hts
      have hread := readsUpTo_orLevel_of_single ih (rejects_single n) e ts s rest
        ⟨he.grammatical, Nat.le_of_lt_succ hrank⟩ hts hs hlength
        (hrest.mono (marksBehind_anti (Nat.le_succ 6)))
      exact (rejects_forLoop hleads hs hrest.ends).orElse_reads hread
    · have hseven : e.rank = 7 := by
        have := he.rank_le
        omega
      cases Expr.ranked_of_rank hseven with
      | forEach x input condition body =>
        exact (reads_forLoop ih he.grammatical hts hs hlength hrest).orElse _

/-- A whole text is read back. -/
theorem query_of_laidOut {e : Expr} {ts : List Token} {text : List Char} (he : e.Grammatical)
    (hts : e.Spelled ts) (h : LaidOut ts text) : (query text).result = some (.ok e, []) := by
  -- layout in front, the list of one expression, layout behind, and then the end
  rcases h with @⟨front, body, back, hfront, hbody, hback⟩
  have hend : Stops [')', ']'] back := by
    have hstops : Stops [')', ']'] (back ++ []) := .intro hback (fun _ => rfl) (.nil _)
    rwa [List.append_nil] at hstops
  have hlist : ListSpelled [e] ts := ⟨ts, [], hts, by simp [SpelledEach], by simp⟩
  have hes : ∀ e' ∈ [e], e'.Grammatical := by simpa using he
  have hlength : body.length ≤ (front ++ body ++ back).length + 1 := by
    simp only [List.length_append]
    omega
  have hsingle := readsUpTo_single ((front ++ body ++ back).length + 1)
  have hcomma := reads_commaList hsingle hes hlist hbody hlength hend
  have hsolid := e.solid he hts hbody hend.ends
  have hfirst : layout.Reads (front ++ body ++ back) () (body ++ back) := by
    rw [List.append_assoc]
    exact reads_layout hfront hsolid
  have hlast : layout.Reads back () [] := by
    have hread := reads_layout hback .nil
    rwa [List.append_nil] at hread
  have hnothing : endOfText.Reads [] () [] := .named (.scan (by simp))
  exact Rule.Reads.named (.bind hfirst (.bind hcomma.named (.bind hlast (.bind hnothing
    (.pure _ [])))))

end DocBase.Query.Grammar

namespace DocBase.Query

open Grammar (IsComment IsLayout)

theorem parse_of_laidOut {e : Expr} {ts : List Token} {text : List Char} (he : e.Grammatical)
    (hts : e.Spelled ts) (h : LaidOut ts text) : parse (String.ofList text) = .ok e := by
  have hquery := Grammar.query_of_laidOut he hts h
  unfold parse
  simp only [String.toList_ofList, hquery]

/-- The parser reads back every grammatical expression without fractional numbers, however it is
spelled and laid out, and such an expression can always be spelled and laid out; and what the parser
produces is always grammatical. -/
theorem parse_reads_back :
    (∀ e : Expr, e.Grammatical → e.DoubleFree →
      (∃ ts text, e.Spelled ts ∧ LaidOut ts text) ∧
        ∀ ts text, e.Spelled ts → LaidOut ts text → parse (String.ofList text) = .ok e) ∧
      ∀ source e, parse source = .ok e → e.Grammatical := by
  refine ⟨fun e hg hd => ⟨?_, fun ts text hts h => ?_⟩, fun source e h => ?_⟩
  · rcases e.exists_spelled hd with ⟨ts, hts⟩
    rcases Spaced.exists_spaced (hts.ne_nil hg) with ⟨s, hs⟩
    exact ⟨ts, _, hts, .intro .nil hs .nil⟩
  · exact parse_of_laidOut hg hts h
  · exact Expr.grammatical_of_parse h

/-- A union of a string that holds its own quote and a qualified variable, among nested comments. -/
theorem parse_reads_back_union :
    parse "(: a (: b :) :)'it''s'(::)| $p:x\n" = .ok (.combine .union (.literal (.string "it's"))
      (.var ⟨some "p", "x"⟩)) ∧
    (Expr.combine .union (.literal (.string "it's")) (.var ⟨some "p", "x"⟩)).Grammatical := by
  have hp : IsSimpleName "p" := ⟨'p', [], rfl, by decide, by simp⟩
  have hx : IsSimpleName "x" := ⟨'x', [], rfl, by decide, by simp⟩
  have hname : (QName.mk (some "p") "x").WellFormed := ⟨hx, by simpa using hp⟩
  have hg : (Expr.combine .union (.literal (.string "it's"))
      (.var ⟨some "p", "x"⟩)).Grammatical := ⟨by decide, by decide, ⟨⟩, hname⟩
  have hstring : (Expr.literal (.string "it's")).Spelled ["'it''s'".toList] :=
    ⟨'\'', by simp, by decide⟩
  have hvar : (Expr.var ⟨some "p", "x"⟩).Spelled ["$p:x".toList] := by
    show ["$p:x".toList] = ['$' :: (QName.mk (some "p") "x").text.toList]
    decide
  have hts : (Expr.combine .union (.literal (.string "it's")) (.var ⟨some "p", "x"⟩)).Spelled
      ["'it''s'".toList, "|".toList, "$p:x".toList] :=
    ⟨_, _, "|", by decide, hstring, hvar, by rfl⟩
  have hinner : IsComment " a (: b :) ".toList :=
    .plain (by decide) (.plain (by decide) (.plain (by decide)
      (.nested (.plain (by decide) (.plain (by decide) (.plain (by decide) .nil)))
        (.plain (by decide) .nil))))
  have hfront : IsLayout "(: a (: b :) :)".toList := .comment hinner .nil
  have hbetween : IsLayout "(::)".toList := .comment .nil .nil
  have hspace : IsLayout " ".toList := .space (by decide) .nil
  have hback : IsLayout "\n".toList := .space (by decide) .nil
  have hbody : Spaced ["'it''s'".toList, "|".toList, "$p:x".toList] "'it''s'(::)| $p:x".toList :=
    .intro _ (.cons hbetween (by decide) (.cons hspace (by decide) .nil))
  have hlaid : LaidOut ["'it''s'".toList, "|".toList, "$p:x".toList]
      "(: a (: b :) :)'it''s'(::)| $p:x\n".toList := .intro hfront hbody hback
  have hread := (parse_reads_back.1 _ hg ⟨⟨⟩, ⟨⟩⟩).2 _ _ hts hlaid
  rw [String.ofList_toList] at hread
  exact ⟨hread, parse_reads_back.2 _ _ hread⟩

end DocBase.Query
