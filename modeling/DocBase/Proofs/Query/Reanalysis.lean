import DocBase.Proofs.Query.Evaluation
/-!
# Analysing a compiled query again

One-item sequences are left out when a query is analysed, so that the second analysis of its tree
sees other expressions where they stood. It finds nothing wrong, replaces nothing and makes the same
records, but for one hint: a predicate that is an integer literal in parentheses was no literal when
it was first looked at, and is one now. Main statements:

* `Expr.retraced` — what analysing an expression again, wherever it stands, comes to;
* `Expr.settledIff` — which expressions keep all their records;
* `analyze_again` — what the second analysis leaves, that the third changes nothing, and which
  queries the second leaves alone.
-/

namespace DocBase.Query

/-! ## Positions -/

namespace AnalysisContext

theorem addFlag_addFlag (c : AnalysisContext) (f : Flags) : (c.addFlag f).addFlag f = c.addFlag f := by
  simp [addFlag, BitVec.or_assoc]

theorem addFlag_removeFlag (c : AnalysisContext) (f : Flags) :
    (c.removeFlag f).addFlag f = c.addFlag f := by
  have hflags : (c.flags &&& ~~~f) ||| f = c.flags ||| f := by
    ext i hi
    simp only [BitVec.getElem_or, BitVec.getElem_and, BitVec.getElem_not]
    cases c.flags[i] <;> cases f[i] <;> rfl
  simp [addFlag, removeFlag, hflags]

/-- A hint that is there need not be added. -/
theorem addFlag_of_hasFlag {c : AnalysisContext} {f : Flags} (h : c.hasFlag f = true) :
    c.addFlag f = c := by
  have hasked : c.flags &&& f = f := by simpa [hasFlag, Flags.contains] using h
  have hflags : c.flags ||| f = c.flags := by
    rw [← hasked]
    ext i hi
    simp only [BitVec.getElem_or, BitVec.getElem_and]
    cases c.flags[i] <;> cases f[i] <;> rfl
  simp [addFlag, hflags]

theorem addFlag_forPredicate (c : AnalysisContext) (filter : ExprId) (isPosition : Bool) :
    (c.forPredicate filter isPosition).addFlag Flags.positional = c.forPredicate filter true := by
  cases isPosition with
  | true => exact addFlag_addFlag _ _
  | false => exact addFlag_removeFlag _ _

end AnalysisContext

namespace Tree

/-- Whether an expression stands as a predicate of the one above it. -/
def isPredicate (t : Tree) (id : ExprId) : Bool :=
  match ((t.node? id).bind TreeNode.parent).bind t.kind? with
  | some (.filter _ predicates) => predicates.contains id
  | _ => false

/-- The same tree with the hint that it is a position in the record of every predicate that is an
integer literal. -/
def marked (t : Tree) : Tree :=
  { t with nodes := t.nodes.mapIdx fun i n =>
      if n.kind.isIntegerLiteral && t.isPredicate i then
        { n with record := n.record.map (·.addFlag Flags.positional) }
      else n }

variable {t : Tree} {i id : ExprId} {k : Kind} {parent : Option ExprId} {c : AnalysisContext}

theorem node?_marked (t : Tree) (i : ExprId) :
    t.marked.node? i = (t.node? i).map fun n =>
      if n.kind.isIntegerLiteral && t.isPredicate i then
        { n with record := n.record.map (·.addFlag Flags.positional) }
      else n := by
  simp [marked, node?]

theorem record?_marked (h : t.node? i = some ⟨k, parent, some c⟩) :
    t.marked.record? i =
      some (if k.isIntegerLiteral && t.isPredicate i then c.addFlag Flags.positional else c) := by
  rw [record?, node?_marked, h]
  simp only [Option.map_some, Option.bind_some]
  split <;> rfl

/-- An expression is a predicate if it is one of those of the filter above it. -/
theorem isPredicate_iff {c : Option AnalysisContext} (h : t.node? i = some ⟨k, some id, c⟩) :
    t.isPredicate i = true ↔ ∃ input predicates, t.kind? id = some (.filter input predicates) ∧
      i ∈ predicates := by
  simp only [isPredicate, h, Option.bind_some]
  cases hkind : t.kind? id with
  | none => simp
  | some kind => cases kind <;> simp

/-! ## Taking over records -/

/-- Takes over the records of some expressions from another tree, one after another. -/
def adopt (t source : Tree) (ids : List ExprId) : Tree :=
  ids.foldl (fun t i => t.setRecord i (source.record? i)) t

variable {source : Tree} {ids ids' : List ExprId}

theorem adopt_append (t source : Tree) (ids ids' : List ExprId) :
    t.adopt source (ids ++ ids') = (t.adopt source ids).adopt source ids' := by
  simp [adopt]

theorem kind?_setRecord (t : Tree) (id : ExprId) (r : Option AnalysisContext) (i : ExprId) :
    (t.setRecord id r).kind? i = t.kind? i := by
  rw [kind?, kind?, node?_setRecord]
  split
  · cases t.node? i <;> rfl
  · rfl

theorem kind?_adopt (t source : Tree) (ids : List ExprId) (i : ExprId) :
    (t.adopt source ids).kind? i = t.kind? i := by
  induction ids generalizing t with
  | nil => rfl
  | cons id ids ih => exact (ih (t.setRecord id _)).trans (kind?_setRecord t id _ i)

theorem root_adopt (t source : Tree) (ids : List ExprId) : (t.adopt source ids).root = t.root := by
  induction ids generalizing t with
  | nil => rfl
  | cons id ids ih => exact ih (t.setRecord id _)

theorem node?_adopt (t source : Tree) (ids : List ExprId) (i : ExprId) :
    (t.adopt source ids).node? i =
      if i ∈ ids then (t.node? i).map fun n => { n with record := source.record? i }
      else t.node? i := by
  induction ids generalizing t with
  | nil => rfl
  | cons id ids ih =>
    show ((t.setRecord id (source.record? id)).adopt source ids).node? i = _
    rw [ih, node?_setRecord]
    by_cases hid : id = i
    · subst hid
      cases t.node? id <;> simp
    · simp [hid, Ne.symm hid]

end Tree

/-! ## Walking through a tree again -/

/-- An analysis that, on a tree of the same expressions, makes the records that the marked tree has
for some of them. -/
def Retraces (T : Tree) (f : Tree → Analysis) (ids : List ExprId) : Prop :=
  ∀ t : Tree, (∀ i, t.kind? i = T.kind? i) → f t = { tree := t.adopt T.marked ids }

namespace Retraces

variable {T : Tree} {f g : Tree → Analysis} {ids ids' : List ExprId}

theorem require (T : Tree) (e : QueryError) : Retraces T (·.require true e) [] := fun _ _ => rfl

theorem append (hf : Retraces T f ids) (hg : Retraces T g ids') :
    Retraces T (fun t => (f t).andThen g) (ids ++ ids') := by
  intro t same
  show (f t).andThen g = _
  rw [hf t same]
  show g (t.adopt T.marked ids) = _
  rw [hg _ fun i => (Tree.kind?_adopt t _ ids i).trans (same i), Tree.adopt_append]

/-- An expression is recorded before its parts are looked at. -/
theorem cons {id : ExprId} {k : Kind} {c : AnalysisContext} (hkind : T.kind? id = some k)
    (hrecord : T.marked.record? id = some c)
    (hf : ∀ t, t.kind? id = some k → f t = g (t.setRecord id (some c))) (hg : Retraces T g ids) :
    Retraces T f (id :: ids) := by
  intro t same
  rw [hf t ((same id).trans hkind), ← hrecord]
  exact hg _ fun i => (Tree.kind?_setRecord t id _ i).trans (same i)

end Retraces

section Walk

variable {T : Tree} {rewriting : Bool} {first : Nat} {parent : Option ExprId}

/-- Expressions are walked through one after another. -/
theorem retraces_visitEach {f : ExprId → Tree → Analysis} {record : Expr → Option AnalysisContext}
    {es : List Expr} (held : T.Holds (entriesEach rewriting first parent record es))
    (h : ∀ e ∈ es, ∀ first', e.place rewriting first' ∈ placeEach rewriting first es →
      T.Holds (e.entries rewriting first' parent (record e)) →
      Retraces T (f (e.place rewriting first'))
        ((e.entries rewriting first' parent (record e)).map Prod.fst)) :
    Retraces T (Analysis.visitEach f (placeEach rewriting first es))
      ((entriesEach rewriting first parent record es).map Prod.fst) := by
  induction es generalizing first with
  | nil => exact Retraces.require T .circular
  | cons e es ih =>
    rw [entriesEach, Tree.holds_append] at held
    rw [entriesEach, List.map_append, placeEach]
    have head := h e List.mem_cons_self first List.mem_cons_self held.1
    have tail := ih held.2 fun e' he' first' hplace =>
      h e' (List.mem_cons_of_mem _ he') first' (List.mem_cons_of_mem _ hplace)
    exact head.append tail

/-- What the marked tree records for the expression that stands for another. -/
theorem Expr.record?_place {e : Expr} {ctx : AnalysisContext}
    (held : T.Holds (e.entries rewriting first parent (some ctx))) :
    T.marked.record? (e.place rewriting first) =
      some (if (e.unwrap rewriting).isPosition && T.isPredicate (e.place rewriting first) then
        ctx.addFlag Flags.positional else ctx) := by
  rw [Tree.record?_marked (node?_place held), kindAt_isIntegerLiteral]

/-- The record of what is no integer literal is not marked. -/
theorem Expr.eq_of_record? {e : Expr} {ctx c : AnalysisContext}
    (held : T.Holds (e.entries rewriting first parent (some ctx)))
    (hnot : (e.unwrap rewriting).isPosition = false)
    (hrecord : T.marked.record? (e.place rewriting first) = some c) : c = ctx := by
  rw [record?_place held, hnot] at hrecord
  simpa using hrecord.symm

/-- Nor is that of what is no predicate. -/
theorem Expr.record?_operand {e : Expr} {ctx : AnalysisContext} {id : ExprId} {k : Kind}
    (held : T.Holds (e.entries rewriting first (some id) (some ctx))) (hkind : T.kind? id = some k)
    (hnot : ∀ input predicates, k = .filter input predicates → e.place rewriting first ∉ predicates) :
    T.marked.record? (e.place rewriting first) = some ctx := by
  have hpredicate : T.isPredicate (e.place rewriting first) = false := by
    rw [Bool.eq_false_iff, ne_eq, Tree.isPredicate_iff (node?_place held)]
    rintro ⟨input, predicates, hfilter, hmem⟩
    exact hnot input predicates (Option.some.inj (hkind.symm.trans hfilter)) hmem
  rw [record?_place held, hpredicate, Bool.and_false]
  rfl

end Walk

/-- The places of the expressions behind another are not its place. -/
theorem Expr.place_not_mem {rewriting : Bool} {first : Nat} {e : Expr} {es : List Expr} :
    e.place rewriting first ∉ placeEach rewriting (first + e.size) es := by
  intro hmem
  have hbefore := (e.place_within rewriting first).2
  have hbehind := (mem_placeEach_within hmem).1
  omega

theorem Expr.isPosition_unwrap {rewriting : Bool} {e : Expr} (h : e.isPosition = true) :
    (e.unwrap rewriting).isPosition = true := by
  cases e with
  | literal v => exact h
  | _ => simp [isPosition] at h

namespace Expr

/-- With this much fuel an expression is analysed again wherever it stands in the tree. -/
def Retraced (T : Tree) (static : StaticContext) (fuel : Nat) (e : Expr) : Prop :=
  ∀ (scope : List String) (first : Nat) (parent : Option ExprId) (ctx c : AnalysisContext),
    T.Holds (e.entries static.rewriting first parent (some ctx)) →
    e.check static scope ctx.focus.isSome = none →
    T.marked.record? (e.place static.rewriting first) = some c →
    Retraces T (Analysis.visit static fuel scope c (e.place static.rewriting first))
      ((e.entries static.rewriting first parent (some ctx)).map Prod.fst)

section Construct

variable {T : Tree} {static : StaticContext} {fuel : Nat}

/-- An expression that was not left out stands under its own number. -/
theorem retraced_of_stay {e : Expr} (hstay : e.unwrap static.rewriting = e)
    (h : ∀ (scope : List String) (first : Nat) (parent : Option ExprId) (ctx c : AnalysisContext),
      T.Holds (e.entries static.rewriting first parent (some ctx)) →
      e.check static scope ctx.focus.isSome = none →
      T.kind? (e.number first) = some (e.kindAt static.rewriting first) →
      T.marked.record? (e.number first) = some c → (e.isPosition = false → c = ctx) →
      Retraces T (Analysis.visit static fuel scope c (e.number first))
        ((e.entries static.rewriting first parent (some ctx)).map Prod.fst)) :
    e.Retraced T static fuel := by
  intro scope first parent ctx c held hcheck hrecord
  have hkind := kind?_place held
  have hctx := fun hnot => eq_of_record? held (by rw [hstay]; exact hnot) hrecord
  rw [place, hstay] at hkind hrecord ⊢
  exact h scope first parent ctx c held hcheck hkind hrecord hctx

theorem retraced_literal (v : Literal) : (literal v).Retraced T static (fuel + 1) := by
  refine retraced_of_stay rfl fun scope first parent ctx c held _ hkind hrecord _ => ?_
  refine .cons hkind hrecord (fun t ht => ?_) (.require T .circular)
  simp only [Analysis.visit, ht, kindAt]
  rfl

theorem retraced_var (x : QName) : (var x).Retraced T static (fuel + 1) := by
  refine retraced_of_stay rfl fun scope first parent ctx c held hcheck hkind hrecord _ => ?_
  refine .cons hkind hrecord (fun t ht => ?_) (.require T (.undeclared x.text))
  simp only [check, demand_eq_none] at hcheck
  simp only [Analysis.visit, ht, kindAt, hcheck]

theorem retraced_contextItem : contextItem.Retraced T static (fuel + 1) := by
  refine retraced_of_stay rfl fun scope first parent ctx c held hcheck hkind hrecord hctx => ?_
  obtain rfl := hctx rfl
  refine .cons hkind hrecord (fun t ht => ?_) (.require T (.noFocus none))
  simp only [check, demand_eq_none] at hcheck
  simp only [Analysis.visit, ht, kindAt, hcheck]

/-- An item stands where the sequence stood that it was left of. -/
theorem retraced_inlined {item : Expr} (hrewriting : static.rewriting = true)
    (h : item.Retraced T static fuel) : (sequence [item]).Retraced T static fuel := by
  intro scope first parent ctx c held hcheck hrecord
  have hplace : (sequence [item]).place static.rewriting first = item.place static.rewriting first := by
    rw [place, place, hrewriting, unwrap_singleton]
  have hentries : (sequence [item]).entries static.rewriting first parent (some ctx) =
      item.entries static.rewriting first parent (some ctx) := by
    simp [entries, entriesEach, hrewriting]
  rw [hplace] at hrecord ⊢
  rw [hentries] at held ⊢
  exact h scope first parent ctx c held (by simpa [check, checkEach] using hcheck) hrecord

/-- Parts that are no predicates have the records that their expression hands down. -/
theorem Retraced.operand {e : Expr} (h : e.Retraced T static fuel) {scope : List String} {first : Nat}
    {ctx : AnalysisContext} {id : ExprId} {k : Kind}
    (held : T.Holds (e.entries static.rewriting first (some id) (some ctx)))
    (hcheck : e.check static scope ctx.focus.isSome = none) (hkind : T.kind? id = some k)
    (hnot : ∀ input predicates, k = .filter input predicates →
      e.place static.rewriting first ∉ predicates) :
    Retraces T (Analysis.visit static fuel scope ctx (e.place static.rewriting first))
      ((e.entries static.rewriting first (some id) (some ctx)).map Prod.fst) :=
  h scope first (some id) ctx ctx held hcheck (record?_operand held hkind hnot)

/-- The same for parts one after another. -/
theorem retraces_operands {es : List Expr} (h : ∀ e ∈ es, e.Retraced T static fuel)
    {scope : List String} {first : Nat} {ctx : AnalysisContext} {id : ExprId} {k : Kind}
    (held : T.Holds (entriesEach static.rewriting first (some id) (fun _ => some ctx) es))
    (hcheck : checkEach static scope ctx.focus.isSome es = none) (hkind : T.kind? id = some k)
    (hnot : ∀ input predicates, k ≠ .filter input predicates) :
    Retraces T (Analysis.visitEach (Analysis.visit static fuel scope ctx)
        (placeEach static.rewriting first es))
      ((entriesEach static.rewriting first (some id) (fun _ => some ctx) es).map Prod.fst) := by
  rw [checkEach_eq_none] at hcheck
  refine retraces_visitEach held fun e he first' _ held' => ?_
  exact (h e he).operand held' (hcheck e he) hkind fun input predicates hk => absurd hk (hnot _ _)

theorem retraced_sequence {items : List Expr}
    (hstay : (static.rewriting && items.length == 1) = false)
    (h : ∀ e ∈ items, e.Retraced T static fuel) : (sequence items).Retraced T static (fuel + 1) := by
  refine retraced_of_stay (unwrap_sequence hstay)
    fun scope first parent ctx c held hcheck hkind hrecord hctx => ?_
  obtain rfl := hctx rfl
  simp only [entries, hstay, Bool.false_eq_true, if_false, Tree.holds_cons, Option.map_some,
    List.map_cons] at held ⊢
  refine .cons hkind hrecord (fun t ht => ?_)
    (retraces_operands h held.2 hcheck hkind (by simp [kindAt]))
  simp only [Analysis.visit, ht, kindAt]
  rcases items with _ | ⟨item, _ | ⟨item', items⟩⟩
  · simp [placeEach, Kind.children]
  · have hrewriting : static.rewriting = false := by simpa using hstay
    simp [placeEach, hrewriting, Analysis.visitEach_singleton]
  · simp [placeEach, Kind.children]

/-- What a predicate is now decides whether it is a position. -/
theorem retraces_predicate {p : Expr} (h : p.Retraced T static fuel) {scope : List String}
    {first : Nat} {c : AnalysisContext} {id : ExprId} {input : ExprId} {predicates : List ExprId}
    (held : T.Holds (p.entries static.rewriting first (some id)
      (some (c.forPredicate id p.isPosition))))
    (hcheck : p.check static scope true = none)
    (hkind : T.kind? id = some (.filter input predicates))
    (hmem : p.place static.rewriting first ∈ predicates) :
    Retraces T (fun t => Analysis.visit static fuel scope
        (c.forPredicate id (t.isPosition (p.place static.rewriting first)))
        (p.place static.rewriting first) t)
      ((p.entries static.rewriting first (some id)
        (some (c.forPredicate id p.isPosition))).map Prod.fst) := by
  have hpredicate : T.isPredicate (p.place static.rewriting first) = true :=
    (Tree.isPredicate_iff (node?_place held)).2 ⟨_, _, hkind, hmem⟩
  -- the mark is there already, or it is added because an integer has come to stand here
  have hrecord : T.marked.record? (p.place static.rewriting first) =
      some (c.forPredicate id (p.unwrap static.rewriting).isPosition) := by
    rw [record?_place held, hpredicate, Bool.and_true]
    cases hnow : (p.unwrap static.rewriting).isPosition with
    | true => rw [if_pos rfl, AnalysisContext.addFlag_forPredicate]
    | false =>
      have hthen : p.isPosition = false := by
        by_contra hthen
        simp [isPosition_unwrap (by simpa using hthen)] at hnow
      rw [hthen]
      rfl
  intro t same
  -- whether it is a position is asked of what stands there now, not of what was read
  have hposition : t.isPosition (p.place static.rewriting first) =
      (p.unwrap static.rewriting).isPosition := by
    rw [Tree.isPosition, same, kind?_place held, Option.any_some, kindAt_isIntegerLiteral]
  dsimp only
  rw [hposition]
  exact h scope first (some id) _ _ held (by simpa using hcheck) hrecord t same

theorem retraced_filter {input : Expr} {predicates : List Expr} (hi : input.Retraced T static fuel)
    (hp : ∀ p ∈ predicates, p.Retraced T static fuel) :
    (filter input predicates).Retraced T static (fuel + 1) := by
  refine retraced_of_stay rfl fun scope first parent ctx c held hcheck hkind hrecord hctx => ?_
  obtain rfl := hctx rfl
  simp only [entries, Tree.holds_cons, Tree.holds_append, Option.map_some, List.map_cons,
    List.map_append] at held ⊢
  simp only [check, Option.or_eq_none_iff, checkEach_eq_none] at hcheck
  rw [kindAt] at hkind
  -- the input is no predicate of its filter, as its place is another one
  have hinput := hi.operand held.2.1 hcheck.1 hkind fun _ _ hfilter => by
    obtain ⟨rfl, rfl⟩ := Kind.filter.inj hfilter
    exact place_not_mem
  have hpredicates := retraces_visitEach (f := fun p t => Analysis.visit static fuel scope
      (c.forPredicate (number first (filter input predicates)) (t.isPosition p)) p t) held.2.2
    fun p hmem first' hplace held' =>
      retraces_predicate (hp p hmem) held' (hcheck.2 p hmem) hkind hplace
  refine .cons hkind hrecord (fun t ht => ?_) (hinput.append hpredicates)
  simp only [Analysis.visit, ht]

/-- The condition is walked through in the focus of the `for`, the body in the one outside. -/
theorem retraced_forEach {x : QName} {input body : Expr} {condition : Option Expr}
    (hi : input.Retraced T static fuel) (hc : ∀ e ∈ condition, e.Retraced T static fuel)
    (hb : body.Retraced T static fuel) :
    (forEach x input condition body).Retraced T static (fuel + 1) := by
  refine retraced_of_stay rfl fun scope first parent ctx c held hcheck hkind hrecord hctx => ?_
  obtain rfl := hctx rfl
  -- only filters have predicates
  have hnot : ∀ (q : ExprId) (i : ExprId) (l : List ExprId),
      kindAt static.rewriting first (forEach x input condition body) = .filter i l → q ∉ l :=
    fun _ _ _ hfilter => by simp [kindAt] at hfilter
  cases condition with
  | none =>
    simp only [entries, Tree.holds_cons, Tree.holds_append, Option.map_some, List.map_cons,
      List.map_append] at held ⊢
    simp only [check, Option.or_eq_none_iff] at hcheck
    have hinput := hi.operand held.2.1 hcheck.1 hkind (hnot _)
    have hbody := hb.operand held.2.2 hcheck.2 hkind (hnot _)
    refine .cons hkind hrecord (fun t ht => ?_) (hinput.append hbody)
    simp only [Analysis.visit, ht, kindAt]
    simp [sizeEach, Analysis.visitEach, Analysis.andThen]
  | some e =>
    simp only [entries, Tree.holds_cons, Tree.holds_append, Option.map_some, List.map_cons,
      List.map_append] at held ⊢
    simp only [check, Option.or_eq_none_iff] at hcheck
    have hinput := hi.operand held.2.1 hcheck.1 hkind (hnot _)
    have hcondition := (hc e rfl).operand held.2.2.1 hcheck.2.1 hkind (hnot _)
    have hbody := hb.operand held.2.2.2 hcheck.2.2 hkind (hnot _)
    refine .cons hkind hrecord (fun t ht => ?_) (hinput.append (hcondition.append hbody))
    simp only [Analysis.visit, ht, kindAt]
    simp [sizeEach, Analysis.visitEach_singleton, Nat.add_assoc]

/-- Two operands are walked through one after the other. -/
theorem Retraced.two {l r : Expr} (hl : l.Retraced T static fuel) (hr : r.Retraced T static fuel)
    {scope : List String} {first : Nat} {ctx : AnalysisContext} {id : ExprId} {k : Kind}
    (heldl : T.Holds (l.entries static.rewriting first (some id) (some ctx)))
    (heldr : T.Holds (r.entries static.rewriting (first + l.size) (some id) (some ctx)))
    (hcheck : l.check static scope ctx.focus.isSome = none ∧
      r.check static scope ctx.focus.isSome = none)
    (hkind : T.kind? id = some k) (hnot : ∀ input predicates, k ≠ .filter input predicates) :
    Retraces T (Analysis.visitEach (Analysis.visit static fuel scope ctx)
        [l.place static.rewriting first, r.place static.rewriting (first + l.size)])
      ((l.entries static.rewriting first (some id) (some ctx)).map Prod.fst ++
        (r.entries static.rewriting (first + l.size) (some id) (some ctx)).map Prod.fst) := by
  have left := hl.operand heldl hcheck.1 hkind fun _ _ hk => absurd hk (hnot _ _)
  have right := hr.operand heldr hcheck.2 hkind fun _ _ hk => absurd hk (hnot _ _)
  -- the two operands are walked one after the other
  have hvisit (visit : ExprId → Tree → Analysis) (i j : ExprId) :
      Analysis.visitEach visit [i, j] = fun t => (visit i t).andThen (visit j) := by
    funext t
    rw [Analysis.visitEach, Analysis.visitEach_singleton]
  rw [hvisit]
  exact left.append right

theorem retraced_call {name : QName} {arguments : List Expr} (hres : (call name arguments).Resolved)
    (h : ∀ a ∈ arguments, a.Retraced T static fuel) :
    (call name arguments).Retraced T static (fuel + 1) := by
  refine retraced_of_stay rfl fun scope first parent ctx c held hcheck hkind hrecord hctx => ?_
  obtain rfl := hctx rfl
  simp only [Resolved] at hres
  rcases hres with ⟨⟨f, hf, -⟩, -⟩
  simp only [entries, Tree.holds_cons, Option.map_some, List.map_cons] at held ⊢
  simp only [check, hf, Option.or_eq_none_iff, demand_eq_none] at hcheck
  simp only [kindAt, hf] at hkind
  generalize number first (call name arguments) = id at *
  rcases hcheck with ⟨⟨hfocus, hparts⟩, htexts⟩
  have harguments := retraces_operands h held.2 hparts hkind (by simp)
  have hliteral : (!f.readsStore || T.argumentsLiteral id) = true := by
    rwa [Tree.argumentsLiteral, Tree.children, hkind, Option.map_some, Option.getD_some,
      Kind.children, all_isText held.2]
  -- neither check depends on anything but what the expressions are
  have hbefore : Retraces T (·.require (!f.needsFocus || c.focus.isSome) (.noFocus (some f))) [] := by
    rw [hfocus]
    exact .require T _
  have hafter : Retraces T
      (fun t => t.require (!f.readsStore || t.argumentsLiteral id) (.resourceNotLiteral f)) [] := by
    intro t same
    have hsame : t.argumentsLiteral id = T.argumentsLiteral id := by
      simp only [Tree.argumentsLiteral, Tree.children, same]
    dsimp only
    rw [hsame, hliteral]
    rfl
  have hall := (hbefore.append harguments).append hafter
  rw [List.nil_append, List.append_nil] at hall
  refine .cons hkind hrecord (fun t ht => ?_) hall
  simp only [Analysis.visit, ht]

end Construct

/-- Fuel for each of its expressions is enough to walk through an expression again. -/
theorem retraced {T : Tree} (static : StaticContext) (e : Expr) :
    ∀ fuel, e.size ≤ fuel → e.Resolved → e.Retraced T static fuel := by
  induction e using Expr.ind_parts with
  | h e ih =>
    intro fuel hfuel hres
    rw [size_eq] at hfuel
    rcases Nat.exists_eq_add_of_le' (Nat.le_of_add_left_le hfuel) with ⟨fuel, rfl⟩
    have retraced : ∀ p ∈ e.parts, p.Retraced T static fuel := by
      intro p hp
      have hsize := size_le_sizeEach hp
      exact ih p hp fuel (by omega) (resolved_of_mem_parts hres hp)
    cases e with
    | literal v => exact retraced_literal v
    | var x => exact retraced_var x
    | contextItem => exact retraced_contextItem
    | sequence items =>
      cases hr : static.rewriting && items.length == 1 with
      | true =>
        obtain ⟨hrewriting, hlen⟩ : static.rewriting = true ∧ items.length = 1 := by simpa using hr
        rcases List.length_eq_one_iff.1 hlen with ⟨item, rfl⟩
        -- no fuel is spent on a sequence that was left out
        have hsize := size_le_sizeEach (List.mem_singleton_self item)
        simp only [parts] at hfuel
        exact retraced_inlined hrewriting (ih item List.mem_cons_self (fuel + 1) (by omega)
          (resolved_of_mem_parts hres List.mem_cons_self))
      | false => exact retraced_sequence hr retraced
    | filter input predicates =>
      exact retraced_filter (retraced input List.mem_cons_self) fun p hp =>
        retraced p (List.mem_cons_of_mem input hp)
    | forEach x input condition body =>
      have hcondition : ∀ c ∈ condition, c.Retraced T static fuel := by
        intro c hc
        rw [Option.mem_def] at hc
        exact retraced c (by simp [parts, hc])
      exact retraced_forEach (retraced input (by simp [parts])) hcondition
        (retraced body (by simp [parts]))
    | compare op l r | connect op l r | combine op l r =>
      have left := retraced l (by simp [parts])
      have right := retraced r (by simp [parts])
      refine retraced_of_stay rfl fun scope first parent ctx c held hcheck hkind hrecord hctx => ?_
      obtain rfl := hctx rfl
      simp only [entries, Tree.holds_cons, Tree.holds_append, Option.map_some, List.map_cons,
        List.map_append] at held ⊢
      -- operands of operators are predicates of nothing, so they are left as they are
      simp only [check, Option.or_eq_none_iff] at hcheck
      refine .cons hkind hrecord (fun t ht => ?_)
        (left.two right held.2.1 held.2.2 hcheck hkind (by simp [kindAt]))
      simp only [Analysis.visit, ht, kindAt, Kind.children]
    | call name arguments => exact retraced_call hres retraced

end Expr

/-! ## What is left alone -/

/-- Some predicate is an integer literal that is no longer seen to be in parentheses. -/
inductive Expr.HidesPosition (rewriting : Bool) : Expr → Prop
  | here {input p : Expr} {predicates : List Expr} : p ∈ predicates → p.isPosition = false →
    (p.unwrap rewriting).isPosition = true → HidesPosition rewriting (.filter input predicates)
  | inside {e p : Expr} : p ∈ e.parts → HidesPosition rewriting p → HidesPosition rewriting e

/-- Marking changes nothing for this expression. -/
def Tree.Settled (t : Tree) (id : ExprId) : Prop := t.marked.record? id = t.record? id

section Settled

variable {T : Tree} {rewriting : Bool} {first : Nat} {id : ExprId} {k : Kind} {ctx : AnalysisContext}

theorem Expr.hidesPosition_filter {input : Expr} {predicates : List Expr} :
    (filter input predicates).HidesPosition rewriting ↔ input.HidesPosition rewriting ∨
      ∃ p ∈ predicates, p.HidesPosition rewriting ∨
        p.isPosition = false ∧ (p.unwrap rewriting).isPosition = true := by
  constructor
  · rintro (⟨hp, hthen, hnow⟩ | ⟨hp, hides⟩)
    · exact .inr ⟨_, hp, .inr ⟨hthen, hnow⟩⟩
    · rcases List.mem_cons.1 hp with rfl | hp
      · exact .inl hides
      · exact .inr ⟨_, hp, .inl hides⟩
  · rintro (hides | ⟨p, hp, hides | ⟨hthen, hnow⟩⟩)
    · exact .inside List.mem_cons_self hides
    · exact .inside (List.mem_cons_of_mem _ hp) hides
    · exact .here hp hthen hnow

theorem Expr.hidesPosition_iff {e : Expr} (h : ∀ input predicates, e ≠ filter input predicates) :
    e.HidesPosition rewriting ↔ ∃ p ∈ e.parts, p.HidesPosition rewriting := by
  constructor
  · rintro (⟨hp, hthen, hnow⟩ | ⟨hp, hides⟩)
    · exact absurd rfl (h _ _)
    · exact ⟨_, hp, hides⟩
  · rintro ⟨p, hp, hides⟩
    exact .inside hp hides

/-- What can be said of marking wherever the expression stands. -/
def Expr.SettledIff (T : Tree) (rewriting : Bool) (e : Expr) : Prop :=
  ∀ (first : Nat) (parent : Option ExprId) (ctx : AnalysisContext),
    T.Holds (e.entries rewriting first parent (some ctx)) →
    ((∀ x ∈ e.entries rewriting first parent (some ctx), T.Settled x.1) ↔
      T.Settled (e.place rewriting first) ∧ ¬e.HidesPosition rewriting)

namespace Expr

/-- A part that is no predicate is settled if it hides no position. -/
theorem SettledIff.operand {e : Expr} (h : e.SettledIff T rewriting)
    (held : T.Holds (e.entries rewriting first (some id) (some ctx))) (hkind : T.kind? id = some k)
    (hnot : ∀ input predicates, k = .filter input predicates → e.place rewriting first ∉ predicates) :
    (∀ x ∈ e.entries rewriting first (some id) (some ctx), T.Settled x.1) ↔
      ¬e.HidesPosition rewriting := by
  have hplace : T.Settled (e.place rewriting first) := by
    rw [Tree.Settled, record?_operand held hkind hnot, Tree.record?, node?_place held]
    rfl
  rw [h first (some id) ctx held]
  exact ⟨And.right, fun hides => ⟨hplace, hides⟩⟩

/-- A predicate, too, has to be no position or one as it was read. -/
theorem SettledIff.predicate {p : Expr} (h : p.SettledIff T rewriting) {input : ExprId}
    {predicates : List ExprId}
    (held : T.Holds (p.entries rewriting first (some id) (some (ctx.forPredicate id p.isPosition))))
    (hkind : T.kind? id = some (.filter input predicates))
    (hmem : p.place rewriting first ∈ predicates) :
    (∀ x ∈ p.entries rewriting first (some id) (some (ctx.forPredicate id p.isPosition)),
      T.Settled x.1) ↔
      ¬(p.HidesPosition rewriting ∨ p.isPosition = false ∧ (p.unwrap rewriting).isPosition = true) := by
  -- its record is what decides, as a predicate may lack the hint
  have hpredicate : T.isPredicate (p.place rewriting first) = true :=
    (Tree.isPredicate_iff (node?_place held)).2 ⟨_, _, hkind, hmem⟩
  have hplace : T.Settled (p.place rewriting first) ↔
      ¬(p.isPosition = false ∧ (p.unwrap rewriting).isPosition = true) := by
    rw [Tree.Settled, record?_place held, hpredicate, Bool.and_true, Tree.record?, node?_place held]
    have hflag := AnalysisContext.hasFlag_forPredicate ctx id p.isPosition
    cases hnow : (p.unwrap rewriting).isPosition with
    | false => simp
    | true =>
      cases hthen : p.isPosition with
      | true =>
        rw [hthen] at hflag
        simp [AnalysisContext.addFlag_of_hasFlag hflag]
      | false =>
        rw [hthen] at hflag
        -- the hint is missing, so adding it makes a difference
        have hne : (ctx.forPredicate id false).addFlag Flags.positional ≠ ctx.forPredicate id false := by
          intro heq
          rw [← heq, AnalysisContext.hasFlag_addFlag] at hflag
          simp at hflag
        simpa using hne
  rw [h first (some id) _ held, hplace, not_or, and_comm]

/-- The same for parts one after another. -/
theorem settled_each {record : Expr → Option AnalysisContext} {es : List Expr} {P : Expr → Prop}
    (held : T.Holds (entriesEach rewriting first (some id) record es))
    (h : ∀ e ∈ es, ∀ first', e.place rewriting first' ∈ placeEach rewriting first es →
      T.Holds (e.entries rewriting first' (some id) (record e)) →
      ((∀ x ∈ e.entries rewriting first' (some id) (record e), T.Settled x.1) ↔ P e)) :
    (∀ x ∈ entriesEach rewriting first (some id) record es, T.Settled x.1) ↔ ∀ e ∈ es, P e := by
  induction es generalizing first with
  | nil => simp [entriesEach]
  | cons e es ih =>
    rw [entriesEach, Tree.holds_append] at held
    have head := h e List.mem_cons_self first List.mem_cons_self held.1
    have tail := ih held.2 fun e' he' first' hplace =>
      h e' (List.mem_cons_of_mem _ he') first' (List.mem_cons_of_mem _ hplace)
    rw [entriesEach, List.forall_mem_append, List.forall_mem_cons, head, tail]

/-- An expression that was not left out is settled with its parts. -/
theorem settled_of_stay {e : Expr} {entries : List (Nat × TreeNode)} (hstay : e.unwrap rewriting = e)
    (h : (∀ x ∈ entries, T.Settled x.1) ↔ ¬e.HidesPosition rewriting) (n : TreeNode) :
    (∀ x ∈ (e.number first, n) :: entries, T.Settled x.1) ↔
      T.Settled (e.place rewriting first) ∧ ¬e.HidesPosition rewriting := by
  rw [List.forall_mem_cons, h, place, hstay]

/-- Only a filter is held as one. -/
theorem kindAt_ne_filter {e : Expr} (h : ∀ input predicates, e ≠ filter input predicates)
    (input : ExprId) (predicates : List ExprId) :
    e.kindAt rewriting first ≠ .filter input predicates := by
  cases e with
  | filter i ps => exact absurd rfl (h i ps)
  | call name arguments =>
    simp only [kindAt, ne_eq]
    split <;> simp
  | _ => simp [kindAt]

theorem settled_operands {es : List Expr} (h : ∀ e ∈ es, e.SettledIff T rewriting)
    (held : T.Holds (entriesEach rewriting first (some id) (fun _ => some ctx) es))
    (hkind : T.kind? id = some k) (hnot : ∀ input predicates, k ≠ .filter input predicates) :
    (∀ x ∈ entriesEach rewriting first (some id) (fun _ => some ctx) es, T.Settled x.1) ↔
      ∀ e ∈ es, ¬e.HidesPosition rewriting :=
  settled_each held fun e he _ _ held' =>
    (h e he).operand held' hkind fun _ _ hk => absurd hk (hnot _ _)

/-- Marking changes nothing below an expression exactly if it hides no position. -/
theorem settledIff (T : Tree) (rewriting : Bool) (e : Expr) : e.SettledIff T rewriting := by
  -- the parts are settled or not by induction; what is added here is the record of each predicate
  induction e using Expr.ind_parts with
  | h e ih =>
    intro first parent ctx held
    have hkind := kind?_place held
    cases e with
    -- no parts, so nothing but its own record is to be settled
    | literal | var | contextItem =>
      simp only [entries]
      refine settled_of_stay rfl ?_ _
      simp [hidesPosition_iff, parts]
    | sequence items =>
      cases hr : rewriting && items.length == 1 with
      | true =>
        -- the item has taken the place of the sequence, and hides what the sequence hides
        obtain ⟨rfl, hlen⟩ : rewriting = true ∧ items.length = 1 := by simpa using hr
        rcases List.length_eq_one_iff.1 hlen with ⟨item, rfl⟩
        have hitem := ih item List.mem_cons_self first parent ctx
        rw [place, unwrap_singleton, ← place]
        simp only [entries, hr, if_true, entriesEach, List.append_nil] at held ⊢
        rw [hitem held, hidesPosition_iff (e := sequence [item]) (by simp)]
        simp [parts]
      | false =>
        rw [place, unwrap_sequence hr] at hkind
        simp only [entries, hr, Bool.false_eq_true, if_false, Tree.holds_cons, Option.map_some]
          at held ⊢
        refine settled_of_stay (unwrap_sequence hr) ?_ _
        -- the items are no predicates, so what they hide is all there is
        have hitems : ∀ e ∈ items, e.SettledIff T rewriting := ih
        rw [settled_operands hitems held.2 hkind (kindAt_ne_filter (by simp)),
          hidesPosition_iff (e := sequence items) (by simp)]
        simp [parts]
    | filter input predicates =>
      simp only [entries, Tree.holds_cons, Tree.holds_append, Option.map_some] at held ⊢
      refine settled_of_stay rfl ?_ _
      -- the input has a place of its own, so it is not taken for a predicate
      have hinput := (ih input List.mem_cons_self).operand held.2.1 hkind fun _ _ hfilter => by
        obtain ⟨rfl, rfl⟩ := Kind.filter.inj hfilter
        exact place_not_mem
      -- here a predicate may hide a position itself, besides those inside it
      have hpredicates := settled_each held.2.2 fun p hp first' hplace held' =>
        (ih p (List.mem_cons_of_mem input hp)).predicate held' hkind hplace
      rw [List.forall_mem_append, hinput, hpredicates, hidesPosition_filter]
      simp
    | forEach x input condition body =>
      -- a loop is no filter, so none of its parts is a predicate
      have hnot : ∀ (q i : ExprId) (ps : List ExprId),
          kindAt rewriting first (forEach x input condition body) = .filter i ps → q ∉ ps :=
        fun q i ps hfilter => absurd hfilter (kindAt_ne_filter (by simp) i ps)
      cases condition with
      | none =>
        simp only [entries, Tree.holds_cons, Tree.holds_append, Option.map_some] at held ⊢
        refine settled_of_stay rfl ?_ _
        rw [List.forall_mem_append, (ih input (by simp [parts])).operand held.2.1 hkind (hnot _),
          (ih body (by simp [parts])).operand held.2.2 hkind (hnot _),
          hidesPosition_iff (e := forEach x input none body) (by simp)]
        simp [parts]
      | some c =>
        simp only [entries, Tree.holds_cons, Tree.holds_append, Option.map_some] at held ⊢
        refine settled_of_stay rfl ?_ _
        rw [List.forall_mem_append, List.forall_mem_append,
          (ih input (by simp [parts])).operand held.2.1 hkind (hnot _),
          (ih c (by simp [parts])).operand held.2.2.1 hkind (hnot _),
          (ih body (by simp [parts])).operand held.2.2.2 hkind (hnot _),
          hidesPosition_iff (e := forEach x input (some c) body) (by simp)]
        simp [parts]
    | compare op l r | connect op l r | combine op l r =>
      simp only [entries, Tree.holds_cons, Tree.holds_append, Option.map_some] at held ⊢
      refine settled_of_stay rfl ?_ _
      -- nor is an operand a predicate
      have hl := (ih l (by simp [parts])).operand held.2.1 hkind
        fun i ps hfilter => absurd hfilter (kindAt_ne_filter (by simp [unwrap]) i ps)
      have hr := (ih r (by simp [parts])).operand held.2.2 hkind
        fun i ps hfilter => absurd hfilter (kindAt_ne_filter (by simp [unwrap]) i ps)
      simp only [List.forall_mem_append, hl, hr, ne_eq, reduceCtorEq, not_false_eq_true, implies_true,
        hidesPosition_iff, parts, List.mem_cons, List.not_mem_nil, or_false, exists_eq_or_imp,
        exists_eq_left, not_or]
    | call name arguments =>
      simp only [entries, Tree.holds_cons, Option.map_some] at held ⊢
      refine settled_of_stay rfl ?_ _
      -- nor is an argument
      have harguments : ∀ e ∈ arguments, e.SettledIff T rewriting := ih
      rw [settled_operands harguments held.2 hkind (kindAt_ne_filter (by simp [unwrap])),
        hidesPosition_iff (e := call name arguments) (by simp)]
      simp [parts]

end Expr
end Settled

/-! ## Compiled queries -/

namespace Tree

variable {t t' : Tree}

theorem eq_of_node? (hroot : t.root = t'.root) (hnode : ∀ i, t.node? i = t'.node? i) : t = t' := by
  obtain ⟨nodes, root⟩ := t
  obtain ⟨nodes', root'⟩ := t'
  have hnodes : nodes = nodes' := Array.ext_getElem? hnode
  obtain rfl : root = root' := hroot
  rw [hnodes]

/-- Marking only touches records. -/
theorem node?_marked_eq (t : Tree) (i : ExprId) :
    t.marked.node? i = (t.node? i).map fun n => { n with record := t.marked.record? i } := by
  rw [record?, node?_marked]
  cases t.node? i with
  | none => rfl
  | some n =>
    simp only [Option.map_some, Option.bind_some]
    split <;> rfl

/-- It makes none. -/
theorem record?_marked_eq_none {i : ExprId} (h : t.record? i = none) : t.marked.record? i = none := by
  rw [record?, node?_marked]
  cases hn : t.node? i with
  | none => rfl
  | some n =>
    have hrecord : n.record = none := by simpa [record?, hn] using h
    simp only [Option.map_some, Option.bind_some]
    split <;> simp [hrecord]

theorem marked_eq_iff : t.marked = t ↔ ∀ i, t.Settled i := by
  constructor
  · intro h i
    rw [Settled, h]
  · intro h
    refine eq_of_node? rfl fun i => ?_
    rw [node?_marked_eq, h i, record?]
    cases t.node? i <;> rfl

/-- An analysis forgets the marks before it starts. -/
theorem clearRecords_marked (t : Tree) : t.marked.clearRecords = t.clearRecords := by
  refine eq_of_node? rfl fun i => ?_
  rw [node?_clearRecords, node?_clearRecords, node?_marked_eq, Option.map_map]
  rfl

/-- Taking over the marked records where a tree has any makes it the marked tree. -/
theorem adopt_marked {ids : List ExprId} (h : ∀ i, (t.record? i).isSome = true → i ∈ ids) :
    t.clearRecords.adopt t.marked ids = t.marked := by
  refine eq_of_node? (root_adopt _ _ _) fun i => ?_
  rw [node?_adopt, node?_clearRecords, node?_marked_eq, Option.map_map]
  split
  · rfl
  · next hmem =>
    have hnone : t.record? i = none := by
      rw [← Option.not_isSome_iff_eq_none]
      exact fun hsome => hmem (h i hsome)
    rw [record?_marked_eq_none hnone]

end Tree

namespace Expr

variable {e : Expr} {T : Tree} {rewriting : Bool}

/-- The whole query is nobody's predicate. -/
theorem Represents.record?_root (h : e.Represents rewriting T) :
    T.marked.record? (e.place rewriting 0) = some {} := by
  have hpredicate : T.isPredicate (e.place rewriting 0) = false := by
    simp [Tree.isPredicate, node?_place h.holds]
  rw [record?_place h.holds, hpredicate, Bool.and_false]
  rfl

theorem Represents.marked_eq_iff (h : e.Represents rewriting T) :
    T.marked = T ↔ ¬e.HidesPosition rewriting := by
  have hroot : T.Settled (e.place rewriting 0) := by
    rw [Tree.Settled, h.record?_root, Tree.record?, node?_place h.holds]
    rfl
  have hentries : (∀ i, T.Settled i) ↔ ∀ x ∈ e.entries rewriting 0 none (some {}), T.Settled x.1 := by
    refine ⟨fun settled x _ => settled x.1, fun settled i => ?_⟩
    cases hrecord : T.record? i with
    | none => rw [Tree.Settled, Tree.record?_marked_eq_none hrecord, hrecord]
    | some c =>
      rcases h.recorded i (by simp [hrecord]) with ⟨x, hx, rfl⟩
      exact settled x hx
  rw [Tree.marked_eq_iff, hentries, settledIff T rewriting e 0 none {} h.holds]
  exact and_iff_right hroot

/-- The analysis of a tree that was analysed marks it. -/
theorem Represents.analyze_eq {static : StaticContext} (h : e.Represents static.rewriting T)
    (hres : e.Resolved) (hcheck : e.check static [] false = none) :
    T.analyze static = { tree := T.marked } := by
  have hroot : T.clearRecords.root = some (e.place static.rewriting 0) := h.root_eq
  -- fuel and root are those of the first analysis, and so are the kinds
  have hfuel : e.size ≤ T.clearRecords.size := by
    simp [Tree.clearRecords, Tree.size, ← h.size_eq]
  have same : ∀ i, T.clearRecords.kind? i = T.kind? i := by
    intro i
    rw [Tree.kind?, Tree.kind?, Tree.node?_clearRecords]
    cases T.node? i <;> rfl
  have retraced := retraced static e _ hfuel hres [] 0 none {} {} h.holds hcheck h.record?_root
  -- and everything that has a record is met again
  have hall : ∀ i, (T.record? i).isSome = true →
      i ∈ (e.entries static.rewriting 0 none (some {})).map Prod.fst := by
    intro i hsome
    rcases h.recorded i hsome with ⟨x, hx, rfl⟩
    exact List.mem_map_of_mem hx
  simp only [Tree.analyze, hroot]
  rw [retraced _ same, Tree.adopt_marked hall]

end Expr

/-- The second analysis of a compiled query finds nothing wrong and leaves the tree as it was, but
for the hints of the predicates that are integer literals by now. The third changes nothing. Neither
does the second unless some predicate is an integer literal in parentheses that were left out. -/
theorem analyze_again {source : String} {static : StaticContext} {q : CompiledQuery}
    (h : compile source static = .ok q) :
    q.tree.analyze static = { tree := q.tree.marked } ∧
      q.tree.marked.analyze static = { tree := q.tree.marked } ∧
      ∃ e, parse source = .ok e ∧
        (q.tree.marked = q.tree ↔ ¬e.HidesPosition static.rewriting) := by
  rcases compile_eq_ok h with ⟨e, t, hparse, htree, hcheck, hrep⟩
  have second := hrep.analyze_eq (Expr.resolved_of_tree htree) hcheck
  have third : q.tree.marked.analyze static = q.tree.analyze static := by
    simp only [Tree.analyze, Tree.clearRecords_marked]
  exact ⟨second, third.trans second, e, hparse, hrep.marked_eq_iff⟩

/-- A position in parentheses, and one without. -/
theorem analyze_again_parenthesised :
    ∃ q, compile "(4, 5)[(2)][1]" {} = .ok q ∧
      q.tree.analyze {} = { tree := q.tree.marked } ∧
      q.tree.marked.analyze {} = { tree := q.tree.marked } ∧
      ∃ e, parse "(4, 5)[(2)][1]" = .ok e ∧ (q.tree.marked = q.tree ↔ ¬e.HidesPosition true) := by
  obtain ⟨q, hq⟩ : ∃ q, compile "(4, 5)[(2)][1]" {} = .ok q :=
    exists_of_compile_isOk (by decide +kernel)
  exact ⟨q, hq, analyze_again hq⟩

/-- So analysing a compiled query again does not always leave its tree as it was. -/
theorem not_analyze_idempotent :
    ¬∀ (source : String) (static : StaticContext) (q : CompiledQuery),
      compile source static = .ok q → q.tree.analyze static = { tree := q.tree } := by
  intro same
  have changes : (compile "1[(1)]" {}).toOption.any
      (fun q => decide ((q.tree.analyze {}).tree ≠ q.tree)) = true := by decide +kernel
  cases hq : compile "1[(1)]" {} with
  | error e => simp [hq, Except.toOption] at changes
  | ok q => simp [hq, Except.toOption, same _ _ q hq] at changes

end DocBase.Query
