import DocBase.Proofs.Query.Shape
/-!
# What an analysis visits

The walk of the analysis with a note of every expression it gives a record to. One-item sequences
are left out of the tree while it is walked, and still the walk comes to each expression that was
read once, in the order they hung below one another before. Main statements:

* `Trace.analysis_visit` — taking notes does not change the analysis;
* `Expr.followed_of_size_le` — what is noted where an expression is waiting;
* `compile_wellFormed` — a compiled query is a tree, and each of its expressions was analysed once.
-/

namespace DocBase.Query

/-! ## Taking notes -/

/-- An analysis with the expressions it gave a record to, in that order. -/
structure Trace where
  analysis : Analysis
  visited : List ExprId := []

namespace Trace

/-- Goes on with the tree unless an error was found. -/
def andThen (a : Trace) (f : Tree → Trace) : Trace :=
  match a.analysis.error with
  | none =>
    let b := f a.analysis.tree
    { b with visited := a.visited ++ b.visited }
  | some _ => a

def visitEach (visit : ExprId → Tree → Trace) : List ExprId → Tree → Trace
  | [], t => { analysis := { tree := t } }
  | id :: ids, t => (visit id t).andThen (visitEach visit ids)

/-- Notes an expression before those visited below it. -/
def note (id : ExprId) (a : Trace) : Trace := { a with visited := id :: a.visited }

/-- The walk of `Analysis.visit` with notes. -/
def visit (static : StaticContext) :
    (fuel : Nat) → List String → AnalysisContext → ExprId → Tree → Trace
  | 0, _, _, _, t => { analysis := { tree := t, error := some .circular } }
  | fuel + 1, scope, ctx, id, t =>
    match t.kind? id with
    | none => { analysis := { tree := t } }
    | some kind =>
      let t := t.setRecord id (some ctx)
      let child := visit static fuel scope (ctx.forChild id)
      note id <| match kind with
        | .literal _ => { analysis := { tree := t } }
        | .var x =>
          { analysis := t.require (scope.contains x || static.declares x) (.undeclared x) }
        | .contextItem => { analysis := t.require ctx.focus.isSome (.noFocus none) }
        | .sequence [item] =>
          if static.rewriting then
            visit static fuel scope ctx item
              ((t.replaceChild ctx.parent id item).2.setRecord id none)
          else child item t
        | .filter input predicates =>
          (child input t).andThen <|
            visitEach
              (fun p t => visit static fuel scope (ctx.forPredicate id (t.isPosition p)) p t)
              predicates
        | .forEach x input condition body =>
          (child input t).andThen fun t =>
            (visitEach (visit static fuel (x :: scope) (ctx.forWhere id)) condition.toList t).andThen
              (visit static fuel (x :: scope) (ctx.forChild id) body)
        | .call f arguments =>
          (({ analysis := t.require (!f.needsFocus || ctx.focus.isSome) (.noFocus (some f)) } :
            Trace).andThen (visitEach child arguments)).andThen fun t =>
              { analysis := t.require (!f.readsStore || t.argumentsLiteral id)
                  (.resourceNotLiteral f) }
        | kind => visitEach child kind.children t

theorem analysis_andThen (a : Trace) (f : Tree → Trace) :
    (a.andThen f).analysis = a.analysis.andThen fun t => (f t).analysis := by
  unfold andThen Analysis.andThen
  cases a.analysis.error <;> rfl

theorem analysis_visitEach (visit : ExprId → Tree → Trace) (ids : List ExprId) (t : Tree) :
    (visitEach visit ids t).analysis =
      Analysis.visitEach (fun id t => (visit id t).analysis) ids t := by
  induction ids generalizing t with
  | nil => rfl
  | cons id ids ih => simp only [visitEach, Analysis.visitEach, analysis_andThen, ih]

/-- Taking notes does not change the analysis. -/
theorem analysis_visit (static : StaticContext) (fuel : Nat) (scope : List String)
    (ctx : AnalysisContext) (id : ExprId) (t : Tree) :
    (visit static fuel scope ctx id t).analysis = Analysis.visit static fuel scope ctx id t := by
  induction fuel generalizing scope ctx id t with
  | zero => rfl
  | succ fuel ih =>
    unfold visit Analysis.visit
    cases t.kind? id with
    | none => rfl
    | some kind =>
      cases kind with
      | sequence items =>
        -- whether there is one item matters only when rewriting
        rcases items with _ | ⟨item, _ | ⟨item', items⟩⟩
        · rfl
        · simp only [note]
          split <;> exact ih _ _ _ _
        · simp only [note, analysis_visitEach, ih]
      | _ => simp only [note, analysis_andThen, analysis_visitEach, ih]

theorem visitEach_singleton (visit : ExprId → Tree → Trace) (id : ExprId) :
    visitEach visit [id] = visit id := by
  funext t
  rcases hv : visit id t with ⟨⟨t', _ | e⟩, visited⟩ <;> simp [visitEach, andThen, hv]

/-- A walk that ends without an error has come through its first part without one. -/
theorem andThen_of_error {a : Trace} {f : Tree → Trace}
    (h : (a.andThen f).analysis.error = none) :
    a.analysis.error = none ∧ (f a.analysis.tree).analysis.error = none ∧
      (a.andThen f).visited = a.visited ++ (f a.analysis.tree).visited := by
  unfold andThen at h ⊢
  cases herror : a.analysis.error with
  | none =>
    rw [herror] at h
    exact ⟨rfl, h, rfl⟩
  | some e =>
    rw [herror] at h
    simp [herror] at h

end Trace

/-! ## The expressions that were read -/

/-- The numbers of expressions and of those in them, each before its parts. -/
def numbersEach (first : Nat) (es : List Expr) : List Nat :=
  (entriesEach false first none (fun _ => none) es).map Prod.fst

/-- What stands below what does not matter for the numbers. -/
theorem map_fst_entriesEach (first : Nat) (parent : Option ExprId) (es : List Expr) :
    (entriesEach false first parent (fun _ => none) es).map Prod.fst = numbersEach first es := by
  unfold numbersEach
  induction es generalizing first with
  | nil => rfl
  | cons e es ih =>
    simp only [entriesEach, List.map_append, ih, Expr.entries_raw, List.map_cons]

theorem numbersEach_append (first : Nat) (es es' : List Expr) :
    numbersEach first (es ++ es') =
      numbersEach first es ++ numbersEach (first + sizeEach es) es' := by
  rw [numbersEach, entriesEach_append, List.map_append]
  rfl

/-- An expression comes before its parts. -/
theorem numbersEach_singleton (first : Nat) (e : Expr) :
    numbersEach first [e] = e.number first :: numbersEach first e.parts := by
  rw [numbersEach, entriesEach, entriesEach, List.append_nil, Expr.entries_raw, List.map_cons,
    map_fst_entriesEach]

/-! ## What is noted -/

/-- A walk over the expressions `es`, wherever they are waiting below `parent`, that notes each of
them and of those in them unless it ends with an error. -/
def Notes (f : Tree → Trace) (parent : Option ExprId) (first : Nat) (es : List Expr) : Prop :=
  ∀ t pre post, t.Waiting parent pre es post first → (f t).analysis.error = none →
    (f t).visited = numbersEach first es

namespace Notes

variable {f g : Tree → Trace} {parent : Option ExprId} {first : Nat} {e : Expr} {es : List Expr}

/-- Where nothing is waiting nothing is noted. -/
theorem nil (a : Tree → Analysis) : Notes (fun t => { analysis := a t }) parent first [] :=
  fun _ _ _ _ _ => rfl

/-- Expressions are noted one after another: the first step leaves the others waiting. -/
theorem cons {rewriting : Bool} {error : Option QueryError} {entries : List (Nat × TreeNode)}
    (covers : Covers (fun t => (f t).analysis) rewriting parent first [e] error entries)
    (hf : Notes f parent first [e]) (hg : Notes g parent (first + e.size) es) :
    Notes (fun t => (f t).andThen g) parent first (e :: es) := by
  intro t pre post waiting hnone
  rw [← List.singleton_append] at waiting ⊢
  rcases Trace.andThen_of_error hnone with ⟨hfnone, hgnone, hvisited⟩
  have met := covers t _ _ waiting.early
  have late := waiting.late (met.tree (met.error_eq.symm.trans hfnone))
  have hone : sizeEach [e] = e.size := by simp [sizeEach]
  rw [hone] at late
  rw [hvisited, hf t _ _ waiting.early hfnone, hg _ _ _ late hgnone, numbersEach_append, hone]

/-- Checks before and after note nothing. -/
theorem checked (h : Notes f parent first es) (ok : Bool) (err : QueryError)
    (after : Tree → Analysis) :
    Notes (fun t => (({ analysis := t.require ok err } : Trace).andThen f).andThen
      fun t => { analysis := after t }) parent first es := by
  intro t pre post waiting hnone
  rcases Trace.andThen_of_error hnone with ⟨hbefore, -, hvisited⟩
  rcases Trace.andThen_of_error hbefore with ⟨-, hfnone, hvisited'⟩
  have hf := h t pre post waiting hfnone
  rw [hvisited, hvisited', List.append_nil, List.nil_append]
  exact hf

end Notes

namespace Expr

/-- With this much fuel, an expression is covered wherever it is waiting, and it is noted with all
those in it. -/
structure Followed (static : StaticContext) (fuel : Nat) (e : Expr) : Prop where
  covered : e.Covered static fuel
  noted : ∀ (scope : List String) (ctx : AnalysisContext) (first : Nat),
    Notes (Trace.visit static fuel scope ctx (e.number first)) ctx.parent first [e]

section Parts

variable {static : StaticContext} {fuel : Nat}

theorem Followed.notes_cons {e : Expr} (h : e.Followed static fuel) (scope : List String)
    (ctx : AnalysisContext) {first : Nat} {es : List Expr} {g : Tree → Trace}
    (hg : Notes g ctx.parent (first + e.size) es) :
    Notes (fun t => (Trace.visit static fuel scope ctx (e.number first) t).andThen g) ctx.parent first
      (e :: es) := by
  have covered := h.covered scope ctx first
  rw [← funext (Trace.analysis_visit static fuel scope ctx _)] at covered
  exact Notes.cons covered (h.noted scope ctx first) hg

/-- Operands are visited in order. -/
theorem notes_operands {es : List Expr} (h : ∀ e ∈ es, e.Followed static fuel)
    (scope : List String) (ctx : AnalysisContext) (first : Nat) :
    Notes (Trace.visitEach (Trace.visit static fuel scope ctx) (placeEach false first es)) ctx.parent
      first es := by
  induction es generalizing first with
  | nil => exact Notes.nil _
  | cons e es ih =>
    have tail := ih (fun e he => h e (List.mem_cons_of_mem _ he)) (first + e.size)
    rw [placeEach, place_false]
    exact (h e List.mem_cons_self).notes_cons scope ctx tail

/-- So are predicates, each in a context of its own. -/
theorem notes_predicates {ps : List Expr} (h : ∀ p ∈ ps, p.Followed static fuel)
    (scope : List String) (ctx : AnalysisContext) (filter : ExprId) (first : Nat) :
    Notes (Trace.visitEach
      (fun p t => Trace.visit static fuel scope (ctx.forPredicate filter (t.isPosition p)) p t)
      (placeEach false first ps)) (some filter) first ps := by
  induction ps generalizing first with
  | nil => exact Notes.nil _
  -- the predicate is told whether it is a position before its visit, as it was in the tree
  | cons p ps ih =>
    have followed := h p List.mem_cons_self
    have covered := followed.covered.predicate scope ctx filter first
    have noted := followed.noted scope (ctx.forPredicate filter p.isPosition) first
    have tail := ih (fun p hp => h p (List.mem_cons_of_mem _ hp)) (first + p.size)
    simp only [← Trace.analysis_visit] at covered
    rw [AnalysisContext.parent_forPredicate] at noted
    rw [placeEach, place_false]
    -- the walk asks the tree in front of it, which still has the predicate as it was built
    refine Notes.cons covered (fun t pre post waiting => ?_) tail
    simp only [waiting.isPosition_eq]
    exact noted t pre post waiting

end Parts

section Construct

variable {static : StaticContext} {fuel : Nat} {scope : List String} {ctx : AnalysisContext}
  {first : Nat}

/-- An expression is noted before its parts. -/
theorem notes_of_parts {e : Expr} {f rest : Tree → Trace}
    (hf : ∀ t : Tree, t.kind? (e.number first) = some (e.kindAt false first) →
      f t = (rest (t.setRecord (e.number first) (some ctx))).note (e.number first))
    (hrest : Notes rest (some (e.number first)) first e.parts) : Notes f ctx.parent first [e] := by
  intro t pre post waiting hnone
  rw [hf t (by simp [Tree.kind?, waiting.node?_eq])] at hnone ⊢
  rw [Trace.note, hrest _ _ _ (waiting.parts (some ctx)) hnone, numbersEach_singleton]

/-- A sequence that is left out is noted before its item, which is visited in its place. -/
theorem notes_inlined {item : Expr} (hrewriting : static.rewriting = true)
    (h : item.Followed static fuel) :
    Notes (Trace.visit static (fuel + 1) scope ctx ((sequence [item]).number first)) ctx.parent first
      [sequence [item]] := by
  intro t pre post waiting
  rcases waiting.inlined (some ctx) rfl with ⟨t', ht', waiting', -, -⟩
  simp only [Trace.visit, Tree.kind?, waiting.node?_eq, Option.map_some, kindAt, placeEach,
    place_false, hrewriting, if_true]
  rw [ht', numbersEach_singleton]
  intro hnone
  exact congrArg (List.cons _) (h.noted scope ctx first t' pre post waiting' hnone)

/-- Any other sequence stays. -/
theorem notes_sequence {items : List Expr}
    (hstay : (static.rewriting && items.length == 1) = false)
    (h : ∀ e ∈ items, e.Followed static fuel) :
    Notes (Trace.visit static (fuel + 1) scope ctx ((sequence items).number first)) ctx.parent first
      [sequence items] := by
  refine notes_of_parts (fun t ht => ?_) (notes_operands h scope (ctx.forChild _) first)
  simp only [Trace.visit, ht, kindAt]
  rcases items with _ | ⟨item, _ | ⟨item', items⟩⟩
  · rfl
  · have hrewriting : static.rewriting = false := by simpa using hstay
    simp [placeEach, hrewriting, Trace.visitEach_singleton]
  · rfl

theorem notes_filter {input : Expr} {predicates : List Expr} (hi : input.Followed static fuel)
    (hp : ∀ p ∈ predicates, p.Followed static fuel) :
    Notes (Trace.visit static (fuel + 1) scope ctx ((filter input predicates).number first))
      ctx.parent first [filter input predicates] := by
  refine notes_of_parts (fun t ht => ?_)
    (hi.notes_cons scope (ctx.forChild _) (notes_predicates hp scope ctx _ (first + input.size)))
  simp only [Trace.visit, ht, kindAt, place_false]

theorem notes_forEach {x : QName} {input body : Expr} {condition : Option Expr}
    (hi : input.Followed static fuel) (hc : ∀ c ∈ condition, c.Followed static fuel)
    (hb : body.Followed static fuel) :
    Notes (Trace.visit static (fuel + 1) scope ctx ((forEach x input condition body).number first))
      ctx.parent first [forEach x input condition body] := by
  have hbody := hb.noted (x.text :: scope)
    (ctx.forChild ((forEach x input condition body).number first))
  cases condition with
  | none =>
    refine notes_of_parts (fun t ht => ?_) (hi.notes_cons scope (ctx.forChild _) (hbody _))
    simp [Trace.visit, ht, kindAt, place_false, sizeEach, Trace.visitEach, Trace.andThen]
  | some c =>
    refine notes_of_parts (fun t ht => ?_) (hi.notes_cons scope (ctx.forChild _)
      ((hc c rfl).notes_cons (x.text :: scope) (ctx.forWhere _) (hbody _)))
    simp [Trace.visit, ht, kindAt, place_false, sizeEach, Trace.visitEach_singleton, Nat.add_assoc]

theorem notes_call {name : QName} {arguments : List Expr} (hres : (call name arguments).Resolved)
    (h : ∀ a ∈ arguments, a.Followed static fuel) :
    Notes (Trace.visit static (fuel + 1) scope ctx ((call name arguments).number first)) ctx.parent
      first [call name arguments] := by
  rcases hres with ⟨⟨f, hf, -⟩, -⟩
  have hoperands := notes_operands h scope (ctx.forChild ((call name arguments).number first)) first
  refine notes_of_parts (fun t ht => ?_) (hoperands.checked
    (!f.needsFocus || ctx.focus.isSome) (.noFocus (some f)) fun t => t.require
      (!f.readsStore || t.argumentsLiteral ((call name arguments).number first))
      (.resourceNotLiteral f))
  simp only [Trace.visit, ht, kindAt, hf]

end Construct

/-- Fuel for each of its expressions is enough to follow an expression. -/
theorem followed_of_size_le (static : StaticContext) (e : Expr) :
    ∀ fuel, e.size ≤ fuel → e.Resolved → e.Followed static fuel := by
  induction e using Expr.ind_parts with
  | h e ih =>
    intro fuel hfuel hres
    refine ⟨e.covered_of_size_le static fuel hfuel hres, fun scope ctx first => ?_⟩
    -- one unit is spent on the expression itself, the rest on its parts
    rw [size_eq] at hfuel
    rcases Nat.exists_eq_add_of_le' (Nat.le_of_add_left_le hfuel) with ⟨fuel, rfl⟩
    have followed : ∀ p ∈ e.parts, p.Followed static fuel := by
      intro p hp
      have hsize := size_le_sizeEach hp
      exact ih p hp fuel (by omega) (resolved_of_mem_parts hres hp)
    cases e with
    | literal v =>
      refine notes_of_parts (fun t ht => ?_) (Notes.nil fun t => { tree := t })
      simp only [Trace.visit, ht, kindAt]
    | var x =>
      refine notes_of_parts (fun t ht => ?_) (Notes.nil fun t =>
        t.require (scope.contains x.text || static.declares x.text) (.undeclared x.text))
      simp only [Trace.visit, ht, kindAt]
    | contextItem =>
      refine notes_of_parts (fun t ht => ?_) (Notes.nil fun t =>
        t.require ctx.focus.isSome (.noFocus none))
      simp only [Trace.visit, ht, kindAt]
    | sequence items =>
      -- a sequence of one item is passed through, so nothing is noted for it
      cases hr : static.rewriting && items.length == 1 with
      | true =>
        obtain ⟨hrewriting, hlen⟩ : static.rewriting = true ∧ items.length = 1 := by simpa using hr
        rcases List.length_eq_one_iff.1 hlen with ⟨item, rfl⟩
        exact notes_inlined hrewriting (followed item List.mem_cons_self)
      | false => exact notes_sequence hr followed
    | filter input predicates =>
      have hpredicates := fun p hp => followed p (List.mem_cons_of_mem input hp)
      exact notes_filter (followed input List.mem_cons_self) hpredicates
    | forEach x input condition body =>
      have hcondition : ∀ c ∈ condition, c.Followed static fuel := by
        intro c hc
        rw [Option.mem_def] at hc
        exact followed c (by simp [parts, hc])
      exact notes_forEach (followed input (by simp [parts])) hcondition
        (followed body (by simp [parts]))
    | compare op l r | connect op l r | combine op l r =>
      refine notes_of_parts (fun t ht => ?_) (notes_operands followed scope (ctx.forChild _) first)
      simp only [Trace.visit, ht, kindAt]
      rfl
    | call name arguments => exact notes_call hres followed

end Expr

/-! ## Compiled queries -/

/-- The analysis of a tree with notes. -/
def Tree.trace (t : Tree) (static : StaticContext) : Trace :=
  let t := t.clearRecords
  match t.root with
  | some r => Trace.visit static t.size [] {} r t
  | none => { analysis := { tree := t } }

theorem Tree.analysis_trace (t : Tree) (static : StaticContext) :
    (t.trace static).analysis = t.analyze static := by
  simp only [trace, analyze]
  cases t.clearRecords.root with
  | none => rfl
  | some r => exact Trace.analysis_visit _ _ _ _ _ _

/-- The tree of an expression holds the expression and those in it. -/
theorem Expr.reachable_of_tree {e : Expr} {t : Tree} (h : e.tree = .ok t) :
    t.reachable = numbersEach 0 [e] := by
  rcases lowered_of_tree h with ⟨hroot, hsize, hholds, -⟩
  have hunder := e.preorder_place t.size 0 none none hholds (Nat.le_of_eq hsize.symm)
  rw [place_false] at hunder
  simp only [Tree.reachable, hroot, hunder, numbersEach, entriesEach, List.append_nil]

/-- Whatever is left out meanwhile, an analysis that finds nothing wrong visits each expression that
hung in the tree before, in that order. -/
theorem Expr.visited_trace {e : Expr} {t : Tree} (h : e.tree = .ok t) {static : StaticContext}
    (hnone : (t.analyze static).error = none) :
    (t.trace static).visited = t.reachable ∧ t.reachable.Nodup := by
  -- the walk starts from cleared records, which changes neither the nodes nor their number
  rcases lowered_of_tree h with ⟨hroot, hsize, -, hres⟩
  have hreach := reachable_of_tree h
  have followed := e.followed_of_size_le static t.size (Nat.le_of_eq hsize.symm) hres
  have hcroot : t.clearRecords.root = some (e.number 0) := hroot
  have htrace : t.trace static = Trace.visit static t.size [] {} (e.number 0) t.clearRecords := by
    simp only [Tree.trace, hcroot, Tree.size_clearRecords]
  rw [← Tree.analysis_trace, htrace] at hnone
  -- in the order of the walk, and no node twice, as the numbers of an expression are distinct
  refine ⟨?_, ?_⟩
  · rw [htrace, hreach]
    exact followed.noted [] {} 0 _ _ _ (waiting_of_tree h) hnone
  · rw [hreach, numbersEach, entriesEach, entriesEach, List.append_nil]
    exact e.nodup_entries

/-- The expressions that are reached from the root make up a tree, and just these are analysed. -/
structure Tree.WellFormed (t : Tree) : Prop where
  /-- No expression is reached twice. -/
  nodup : t.reachable.Nodup
  /-- The root is reached and stands below nothing. -/
  root : ∃ r, t.root = some r ∧ r ∈ t.reachable ∧ t.parent? r = none ∧
    (t.record? r).bind AnalysisContext.parent = none ∧ ∀ p ∈ t.reachable, r ∉ t.children p
  /-- Children are reached with their parent and have smaller numbers. -/
  child : ∀ p ∈ t.reachable, ∀ c ∈ t.children p, c ∈ t.reachable ∧ c < p
  /-- Any other expression stands in one slot of one expression, the parent it is linked to and was
  analysed below. -/
  slot : ∀ id ∈ t.reachable, t.root ≠ some id → ∃ p ∈ t.reachable, (t.children p).count id = 1 ∧
    (∀ p' ∈ t.reachable, id ∈ t.children p' → p' = p) ∧ t.parent? id = some p ∧
      (t.record? id).bind AnalysisContext.parent = some p
  /-- What is not reached has no record. -/
  recorded : ∀ id, (t.record? id).isSome = true ↔ id ∈ t.reachable

/-- A tree that holds just an analysed expression is well-formed. -/
theorem Expr.Represents.wellFormed {e : Expr} {rewriting : Bool} {t : Tree}
    (h : e.Represents rewriting t) : t.WellFormed := by
  -- every edge says the same three things of the node below it
  have below : ∀ p ∈ t.reachable, ∀ c ∈ t.children p, c ∈ t.reachable ∧ t.parent? c = some p ∧
      (t.record? c).bind AnalysisContext.parent = some p := by
    intro p hp c hc
    rcases Tree.mem_children_iff.1 hc with ⟨role, hedge⟩
    rcases h.below hp hedge with ⟨hmem, hparent, isPosition, hrecord⟩
    rcases Option.isSome_iff_exists.1 (h.record?_isSome_iff.2 hp) with ⟨ctx, hctx⟩
    exact ⟨hmem, hparent, by simp [hrecord, hctx]⟩
  refine ⟨h.nodup_reachable, ?_, ?_, ?_, fun id => h.record?_isSome_iff⟩
  · rcases h.root h.root_eq with ⟨hmem, hparent, hrecord⟩
    -- nothing has the root for a child, as it has no parent
    refine ⟨_, h.root_eq, hmem, hparent, by simp [hrecord], fun p hp hc => ?_⟩
    have hlinked := (below p hp _ hc).2.1
    rw [hparent] at hlinked
    simp at hlinked
  · intro p hp c hc
    exact ⟨(below p hp c hc).1, (h.ordered_children hp).2 c hc⟩
  · intro id hid hne
    rcases h.exists_parent id hid hne with ⟨p, hp, hc⟩
    rcases below p hp id hc with ⟨-, hparent, hrecord⟩
    have hnodup : (t.children p).Nodup := (h.ordered_children hp).1.imp Nat.ne_of_lt
    -- children are in ascending order, so each stands in one slot only
    refine ⟨p, hp, List.count_eq_one_of_mem hnodup hc, fun p' hp' hc' => ?_, hparent, hrecord⟩
    have hlinked := (below p' hp' id hc').2.1
    exact Option.some.inj (hlinked.symm.trans hparent)

/-- A compiled query is a tree, without sequences of one item if rewriting is on, and the analysis
it comes from visited each expression of the tree that was read once. -/
theorem compile_wellFormed {source : String} {static : StaticContext} {q : CompiledQuery}
    (h : compile source static = .ok q) :
    q.tree.WellFormed ∧
      (static.rewriting = true →
        ∀ id ∈ q.tree.reachable, ∀ item, q.tree.kind? id ≠ some (.sequence [item])) ∧
      ∃ e t, parse source = .ok e ∧ e.tree = .ok t ∧
        (t.trace static).analysis = { tree := q.tree } ∧
        (t.trace static).visited = t.reachable ∧ (t.trace static).visited.Nodup := by
  rcases analyze_of_compile h with ⟨e, t, hparse, htree, hanalyze⟩
  have meets := e.meets_analyze htree static
  rw [hanalyze] at meets
  have hrep := meets.tree meets.error_eq.symm
  rcases Expr.visited_trace htree (by rw [hanalyze]) with ⟨hvisited, hnodup⟩
  refine ⟨hrep.wellFormed, fun hr id hid item => ?_, e, t, hparse, htree, ?_, hvisited,
    hvisited ▸ hnodup⟩
  · rw [hr] at hrep
    exact hrep.not_singleton (Expr.resolved_of_tree htree) hid
  · rw [Tree.analysis_trace, hanalyze]

/-- Parentheses around the query, around an item and around an operand. -/
theorem compile_wellFormed_parenthesised :
    ∃ q, compile "((for $d in (1) where (.) = 1 return ($d, (2))))" {} = .ok q ∧
      q.tree.WellFormed ∧
      (∀ id ∈ q.tree.reachable, ∀ item, q.tree.kind? id ≠ some (.sequence [item])) ∧
      ∃ e t, parse "((for $d in (1) where (.) = 1 return ($d, (2))))" = .ok e ∧ e.tree = .ok t ∧
        (t.trace {}).analysis = { tree := q.tree } ∧
        (t.trace {}).visited = t.reachable ∧ (t.trace {}).visited.Nodup := by
  obtain ⟨q, hq⟩ : ∃ q, compile "((for $d in (1) where (.) = 1 return ($d, (2))))" {} = .ok q :=
    exists_of_compile_isOk (by decide +kernel)
  rcases compile_wellFormed hq with ⟨hwell, hsingle, hanalysed⟩
  exact ⟨q, hq, hwell, hsingle rfl, hanalysed⟩

end DocBase.Query
