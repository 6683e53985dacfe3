import DocBase.Proofs.Query.Shape
/-!
# What analysis records along a path

The context an expression is analysed in is a function of the path down to it: which expression
established the context item, and whether a predicate or a `where` clause was entered. Nothing is
handed on to what stands beside a predicate or a `where` clause. Main statements:

* `AnalysisContext.Tells.down` — what one edge adds to what a context tells;
* `Tree.Path.tells` — what the record at the end of a path tells;
* `records_along_paths` — the records of a compiled query.
-/

namespace DocBase.Query

/-! ## Paths -/

/-- One edge of a path: the expression it leaves, and what the next one is to that. -/
structure Step where
  above : ExprId
  role : Role
deriving DecidableEq, Repr

/-- A filter establishes the context item of its predicates, a `for` that of its condition. -/
def Role.establishes : Role → Bool
  | .operand => false
  | .predicate | .condition => true

/-- A path from the root down to an expression, the last step first. -/
inductive Tree.Path (t : Tree) : List Step → ExprId → Prop where
  | root {r : ExprId} : t.root = some r → t.Path [] r
  | down {steps : List Step} {p c : ExprId} {role : Role} :
    t.Path steps p → (role, c) ∈ t.edges p → t.Path (⟨p, role⟩ :: steps) c

/-- The expression that the last establishing step leaves. -/
def focusOf (steps : List Step) : Option ExprId :=
  (steps.find? (·.role.establishes)).map Step.above

/-- Whether a path enters something that is this to the expression above it. -/
def enters (role : Role) (steps : List Step) : Bool := steps.any (·.role = role)

theorem enters_eq_true {role : Role} {steps : List Step} :
    enters role steps = true ↔ ∃ s ∈ steps, s.role = role := by
  simp [enters]

/-! ## Hints -/

namespace Flags

/-- These hints and no others. -/
def only (predicate condition position : Bool) : Flags :=
  (bif predicate then inPredicate else 0#32) ||| (bif condition then inWhere else 0#32) |||
    (bif position then positional else 0#32)

theorem only_or_inPredicate :
    ∀ p w x, only p w x ||| inPredicate = only true w x := by decide

theorem only_or_inWhere : ∀ p w x, only p w x ||| inWhere = only p true x := by decide

theorem only_or_positional : ∀ p w x, only p w x ||| positional = only p w true := by decide

theorem only_and_not_positional :
    ∀ p w x, only p w x &&& ~~~positional = only p w false := by decide

theorem contains_inPredicate : ∀ p w x, (only p w x).contains inPredicate = p := by decide

theorem contains_inWhere : ∀ p w x, (only p w x).contains inWhere = w := by decide

theorem only_and_others :
    ∀ p w x, only p w x &&& ~~~(inPredicate ||| inWhere ||| positional) = 0#32 := by decide

end Flags

/-! ## What a context tells -/

/-- A context that tells what there is to tell at the end of a path. Only the hint that a predicate
is a position cannot be told from the path. -/
structure AnalysisContext.Tells (c : AnalysisContext) (steps : List Step) : Prop where
  focus_eq : c.focus = focusOf steps
  flags_eq : ∃ position,
    c.flags = Flags.only (enters .predicate steps) (enters .condition steps) position

namespace AnalysisContext

theorem flags_forPredicate (c : AnalysisContext) (filter : ExprId) (isPosition : Bool) :
    (c.forPredicate filter isPosition).flags =
      if isPosition then (c.flags ||| Flags.inPredicate) ||| Flags.positional
      else (c.flags ||| Flags.inPredicate) &&& ~~~Flags.positional := by
  cases isPosition <;> rfl

/-- At the root there is nothing to tell. -/
theorem tells_empty : ({} : AnalysisContext).Tells [] where
  focus_eq := rfl
  flags_eq := ⟨false, rfl⟩

/-- What one edge adds to what a context tells. -/
theorem Tells.down {c : AnalysisContext} {steps : List Step} (h : c.Tells steps) (above : ExprId)
    (isPosition : Bool) (role : Role) :
    (c.down above isPosition role).Tells (⟨above, role⟩ :: steps) := by
  rcases h with ⟨hfocus, position, hflags⟩
  cases role with
  -- an operand is handed the context as it is
  | operand => exact ⟨hfocus, position, hflags⟩
  | condition =>
    refine ⟨rfl, position, ?_⟩
    have hadded : (c.forWhere above).flags = c.flags ||| Flags.inWhere := rfl
    rw [AnalysisContext.down, hadded, hflags, Flags.only_or_inWhere]
    rfl
  | predicate =>
    refine ⟨focus_forPredicate c above isPosition, isPosition, ?_⟩
    rw [AnalysisContext.down, flags_forPredicate, hflags, Flags.only_or_inPredicate]
    -- a later predicate that is no position takes the hint back
    cases isPosition with
    | true => exact Flags.only_or_positional _ _ _
    | false => exact Flags.only_and_not_positional _ _ _

namespace Tells

variable {c : AnalysisContext} {steps : List Step}

theorem hasFlag_inPredicate (h : c.Tells steps) :
    c.hasFlag Flags.inPredicate = true ↔ ∃ s ∈ steps, s.role = .predicate := by
  rcases h.flags_eq with ⟨position, hflags⟩
  rw [hasFlag, hflags, Flags.contains_inPredicate, enters_eq_true]

theorem hasFlag_inWhere (h : c.Tells steps) :
    c.hasFlag Flags.inWhere = true ↔ ∃ s ∈ steps, s.role = .condition := by
  rcases h.flags_eq with ⟨position, hflags⟩
  rw [hasFlag, hflags, Flags.contains_inWhere, enters_eq_true]

theorem no_other_hint (h : c.Tells steps) :
    c.flags &&& ~~~(Flags.inPredicate ||| Flags.inWhere ||| Flags.positional) = 0#32 := by
  rcases h.flags_eq with ⟨position, hflags⟩
  rw [hflags, Flags.only_and_others]

end Tells
end AnalysisContext

/-! ## Records at the end of a path -/

section Paths

variable {e : Expr} {rewriting : Bool} {t : Tree} {steps : List Step} {id : ExprId}

/-- A path leads to an expression whose record tells what happened along the path. -/
theorem Tree.Path.tells (path : t.Path steps id) (h : e.Represents rewriting t) :
    id ∈ t.reachable ∧ ∃ c, t.record? id = some c ∧ c.Tells steps := by
  induction path with
  | root hr =>
    rcases h.root hr with ⟨hmem, -, hrecord⟩
    exact ⟨hmem, {}, hrecord, AnalysisContext.tells_empty⟩
  | @down steps p c role _ hc ih =>
    rcases ih with ⟨hp, ctx, hctx, tells⟩
    rcases h.below hp hc with ⟨hmem, -, isPosition, hrecord⟩
    rw [hctx] at hrecord
    exact ⟨hmem, _, hrecord, tells.down p isPosition role⟩

/-- A child is one thing to its parent. -/
theorem Expr.Represents.role_unique (h : e.Represents rewriting t) {p c : ExprId} {role role' : Role}
    (hp : p ∈ t.reachable) (hc : (role, c) ∈ t.edges p) (hc' : (role', c) ∈ t.edges p) :
    role = role' := by
  have hnodup : ((t.edges p).map Prod.snd).Nodup := by
    rw [t.map_snd_edges]
    exact (h.ordered_children hp).1.imp Nat.ne_of_lt
  exact congrArg Prod.fst (List.inj_on_of_nodup_map hnodup hc hc' rfl)

/-- There is only one path to an expression. -/
theorem Tree.Path.unique (path : t.Path steps id) (h : e.Represents rewriting t) :
    ∀ steps', t.Path steps' id → steps' = steps := by
  induction path with
  | root hr =>
    intro steps' path'
    cases path' with
    | root => rfl
    | down path'' hc =>
      -- the root is not linked to a parent
      have hlinked := (h.below (path''.tells h).1 hc).2.1
      rw [(h.root hr).2.1] at hlinked
      simp at hlinked
  | @down steps p c role path hc ih =>
    intro steps' path'
    have hp := (path.tells h).1
    have hlinked := (h.below hp hc).2.1
    -- both paths end in the parent, and a child plays one part below it
    cases path' with
    | root hr =>
      rw [(h.root hr).2.1] at hlinked
      simp at hlinked
    | @down steps'' p' _ role' path'' hc' =>
      have hlinked' := (h.below (path''.tells h).1 hc').2.1
      obtain rfl : p' = p := Option.some.inj (hlinked'.symm.trans hlinked)
      rw [ih steps'' path'', h.role_unique hp hc hc']

/-- To every expression that is reached there is a path. -/
theorem Expr.Represents.exists_path (h : e.Represents rewriting t) :
    ∀ id ∈ t.reachable, ∃ steps, t.Path steps id := by
  refine h.ind (fun r hr => ⟨[], .root hr⟩) fun p _ hpath role c hc => ?_
  rcases hpath with ⟨steps, path⟩
  exact ⟨_, path.down hc⟩

end Paths

/-! ## Compiled queries -/

/-- In a compiled query there is one path to every expression that is reached, and its record tells
what happened along that path. An operand, which is what inputs and bodies are too, is analysed in
the context of the expression above it, whatever stands beside it. -/
theorem records_along_paths {source : String} {static : StaticContext} {q : CompiledQuery}
    (h : compile source static = .ok q) :
    (∀ id ∈ q.tree.reachable, ∃! steps, q.tree.Path steps id) ∧
      (∀ steps id, q.tree.Path steps id → id ∈ q.tree.reachable ∧
        ∃ c, q.tree.record? id = some c ∧ c.focus = focusOf steps ∧
          (c.hasFlag Flags.inPredicate = true ↔ ∃ s ∈ steps, s.role = .predicate) ∧
          (c.hasFlag Flags.inWhere = true ↔ ∃ s ∈ steps, s.role = .condition) ∧
          c.flags &&& ~~~(Flags.inPredicate ||| Flags.inWhere ||| Flags.positional) = 0#32) ∧
      ∀ p ∈ q.tree.reachable, ∀ c, (Role.operand, c) ∈ q.tree.edges p →
        q.tree.record? c = (q.tree.record? p).map (·.forChild p) := by
  rcases compile_eq_ok h with ⟨e, t, -, -, -, hrep⟩
  refine ⟨fun id hid => ?_, fun steps id path => ?_, fun p hp c hc => ?_⟩
  · rcases hrep.exists_path id hid with ⟨steps, path⟩
    exact ⟨steps, path, path.unique hrep⟩
  · -- what a path tells is told by the record at its end
    rcases path.tells hrep with ⟨hid, c, hrecord, tells⟩
    exact ⟨hid, c, hrecord, tells.focus_eq, tells.hasFlag_inPredicate, tells.hasFlag_inWhere,
      tells.no_other_hint⟩
  · rcases hrep.below hp hc with ⟨-, -, isPosition, hrecord⟩
    exact hrecord

/-- Predicates in the input, the condition and the body of a `for`. -/
theorem records_along_paths_nested :
    ∃ q, compile "for $d in (1, 2)[1] where 3[. = 4] return ($d[.], 5)" {} = .ok q ∧
      (∀ id ∈ q.tree.reachable, ∃! steps, q.tree.Path steps id) ∧
      (∀ steps id, q.tree.Path steps id → id ∈ q.tree.reachable ∧
        ∃ c, q.tree.record? id = some c ∧ c.focus = focusOf steps ∧
          (c.hasFlag Flags.inPredicate = true ↔ ∃ s ∈ steps, s.role = .predicate) ∧
          (c.hasFlag Flags.inWhere = true ↔ ∃ s ∈ steps, s.role = .condition) ∧
          c.flags &&& ~~~(Flags.inPredicate ||| Flags.inWhere ||| Flags.positional) = 0#32) ∧
      ∀ p ∈ q.tree.reachable, ∀ c, (Role.operand, c) ∈ q.tree.edges p →
        q.tree.record? c = (q.tree.record? p).map (·.forChild p) := by
  obtain ⟨q, hq⟩ : ∃ q, compile "for $d in (1, 2)[1] where 3[. = 4] return ($d[.], 5)" {} = .ok q :=
    exists_of_compile_isOk (by decide +kernel)
  exact ⟨q, hq, records_along_paths hq⟩

end DocBase.Query
