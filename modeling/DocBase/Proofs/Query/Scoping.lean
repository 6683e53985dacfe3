import DocBase.Proofs.Query.Checking
/-!
# Which queries compile

Whether a query compiles is a matter of scope: which variables are bound where an expression stands,
and whether there is a context item. The scope of a part follows from that of the expression around
it. A query compiles exactly when every call, variable and context item in it is in place; otherwise
the error is that of one that is not. Main statements:

* `Expr.addTo_eq_error`, `Expr.check_eq_some` — what a failure says about the expression itself;
* `Expr.wellScoped_iff` — being in place everywhere is having no defect anywhere;
* `compile_isOk_iff` — a query compiles exactly when it is well-scoped.
-/

namespace DocBase.Query

/-! ## Scopes -/

/-- What an expression may refer to: the variables that `for` expressions around it bind, and
whether a context item is established. -/
structure Scope where
  bound : List String := []
  focused : Bool := false
deriving DecidableEq, Repr

namespace Scope

def binding (s : Scope) (x : QName) : Scope := { s with bound := x.text :: s.bound }

def focusing (s : Scope) : Scope := { s with focused := true }

end Scope

namespace Expr

/-- The parts of an expression, each with the scope it stands in. Predicates and conditions have a
context item; the variable of a `for` is bound in its condition and its body only. -/
def scopedParts (s : Scope) : Expr → List (Expr × Scope)
  | .literal _ | .var _ | .contextItem => []
  | .sequence items => items.map fun e => (e, s)
  | .filter input predicates => (input, s) :: predicates.map fun p => (p, s.focusing)
  | .forEach x input condition body =>
    (input, s) ::
      ((condition.toList.map fun c => (c, (s.binding x).focusing)) ++ [(body, s.binding x)])
  | .compare _ l r | .connect _ l r | .combine _ l r => [(l, s), (r, s)]
  | .call _ arguments => arguments.map fun a => (a, s)

theorem map_fst_scopedParts (s : Scope) (e : Expr) :
    (e.scopedParts s).map Prod.fst = e.parts := by
  cases e <;> simp [scopedParts, parts, Function.comp_def]

/-- An expression in the scope `s` holds, at some depth, another in the scope `s'`. -/
inductive Holds : Expr → Scope → Expr → Scope → Prop where
  | self (e : Expr) (s : Scope) : Holds e s e s
  | part {e p q : Expr} {s s' s'' : Scope} (mem : (p, s') ∈ e.scopedParts s)
      (holds : Holds p s' q s'') : Holds e s q s''

/-- A string literal; with rewriting also one inside any number of one-item sequences. -/
inductive IsUri (rewriting : Bool) : Expr → Prop where
  | literal (text : String) : IsUri rewriting (.literal (.string text))
  | parenthesised {e : Expr} (on : rewriting = true) (inner : IsUri rewriting e) :
      IsUri rewriting (.sequence [e])

/-- A query is well-scoped if whatever it holds is in place. -/
structure WellScoped (e : Expr) (static : StaticContext) : Prop where
  /-- Every call names a function and gives it a number of arguments that it takes. -/
  calls : ∀ name arguments s, e.Holds {} (.call name arguments) s →
    ∃ f, Builtin.resolve? name.qualifier name.name = some f ∧ f.accepts arguments.length = true
  /-- Every variable is bound by a `for` around it, or declared. -/
  references : ∀ x s, e.Holds {} (.var x) s → x.text ∈ s.bound ∨ static.declares x.text = true
  /-- The context item is used only where there is one. -/
  contextItems : ∀ s, e.Holds {} .contextItem s → s.focused = true
  /-- So is its place. -/
  places : ∀ name arguments s f, e.Holds {} (.call name arguments) s →
    Builtin.resolve? name.qualifier name.name = some f → f = .position ∨ f = .last →
      s.focused = true
  /-- Documents are named by literals. -/
  uris : ∀ name arguments s f, e.Holds {} (.call name arguments) s →
    Builtin.resolve? name.qualifier name.name = some f → f = .collection ∨ f = .doc →
      ∀ a ∈ arguments, IsUri static.rewriting a

/-- What is wrong with an expression itself, in the scope it stands in. -/
inductive Defect (static : StaticContext) : Expr → Scope → QueryError → Prop where
  | unknown {name : QName} {arguments : List Expr} {s : Scope}
      (none : Builtin.resolve? name.qualifier name.name = none) :
      Defect static (.call name arguments) s (.unknownFunction name arguments.length)
  | arity {name : QName} {arguments : List Expr} {s : Scope} {f : Builtin}
      (resolved : Builtin.resolve? name.qualifier name.name = some f)
      (refused : f.accepts arguments.length = false) :
      Defect static (.call name arguments) s (.wrongArity f arguments.length)
  | undeclared {x : QName} {s : Scope} (unbound : x.text ∉ s.bound)
      (undeclared : static.declares x.text = false) :
      Defect static (.var x) s (.undeclared x.text)
  | contextItem {s : Scope} (unfocused : s.focused = false) :
      Defect static .contextItem s (.noFocus none)
  | place {name : QName} {arguments : List Expr} {s : Scope} {f : Builtin}
      (resolved : Builtin.resolve? name.qualifier name.name = some f)
      (reads : f = .position ∨ f = .last) (unfocused : s.focused = false) :
      Defect static (.call name arguments) s (.noFocus (some f))
  | uri {name : QName} {arguments : List Expr} {s : Scope} {f : Builtin} {a : Expr}
      (resolved : Builtin.resolve? name.qualifier name.name = some f)
      (reads : f = .collection ∨ f = .doc) (mem : a ∈ arguments)
      (computed : ¬ IsUri static.rewriting a) :
      Defect static (.call name arguments) s (.resourceNotLiteral f)

/-- Something that the expression holds has a defect. -/
def Defective (e : Expr) (static : StaticContext) (s : Scope) (err : QueryError) : Prop :=
  ∃ p s', e.Holds s p s' ∧ Defect static p s' err

theorem Defect.isStatic {static : StaticContext} {e : Expr} {s : Scope} {err : QueryError}
    (h : Defect static e s err) :
    err.isStatic = true ∧ err.code ∈ [.xpst0017, .xpst0008, .xpdy0002, .xqdb0001] := by
  cases h <;> simp [QueryError.isStatic, QueryError.code]

theorem Defective.here {static : StaticContext} {e : Expr} {s : Scope} {err : QueryError}
    (h : Defect static e s err) : e.Defective static s err :=
  ⟨e, s, .self e s, h⟩

/-- A defect of a part is one of the whole. -/
theorem Defective.of_part {static : StaticContext} {e p : Expr} {s s' : Scope} {err : QueryError}
    (mem : (p, s') ∈ e.scopedParts s) (h : p.Defective static s' err) :
    e.Defective static s err := by
  rcases h with ⟨q, s'', holds, defect⟩
  exact ⟨q, s'', .part mem holds, defect⟩

/-- Every part stands in some scope. -/
theorem exists_mem_scopedParts {e p : Expr} (s : Scope) (hp : p ∈ e.parts) :
    ∃ s', (p, s') ∈ e.scopedParts s := by
  rw [← map_fst_scopedParts s e] at hp
  simpa using hp

theorem mem_parts_of_mem {e p : Expr} {s s' : Scope} (h : (p, s') ∈ e.scopedParts s) :
    p ∈ e.parts := by
  rw [← map_fst_scopedParts s e]
  exact List.mem_map_of_mem h

/-- Once the parentheses are off, an argument that names documents is a string literal. -/
theorem isUri_iff {rewriting : Bool} (e : Expr) :
    IsUri rewriting e ↔ (e.unwrap rewriting).isText = true := by
  constructor
  · intro h
    induction h with
    | literal text => simp [unwrap, isText]
    | parenthesised on _ ih => simpa [unwrap, on] using ih
  · -- parentheses count for nothing where they are left out, and only one item stands in them
    induction e using Expr.ind_unwrap rewriting with
    | stays e hstay ih =>
      intro h
      rw [hstay] at h
      unfold isText at h
      split at h
      · exact .literal _
      · simp at h
    | inlined item on ih =>
      intro h
      subst on
      rw [unwrap_singleton] at h
      exact .parenthesised (by trivial) (ih h)

/-- Being in place everywhere is having no defect anywhere. -/
theorem wellScoped_iff {e : Expr} {static : StaticContext} :
    e.WellScoped static ↔ ∀ err, ¬ e.Defective static {} err := by
  constructor
  · rintro h err ⟨p, s, holds, defect⟩
    -- each defect is what one of the five rules forbids
    cases defect with
    | unknown none =>
      rcases h.calls _ _ _ holds with ⟨f, resolved, -⟩
      rw [none] at resolved
      simp at resolved
    | arity resolved refused =>
      rcases h.calls _ _ _ holds with ⟨g, hg, accepts⟩
      rw [resolved, Option.some.injEq] at hg
      rw [hg, accepts] at refused
      simp at refused
    | undeclared unbound undeclared =>
      have declared := (h.references _ _ holds).resolve_left unbound
      rw [declared] at undeclared
      simp at undeclared
    | contextItem unfocused =>
      have focused := h.contextItems _ holds
      rw [focused] at unfocused
      simp at unfocused
    | place resolved reads unfocused =>
      have focused := h.places _ _ _ _ holds resolved reads
      rw [focused] at unfocused
      simp at unfocused
    | uri resolved reads mem computed =>
      exact computed (h.uris _ _ _ _ holds resolved reads _ mem)
  · intro flawless
    -- each rule is broken in one way, which would be a defect
    have clean : ∀ {p s err}, e.Holds {} p s → ¬ Defect static p s err :=
      fun holds defect => flawless _ ⟨_, _, holds, defect⟩
    constructor
    · intro name arguments s holds
      cases resolved : Builtin.resolve? name.qualifier name.name with
      | none => exact absurd (.unknown resolved) (clean holds)
      | some f =>
        refine ⟨f, rfl, ?_⟩
        by_contra refused
        exact clean holds (.arity resolved (by simpa using refused))
    · intro x s holds
      by_contra! h
      exact clean holds (.undeclared h.1 (by simpa using h.2))
    · intro s holds
      by_contra unfocused
      exact clean holds (.contextItem (by simpa using unfocused))
    · intro name arguments s f holds resolved reads
      by_contra unfocused
      exact clean holds (.place resolved reads (by simpa using unfocused))
    · intro name arguments s f holds resolved reads a mem
      by_contra computed
      exact clean holds (.uri resolved reads mem computed)

end Expr

/-! ## Defects that keep an expression out of a tree -/

/-- A step that adds expressions fails where one of its parts does. -/
theorem Adding.bind_eq_error {α β : Type} {x : Adding α} {f : α → Adding β} {t : Tree}
    {err : QueryError} (h : (x >>= f) t = .error err) :
    x t = .error err ∨ ∃ a t₁, x t = .ok (a, t₁) ∧ f a t₁ = .error err := by
  simp only [bind, StateT.bind, Except.bind] at h
  cases hx : x t with
  | error e => exact .inl (by simpa [hx] using h)
  | ok r => exact .inr ⟨r.1, r.2, rfl, by simpa [hx] using h⟩

/-- Only a full tree refuses an expression. -/
theorem Adding.push_eq_error {kind : Kind} {t : Tree} {err : QueryError}
    (h : Adding.push kind t = .error err) : UInt32.size ≤ t.size := by
  unfold Adding.push at h
  split at h
  · simp at h
  · next hfull => simpa [Nat.one_shiftLeft] using hfull

theorem Adding.pure_ne_error {α : Type} (a : α) (t : Tree) (err : QueryError) :
    (pure a : Adding α) t ≠ .error err := by
  have hok : (pure a : Adding α) t = .ok (a, t) := rfl
  simp [hok]

/-- Of several expressions one fails, and there is room for it if there is room for all. -/
theorem exists_of_addEach_eq_error {es : List Expr} {t : Tree} {err : QueryError}
    (h : addEach es t = .error err) :
    ∃ e ∈ es, ∃ t₁, e.addTo t₁ = .error err ∧ t₁.size + e.size ≤ t.size + sizeEach es := by
  induction es generalizing t with
  | nil =>
    simp only [addEach] at h
    exact absurd h (Adding.pure_ne_error _ _ _)
  | cons e es ih =>
    simp only [addEach] at h
    rcases Adding.bind_eq_error h with head | ⟨id, t₁, head, h⟩
    · -- the first to fail, with all that came before it added
      refine ⟨e, by simp, t, head, ?_⟩
      simp only [sizeEach]
      omega
    · have hsize := (e.lowered_of_addTo _ _ _ head).grew.size_eq
      rcases Adding.bind_eq_error h with tail | ⟨ids, t₂, -, h⟩
      · rcases ih tail with ⟨e', mem, t₂, failed, room⟩
        refine ⟨e', List.mem_cons_of_mem _ mem, t₂, failed, ?_⟩
        simp only [sizeEach]
        omega
      · exact absurd h (Adding.pure_ne_error _ _ _)

theorem Adding.defect_of_resolve {name : QName} {arguments : List Expr} {t : Tree}
    {err : QueryError} (h : Adding.resolve name arguments.length t = .error err)
    (static : StaticContext) (s : Scope) : Expr.Defect static (.call name arguments) s err := by
  unfold Adding.resolve at h
  cases resolved : Builtin.resolve? name.qualifier name.name with
  | none =>
    simp only [resolved, fail, Except.error.injEq] at h
    subst h
    exact .unknown resolved
  | some f =>
    cases accepts : f.accepts arguments.length with
    | false =>
      simp only [resolved, accepts, fail, Bool.false_eq_true, if_false, Except.error.injEq] at h
      subst h
      exact .arity resolved accepts
    | true =>
      simp only [resolved, accepts, if_true] at h
      exact absurd h (Adding.pure_ne_error _ _ _)

namespace Expr

/-- Once its parts are in the tree, an expression is refused only if the tree is full. -/
theorem full_of_push {e : Expr} {t t₁ : Tree} {ids : List ExprId} {kind : Kind} {err : QueryError}
    (added : LoweredEach e.parts t ids t₁) (h : Adding.push kind t₁ = .error err) :
    UInt32.size < t.size + e.size := by
  have hfull := Adding.push_eq_error h
  rw [added.grew.size_eq] at hfull
  rw [e.size_eq]
  omega

/-- Whatever the construct, calls apart: its parts are added one after another, and then it is
pushed over them. -/
theorem exists_addTo_eq (e : Expr) : (∃ name arguments, e = .call name arguments) ∨
    ∃ kind : List ExprId → Kind,
      e.addTo = addEach e.parts >>= fun ids => Adding.push (kind ids) := by
  -- the parts are added in order, and then the expression over their numbers
  cases e with
  | literal v =>
    refine .inr ⟨fun _ => .literal v.value, ?_⟩
    simp [addTo, parts, addEach]
  | var x =>
    refine .inr ⟨fun _ => .var x.text, ?_⟩
    simp [addTo, parts, addEach]
  | contextItem =>
    refine .inr ⟨fun _ => .contextItem, ?_⟩
    simp [addTo, parts, addEach]
  | sequence items =>
    refine .inr ⟨.sequence, ?_⟩
    simp [addTo, parts]
  | filter input predicates =>
    refine .inr ⟨fun ids => .filter ids.head! ids.tail, ?_⟩
    simp [addTo, parts, addEach]
  | forEach x input condition body =>
    cases condition with
    | none =>
      refine .inr ⟨fun ids => .forEach x.text ids[0]! none ids[1]!, ?_⟩
      simp [addTo, parts, addEach, addOption]
    | some c =>
      refine .inr ⟨fun ids => .forEach x.text ids[0]! (some ids[1]!) ids[2]!, ?_⟩
      simp [addTo, parts, addEach, addOption]
  | compare op l r =>
    refine .inr ⟨fun ids => .compare op ids[0]! ids[1]!, ?_⟩
    simp [addTo, parts, addEach]
  | connect op l r =>
    refine .inr ⟨fun ids => .connect op ids[0]! ids[1]!, ?_⟩
    simp [addTo, parts, addEach]
  | combine op l r =>
    refine .inr ⟨fun ids => .combine op ids[0]! ids[1]!, ?_⟩
    simp [addTo, parts, addEach]
  | call name arguments => exact .inl ⟨name, arguments, rfl⟩

/-- An expression is not added because it is a call that is not resolved, because one of its parts
is not added, or because the tree is full. -/
theorem addTo_eq_error {e : Expr} {t : Tree} {err : QueryError} (h : e.addTo t = .error err) :
    (∃ name arguments, e = .call name arguments ∧
      Adding.resolve name arguments.length t = .error err) ∨
    addEach e.parts t = .error err ∨ UInt32.size < t.size + e.size := by
  have lowered {es : List Expr} {t t₁ : Tree} {ids : List ExprId}
      (h : addEach es t = .ok (ids, t₁)) : LoweredEach es t ids t₁ :=
    loweredEach_of_addEach (fun e _ => e.lowered_of_addTo) h
  -- a call fails by its name, in its arguments or for want of room; the others cannot fail by name
  rcases e.exists_addTo_eq with ⟨name, arguments, rfl⟩ | ⟨kind, heq⟩
  · rw [addTo] at h
    rcases Adding.bind_eq_error h with unresolved | ⟨f, t₀, resolved, rest⟩
    · exact .inl ⟨name, arguments, rfl, unresolved⟩
    · rcases Adding.resolve_eq_ok resolved with ⟨-, -, rfl⟩
      rcases Adding.bind_eq_error rest with failed | ⟨ids, t₁, added, full⟩
      · exact .inr (.inl failed)
      · exact .inr (.inr (full_of_push (lowered added) full))
  · rw [heq] at h
    rcases Adding.bind_eq_error h with failed | ⟨ids, t₁, added, full⟩
    · exact .inr (.inl failed)
    · exact .inr (.inr (full_of_push (lowered added) full))

/-- If there is room for an expression and it is not added, something that it holds has a defect. -/
theorem defective_of_addTo (static : StaticContext) {err : QueryError} (e : Expr) :
    ∀ s t, t.size + e.size ≤ UInt32.size → e.addTo t = .error err → e.Defective static s err := by
  induction e using Expr.ind_parts with
  | h e ih =>
    intro s t room h
    rcases addTo_eq_error h with ⟨name, arguments, rfl, unresolved⟩ | failed | full
    · exact .here (Adding.defect_of_resolve unresolved static s)
    · -- the part that is not added has room, because the whole has
      rcases exists_of_addEach_eq_error failed with ⟨p, hp, t₁, failed, roomier⟩
      rcases exists_mem_scopedParts s hp with ⟨s', mem⟩
      have hsize := e.size_eq
      exact .of_part mem (ih p hp s' t₁ (by omega) failed)
    · omega

theorem defective_of_tree {static : StaticContext} {err : QueryError} (e : Expr)
    (hsize : e.size ≤ UInt32.size) (h : e.tree = .error err) : e.Defective static {} err := by
  have hempty : ({} : Tree).size = 0 := by simp [Tree.size]
  unfold tree at h
  split at h
  · simp at h
  · next failed =>
    obtain rfl := Except.error.inj h
    refine e.defective_of_addTo static {} {} ?_ failed
    rw [hempty, Nat.zero_add]
    exact hsize

/-! ## Defects that analysis finds -/

theorem findSome?_cons_eq_or {α β : Type} (f : α → Option β) (a : α) (as : List α) :
    (a :: as).findSome? f = (f a).or (as.findSome? f) := by
  rw [List.findSome?_cons]
  cases f a <;> rfl

theorem checkEach_eq_findSome? (static : StaticContext) (scope : List String) (focused : Bool)
    (es : List Expr) :
    checkEach static scope focused es = es.findSome? fun e => e.check static scope focused := by
  induction es with
  | nil => rfl
  | cons e es ih => rw [checkEach, ih, findSome?_cons_eq_or]

/-- What an expression asks for before its parts are looked at. -/
def before (static : StaticContext) (s : Scope) : Expr → Option QueryError
  | .var x => demand (s.bound.contains x.text || static.declares x.text) (.undeclared x.text)
  | .contextItem => demand s.focused (.noFocus none)
  | .call name _ => (Builtin.resolve? name.qualifier name.name).bind fun f =>
    demand (!f.needsFocus || s.focused) (.noFocus (some f))
  | _ => none

/-- What it asks for once they are. -/
def after (static : StaticContext) : Expr → Option QueryError
  | .call name arguments => (Builtin.resolve? name.qualifier name.name).bind fun f =>
    demand (!f.readsStore || arguments.all fun a => (a.unwrap static.rewriting).isText)
      (.resourceNotLiteral f)
  | _ => none

/-- An expression is looked at between what it asks for before and after: its parts in turn, each in
the scope it stands in. -/
theorem check_eq (static : StaticContext) (s : Scope) (e : Expr) :
    e.check static s.bound s.focused = ((e.before static s).or
      ((e.scopedParts s).findSome? fun p => p.1.check static p.2.bound p.2.focused)).or
        (e.after static) := by
  -- what is asked before the parts, of them, and after them
  cases e with
  | literal | var | contextItem => simp [check, before, after, scopedParts]
  | sequence items =>
    simp [check, before, after, scopedParts, checkEach_eq_findSome?, List.findSome?_map,
      Function.comp_def]
  | filter input predicates =>
    simp [check, before, after, scopedParts, checkEach_eq_findSome?, findSome?_cons_eq_or,
      List.findSome?_map, Function.comp_def, Scope.focusing]
  | forEach x input condition body =>
    cases condition <;>
      simp [check, before, after, scopedParts, findSome?_cons_eq_or, Scope.binding, Scope.focusing]
  | compare op l r | connect op l r | combine op l r =>
    simp [check, before, after, scopedParts, findSome?_cons_eq_or]
  | call name arguments =>
    cases resolved : Builtin.resolve? name.qualifier name.name <;>
      simp [check, before, after, scopedParts, resolved, checkEach_eq_findSome?,
        List.findSome?_map, Function.comp_def]

theorem demand_eq_some {ok : Bool} {e err : QueryError} :
    demand ok e = some err ↔ ok = false ∧ e = err := by
  cases ok <;> simp [demand]

/-- What is not there that an expression asks for is a defect of its own. -/
theorem defect_of_before {static : StaticContext} {s : Scope} {e : Expr} {err : QueryError}
    (h : e.before static s = some err) : Defect static e s err := by
  cases e with
  | var x =>
    rw [before, demand_eq_some] at h
    rcases h with ⟨h, rfl⟩
    simp only [Bool.or_eq_false_iff, List.contains_eq_mem, decide_eq_false_iff_not] at h
    exact .undeclared h.1 h.2
  | contextItem =>
    rw [before, demand_eq_some] at h
    rcases h with ⟨h, rfl⟩
    exact .contextItem h
  | call name arguments =>
    rw [before, Option.bind_eq_some_iff] at h
    rcases h with ⟨f, resolved, h⟩
    rw [demand_eq_some] at h
    rcases h with ⟨h, rfl⟩
    have h : f.needsFocus = true ∧ s.focused = false := by simpa using h
    exact .place resolved (by simpa [Builtin.needsFocus] using h.1) h.2
  -- nothing is asked of any other expression before its parts
  | _ => simp [before] at h

theorem defect_of_after {static : StaticContext} (s : Scope) {e : Expr} {err : QueryError}
    (h : e.after static = some err) : Defect static e s err := by
  cases e with
  | call name arguments =>
    rw [after, Option.bind_eq_some_iff] at h
    rcases h with ⟨f, resolved, h⟩
    rw [demand_eq_some] at h
    rcases h with ⟨h, rfl⟩
    simp only [Bool.or_eq_false_iff, Bool.not_eq_false', List.all_eq_false] at h
    rcases h with ⟨reads, a, mem, computed⟩
    rw [← isUri_iff] at computed
    exact .uri resolved (by simpa [Builtin.readsStore] using reads) mem computed
  | _ => simp [after] at h

/-- What is wrong with an expression is a defect of its own or what is wrong with one of its parts,
in the scope of the part. -/
theorem check_eq_some {static : StaticContext} {s : Scope} {e : Expr} {err : QueryError}
    (h : e.check static s.bound s.focused = some err) :
    Defect static e s err ∨
      ∃ p s', (p, s') ∈ e.scopedParts s ∧ p.check static s'.bound s'.focused = some err := by
  rw [check_eq, Option.or_eq_some_iff, Option.or_eq_some_iff] at h
  rcases h with (asked | ⟨-, inside⟩) | ⟨-, asked⟩
  · exact .inl (defect_of_before asked)
  · rcases List.exists_of_findSome?_eq_some inside with ⟨⟨p, s'⟩, mem, h⟩
    exact .inr ⟨p, s', mem, h⟩
  · exact .inl (defect_of_after s asked)

/-- What analysis finds wrong is a defect of something that the expression holds. -/
theorem defective_of_check {static : StaticContext} {err : QueryError} (e : Expr) :
    ∀ s : Scope, e.check static s.bound s.focused = some err → e.Defective static s err := by
  induction e using Expr.ind_parts with
  | h e ih =>
    intro s h
    rcases check_eq_some h with defect | ⟨p, s', mem, h⟩
    · exact .here defect
    · exact .of_part mem (ih p (mem_parts_of_mem mem) s' h)

/-! ## Expressions without defects -/

/-- Where nothing is wrong with an expression, nothing is wrong with its parts in their scopes. -/
theorem check_scopedParts {static : StaticContext} {s : Scope} {e : Expr}
    (h : e.check static s.bound s.focused = none) :
    ∀ p s', (p, s') ∈ e.scopedParts s → p.check static s'.bound s'.focused = none := by
  intro p s' mem
  rw [check_eq, Option.or_eq_none_iff, Option.or_eq_none_iff, List.findSome?_eq_none_iff] at h
  exact h.1.2 (p, s') mem

/-- An expression that was put into a tree and in which analysis finds nothing has no defect of its
own. -/
theorem not_defect_of_check {static : StaticContext} {s : Scope} {e : Expr} {err : QueryError}
    (hres : e.Resolved) (h : e.check static s.bound s.focused = none) :
    ¬ Defect static e s err := by
  intro defect
  -- all that makes a defect was asked, and nothing was found
  cases defect with
  | unknown none =>
    rw [Resolved, none] at hres
    simp at hres
  | arity resolved refused =>
    rw [Resolved, resolved] at hres
    simp [refused] at hres
  | undeclared unbound undeclared => simp [check, unbound, undeclared] at h
  | contextItem unfocused => simp [check, unfocused] at h
  | place resolved reads unfocused =>
    rcases reads with rfl | rfl <;> simp [check, resolved, Builtin.needsFocus, unfocused] at h
  | @uri name arguments s f a resolved reads mem computed =>
    simp only [check, resolved, Option.or_eq_none_iff, demand_eq_none, Bool.or_eq_true,
      Bool.not_eq_true', List.all_eq_true] at h
    have hreads : f.readsStore = true := by simpa [Builtin.readsStore] using reads
    have literal := h.2.resolve_left (by simp [hreads])
    exact computed ((isUri_iff a).2 (literal a mem))

theorem Holds.resolved_check {s s' : Scope} {e p : Expr} (holds : e.Holds s p s')
    (static : StaticContext) (hres : e.Resolved) (h : e.check static s.bound s.focused = none) :
    p.Resolved ∧ p.check static s'.bound s'.focused = none := by
  induction holds with
  | self => exact ⟨hres, h⟩
  | @part e p q s s' s'' mem _ ih =>
    have hp := mem_parts_of_mem mem
    exact ih (resolved_of_mem_parts hres hp) (check_scopedParts h p s' mem)

theorem wellScoped_of_check {static : StaticContext} {e : Expr} (hres : e.Resolved)
    (h : e.check static [] false = none) : e.WellScoped static := by
  rw [wellScoped_iff]
  rintro err ⟨p, s, holds, defect⟩
  rcases holds.resolved_check static hres h with ⟨hres, h⟩
  exact not_defect_of_check hres h defect

end Expr

/-! ## Compiling -/

/-- What was read either compiles or fails with a defect of something in it. -/
theorem compile_or_defective {source : String} (static : StaticContext) {e : Expr}
    (hparse : parse source = .ok e) (hsize : e.size ≤ UInt32.size) :
    ((∃ q, compile source static = .ok q) ∧ e.WellScoped static) ∨
      ∃ err, compile source static = .error err ∧ e.Defective static {} err := by
  -- adding the tree finds unknown names and wrong numbers of arguments, the analysis all else
  cases htree : e.tree with
  | error err =>
    have defective : e.Defective static {} err := e.defective_of_tree hsize htree
    have failed : compile source static = .error err := by
      unfold compile
      rw [hparse]
      simp only [htree]
    exact .inr ⟨err, failed, defective⟩
  | ok t =>
    cases hcheck : e.check static [] false with
    | none =>
      have hres := Expr.resolved_of_tree htree
      exact .inl ⟨compile_of_check hparse htree hcheck, Expr.wellScoped_of_check hres hcheck⟩
    | some err =>
      -- analysis of the tree ends with the error that checking the expression finds
      refine .inr ⟨err, ?_, e.defective_of_check {} hcheck⟩
      have herror := (e.meets_analyze htree static).error_eq
      rw [hcheck] at herror
      unfold compile
      rw [hparse]
      simp only [htree]
      split
      · next hanalyze => simp [hanalyze] at herror
      · next hanalyze =>
        rw [hanalyze, Option.some.injEq] at herror
        rw [herror]

/-- A query that was read, of no more expressions than a tree holds, compiles exactly when it is
well-scoped. Otherwise it fails before it is run, with the error of something in it that is not in
place. -/
theorem compile_isOk_iff {source : String} {static : StaticContext} {e : Expr}
    (hparse : parse source = .ok e) (hsize : e.size ≤ UInt32.size) :
    ((∃ q, compile source static = .ok q) ↔ e.WellScoped static) ∧
      (¬ e.WellScoped static → ∃ err p s, compile source static = .error err ∧
        err.isStatic = true ∧ err.code ∈ [.xpst0017, .xpst0008, .xpdy0002, .xqdb0001] ∧
        e.Holds {} p s ∧ Expr.Defect static p s err) := by
  have compiled := compile_or_defective static hparse hsize
  rcases compiled with ⟨ok, placed⟩ | ⟨err, herr, defective⟩
  · exact ⟨iff_of_true ok placed, fun h => absurd placed h⟩
  · have misplaced : ¬ e.WellScoped static := fun h => Expr.wellScoped_iff.1 h err defective
    constructor
    · refine iff_of_false ?_ misplaced
      rintro ⟨q, hq⟩
      rw [herr] at hq
      simp at hq
    · intro _
      rcases defective with ⟨p, s, holds, defect⟩
      exact ⟨err, p, s, herr, defect.isStatic.1, defect.isStatic.2, holds, defect⟩

/-- A variable that is bound where it is compared but not where the loop starts, and a document
named in parentheses: whether the query compiles depends on both parts of the static context. -/
theorem compile_isOk_iff_shadowed :
    ∃ e, parse "for $x in $x where . = $x return collection(('/db'))[last()]" = .ok e ∧
      e.size ≤ UInt32.size ∧ ∀ static : StaticContext,
      ((∃ q, compile "for $x in $x where . = $x return collection(('/db'))[last()]" static =
          .ok q) ↔ e.WellScoped static) ∧
        (¬ e.WellScoped static → ∃ err p s,
          compile "for $x in $x where . = $x return collection(('/db'))[last()]" static =
            .error err ∧
          err.isStatic = true ∧ err.code ∈ [.xpst0017, .xpst0008, .xpdy0002, .xqdb0001] ∧
          e.Holds {} p s ∧ Expr.Defect static p s err) := by
  have hsmall : (match parse "for $x in $x where . = $x return collection(('/db'))[last()]" with
      | .ok e => decide (e.size ≤ UInt32.size)
      | .error _ => false) = true := by decide +kernel
  split at hsmall
  · next e hparse =>
    have hsize : e.size ≤ UInt32.size := of_decide_eq_true hsmall
    exact ⟨e, hparse, hsize, fun static => compile_isOk_iff hparse hsize⟩
  · simp at hsmall

end DocBase.Query
