import DocBase.Proofs.Query.Scoping
import DocBase.Query.Resources
/-!
# The documents of a compiled query

Which calls of a query read the store, and with what texts, can be told from the expression as it
was read; so the documents a compiled query finds do not depend on how its tree is laid out. Main
statements:

* `resourcesFor_append` — documents are found call by call, up to the first error;
* `resources_of_compiled` — a compiled query finds the documents of the calls that were read.
-/

namespace DocBase.Query

/-! ## Calls that read the store -/

/-- A call that reads the store: its number, its function and the texts it is called with. -/
structure StoreCall where
  call : Nat
  function : Builtin
  texts : List String
deriving DecidableEq, Repr

namespace Expr

/-- The text of a string literal. -/
def text? : Expr → Option String
  | .literal (.string s) => some s
  | _ => none

/-- The expression itself, if it is a call that reads the store. -/
def ownStoreCall (first : Nat) : Expr → List StoreCall
  | .call name arguments =>
    match Builtin.resolve? name.qualifier name.name with
    | some f =>
      if f.readsStore then
        [⟨first + sizeEach arguments, f, arguments.filterMap fun a => (a.unwrap true).text?⟩]
      else []
    | none => []
  | _ => []

end Expr

mutual

/-- The calls in an expression that read the store, each before those among its arguments. -/
def Expr.storeCalls (first : Nat) : Expr → List StoreCall
  | .literal _ | .var _ | .contextItem => []
  | .sequence items => storeCallsEach first items
  | .filter input predicates =>
    input.storeCalls first ++ storeCallsEach (first + input.size) predicates
  | .forEach _ input none body => input.storeCalls first ++ body.storeCalls (first + input.size)
  | .forEach _ input (some c) body =>
    input.storeCalls first ++
      (c.storeCalls (first + input.size) ++ body.storeCalls (first + input.size + c.size))
  | .compare _ l r | .connect _ l r | .combine _ l r =>
    l.storeCalls first ++ r.storeCalls (first + l.size)
  | .call name arguments =>
    (Expr.call name arguments).ownStoreCall first ++ storeCallsEach first arguments

def storeCallsEach (first : Nat) : List Expr → List StoreCall
  | [] => []
  | e :: es => e.storeCalls first ++ storeCallsEach (first + e.size) es

end

theorem Expr.storeCalls_eq (first : Nat) (e : Expr) :
    e.storeCalls first = e.ownStoreCall first ++ storeCallsEach first e.parts := by
  cases e with
  | forEach x input condition body =>
    cases condition <;> simp [storeCalls, ownStoreCall, parts, storeCallsEach]
  | _ => simp [storeCalls, ownStoreCall, parts, storeCallsEach]

/-- The documents of some calls. -/
def resourcesFor (v : View) (static : StaticContext) : List StoreCall → Except QueryError Resources
  | [] => .ok []
  | c :: cs => do
    let documents ← v.addressed static c.function c.texts
    let others ← resourcesFor v static cs
    return (c.call, documents) :: others

/-- Which documents a call addresses does not depend on rewriting. -/
theorem resourcesFor_rewriting (v : View) (static : StaticContext) (cs : List StoreCall) :
    resourcesFor v { static with rewriting := true } cs =
      resourcesFor v { static with rewriting := false } cs := by
  have haddressed : v.addressed { static with rewriting := true } =
      v.addressed { static with rewriting := false } := by
    funext f texts
    cases f <;> rfl
  induction cs with
  | nil => rfl
  | cons c cs ih => simp only [resourcesFor, haddressed, ih]

/-- Documents are found call by call. -/
theorem resourcesFor_append (v : View) (static : StaticContext) (cs cs' : List StoreCall) :
    resourcesFor v static (cs ++ cs') = (do
      let found ← resourcesFor v static cs
      let others ← resourcesFor v static cs'
      return found ++ others) := by
  induction cs with
  | nil =>
    simp only [List.nil_append, resourcesFor]
    cases resourcesFor v static cs' <;> rfl
  | cons c cs ih =>
    simp only [List.cons_append, resourcesFor, ih, bind_assoc, pure_bind]

theorem resourcesAmong_cons (v : View) (q : CompiledQuery) (id : ExprId) (ids : List ExprId) :
    resourcesAmong v q (id :: ids) = (do
      let found ← resourcesAmong v q [id]
      let others ← resourcesAmong v q ids
      return found ++ others) := by
  have skip : resourcesAmong v q ids = (do
      let found ← Except.ok []
      let others ← resourcesAmong v q ids
      return found ++ others) := by
    cases resourcesAmong v q ids <;> rfl
  simp only [resourcesAmong]
  -- a call is resolved for itself, and one that is not answered with a set adds nothing
  split
  · split
    · split
      · rfl
      · cases resourcesAmong v q ids <;> rfl
    · exact skip
  · exact skip

/-! ## Calls found in an arena -/

/-- Among these expressions of a query the documents of these calls are found. -/
def Finds (v : View) (q : CompiledQuery) (ids : List ExprId) (calls : List StoreCall) : Prop :=
  resourcesAmong v q ids = resourcesFor v q.static calls

namespace Finds

variable {v : View} {q : CompiledQuery}

theorem nil : Finds v q [] [] := rfl

theorem cons {id : ExprId} {ids : List ExprId} {calls calls' : List StoreCall}
    (h : Finds v q [id] calls) (h' : Finds v q ids calls') :
    Finds v q (id :: ids) (calls ++ calls') := by
  rw [Finds, resourcesAmong_cons, resourcesFor_append, h, h']

theorem append {ids ids' : List ExprId} {calls calls' : List StoreCall}
    (h : Finds v q ids calls) (h' : Finds v q ids' calls') :
    Finds v q (ids ++ ids') (calls ++ calls') := by
  rw [Finds, resourcesFor_append, ← h, ← h']
  clear h h'
  induction ids with
  | nil =>
    simp only [List.nil_append, resourcesAmong]
    cases resourcesAmong v q ids' <;> rfl
  | cons id ids ih =>
    rw [List.cons_append, resourcesAmong_cons, ih, resourcesAmong_cons v q id ids]
    simp only [bind_assoc, pure_bind, List.append_assoc]

end Finds

/-- The expressions, numbered one after another from `first` on, are all held in the arena. -/
def Tree.HoldsEach (t : Tree) (rewriting : Bool) : Nat → List Expr → Prop
  | _, [] => True
  | first, e :: es =>
    (∃ parent record, t.Holds (e.entries rewriting first parent record)) ∧
      t.HoldsEach rewriting (first + e.size) es

namespace Tree.HoldsEach

variable {t : Tree} {rewriting : Bool}

theorem of_entriesEach {first : Nat} {parent : Option ExprId}
    {record : Expr → Option AnalysisContext} {es : List Expr}
    (h : t.Holds (entriesEach rewriting first parent record es)) :
    t.HoldsEach rewriting first es := by
  induction es generalizing first with
  | nil => trivial
  | cons e es ih =>
    rw [entriesEach, holds_append] at h
    exact ⟨⟨_, _, h.1⟩, ih h.2⟩

/-- With an expression that stays, its parts are held. -/
theorem parts {e : Expr} {first : Nat} {parent : Option ExprId} {record : Option AnalysisContext}
    (hstay : e.unwrap rewriting = e) (h : t.Holds (e.entries rewriting first parent record)) :
    t.HoldsEach rewriting first e.parts := by
  -- where the expression stays, its parts stand behind one another from its first number on
  cases e with
  | literal | var | contextItem => trivial
  | sequence items =>
    have hr := Expr.not_singleton_of_unwrap hstay
    simp only [Expr.entries, hr, Bool.false_eq_true, if_false, holds_cons] at h
    exact of_entriesEach h.2
  | filter input predicates =>
    simp only [Expr.entries, holds_cons, holds_append] at h
    exact ⟨⟨_, _, h.2.1⟩, of_entriesEach h.2.2⟩
  | forEach x input condition body =>
    cases condition with
    | none =>
      simp only [Expr.entries, holds_cons, holds_append] at h
      exact ⟨⟨_, _, h.2.1⟩, ⟨_, _, h.2.2⟩, trivial⟩
    | some c =>
      simp only [Expr.entries, holds_cons, holds_append] at h
      exact ⟨⟨_, _, h.2.1⟩, ⟨_, _, h.2.2.1⟩, ⟨_, _, h.2.2.2⟩, trivial⟩
  | compare op l r | connect op l r | combine op l r =>
    simp only [Expr.entries, holds_cons, holds_append] at h
    exact ⟨⟨_, _, h.2.1⟩, ⟨_, _, h.2.2⟩, trivial⟩
  | call name arguments =>
    simp only [Expr.entries, holds_cons] at h
    exact of_entriesEach h.2

end Tree.HoldsEach

/-! ## What checking says about parts -/

/-- Where nothing is wrong with an expression, nothing is wrong with its parts. -/
theorem Expr.check_parts {static : StaticContext} {scope : List String} {focused : Bool} {e : Expr}
    (h : e.check static scope focused = none) :
    ∀ p ∈ e.parts, ∃ scope focused, p.check static scope focused = none := by
  intro p hp
  rcases exists_mem_scopedParts ⟨scope, focused⟩ hp with ⟨s, mem⟩
  exact ⟨s.bound, s.focused, check_scopedParts h p s mem⟩

/-- Where nothing is wrong with a call that reads the store, its arguments are texts. -/
theorem Expr.isText_of_check {static : StaticContext} {scope : List String} {focused : Bool}
    {name : QName} {arguments : List Expr} {f : Builtin}
    (h : (Expr.call name arguments).check static scope focused = none)
    (hf : Builtin.resolve? name.qualifier name.name = some f) (hreads : f.readsStore = true) :
    ∀ a ∈ arguments, (a.unwrap static.rewriting).isText = true := by
  simp only [check, hf, Option.or_eq_none_iff, demand_eq_none, hreads, Bool.not_true,
    Bool.false_or, List.all_eq_true] at h
  exact h.2

theorem Expr.isText_of_text? {e : Expr} {s : String} (h : e.text? = some s) : e.isText = true := by
  unfold text? at h
  split at h
  · rfl
  · simp at h

/-- A text is the same text however many parentheses are taken off. -/
theorem Expr.unwrap_of_isText {rewriting : Bool} {e : Expr}
    (h : (e.unwrap rewriting).isText = true) :
    ∃ s, e.unwrap rewriting = .literal (.string s) ∧ (e.unwrap true).text? = some s := by
  obtain ⟨s, hs⟩ : ∃ s, e.unwrap rewriting = .literal (.string s) := by
    cases hu : e.unwrap rewriting with
    | literal v =>
      rw [hu] at h
      cases v with
      | string s => exact ⟨s, rfl⟩
      | _ => simp [isText] at h
    | _ =>
      rw [hu] at h
      simp [isText] at h
  refine ⟨s, hs, ?_⟩
  -- without rewriting nothing was taken off, so it is the literal itself
  cases rewriting with
  | true => rw [hs, text?]
  | false =>
    rw [unwrap_false] at hs
    rw [hs]
    rfl

/-- The texts of arguments are read where the arguments are. -/
theorem literalTexts_placeEach {t : Tree} {rewriting : Bool} {first : Nat} {es : List Expr}
    (held : t.HoldsEach rewriting first es)
    (h : ∀ e ∈ es, (e.unwrap rewriting).isText = true) :
    literalTexts t (placeEach rewriting first es) =
      .ok (es.filterMap fun e => (e.unwrap true).text?) := by
  induction es generalizing first with
  | nil => rfl
  | cons e es ih =>
    rcases held with ⟨⟨parent, record, he⟩, hes⟩
    rcases Expr.unwrap_of_isText (h e (by simp)) with ⟨s, hs, htext⟩
    have hkind := Expr.kind?_place he
    rw [hs] at hkind
    simp only [Expr.kindAt, Literal.value] at hkind
    simp only [placeEach, literalTexts, hkind, List.filterMap_cons, htext,
      ih hes fun e he => h e (List.mem_cons_of_mem _ he), Except.map]

/-! ## Calls found in a compiled query -/

section

variable {v : View} {q : CompiledQuery}

/-- At the number of an expression that stays its own call is found. -/
theorem Expr.finds_own {e : Expr} {first : Nat} {parent : Option ExprId}
    {record : Option AnalysisContext} {scope : List String} {focused : Bool}
    (hstay : e.unwrap q.static.rewriting = e)
    (held : q.tree.Holds (e.entries q.static.rewriting first parent record))
    (hcheck : e.check q.static scope focused = none) :
    Finds v q [e.number first] (e.ownStoreCall first) := by
  have hkind := kind?_place held
  have hparts := Tree.HoldsEach.parts hstay held
  rw [place, hstay] at hkind
  -- only calls of functions that read the store find anything
  cases e with
  | call name arguments =>
    cases hf : Builtin.resolve? name.qualifier name.name with
    | none => simp [Finds, resourcesAmong, hkind, kindAt, ownStoreCall, hf, resourcesFor]
    | some f =>
      cases hreads : f.readsStore with
      | false =>
        simp [Finds, resourcesAmong, hkind, kindAt, ownStoreCall, hf, resourcesFor, hreads]
      | true =>
        have htexts := literalTexts_placeEach hparts (isText_of_check hcheck hf hreads)
        simp only [parts] at htexts
        simp only [Finds, resourcesAmong, hkind, kindAt, ownStoreCall, hf, resourcesFor, hreads,
          if_true, htexts, Except.bind]
        cases v.addressed q.static f (arguments.filterMap fun a => (a.unwrap true).text?) <;> rfl
  | _ => simp [Finds, resourcesAmong, hkind, kindAt, ownStoreCall, resourcesFor]

/-- Expressions under whose places their calls are found, one after another. -/
theorem finds_flatMap_preorder {n first : Nat} {es : List Expr}
    (held : q.tree.HoldsEach q.static.rewriting first es)
    (h : ∀ p ∈ es, ∀ (first : Nat) (parent : Option ExprId) (record : Option AnalysisContext),
      q.tree.Holds (p.entries q.static.rewriting first parent record) →
      Finds v q (q.tree.preorder n (p.place q.static.rewriting first)) (p.storeCalls first)) :
    Finds v q ((placeEach q.static.rewriting first es).flatMap (q.tree.preorder n))
      (storeCallsEach first es) := by
  induction es generalizing first with
  | nil => exact .nil
  | cons p ps ih =>
    rcases held with ⟨⟨parent, record, hp⟩, hps⟩
    have head := h p List.mem_cons_self first parent record hp
    have tail := ih hps fun p hp => h p (List.mem_cons_of_mem _ hp)
    exact head.append tail

/-- Under the place of an expression the calls that were read in it are found. -/
theorem Expr.finds_preorder (e : Expr) :
    ∀ (n first : Nat) (parent : Option ExprId) (record : Option AnalysisContext)
      (scope : List String) (focused : Bool),
      q.tree.Holds (e.entries q.static.rewriting first parent record) →
      e.check q.static scope focused = none → e.size ≤ n →
      Finds v q (q.tree.preorder n (e.place q.static.rewriting first)) (e.storeCalls first) := by
  induction e using Expr.ind_unwrap q.static.rewriting with
  | stays e hstay ih =>
    intro n first parent record scope focused held hcheck hn
    rw [size_eq] at hn
    rcases Nat.exists_eq_add_of_le' (Nat.le_of_add_left_le hn) with ⟨n, rfl⟩
    have hnode := node?_place held
    rw [place, hstay] at hnode
    have hchildren : q.tree.children (e.number first) =
        placeEach q.static.rewriting first e.parts := by
      rw [Tree.children_of_node? hnode, children_kindAt]
    have own := finds_own (v := v) hstay held hcheck
    -- the parts are smaller, so the fuel is enough for what lies below
    have below : Finds v q ((placeEach q.static.rewriting first e.parts).flatMap
        (q.tree.preorder n)) (storeCallsEach first e.parts) := by
      refine finds_flatMap_preorder (Tree.HoldsEach.parts hstay held) ?_
      intro p hp first' parent' record' held'
      rcases check_parts hcheck p hp with ⟨scope', focused', hpcheck⟩
      have hsize := size_le_sizeEach hp
      exact ih p hp n first' _ _ _ _ held' hpcheck (by omega)
    rw [place, hstay, Tree.preorder, hchildren, storeCalls_eq]
    exact own.cons below
  | inlined item hr ih =>
    -- a sequence that is left out calls nothing itself
    intro n first parent record scope focused held hcheck hn
    have held' : q.tree.Holds (item.entries q.static.rewriting first parent record) := by
      simpa [entries, entriesEach, hr] using held
    rcases check_parts hcheck item (by simp [parts]) with ⟨scope', focused', hitem⟩
    simp only [size, sizeEach] at hn
    simp only [storeCalls, storeCallsEach, List.append_nil]
    rw [hr, place, unwrap_singleton, ← place, ← hr]
    exact ih n first parent record scope' focused' held' hitem (by omega)

/-- A compiled query finds the documents of the calls that were read. -/
theorem resources_of_compiled {e : Expr} (hrep : e.Represents q.static.rewriting q.tree)
    (hcheck : e.check q.static [] false = none) (v : View) :
    q.resources v = resourcesFor v q.static (e.storeCalls 0) := by
  rw [CompiledQuery.resources, Tree.reachable, hrep.root_eq]
  exact e.finds_preorder q.tree.size 0 none _ [] false hrep.holds hcheck (Nat.le_of_eq hrep.size_eq.symm)

end

end DocBase.Query
