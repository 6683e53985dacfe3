import DocBase.Proofs.Query.Comparing
import DocBase.Proofs.Query.Rewriting
/-!
# Running a query that was accepted

What analysis accepts cannot go wrong in the ways it rules out: every context item is there when it
is asked for, every call has its arguments, and every text that names a resource can be read. What
is left are values of the wrong type, variables that were declared but given no value, resources
that are not found, and locks that are not taken. Main statements:

* `Expr.failsOnly_meaning` — the value of an expression, wherever it stands;
* `execute_error` — the whole of a run.
-/

namespace DocBase

namespace Query

/-- Whatever is wrong with a result satisfies `P`. -/
def FailsOnly {α : Type} (P : QueryError → Prop) (r : Except QueryError α) : Prop :=
  ∀ err, r = .error err → P err

namespace FailsOnly

variable {α β : Type} {P P' : QueryError → Prop}

theorem ok (a : α) : FailsOnly P (.ok a) := by
  intro err h
  simp at h

theorem error {err : QueryError} (h : P err) : FailsOnly (α := α) P (.error err) := by
  intro err' h'
  obtain rfl := Except.error.inj h'
  exact h

theorem mono {r : Except QueryError α} (h : FailsOnly P r) (hp : ∀ err, P err → P' err) :
    FailsOnly P' r := fun err herr => hp err (h err herr)

theorem bind {r : Except QueryError α} {f : α → Except QueryError β} (h : FailsOnly P r)
    (hf : ∀ a, r = .ok a → FailsOnly P (f a)) : FailsOnly P (r >>= f) := by
  cases r with
  | error err => exact error (h err rfl)
  | ok a => exact hf a rfl

theorem map {r : Except QueryError α} (h : FailsOnly P r) (f : α → β) : FailsOnly P (r.map f) := by
  cases r with
  | error err => exact error (h err rfl)
  | ok a => exact ok (f a)

theorem mapError {ε : Type} {f : ε → QueryError} (h : ∀ e, P (f e)) (r : Except ε α) :
    FailsOnly P (r.mapError f) := by
  cases r with
  | error e => exact error (h e)
  | ok a => exact ok a

theorem gather {f : α → Except QueryError Sequence} {l : List α}
    (h : ∀ a ∈ l, FailsOnly P (f a)) : FailsOnly P (Query.gather f l) := by
  induction l with
  | nil => exact ok []
  | cons a as ih =>
    refine (h a (by simp)).bind fun items _ => ?_
    exact (ih fun b hb => h b (List.mem_cons_of_mem _ hb)).bind fun others _ => ok _

theorem select {f : α → Except QueryError Bool} {l : List α}
    (h : ∀ a ∈ l, FailsOnly P (f a)) : FailsOnly P (Query.select f l) := by
  induction l with
  | nil => exact ok []
  | cons a as ih =>
    refine (h a (by simp)).bind fun keep _ => ?_
    exact (ih fun b hb => h b (List.mem_cons_of_mem _ hb)).bind fun kept _ => ok _

end FailsOnly

/-! ## Values of the wrong type -/

/-- A value that has the wrong type, or no boolean value. -/
def QueryError.IsMisfit (err : QueryError) : Prop := err.code = .xpty0004 ∨ err.code = .forg0006

theorem failsOnly_booleanValue (items : Sequence) :
    FailsOnly QueryError.IsMisfit (booleanValue items) := by
  unfold booleanValue
  split
  all_goals first
    | exact .ok _
    | exact .error (.inr rfl)

theorem failsOnly_compare (a b : Atomic) : FailsOnly QueryError.IsMisfit (a.compare b) :=
  fun _ herr => .inl (Atomic.code_of_compare herr)

theorem failsOnly_holdsForSome (op : Comparison) (left : Atomic) (right : Sequence) :
    FailsOnly QueryError.IsMisfit (holdsForSome op left right) := by
  induction right with
  | nil => exact .ok _
  | cons r rs ih =>
    rw [holdsForSome]
    have hcompare := failsOnly_compare left r.atomize
    split
    · -- a pair that does not compare ends the search, and one that holds ends it too
      next e he => exact .error (hcompare e he)
    · split
      · exact .ok _
      · exact ih

theorem failsOnly_generalCompare (op : Comparison) (left right : Sequence) :
    FailsOnly QueryError.IsMisfit (generalCompare op left right) := by
  induction left with
  | nil => exact .ok _
  | cons l ls ih =>
    rw [generalCompare]
    have hholds := failsOnly_holdsForSome op l.atomize right
    split
    · next e he => exact .error (hholds e he)
    · exact .ok _
    · exact ih

theorem failsOnly_nodesOf (op : SetOperator) (items : Sequence) :
    FailsOnly QueryError.IsMisfit (nodesOf op items) := by
  induction items with
  | nil => exact .ok _
  | cons i is ih =>
    cases i with
    | node n => exact ih.map _
    | atomic v => exact .error (.inl rfl)

theorem failsOnly_keeps (position : Nat) (items : Sequence) :
    FailsOnly QueryError.IsMisfit (keeps position items) := by
  unfold keeps
  split
  · exact .ok _
  · exact .ok _
  · exact failsOnly_booleanValue items

theorem failsOnly_applyTo (f : Builtin) (items : Sequence) :
    FailsOnly QueryError.IsMisfit (f.applyTo items) := by
  unfold Builtin.applyTo
  split
  · exact .ok _
  · exact .ok _
  · exact .ok _
  · exact (failsOnly_booleanValue items).map _
  · split
    · exact .ok _
    · exact .ok _
    · exact .error (.inl rfl)

/-! ## Expressions -/

mutual

/-- The variables of an expression that are bound neither inside of it nor by `scope`. -/
def Expr.unbound (scope : List String) : Expr → List String
  | .literal _ | .contextItem => []
  | .var x => if scope.contains x.text then [] else [x.text]
  | .sequence items => unboundEach scope items
  | .filter input predicates => input.unbound scope ++ unboundEach scope predicates
  | .forEach x input none body => input.unbound scope ++ body.unbound (x.text :: scope)
  | .forEach x input (some c) body =>
    input.unbound scope ++ (c.unbound (x.text :: scope) ++ body.unbound (x.text :: scope))
  | .compare _ l r | .connect _ l r | .combine _ l r => l.unbound scope ++ r.unbound scope
  | .call _ arguments => unboundEach scope arguments

def unboundEach (scope : List String) : List Expr → List String
  | [] => []
  | e :: es => e.unbound scope ++ unboundEach scope es

end

/-- What may go wrong with the value of an accepted expression with these unbound variables. -/
inductive Fault (static : StaticContext) (dynamic : DynamicContext) (unbound : List String) :
    QueryError → Prop
  | misfit {err : QueryError} : err.IsMisfit → Fault static dynamic unbound err
  /-- A variable that was declared has no value. -/
  | noValue {x : String} : x ∈ unbound → static.declares x = true → dynamic.value? x = none →
    Fault static dynamic unbound (.noValue x)

/-- A function that is called with as many arguments as it takes, and looks at one, has one. -/
theorem ne_nil_of_accepts {f : Builtin} {arguments : List Expr}
    (h : f.accepts arguments.length = true)
    (hf : f ≠ .collection ∧ f ≠ .true ∧ f ≠ .false ∧ f ≠ .position ∧ f ≠ .last) :
    arguments ≠ [] := by
  rintro rfl
  cases f <;> simp_all [Builtin.accepts, Builtin.minArity]

section

variable {static : StaticContext} {g : Given} {unbound : List String}

theorem FailsOnly.fault {α : Type} {dynamic : DynamicContext} {r : Except QueryError α}
    (h : FailsOnly QueryError.IsMisfit r) : FailsOnly (Fault static dynamic unbound) r :=
  h.mono fun _ => .misfit

/-- A variable that is neither bound nor declared is not accepted. -/
theorem failsOnly_variableValue {s : Surroundings} {dynamic : DynamicContext} {x : String}
    (hcheck : (s.bound.map Prod.fst).contains x = true ∨ static.declares x = true)
    (hunbound : (s.bound.map Prod.fst).contains x = false → x ∈ unbound) :
    FailsOnly (Fault static dynamic unbound) (s.variableValue dynamic x) := by
  unfold Surroundings.variableValue
  cases hlookup : s.bound.lookup x with
  | some item => exact .ok _
  | none =>
    -- so it is in no scope, and checking must have found it declared
    have hout : (s.bound.map Prod.fst).contains x = false := by
      -- a lookup that finds nothing says that no name is that one
      rw [Bool.eq_false_iff, ne_eq, List.contains_iff_mem]
      intro hmem
      rcases List.mem_map.1 hmem with ⟨⟨y, item⟩, hitem, rfl⟩
      have hne := List.lookup_eq_none_iff.1 hlookup _ hitem
      simp at hne
    cases hvalue : dynamic.value? x with
    | some items => exact .ok _
    | none =>
      -- nothing binds it here, so checking found it declared and it is one of the unbound
      refine .error (.noValue (hunbound hout) (hcheck.resolve_left ?_) hvalue)
      rw [hout]
      exact Bool.false_ne_true

/-- Where there has to be a context item, there is one. -/
theorem failsOnly_here {s : Surroundings} {P : QueryError → Prop} (h : s.focus.isSome = true) :
    FailsOnly P s.here := by
  unfold Surroundings.here
  split
  · exact .ok _
  · next hnone => simp [hnone] at h

/-- Expressions that fail only in some way, joined. -/
theorem failsOnly_meaningEach {P : QueryError → Prop} {s : Surroundings} {es : List Expr}
    (h : ∀ e ∈ es, ∀ first, FailsOnly P (e.meaning g first s)) (first : Nat) :
    FailsOnly P (meaningEach g first s es) := by
  induction es generalizing first with
  | nil => exact .ok []
  | cons e es ih =>
    rw [meaningEach]
    refine (h e (by simp) first).bind fun items _ => ?_
    exact (ih (fun e he => h e (List.mem_cons_of_mem _ he)) _).bind fun others _ => .ok _

/-- Predicates that fail only in some way, applied one after another. -/
theorem failsOnly_keptBy {s : Surroundings} {ps : List Expr}
    (h : ∀ p ∈ ps, ∀ (first : Nat) (f : Focus),
      FailsOnly (Fault static g.dynamic unbound) (p.meaning g first (s.focusedOn f)))
    (first : Nat) (items : Sequence) :
    FailsOnly (Fault static g.dynamic unbound) (keptBy g first s ps items) := by
  induction ps generalizing first items with
  | nil => exact .ok items
  | cons p ps ih =>
    rw [keptBy]
    refine (FailsOnly.select fun f _ => ?_).bind fun kept _ => ?_
    · -- each predicate is tried on what the ones before it have kept
      exact (h p (by simp) first f).bind fun value _ => (failsOnly_keeps f.position value).fault
    · exact ih (fun p hp => h p (List.mem_cons_of_mem _ hp)) _ _

end

/-- An expression inside `for` expressions that bind `scope`, with which nothing is wrong, and which
leaves no other variables than these unbound. -/
structure Expr.Accepted (static : StaticContext) (unbound scope : List String) (focused : Bool)
    (e : Expr) : Prop where
  checked : e.check static scope focused = none
  resolved : e.Resolved
  unbound_mem : ∀ x ∈ e.unbound scope, x ∈ unbound

section

variable {static : StaticContext} {unbound scope : List String} {focused : Bool}

/-- What one of several expressions leaves unbound is left unbound by all of them. -/
theorem unbound_of_unboundEach {es : List Expr} {e : Expr} (he : e ∈ es) :
    ∀ x ∈ e.unbound scope, x ∈ unboundEach scope es := by
  induction es with
  | nil => simp at he
  | cons e' es ih =>
    intro x hx
    rw [unboundEach, List.mem_append]
    rcases List.mem_cons.1 he with rfl | he
    · exact .inl hx
    · exact .inr (ih he x hx)

/-- What holds of several expressions holds of each. -/
theorem accepted_of_each {es : List Expr} (hcheck : checkEach static scope focused es = none)
    (hres : ResolvedEach es) (hunbound : ∀ x ∈ unboundEach scope es, x ∈ unbound) :
    ∀ e ∈ es, e.Accepted static unbound scope focused := by
  rw [checkEach_eq_none] at hcheck
  rw [resolvedEach_iff] at hres
  intro e he
  exact ⟨hcheck e he, hres e he, fun x hx => hunbound x (unbound_of_unboundEach he x hx)⟩

namespace Expr.Accepted

theorem items {items : List Expr}
    (h : (Expr.sequence items).Accepted static unbound scope focused) :
    ∀ e ∈ items, e.Accepted static unbound scope focused := by
  rcases h with ⟨hcheck, hres, hunbound⟩
  rw [check] at hcheck
  exact accepted_of_each hcheck hres hunbound

/-- The predicates of a filter have a context item, whatever the filter itself has. -/
theorem filter {input : Expr} {predicates : List Expr}
    (h : (Expr.filter input predicates).Accepted static unbound scope focused) :
    input.Accepted static unbound scope focused ∧
      ∀ p ∈ predicates, p.Accepted static unbound scope true := by
  rcases h with ⟨hcheck, hres, hunbound⟩
  simp only [check, Option.or_eq_none_iff] at hcheck
  simp only [Expr.unbound, List.mem_append] at hunbound
  constructor
  · exact ⟨hcheck.1, hres.1, fun x hx => hunbound x (.inl hx)⟩
  · exact accepted_of_each hcheck.2 hres.2 fun x hx => hunbound x (.inr hx)

/-- The condition and the body of a `for` see its variable, and the condition has a context item. -/
theorem forEach {y : QName} {input body : Expr} {condition : Option Expr}
    (h : (Expr.forEach y input condition body).Accepted static unbound scope focused) :
    input.Accepted static unbound scope focused ∧
      (∀ c ∈ condition, c.Accepted static unbound (y.text :: scope) true) ∧
      body.Accepted static unbound (y.text :: scope) focused := by
  rcases h with ⟨hcheck, hres, hunbound⟩
  -- without a condition the body comes right after the input
  cases condition with
  | none =>
    simp only [check, Option.or_eq_none_iff] at hcheck
    simp only [Expr.unbound, List.mem_append] at hunbound
    refine ⟨?_, by simp, ?_⟩
    · exact ⟨hcheck.1, hres.1, fun x hx => hunbound x (.inl hx)⟩
    · exact ⟨hcheck.2, hres.2, fun x hx => hunbound x (.inr hx)⟩
  -- with one there are three parts, of which only the condition has a focus of its own
  | some c =>
    simp only [check, Option.or_eq_none_iff] at hcheck
    simp only [Expr.unbound, List.mem_append] at hunbound
    refine ⟨?_, ?_, ?_⟩
    · exact ⟨hcheck.1, hres.1, fun x hx => hunbound x (.inl hx)⟩
    · intro c' hc
      obtain rfl := Option.mem_some_iff.1 hc
      exact ⟨hcheck.2.1, hres.2.1, fun x hx => hunbound x (.inr (.inl hx))⟩
    · exact ⟨hcheck.2.2, hres.2.2, fun x hx => hunbound x (.inr (.inr hx))⟩

/-- Two operands are accepted where their operator is. -/
theorem operands {e l r : Expr} (h : e.Accepted static unbound scope focused)
    (hcheck : e.check static scope focused =
      (l.check static scope focused).or (r.check static scope focused))
    (hres : e.Resolved → l.Resolved ∧ r.Resolved)
    (hunbound : e.unbound scope = l.unbound scope ++ r.unbound scope) :
    l.Accepted static unbound scope focused ∧ r.Accepted static unbound scope focused := by
  rcases h with ⟨hnone, hresolved, hmem⟩
  rw [hcheck, Option.or_eq_none_iff] at hnone
  simp only [hunbound, List.mem_append] at hmem
  constructor
  · exact ⟨hnone.1, (hres hresolved).1, fun x hx => hmem x (.inl hx)⟩
  · exact ⟨hnone.2, (hres hresolved).2, fun x hx => hmem x (.inr hx)⟩

/-- A call has a context item if it needs one, as many arguments as it takes, and arguments that are
accepted. -/
theorem call {name : QName} {arguments : List Expr}
    (h : (Expr.call name arguments).Accepted static unbound scope focused) :
    ∃ f, Builtin.resolve? name.qualifier name.name = some f ∧
      f.accepts arguments.length = true ∧ (f.needsFocus = true → focused = true) ∧
      ∀ a ∈ arguments, a.Accepted static unbound scope focused := by
  rcases h with ⟨hcheck, ⟨⟨f, hf, haccepts⟩, hres⟩, hunbound⟩
  simp only [check, hf, Option.or_eq_none_iff, demand_eq_none, Bool.or_eq_true,
    Bool.not_eq_true'] at hcheck
  refine ⟨f, hf, haccepts, ?_, accepted_of_each hcheck.1.2 hres hunbound⟩
  intro hneeds
  rcases hcheck.1.1 with hnot | hfocused
  · -- the focus is asked for by `position` and `last` alone
    rw [hneeds] at hnot
    contradiction
  · exact hfocused

end Expr.Accepted

variable {g : Given}

/-- The value of a call whose arguments fail only in such ways. -/
theorem failsOnly_call {s : Surroundings} {name : QName} {arguments : List Expr} {f : Builtin}
    (hf : Builtin.resolve? name.qualifier name.name = some f)
    (haccepts : f.accepts arguments.length = true)
    (hfocus : f.needsFocus = true → s.focus.isSome = true) {first : Nat}
    (h : ∀ a ∈ arguments, ∀ first, FailsOnly (Fault static g.dynamic unbound) (a.meaning g first s)) :
    FailsOnly (Fault static g.dynamic unbound) ((Expr.call name arguments).meaning g first s) := by
  -- the functions that look at a value accept no empty list, so there is one to look at
  have hargument : ∀ f : Builtin, f.accepts arguments.length = true →
      (f ≠ .collection ∧ f ≠ .true ∧ f ≠ .false ∧ f ≠ .position ∧ f ≠ .last) →
      ∃ a as, arguments = a :: as ∧ FailsOnly (Fault static g.dynamic unbound) (do
        let value ← a.meaning g first s
        f.applyTo value) := by
    intro f haccepts hlooks
    rcases List.exists_cons_of_ne_nil (ne_nil_of_accepts haccepts hlooks) with ⟨a, as, rfl⟩
    have ha := h a List.mem_cons_self first
    exact ⟨a, as, rfl, ha.bind fun value _ => (failsOnly_applyTo f value).fault⟩
  simp only [Expr.meaning, hf]
  cases f with
  | collection | doc | true | false => exact .ok _
  | position | last => exact (failsOnly_here (hfocus rfl)).bind fun f _ => .ok _
  | _ =>
    rcases hargument _ haccepts (by simp) with ⟨a, as, rfl, hvalue⟩
    exact hvalue

/-- An accepted expression with a context item where it needs one fails only with values of the
wrong type and with variables that were declared and given no value. -/
theorem Expr.failsOnly_meaning (e : Expr) :
    ∀ (first : Nat) (s : Surroundings) (focused : Bool),
      e.Accepted static unbound (s.bound.map Prod.fst) focused →
      (focused = true → s.focus.isSome = true) →
      FailsOnly (Fault static g.dynamic unbound) (e.meaning g first s) := by
  induction e using Expr.ind with
  | literal v =>
    intro first s focused _ _
    rw [meaning]
    exact .ok _
  | var x =>
    intro first s focused accepted _
    have hcheck := accepted.checked
    rw [meaning]
    refine failsOnly_variableValue (by simpa [check] using hcheck) ?_
    intro hout
    refine accepted.unbound_mem x.text ?_
    rw [Expr.unbound, hout]
    simp
  | contextItem =>
    intro first s focused accepted hfocus
    have hfocused : focused = true := by
      have hcheck := accepted.checked
      simpa [check] using hcheck
    rw [meaning]
    exact (failsOnly_here (hfocus hfocused)).bind fun f _ => .ok _
  | sequence items ih =>
    intro first s focused accepted hfocus
    rw [meaning]
    refine failsOnly_meaningEach ?_ first
    intro e he first
    exact ih e he first s focused (accepted.items e he) hfocus
  | filter input predicates ihi ihp =>
    intro first s focused accepted hfocus
    rcases accepted.filter with ⟨hinput, hpredicates⟩
    rw [meaning]
    refine (ihi first s focused hinput hfocus).bind fun items _ => ?_
    refine failsOnly_keptBy ?_ _ items
    -- a predicate is tried on an item, so there is one
    intro p hp first' f
    exact ihp p hp first' (s.focusedOn f) true (hpredicates p hp) fun _ => rfl
  | forEach y input condition body ihi ihc ihb =>
    intro first s focused accepted hfocus
    rcases accepted.forEach with ⟨hinput, hcondition, hbody⟩
    cases condition with
    | none =>
      rw [meaning]
      refine (ihi first s focused hinput hfocus).bind fun items _ => FailsOnly.gather fun item _ => ?_
      exact ihb _ (s.binding y.text item) focused hbody hfocus
    | some c =>
      rw [meaning]
      refine (ihi first s focused hinput hfocus).bind fun items _ => FailsOnly.gather fun f _ => ?_
      -- the condition is asked of an item, with the focus on it
      have condition := ihc c rfl (first + input.size) ((s.binding y.text f.item).focusedOn f) true
        (hcondition c rfl) fun _ => rfl
      refine condition.bind fun value _ => (failsOnly_booleanValue value).fault.bind
        fun wanted _ => ?_
      cases wanted
      · exact .ok _
      · exact ihb (first + input.size + c.size) (s.binding y.text f.item) focused hbody hfocus
  | compare op l r ihl ihr =>
    intro first s focused accepted hfocus
    rcases accepted.operands (by rw [check]) id (by rw [Expr.unbound]) with ⟨hl, hr⟩
    rw [meaning]
    refine (ihl first s focused hl hfocus).bind fun left _ => ?_
    refine (ihr (first + l.size) s focused hr hfocus).bind fun right _ => ?_
    exact (failsOnly_generalCompare op left right).fault.bind fun b _ => .ok _
  | connect op l r ihl ihr =>
    intro first s focused accepted hfocus
    rcases accepted.operands (by rw [check]) id (by rw [Expr.unbound]) with ⟨hl, hr⟩
    rw [meaning]
    refine (ihl first s focused hl hfocus).bind fun left _ => ?_
    refine (failsOnly_booleanValue left).fault.bind fun left _ => ?_
    -- the right operand is not looked at when the left one decides
    split
    · exact .ok _
    · exact .ok _
    · refine (ihr (first + l.size) s focused hr hfocus).bind fun right _ => ?_
      exact (failsOnly_booleanValue right).fault.bind fun b _ => .ok _
  | combine op l r ihl ihr =>
    intro first s focused accepted hfocus
    rcases accepted.operands (by rw [check]) id (by rw [Expr.unbound]) with ⟨hl, hr⟩
    rw [meaning]
    refine (ihl first s focused hl hfocus).bind fun left _ => ?_
    refine (failsOnly_nodesOf op left).fault.bind fun left _ => ?_
    refine (ihr (first + l.size) s focused hr hfocus).bind fun right _ => ?_
    exact (failsOnly_nodesOf op right).fault.bind fun right _ => .ok _
  | call name arguments ih =>
    intro first s focused accepted hfocus
    rcases accepted.call with ⟨f, hf, haccepts, hneeds, hargumentsAccepted⟩
    refine failsOnly_call hf haccepts (fun h => hfocus (hneeds h)) ?_
    intro a ha first
    exact ih a ha first s focused (hargumentsAccepted a ha) hfocus

end

/-! ## Resources and locks -/

/-- A resource that is not found, or a lock that is not taken or not given back. -/
def QueryError.IsOutside (err : QueryError) : Prop := err.code = .fodc0002 ∨ err.code = .lock0001

namespace View

theorem failsOnly_retrieved {α : Type} (v : View) (r : Except StoreError α) :
    FailsOnly QueryError.IsOutside (v.retrieved r) := by
  cases r with
  | ok a => exact .ok _
  | error e =>
    rw [retrieved]
    split
    · refine .error ?_
      cases e
      case lock => exact .inr rfl
      all_goals exact .inl rfl
    · exact .ok _

theorem failsOnly_uris (v : View) (texts : List String) :
    FailsOnly QueryError.IsOutside (v.uris texts) := by
  induction texts with
  | nil => exact .ok _
  | cons s rest ih =>
    rw [uris]
    have hparsed := v.failsOnly_retrieved ((CollectionUri.parse s).mapError .invalidUri)
    split
    · next e he => exact .error (hparsed e he)
    · exact ih.map _

theorem failsOnly_addCollections (v : View) (uris : List CollectionUri) (found : DocumentSet) :
    FailsOnly QueryError.IsOutside (v.addCollections uris found) := by
  induction uris generalizing found with
  | nil => exact .ok _
  | cons uri rest ih =>
    rw [addCollections]
    have hretrieved := v.failsOnly_retrieved
      (v.store.collectionDocuments v.subject uri v.dynamic.checkPermissions)
    split
    · next e he => exact .error (hretrieved e he)
    · exact ih _

theorem failsOnly_addDocuments (v : View) (paths : List String) (found : DocumentSet) :
    FailsOnly QueryError.IsOutside (v.addDocuments paths found) := by
  induction paths generalizing found with
  | nil => exact .ok _
  | cons path rest ih =>
    rw [addDocuments]
    have hretrieved := v.failsOnly_retrieved (v.xmlDocument path)
    split
    · next e he => exact .error (hretrieved e he)
    · exact ih _

theorem failsOnly_addressed (v : View) (static : StaticContext) (f : Builtin)
    (texts : List String) : FailsOnly QueryError.IsOutside (v.addressed static f texts) := by
  have hnamed : FailsOnly QueryError.IsOutside (v.namedCollections static texts) := by
    unfold namedCollections
    split
    · exact .ok _
    · exact .error (.inl rfl)
    · exact v.failsOnly_uris _
  unfold addressed
  split
  · exact v.failsOnly_addDocuments texts {}
  · exact hnamed.bind fun uris _ => v.failsOnly_addCollections uris {}

end View

theorem failsOnly_resourcesFor (v : View) (static : StaticContext) (calls : List StoreCall) :
    FailsOnly QueryError.IsOutside (resourcesFor v static calls) := by
  induction calls with
  | nil => exact .ok _
  | cons c cs ih =>
    rw [resourcesFor]
    exact (v.failsOnly_addressed static c.function c.texts).bind fun documents _ =>
      ih.bind fun others _ => .ok _

end Query

open Query

/-! ## Runs -/

/-- What is left to go wrong is nothing that lies in the query. -/
theorem Query.QueryError.of_code_mem {err : QueryError}
    (h : err.code ∈ [ErrorCode.xpty0004, .forg0006, .fodc0002, .lock0001]) :
    err.isStatic = false ∧ err ≠ .focusAbsent ∧ (∀ f, err ≠ .argumentMissing f) ∧
      err.code ≠ .xpdy0002 := by
  cases err <;> simp [code, isStatic] at h ⊢

section

variable {source : String} {static : StaticContext} {q : CompiledQuery}

/-- What may go wrong with a run of a compiled query whose text leaves these variables unbound. -/
def RunFault (static : StaticContext) (dynamic : DynamicContext) (unbound : List String)
    (err : QueryError) : Prop :=
  Fault static dynamic unbound err ∨ err.IsOutside

/-- Whatever the documents are and whoever holds their locks, a run fails only in these ways. -/
theorem Store.failsOnly_execute {e : Expr} (hrep : e.Represents q.static.rewriting q.tree)
    (hres : e.Resolved) (hcheck : e.check q.static [] false = none) (s : Store) (subject : Subject)
    (dynamic : DynamicContext) (me : Thread) :
    FailsOnly (RunFault q.static dynamic (e.unbound [])) (s.execute q subject dynamic me).1 := by
  -- what is found depends on the store, what comes of it only on the expression
  have hresources : ∀ v : View, FailsOnly QueryError.IsOutside (q.resources v) := by
    intro v
    rw [resources_of_compiled hrep hcheck v]
    exact failsOnly_resourcesFor v q.static _
  have hvalue : ∀ (resources : Resources),
      FailsOnly (Fault q.static dynamic (e.unbound [])) (Evaluation.run ⟨q.tree, dynamic, resources⟩) := by
    intro resources
    rw [Expr.run_of_represents hrep hres]
    -- nothing is bound around a whole query and it has no focus
    have accepted : e.Accepted q.static (e.unbound []) [] false := ⟨hcheck, hres, fun x hx => hx⟩
    exact e.failsOnly_meaning 0 {} false accepted fun h => by simp at h
  unfold Store.execute Store.beginQuery
  have hfound := hresources ⟨s, subject, dynamic⟩
  cases hr : q.resources ⟨s, subject, dynamic⟩ with
  | error err => exact .error (.inr (hfound err hr))
  | ok resources =>
    dsimp only
    split
    · -- the locks are held: the value counts before giving them back
      dsimp only [Store.finishQuery]
      refine FailsOnly.bind ((hvalue _).mono fun _ => .inl) fun items _ => ?_
      exact (FailsOnly.mapError (fun _ => .inr (.inr rfl)) _).map _
    · exact .error (.inr (.inr rfl))

/-- A compiled query never fails with what analysis rules out: not with an error of the query
itself, not for want of a context item or of an argument. If a value is missing it is that of a
variable which was declared, is bound by no `for` around it, and was given no value; when all
declared variables have values, only types, resources and locks are left to go wrong. -/
theorem execute_error (h : compile source static = .ok q) :
    ∃ e, parse source = .ok e ∧
      ∀ (s : Store) (subject : Subject) (dynamic : DynamicContext) (me : Thread) (err : QueryError),
        (s.execute q subject dynamic me).1 = .error err →
        err.isStatic = false ∧ err ≠ .focusAbsent ∧ (∀ f, err ≠ .argumentMissing f) ∧
        (err.code = .xpdy0002 → ∃ x ∈ e.unbound [], err = .noValue x ∧
          static.declares x = true ∧ dynamic.value? x = none) ∧
        ((∀ x, static.declares x = true → (dynamic.value? x).isSome = true) →
          err.code ∈ [ErrorCode.xpty0004, .forg0006, .fodc0002, .lock0001]) := by
  -- the three ways to fail come to one of these codes, except for a variable without a value
  rcases compile_eq_ok h with ⟨e, t, hparse, htree, hcheck, hrep⟩
  have hstatic : q.static = static := (compile_ok h).2
  rw [← hstatic] at hcheck hrep ⊢
  refine ⟨e, hparse, fun s subject dynamic me err herr => ?_⟩
  have hallowed : err.code ∈ [ErrorCode.xpty0004, .forg0006, .fodc0002, .lock0001] →
      err.isStatic = false ∧ err ≠ .focusAbsent ∧ (∀ f, err ≠ .argumentMissing f) ∧
      (err.code = .xpdy0002 → ∃ x ∈ e.unbound [], err = .noValue x ∧
        q.static.declares x = true ∧ dynamic.value? x = none) ∧
      ((∀ x, q.static.declares x = true → (dynamic.value? x).isSome = true) →
        err.code ∈ [ErrorCode.xpty0004, .forg0006, .fodc0002, .lock0001]) := by
    intro hcode
    rcases QueryError.of_code_mem hcode with ⟨hkind, hfocus, hargument, hmissing⟩
    exact ⟨hkind, hfocus, hargument, fun hx => absurd hx hmissing, fun _ => hcode⟩
  rcases s.failsOnly_execute hrep (Expr.resolved_of_tree htree) hcheck subject dynamic me err herr
    with (hmisfit | @⟨x, hx, hdeclared, hvalue⟩) | houtside
  · refine hallowed ?_
    rcases hmisfit with hcode | hcode <;> simp [hcode]
  · -- a variable without a value, which no context that gives all of them has
    refine ⟨rfl, by simp, by simp, fun _ => ⟨x, hx, rfl, hdeclared, hvalue⟩, ?_⟩
    intro hall
    have hsome := hall x hdeclared
    rw [hvalue] at hsome
    simp at hsome
  · refine hallowed ?_
    rcases houtside with hcode | hcode <;> simp [hcode]

/-- A query that asks for a variable which is declared and may have no value, beside one of the same
name that is bound. -/
theorem execute_error_shadowed :
    ∃ q e, compile "(for $x in collection('/db') return $x[position() = last()], $x)"
        { externals := ["x"] } = .ok q ∧
      parse "(for $x in collection('/db') return $x[position() = last()], $x)" = .ok e ∧
      ∀ (s : Store) (subject : Subject) (dynamic : DynamicContext) (me : Thread) (err : QueryError),
        (s.execute q subject dynamic me).1 = .error err →
        err.isStatic = false ∧ err ≠ .focusAbsent ∧ (∀ f, err ≠ .argumentMissing f) ∧
        (err.code = .xpdy0002 → ∃ x ∈ e.unbound [], err = .noValue x ∧
          StaticContext.declares { externals := ["x"] } x = true ∧ dynamic.value? x = none) ∧
        ((∀ x, StaticContext.declares { externals := ["x"] } x = true →
            (dynamic.value? x).isSome = true) →
          err.code ∈ [ErrorCode.xpty0004, .forg0006, .fodc0002, .lock0001]) := by
  obtain ⟨q, hq⟩ : ∃ q, compile "(for $x in collection('/db') return $x[position() = last()], $x)"
      { externals := ["x"] } = .ok q := exists_of_compile_isOk (by decide +kernel)
  rcases execute_error hq with ⟨e, he, hsound⟩
  exact ⟨q, e, hq, he, hsound⟩

end

end DocBase
