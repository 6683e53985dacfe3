import DocBase.Proofs.Query.Arena
import DocBase.Query.Compiled
/-!
# The numbers of the expressions of a query

Expressions are numbered in the order in which they end in the text: the parts of an expression
come before it, one after another. So the number of an expression, and all that the arena holds for
it, can be told from the expression as it was read and the first number given to its parts. With
rewriting, a sequence of one item is left out and the item takes its place. Main statements:

* `Expr.entries_raw` — what the arena holds before it is analysed, uniformly over all expressions;
* `Expr.within_of_mem_entries` — the entries of an expression have numbers of its own.
-/

namespace DocBase.Query

/-- Induction over expressions: parts that stand in a list are covered one by one. -/
@[elab_as_elim]
theorem Expr.ind {motive : Expr → Prop}
    (literal : ∀ v, motive (.literal v)) (var : ∀ x, motive (.var x))
    (contextItem : motive .contextItem)
    (sequence : ∀ items, (∀ e ∈ items, motive e) → motive (.sequence items))
    (filter : ∀ input predicates, motive input → (∀ p ∈ predicates, motive p) →
      motive (.filter input predicates))
    (forEach : ∀ x input condition body, motive input → (∀ c ∈ condition, motive c) →
      motive body → motive (.forEach x input condition body))
    (compare : ∀ op l r, motive l → motive r → motive (.compare op l r))
    (connect : ∀ op l r, motive l → motive r → motive (.connect op l r))
    (combine : ∀ op l r, motive l → motive r → motive (.combine op l r))
    (call : ∀ f arguments, (∀ a ∈ arguments, motive a) → motive (.call f arguments)) :
    ∀ e, motive e := fun e =>
  -- lists of expressions and optional ones carry the motive of their members
  @Expr.rec motive (fun es => ∀ e ∈ es, motive e) (fun c => ∀ e ∈ c, motive e)
    literal var contextItem sequence filter forEach compare connect combine call
    (fun _ h => nomatch h)
    (fun _ _ head tail e h => by
      rcases List.mem_cons.1 h with rfl | h
      · exact head
      · exact tail e h)
    (fun _ h => nomatch h)
    (fun _ here e h => by
      obtain rfl := Option.mem_some_iff.1 h
      exact here)
    e

/-! ## Sizes and numbers -/

mutual

/-- How many expressions an expression is made of, itself included. -/
def Expr.size : Expr → Nat
  | .literal _ | .var _ | .contextItem => 1
  | .sequence items => sizeEach items + 1
  | .filter input predicates => input.size + sizeEach predicates + 1
  | .forEach _ input none body => input.size + body.size + 1
  | .forEach _ input (some c) body => input.size + c.size + body.size + 1
  | .compare _ l r | .connect _ l r | .combine _ l r => l.size + r.size + 1
  | .call _ arguments => sizeEach arguments + 1

def sizeEach : List Expr → Nat
  | [] => 0
  | e :: es => e.size + sizeEach es

end

namespace Expr

/-- The parts of an expression in the order they are numbered. -/
def parts : Expr → List Expr
  | .literal _ | .var _ | .contextItem => []
  | .sequence items => items
  | .filter input predicates => input :: predicates
  | .forEach _ input condition body => input :: (condition.toList ++ [body])
  | .compare _ l r | .connect _ l r | .combine _ l r => [l, r]
  | .call _ arguments => arguments

theorem size_eq (e : Expr) : e.size = sizeEach e.parts + 1 := by
  cases e with
  | forEach x input condition body =>
    cases condition <;> simp [size, parts, sizeEach, Nat.add_assoc]
  | _ => simp [size, parts, sizeEach]

/-- The number of an expression whose parts are numbered from `first` on. -/
def number (first : Nat) (e : Expr) : Nat := first + sizeEach e.parts

/-- With rewriting, what is left of an expression once one-item sequences around it are gone. -/
def unwrap (rewriting : Bool) : Expr → Expr
  | .sequence [e] => if rewriting then e.unwrap rewriting else .sequence [e]
  | e => e

/-- The number of the expression that stands in the arena for an expression. -/
def place (rewriting : Bool) (first : Nat) (e : Expr) : Nat :=
  (e.unwrap rewriting).number first

end Expr

/-- The places of expressions numbered one after another. -/
def placeEach (rewriting : Bool) : Nat → List Expr → List ExprId
  | _, [] => []
  | first, e :: es => e.place rewriting first :: placeEach rewriting (first + e.size) es

namespace Expr

/-- What the arena holds for an expression, over the places of its parts. -/
def kindAt (rewriting : Bool) (first : Nat) : Expr → Kind
  | .literal v => .literal v.value
  | .var x => .var x.text
  | .contextItem => .contextItem
  | .sequence items => .sequence (placeEach rewriting first items)
  | .filter input predicates =>
    .filter (input.place rewriting first) (placeEach rewriting (first + input.size) predicates)
  | .forEach x input condition body =>
    let behind := first + input.size
    .forEach x.text (input.place rewriting first) (condition.map (·.place rewriting behind))
      (body.place rewriting (behind + sizeEach condition.toList))
  | .compare op l r => .compare op (l.place rewriting first) (r.place rewriting (first + l.size))
  | .connect op l r => .connect op (l.place rewriting first) (r.place rewriting (first + l.size))
  | .combine op l r => .combine op (l.place rewriting first) (r.place rewriting (first + l.size))
  | .call name arguments =>
    match Builtin.resolve? name.qualifier name.name with
    | some f => .call f (placeEach rewriting first arguments)
    -- such a query is not compiled
    | none => .sequence (placeEach rewriting first arguments)

/-- Induction over expressions that treats all parts alike. -/
@[elab_as_elim]
theorem ind_parts {motive : Expr → Prop} (h : ∀ e, (∀ p ∈ e.parts, motive p) → motive e) (e : Expr) :
    motive e := by
  induction e using Expr.ind with
  | literal | var | contextItem => exact h _ fun p hp => by simp [parts] at hp
  | sequence items ih => exact h _ ih
  | filter input predicates ihi ihp =>
    refine h _ fun p hp => ?_
    rcases List.mem_cons.1 hp with rfl | hp
    · exact ihi
    · exact ihp p hp
  | forEach x input condition body ihi ihc ihb =>
    refine h _ fun p hp => ?_
    simp only [parts, List.mem_cons, List.mem_append, Option.mem_toList, List.not_mem_nil,
      or_false] at hp
    rcases hp with rfl | hp | rfl
    · exact ihi
    · exact ihc p hp
    · exact ihb
  | compare op l r ihl ihr | connect op l r ihl ihr | combine op l r ihl ihr =>
    refine h _ fun p hp => ?_
    simp only [parts, List.mem_cons, List.not_mem_nil, or_false] at hp
    rcases hp with rfl | rfl
    · exact ihl
    · exact ihr
  | call f arguments ih => exact h _ ih

theorem children_kindAt (rewriting : Bool) (first : Nat) (e : Expr) :
    (e.kindAt rewriting first).children = placeEach rewriting first e.parts := by
  cases e with
  | forEach x input condition body =>
    cases condition <;> simp [kindAt, Kind.children, parts, placeEach, sizeEach]
  | call name arguments =>
    simp only [kindAt, parts]
    split <;> rfl
  | _ => simp [kindAt, Kind.children, parts, placeEach]

/-- An integer literal as it is written. -/
def isPosition : Expr → Bool
  | .literal (.integer _) => true
  | _ => false

end Expr

/-! ## Entries -/

mutual

/-- The entries of the arena that belong to an expression: below `parent`, with a record for each
unless there are none yet. -/
def Expr.entries (rewriting : Bool) (first : Nat) (parent : Option ExprId)
    (record : Option AnalysisContext) (e : Expr) : List (Nat × TreeNode) :=
  let id := e.number first
  let own := (id, ⟨e.kindAt rewriting first, parent, record⟩)
  let operand := record.map (·.forChild id)
  match e with
  | .literal _ | .var _ | .contextItem => [own]
  | .sequence items =>
    -- one item stands for the sequence
    if rewriting && items.length == 1 then entriesEach rewriting first parent (fun _ => record) items
    else own :: entriesEach rewriting first (some id) (fun _ => operand) items
  | .filter input predicates =>
    own :: (input.entries rewriting first (some id) operand ++
      entriesEach rewriting (first + input.size) (some id)
        (fun p => record.map (·.forPredicate id p.isPosition)) predicates)
  | .forEach _ input none body =>
    own :: (input.entries rewriting first (some id) operand ++
      body.entries rewriting (first + input.size) (some id) operand)
  | .forEach _ input (some c) body =>
    own :: (input.entries rewriting first (some id) operand ++
      (c.entries rewriting (first + input.size) (some id) (record.map (·.forWhere id)) ++
        body.entries rewriting (first + input.size + c.size) (some id) operand))
  | .compare _ l r | .connect _ l r | .combine _ l r =>
    own :: (l.entries rewriting first (some id) operand ++
      r.entries rewriting (first + l.size) (some id) operand)
  | .call _ arguments => own :: entriesEach rewriting first (some id) (fun _ => operand) arguments

/-- The entries of expressions that are numbered one after another. -/
def entriesEach (rewriting : Bool) (first : Nat) (parent : Option ExprId)
    (record : Expr → Option AnalysisContext) : List Expr → List (Nat × TreeNode)
  | [] => []
  | e :: es =>
    e.entries rewriting first parent (record e) ++
      entriesEach rewriting (first + e.size) parent record es

end

namespace Expr

/-! ## Laws of numbers -/

theorem number_succ (first : Nat) (e : Expr) : e.number first + 1 = first + e.size := by
  rw [size_eq, number, Nat.add_assoc]

theorem unwrap_false (e : Expr) : e.unwrap false = e := by
  unfold unwrap
  split <;> rfl

theorem unwrap_singleton (e : Expr) : (Expr.sequence [e]).unwrap true = e.unwrap true := by
  simp [unwrap]

theorem unwrap_sequence {rewriting : Bool} {items : List Expr}
    (h : (rewriting && items.length == 1) = false) :
    (Expr.sequence items).unwrap rewriting = .sequence items := by
  cases rewriting with
  | false => exact unwrap_false _
  | true =>
    rcases items with _ | ⟨item, _ | ⟨item', items⟩⟩
    · rfl
    · simp at h
    · rfl

/-- Only a sequence of one item is left out. -/
theorem exists_of_unwrap_ne {rewriting : Bool} {e : Expr} (h : e.unwrap rewriting ≠ e) :
    ∃ item, e = .sequence [item] ∧ rewriting = true := by
  unfold unwrap at h
  split at h
  · next item =>
    cases rewriting with
    | true => exact ⟨item, rfl, rfl⟩
    | false => simp at h
  · exact absurd rfl h

theorem place_false (first : Nat) (e : Expr) : e.place false first = e.number first := by
  rw [place, unwrap_false]

theorem size_unwrap_le (rewriting : Bool) (e : Expr) : (e.unwrap rewriting).size ≤ e.size := by
  induction e using Expr.ind with
  | sequence items ih =>
    unfold unwrap
    split
    · next e he =>
      obtain rfl : items = [e] := by simpa using he
      have hle := ih e (by simp)
      split
      · simp only [size, sizeEach]
        omega
      · exact Nat.le_refl _
    · exact Nat.le_refl _
  | _ => exact Nat.le_refl _

/-- What is left of a one-item sequence is smaller, so a sequence that stays is none. -/
theorem not_singleton_of_unwrap {rewriting : Bool} {items : List Expr}
    (h : (Expr.sequence items).unwrap rewriting = .sequence items) :
    (rewriting && items.length == 1) = false := by
  by_contra hr
  obtain ⟨rfl, hlen⟩ : rewriting = true ∧ items.length = 1 := by simpa using hr
  rcases List.length_eq_one_iff.1 hlen with ⟨item, rfl⟩
  have hsize := item.size_unwrap_le true
  rw [unwrap_singleton] at h
  rw [h] at hsize
  simp only [size, sizeEach] at hsize
  omega

/-- Induction over expressions by what is left of them: parts stay below an expression that stays,
and a one-item sequence that is left out comes down to its item. -/
@[elab_as_elim]
theorem ind_unwrap (rewriting : Bool) {motive : Expr → Prop}
    (stays : ∀ e, e.unwrap rewriting = e → (∀ p ∈ e.parts, motive p) → motive e)
    (inlined : ∀ item, rewriting = true → motive item → motive (.sequence [item])) (e : Expr) :
    motive e := by
  induction e using Expr.ind_parts with
  | h e ih =>
    by_cases hstay : e.unwrap rewriting = e
    · exact stays e hstay ih
    · rcases exists_of_unwrap_ne hstay with ⟨item, rfl, hr⟩
      exact inlined item hr (ih item (by simp [parts]))

/-- The place of an expression is one of its own numbers. -/
theorem place_within (rewriting : Bool) (first : Nat) (e : Expr) :
    first ≤ e.place rewriting first ∧ e.place rewriting first < first + e.size := by
  have hsucc := number_succ first (e.unwrap rewriting)
  have hpos := size_eq (e.unwrap rewriting)
  have hle := size_unwrap_le rewriting e
  unfold place
  omega

end Expr

theorem mem_placeEach_within {rewriting : Bool} {es : List Expr} {first i : Nat}
    (h : i ∈ placeEach rewriting first es) : first ≤ i ∧ i < first + sizeEach es := by
  induction es generalizing first with
  | nil => simp [placeEach] at h
  | cons e es ih =>
    simp only [placeEach, List.mem_cons] at h
    simp only [sizeEach]
    rcases h with rfl | h
    · have := e.place_within rewriting first
      omega
    · have := ih h
      omega

@[simp] theorem sizeEach_append (es es' : List Expr) :
    sizeEach (es ++ es') = sizeEach es + sizeEach es' := by
  induction es with
  | nil => simp [sizeEach]
  | cons e es ih => simp [sizeEach, ih, Nat.add_assoc]

/-! ## Laws of entries -/

theorem within_of_mem_entriesEach {rewriting : Bool} {es : List Expr}
    (h : ∀ e ∈ es, ∀ (first : Nat) (parent : Option ExprId) (record : Option AnalysisContext),
      ∀ x ∈ e.entries rewriting first parent record, first ≤ x.1 ∧ x.1 < first + e.size)
    {first : Nat} {parent : Option ExprId} {record : Expr → Option AnalysisContext}
    {x : Nat × TreeNode} (hx : x ∈ entriesEach rewriting first parent record es) :
    first ≤ x.1 ∧ x.1 < first + sizeEach es := by
  induction es generalizing first with
  | nil => simp [entriesEach] at hx
  | cons e es ih =>
    simp only [entriesEach, List.mem_append] at hx
    simp only [sizeEach]
    -- the numbers of the first are followed by those of the others
    rcases hx with hx | hx
    · have := h e (by simp) _ _ _ x hx
      omega
    · have := ih (fun e he => h e (List.mem_cons_of_mem _ he)) hx
      omega

/-- The entries of an expression have its own numbers. -/
theorem Expr.within_of_mem_entries (rewriting : Bool) (e : Expr) :
    ∀ (first : Nat) (parent : Option ExprId) (record : Option AnalysisContext),
      ∀ x ∈ e.entries rewriting first parent record, first ≤ x.1 ∧ x.1 < first + e.size := by
  -- its own number is the last of its numbers, and each part has a range of those before
  induction e using Expr.ind with
  | literal | var | contextItem =>
    intro first parent record x hx
    have hsucc := number_succ first
    simp only [entries, List.mem_singleton] at hx
    subst hx
    simp [number, size, sizeEach, parts]
  | sequence items ih =>
    intro first parent record x hx
    have hsucc := number_succ first (.sequence items)
    have hsize := size_eq (.sequence items)
    simp only [parts] at hsize
    simp only [entries] at hx
    split at hx
    · -- a sequence that is left out has no entry of its own
      have := within_of_mem_entriesEach ih hx
      omega
    · rcases List.mem_cons.1 hx with rfl | hx
      · dsimp only
        omega
      · have := within_of_mem_entriesEach ih hx
        omega
  | filter input predicates ihi ihp =>
    intro first parent record x hx
    have hsucc := number_succ first (.filter input predicates)
    have hsize := size_eq (.filter input predicates)
    simp only [parts, sizeEach] at hsize
    simp only [entries, List.mem_cons, List.mem_append] at hx
    rcases hx with rfl | hx | hx
    · dsimp only
      omega
    · have := ihi _ _ _ x hx
      omega
    · have := within_of_mem_entriesEach ihp hx
      omega
  | forEach y input condition body ihi ihc ihb =>
    intro first parent record x hx
    have hsucc := number_succ first (.forEach y input condition body)
    have hsize := size_eq (.forEach y input condition body)
    cases condition with
    | none =>
      simp only [parts, sizeEach, Option.toList, List.nil_append] at hsize
      simp only [entries, List.mem_cons, List.mem_append] at hx
      rcases hx with rfl | hx | hx
      · dsimp only
        omega
      · have := ihi _ _ _ x hx
        omega
      · have := ihb _ _ _ x hx
        omega
    | some c =>
      simp only [parts, sizeEach, Option.toList, List.cons_append, List.nil_append] at hsize
      simp only [entries, List.mem_cons, List.mem_append] at hx
      rcases hx with rfl | hx | hx | hx
      · dsimp only
        omega
      · have := ihi _ _ _ x hx
        omega
      · have := ihc c rfl _ _ _ x hx
        omega
      · have := ihb _ _ _ x hx
        omega
  | compare op l r ihl ihr | connect op l r ihl ihr | combine op l r ihl ihr =>
    intro first parent record x hx
    simp only [entries, List.mem_cons, List.mem_append] at hx
    simp only [size, number, parts, sizeEach] at hx ⊢
    rcases hx with rfl | hx | hx
    · dsimp only
      omega
    · have := ihl _ _ _ x hx
      omega
    · have := ihr _ _ _ x hx
      omega
  | call f arguments ih =>
    intro first parent record x hx
    simp only [entries, List.mem_cons] at hx
    simp only [size, number, parts] at hx ⊢
    rcases hx with rfl | hx
    · dsimp only
      omega
    · have := within_of_mem_entriesEach ih hx
      omega

/-- Before analysis every expression is entered over its parts alike. -/
theorem Expr.entries_raw (first : Nat) (parent : Option ExprId) (e : Expr) :
    e.entries false first parent none =
      (e.number first, ⟨e.kindAt false first, parent, none⟩) ::
        entriesEach false first (some (e.number first)) (fun _ => none) e.parts := by
  cases e with
  | forEach x input condition body =>
    cases condition <;> simp [entries, parts, entriesEach]
  | _ => simp [entries, parts, entriesEach]

/-- Before analysis nothing has a record. -/
theorem Expr.record_of_mem_entries (e : Expr) :
    ∀ (first : Nat) (parent : Option ExprId), ∀ x ∈ e.entries false first parent none,
      x.2.record = none := by
  have each : ∀ es : List Expr, (∀ e ∈ es, ∀ (first : Nat) (parent : Option ExprId),
      ∀ x ∈ e.entries false first parent none, x.2.record = none) →
      ∀ (first : Nat) (parent : Option ExprId),
        ∀ x ∈ entriesEach false first parent (fun _ => none) es, x.2.record = none := by
    intro es h
    induction es with
    | nil => simp [entriesEach]
    | cons e es ih =>
      intro first parent x hx
      rw [entriesEach, List.mem_append] at hx
      rcases hx with hx | hx
      · exact h e (by simp) _ _ x hx
      · exact ih (fun e he => h e (List.mem_cons_of_mem _ he)) _ _ x hx
  -- an entry is that of the expression itself or of one of its parts
  induction e using Expr.ind_parts with
  | h e ih =>
    intro first parent x hx
    rw [entries_raw, List.mem_cons] at hx
    rcases hx with rfl | hx
    · rfl
    · exact each e.parts ih _ _ x hx

/-- An expression is found at its place. -/
theorem Expr.node?_place {rewriting : Bool} {e : Expr} {t : Tree} {first : Nat}
    {parent : Option ExprId} {record : Option AnalysisContext}
    (h : t.Holds (e.entries rewriting first parent record)) :
    t.node? (e.place rewriting first) =
      some ⟨(e.unwrap rewriting).kindAt rewriting first, parent, record⟩ := by
  induction e using Expr.ind with
  | sequence items ih =>
    -- one-item sequences are nested, so this is where the induction is used
    cases hr : rewriting && items.length == 1 with
    | false =>
      simp only [entries, hr, Bool.false_eq_true, if_false, Tree.holds_cons] at h
      rw [place, unwrap_sequence hr]
      exact h.1
    | true =>
      obtain ⟨rfl, hlen⟩ : rewriting = true ∧ items.length = 1 := by simpa using hr
      rcases List.length_eq_one_iff.1 hlen with ⟨e, rfl⟩
      rw [place, unwrap_singleton]
      refine ih e (by simp) ?_
      simpa [entries, entriesEach] using h
  | forEach x input condition body =>
    cases condition <;> exact (Tree.holds_cons.1 (by simpa only [entries] using h)).1
  | _ =>
    -- any other expression is its own first entry
    simp only [entries, Tree.holds_cons] at h
    exact h.1

theorem Expr.kind?_place {rewriting : Bool} {e : Expr} {t : Tree} {first : Nat}
    {parent : Option ExprId} {record : Option AnalysisContext}
    (h : t.Holds (e.entries rewriting first parent record)) :
    t.kind? (e.place rewriting first) = some ((e.unwrap rewriting).kindAt rewriting first) := by
  rw [Tree.kind?, node?_place h, Option.map_some]

end DocBase.Query
