import DocBase.Proofs.Query.Lowering
/-!
# What analysis finds and leaves

What is wrong with a query can be told from the expression as it was read, without numbers and
without records. Analysis finds just that; and when it finds nothing, the arena holds the expression
with one-item sequences left out, every part with the record of how it is reached. Main statements:

* `Expr.covered_of_size_le` — analysing one expression in place, whatever else the arena holds;
* `compile_eq_ok` — what is known of a compiled query.
-/

namespace DocBase.Query

/-! ## Checking an expression as it was read -/

/-- The error unless `ok`. -/
def demand (ok : Bool) (e : QueryError) : Option QueryError := if ok then none else some e

@[simp] theorem demand_eq_none {ok : Bool} {e : QueryError} : demand ok e = none ↔ ok = true := by
  cases ok <;> simp [demand]

/-- A string literal as it is written. -/
def Expr.isText : Expr → Bool
  | .literal (.string _) => true
  | _ => false

mutual

/-- The first error in an expression inside `for` expressions that bind `scope`. -/
def Expr.check (static : StaticContext) (scope : List String) (focused : Bool) :
    Expr → Option QueryError
  | .literal _ => none
  | .var x => demand (scope.contains x.text || static.declares x.text) (.undeclared x.text)
  | .contextItem => demand focused (.noFocus none)
  | .sequence items => checkEach static scope focused items
  | .filter input predicates =>
    (input.check static scope focused).or (checkEach static scope true predicates)
  | .forEach x input none body =>
    (input.check static scope focused).or (body.check static (x.text :: scope) focused)
  | .forEach x input (some c) body =>
    (input.check static scope focused).or
      ((c.check static (x.text :: scope) true).or (body.check static (x.text :: scope) focused))
  | .compare _ l r | .connect _ l r | .combine _ l r =>
    (l.check static scope focused).or (r.check static scope focused)
  | .call name arguments =>
    match Builtin.resolve? name.qualifier name.name with
    | none => checkEach static scope focused arguments
    | some f =>
      ((demand (!f.needsFocus || focused) (.noFocus (some f))).or
        (checkEach static scope focused arguments)).or
          (demand (!f.readsStore || arguments.all fun a => (a.unwrap static.rewriting).isText)
            (.resourceNotLiteral f))

def checkEach (static : StaticContext) (scope : List String) (focused : Bool) :
    List Expr → Option QueryError
  | [] => none
  | e :: es => (e.check static scope focused).or (checkEach static scope focused es)

end

theorem checkEach_eq_none {static : StaticContext} {scope : List String} {focused : Bool}
    {es : List Expr} : checkEach static scope focused es = none ↔
      ∀ e ∈ es, e.check static scope focused = none := by
  induction es with
  | nil => simp [checkEach]
  | cons e es ih => simp [checkEach, ih]

namespace AnalysisContext

@[simp] theorem parent_forPredicate (c : AnalysisContext) (filter : ExprId) (isPosition : Bool) :
    (c.forPredicate filter isPosition).parent = some filter := by
  cases isPosition <;> rfl

@[simp] theorem focus_forPredicate (c : AnalysisContext) (filter : ExprId) (isPosition : Bool) :
    (c.forPredicate filter isPosition).focus = some filter := by
  cases isPosition <;> rfl

end AnalysisContext

/-! ## Reasoning about the walk -/

/-- An analysis that ends with this error or, if it is none, in a tree of which `post` holds. -/
structure Analysis.Meets (a : Analysis) (error : Option QueryError) (post : Tree → Prop) :
    Prop where
  error_eq : a.error = error
  tree : error = none → post a.tree

namespace Analysis

theorem Meets.mono {a : Analysis} {error : Option QueryError} {P Q : Tree → Prop}
    (h : a.Meets error P) (hpq : ∀ t, P t → Q t) : a.Meets error Q :=
  ⟨h.error_eq, fun he => hpq _ (h.tree he)⟩

theorem Meets.andThen {a : Analysis} {f : Tree → Analysis} {e₁ e₂ : Option QueryError}
    {P Q : Tree → Prop} (ha : a.Meets e₁ P) (hf : ∀ t, P t → (f t).Meets e₂ Q) :
    (a.andThen f).Meets (e₁.or e₂) Q := by
  have herror := ha.error_eq
  cases e₁ with
  | none =>
    have hrest := hf a.tree (ha.tree rfl)
    simpa [Analysis.andThen, herror] using hrest
  | some e => exact ⟨by simp [Analysis.andThen, herror], fun h => by simp at h⟩

theorem meets_require {t : Tree} {P : Tree → Prop} (h : P t) (ok : Bool) (e : QueryError) :
    (t.require ok e).Meets (demand ok e) P :=
  ⟨rfl, fun _ => h⟩

/-- Visiting one expression in order. -/
theorem visitEach_singleton (visit : ExprId → Tree → Analysis) (id : ExprId) :
    visitEach visit [id] = visit id := by
  funext t
  rcases hv : visit id t with ⟨t', _ | e⟩ <;> simp [visitEach, Analysis.andThen, hv]

end Analysis

/-- Below `parent` and behind `pre`, the expressions `es` are waiting to be analysed; they are
numbered from `first` on. -/
structure Tree.Waiting (t : Tree) (parent : Option ExprId) (pre : List ExprId) (es : List Expr)
    (post : List ExprId) (first : Nat) : Prop where
  holds : t.Holds (entriesEach false first parent (fun _ => none) es)
  slots_eq : t.slots parent = pre ++ placeEach false first es ++ post
  below : ∀ i : Nat, i ∈ pre → i < first
  above : ∀ p : Nat, parent = some p → first + sizeEach es ≤ p

/-- Analysis of the expressions `es` made `t'` out of `t`. -/
structure Tree.Analysed (t t' : Tree) (rewriting : Bool) (parent : Option ExprId)
    (pre : List ExprId) (es : List Expr) (post : List ExprId) (first : Nat)
    (entries : List (Nat × TreeNode)) : Prop where
  slots_eq : t'.slots parent = pre ++ placeEach rewriting first es ++ post
  changed : t.ChangedOnly t' parent first (first + sizeEach es)
  holds : t'.Holds entries
  /-- What was left out has no record. -/
  recorded : ∀ i : Nat, first ≤ i → i < first + sizeEach es → (t'.record? i).isSome = true →
    ∃ x ∈ entries, x.1 = i

/-- An analysis that covers the expressions `es` wherever they are waiting below `parent`. -/
def Covers (f : Tree → Analysis) (rewriting : Bool) (parent : Option ExprId) (first : Nat)
    (es : List Expr) (error : Option QueryError) (entries : List (Nat × TreeNode)) : Prop :=
  ∀ t pre post, t.Waiting parent pre es post first →
    (f t).Meets error fun t' => t.Analysed t' rewriting parent pre es post first entries

theorem placeEach_append (rewriting : Bool) (first : Nat) (es es' : List Expr) :
    placeEach rewriting first (es ++ es') =
      placeEach rewriting first es ++ placeEach rewriting (first + sizeEach es) es' := by
  induction es generalizing first with
  | nil => simp [placeEach, sizeEach]
  | cons e es ih => simp [placeEach, sizeEach, ih, Nat.add_assoc]

theorem entriesEach_append (rewriting : Bool) (first : Nat) (parent : Option ExprId)
    (record : Expr → Option AnalysisContext) (es es' : List Expr) :
    entriesEach rewriting first parent record (es ++ es') =
      entriesEach rewriting first parent record es ++
        entriesEach rewriting (first + sizeEach es) parent record es' := by
  induction es generalizing first with
  | nil => simp [entriesEach, sizeEach]
  | cons e es ih => simp [entriesEach, sizeEach, ih, Nat.add_assoc]

namespace Tree.Waiting

variable {t t₁ : Tree} {parent : Option ExprId} {pre post : List ExprId} {es es' : List Expr}
  {first : Nat}

theorem above_append (h : t.Waiting parent pre (es ++ es') post first) :
    ∀ p : Nat, parent = some p → first + sizeEach es + sizeEach es' ≤ p := by
  intro p hp
  have := h.above p hp
  rw [sizeEach_append] at this
  omega

/-- The first of several expressions are waiting before the others. -/
theorem early (h : t.Waiting parent pre (es ++ es') post first) :
    t.Waiting parent pre es (placeEach false (first + sizeEach es) es' ++ post) first := by
  have hslots := h.slots_eq
  have hholds := h.holds
  rw [placeEach_append] at hslots
  rw [entriesEach_append, holds_append] at hholds
  refine ⟨hholds.1, by simpa using hslots, h.below, fun p hp => ?_⟩
  have := h.above_append p hp
  omega

/-- Once the first are analysed, the others are still waiting: in the slots before them stand the
places that the first have now. -/
theorem late {rewriting : Bool} {entries : List (Nat × TreeNode)}
    (h : t.Waiting parent pre (es ++ es') post first)
    (done : t.Analysed t₁ rewriting parent pre es (placeEach false (first + sizeEach es) es' ++ post)
      first entries) :
    t₁.Waiting parent (pre ++ placeEach rewriting first es) es' post (first + sizeEach es) := by
  have hholds := h.holds
  rw [entriesEach_append, holds_append] at hholds
  refine ⟨done.changed.holds hholds.2 fun x hx => ?_, by simpa using done.slots_eq,
    fun i hi => ?_, h.above_append⟩
  · -- the parts that wait were not reached, as the walk stays below their numbers
    have hx := within_of_mem_entriesEach (fun e _ => e.within_of_mem_entries false) hx
    refine ⟨by omega, fun hp => ?_⟩
    have := h.above_append x.1 hp
    omega
  · -- places before these parts, and places the parts have got, are lower than what waits
    rcases List.mem_append.1 hi with hi | hi
    · have := h.below i hi
      omega
    · exact (mem_placeEach_within hi).2

end Tree.Waiting

namespace Covers

variable {f g : Tree → Analysis} {rewriting : Bool} {parent : Option ExprId} {first : Nat}
  {es es' : List Expr} {error error' : Option QueryError} {entries entries' : List (Nat × TreeNode)}

/-- No expressions are covered by doing nothing. -/
theorem nil (ok : Bool) (e : QueryError) :
    Covers (·.require ok e) rewriting parent first [] (demand ok e) [] := by
  intro t pre post waiting
  refine Analysis.meets_require ⟨?_, .refl _ _ _ _, Tree.holds_nil t, fun i hle hlt => ?_⟩ ok e
  · have hslots := waiting.slots_eq
    simpa [placeEach] using hslots
  · simp only [sizeEach] at hlt
    omega

/-- Expressions are covered one after another: what the first step changes, the second does not
look at. -/
theorem append (hf : Covers f rewriting parent first es error entries)
    (hg : Covers g rewriting parent (first + sizeEach es) es' error' entries')
    (hentries : ∀ x ∈ entries, first ≤ x.1 ∧ x.1 < first + sizeEach es) :
    Covers (fun t => (f t).andThen g) rewriting parent first (es ++ es') (error.or error')
      (entries ++ entries') := by
  intro t pre post waiting
  have habove := waiting.above_append
  refine (hf t _ _ waiting.early).andThen fun t₁ done => ?_
  have late := waiting.late done
  refine (hg t₁ _ _ late).mono fun t₂ done' => ?_
  have hsize := sizeEach_append es es'
  -- what the second walk does it does at higher numbers, so what the first one left still holds
  refine ⟨?_, ?_, ?_, fun i hle hlt hsome => ?_⟩
  · have hslots' := done'.slots_eq
    simpa [placeEach_append] using hslots'
  · exact (done.changed.mono (Nat.le_refl _) (by omega)).trans
      (done'.changed.mono (by omega) (by omega))
  · refine Tree.holds_append.2 ⟨done'.changed.holds done.holds fun x hx => ?_, done'.holds⟩
    have hx := hentries x hx
    refine ⟨by omega, fun hp => ?_⟩
    have := habove x.1 hp
    omega
  · -- a record was made by the walk whose numbers it is among
    by_cases hearly : i < first + sizeEach es
    · have hsame : t₂.node? i = t₁.node? i := by
        refine done'.changed.node_eq i (by omega) fun hp => ?_
        have := habove i hp
        omega
      rw [Tree.record?, hsame] at hsome
      rcases done.recorded i hle hearly hsome with ⟨x, hx, hi⟩
      exact ⟨x, List.mem_append_left _ hx, hi⟩
    · rcases done'.recorded i (by omega) (by omega) hsome with ⟨x, hx, hi⟩
      exact ⟨x, List.mem_append_right _ hx, hi⟩

/-- The same where the first step covers one expression. -/
theorem cons {e : Expr} {record : Option AnalysisContext}
    (hf : Covers f rewriting parent first [e] error (e.entries rewriting first parent record))
    (hg : Covers g rewriting parent (first + e.size) es' error' entries') :
    Covers (fun t => (f t).andThen g) rewriting parent first (e :: es') (error.or error')
      (e.entries rewriting first parent record ++ entries') := by
  have hone : sizeEach [e] = e.size := by simp [sizeEach]
  rw [← hone] at hg
  exact hf.append hg (hone ▸ e.within_of_mem_entries _ _ _ _)

end Covers

/-! ## One expression over its parts -/

theorem size_le_sizeEach {e : Expr} {es : List Expr} (h : e ∈ es) : e.size ≤ sizeEach es := by
  induction es with
  | nil => simp at h
  | cons e' es ih =>
    rw [sizeEach]
    rcases List.mem_cons.1 h with rfl | h
    · exact Nat.le_add_right _ _
    · have := ih h
      omega

namespace Expr

/-- Only the places of the parts tell what the arena holds with rewriting from what it holds
without. -/
theorem kindAt_withChildren (rewriting : Bool) (first : Nat) (e : Expr) :
    (e.kindAt false first).withChildren (placeEach rewriting first e.parts) =
      e.kindAt rewriting first := by
  cases e with
  | forEach x input condition body =>
    cases condition <;> simp [kindAt, Kind.withChildren, parts, placeEach, sizeEach]
  | call name arguments =>
    simp only [kindAt, parts]
    split <;> rfl
  | _ => simp [kindAt, Kind.withChildren, parts, placeEach]

end Expr

namespace Tree.Waiting

variable {t : Tree} {parent : Option ExprId} {pre post : List ExprId} {first : Nat} {e : Expr}

/-- One expression that is waiting is found under its number, over its parts. -/
theorem node?_eq (h : t.Waiting parent pre [e] post first) :
    t.node? (e.number first) = some ⟨e.kindAt false first, parent, none⟩ := by
  have hholds := h.holds
  rw [entriesEach, Expr.entries_raw] at hholds
  simp only [List.cons_append, holds_cons] at hholds
  exact hholds.1

theorem apart (h : t.Waiting parent pre [e] post first) : parent ≠ some (e.number first) := by
  intro hp
  have habove := h.above _ hp
  have hsucc := e.number_succ first
  simp only [sizeEach] at habove
  omega

/-- Once an expression has its record, its parts are waiting. -/
theorem parts (h : t.Waiting parent pre [e] post first) (r : Option AnalysisContext) :
    (t.setRecord (e.number first) r).Waiting (some (e.number first)) [] e.parts [] first := by
  have hholds := h.holds
  rw [entriesEach, Expr.entries_raw] at hholds
  simp only [List.cons_append, holds_cons, holds_append] at hholds
  refine ⟨hholds.2.1.of_agree fun x hx => ?_, ?_, fun i hi => by simp at hi, fun p hp => ?_⟩
  · have hx := within_of_mem_entriesEach (fun e _ => e.within_of_mem_entries false) hx
    have hne : e.number first ≠ x.1 := by
      rw [Expr.number]
      omega
    rw [node?_setRecord, if_neg hne]
  · rw [slots_setRecord, slots, children_of_node? h.node?_eq, Expr.children_kindAt]
    simp
  · obtain rfl := Option.some.inj hp
    exact Nat.le_refl _

end Tree.Waiting

namespace Tree.ChangedOnly

variable {t t' : Tree} {parent : Option ExprId} {id lo hi : Nat}

/-- What changed below an expression changed within the numbers that hold the expression too. -/
theorem above (h : t.ChangedOnly t' (some id) lo hi) (hid : lo ≤ id ∧ hi ≤ id)
    (hp : ∀ p : Nat, parent = some p → id < p) : t.ChangedOnly t' parent lo (id + 1) where
  size_eq := h.size_eq
  node_eq i away _ := by
    refine h.node_eq i (by omega) fun hi => ?_
    obtain rfl := Option.some.inj hi
    omega
  root_eq _ := h.root_eq (by simp)
  parent_eq q n hq hn := by
    have hlt := hp q hq
    refine ⟨n.kind.children, rfl, ?_⟩
    rw [Kind.withChildren_children, h.node_eq q (by omega) (fun hi => ?_), hn]
    obtain rfl := Option.some.inj hi
    omega

/-- Slots elsewhere hold what they held. -/
theorem slots_eq (h : t.ChangedOnly t' (some id) lo hi) (hid : hi ≤ id)
    (hp : ∀ p : Nat, parent = some p → id < p) : t'.slots parent = t.slots parent := by
  cases parent with
  | none => simp [slots, h.root_eq]
  | some p =>
    have hlt := hp p rfl
    have hne : (some id : Option ExprId) ≠ some p := fun hi => by
      obtain rfl := Option.some.inj hi
      omega
    simp only [slots, children, kind?, h.node_eq p (by omega) hne]

end Tree.ChangedOnly

/-- An expression that stays is analysed by giving it its record and analysing its parts. -/
theorem Expr.analysed_of_parts {e : Expr} {t t' : Tree} {rewriting : Bool}
    {parent : Option ExprId} {pre post : List ExprId} {first : Nat}
    {record : Option AnalysisContext} {entries : List (Nat × TreeNode)}
    (hstay : e.unwrap rewriting = e) (waiting : t.Waiting parent pre [e] post first)
    (done : (t.setRecord (e.number first) record).Analysed t' rewriting (some (e.number first)) []
      e.parts [] first entries) :
    t.Analysed t' rewriting parent pre [e] post first
      ((e.number first, ⟨e.kindAt rewriting first, parent, record⟩) :: entries) := by
  have hsucc := e.number_succ first
  have hnumber : e.number first = first + sizeEach e.parts := rfl
  have habove : ∀ p : Nat, parent = some p → e.number first < p := by
    intro p hp
    have := waiting.above p hp
    simp only [sizeEach] at this
    omega
  -- below the expression only its slots may have changed, to the places of its parts
  have own : (t.setRecord (e.number first) record).node? (e.number first) =
      some ⟨e.kindAt false first, parent, record⟩ := by
    simp [Tree.node?_setRecord, waiting.node?_eq]
  have changed : Tree.ChangedOnly _ t' parent first (e.number first + 1) :=
    done.changed.above (by omega) habove
  refine ⟨?_, ?_, Tree.holds_cons.2 ⟨?_, done.holds⟩, fun i hle hlt hsome => ?_⟩
  · -- the parent of the expression keeps its slots
    rw [done.changed.slots_eq (by omega) habove, Tree.slots_setRecord, waiting.slots_eq]
    simp [placeEach, place, hstay, unwrap_false]
  · have first' : t.ChangedOnly (t.setRecord (e.number first) record) parent first
        (e.number first + 1) :=
      .setRecord (by omega) waiting.apart t record
    have hall := first'.trans changed
    rwa [hsucc, ← show sizeEach [e] = e.size by simp [sizeEach]] at hall
  · -- the kind is that of the expression with its parts where they ended up
    rcases done.changed.parent_eq _ _ rfl own with ⟨cs, hcs, hnode⟩
    have hchildren : cs = placeEach rewriting first e.parts := by
      have hslots := done.slots_eq
      rw [Tree.slots, Tree.children_of_node? hnode, Kind.children_withChildren hcs] at hslots
      simpa using hslots
    rw [hnode, hchildren, kindAt_withChildren]
  · -- the record is that of the expression itself, or of one of its parts
    by_cases hown : e.number first = i
    · exact ⟨_, List.mem_cons_self, hown⟩
    · simp only [sizeEach] at hlt
      rcases done.recorded i hle (by omega) hsome with ⟨x, hx, hi⟩
      exact ⟨x, List.mem_cons_of_mem _ hx, hi⟩

namespace Tree.Waiting

variable {t : Tree} {parent : Option ExprId} {pre post : List ExprId} {first : Nat} {item : Expr}

/-- Once the item of a one-item sequence is in the slot of the sequence, it is still held as a part
of the sequence. -/
theorem replaced (waiting : t.Waiting parent pre [.sequence [item]] post first)
    (record : Option AnalysisContext) {id : Nat} (hid : id = (Expr.sequence [item]).number first) :
    ∃ t₁ : Tree, ((t.setRecord id record).replaceChild parent id (item.number first)).2 =
        (t₁.setParent (item.number first) parent).setParent id none ∧
      t₁.slots parent = pre ++ item.number first :: post ∧
      t₁.Holds (item.entries false first (some id) none) ∧
      t.ChangedOnly t₁ parent first (first + (Expr.sequence [item]).size) := by
  have hsucc := (Expr.sequence [item]).number_succ first
  have hlow : first ≤ id := hid ▸ Nat.le_add_right _ _
  have habove : ∀ p : Nat, parent = some p → id < p := by
    intro p hp
    have := waiting.above p hp
    simp only [sizeEach] at this
    omega
  have hslots : (t.setRecord id record).slots parent = pre ++ id :: post := by
    rw [slots_setRecord, waiting.slots_eq, hid]
    simp [placeEach, Expr.place_false]
  have hpre : (id : ExprId) ∉ pre := by
    intro hm
    have := waiting.below id hm
    omega
  -- the item goes into the slot in which the sequence was
  rcases replaceChild_spec hslots hpre (item.number first) with ⟨t₁, ht₁, hslots₁, hchanged⟩
  refine ⟨t₁, ht₁, hslots₁, ?_, ?_⟩
  · -- the parts of the item lie lower than the sequence and its parent
    have hholds := (waiting.parts record).holds
    rw [← hid, Expr.parts, entriesEach, entriesEach, List.append_nil] at hholds
    refine (hchanged first).holds hholds fun x hx => ⟨by omega, fun hp => ?_⟩
    have hx := item.within_of_mem_entries false _ _ _ x hx
    have := habove x.1 hp
    simp only [Expr.size, sizeEach] at hsucc
    omega
  · have hown : first ≤ id ∧ id < first + (Expr.sequence [item]).size := ⟨hlow, by omega⟩
    have own := ChangedOnly.setRecord hown (hid ▸ waiting.apart) t record
    exact own.trans ((hchanged first).mono (Nat.le_refl _) (Nat.le_add_right _ _))

/-- With rewriting, the item of a one-item sequence waits in its place once it was put there. -/
theorem inlined (waiting : t.Waiting parent pre [.sequence [item]] post first)
    (record : Option AnalysisContext) {id : Nat} (hid : id = (Expr.sequence [item]).number first) :
    ∃ t' : Tree, (((t.setRecord id record).replaceChild parent id (item.number first)).2.setRecord
        id none) = t' ∧ t'.Waiting parent pre [item] post first ∧
      t.ChangedOnly t' parent first (first + (Expr.sequence [item]).size) ∧ t'.record? id = none := by
  have hsucc := (Expr.sequence [item]).number_succ first
  have hisucc := item.number_succ first
  have hsize : (Expr.sequence [item]).size = item.size + 1 := by simp [Expr.size, sizeEach]
  have habove : ∀ p : Nat, parent = some p → first + item.size < p := by
    intro p hp
    have := waiting.above p hp
    simp only [sizeEach] at this
    omega
  rcases waiting.replaced record hid with ⟨t₁, ht₁, hslots₁, held, changed⟩
  refine ⟨_, rfl, ⟨?_, ?_, waiting.below, fun p hp => ?_⟩, ?_, Tree.record?_setRecord_none _ _⟩
  · -- what is cleared belongs to the sequence, so the item only learns of its new parent
    rw [ht₁, entriesEach, entriesEach, List.append_nil]
    refine (holds_setParent held parent).of_agree fun x hx => ?_
    have hx := item.within_of_mem_entries false _ _ _ x hx
    have hne : id ≠ x.1 := by omega
    rw [node?_setRecord, if_neg hne, node?_setParent, if_neg hne]
  · -- the slot now holds the item
    rw [ht₁, slots_setRecord, slots_setParent, slots_setParent, hslots₁]
    simp [placeEach, Expr.place_false]
  · have := habove p hp
    simp only [sizeEach]
    omega
  · -- four changes, each to the sequence, the item or the slot between them
    rw [ht₁]
    have hapart : parent ≠ some id := hid ▸ waiting.apart
    have hiapart : parent ≠ some (item.number first) := by
      intro hp
      have := habove _ hp
      omega
    have hown : first ≤ id ∧ id < first + (Expr.sequence [item]).size :=
      ⟨hid ▸ Nat.le_add_right _ _, by omega⟩
    have hitem : first ≤ item.number first ∧
        item.number first < first + (Expr.sequence [item]).size :=
      ⟨Nat.le_add_right _ _, by omega⟩
    have linked := ChangedOnly.setParent hitem hiapart t₁ parent
    have unlinked := ChangedOnly.setParent hown hapart (t₁.setParent (item.number first) parent) none
    have cleared := ChangedOnly.setRecord hown hapart
      ((t₁.setParent (item.number first) parent).setParent id none) none
    exact ((changed.trans linked).trans unlinked).trans cleared

end Tree.Waiting

/-! ## The walk over one expression -/

section Visit

variable {static : StaticContext} {scope : List String} {parent : Option ExprId}

/-- Expressions that are covered one by one are covered in order. -/
theorem covers_visitEach {focused : Bool} {f : ExprId → Tree → Analysis}
    {record : Expr → Option AnalysisContext} {es : List Expr}
    (h : ∀ e ∈ es, ∀ first, Covers (f (e.number first)) static.rewriting parent first [e]
      (e.check static scope focused) (e.entries static.rewriting first parent (record e)))
    (first : Nat) :
    Covers (Analysis.visitEach f (placeEach false first es)) static.rewriting parent first es
      (checkEach static scope focused es)
      (entriesEach static.rewriting first parent record es) := by
  induction es generalizing first with
  | nil => exact Covers.nil true .circular
  | cons e es ih =>
    have head := h e (by simp) first
    have tail := ih (fun e he => h e (List.mem_cons_of_mem _ he)) (first + e.size)
    rw [placeEach, Expr.place_false, checkEach, entriesEach]
    exact head.cons tail

theorem kindAt_isIntegerLiteral (rewriting : Bool) (first : Nat) (e : Expr) :
    (e.kindAt rewriting first).isIntegerLiteral = e.isPosition := by
  cases e with
  | literal v => cases v <;> rfl
  | call name arguments =>
    simp only [Expr.kindAt, Expr.isPosition]
    split <;> rfl
  | _ => rfl

/-- What a predicate is before it is analysed decides whether it is a position. -/
theorem Tree.Waiting.isPosition_eq {t : Tree} {pre post : List ExprId} {first : Nat} {e : Expr}
    (h : t.Waiting parent pre [e] post first) : t.isPosition (e.number first) = e.isPosition := by
  simp only [isPosition, kind?, h.node?_eq, Option.map_some, Option.any_some, kindAt_isIntegerLiteral]

theorem kindAt_isStringLiteral (rewriting : Bool) (first : Nat) (e : Expr) :
    (e.kindAt rewriting first).isStringLiteral = e.isText := by
  cases e with
  | literal v => cases v <;> rfl
  | call name arguments =>
    simp only [Expr.kindAt, Expr.isText]
    split <;> rfl
  | _ => rfl

/-- Whether arguments are texts is seen at their places. -/
theorem all_isText {rewriting : Bool} {t : Tree} {record : Expr → Option AnalysisContext}
    {es : List Expr} {first : Nat} (h : t.Holds (entriesEach rewriting first parent record es)) :
    ((placeEach rewriting first es).all fun a => (t.kind? a).any Kind.isStringLiteral) =
      es.all fun a => (a.unwrap rewriting).isText := by
  induction es generalizing first with
  | nil => rfl
  | cons e es ih =>
    rw [entriesEach, Tree.holds_append] at h
    rw [placeEach, List.all_cons, List.all_cons, ih h.2]
    simp [Tree.kind?, Expr.node?_place h.1, kindAt_isStringLiteral]

/-- The arguments of a call are covered between the two checks of the call itself. -/
theorem covers_call (focused : Bool) {visit : ExprId → Tree → Analysis}
    {record : Expr → Option AnalysisContext} {arguments : List Expr} {id : ExprId}
    (parts : ∀ a ∈ arguments, ∀ first, Covers (visit (a.number first)) static.rewriting (some id)
      first [a] (a.check static scope focused)
      (a.entries static.rewriting first (some id) (record a)))
    (first : Nat) {t : Tree} (waiting : t.Waiting (some id) [] arguments [] first) (f : Builtin) :
    (((t.require (!f.needsFocus || focused) (.noFocus (some f))).andThen
      (Analysis.visitEach visit (placeEach false first arguments))).andThen
        fun t => t.require (!f.readsStore || t.argumentsLiteral id) (.resourceNotLiteral f)).Meets
      (((demand (!f.needsFocus || focused) (.noFocus (some f))).or
        (checkEach static scope focused arguments)).or
          (demand (!f.readsStore || arguments.all fun a => (a.unwrap static.rewriting).isText)
            (.resourceNotLiteral f)))
      fun t' => t.Analysed t' static.rewriting (some id) [] arguments [] first
        (entriesEach static.rewriting first (some id) record arguments) := by
  -- first the place is looked for, then the arguments are walked, then they are looked at
  have required := Analysis.meets_require (P := (· = t)) rfl (!f.needsFocus || focused)
    (.noFocus (some f))
  have covered := covers_visitEach parts first t [] [] waiting
  refine (required.andThen (f := Analysis.visitEach visit (placeEach false first arguments))
    (fun t' ht' => by rw [ht']; exact covered)).andThen fun t' done => ?_
  -- the arguments are looked at where they ended up
  have hchildren : t'.children id = placeEach static.rewriting first arguments := by
    have hslots := done.slots_eq
    simpa [Tree.slots] using hslots
  have hliteral : t'.argumentsLiteral id =
      arguments.all fun a => (a.unwrap static.rewriting).isText := by
    rw [Tree.argumentsLiteral, hchildren, all_isText done.holds]
  rw [hliteral]
  exact Analysis.meets_require done _ _

/-- An expression that stays is covered once it has its record and its parts are covered. -/
theorem Expr.covers_of_parts {e : Expr} {rewriting : Bool} {first : Nat} {ctx : AnalysisContext}
    {f rest : Tree → Analysis} {error : Option QueryError} {entries : List (Nat × TreeNode)}
    (hstay : e.unwrap rewriting = e)
    (hf : ∀ t : Tree, t.kind? (e.number first) = some (e.kindAt false first) →
      f t = rest (t.setRecord (e.number first) (some ctx)))
    (hrest : ∀ t : Tree, t.Waiting (some (e.number first)) [] e.parts [] first →
      (rest t).Meets error fun t' =>
        t.Analysed t' rewriting (some (e.number first)) [] e.parts [] first entries) :
    Covers f rewriting ctx.parent first [e] error
      ((e.number first, ⟨e.kindAt rewriting first, ctx.parent, some ctx⟩) :: entries) := by
  intro t pre post waiting
  rw [hf t (by simp [Tree.kind?, waiting.node?_eq])]
  exact (hrest _ (waiting.parts (some ctx))).mono fun t' done =>
    analysed_of_parts hstay waiting done

end Visit

/-! ## One lemma for each construct -/

namespace Expr

/-- With this much fuel an expression is covered wherever it is waiting, in whatever scope and
however it is reached: what is wrong with it is found, and if nothing is, what is left of it is put
in its place. -/
def Covered (static : StaticContext) (fuel : Nat) (e : Expr) : Prop :=
  ∀ (scope : List String) (ctx : AnalysisContext) (first : Nat),
    Covers (Analysis.visit static fuel scope ctx (e.number first)) static.rewriting ctx.parent first
      [e] (e.check static scope ctx.focus.isSome)
      (e.entries static.rewriting first ctx.parent (some ctx))

section Construct

variable {static : StaticContext} {fuel : Nat}

attribute [local simp] Analysis.visit entries check kindAt

theorem covered_literal (v : Literal) : (literal v).Covered static (fuel + 1) := by
  intro scope ctx first
  simp only [entries]
  refine covers_of_parts rfl (fun t ht => ?_) fun t => Covers.nil true .circular t [] []
  simp [ht, Tree.require]

theorem covered_var (x : QName) : (var x).Covered static (fuel + 1) := by
  intro scope ctx first
  simp only [entries]
  refine covers_of_parts rfl (fun t ht => ?_) fun t => Covers.nil _ _ t [] []
  simp [ht]

theorem covered_contextItem : contextItem.Covered static (fuel + 1) := by
  intro scope ctx first
  simp only [entries]
  refine covers_of_parts rfl (fun t ht => ?_) fun t => Covers.nil _ _ t [] []
  simp [ht]

/-- A one-item sequence is left out: its item is put in its place and analysed there. -/
theorem covered_inlined {item : Expr} (hrewriting : static.rewriting = true)
    (h : item.Covered static fuel) : (sequence [item]).Covered static (fuel + 1) := by
  intro scope ctx first t pre post waiting
  rcases waiting.inlined (some ctx) rfl with ⟨t', ht', waiting', changed, hcleared⟩
  have inner := h scope ctx first t' pre post waiting'
  simp only [Analysis.visit, Tree.kind?, waiting.node?_eq, Option.map_some, kindAt,
    placeEach, place_false, hrewriting, if_true]
  rw [ht']
  constructor
  · rw [inner.error_eq]
    simp only [check, checkEach, Option.or_none]
  · intro hnone
    have done := inner.tree (by simpa only [check, checkEach, Option.or_none] using hnone)
    refine ⟨?_, ?_, ?_, fun i hle hlt hsome => ?_⟩
    · -- the item ends up where it was put
      have hslots := done.slots_eq
      simpa [placeEach, place, unwrap_singleton, hrewriting] using hslots
    · have hsize : sizeEach [sequence [item]] = (sequence [item]).size := by simp [sizeEach]
      rw [hsize]
      refine changed.trans (done.changed.mono (Nat.le_refl _) ?_)
      simp only [size, sizeEach]
      omega
    · have held := done.holds
      rw [hrewriting] at held
      simpa [entriesEach] using held
    · by_cases hown : i = (sequence [item]).number first
      · -- the sequence lies behind the item, so its record was not made again
        have hbehind := number_succ first (sequence [item])
        have hsame := done.changed.node_eq i (by simp only [size, sizeEach] at hbehind ⊢; omega)
          (hown ▸ waiting.apart)
        rw [Tree.record?, hsame, hown, ← Tree.record?, hcleared] at hsome
        simp at hsome
      · have hbehind := number_succ first (sequence [item])
        simp only [size, sizeEach] at hlt hbehind
        have held := done.recorded i hle (by simp only [sizeEach]; omega) hsome
        rw [hrewriting] at held
        simpa [entriesEach] using held

/-- Any other sequence stays. -/
theorem covered_sequence {items : List Expr}
    (hstay : (static.rewriting && items.length == 1) = false)
    (h : ∀ e ∈ items, e.Covered static fuel) : (sequence items).Covered static (fuel + 1) := by
  intro scope ctx first
  simp only [entries, hstay, Bool.false_eq_true, if_false, check]
  refine covers_of_parts (unwrap_sequence hstay) (fun t ht => ?_) fun t =>
    covers_visitEach (fun e he first => h e he scope (ctx.forChild _) first) first t [] []
  simp only [Analysis.visit, ht, kindAt]
  rcases items with _ | ⟨item, _ | ⟨item', items⟩⟩
  · simp [placeEach, Kind.children]
  · have hrewriting : static.rewriting = false := by simpa using hstay
    simp [placeEach, hrewriting, Analysis.visitEach_singleton]
  · simp [placeEach, Kind.children]

/-- A predicate is analysed in a focus of its own, whatever the focus outside is. It is looked at
before it is analysed, while it stands as it was read. -/
theorem Covered.predicate {p : Expr} (h : p.Covered static fuel) (scope : List String)
    (ctx : AnalysisContext) (filter : ExprId) (first : Nat) :
    Covers (fun t => Analysis.visit static fuel scope
      (ctx.forPredicate filter (t.isPosition (p.number first))) (p.number first) t)
      static.rewriting (some filter) first [p] (p.check static scope true)
      (p.entries static.rewriting first (some filter)
        (some (ctx.forPredicate filter p.isPosition))) := by
  intro t pre post waiting
  have covered := h scope (ctx.forPredicate filter p.isPosition) first
  simp only [AnalysisContext.parent_forPredicate, AnalysisContext.focus_forPredicate,
    Option.isSome_some] at covered
  simpa only [waiting.isPosition_eq] using covered t pre post waiting

theorem covered_filter {input : Expr} {predicates : List Expr} (hi : input.Covered static fuel)
    (hp : ∀ p ∈ predicates, p.Covered static fuel) :
    (filter input predicates).Covered static (fuel + 1) := by
  intro scope ctx first
  simp only [entries, check]
  generalize hid : number first (filter input predicates) = id
  have hinput := hi scope (ctx.forChild id) first
  have hpredicates := fun p hmem first' => (hp p hmem).predicate scope ctx id first'
  subst hid
  refine covers_of_parts rfl (fun t ht => ?_) fun t =>
    hinput.cons (covers_visitEach (f := fun p t => Analysis.visit static fuel scope
      (ctx.forPredicate (number first (filter input predicates)) (t.isPosition p)) p t)
      hpredicates (first + input.size)) t [] []
  simp only [Analysis.visit, ht, kindAt, place_false]

/-- The condition of a `for` is analysed in a focus of its own, the body in the one outside; both
see the variable. -/
theorem covered_forEach {x : QName} {input body : Expr} {condition : Option Expr}
    (hi : input.Covered static fuel) (hc : ∀ c ∈ condition, c.Covered static fuel)
    (hb : body.Covered static fuel) :
    (forEach x input condition body).Covered static (fuel + 1) := by
  intro scope ctx first
  -- the variable is in scope in condition and body, but not in the input
  cases condition with
  | none =>
    simp only [entries, check]
    have hinput := hi scope (ctx.forChild (number first (forEach x input none body))) first
    have hbody := hb (x.text :: scope) (ctx.forChild (number first (forEach x input none body)))
      (first + input.size)
    refine covers_of_parts rfl (fun t ht => ?_) fun t => hinput.cons hbody t [] []
    simp [ht, place_false, sizeEach, Analysis.visitEach, Analysis.andThen]
  | some c =>
    simp only [entries, check]
    have hinput := hi scope (ctx.forChild (number first (forEach x input (some c) body))) first
    have hcondition := hc c rfl (x.text :: scope)
      (ctx.forWhere (number first (forEach x input (some c) body))) (first + input.size)
    have hbody := hb (x.text :: scope)
      (ctx.forChild (number first (forEach x input (some c) body))) (first + input.size + c.size)
    refine covers_of_parts rfl (fun t ht => ?_) fun t =>
      hinput.cons (hcondition.cons hbody) t [] []
    simp [ht, place_false, sizeEach, Analysis.visitEach_singleton, Nat.add_assoc]

/-- Two operands are covered one after the other. -/
theorem Covered.operands {l r : Expr} (hl : l.Covered static fuel) (hr : r.Covered static fuel)
    (scope : List String) (ctx : AnalysisContext) (first : Nat) (id : ExprId) :
    Covers (Analysis.visitEach (Analysis.visit static fuel scope (ctx.forChild id))
        [l.number first, r.number (first + l.size)]) static.rewriting (some id) first [l, r]
      ((l.check static scope ctx.focus.isSome).or (r.check static scope ctx.focus.isSome))
      (l.entries static.rewriting first (some id) (some (ctx.forChild id)) ++
        r.entries static.rewriting (first + l.size) (some id) (some (ctx.forChild id))) := by
  intro t pre post waiting
  have left := hl scope (ctx.forChild id) first
  have right := hr scope (ctx.forChild id) (first + l.size)
  rw [Analysis.visitEach, Analysis.visitEach_singleton]
  exact left.cons right t pre post waiting

theorem covered_call {name : QName} {arguments : List Expr} (hres : (call name arguments).Resolved)
    (h : ∀ a ∈ arguments, a.Covered static fuel) :
    (call name arguments).Covered static (fuel + 1) := by
  intro scope ctx first
  simp only [Resolved] at hres
  rcases hres with ⟨⟨f, hf, -⟩, -⟩
  simp only [entries, check, hf]
  have covered := fun a ha first' =>
    h a ha scope (ctx.forChild (number first (call name arguments))) first'
  refine covers_of_parts rfl (fun t ht => ?_) fun t waiting =>
    covers_call ctx.focus.isSome covered first waiting f
  simp only [Analysis.visit, ht, kindAt, hf]

end Construct

theorem resolved_of_mem_parts {e p : Expr} (h : e.Resolved) (hp : p ∈ e.parts) : p.Resolved := by
  cases e with
  | literal | var | contextItem => simp [parts] at hp
  | sequence items => exact resolvedEach_iff.1 h p hp
  | filter input predicates =>
    simp only [Resolved, resolvedEach_iff] at h
    rcases List.mem_cons.1 hp with rfl | hp
    · exact h.1
    · exact h.2 p hp
  | forEach x input condition body =>
    cases condition with
    | none =>
      simp only [parts, Option.toList, List.nil_append, List.mem_cons, List.not_mem_nil,
        or_false] at hp
      rcases hp with rfl | rfl
      · exact h.1
      · exact h.2
    | some c =>
      simp only [parts, Option.toList, List.cons_append, List.nil_append, List.mem_cons,
        List.not_mem_nil, or_false] at hp
      rcases hp with rfl | rfl | rfl
      · exact h.1
      · exact h.2.1
      · exact h.2.2
  | compare op l r | connect op l r | combine op l r =>
    simp only [parts, List.mem_cons, List.not_mem_nil, or_false] at hp
    rcases hp with rfl | rfl
    · exact h.1
    · exact h.2
  | call name arguments =>
    simp only [Resolved, resolvedEach_iff] at h
    exact h.2 p hp

/-- Fuel for each of its expressions is enough to analyse an expression. -/
theorem covered_of_size_le (static : StaticContext) (e : Expr) :
    ∀ fuel, e.size ≤ fuel → e.Resolved → e.Covered static fuel := by
  induction e using Expr.ind_parts with
  | h e ih =>
    intro fuel hfuel hres
    -- one unit is spent on the expression itself, the rest on its parts
    rw [size_eq] at hfuel
    rcases Nat.exists_eq_add_of_le' (Nat.le_of_add_left_le hfuel) with ⟨fuel, rfl⟩
    have covered : ∀ p ∈ e.parts, p.Covered static fuel := by
      intro p hp
      have hsize := size_le_sizeEach hp
      exact ih p hp fuel (by omega) (resolved_of_mem_parts hres hp)
    cases e with
    | literal v => exact covered_literal v
    | var x => exact covered_var x
    | contextItem => exact covered_contextItem
    -- one item alone is left out if this is wanted; any other sequence is walked part by part
    | sequence items =>
      cases hr : static.rewriting && items.length == 1 with
      | true =>
        obtain ⟨hrewriting, hlen⟩ : static.rewriting = true ∧ items.length = 1 := by simpa using hr
        rcases List.length_eq_one_iff.1 hlen with ⟨item, rfl⟩
        exact covered_inlined hrewriting (covered item List.mem_cons_self)
      | false => exact covered_sequence hr covered
    | filter input predicates =>
      have hpredicates := fun p hp => covered p (List.mem_cons_of_mem input hp)
      exact covered_filter (covered input List.mem_cons_self) hpredicates
    | forEach x input condition body =>
      have hcondition : ∀ c ∈ condition, c.Covered static fuel := by
        intro c hc
        rw [Option.mem_def] at hc
        exact covered c (by simp [parts, hc])
      exact covered_forEach (covered input (by simp [parts])) hcondition
        (covered body (by simp [parts]))
    | compare op l r | connect op l r | combine op l r =>
      have left := covered l (by simp [parts])
      have right := covered r (by simp [parts])
      -- operands of operators are walked alike, whatever the operator
      intro scope ctx first
      simp only [entries]
      refine covers_of_parts rfl (fun t ht => ?_) fun t =>
        left.operands right scope ctx first _ t [] []
      simp [Analysis.visit, ht, kindAt, place_false, Kind.children]
    | call name arguments => exact covered_call hres covered

end Expr

/-! ## Compiled queries -/

/-- A tree that holds just this expression, analysed. -/
structure Expr.Represents (e : Expr) (rewriting : Bool) (t : Tree) : Prop where
  holds : t.Holds (e.entries rewriting 0 none (some {}))
  root_eq : t.root = some (e.place rewriting 0)
  size_eq : t.size = e.size
  /-- Only what belongs to the expression has a record. -/
  recorded : ∀ i : Nat, (t.record? i).isSome = true →
    ∃ x ∈ e.entries rewriting 0 none (some {}), x.1 = i

theorem Tree.node?_clearRecords (t : Tree) (i : ExprId) :
    t.clearRecords.node? i = (t.node? i).map fun n => { n with record := none } := by
  simp [clearRecords, node?]

theorem Expr.resolved_of_tree {e : Expr} {t : Tree} (h : e.tree = .ok t) : e.Resolved :=
  (lowered_of_tree h).2.2.2

@[simp] theorem Tree.size_clearRecords (t : Tree) : t.clearRecords.size = t.size := by
  simp [clearRecords, size]

/-- Without records, the tree of an expression is the expression waiting to be analysed. -/
theorem Expr.waiting_of_tree {e : Expr} {t : Tree} (h : e.tree = .ok t) :
    t.clearRecords.Waiting none [] [e] [] 0 := by
  rcases lowered_of_tree h with ⟨hroot, -, hholds, -⟩
  refine ⟨?_, ?_, fun i hi => by simp at hi, fun p hp => by simp at hp⟩
  · rw [entriesEach, entriesEach, List.append_nil]
    intro x hx
    rw [Tree.node?_clearRecords, hholds x hx, Option.map_some, ← e.record_of_mem_entries _ _ x hx]
  · simp [Tree.slots, Tree.clearRecords, hroot, placeEach, place_false]

/-- Analysing the tree of an expression finds what is wrong with the expression. -/
theorem Expr.meets_analyze {e : Expr} {t : Tree} (h : e.tree = .ok t) (static : StaticContext) :
    (t.analyze static).Meets (e.check static [] false) (e.Represents static.rewriting) := by
  -- the walk starts where the query was read, with no records and enough fuel
  rcases lowered_of_tree h with ⟨hroot, hsize, -, hres⟩
  have waiting := waiting_of_tree h
  have hclear : t.clearRecords.size = e.size := (Tree.size_clearRecords t).trans hsize
  have covered := e.covered_of_size_le static e.size (Nat.le_refl _) hres [] {} 0 _ _ _ waiting
  have hanalyze : t.analyze static =
      Analysis.visit static e.size [] {} (e.number 0) t.clearRecords := by
    have hcroot : t.clearRecords.root = some (e.number 0) := hroot
    simp only [Tree.analyze, hcroot, hclear]
  rw [hanalyze]
  refine covered.mono fun t' done => ?_
  have hsize' : t'.size = e.size := done.changed.size_eq.trans hclear
  refine ⟨done.holds, ?_, hsize', fun i hsome => ?_⟩
  · have hslots := done.slots_eq
    simpa [Tree.slots, placeEach, Option.toList_eq_singleton_iff] using hslots
  · have hlt : i < t'.size := Tree.lt_size_of_record? hsome
    exact done.recorded i (Nat.zero_le i) (by simp only [sizeEach]; omega) hsome

/-- A compiled query is what analysis left of the tree of the expression that was read. -/
theorem analyze_of_compile {source : String} {static : StaticContext} {q : CompiledQuery}
    (h : compile source static = .ok q) :
    ∃ e t, parse source = .ok e ∧ e.tree = .ok t ∧ t.analyze static = { tree := q.tree } := by
  unfold compile at h
  split at h
  · simp at h
  · next e hparse =>
    split at h
    · simp at h
    · next t htree =>
      split at h
      · next tree hanalyze =>
        obtain rfl := Except.ok.inj h
        exact ⟨e, t, hparse, htree, hanalyze⟩
      · simp at h

/-- What is known of a compiled query: it was read, nothing is wrong with it, and its tree is the
expression that was read. -/
theorem compile_eq_ok {source : String} {static : StaticContext} {q : CompiledQuery}
    (h : compile source static = .ok q) :
    ∃ e t, parse source = .ok e ∧ e.tree = .ok t ∧ e.check static [] false = none ∧
      e.Represents static.rewriting q.tree := by
  rcases analyze_of_compile h with ⟨e, t, hparse, htree, hanalyze⟩
  have meets := e.meets_analyze htree static
  rw [hanalyze] at meets
  exact ⟨e, t, hparse, htree, meets.error_eq.symm, meets.tree meets.error_eq.symm⟩

theorem exists_of_compile_isOk {source : String} {static : StaticContext}
    (h : (compile source static).isOk = true) : ∃ q, compile source static = .ok q := by
  cases hq : compile source static with
  | error e =>
    rw [hq] at h
    simp [Except.isOk, Except.toBool] at h
  | ok q => exact ⟨q, rfl⟩

/-- A query is compiled if it can be read and put into a tree and nothing is wrong with it. -/
theorem compile_of_check {source : String} {static : StaticContext} {e : Expr} {t : Tree}
    (hparse : parse source = .ok e) (htree : e.tree = .ok t)
    (hcheck : e.check static [] false = none) : ∃ q, compile source static = .ok q := by
  have meets := e.meets_analyze htree static
  have herror : (t.analyze static).error = none := meets.error_eq.trans hcheck
  rcases hanalyze : t.analyze static with ⟨tree, _ | err⟩
  · refine ⟨{ tree, static, source }, ?_⟩
    unfold compile
    rw [hparse]
    simp only [htree, hanalyze]
  · rw [hanalyze] at herror
    simp at herror

end DocBase.Query
