import DocBase.Proofs.Query.Numbering
/-!
# Putting expressions into a tree

Adding an expression to a tree leaves what the arena held alone and enters the expression and its
parts behind it, under the numbers that were foretold. It succeeds only if every call names a
function and gives it a number of arguments that it takes. Main statement: `Expr.lowered_of_tree`.
-/

namespace DocBase.Query

mutual

/-- Every call names a function that takes so many arguments. -/
def Expr.Resolved : Expr → Prop
  | .literal _ | .var _ | .contextItem => True
  | .sequence items => ResolvedEach items
  | .filter input predicates => input.Resolved ∧ ResolvedEach predicates
  | .forEach _ input none body => input.Resolved ∧ body.Resolved
  | .forEach _ input (some c) body => input.Resolved ∧ c.Resolved ∧ body.Resolved
  | .compare _ l r | .connect _ l r | .combine _ l r => l.Resolved ∧ r.Resolved
  | .call name arguments =>
    (∃ f, Builtin.resolve? name.qualifier name.name = some f ∧ f.accepts arguments.length = true) ∧
      ResolvedEach arguments

def ResolvedEach : List Expr → Prop
  | [] => True
  | e :: es => e.Resolved ∧ ResolvedEach es

end

theorem resolvedEach_iff {es : List Expr} : ResolvedEach es ↔ ∀ e ∈ es, e.Resolved := by
  induction es with
  | nil => simp [ResolvedEach]
  | cons e es ih => simp [ResolvedEach, ih]

/-! ## Adding one expression -/

namespace Tree

theorem node?_foldl_setParent {cs : List ExprId} {i : ExprId} (h : i ∉ cs) (t : Tree)
    (p : Option ExprId) : (cs.foldl (fun t c => t.setParent c p) t).node? i = t.node? i := by
  induction cs generalizing t with
  | nil => rfl
  | cons c cs ih =>
    have hc : c ≠ i := fun hc => h (by simp [hc])
    have hcs : i ∉ cs := fun hm => h (List.mem_cons_of_mem _ hm)
    rw [List.foldl_cons, ih hcs, node?_setParent, if_neg hc]

theorem size_foldl_setParent (cs : List ExprId) (t : Tree) (p : Option ExprId) :
    (cs.foldl (fun t c => t.setParent c p) t).size = t.size := by
  induction cs generalizing t with
  | nil => rfl
  | cons c cs ih => rw [List.foldl_cons, ih, size_setParent]

theorem root_foldl_setParent (cs : List ExprId) (t : Tree) (p : Option ExprId) :
    (cs.foldl (fun t c => t.setParent c p) t).root = t.root := by
  induction cs generalizing t with
  | nil => rfl
  | cons c cs ih => rw [List.foldl_cons, ih, root_setParent]

/-- An expression learns of its parent; nothing else in its entries changes. -/
theorem holds_setParent {t : Tree} {e : Expr} {first : Nat} {parent : Option ExprId}
    (h : t.Holds (e.entries false first parent none)) (p : Option ExprId) :
    (t.setParent (e.number first) p).Holds (e.entries false first p none) := by
  rw [Expr.entries_raw, holds_cons] at h ⊢
  refine ⟨by simp [node?_setParent, h.1], h.2.of_agree fun x hx => ?_⟩
  have hwithin := within_of_mem_entriesEach (fun e _ => e.within_of_mem_entries false) hx
  have hne : e.number first ≠ x.1 := by
    rw [Expr.number]
    omega
  rw [node?_setParent, if_neg hne]

/-- All of several expressions learn of their parent. -/
theorem holds_foldl_setParent {t : Tree} {es : List Expr} {first : Nat} {parent : Option ExprId}
    (h : t.Holds (entriesEach false first parent (fun _ => none) es)) (p : Option ExprId) :
    ((placeEach false first es).foldl (fun t c => t.setParent c p) t).Holds
      (entriesEach false first p (fun _ => none) es) := by
  induction es generalizing first t with
  | nil => simp [entriesEach]
  | cons e es ih =>
    simp only [entriesEach, holds_append] at h
    simp only [entriesEach, holds_append, placeEach, List.foldl_cons, Expr.place_false]
    have hsucc := e.number_succ first
    refine ⟨(holds_setParent h.1 p).of_agree fun x hx => ?_, ih (h.2.of_agree fun x hx => ?_)⟩
    · -- the others have their places behind this expression
      have hx := e.within_of_mem_entries false _ _ _ x hx
      refine node?_foldl_setParent (fun hm => ?_) _ _
      have hm := mem_placeEach_within hm
      omega
    · have hx := within_of_mem_entriesEach (fun e _ => e.within_of_mem_entries false) hx
      have hne : e.number first ≠ x.1 := by omega
      rw [node?_setParent, if_neg hne]

theorem size_push (t : Tree) (kind : Kind) : (t.push kind).2.size = t.size + 1 := by
  have hpush : (t.push kind).2.size =
      (kind.children.foldl (fun t' c => t'.setParent c (some t.size)) t).size + 1 :=
    Array.size_push _
  rw [hpush, size_foldl_setParent]

theorem root_push (t : Tree) (kind : Kind) : (t.push kind).2.root = t.root :=
  root_foldl_setParent kind.children t (some t.size)

theorem node?_push_self (t : Tree) (kind : Kind) :
    (t.push kind).2.node? t.size = some { kind } := by
  have hlinked := size_foldl_setParent kind.children t (some t.size)
  rw [← hlinked]
  simp [push, node?, size]

/-- Of the older expressions only the children change: they learn of their parent. -/
theorem node?_push {t : Tree} {i id : Nat} (hi : i < t.size) (hid : id = t.size)
    (kind : Kind) :
    (t.push kind).2.node? i =
      (kind.children.foldl (fun t c => t.setParent c (some id)) t).node? i := by
  subst hid
  have hlinked := size_foldl_setParent kind.children t (some t.size)
  rw [← hlinked, size] at hi
  simp [push, node?, Array.getElem?_push, Nat.ne_of_lt hi]

end Tree

/-! ## Adding all of an expression -/

/-- A step that adds expressions succeeds when both of its parts do. -/
theorem Adding.bind_eq_ok {α β : Type} {x : Adding α} {f : α → Adding β} {t t' : Tree} {b : β}
    (h : (x >>= f) t = .ok (b, t')) : ∃ a t₁, x t = .ok (a, t₁) ∧ f a t₁ = .ok (b, t') := by
  simp only [bind, StateT.bind, Except.bind] at h
  cases hx : x t with
  | error e => simp [hx] at h
  | ok r => exact ⟨r.1, r.2, rfl, by simpa [hx] using h⟩

/-- A step that adds nothing. -/
theorem Adding.pure_eq_ok {α : Type} {a b : α} {t t' : Tree}
    (h : (pure a : Adding α) t = .ok (b, t')) : a = b ∧ t = t' := by
  have hok : (.ok (a, t) : Except QueryError (α × Tree)) = .ok (b, t') := h
  rcases Prod.mk.inj (Except.ok.inj hok) with ⟨rfl, rfl⟩
  exact ⟨rfl, rfl⟩

/-- From `t` to `t'` the arena grew by some entries and kept those it had. -/
structure Tree.Grew (t t' : Tree) (added : List (Nat × TreeNode)) (n : Nat) : Prop where
  size_eq : t'.size = t.size + n
  root_eq : t'.root = t.root
  node_eq : ∀ i : Nat, i < t.size → t'.node? i = t.node? i
  holds : t'.Holds added

/-- An expression was added under the number `id`. -/
structure Expr.Lowered (e : Expr) (t : Tree) (id : ExprId) (t' : Tree) : Prop where
  id_eq : id = e.number t.size
  grew : t.Grew t' (e.entries false t.size none none) e.size
  resolved : e.Resolved

/-- Expressions were added one after another. -/
structure LoweredEach (es : List Expr) (t : Tree) (ids : List ExprId) (t' : Tree) : Prop where
  ids_eq : ids = placeEach false t.size es
  grew : t.Grew t' (entriesEach false t.size none (fun _ => none) es) (sizeEach es)
  resolved : ∀ e ∈ es, e.Resolved

namespace LoweredEach

theorem nil (t : Tree) : LoweredEach [] t [] t where
  ids_eq := rfl
  grew := ⟨by simp [sizeEach], rfl, fun _ _ => rfl, by simp [entriesEach]⟩
  resolved := by simp

theorem cons {e : Expr} {es : List Expr} {t t₁ t' : Tree} {id : ExprId} {ids : List ExprId}
    (head : e.Lowered t id t₁) (tail : LoweredEach es t₁ ids t') :
    LoweredEach (e :: es) t (id :: ids) t' where
  ids_eq := by
    rw [placeEach, Expr.place_false, head.id_eq, tail.ids_eq, head.grew.size_eq]
  grew := by
    have hsize := head.grew.size_eq
    refine ⟨?_, tail.grew.root_eq.trans head.grew.root_eq, fun i hi => ?_, ?_⟩
    · rw [tail.grew.size_eq, hsize, sizeEach, Nat.add_assoc]
    · -- entries of earlier expressions are not written to later on
      rw [tail.grew.node_eq i (by omega), head.grew.node_eq i hi]
    · rw [entriesEach, Tree.holds_append, ← hsize]
      refine ⟨head.grew.holds.of_agree fun x hx => tail.grew.node_eq x.1 ?_, tail.grew.holds⟩
      have := e.within_of_mem_entries false _ _ _ x hx
      omega
  resolved := by
    intro e' he
    rcases List.mem_cons.1 he with rfl | he
    · exact head.resolved
    · exact tail.resolved e' he

end LoweredEach

theorem Adding.push_eq_ok {kind : Kind} {t t' : Tree} {id : ExprId}
    (h : Adding.push kind t = .ok (id, t')) : id = t.size ∧ t' = (t.push kind).2 := by
  unfold Adding.push at h
  split at h
  · simp only [Except.ok.injEq, Tree.push, Prod.mk.injEq] at h
    exact ⟨h.1.symm, h.2.symm⟩
  · simp at h

/-- After its parts an expression is added by one push. -/
theorem Expr.lowered_of_push {e : Expr} {t t₁ t' : Tree} {ids : List ExprId} {id : ExprId}
    (parts : LoweredEach e.parts t ids t₁) (hres : e.Resolved) {kind : Kind}
    (hk : kind = e.kindAt false t.size) (h : Adding.push kind t₁ = .ok (id, t')) :
    e.Lowered t id t' := by
  rcases Adding.push_eq_ok h with ⟨rfl, rfl⟩
  have hsize := parts.grew.size_eq
  have hnumber : t₁.size = e.number t.size := by rw [hsize, number]
  have hchildren : kind.children = placeEach false t.size e.parts := by
    rw [hk, e.children_kindAt]
  refine ⟨hnumber, ⟨?_, ?_, ?_, ?_⟩, hres⟩
  · rw [Tree.size_push, hsize, e.size_eq, Nat.add_assoc]
  · rw [Tree.root_push, parts.grew.root_eq]
  · -- what was there before the parts is no child
    intro i hi
    have hout : i ∉ kind.children := by
      rw [hchildren]
      intro hm
      have := mem_placeEach_within hm
      omega
    rw [Tree.node?_push (by omega) rfl, Tree.node?_foldl_setParent hout, parts.grew.node_eq i hi]
  · -- the expression stands behind its parts
    rw [entries_raw, Tree.holds_cons, ← hnumber]
    constructor
    · rw [Tree.node?_push_self, hk]
    · -- the parts are held below no parent, and then below this one
      have held := Tree.holds_foldl_setParent parts.grew.holds (some t₁.size)
      rw [← hchildren] at held
      refine held.of_agree fun x hx => Tree.node?_push ?_ rfl kind
      have := within_of_mem_entriesEach (fun e _ => e.within_of_mem_entries false) hx
      omega

theorem loweredEach_of_addEach {es : List Expr}
    (h : ∀ e ∈ es, ∀ t id t', e.addTo t = .ok (id, t') → e.Lowered t id t')
    {t t' : Tree} {ids : List ExprId} (ht : addEach es t = .ok (ids, t')) :
    LoweredEach es t ids t' := by
  induction es generalizing t ids with
  | nil =>
    rw [addEach] at ht
    rcases Adding.pure_eq_ok ht with ⟨rfl, rfl⟩
    exact .nil t
  | cons e es ih =>
    simp only [addEach] at ht
    rcases Adding.bind_eq_ok ht with ⟨id, t₁, he, ht⟩
    rcases Adding.bind_eq_ok ht with ⟨rest, t₂, hes, ht⟩
    rcases Adding.pure_eq_ok ht with ⟨rfl, rfl⟩
    have head := h e (by simp) _ _ _ he
    have tail := ih (fun e he => h e (List.mem_cons_of_mem _ he)) hes
    exact .cons head tail

theorem Adding.resolve_eq_ok {name : QName} {n : Nat} {t t' : Tree} {f : Builtin}
    (h : Adding.resolve name n t = .ok (f, t')) :
    Builtin.resolve? name.qualifier name.name = some f ∧ f.accepts n = true ∧ t' = t := by
  unfold Adding.resolve at h
  cases hf : Builtin.resolve? name.qualifier name.name with
  | none => simp [hf, fail] at h
  | some g =>
    cases hn : g.accepts n with
    | false => simp [hf, hn, fail] at h
    | true =>
      simp only [hf, hn, if_true] at h
      rcases Adding.pure_eq_ok h with ⟨rfl, rfl⟩
      exact ⟨rfl, hn, rfl⟩

/-- Adding two expressions and then one over both. -/
theorem Expr.lowered_of_addTo_two {l r e : Expr} {t t₁ t₂ t' : Tree} {lid rid id : ExprId}
    {kind : Kind} (hl : l.Lowered t lid t₁) (hr : r.Lowered t₁ rid t₂) (hparts : e.parts = [l, r])
    (hres : l.Resolved ∧ r.Resolved → e.Resolved)
    (hk : lid = l.place false t.size → rid = r.place false (t.size + l.size) →
      kind = e.kindAt false t.size)
    (h : Adding.push kind t₂ = .ok (id, t')) : e.Lowered t id t' := by
  have parts : LoweredEach e.parts t [lid, rid] t₂ := hparts ▸ .cons hl (.cons hr (.nil t₂))
  refine lowered_of_push parts (hres ⟨hl.resolved, hr.resolved⟩) (hk ?_ ?_) h
  · rw [place_false, hl.id_eq]
  · rw [place_false, hr.id_eq, hl.grew.size_eq]

/-- What was added was added where it was foretold. -/
theorem Expr.lowered_of_addTo (e : Expr) :
    ∀ t id t', e.addTo t = .ok (id, t') → e.Lowered t id t' := by
  -- whatever the construct: its parts are added first, and then it is pushed over them
  induction e using Expr.ind with
  | literal | var | contextItem =>
    intro t id t' h
    rw [addTo] at h
    exact lowered_of_push (.nil t) (by simp [Resolved]) (by rfl) h
  | sequence items ih =>
    intro t id t' h
    rw [addTo] at h
    rcases Adding.bind_eq_ok h with ⟨ids, t₁, hitems, h⟩
    have parts := loweredEach_of_addEach ih hitems
    refine lowered_of_push parts ?_ ?_ h
    · simpa [Resolved, resolvedEach_iff] using parts.resolved
    · rw [kindAt, parts.ids_eq]
  | filter input predicates ihi ihp =>
    intro t id t' h
    rw [addTo] at h
    rcases Adding.bind_eq_ok h with ⟨iid, t₁, hinput, h⟩
    rcases Adding.bind_eq_ok h with ⟨pids, t₂, hpredicates, h⟩
    have hi := ihi _ _ _ hinput
    have hp := loweredEach_of_addEach ihp hpredicates
    refine lowered_of_push (.cons hi hp) ?_ ?_ h
    · simpa [Resolved, resolvedEach_iff] using ⟨hi.resolved, hp.resolved⟩
    · rw [kindAt, place_false, hi.id_eq, hp.ids_eq, hi.grew.size_eq]
  | forEach x input condition body ihi ihc ihb =>
    intro t id t' h
    rw [addTo] at h
    rcases Adding.bind_eq_ok h with ⟨iid, t₁, hinput, hrest⟩
    rcases Adding.bind_eq_ok hrest with ⟨cid, t₂, hcondition, hrest'⟩
    rcases Adding.bind_eq_ok hrest' with ⟨bid, t₃, hbody, hpush⟩
    have hi := ihi _ _ _ hinput
    have hb := ihb _ _ _ hbody
    -- a condition is added between the input and the body
    cases condition with
    | none =>
      rw [addOption] at hcondition
      rcases Adding.pure_eq_ok hcondition with ⟨rfl, rfl⟩
      refine lowered_of_push (.cons hi (.cons hb (.nil t₃))) ⟨hi.resolved, hb.resolved⟩ ?_ hpush
      simp [kindAt, place_false, hi.id_eq, hb.id_eq, hi.grew.size_eq, sizeEach]
    | some c =>
      simp only [addOption] at hcondition
      rcases Adding.bind_eq_ok hcondition with ⟨cid', t₄, hc, hcondition⟩
      rcases Adding.pure_eq_ok hcondition with ⟨rfl, rfl⟩
      have hc := ihc c rfl _ _ _ hc
      refine lowered_of_push (.cons hi (.cons hc (.cons hb (.nil t₃))))
        ⟨hi.resolved, hc.resolved, hb.resolved⟩ ?_ hpush
      simp [kindAt, place_false, hi.id_eq, hc.id_eq, hb.id_eq, hc.grew.size_eq, hi.grew.size_eq,
        sizeEach]
  | compare op l r ihl ihr | connect op l r ihl ihr | combine op l r ihl ihr =>
    intro t id t' h
    rw [addTo] at h
    rcases Adding.bind_eq_ok h with ⟨lid, t₁, hl, h⟩
    rcases Adding.bind_eq_ok h with ⟨rid, t₂, hr, h⟩
    refine lowered_of_addTo_two (ihl _ _ _ hl) (ihr _ _ _ hr) rfl ?_ ?_ h
    · simp [Resolved]
    · rintro rfl rfl
      rfl
  | call name arguments ih =>
    -- the name is resolved and the arguments are counted before any of them is added
    intro t id t' h
    rw [addTo] at h
    rcases Adding.bind_eq_ok h with ⟨f, t₀, hresolve, hrest⟩
    rcases Adding.resolve_eq_ok hresolve with ⟨hf, hn, rfl⟩
    rcases Adding.bind_eq_ok hrest with ⟨ids, t₁, harguments, hpush⟩
    have parts := loweredEach_of_addEach ih harguments
    refine lowered_of_push parts ?_ ?_ hpush
    · simpa [Resolved, resolvedEach_iff, hf, hn] using parts.resolved
    · simp [kindAt, hf, parts.ids_eq]

/-- The tree of an expression holds it and its parts, numbered from zero on, and nothing else. -/
theorem Expr.lowered_of_tree {e : Expr} {t : Tree} (h : e.tree = .ok t) :
    t.root = some (e.number 0) ∧ t.size = e.size ∧ t.Holds (e.entries false 0 none none) ∧
      e.Resolved := by
  unfold tree at h
  split at h
  · next root t₁ hadd =>
    obtain rfl := Except.ok.inj h
    have hlow := lowered_of_addTo e _ _ _ hadd
    have hid : root = e.number 0 := hlow.id_eq
    refine ⟨by simp [Tree.setRoot, hid], ?_, ?_, hlow.resolved⟩
    · have hsize := hlow.grew.size_eq
      simpa [Tree.setRoot, Tree.size, Tree.setParent] using hsize
    · rw [hid]
      exact Tree.holds_setParent hlow.grew.holds none
  · simp at h

end DocBase.Query
