import DocBase.Proofs.Query.Checking
import Mathlib.Data.List.Nodup
/-!
# The shape of an arena

Expressions hang below one another as operands, predicates and conditions, and what an expression is
to the one above it decides the context it is analysed in. So what the arena holds for an expression
that stays can be told uniformly over its edges, and from that the shape of the whole arena. Main
statements:

* `Expr.entries_eq` — what the arena holds for an expression that stays, over its edges;
* `Expr.linked` — every child is held below its parent, in the context its edge gives it;
* `Expr.preorder_place` — the expressions under one are those the arena holds for it;
* `Expr.nodup_entries` — none of them is held twice.
-/

namespace DocBase.Query

/-! ## Edges of an arena -/

/-- What an expression is to the one above it. -/
inductive Role where
  | operand
  | predicate
  | condition
deriving DecidableEq, Repr

/-- Children in the order they are evaluated, each with what it is to the expression. -/
def Kind.edges : Kind → List (Role × ExprId)
  | .filter input predicates => (.operand, input) :: predicates.map (Role.predicate, ·)
  | .forEach _ input condition body =>
    (.operand, input) :: (condition.toList.map (Role.condition, ·) ++ [(.operand, body)])
  | k => k.children.map (Role.operand, ·)

theorem Kind.map_snd_edges (k : Kind) : k.edges.map Prod.snd = k.children := by
  cases k with
  | forEach x input condition body => cases condition <;> rfl
  | _ => simp [edges, children, Function.comp_def]

/-- The children of an expression with what they are to it. -/
def Tree.edges (t : Tree) (id : ExprId) : List (Role × ExprId) := ((t.kind? id).map Kind.edges).getD []

theorem Tree.map_snd_edges (t : Tree) (id : ExprId) :
    (t.edges id).map Prod.snd = t.children id := by
  simp only [edges, children]
  cases t.kind? id with
  | none => rfl
  | some k => exact k.map_snd_edges

theorem Tree.edges_of_node? {t : Tree} {id : ExprId} {n : TreeNode} (h : t.node? id = some n) :
    t.edges id = n.kind.edges := by
  simp [edges, kind?, h]

theorem Tree.mem_children_iff {t : Tree} {id c : ExprId} :
    c ∈ t.children id ↔ ∃ role, (role, c) ∈ t.edges id := by
  rw [← t.map_snd_edges, List.mem_map]
  constructor
  · rintro ⟨⟨role, c⟩, hc, rfl⟩
    exact ⟨role, hc⟩
  · rintro ⟨role, hc⟩
    exact ⟨_, hc, rfl⟩

/-- The context that is handed down an edge. A predicate may be a position. -/
def AnalysisContext.down (c : AnalysisContext) (above : ExprId) (isPosition : Bool) :
    Role → AnalysisContext
  | .operand => c.forChild above
  | .predicate => c.forPredicate above isPosition
  | .condition => c.forWhere above

@[simp] theorem AnalysisContext.parent_down (c : AnalysisContext) (above : ExprId)
    (isPosition : Bool) (role : Role) : (c.down above isPosition role).parent = some above := by
  cases role with
  | predicate => exact parent_forPredicate _ _ _
  | _ => rfl

/-! ## Edges of an expression -/

/-- A part of an expression: what it is to the expression, and the first number given to it. -/
structure Edge where
  role : Role
  part : Expr
  first : Nat

namespace Edge

/-- Where the part stands in the arena. -/
def place (rewriting : Bool) (d : Edge) : ExprId := d.part.place rewriting d.first

@[simp] theorem place_mk (rewriting : Bool) (role : Role) (e : Expr) (first : Nat) :
    (Edge.mk role e first).place rewriting = e.place rewriting first := rfl

/-- What the arena holds for the part below `above`, which has this record. -/
def entries (rewriting : Bool) (above : ExprId) (record : Option AnalysisContext) (d : Edge) :
    List (Nat × TreeNode) :=
  d.part.entries rewriting d.first (some above)
    (record.map (·.down above d.part.isPosition d.role))

end Edge

/-- Parts are numbered one after another. -/
def numberEdges : Nat → List (Role × Expr) → List Edge
  | _, [] => []
  | first, (role, e) :: parts => ⟨role, e, first⟩ :: numberEdges (first + e.size) parts

/-- The parts of an expression with what they are to it. -/
def Expr.roles : Expr → List (Role × Expr)
  | .filter input predicates => (.operand, input) :: predicates.map (Role.predicate, ·)
  | .forEach _ input condition body =>
    (.operand, input) :: (condition.toList.map (Role.condition, ·) ++ [(.operand, body)])
  | e => e.parts.map (Role.operand, ·)

/-- The edges of an expression whose parts are numbered from `first` on. -/
def Expr.edges (first : Nat) (e : Expr) : List Edge := numberEdges first e.roles

theorem Expr.map_snd_roles (e : Expr) : e.roles.map Prod.snd = e.parts := by
  cases e with
  | forEach x input condition body => cases condition <;> rfl
  | _ => simp [roles, parts, Function.comp_def]

theorem map_part_numberEdges (first : Nat) (parts : List (Role × Expr)) :
    (numberEdges first parts).map Edge.part = parts.map Prod.snd := by
  induction parts generalizing first with
  | nil => rfl
  | cons x parts ih => simp [numberEdges, ih]

theorem Expr.map_part_edges (first : Nat) (e : Expr) : (e.edges first).map Edge.part = e.parts := by
  rw [edges, map_part_numberEdges, map_snd_roles]

theorem Expr.part_mem {e : Expr} {first : Nat} {d : Edge} (h : d ∈ e.edges first) :
    d.part ∈ e.parts := by
  rw [← map_part_edges first]
  exact List.mem_map_of_mem h

/-- Each part has a range of numbers to itself, behind those of the parts before it. -/
theorem ranges_numberEdges (first : Nat) (parts : List (Role × Expr)) :
    (numberEdges first parts).Pairwise (fun d d' => d.first + d.part.size ≤ d'.first) ∧
      ∀ d ∈ numberEdges first parts,
        first ≤ d.first ∧ d.first + d.part.size ≤ first + sizeEach (parts.map Prod.snd) := by
  induction parts generalizing first with
  | nil => simp [numberEdges]
  | cons x parts ih =>
    rcases ih (first + x.2.size) with ⟨apart, within⟩
    simp only [numberEdges, List.map_cons, sizeEach]
    refine ⟨List.pairwise_cons.2 ⟨fun d hd => (within d hd).1, apart⟩, fun d hd => ?_⟩
    rcases List.mem_cons.1 hd with rfl | hd
    · dsimp only
      omega
    · have := within d hd
      omega

/-- So the places of parts ascend. -/
theorem ascending_placeEach (rewriting : Bool) (first : Nat) (es : List Expr) :
    (placeEach rewriting first es).Pairwise (· < ·) := by
  induction es generalizing first with
  | nil => exact List.Pairwise.nil
  | cons e es ih =>
    refine List.pairwise_cons.2 ⟨fun i hi => ?_, ih _⟩
    exact Nat.lt_of_lt_of_le (e.place_within rewriting first).2 (mem_placeEach_within hi).1

section Edges

variable {rewriting : Bool} {above : ExprId} {record : Option AnalysisContext}

theorem map_place_numberEdges (role : Role) (es : List Expr) (first : Nat) :
    (numberEdges first (es.map (role, ·))).map (fun d => (d.role, d.place rewriting)) =
      (placeEach rewriting first es).map (role, ·) := by
  induction es generalizing first with
  | nil => rfl
  | cons e es ih => simp [numberEdges, placeEach, ih]

theorem flatMap_entries_numberEdges (role : Role) (es : List Expr) (first : Nat) :
    (numberEdges first (es.map (role, ·))).flatMap (Edge.entries rewriting above record) =
      entriesEach rewriting first (some above)
        (fun e => record.map (·.down above e.isPosition role)) es := by
  induction es generalizing first with
  | nil => rfl
  | cons e es ih => simp [numberEdges, entriesEach, Edge.entries, ih]

namespace Expr

/-- The edges in the arena are those of the expression, between places. -/
theorem edges_kindAt (rewriting : Bool) (first : Nat) (e : Expr) :
    (e.kindAt rewriting first).edges =
      (e.edges first).map fun d => (d.role, d.place rewriting) := by
  cases e with
  | filter input predicates =>
    simp [kindAt, Kind.edges, edges, roles, numberEdges, map_place_numberEdges]
  | forEach x input condition body =>
    cases condition <;> simp [kindAt, Kind.edges, edges, roles, numberEdges, sizeEach]
  | call name arguments =>
    simp only [kindAt, edges, roles, parts, map_place_numberEdges]
    split <;> rfl
  | _ =>
    simp [kindAt, Kind.edges, Kind.children, edges, roles, parts, numberEdges,
      map_place_numberEdges]

/-- An expression that stays is held above its parts. -/
theorem entries_eq {e : Expr} (hstay : e.unwrap rewriting = e) (first : Nat)
    (parent : Option ExprId) (record : Option AnalysisContext) :
    e.entries rewriting first parent record =
      (e.number first, ⟨e.kindAt rewriting first, parent, record⟩) ::
        (e.edges first).flatMap (Edge.entries rewriting (e.number first) record) := by
  -- in each construct the parts stand in the order of their numbers
  cases e with
  | sequence items =>
    simp [entries, not_singleton_of_unwrap hstay, edges, roles, parts, flatMap_entries_numberEdges,
      AnalysisContext.down]
  | filter input predicates =>
    simp [entries, edges, roles, numberEdges, flatMap_entries_numberEdges, Edge.entries,
      AnalysisContext.down]
  | forEach x input condition body =>
    cases condition <;>
      simp [entries, edges, roles, numberEdges, Edge.entries, AnalysisContext.down]
  | _ =>
    simp [entries, edges, roles, parts, numberEdges, flatMap_entries_numberEdges, Edge.entries,
      AnalysisContext.down]

/-- Of a one-item sequence that is left out only the item is held. -/
theorem entries_inlined (item : Expr) (first : Nat) (parent : Option ExprId)
    (record : Option AnalysisContext) :
    (sequence [item]).entries true first parent record =
      item.entries true first parent record := by
  simp [entries, entriesEach]

theorem place_of_stays {e : Expr} (hstay : e.unwrap rewriting = e) (first : Nat) :
    e.place rewriting first = e.number first := by
  rw [place, hstay]

theorem place_inlined (item : Expr) (first : Nat) :
    (sequence [item]).place true first = item.place true first := by
  rw [place, unwrap_singleton, place]

end Expr

end Edges

/-! ## What is held for an expression -/

section Entries

variable {rewriting : Bool} {first : Nat} {parent : Option ExprId} {record : Option AnalysisContext}

/-- At the place of an expression stands what is left of it. -/
theorem Expr.entry_place (e : Expr) :
    (e.place rewriting first, ⟨(e.unwrap rewriting).kindAt rewriting first, parent, record⟩) ∈
      e.entries rewriting first parent record := by
  induction e using Expr.ind_unwrap rewriting with
  | stays e hstay ih =>
    rw [entries_eq hstay, place_of_stays hstay, hstay]
    exact List.mem_cons_self
  | inlined item hr ih =>
    subst hr
    rw [entries_inlined, place_inlined, unwrap_singleton]
    exact ih

/-- Where an edge leads stands a child in the context of that edge. -/
theorem Edge.entry_place (rewriting : Bool) (above : ExprId) (record : Option AnalysisContext)
    (d : Edge) :
    ∃ kind, (d.place rewriting,
      ⟨kind, some above, record.map (·.down above d.part.isPosition d.role)⟩) ∈
        d.entries rewriting above record :=
  ⟨_, d.part.entry_place⟩

/-- What is held for the parts of an expression that stays is held for the expression. -/
theorem Expr.entries_edge_subset {e : Expr} (hstay : e.unwrap rewriting = e) {d : Edge}
    (hd : d ∈ e.edges first) : d.entries rewriting (e.number first) record ⊆
      e.entries rewriting first parent record := by
  intro x hx
  rw [entries_eq hstay]
  exact List.mem_cons_of_mem _ (List.mem_flatMap.2 ⟨d, hd, hx⟩)

/-- Everything that is held is some expression that stays, with all that is held for it. -/
theorem Expr.stays_of_mem_entries {e : Expr} {x : Nat × TreeNode}
    (hx : x ∈ e.entries rewriting first parent record) :
    ∃ (p : Expr) (first' : Nat) (parent' : Option ExprId) (record' : Option AnalysisContext),
      x = (p.number first', ⟨p.kindAt rewriting first', parent', record'⟩) ∧
      p.unwrap rewriting = p ∧ (e.Resolved → p.Resolved) ∧
      p.entries rewriting first' parent' record' ⊆ e.entries rewriting first parent record := by
  induction e using Expr.ind_unwrap rewriting generalizing first parent record with
  | stays e hstay ih =>
    rw [entries_eq hstay, List.mem_cons, List.mem_flatMap] at hx
    rcases hx with rfl | ⟨d, hd, hx⟩
    · -- it is the entry of the expression itself
      exact ⟨e, first, parent, record, rfl, hstay, id, List.Subset.refl _⟩
    · rcases ih d.part (part_mem hd) hx with ⟨p, first', parent', record', hxp, hp, hres, hsub⟩
      have hparts := fun h => hres (resolved_of_mem_parts h (part_mem hd))
      refine ⟨p, first', parent', record', hxp, hp, hparts, ?_⟩
      exact List.Subset.trans hsub (entries_edge_subset hstay hd)
  -- the item is what is left of the sequence
  | inlined item hr ih =>
    subst hr
    rw [entries_inlined] at hx ⊢
    rcases ih hx with ⟨p, first', parent', record', hxp, hp, hres, hsub⟩
    have hitem := fun h : (sequence [item]).Resolved =>
      hres (resolved_of_mem_parts h (by simp [parts]))
    exact ⟨p, first', parent', record', hxp, hp, hitem, hsub⟩

/-- Every child is held below its parent, in the context its edge gives it. -/
theorem Expr.linked {e : Expr} {x : Nat × TreeNode}
    (hx : x ∈ e.entries rewriting first parent record) {role : Role} {c : ExprId}
    (hc : (role, c) ∈ x.2.kind.edges) :
    ∃ y ∈ e.entries rewriting first parent record, y.1 = c ∧ y.2.parent = some x.1 ∧
      ∃ isPosition, y.2.record = x.2.record.map (·.down x.1 isPosition role) := by
  rcases stays_of_mem_entries hx with ⟨p, first', parent', record', rfl, hp, -, hsub⟩
  simp only [edges_kindAt, List.mem_map, Prod.mk.injEq] at hc
  rcases hc with ⟨d, hd, rfl, rfl⟩
  rcases d.entry_place rewriting (p.number first') record' with ⟨kind, hchild⟩
  have below := hsub (entries_edge_subset hp hd hchild)
  exact ⟨_, below, rfl, rfl, d.part.isPosition, rfl⟩

/-- Children come in order, before their parent. -/
theorem Expr.ordered {e : Expr} {x : Nat × TreeNode}
    (hx : x ∈ e.entries rewriting first parent record) :
    x.2.kind.children.Pairwise (· < ·) ∧ ∀ c ∈ x.2.kind.children, c < x.1 := by
  rcases stays_of_mem_entries hx with ⟨p, first', parent', record', rfl, hp, -, hsub⟩
  rw [children_kindAt]
  exact ⟨ascending_placeEach _ _ _, fun c hc => (mem_placeEach_within hc).2⟩

/-- No number is given twice. -/
theorem Expr.nodup_entries (e : Expr) :
    ((e.entries rewriting first parent record).map Prod.fst).Nodup := by
  induction e using Expr.ind_unwrap rewriting generalizing first parent record with
  | stays e hstay ih =>
    rcases ranges_numberEdges first e.roles with ⟨apart, within⟩
    rw [map_snd_roles] at within
    have range : ∀ (d : Edge) (i : Nat),
        i ∈ (d.entries rewriting (e.number first) record).map Prod.fst →
        d.first ≤ i ∧ i < d.first + d.part.size := by
      intro d i hi
      rcases List.mem_map.1 hi with ⟨x, hx, rfl⟩
      exact d.part.within_of_mem_entries rewriting _ _ _ x hx
    rw [entries_eq hstay, List.map_cons, List.nodup_cons, List.map_flatMap]
    constructor
    · -- its own number is behind those of its parts
      intro hmem
      rcases List.mem_flatMap.1 hmem with ⟨d, hd, hi⟩
      have := range d _ hi
      have := within d hd
      dsimp only [number] at *
      omega
    · -- ranges of different parts do not overlap
      refine List.nodup_flatMap.2 ⟨fun d hd => ih d.part (part_mem hd), apart.imp ?_⟩
      intro d d' hle i hi hi'
      have := range d i hi
      have := range d' i hi'
      omega
  | inlined item hr ih =>
    subst hr
    rw [entries_inlined]
    exact ih

end Entries

/-! ## Expressions under one another -/

namespace Tree

variable {t : Tree}

/-- What holds of an expression and is handed down to children holds of all expressions under it. -/
theorem preorder_ind {motive : ExprId → Prop} {n : Nat} {r : ExprId} (top : motive r)
    (child : ∀ p c, motive p → c ∈ t.children p → motive c) : ∀ id ∈ t.preorder n r, motive id := by
  induction n generalizing r with
  | zero => simp [preorder]
  | succ n ih =>
    intro id h
    rw [preorder, List.mem_cons, List.mem_flatMap] at h
    rcases h with rfl | ⟨c, hc, hid⟩
    · exact top
    · exact ih (child r c top hc) id hid

/-- The same from the root on. -/
theorem reachable_ind {motive : ExprId → Prop} (top : ∀ r, t.root = some r → motive r)
    (child : ∀ p c, motive p → c ∈ t.children p → motive c) : ∀ id ∈ t.reachable, motive id := by
  unfold reachable
  split
  · next r hr => exact preorder_ind (top r hr) child
  · simp

/-- The parent an expression is linked to. -/
def parent? (t : Tree) (id : ExprId) : Option ExprId := (t.node? id).bind TreeNode.parent

end Tree

namespace Expr

theorem children_of_stays {t : Tree} {rewriting : Bool} {first : Nat} {parent : Option ExprId}
    {record : Option AnalysisContext} {e : Expr} (hstay : e.unwrap rewriting = e)
    (h : t.Holds (e.entries rewriting first parent record)) :
    t.children (e.number first) = (e.edges first).map (Edge.place rewriting) := by
  have hnode := node?_place h
  rw [place_of_stays hstay, hstay] at hnode
  rw [Tree.children_of_node? hnode, ← Kind.map_snd_edges, edges_kindAt, List.map_map]
  rfl

/-- The expressions under a place are those that are held for the expression. -/
theorem preorder_place {t : Tree} {rewriting : Bool} (e : Expr) :
    ∀ (n first : Nat) (parent : Option ExprId) (record : Option AnalysisContext),
      t.Holds (e.entries rewriting first parent record) → e.size ≤ n →
      t.preorder n (e.place rewriting first) =
        (e.entries rewriting first parent record).map Prod.fst := by
  induction e using ind_unwrap rewriting with
  | stays e hstay ih =>
    intro n first parent record held hn
    rw [size_eq] at hn
    rcases Nat.exists_eq_add_of_le' (Nat.le_of_add_left_le hn) with ⟨n, rfl⟩
    rw [place_of_stays hstay, Tree.preorder, children_of_stays hstay held, entries_eq hstay,
      List.map_cons, List.map_flatMap, List.flatMap_map]
    congr 1
    refine List.flatMap_congr fun d hd => ?_
    have hsize := size_le_sizeEach (part_mem hd)
    -- the entries of a part are among those that are held, and it is smaller
    refine ih d.part (part_mem hd) n d.first _ _ (fun x hx => ?_) (by omega)
    exact held x (entries_edge_subset hstay hd hx)
  | inlined item hr ih =>
    intro n first parent record held hn
    subst hr
    rw [entries_inlined] at held ⊢
    rw [place_inlined]
    simp only [size, sizeEach] at hn
    exact ih n first parent record held (by omega)

/-- What stays with rewriting is no sequence of one item. -/
theorem kindAt_ne_singleton {e : Expr} (hstay : e.unwrap true = e) (hres : e.Resolved) (first : Nat)
    (item : ExprId) : e.kindAt true first ≠ .sequence [item] := by
  cases e with
  | sequence items =>
    have hlen := not_singleton_of_unwrap hstay
    rcases items with _ | ⟨p, _ | ⟨p', items⟩⟩
    · simp [kindAt, placeEach]
    · simp at hlen
    · simp [kindAt, placeEach]
  | call name arguments =>
    -- a call that was not resolved would be held as a sequence
    rcases hres with ⟨⟨f, hf, -⟩, -⟩
    simp [kindAt, hf]
  | _ => simp [kindAt]

namespace Represents

variable {e : Expr} {rewriting : Bool} {t : Tree}

theorem reachable_eq (h : e.Represents rewriting t) :
    t.reachable = (e.entries rewriting 0 none (some {})).map Prod.fst := by
  rw [Tree.reachable, h.root_eq]
  exact e.preorder_place t.size 0 none (some {}) h.holds (Nat.le_of_eq h.size_eq.symm)

theorem mem_reachable_iff (h : e.Represents rewriting t) {id : ExprId} :
    id ∈ t.reachable ↔
      ∃ x ∈ e.entries rewriting 0 none (some {}), x.1 = id ∧ t.node? id = some x.2 := by
  rw [h.reachable_eq, List.mem_map]
  constructor
  · rintro ⟨x, hx, rfl⟩
    exact ⟨x, hx, rfl, h.holds x hx⟩
  · rintro ⟨x, hx, rfl, -⟩
    exact ⟨x, hx, rfl⟩

theorem nodup_reachable (h : e.Represents rewriting t) : t.reachable.Nodup := by
  rw [h.reachable_eq]
  exact e.nodup_entries

/-- The root is held where the expression stands, and it stands below nothing. -/
theorem root (h : e.Represents rewriting t) {r : ExprId} (hr : t.root = some r) :
    r ∈ t.reachable ∧ t.parent? r = none ∧ t.record? r = some {} := by
  obtain rfl : e.place rewriting 0 = r := Option.some.inj (h.root_eq.symm.trans hr)
  have hnode := h.holds _ e.entry_place
  refine ⟨h.mem_reachable_iff.2 ⟨_, e.entry_place, rfl, hnode⟩, ?_, ?_⟩
  · simp [Tree.parent?, hnode]
  · simp [Tree.record?, hnode]

/-- What stands below an expression that is reached. -/
theorem below (h : e.Represents rewriting t) {p c : ExprId} {role : Role} (hp : p ∈ t.reachable)
    (hc : (role, c) ∈ t.edges p) :
    c ∈ t.reachable ∧ t.parent? c = some p ∧
      ∃ isPosition, t.record? c = (t.record? p).map (·.down p isPosition role) := by
  rcases h.mem_reachable_iff.1 hp with ⟨x, hx, rfl, hnode⟩
  rw [Tree.edges_of_node? hnode] at hc
  rcases linked hx hc with ⟨y, hy, rfl, hparent, isPosition, hrecord⟩
  have hchild := h.holds y hy
  refine ⟨h.mem_reachable_iff.2 ⟨y, hy, rfl, hchild⟩, ?_, isPosition, ?_⟩
  · simp [Tree.parent?, hchild, hparent]
  · simp [Tree.record?, hchild, hnode, hrecord]

/-- What holds of the root and is handed down every edge holds of all that is reached. -/
theorem ind (h : e.Represents rewriting t) {motive : ExprId → Prop}
    (top : ∀ r, t.root = some r → motive r)
    (child : ∀ p ∈ t.reachable, motive p → ∀ role c, (role, c) ∈ t.edges p → motive c) :
    ∀ id ∈ t.reachable, motive id := by
  suffices hall : ∀ id ∈ t.reachable, id ∈ t.reachable ∧ motive id from fun id hid => (hall id hid).2
  refine Tree.reachable_ind (fun r hr => ⟨(h.root hr).1, top r hr⟩) fun p c hp hc => ?_
  rcases Tree.mem_children_iff.1 hc with ⟨role, hedge⟩
  exact ⟨(h.below hp.1 hedge).1, child p hp.1 hp.2 role c hedge⟩

/-- Whatever is not the root is reached as a child. -/
theorem exists_parent (h : e.Represents rewriting t) :
    ∀ id ∈ t.reachable, t.root ≠ some id → ∃ p ∈ t.reachable, id ∈ t.children p := by
  refine h.ind (fun r hr hne => absurd hr hne) fun p hp _ role c hc _ => ?_
  exact ⟨p, hp, Tree.mem_children_iff.2 ⟨role, hc⟩⟩

/-- Children of an expression that is reached come in order, before it. -/
theorem ordered_children (h : e.Represents rewriting t) {p : ExprId} (hp : p ∈ t.reachable) :
    (t.children p).Pairwise (· < ·) ∧ ∀ c ∈ t.children p, c < p := by
  rcases h.mem_reachable_iff.1 hp with ⟨x, hx, rfl, hnode⟩
  rw [Tree.children_of_node? hnode]
  exact ordered hx

/-- Just the expressions that are reached have a record. -/
theorem record?_isSome_iff (h : e.Represents rewriting t) {id : ExprId} :
    (t.record? id).isSome = true ↔ id ∈ t.reachable := by
  constructor
  · intro hsome
    rcases h.recorded id hsome with ⟨x, hx, rfl⟩
    exact h.mem_reachable_iff.2 ⟨x, hx, rfl, h.holds x hx⟩
  · -- each has one if its parent has one
    suffices hall : ∀ i ∈ t.reachable, (t.record? i).isSome = true from hall id
    refine h.ind (fun r hr => ?_) fun p hp hsome role c hc => ?_
    · simp [(h.root hr).2.2]
    · rcases h.below hp hc with ⟨-, -, isPosition, hrecord⟩
      simp [hrecord, hsome]

/-- With rewriting, no sequence of one item is left. -/
theorem not_singleton (h : e.Represents true t) (hres : e.Resolved) {id item : ExprId}
    (hid : id ∈ t.reachable) : t.kind? id ≠ some (.sequence [item]) := by
  intro hkind
  rcases h.mem_reachable_iff.1 hid with ⟨x, hx, rfl, hnode⟩
  rcases stays_of_mem_entries hx with ⟨p, first, parent, record, rfl, hp, hpres, -⟩
  rw [Tree.kind?, hnode, Option.map_some, Option.some.injEq] at hkind
  exact kindAt_ne_singleton hp (hpres hres) first item hkind

end Represents
end Expr
end DocBase.Query
