import DocBase.Query.Tree
import Mathlib.Data.List.Basic
import Mathlib.Tactic.SplitIfs
/-!
# Changes to an arena

How the operations on a tree change the entries of its arena, and what it means that nothing else
changed. The children of an expression are held in slots; the root is held in one slot that belongs
to no expression. Main statements:

* `Kind.replaceChild?_eq` — replacing a child is replacing the first occurrence of its number in
  the list of children, whatever the expression;
* `Tree.replaceChild_spec` — what replacing a child does to the slots and to the arena;
* `Tree.ChangedOnly.trans` — what changed between two arenas adds up.
-/

namespace DocBase.Query

/-! ## Children -/

namespace Kind

/-- The same expression over other children; their number has to be right. -/
def withChildren : Kind → List ExprId → Kind
  | sequence _, cs => sequence cs
  | filter _ _, input :: predicates => filter input predicates
  | forEach x _ none _, [input, body] => forEach x input none body
  | forEach x _ (some _) _, [input, c, body] => forEach x input (some c) body
  | compare op _ _, [l, r] => compare op l r
  | connect op _ _, [l, r] => connect op l r
  | combine op _ _, [l, r] => combine op l r
  | call f _, cs => call f cs
  | k, _ => k

theorem withChildren_children (k : Kind) : k.withChildren k.children = k := by
  cases k with
  | forEach x input condition body => cases condition <;> rfl
  | _ => rfl

/-- A list of the right length has the shape that `withChildren` asks for. -/
theorem children_withChildren {k : Kind} {cs : List ExprId}
    (h : cs.length = k.children.length) : (k.withChildren cs).children = cs := by
  -- as many numbers as the expression has slots, so they fill the slots in order
  cases k with
  | literal | var | contextItem =>
    obtain rfl : cs = [] := List.length_eq_zero_iff.1 h
    rfl
  | sequence | call => rfl
  | filter input predicates =>
    cases cs with
    | nil => simp [children] at h
    | cons => rfl
  | forEach x input condition body =>
    cases condition with
    | none =>
      rcases List.length_eq_two.1 h with ⟨i, b, rfl⟩
      rfl
    | some c =>
      rcases List.length_eq_three.1 h with ⟨i, c', b, rfl⟩
      rfl
  | compare | connect | combine =>
    rcases List.length_eq_two.1 h with ⟨l, r, rfl⟩
    rfl

theorem withChildren_withChildren {k : Kind} {cs ds : List ExprId}
    (hc : cs.length = k.children.length) (hd : ds.length = k.children.length) :
    (k.withChildren cs).withChildren ds = k.withChildren ds := by
  cases k with
  | literal | var | contextItem =>
    obtain rfl : cs = [] := List.length_eq_zero_iff.1 hc
    rfl
  | sequence | call => rfl
  | filter input predicates =>
    cases cs with
    | nil => simp [children] at hc
    | cons =>
      cases ds with
      | nil => simp [children] at hd
      | cons => rfl
  | forEach x input condition body =>
    cases condition with
    | none =>
      rcases List.length_eq_two.1 hc with ⟨i, b, rfl⟩
      rcases List.length_eq_two.1 hd with ⟨i', b', rfl⟩
      rfl
    | some c =>
      rcases List.length_eq_three.1 hc with ⟨i, c₁, b, rfl⟩
      rcases List.length_eq_three.1 hd with ⟨i', c₂, b', rfl⟩
      rfl
  | compare | connect | combine =>
    rcases List.length_eq_two.1 hc with ⟨l, r, rfl⟩
    rcases List.length_eq_two.1 hd with ⟨l', r', rfl⟩
    rfl

end Kind

theorem replaceFirst?_append {old : ExprId} {pre : List ExprId} (h : old ∉ pre) (new : ExprId)
    (post : List ExprId) :
    replaceFirst? old new (pre ++ old :: post) = some (pre ++ new :: post) := by
  induction pre with
  | nil => simp [replaceFirst?]
  | cons c cs ih =>
    have hc : c ≠ old := fun hc => h (by simp [hc])
    have hcs : old ∉ cs := fun hm => h (List.mem_cons_of_mem _ hm)
    simp [replaceFirst?, hc, ih hcs]

/-- Replacing a child looks for it among the children in their order. -/
theorem Kind.replaceChild?_eq (k : Kind) (old new : ExprId) :
    k.replaceChild? old new = (replaceFirst? old new k.children).map k.withChildren := by
  cases k with
  | literal | var | contextItem => rfl
  | sequence | call => rfl
  | filter input predicates =>
    -- the input is tried first, and the predicates only if it is another expression
    by_cases hi : input = old
    · simp [replaceChild?, children, replaceFirst?, hi, withChildren]
    · simp only [replaceChild?, children, replaceFirst?, hi, if_false, Option.map_map]
      rfl
  | forEach x input condition body =>
    -- the variants try the slots of input, condition and body in this order
    cases condition with
    | none =>
      simp only [replaceChild?, children, Option.toList, List.nil_append, replaceFirst?]
      split_ifs <;> simp_all [withChildren]
    | some c =>
      simp only [replaceChild?, children, Option.toList, List.cons_append, List.nil_append,
        replaceFirst?, Option.some.injEq]
      split_ifs <;> simp_all [withChildren]
  | compare op l r | connect op l r | combine op l r =>
    simp only [replaceChild?, children, replaceFirst?]
    split_ifs <;> simp [withChildren]

namespace Tree

/-! ## Entries of the arena -/

@[simp] theorem size_setParent (t : Tree) (id : ExprId) (p : Option ExprId) :
    (t.setParent id p).size = t.size := by
  simp [setParent, size]

@[simp] theorem size_setKind (t : Tree) (id : ExprId) (k : Kind) :
    (t.setKind id k).size = t.size := by
  simp [setKind, size]

@[simp] theorem size_setRecord (t : Tree) (id : ExprId) (r : Option AnalysisContext) :
    (t.setRecord id r).size = t.size := by
  simp [setRecord, size]

@[simp] theorem root_setParent (t : Tree) (id : ExprId) (p : Option ExprId) :
    (t.setParent id p).root = t.root := rfl

@[simp] theorem root_setRecord (t : Tree) (id : ExprId) (r : Option AnalysisContext) :
    (t.setRecord id r).root = t.root := rfl

theorem node?_setParent (t : Tree) (id : ExprId) (p : Option ExprId) (i : ExprId) :
    (t.setParent id p).node? i =
      if id = i then (t.node? i).map fun n => { n with parent := p } else t.node? i := by
  simp [setParent, node?, Array.getElem?_modify]

theorem node?_setKind (t : Tree) (id : ExprId) (k : Kind) (i : ExprId) :
    (t.setKind id k).node? i =
      if id = i then (t.node? i).map fun n => { n with kind := k } else t.node? i := by
  simp [setKind, node?, Array.getElem?_modify]

theorem node?_setRecord (t : Tree) (id : ExprId) (r : Option AnalysisContext) (i : ExprId) :
    (t.setRecord id r).node? i =
      if id = i then (t.node? i).map fun n => { n with record := r } else t.node? i := by
  simp [setRecord, node?, Array.getElem?_modify]

/-- The record of an expression, if it has one. -/
def record? (t : Tree) (id : ExprId) : Option AnalysisContext := (t.node? id).bind TreeNode.record

theorem record?_setRecord_none (t : Tree) (id : ExprId) : (t.setRecord id none).record? id = none := by
  rw [record?, node?_setRecord, if_pos rfl]
  cases t.node? id <;> rfl

theorem lt_size_of_record? {t : Tree} {id : Nat} (h : (t.record? id).isSome = true) :
    id < t.size := by
  by_contra hlt
  simp [record?, node?, Array.getElem?_eq_none (Nat.not_lt.1 hlt)] at h

/-- The arena has every one of these entries. -/
def Holds (t : Tree) (entries : List (Nat × TreeNode)) : Prop :=
  ∀ x ∈ entries, t.node? x.1 = some x.2

@[simp] theorem holds_nil (t : Tree) : t.Holds [] := by simp [Holds]

@[simp] theorem holds_cons {t : Tree} {x : Nat × TreeNode} {l : List (Nat × TreeNode)} :
    t.Holds (x :: l) ↔ t.node? x.1 = some x.2 ∧ t.Holds l := by
  simp [Holds]

@[simp] theorem holds_append {t : Tree} {l l' : List (Nat × TreeNode)} :
    t.Holds (l ++ l') ↔ t.Holds l ∧ t.Holds l' := by
  simp [Holds, or_imp, forall_and]

/-- Entries are held on where the arena stays the same. -/
theorem Holds.of_agree {t t' : Tree} {l : List (Nat × TreeNode)} (h : t.Holds l)
    (agree : ∀ x ∈ l, t'.node? x.1 = t.node? x.1) : t'.Holds l := by
  intro x hx
  rw [agree x hx]
  exact h x hx

/-! ## Slots -/

/-- What is held below an expression, in order; below none, the root. -/
def slots (t : Tree) : Option ExprId → List ExprId
  | none => t.root.toList
  | some p => t.children p

theorem children_of_node? {t : Tree} {id : ExprId} {n : TreeNode} (h : t.node? id = some n) :
    t.children id = n.kind.children := by
  simp [children, kind?, h]

/-- Between two arenas nothing changed but the entries from `lo` up to `hi` and the slots of
`parent`. -/
structure ChangedOnly (t t' : Tree) (parent : Option ExprId) (lo hi : Nat) : Prop where
  size_eq : t'.size = t.size
  node_eq : ∀ i : Nat, ¬ (lo ≤ i ∧ i < hi) → parent ≠ some i → t'.node? i = t.node? i
  root_eq : parent ≠ none → t'.root = t.root
  /-- The parent is the same expression over as many children. -/
  parent_eq : ∀ p n, parent = some p → t.node? p = some n →
    ∃ cs, cs.length = n.kind.children.length ∧
      t'.node? p = some { n with kind := n.kind.withChildren cs }

namespace ChangedOnly

variable {t t₁ t₂ : Tree} {parent : Option ExprId} {lo mid hi : Nat}

theorem refl (t : Tree) (parent : Option ExprId) (lo hi : Nat) :
    ChangedOnly t t parent lo hi where
  size_eq := rfl
  node_eq _ _ _ := rfl
  root_eq _ := rfl
  parent_eq p n _ hn := ⟨n.kind.children, rfl, by rw [Kind.withChildren_children]; exact hn⟩

/-- Fewer entries changed than allowed for. -/
theorem mono {lo' hi' : Nat} (h : ChangedOnly t t₁ parent lo hi) (hlo : lo' ≤ lo)
    (hhi : hi ≤ hi') : ChangedOnly t t₁ parent lo' hi' where
  size_eq := h.size_eq
  node_eq i away := h.node_eq i (by omega)
  root_eq := h.root_eq
  parent_eq := h.parent_eq

theorem trans (h₁ : ChangedOnly t t₁ parent lo hi) (h₂ : ChangedOnly t₁ t₂ parent lo hi) :
    ChangedOnly t t₂ parent lo hi where
  size_eq := h₂.size_eq.trans h₁.size_eq
  node_eq i away hp := by rw [h₂.node_eq i away hp, h₁.node_eq i away hp]
  root_eq hp := (h₂.root_eq hp).trans (h₁.root_eq hp)
  parent_eq p n hp hn := by
    rcases h₁.parent_eq p n hp hn with ⟨cs, hcs, hn₁⟩
    have hlen : (n.kind.withChildren cs).children.length = n.kind.children.length := by
      rw [Kind.children_withChildren hcs, hcs]
    rcases h₂.parent_eq p _ hp hn₁ with ⟨ds, hds, hn₂⟩
    refine ⟨ds, hds.trans hlen, ?_⟩
    rw [hn₂, Kind.withChildren_withChildren hcs (hds.trans hlen)]

/-- One entry changed, and it is not the parent. -/
theorem of_node {i : Nat} (within : lo ≤ i ∧ i < hi) (hp : parent ≠ some i)
    (hsize : t₁.size = t.size) (hroot : t₁.root = t.root)
    (hnode : ∀ j : Nat, i ≠ j → t₁.node? j = t.node? j) : ChangedOnly t t₁ parent lo hi where
  size_eq := hsize
  node_eq j hj _ := by
    have hne : i ≠ j := by
      rintro rfl
      exact hj within
    exact hnode j hne
  root_eq _ := hroot
  parent_eq q n hq hn := by
    have hne : i ≠ q := fun h => hp (h ▸ hq)
    refine ⟨n.kind.children, rfl, ?_⟩
    rw [hnode q hne, Kind.withChildren_children, hn]

theorem setParent {i : Nat} (within : lo ≤ i ∧ i < hi) (hp : parent ≠ some i) (t : Tree)
    (p : Option ExprId) : ChangedOnly t (t.setParent i p) parent lo hi := by
  refine of_node within hp (size_setParent t i p) rfl ?_
  intro j hj
  rw [node?_setParent, if_neg hj]

theorem setRecord {i : Nat} (within : lo ≤ i ∧ i < hi) (hp : parent ≠ some i) (t : Tree)
    (r : Option AnalysisContext) : ChangedOnly t (t.setRecord i r) parent lo hi := by
  refine of_node within hp (size_setRecord t i r) rfl ?_
  intro j hj
  rw [node?_setRecord, if_neg hj]

/-- Entries elsewhere are still held. -/
theorem holds {l : List (Nat × TreeNode)} (h : ChangedOnly t t₁ parent lo hi)
    (hl : t.Holds l) (away : ∀ x ∈ l, ¬ (lo ≤ x.1 ∧ x.1 < hi) ∧ parent ≠ some x.1) :
    t₁.Holds l :=
  hl.of_agree fun x hx => h.node_eq x.1 (away x hx).1 (away x hx).2

end ChangedOnly

/-- The slots depend on the root and on what the expressions are. -/
theorem slots_eq_of_kind? {t t' : Tree} (hroot : t'.root = t.root)
    (hkind : ∀ i, t'.kind? i = t.kind? i) (parent : Option ExprId) :
    t'.slots parent = t.slots parent := by
  cases parent with
  | none => rw [slots, slots, hroot]
  | some p => rw [slots, slots, children, children, hkind]

@[simp] theorem slots_setParent (t : Tree) (id : ExprId) (p parent : Option ExprId) :
    (t.setParent id p).slots parent = t.slots parent := by
  refine slots_eq_of_kind? (root_setParent t id p) (fun i => ?_) parent
  rw [kind?, kind?, node?_setParent]
  split
  · cases t.node? i <;> rfl
  · rfl

@[simp] theorem slots_setRecord (t : Tree) (id : ExprId) (r : Option AnalysisContext)
    (parent : Option ExprId) : (t.setRecord id r).slots parent = t.slots parent := by
  refine slots_eq_of_kind? (root_setRecord t id r) (fun i => ?_) parent
  rw [kind?, kind?, node?_setRecord]
  split
  · cases t.node? i <;> rfl
  · rfl

/-- Replacing a child changes one slot of the parent, and then the parent links of both. -/
theorem replaceChild_spec {t : Tree} {parent : Option ExprId} {old : ExprId}
    {pre post : List ExprId} (h : t.slots parent = pre ++ old :: post) (hpre : old ∉ pre)
    (new : ExprId) :
    ∃ t₁ : Tree, (t.replaceChild parent old new).2 = (t₁.setParent new parent).setParent old none ∧
      t₁.slots parent = pre ++ new :: post ∧ ∀ lo : Nat, t.ChangedOnly t₁ parent lo lo := by
  cases parent with
  | none =>
    -- the root is the only slot that belongs to no expression
    have hroot : t.root = some old ∧ pre = [] ∧ post = [] := by
      cases hr : t.root with
      | none => simp [slots, hr] at h
      | some r =>
        cases pre with
        | nil => simpa [slots, hr] using h
        | cons => simp [slots, hr] at h
    rcases hroot with ⟨hroot, rfl, rfl⟩
    refine ⟨{ t with root := some new }, by simp [replaceChild, hroot], by simp [slots], ?_⟩
    intro lo
    exact ⟨rfl, fun _ _ _ => rfl, fun hp => absurd rfl hp, fun p n hp => by simp at hp⟩
  | some p =>
    obtain ⟨n, hn, hk⟩ : ∃ n, t.node? p = some n ∧ n.kind.children = pre ++ old :: post := by
      cases hn : t.node? p with
      | none => simp [slots, children, kind?, hn] at h
      | some n => exact ⟨n, rfl, by simpa [slots, children, kind?, hn] using h⟩
    -- as many children as before, so the parent is still an expression of its sort
    have hlen : (pre ++ new :: post).length = n.kind.children.length := by simp [hk]
    have hreplaced : (t.kind? p).bind (·.replaceChild? old new) =
        some (n.kind.withChildren (pre ++ new :: post)) := by
      simp [kind?, hn, Kind.replaceChild?_eq, hk, replaceFirst?_append hpre]
    refine ⟨t.setKind p (n.kind.withChildren (pre ++ new :: post)), ?_, ?_, ?_⟩
    · simp [replaceChild, hreplaced]
    · simp [slots, children, kind?, node?_setKind, hn, Kind.children_withChildren hlen]
    · intro lo
      -- nothing but the slots of the parent changes, and the parent keeps its sort
      refine ⟨by simp, fun i _ hp => ?_, fun _ => rfl, fun q n' hq hn' => ?_⟩
      · rw [node?_setKind, if_neg (fun hi => hp (by rw [hi]))]
      · obtain rfl : p = q := by simpa using hq
        obtain rfl : n = n' := by simpa [hn] using hn'
        exact ⟨_, hlen, by simp [node?_setKind, hn]⟩

end Tree
end DocBase.Query
