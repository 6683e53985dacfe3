import DocBase.Proofs.Store.Custody
/-!
# Queries and removals do not meet

A query finds its documents before it locks them, so any of them may be removed in between. It looks
again once it has its locks; what is left to its calls then stays in the store until the query gives
back the lock, and what was removed before is not seen at all, whether or not something was stored
at its path since. Main statements:

* `Custody.each_kept` — what is left to a call is in the store as long as it is locked;
* `isolated` — what that means for the nodes that a query is evaluated on.
-/

namespace DocBase

open Query

/-- The query of an actor that is past looking which of its documents are still there, and what is
left to the calls it has gone through. -/
def Actor.kept? (a : Actor) : Option (Execution × Resources) :=
  match a.task with
  | .rechecking x _ kept | .evaluating x kept | .evaluated x kept _ _ => some (x, kept)
  | _ => none

namespace Traffic

variable {s s₀ : Traffic} {t : Thread} {x : Execution} {kept : Resources}

/-- What is left to a call is in the store as long as it is locked. -/
theorem Custody.each_kept (custody : s.Custody) (h : (s.actors t).kept? = some (x, kept)) :
    kept.Each fun d => d.lock ∈ (s.actors t).acquisition.held → s.store.document? d.id = some d := by
  have fits := custody.fits t
  generalize s.actors t = a at fits h
  cases fits with
  | rechecking _ hdone =>
    obtain ⟨rfl, rfl⟩ := Prod.mk.inj (Option.some.inj h)
    exact hdone.imp fun d hd _ => hd.2
  | evaluating hkept =>
    obtain ⟨rfl, rfl⟩ := Prod.mk.inj (Option.some.inj h)
    exact hkept.imp fun d hd _ => hd.2
  | evaluated hkept =>
    obtain ⟨rfl, rfl⟩ := Prod.mk.inj (Option.some.inj h)
    exact hkept
  | _ => simp [Actor.kept?] at h

/-- When a query is evaluated, all documents that are left to its calls are locked and in the
store. -/
theorem Custody.each_evaluating (custody : s.Custody) (h : (s.actors t).task = .evaluating x kept) :
    kept.Each fun d => d.lock ∈ (s.actors t).acquisition.held ∧ s.store.document? d.id = some d := by
  have fits := custody.fits t
  generalize s.actors t = a at fits h
  cases fits with
  | evaluating hkept =>
    obtain ⟨rfl, rfl⟩ := Task.evaluating.inj h
    exact hkept
  | _ => simp at h

/-- The value of a query is that of its evaluation on the documents left to its calls. -/
theorem Custody.evaluated (custody : s.Custody) {value : Except QueryError Sequence}
    {released : Except Lock.Error Unit} (h : (s.actors t).task = .evaluated x kept value released) :
    value = Evaluation.run ⟨x.query.tree, x.dynamic, kept⟩ ∧ released = .ok () := by
  have fits := custody.fits t
  generalize s.actors t = a at fits h
  cases fits with
  | evaluated hkept =>
    obtain ⟨rfl, rfl, rfl, rfl⟩ := Task.evaluated.inj h
    exact ⟨rfl, rfl⟩
  | _ => simp at h

/-- As long as few documents were stored: from the time a query has looked again, whatever is left
to its calls is in the store until the query gives back its lock. While it is evaluated, every node
that a call contributes belongs to a document in the store; and a document that had gone at any
earlier time contributes to no call. What the query gives back its locks with is the value of that
evaluation. -/
theorem isolated {options : Lock.Options} (h : Reachable options s)
    (few : s.stored.length < UInt32.size - 1) (t : Thread) (x : Execution) (kept : Resources) :
    ((s.actors t).kept? = some (x, kept) →
      kept.Each fun d => d.lock ∈ (s.actors t).acquisition.held → s.store.document? d.id = some d) ∧
    ((s.actors t).task = .evaluating x kept →
      (∀ call n, Item.node n ∈ Evaluation.resourceNodes ⟨x.query.tree, x.dynamic, kept⟩ call →
        n.document.lock ∈ (s.actors t).acquisition.held ∧
        s.store.document? n.document.id = some n.document) ∧
      ∀ s₀, Reachable options s₀ → Steps s₀ s → ∀ d ∈ s₀.stored, s₀.store.document? d.id = none →
        ∀ call n, Item.node n ∈ Evaluation.resourceNodes ⟨x.query.tree, x.dynamic, kept⟩ call →
          n.document.id ≠ d.id) ∧
    ∀ value released, (s.actors t).task = .evaluated x kept value released →
      value = Evaluation.run ⟨x.query.tree, x.dynamic, kept⟩ := by
  have custody := custody_of_reachable h few
  refine ⟨custody.each_kept, ?_, fun value released hvalue => (custody.evaluated hvalue).1⟩
  intro hevaluating
  have hkept := custody.each_evaluating hevaluating
  have hnodes : ∀ call n,
      Item.node n ∈ Evaluation.resourceNodes ⟨x.query.tree, x.dynamic, kept⟩ call →
        n.document.lock ∈ (s.actors t).acquisition.held ∧
        s.store.document? n.document.id = some n.document :=
    fun call n hn => Evaluation.mem_resourceNodes hkept hn
  refine ⟨hnodes, ?_⟩
  -- what is evaluated is there now, and what is gone does not come back
  intro s₀ hs₀ hsteps d hd hgone call n hn hid
  have hstill := (gone_of_steps hs₀ hsteps few hd hgone).2
  have hthere := (hnodes call n hn).2
  rw [hid, hstill] at hthere
  simp at hthere

/-- The query `collection('/db')` as it is compiled. -/
def wholeCollection : CompiledQuery where
  tree := ⟨#[⟨.literal (.string "/db"), some 1, some { parent := some 1 }⟩,
    ⟨.call .collection [0], none, some {}⟩], some 1⟩
  static := {}
  source := "collection('/db')"

/-- Of two documents that a query has found, one is removed before the query has its lock: the query
is evaluated on the other one, which is in the store. -/
theorem isolated_removed_meanwhile :
    (compile wholeCollection.source {}).toOption.map CompiledQuery.tree = some wholeCollection.tree ∧
    ∃ (s : Traffic) (x : Execution) (kept : Resources), Reachable {} s ∧
      (s.actors "q").task = .evaluating x kept ∧ x.query = wholeCollection ∧
      x.resources.map (fun entry => entry.2.documents.map Document.id) = [[1, 2]] ∧
      kept.map (fun entry => entry.2.documents.map Document.id) = [[2]] ∧
      ∀ call n, Item.node n ∈ Evaluation.resourceNodes ⟨x.query.tree, x.dynamic, kept⟩ call →
        n.document.lock ∈ (s.actors "q").acquisition.held ∧
        s.store.document? n.document.id = some n.document := by
  refine ⟨by decide +kernel, ?_⟩
  have one : Reachable {} _ :=
    .step .start (@Step.storeDocument "c" _ "/db/x.xml" .xml Store.rootPermission _ _ rfl rfl)
  have two := one.step (@Step.storeDocument "c" _ "/db/y.xml" .xml Store.rootPermission _ _ rfl rfl)
  -- the query finds both documents
  have began := two.step (.beginQuery (t := "q") wholeCollection Subject.guest {} rfl)
  have called := began.step (.find (t := "q") rfl rfl)
  have found := called.step (.find (t := "q") rfl rfl)
  have entered := found.step (.enter (t := "q") rfl)
  -- the first one is removed
  have removing := entered.step (@Step.beginRemoval "a" _ "/db/x.xml" _ _ rfl rfl)
  have writing := removing.step (.acquire (t := "a") rfl rfl)
  have taken := writing.step (.takeOut (t := "a") rfl rfl)
  have released := taken.step (.release (t := "a") rfl rfl rfl)
  -- the query takes its locks and looks again
  have first := released.step (.acquire (t := "q") rfl rfl)
  have second := first.step (.acquire (t := "q") rfl rfl)
  have looked := second.step (.recheck (t := "q") rfl)
  have left := looked.step (@Step.leaveOut "q" _ _ _ _ _ _ _ rfl)
  have evaluating := left.step (@Step.rechecked "q" _ _ _ _ _ rfl)
  rcases isolated evaluating (by decide) "q" _ _ with ⟨-, hevaluating, -⟩
  exact ⟨_, _, _, evaluating, rfl, rfl, rfl, rfl, (hevaluating rfl).1⟩

end Traffic
end DocBase
