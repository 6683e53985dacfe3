import DocBase.Proofs.Query.Evaluation
import DocBase.Proofs.Query.Resources
import DocBase.Query.Execution
/-!
# Leaving one-item sequences out

Whether one-item sequences are replaced by their item makes no difference to anyone who runs a
query: what it means and which documents it finds is told by the text alone. Rewriting lets more
queries through, since a text in parentheses counts as a text. Main statements:

* `Expr.check_rewriting` — what is accepted without rewriting is accepted with it;
* `execute_rewriting` — both compiled queries give the same answer and leave the same store.
-/

namespace DocBase

open Query

namespace Query

/-- What is accepted without rewriting is accepted with it. -/
theorem Expr.check_rewriting {static : StaticContext} (e : Expr) :
    ∀ (scope : List String) (focused : Bool),
      e.check { static with rewriting := false } scope focused = none →
      e.check { static with rewriting := true } scope focused = none := by
  -- only calls that read the store ask whether parentheses count
  induction e using Expr.ind with
  | literal | var | contextItem => exact fun scope focused h => h
  | sequence items ih =>
    intro scope focused h
    simp only [check, checkEach_eq_none] at h ⊢
    exact fun e he => ih e he _ _ (h e he)
  | filter input predicates ihi ihp =>
    intro scope focused h
    simp only [check, Option.or_eq_none_iff, checkEach_eq_none] at h ⊢
    exact ⟨ihi _ _ h.1, fun p hp => ihp p hp _ _ (h.2 p hp)⟩
  | forEach x input condition body ihi ihc ihb =>
    intro scope focused h
    cases condition with
    | none =>
      simp only [check, Option.or_eq_none_iff] at h ⊢
      exact ⟨ihi _ _ h.1, ihb _ _ h.2⟩
    | some c =>
      simp only [check, Option.or_eq_none_iff] at h ⊢
      exact ⟨ihi _ _ h.1, ihc c rfl _ _ h.2.1, ihb _ _ h.2.2⟩
  | compare op l r ihl ihr | connect op l r ihl ihr | combine op l r ihl ihr =>
    intro scope focused h
    simp only [check, Option.or_eq_none_iff] at h ⊢
    exact ⟨ihl _ _ h.1, ihr _ _ h.2⟩
  | call name arguments ih =>
    intro scope focused h
    simp only [check] at h ⊢
    split at h
    · rw [checkEach_eq_none] at h ⊢
      exact fun a ha => ih a ha _ _ (h a ha)
    · next f _ =>
      simp only [Option.or_eq_none_iff, checkEach_eq_none, demand_eq_none, Bool.or_eq_true,
        List.all_eq_true] at h ⊢
      rcases h with ⟨⟨hfocus, harguments⟩, htexts⟩
      refine ⟨⟨hfocus, fun a ha => ih a ha _ _ (harguments a ha)⟩, htexts.imp id ?_⟩
      -- what is a text as it stands is a text in parentheses too
      intro hall a ha
      rcases unwrap_of_isText (hall a ha) with ⟨s, -, htext⟩
      exact isText_of_text? htext

/-- A query is run through the documents it finds and the value it has. -/
theorem execute_eq_of {q q' : CompiledQuery} (hresources : ∀ v, q'.resources v = q.resources v)
    (hrun : ∀ (dynamic : DynamicContext) (resources : Resources),
      Evaluation.run ⟨q'.tree, dynamic, resources⟩ = Evaluation.run ⟨q.tree, dynamic, resources⟩)
    (s : Store) (subject : Subject) (dynamic : DynamicContext) (me : Thread) :
    s.execute q' subject dynamic me = s.execute q subject dynamic me := by
  unfold Store.execute Store.beginQuery
  rw [hresources]
  cases q.resources ⟨s, subject, dynamic⟩ with
  | error e => rfl
  | ok resources =>
    -- the same documents are locked, whether or not the locks are granted
    simp only [Store.finishQuery, Store.failQuery, Execution.handles, Execution.value, hrun]

end Query

/-- A query that is compiled without rewriting is compiled with it, and then finds the same
documents, has the same value and gives the same answer, over every store. -/
theorem execute_rewriting {source : String} {static : StaticContext} {q : CompiledQuery}
    (h : compile source { static with rewriting := false } = .ok q) :
    ∃ q', compile source { static with rewriting := true } = .ok q' ∧
      (∀ v, q'.resources v = q.resources v) ∧
      (∀ (dynamic : DynamicContext) (resources : Resources),
        Evaluation.run ⟨q'.tree, dynamic, resources⟩ =
          Evaluation.run ⟨q.tree, dynamic, resources⟩) ∧
      ∀ (s : Store) (subject : Subject) (dynamic : DynamicContext) (me : Thread),
        s.execute q' subject dynamic me = s.execute q subject dynamic me := by
  -- both compile the expression that was read
  rcases compile_eq_ok h with ⟨e, t, hparse, htree, hcheck, hrep⟩
  have hcheck' := e.check_rewriting [] false hcheck
  rcases compile_of_check hparse htree hcheck' with ⟨q', h'⟩
  rcases compile_eq_ok h' with ⟨e', t', hparse', htree', -, hrep'⟩
  obtain rfl : e = e' := Except.ok.inj (hparse.symm.trans hparse')
  have hstatic : q.static = { static with rewriting := false } := (compile_ok h).2
  have hstatic' : q'.static = { static with rewriting := true } := (compile_ok h').2
  have hresolved := Expr.resolved_of_tree htree
  have hresources : ∀ v, q'.resources v = q.resources v := by
    intro v
    -- both are the documents of the calls that were read
    rw [resources_of_compiled (hstatic' ▸ hrep') (hstatic' ▸ hcheck') v,
      resources_of_compiled (hstatic ▸ hrep) (hstatic ▸ hcheck) v, hstatic, hstatic']
    exact resourcesFor_rewriting v static _
  -- what either tree means is what that expression means
  have hrun : ∀ (dynamic : DynamicContext) (resources : Resources),
      Evaluation.run ⟨q'.tree, dynamic, resources⟩ =
        Evaluation.run ⟨q.tree, dynamic, resources⟩ := by
    intro dynamic resources
    rw [Expr.run_of_represents hrep' hresolved, Expr.run_of_represents hrep hresolved]
    rfl
  exact ⟨q', h', hresources, hrun, execute_eq_of hresources hrun⟩

/-- A position in parentheses, and parentheses around a call that reads the store. -/
theorem execute_rewriting_parenthesised :
    ∃ q q', compile "((doc('/db/a.xml')))[((2))][1]" { rewriting := false } = .ok q ∧
      compile "((doc('/db/a.xml')))[((2))][1]" { rewriting := true } = .ok q' ∧
      (∀ v, q'.resources v = q.resources v) ∧
      (∀ (dynamic : DynamicContext) (resources : Resources),
        Evaluation.run ⟨q'.tree, dynamic, resources⟩ =
          Evaluation.run ⟨q.tree, dynamic, resources⟩) ∧
      ∀ (s : Store) (subject : Subject) (dynamic : DynamicContext) (me : Thread),
        s.execute q' subject dynamic me = s.execute q subject dynamic me := by
  obtain ⟨q, hq⟩ : ∃ q, compile "((doc('/db/a.xml')))[((2))][1]" { rewriting := false } = .ok q :=
    exists_of_compile_isOk (by decide +kernel)
  rcases @execute_rewriting _ {} q hq with ⟨q', hq', same⟩
  exact ⟨q, q', hq, hq', same⟩

end DocBase
