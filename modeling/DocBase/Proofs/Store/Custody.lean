import DocBase.Proofs.Store.Accounts
/-!
# What threads at work may rely on

A document that a query has locked stays in the store, because whoever takes it out holds its lock
for writing; and the document that a removal has found keeps its id to itself, so what the removal
takes out is that document or nothing. All this is one invariant over the store and all threads, as
long as the counter of ids does not come round. Main statements:

* `custody_step` — what one step preserves, and `custody_of_reachable`, what holds at all times;
* `gone_of_steps` — a document that has gone does not come back.
-/

namespace DocBase

open Query

/-! ## What a removal does -/

/-- The documents, the paths and the next id are as they were. -/
def Change.Keeps (c : Change) : Prop := c.before.Alike c.after

/-- A document that was there and its path were taken out, and nothing else. -/
structure Change.TakesOut (c : Change) (d : Document) : Prop where
  there : c.before.document? d.id = some d
  filed : c.before.filed? d.uri = some d.id
  documents_eq : c.after.documents = Keyed.erase Document.id d.id c.before.documents
  paths_eq : c.after.paths = Keyed.erase Prod.fst d.uri c.before.paths

/-- The document that was at a path when a thread took up what it has to do there. -/
def resolved? (path : String) (trail : List Change) : Option Document :=
  trail.getLast?.bind fun c => c.before.documentAt? path

/-- Of all changes exactly one took the document out, and the others changed nothing. -/
def TakenOnce (d : Document) (trail : List Change) : Prop :=
  ∃ later c earlier, trail = later ++ c :: earlier ∧ c.TakesOut d ∧
    (∀ c' ∈ later, c'.Keeps) ∧ ∀ c' ∈ earlier, c'.Keeps

/-- What was found at first stays what was found at first. -/
theorem resolved?_cons {path : String} {trail : List Change} {d : Document}
    (h : resolved? path trail = some d) (c : Change) : resolved? path (c :: trail) = some d := by
  cases trail with
  | nil => simp [resolved?] at h
  | cons c' trail =>
    rw [resolved?, List.getLast?_cons_cons]
    exact h

theorem TakenOnce.cons {d : Document} {trail : List Change} (h : TakenOnce d trail) {c : Change}
    (hkeeps : c.Keeps) : TakenOnce d (c :: trail) := by
  rcases h with ⟨later, c', earlier, rfl, htakes, hlater, hearlier⟩
  exact ⟨c :: later, c', earlier, rfl, htakes, List.forall_mem_cons.2 ⟨hkeeps, hlater⟩, hearlier⟩

/-! ## What an actor may rely on -/

/-- What is so about an actor, by its task. A document is among those `stored` if it was ever
stored; a document in `kept` that the query still has locked is in the store. -/
inductive Actor.Fits (s : Store) (stored : List Document) : Actor → Prop
  | idle : Fits s stored {}
  | finding {q : CompiledQuery} {subject : Subject} {dynamic : DynamicContext}
      {calls : List ExprId} {found : Resources} {trail : List Change} :
    found.Each (· ∈ stored) →
    Fits s stored ⟨.finding q subject dynamic calls found, ⟨.read, [], []⟩, trail⟩
  | removing {r : Removal} {held wanted : List Lock.Handle} {trail : List Change} :
    resolved? r.path trail = some r.document → r.document ∈ stored →
    held.reverse ++ wanted = [r.document.lock] → (∀ c ∈ trail, c.Keeps) →
    Fits s stored ⟨.removing r, ⟨.write, held, wanted⟩, trail⟩
  | present {r : Removal} {held : List Lock.Handle} {trail : List Change} :
    resolved? r.path trail = some r.document → r.document ∈ stored →
    s.document? r.document.id = none → TakenOnce r.document trail →
    Fits s stored ⟨.removed r true (.ok ()), ⟨.write, held, []⟩, trail⟩
  | gone {r : Removal} {held : List Lock.Handle} {trail : List Change} :
    (∀ c ∈ trail, c.Keeps) →
    Fits s stored ⟨.removed r false (.ok ()), ⟨.write, held, []⟩, trail⟩
  | removalFailed {r : Removal} {e : Lock.Error} {held : List Lock.Handle} {trail : List Change} :
    (∀ c ∈ trail, c.Keeps) →
    Fits s stored ⟨.removalFailed r e, ⟨.write, held, []⟩, trail⟩
  | querying {x : Execution} {held wanted : List Lock.Handle} {trail : List Change} :
    held.reverse ++ wanted = x.handles → x.resources.Each (· ∈ stored) →
    Fits s stored ⟨.querying x, ⟨.read, held, wanted⟩, trail⟩
  | rechecking {x : Execution} {todo done : Resources} {held : List Lock.Handle}
      {trail : List Change} :
    todo.Each (fun d => d ∈ stored ∧ d.lock ∈ held) →
    done.Each (fun d => d.lock ∈ held ∧ s.document? d.id = some d) →
    Fits s stored ⟨.rechecking x todo done, ⟨.read, held, []⟩, trail⟩
  | evaluating {x : Execution} {kept : Resources} {held : List Lock.Handle} {trail : List Change} :
    kept.Each (fun d => d.lock ∈ held ∧ s.document? d.id = some d) →
    Fits s stored ⟨.evaluating x kept, ⟨.read, held, []⟩, trail⟩
  | evaluated {x : Execution} {kept : Resources} {held : List Lock.Handle} {trail : List Change} :
    kept.Each (fun d => d.lock ∈ held → s.document? d.id = some d) →
    Fits s stored ⟨.evaluated x kept (Evaluation.run ⟨x.query.tree, x.dynamic, kept⟩) (.ok ()),
      ⟨.read, held, []⟩, trail⟩
  | queryFailed {x : Execution} {e : Lock.Error} {held : List Lock.Handle} {trail : List Change} :
    Fits s stored ⟨.queryFailed x e, ⟨.read, held, []⟩, trail⟩

namespace Actor.Fits

variable {s s' : Store} {stored stored' : List Document} {a : Actor} {task task' : Task}
  {mode : Lock.Mode} {held wanted : List Lock.Handle} {h : Lock.Handle} {trail : List Change}
  {r : Removal} {x : Execution}

/-- What another thread does leaves an actor what it relies on, if what was gone stays gone and what
the actor reads stays. -/
theorem mono (fits : a.Fits s stored) (hstored : ∀ d ∈ stored, d ∈ stored')
    (hgone : ∀ d ∈ stored, s.document? d.id = none → s'.document? d.id = none)
    (hkept : ∀ d, a.acquisition.mode = .read → d.lock ∈ a.acquisition.held →
      s.document? d.id = some d → s'.document? d.id = some d) :
    a.Fits s' stored' := by
  -- documents that were stored stay so, gone ones stay gone, and read ones stay what they are
  cases fits with
  | idle => exact .idle
  | finding hfound => exact .finding (hfound.imp hstored)
  | removing hresolved hmem hlocks hkeeps => exact .removing hresolved (hstored _ hmem) hlocks hkeeps
  | present hresolved hmem hnone htaken =>
    exact .present hresolved (hstored _ hmem) (hgone _ hmem hnone) htaken
  | gone hkeeps => exact .gone hkeeps
  | removalFailed hkeeps => exact .removalFailed hkeeps
  | querying hlocks hfound => exact .querying hlocks (hfound.imp hstored)
  -- of the documents that a query has looked at, those it kept are locked by it
  | rechecking htodo hdone =>
    refine .rechecking (htodo.imp ?_) (hdone.imp ?_)
    · rintro d ⟨hmem, hlock⟩
      exact ⟨hstored d hmem, hlock⟩
    · rintro d ⟨hlock, hd⟩
      exact ⟨hlock, hkept d rfl hlock hd⟩
  | evaluating hkeptDocuments =>
    refine .evaluating (hkeptDocuments.imp ?_)
    rintro d ⟨hlock, hd⟩
    exact ⟨hlock, hkept d rfl hlock hd⟩
  | evaluated hkeptDocuments =>
    refine .evaluated (hkeptDocuments.imp ?_)
    intro d hd hlock
    exact hkept d rfl hlock (hd hlock)
  | queryFailed => exact .queryFailed

/-- The documents are the same. -/
theorem of_alike (fits : a.Fits s stored) (alike : s.Alike s') : a.Fits s' stored := by
  apply fits.mono
  · intro d hd
    exact hd
  · intro d _ hd
    rwa [alike.document?]
  · intro d _ _ hd
    rwa [alike.document?]

/-! ### What an actor does itself -/

variable {c : Change}

/-- Another lock is taken. -/
theorem acquire (fits : Fits s stored ⟨task, ⟨mode, held, h :: wanted⟩, trail⟩) (hc : c.Keeps) :
    Fits s stored ⟨task, ⟨mode, h :: held, wanted⟩, c :: trail⟩ := by
  cases fits with
  | removing hresolved hmem hlocks hkeeps =>
    rw [← List.singleton_append, ← List.append_assoc, ← List.reverse_cons] at hlocks
    exact .removing (resolved?_cons hresolved c) hmem hlocks (List.forall_mem_cons.2 ⟨hc, hkeeps⟩)
  | querying hlocks hfound =>
    rw [← List.singleton_append, ← List.append_assoc, ← List.reverse_cons] at hlocks
    exact .querying hlocks hfound

/-- A lock is not granted. -/
theorem fail {e : Lock.Error} (fits : Fits s stored ⟨task, ⟨mode, held, h :: wanted⟩, trail⟩)
    (hfail : task.fail? e = some task') (hc : c.Keeps) :
    Fits s stored ⟨task', ⟨mode, held, []⟩, c :: trail⟩ := by
  cases fits with
  | removing hresolved hmem hlocks hkeeps =>
    obtain rfl := Option.some.inj hfail
    exact .removalFailed (List.forall_mem_cons.2 ⟨hc, hkeeps⟩)
  | querying hlocks hfound =>
    obtain rfl := Option.some.inj hfail
    exact .queryFailed

/-- A lock is given back. -/
theorem giveBack (fits : Fits s stored ⟨task, ⟨mode, h :: held, []⟩, trail⟩)
    (hback : task.giveBack? (.ok ()) = some task') (hc : c.Keeps) :
    Fits s stored ⟨task', ⟨mode, held, []⟩, c :: trail⟩ := by
  cases fits with
  -- a removal that took its document out has done so, whatever lock it gives back then
  | present hresolved hmem hnone htaken =>
    obtain rfl := Option.some.inj hback
    exact .present (resolved?_cons hresolved c) hmem hnone (htaken.cons hc)
  | gone hkeeps =>
    obtain rfl := Option.some.inj hback
    exact .gone (List.forall_mem_cons.2 ⟨hc, hkeeps⟩)
  | removalFailed hkeeps =>
    obtain rfl := Option.some.inj hback
    exact .removalFailed (List.forall_mem_cons.2 ⟨hc, hkeeps⟩)
  | evaluated hkept =>
    obtain rfl := Option.some.inj hback
    refine .evaluated (hkept.imp ?_)
    intro d hd hlock
    exact hd (List.mem_cons_of_mem _ hlock)
  | queryFailed =>
    obtain rfl := Option.some.inj hback
    exact .queryFailed
  | removing | querying | rechecking | evaluating => simp [Task.giveBack?] at hback

/-- A removal begins with the document it found. -/
theorem beginRemoval (numbered : s.Numbered stored) {path : String}
    (h : s.beginRemoval path = (.ok r, s')) :
    Fits s' stored ⟨.removing r, r.acquisition, [⟨s, s'⟩]⟩ := by
  have alike : s.Alike s' := (Store.quiet_beginRemoval h).toAlike
  rcases Store.beginRemoval_eq_ok h with ⟨hfound, hpath, hacquisition, -⟩
  have hmem : r.document ∈ stored := numbered.known _ _ (Store.document?_of_documentAt? hfound)
  have hresolved : resolved? r.path [⟨s, s'⟩] = some r.document := by
    rw [hpath]
    exact hfound
  rw [hacquisition]
  exact .removing hresolved hmem rfl (List.forall_mem_singleton.2 alike)

/-- A removal that holds its lock takes its document out, or finds it gone. -/
theorem takeOut (fits : Fits s stored ⟨.removing r, ⟨mode, held, []⟩, trail⟩)
    (consistent : s.Consistent) (numbered : s.Numbered stored) {present : Bool}
    (h : s.takeOut r.document = (present, s')) :
    Fits s' stored ⟨.removed r present (.ok ()), ⟨mode, held, []⟩, ⟨s, s'⟩ :: trail⟩ := by
  cases fits with
  | removing hresolved hmem hlocks hkeeps =>
    -- another removal may have been faster
    cases hd : s.document? r.document.id with
    | none =>
      obtain ⟨rfl, rfl⟩ := Prod.mk.inj ((Store.takeOut_of_gone hd).symm.trans h)
      exact .gone (List.forall_mem_cons.2 ⟨⟨rfl, rfl, rfl⟩, hkeeps⟩)
    | some d =>
      obtain rfl := numbered.document?_eq hmem hd
      have hfiled := consistent.filed?_of_document? hd
      rcases Store.takeOut_of_document? hd with ⟨hpresent, hdocument, hpaths⟩
      rw [h] at hpresent hdocument hpaths
      -- this is the one change of the trail that takes the document out
      obtain rfl : present = true := hpresent
      have hnone : s'.document? r.document.id = none := by rw [hdocument, if_pos rfl]
      have htakes : (Change.mk s s').TakesOut r.document := by
        refine ⟨hd, hfiled, ?_, (hpaths hfiled).1⟩
        simp only [Store.takeOut, hd, Prod.mk.injEq] at h
        rw [← h.2]
      refine .present (resolved?_cons hresolved _) hmem hnone ?_
      exact ⟨[], _, trail, rfl, htakes, by simp, hkeeps⟩

/-- A query that has taken its locks holds that of every document of every call. -/
theorem locked (fits : Fits s stored ⟨.querying x, ⟨mode, held, []⟩, trail⟩)
    (numbered : s.Numbered stored) :
    mode = .read ∧ x.resources.Each fun d => d ∈ stored ∧ d.lock ∈ held := by
  cases fits with
  | querying hlocks hfound =>
    refine ⟨rfl, ?_⟩
    intro entry hentry d hd
    have hmem : d ∈ stored := hfound entry hentry d hd
    -- the lock set may have another copy with the same id, which is the same document
    rcases Resources.contains_documents hentry hd with ⟨e, he, hid⟩
    rcases Resources.mem_documents he with ⟨entry', hentry', he'⟩
    obtain rfl : e = d := numbered.distinct e (hfound entry' hentry' e he') d hmem hid
    have hlock : e.lock ∈ x.handles := List.mem_map_of_mem he
    rw [← hlocks, List.append_nil] at hlock
    exact ⟨hmem, List.mem_reverse.1 hlock⟩

/-- What is still found under the id of a locked document is this document. -/
theorem kept_of_there (numbered : s.Numbered stored) {d : Document}
    (h : (d ∈ stored ∧ d.lock ∈ held) ∧ (s.document? d.id).isSome = true) :
    d.lock ∈ held ∧ s.document? d.id = some d := by
  rcases h with ⟨⟨hmem, hlock⟩, hthere⟩
  rcases Option.isSome_iff_exists.1 hthere with ⟨e, he⟩
  obtain rfl := numbered.document?_eq hmem he
  exact ⟨hlock, he⟩

/-- A query that holds its locks looks which documents are still there. -/
theorem recheck (fits : Fits s stored ⟨.querying x, ⟨mode, held, []⟩, trail⟩)
    (numbered : s.Numbered stored) :
    Fits s stored ⟨if x.resources.gone s = 0 then .evaluating x x.resources
      else .rechecking x x.resources [], ⟨mode, held, []⟩, c :: trail⟩ := by
  rcases fits.locked numbered with ⟨rfl, hlocked⟩
  split
  · next hgone =>
    have hthere := Resources.each_of_none_gone hgone
    refine .evaluating ?_
    intro entry hentry d hd
    exact kept_of_there numbered ⟨hlocked entry hentry d hd, hthere entry hentry d hd⟩
  · exact .rechecking hlocked (by simp [Resources.Each])

/-- Documents that have gone are left out of one call. -/
theorem leaveOut {entry : ExprId × DocumentSet} {todo done : Resources}
    (fits : Fits s stored ⟨.rechecking x (entry :: todo) done, ⟨mode, held, wanted⟩, trail⟩)
    (numbered : s.Numbered stored) :
    Fits s stored ⟨.rechecking x todo (done ++ Resources.stillIn [entry] s), ⟨mode, held, wanted⟩,
      c :: trail⟩ := by
  cases fits with
  | rechecking htodo hdone =>
    rw [← List.singleton_append, Resources.each_append] at htodo
    refine .rechecking htodo.2 ?_
    rw [Resources.each_append]
    exact ⟨hdone, (Resources.each_stillIn htodo.1).imp fun d => kept_of_there numbered⟩

end Actor.Fits

/-! ## The invariant -/

namespace Traffic

variable {s s' : Traffic} {t u : Thread}

/-- The locks are held as the threads say, the store is consistent, its documents keep their ids to
themselves, and every thread may rely on what its task requires. -/
structure Custody (s : Traffic) : Prop where
  accounts : Accounts s.store.locks s.actors
  consistent : s.store.Consistent
  numbered : s.store.Numbered s.stored
  fits : ∀ t, (s.actors t).Fits s.store s.stored

/-- A step leaves documents and paths alone, stores a document, or takes out the document of a
removal that holds its lock. -/
theorem Step.store_cases (h : Step t s s') :
    (s.store.Alike s'.store ∧ s'.stored = s.stored) ∨
    (∃ d, s.store.Stores d s'.store ∧ s'.stored = d :: s.stored) ∨
    ∃ r mode held trail, s.actors t = ⟨.removing r, ⟨mode, held, []⟩, trail⟩ ∧
      (s.store.document? r.document.id).isSome = true ∧
      s'.store = (s.store.takeOut r.document).2 ∧ s'.stored = s.stored := by
  -- documents come and go in two sorts of steps; the others only touch locks and tasks
  cases h with
  | createCollection uri permission hactor =>
    exact .inl ⟨(s.store.quiet_createCollection uri permission).toAlike, rfl⟩
  | storeDocument hactor hstore => exact .inr (.inl ⟨_, Store.storeDocument_eq_ok hstore, rfl⟩)
  | refuseDocument hactor hstore =>
    have hsame := Store.storeDocument_error (congrArg Prod.fst hstore)
    rw [hstore] at hsame
    obtain rfl : s.store = _ := hsame.symm
    exact .inl ⟨⟨rfl, rfl, rfl⟩, rfl⟩
  | @takeOut r mode held trail present store hactor htake =>
    cases hd : s.store.document? r.document.id with
    | none =>
      obtain ⟨-, rfl⟩ := Prod.mk.inj ((Store.takeOut_of_gone hd).symm.trans htake)
      exact .inl ⟨⟨rfl, rfl, rfl⟩, rfl⟩
    | some d =>
      have hstore : store = (s.store.takeOut r.document).2 := (congrArg Prod.snd htake).symm
      exact .inr (.inr ⟨r, mode, held, trail, hactor, by simp [hd], hstore, rfl⟩)
  | beginRemoval hactor hbegin | missRemoval hactor hbegin =>
    exact .inl ⟨(Store.quiet_beginRemoval hbegin).toAlike, rfl⟩
  | endRemoval hactor hend => exact .inl ⟨(Store.quiet_concludeRemoval hend).toAlike, rfl⟩
  | failRemoval hactor hend => exact .inl ⟨(Store.quiet_failRemoval hend).toAlike, rfl⟩
  | endQuery hactor hend => exact .inl ⟨(Store.quiet_concludeQuery hend).toAlike, rfl⟩
  | failQuery hactor hend => exact .inl ⟨(Store.quiet_failQuery hend).toAlike, rfl⟩
  | acquire | refuse | timeOut | release | beginQuery | find | miss | enter | recheck | leaveOut
  | rechecked | evaluate => exact .inl ⟨⟨rfl, rfl, rfl⟩, rfl⟩

/-- A step of one thread leaves the others where they are. -/
theorem Step.actors_ne (h : Step t s s') (hu : u ≠ t) : s'.actors u = s.actors u := by
  cases h with
  | createCollection | storeDocument | refuseDocument => rfl
  | _ => exact Function.update_of_ne hu _ _

theorem Step.stored_subset (h : Step t s s') {d : Document} (hd : d ∈ s.stored) : d ∈ s'.stored := by
  rcases h.store_cases with ⟨-, hstored⟩ | ⟨e, -, hstored⟩ | ⟨r, mode, held, trail, -, -, -, hstored⟩
  all_goals rw [hstored]
  · exact hd
  · exact List.mem_cons_of_mem _ hd
  · exact hd

theorem Step.length_stored_le (h : Step t s s') : s.stored.length ≤ s'.stored.length := by
  rcases h.store_cases with ⟨-, hstored⟩ | ⟨e, -, hstored⟩ | ⟨r, mode, held, trail, -, -, -, hstored⟩
  all_goals simp [hstored]

namespace Custody

variable {d : Document}

theorem start (options : Lock.Options) : Custody { store := Store.create options } where
  accounts := Lock.Accounts.start fun _ => rfl
  consistent := Store.consistent_create options
  numbered := Store.numbered_create options
  fits _ := .idle

/-- A removal that is about to take out a document holds its lock for writing. -/
theorem of_removing (custody : s.Custody) {r : Removal} {mode : Lock.Mode}
    {held : List Lock.Handle} {trail : List Change}
    (hactor : s.actors t = ⟨.removing r, ⟨mode, held, []⟩, trail⟩) :
    resolved? r.path trail = some r.document ∧ r.document ∈ s.stored ∧ mode = .write ∧
      r.document.lock ∈ held := by
  have fits := custody.fits t
  rw [hactor] at fits
  cases fits with
  | removing hresolved hmem hlocks hkeeps =>
    have hlock : r.document.lock ∈ held.reverse ++ [] := by simp [hlocks]
    rw [List.append_nil, List.mem_reverse] at hlock
    exact ⟨hresolved, hmem, rfl, hlock⟩

/-- A document that has gone does not come back: nothing is stored under its id again. -/
theorem gone_step (custody : s.Custody) (h : Step t s s') (hd : d ∈ s.stored)
    (hnone : s.store.document? d.id = none) : s'.store.document? d.id = none := by
  rcases h.store_cases with
    ⟨alike, -⟩ | ⟨e, hstores, -⟩ | ⟨r, mode, held, trail, -, hthere, hstore, -⟩
  · rwa [alike.document?]
  · have hne : e.id ≠ d.id := by
      rw [hstores.id_eq]
      exact (custody.numbered.nextId_ne hd).symm
    rw [Store.document?_of_stores hstores, if_neg hne, hnone]
  · rcases Option.isSome_iff_exists.1 hthere with ⟨e, he⟩
    rw [hstore, (Store.takeOut_of_document? he).2.1, hnone, ite_self]

/-- A document that is there stays, unless a removal has found it and holds its lock. -/
theorem there_step (custody : s.Custody) (h : Step t s s')
    (hd : s.store.document? d.id = some d) :
    s'.store.document? d.id = some d ∨
      ∃ r mode held trail, s.actors t = ⟨.removing r, ⟨mode, held, []⟩, trail⟩ ∧ r.document = d := by
  have hmem : d ∈ s.stored := custody.numbered.known _ _ hd
  rcases h.store_cases with
    ⟨alike, -⟩ | ⟨e, hstores, -⟩ | ⟨r, mode, held, trail, hactor, hthere, hstore, -⟩
  · refine .inl ?_
    rwa [alike.document?]
  · -- a new document has a number that no earlier one has
    refine .inl ?_
    have hne : e.id ≠ d.id := by
      rw [hstores.id_eq]
      exact (custody.numbered.nextId_ne hmem).symm
    rwa [Store.document?_of_stores hstores, if_neg hne]
  · rcases custody.of_removing hactor with ⟨-, htarget, -, -⟩
    by_cases hid : d.id = r.document.id
    · have hsame := custody.numbered.distinct _ htarget _ hmem hid.symm
      exact .inr ⟨r, mode, held, trail, hactor, hsame⟩
    · refine .inl ?_
      rcases Option.isSome_iff_exists.1 hthere with ⟨e, he⟩
      rw [hstore, (Store.takeOut_of_document? he).2.1, if_neg hid, hd]

theorem consistent_step (custody : s.Custody) (h : Step t s s') : s'.store.Consistent := by
  rcases h.store_cases with
    ⟨alike, -⟩ | ⟨e, hstores, -⟩ | ⟨r, mode, held, trail, hactor, hthere, hstore, -⟩
  · exact custody.consistent.of_alike alike
  · have hfresh : s.store.document? e.id = none := by
      rw [hstores.id_eq]
      exact custody.numbered.document?_nextId
    exact custody.consistent.storeDocument hstores hfresh
  · rcases custody.of_removing hactor with ⟨-, htarget, -, -⟩
    rcases Option.isSome_iff_exists.1 hthere with ⟨e, he⟩
    obtain rfl := custody.numbered.document?_eq htarget he
    rw [hstore]
    exact custody.consistent.takeOut he

theorem numbered_step (custody : s.Custody) (h : Step t s s')
    (few : s'.stored.length < UInt32.size - 1) : s'.store.Numbered s'.stored := by
  rcases h.store_cases with
    ⟨alike, hstored⟩ | ⟨e, hstores, hstored⟩ | ⟨r, mode, held, trail, hactor, hthere, hstore, hstored⟩
  · rw [hstored]
    exact custody.numbered.of_alike alike
  · rw [hstored] at few ⊢
    exact custody.numbered.storeDocument hstores few
  · rcases Option.isSome_iff_exists.1 hthere with ⟨e, he⟩
    rw [hstored, hstore]
    exact custody.numbered.takeOut he

/-- A thread may go on relying on what it relies on, whatever another one does. -/
theorem fits_other (custody : s.Custody) (h : Step t s s') (hu : u ≠ t) :
    (s'.actors u).Fits s'.store s'.stored := by
  rw [h.actors_ne hu]
  apply (custody.fits u).mono
  · intro d hd
    exact h.stored_subset hd
  · intro d hd hnone
    exact custody.gone_step h hd hnone
  · intro d hread hlock hd
    rcases custody.there_step h hd with hthere | ⟨r, mode, held, trail, hactor, rfl⟩
    · exact hthere
    · -- whoever takes the document out writes its lock, so the other thread cannot be reading it
      rcases custody.of_removing hactor with ⟨-, -, rfl, hheld⟩
      have hwrites : (s.actors t).acquisition = ⟨.write, held, []⟩ := by rw [hactor]
      refine absurd hlock (Lock.Accounts.not_held custody.accounts ?_ ?_ hu)
      · rw [hwrites]
      · rwa [hwrites]

/-- A thread that goes on fits its new task if it does so with the store it leaves. -/
theorem fits_goOn {task : Task} {acquisition : Lock.Acquisition} {store : Store}
    (h : Actor.Fits store s.stored ⟨task, acquisition, ⟨s.store, store⟩ :: (s.actors t).trail⟩) :
    ((s.goOn t task acquisition store).actors t).Fits (s.goOn t task acquisition store).store
      (s.goOn t task acquisition store).stored := by
  rw [actors_goOn]
  exact h

/-- A thread that takes a step may rely on what its next task requires. -/
theorem fits_self (custody : s.Custody) (h : Step t s s') :
    (s'.actors t).Fits s'.store s'.stored := by
  have fits := custody.fits t
  have numbered := custody.numbered
  cases h with
  -- these threads were idle, or are from now on
  | createCollection uri permission hactor | storeDocument hactor | refuseDocument hactor =>
    show (s.actors t).Fits _ _
    rw [hactor]
    exact .idle
  | missRemoval hactor | endRemoval hactor | failRemoval hactor | miss hactor | endQuery hactor
  | failQuery hactor =>
    show (Function.update s.actors t {} t).Fits _ _
    rw [Function.update_self]
    exact .idle
  | acquire hactor hattempt =>
    apply fits_goOn
    rw [hactor] at fits ⊢
    exact (fits.acquire ⟨rfl, rfl, rfl⟩).of_alike ⟨rfl, rfl, rfl⟩
  | refuse hactor hattempt hfail | timeOut hactor hattempt htimeout hfail =>
    apply fits_goOn
    rw [hactor] at fits ⊢
    exact fits.fail hfail ⟨rfl, rfl, rfl⟩
  | release hactor hrelease hback =>
    apply fits_goOn
    -- the thread holds the lock it gives back, so nothing fails
    rcases Lock.Accounts.release_ok custody.accounts (congrArg Actor.acquisition hactor) with ⟨state, -, hok⟩
    obtain ⟨rfl, rfl⟩ := Prod.mk.inj (hok.symm.trans hrelease)
    rw [hactor] at fits ⊢
    exact (fits.giveBack hback ⟨rfl, rfl, rfl⟩).of_alike ⟨rfl, rfl, rfl⟩
  | beginRemoval hactor hbegin =>
    apply fits_goOn
    rw [hactor]
    exact .beginRemoval numbered hbegin
  | takeOut hactor htake =>
    apply fits_goOn
    rw [hactor] at fits ⊢
    exact fits.takeOut custody.consistent numbered htake
  | beginQuery q subject dynamic hactor =>
    apply fits_goOn
    -- so far nothing was found
    exact .finding (by simp [Resources.Each])
  | find hactor hfound =>
    apply fits_goOn
    rw [hactor] at fits ⊢
    cases fits with
    | finding hold =>
      -- documents found now are in the store, so they were stored before
      refine .finding (Resources.each_append.2 ⟨hold, ?_⟩)
      refine (each_of_resourcesAmong hfound).imp fun d hd => ?_
      exact numbered.known d.id d (custody.consistent.document?_of_mem hd.1)
  | enter hactor =>
    apply fits_goOn
    rw [hactor] at fits ⊢
    cases fits with
    | finding hfound => exact .querying rfl hfound
  | recheck hactor =>
    apply fits_goOn
    rw [hactor] at fits ⊢
    exact fits.recheck numbered
  | leaveOut hactor =>
    apply fits_goOn
    rw [hactor] at fits ⊢
    exact fits.leaveOut numbered
  | rechecked hactor =>
    apply fits_goOn
    rw [hactor] at fits ⊢
    cases fits with
    | rechecking _ hdone => exact .evaluating hdone
  | evaluate hactor =>
    apply fits_goOn
    rw [hactor] at fits ⊢
    cases fits with
    | evaluating hkept => exact .evaluated (hkept.imp fun d hd _ => hd.2)

end Custody

/-- Every step of every thread keeps the invariant, as long as few documents were stored. -/
theorem custody_step (custody : s.Custody) (h : Step t s s')
    (few : s'.stored.length < UInt32.size - 1) : s'.Custody where
  accounts := accounts_step custody.accounts h
  consistent := custody.consistent_step h
  numbered := custody.numbered_step h few
  fits u := by
    by_cases hu : u = t
    · rw [hu]
      exact custody.fits_self h
    · exact custody.fits_other h hu

/-- Whatever threads do in whatever order, the invariant holds. -/
theorem custody_of_reachable {options : Lock.Options} (h : Reachable options s)
    (few : s.stored.length < UInt32.size - 1) : s.Custody := by
  induction h with
  | start => exact .start options
  | step _ hstep ih =>
    have hle := hstep.length_stored_le
    exact custody_step (ih (by omega)) hstep few

theorem Steps.reachable {options : Lock.Options} (hs : Reachable options s) (h : Steps s s') :
    Reachable options s' := by
  induction h with
  | refl => exact hs
  | tail _ hstep ih =>
    rcases hstep with ⟨t, hstep⟩
    exact .step ih hstep

/-- A document that has gone does not come back. -/
theorem gone_of_steps {options : Lock.Options} (hs : Reachable options s) (h : Steps s s')
    (few : s'.stored.length < UInt32.size - 1) {d : Document} (hd : d ∈ s.stored)
    (hnone : s.store.document? d.id = none) : d ∈ s'.stored ∧ s'.store.document? d.id = none := by
  induction h with
  | refl => exact ⟨hd, hnone⟩
  | @tail s₁ s₂ hsteps hstep ih =>
    rcases hstep with ⟨t, hstep⟩
    have hle := hstep.length_stored_le
    have hfew : s₁.stored.length < UInt32.size - 1 := by omega
    rcases ih hfew with ⟨hmem, hgone⟩
    have custody := custody_of_reachable (Steps.reachable hs hsteps) hfew
    exact ⟨hstep.stored_subset hmem, custody.gone_step hstep hmem hgone⟩

end Traffic
end DocBase
