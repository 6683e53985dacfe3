import DocBase.Proofs.Store.Custody
/-!
# A document is removed once

However removals, queries and storing interleave: of all removals that find the same document one
succeeds, and it takes out this document with its path and nothing else; a removal that fails has
changed neither documents nor paths; and a document that is stored later at the path of one that was
removed is left alone by the removals that had found the earlier one. Main statements:

* `once_step` — what one step preserves, and `once_of_reachable`, what holds at all times;
* `removed_once` — what can be said of all removals at any time.
-/

namespace DocBase

open Query

/-- The document a removal took out, if it has done so and has yet to answer. -/
def Actor.tookOut? (a : Actor) : Option Document :=
  match a.task with
  | .removed r present _ => if present then some r.document else none
  | _ => none

namespace RemovalAnswer

/-- The id of the document that was removed. -/
def removed? (a : RemovalAnswer) : Option DocId := a.answer.toOption.map Document.id

/-- A removal that succeeded took out the document it had found at its path, and one that failed
changed nothing. -/
structure Right (a : RemovalAnswer) : Prop where
  ok : ∀ d, a.answer = .ok d → resolved? a.path a.trail = some d ∧ TakenOnce d a.trail
  error : ∀ e, a.answer = .error e → ∀ c ∈ a.trail, c.Keeps

theorem right_error {path : String} {trail : List Change} {e : StoreError}
    (h : ∀ c ∈ trail, c.Keeps) : Right ⟨path, trail, .error e⟩ where
  ok d hd := by simp at hd
  error e _ := h

theorem right_ok {path : String} {trail : List Change} {d : Document}
    (hresolved : resolved? path trail = some d) (htaken : TakenOnce d trail) :
    Right ⟨path, trail, .ok d⟩ where
  ok e he := by
    obtain rfl := Except.ok.inj he
    exact ⟨hresolved, htaken⟩
  error e he := by simp at he

end RemovalAnswer

namespace Traffic

/-- The ids of the documents that were answered to be removed. -/
def removedIds (s : Traffic) : List DocId := s.removals.filterMap RemovalAnswer.removed?

/-- All answers to removals are right, and no two removals, answered or yet to be answered, took out
the same document. -/
structure Once (s : Traffic) : Prop where
  right : ∀ a ∈ s.removals, a.Right
  nodup : s.removedIds.Nodup
  gone : ∀ id ∈ s.removedIds, ∃ d ∈ s.stored, d.id = id ∧ s.store.document? id = none
  pending : ∀ t d, (s.actors t).tookOut? = some d → d.id ∉ s.removedIds
  apart : ∀ t u d e, t ≠ u → (s.actors t).tookOut? = some d → (s.actors u).tookOut? = some e →
    d.id ≠ e.id

variable {s s' : Traffic} {t u : Thread}

theorem once_start (options : Lock.Options) : Once { store := Store.create options } where
  right a ha := by simp at ha
  nodup := List.nodup_nil
  gone id hid := by simp [removedIds] at hid
  pending t d hd := by simp [Actor.tookOut?] at hd
  apart t u d e _ hd := by simp [Actor.tookOut?] at hd

/-- A document that a removal took out has gone. -/
theorem Custody.gone_of_tookOut (custody : s.Custody) {d : Document}
    (h : (s.actors t).tookOut? = some d) : d ∈ s.stored ∧ s.store.document? d.id = none := by
  have fits := custody.fits t
  generalize s.actors t = a at fits h
  cases fits with
  | present hresolved hmem hnone htaken =>
    obtain rfl := Option.some.inj h
    exact ⟨hmem, hnone⟩
  | _ => simp [Actor.tookOut?] at h

/-! ## Steps -/

/-- A step that begins or goes on with a request and takes nothing out. -/
structure Step.Plain (t : Thread) (s s' : Traffic) : Prop where
  removals_eq : s'.removals = s.removals
  tookOut : ∀ d, (s'.actors t).tookOut? = some d → (s.actors t).tookOut? = some d

/-- A step that takes out a document. -/
structure Step.Takes (t : Thread) (d : Document) (s s' : Traffic) : Prop where
  removals_eq : s'.removals = s.removals
  tookOut_eq : (s'.actors t).tookOut? = some d
  there : s.store.document? d.id = some d

/-- A step that answers a removal. -/
structure Step.Answers (t : Thread) (a : RemovalAnswer) (s s' : Traffic) : Prop where
  removals_eq : s'.removals = a :: s.removals
  tookOut_eq : (s'.actors t).tookOut? = none
  right : a.Right
  removed : ∀ id, a.removed? = some id → ∃ d, (s.actors t).tookOut? = some d ∧ d.id = id

theorem Step.Plain.goOn {task : Task} {acquisition : Lock.Acquisition} {store : Store}
    (h : ∀ d, Actor.tookOut? ⟨task, acquisition, ⟨s.store, store⟩ :: (s.actors t).trail⟩ = some d →
      (s.actors t).tookOut? = some d) :
    Step.Plain t s (s.goOn t task acquisition store) where
  removals_eq := rfl
  tookOut := by
    rw [actors_goOn]
    exact h

/-- What becomes of a task that does not get a lock took nothing out. -/
theorem tookOut?_fail {task task' : Task} {e : Lock.Error} {acquisition : Lock.Acquisition}
    {trail : List Change} (h : task.fail? e = some task') :
    Actor.tookOut? ⟨task', acquisition, trail⟩ = none := by
  cases task <;> simp only [Task.fail?, Option.some.injEq, reduceCtorEq] at h
  all_goals
    subst h
    rfl

/-- Giving back a lock takes nothing out. -/
theorem tookOut?_giveBack {task task' : Task} {result : Except Lock.Error Unit}
    {acquisition acquisition' : Lock.Acquisition} {trail trail' : List Change}
    (h : task.giveBack? result = some task') :
    Actor.tookOut? ⟨task', acquisition', trail'⟩ = Actor.tookOut? ⟨task, acquisition, trail⟩ := by
  cases task <;> simp only [Task.giveBack?, Option.some.injEq, reduceCtorEq] at h
  all_goals
    subst h
    rfl

/-- A removal is answered with an error when none of its steps changed anything. -/
theorem exists_answers_error {path : String} {e : StoreError} {store : Store}
    (alike : s.store.Alike store) (htrail : ∀ c ∈ (s.actors t).trail, c.Keeps) :
    ∃ a, Step.Answers t a s (s.answerRemoval t path (.error e) store) := by
  have hkeeps : Change.Keeps ⟨s.store, store⟩ := alike
  refine ⟨_, rfl, by simp [answerRemoval, Actor.tookOut?], ?_, ?_⟩
  · exact RemovalAnswer.right_error (List.forall_mem_cons.2 ⟨hkeeps, htrail⟩)
  · intro id hid
    simp [RemovalAnswer.removed?, Except.toOption] at hid

/-- A removal that took its document out is answered with this document. -/
theorem exists_answers_ok {r : Removal} {store : Store} (alike : s.store.Alike store)
    (htookOut : (s.actors t).tookOut? = some r.document)
    (hresolved : resolved? r.path (s.actors t).trail = some r.document)
    (htaken : TakenOnce r.document (s.actors t).trail) :
    ∃ a, Step.Answers t a s (s.answerRemoval t r.path (.ok r.document) store) := by
  have hkeeps : Change.Keeps ⟨s.store, store⟩ := alike
  refine ⟨_, rfl, by simp [answerRemoval, Actor.tookOut?], ?_, ?_⟩
  · exact RemovalAnswer.right_ok (resolved?_cons hresolved _) (htaken.cons hkeeps)
  · intro id hid
    exact ⟨r.document, htookOut, Option.some.inj hid⟩

/-- Every step takes a document out, answers a removal, or does neither. -/
theorem Step.removal_cases (custody : s.Custody) (h : Step t s s') :
    Step.Plain t s s' ∨ (∃ d, Step.Takes t d s s') ∨ ∃ a, Step.Answers t a s s' := by
  have fits := custody.fits t
  -- only removals take documents out and answer; everything else leaves both as they were
  cases h with
  | createCollection uri permission hactor | storeDocument hactor hstore
  | refuseDocument hactor hstore => exact .inl ⟨rfl, fun d hd => hd⟩
  | refuse hactor hattempt hfail | timeOut hactor hattempt htimeout hfail =>
    refine .inl (.goOn fun d hd => ?_)
    simp [tookOut?_fail hfail] at hd
  | release hactor hrelease hback =>
    refine .inl (.goOn fun d hd => ?_)
    rw [hactor, ← hd]
    exact (tookOut?_giveBack hback).symm
  | acquire hactor hattempt =>
    refine .inl (.goOn fun d hd => ?_)
    rw [hactor, ← hd]
    rfl
  | beginRemoval | beginQuery | find | enter | leaveOut | rechecked | evaluate =>
    refine .inl (.goOn fun d hd => ?_)
    simp [Actor.tookOut?] at hd
  | recheck hactor =>
    refine .inl (.goOn fun d hd => ?_)
    split at hd <;> simp [Actor.tookOut?] at hd
  | miss | endQuery | failQuery =>
    refine .inl ⟨rfl, fun d hd => ?_⟩
    simp [answerQuery, Actor.tookOut?] at hd
  | @takeOut r mode held trail present store hactor htake =>
    -- it may find its document gone; then it has not taken out anything
    cases hd : s.store.document? r.document.id with
    | none =>
      obtain ⟨rfl, rfl⟩ := Prod.mk.inj ((Store.takeOut_of_gone hd).symm.trans htake)
      refine .inl (.goOn fun d hd => ?_)
      simp [Actor.tookOut?] at hd
    | some d =>
      rcases custody.of_removing hactor with ⟨-, hmem, -, -⟩
      obtain rfl := custody.numbered.document?_eq hmem hd
      have hpresent := (Store.takeOut_of_document? hd).1
      rw [htake] at hpresent
      obtain rfl : present = true := hpresent
      refine .inr (.inl ⟨r.document, rfl, ?_, hd⟩)
      rw [actors_goOn]
      rfl
  | missRemoval hactor hbegin =>
    refine .inr (.inr (exists_answers_error (Store.quiet_beginRemoval hbegin).toAlike ?_))
    simp [hactor]
  | endRemoval hactor hend =>
    have alike := (Store.quiet_concludeRemoval hend).toAlike
    rw [hactor] at fits
    refine .inr (.inr ?_)
    -- by now it is settled whether this removal was the one that took the document out
    cases fits with
    | present hresolved hmem hnone htaken =>
      obtain ⟨rfl, -⟩ := Prod.mk.inj hend
      exact exists_answers_ok alike (by rw [hactor]; rfl) (by rwa [hactor]) (by rwa [hactor])
    | gone hkeeps =>
      obtain ⟨rfl, -⟩ := Prod.mk.inj hend
      exact exists_answers_error alike (by rwa [hactor])
  | failRemoval hactor hend =>
    have alike := (Store.quiet_failRemoval hend).toAlike
    obtain ⟨rfl, -⟩ := Prod.mk.inj hend
    rw [hactor] at fits
    cases fits with
    | removalFailed hkeeps => exact .inr (.inr (exists_answers_error alike (by rwa [hactor])))

/-! ## All removals -/

/-- Ids that were answered to be removed belong to documents that have gone for good. -/
theorem Once.gone_step (once : s.Once) (custody : s.Custody) (h : Step t s s') :
    ∀ id ∈ s.removedIds, ∃ d ∈ s'.stored, d.id = id ∧ s'.store.document? id = none := by
  intro id hid
  rcases once.gone id hid with ⟨d, hmem, rfl, hnone⟩
  exact ⟨d, h.stored_subset hmem, rfl, custody.gone_step h hmem hnone⟩

theorem Step.tookOut?_ne (h : Step t s s') (hu : u ≠ t) :
    (s'.actors u).tookOut? = (s.actors u).tookOut? := by
  rw [h.actors_ne hu]

theorem Once.plain (once : s.Once) (custody : s.Custody) (h : Step t s s')
    (plain : Step.Plain t s s') : s'.Once := by
  have hids : s'.removedIds = s.removedIds := congrArg (List.filterMap _) plain.removals_eq
  -- whatever is taken out now was taken out before
  have hbefore : ∀ u d, (s'.actors u).tookOut? = some d → (s.actors u).tookOut? = some d := by
    intro u d hd
    by_cases hu : u = t
    · subst hu
      exact plain.tookOut d hd
    · rwa [h.tookOut?_ne hu] at hd
  constructor
  · rw [plain.removals_eq]
    exact once.right
  · rw [hids]
    exact once.nodup
  · rw [hids]
    exact once.gone_step custody h
  · intro u d hd
    rw [hids]
    exact once.pending u d (hbefore u d hd)
  · intro u v d e huv hd he
    exact once.apart u v d e huv (hbefore u d hd) (hbefore v e he)

/-- The document that is taken out was there, so no other removal took it out. -/
theorem Once.takes (once : s.Once) (custody : s.Custody) (h : Step t s s') {d : Document}
    (takes : Step.Takes t d s s') : s'.Once := by
  have hids : s'.removedIds = s.removedIds := congrArg (List.filterMap _) takes.removals_eq
  -- any other removal that took a document out did so before, and this one is still there
  have hnew : ∀ u, u ≠ t → ∀ e, (s'.actors u).tookOut? = some e → e.id ≠ d.id := by
    intro u hu e he hid
    rw [h.tookOut?_ne hu] at he
    have hnone := (custody.gone_of_tookOut he).2
    rw [hid, takes.there] at hnone
    simp at hnone
  have hself : ∀ e, (s'.actors t).tookOut? = some e → e = d := by
    intro e he
    rw [takes.tookOut_eq] at he
    exact (Option.some.inj he).symm
  constructor
  · rw [takes.removals_eq]
    exact once.right
  · rw [hids]
    exact once.nodup
  · rw [hids]
    exact once.gone_step custody h
  · intro u e he
    rw [hids]
    -- the removal that has just taken its document out, against one that did earlier
    by_cases hu : u = t
    · subst hu
      obtain rfl := hself e he
      intro hmem
      rcases once.gone _ hmem with ⟨-, -, -, hnone⟩
      rw [takes.there] at hnone
      simp at hnone
    · rw [h.tookOut?_ne hu] at he
      exact once.pending u e he
  · intro u v e f huv he hf
    by_cases hu : u = t
    · subst hu
      obtain rfl := hself e he
      exact (hnew v (Ne.symm huv) f hf).symm
    · by_cases hv : v = t
      · subst hv
        obtain rfl := hself f hf
        exact hnew u hu e he
      · rw [h.tookOut?_ne hu] at he
        rw [h.tookOut?_ne hv] at hf
        exact once.apart u v e f huv he hf

/-- A removal that is answered has nothing more to answer for. -/
theorem Once.answers (once : s.Once) (custody : s.Custody) (h : Step t s s') {a : RemovalAnswer}
    (answers : Step.Answers t a s s') : s'.Once := by
  have hids : s'.removedIds = (a.removed?.toList ++ s.removedIds) := by
    rw [removedIds, answers.removals_eq, List.filterMap_cons]
    cases a.removed? <;> rfl
  -- this removal is over, so whoever has taken a document out is another one
  have hother : ∀ u d, (s'.actors u).tookOut? = some d → u ≠ t ∧ (s.actors u).tookOut? = some d := by
    intro u d hd
    have hu : u ≠ t := by
      rintro rfl
      rw [answers.tookOut_eq] at hd
      simp at hd
    rw [h.tookOut?_ne hu] at hd
    exact ⟨hu, hd⟩
  constructor
  · rw [answers.removals_eq]
    exact List.forall_mem_cons.2 ⟨answers.right, once.right⟩
  · rw [hids]
    cases hremoved : a.removed? with
    | none => exact once.nodup
    | some id =>
      rcases answers.removed id hremoved with ⟨d, hd, rfl⟩
      exact List.nodup_cons.2 ⟨once.pending t d hd, once.nodup⟩
  · -- an id that is removed from now on is that of the document this removal took out
    intro id hid
    rw [hids, List.mem_append, Option.mem_toList] at hid
    rcases hid with hid | hid
    · rcases answers.removed id hid with ⟨d, hd, rfl⟩
      rcases custody.gone_of_tookOut hd with ⟨hmem, hnone⟩
      exact ⟨d, h.stored_subset hmem, rfl, custody.gone_step h hmem hnone⟩
    · exact once.gone_step custody h id hid
  · intro u d hd hid
    rcases hother u d hd with ⟨hu, hd⟩
    -- no two removals took out one document, so what this one answers nobody else did
    rw [hids, List.mem_append, Option.mem_toList] at hid
    rcases hid with hid | hid
    · rcases answers.removed d.id hid with ⟨e, he, hsame⟩
      exact once.apart u t d e hu hd he hsame.symm
    · exact once.pending u d hd hid
  · intro u v d e huv hd he
    exact once.apart u v d e huv (hother u d hd).2 (hother v e he).2

/-- Every step keeps it so that no document is removed twice. -/
theorem once_step (custody : s.Custody) (once : s.Once) (h : Step t s s') : s'.Once := by
  rcases h.removal_cases custody with plain | ⟨d, takes⟩ | ⟨a, answers⟩
  · exact once.plain custody h plain
  · exact once.takes custody h takes
  · exact once.answers custody h answers

/-- At all times. -/
theorem once_of_reachable {options : Lock.Options} (h : Reachable options s)
    (few : s.stored.length < UInt32.size - 1) : s.Once := by
  induction h with
  | start => exact once_start options
  | step hs hstep ih =>
    have hle := hstep.length_stored_le
    exact once_step (custody_of_reachable hs (by omega)) (ih (by omega)) hstep

/-- As long as few documents were stored: no document was removed twice. A removal that succeeded
took out the document it had found at its path when it began, with the path of that document, in one
of its steps, and its other steps changed nothing; no step of a removal that failed changed
documents or paths. And whatever step comes next, a document that is in the store stays there under
its path, unless the step is that of a removal which had found this very document when it began. -/
theorem removed_once {options : Lock.Options} (h : Reachable options s)
    (few : s.stored.length < UInt32.size - 1) :
    s.removedIds.Nodup ∧
    (∀ a ∈ s.removals, ∀ d, a.answer = .ok d →
      resolved? a.path a.trail = some d ∧ TakenOnce d a.trail) ∧
    (∀ a ∈ s.removals, ∀ e, a.answer = .error e → ∀ c ∈ a.trail, c.Keeps) ∧
    ∀ t s', Step t s s' → ∀ d, s.store.document? d.id = some d →
      (s'.store.document? d.id = some d ∧ s'.store.filed? d.uri = some d.id) ∨
      ∃ r, (s.actors t).task = .removing r ∧ resolved? r.path (s.actors t).trail = some d := by
  have custody := custody_of_reachable h few
  have once := once_of_reachable h few
  refine ⟨once.nodup, fun a ha => (once.right a ha).ok, fun a ha => (once.right a ha).error, ?_⟩
  intro t s' hstep d hd
  rcases custody.there_step hstep hd with hthere | ⟨r, mode, held, trail, hactor, rfl⟩
  · have hfiled := (custody.consistent_step hstep).filed?_of_document? hthere
    exact .inl ⟨hthere, hfiled⟩
  · have hresolved := (custody.of_removing hactor).1
    refine .inr ⟨r, ?_, ?_⟩
    · rw [hactor]
    · rwa [hactor]

/-- Two threads find the same document, and by the time the second has its lock another document is
stored at the same path: the second removal fails and leaves the new document where it is. -/
theorem removed_once_late :
    ∃ s : Traffic, Reachable {} s ∧
      s.removals.map RemovalAnswer.path = ["/db/x.xml", "/db/x.xml"] ∧
      s.removals.map RemovalAnswer.removed? = [none, some 1] ∧ s.removedIds.Nodup ∧
      (∀ a ∈ s.removals, ∀ e, a.answer = .error e → ∀ c ∈ a.trail, c.Keeps) ∧
      s.store.filed? "/db/x.xml" = some 2 := by
  have stored : Reachable {} _ :=
    .step .start (@Step.storeDocument "c" _ "/db/x.xml" .xml Store.rootPermission _ _ rfl rfl)
  have first := stored.step (@Step.beginRemoval "a" _ "/db/x.xml" _ _ rfl rfl)
  have second := first.step (@Step.beginRemoval "b" _ "/db/x.xml" _ _ rfl rfl)
  have locked := second.step (.acquire (t := "a") rfl rfl)
  have taken := locked.step (.takeOut (t := "a") rfl rfl)
  have back := taken.step (.release (t := "a") rfl rfl rfl)
  have answered := back.step (.endRemoval (t := "a") rfl rfl)
  have replaced := answered.step
    (@Step.storeDocument "c" _ "/db/x.xml" .xml Store.rootPermission _ _ rfl rfl)
  -- the second removal is granted the lock when the path leads to another document
  have late := replaced.step (.acquire (t := "b") rfl rfl)
  have gone := late.step (.takeOut (t := "b") rfl rfl)
  have unlocked := gone.step (.release (t := "b") rfl rfl rfl)
  have done := unlocked.step (.endRemoval (t := "b") rfl rfl)
  rcases removed_once done (by decide) with ⟨hnodup, -, hfailed, -⟩
  exact ⟨_, done, rfl, rfl, hnodup, hfailed, rfl⟩

end Traffic
end DocBase
