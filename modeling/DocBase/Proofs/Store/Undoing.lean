import DocBase.Proofs.Document.Locking
import DocBase.Proofs.Store.Accounts
import DocBase.Proofs.Store.Lookup
import Mathlib.Data.List.Basic
/-!
# Calls that fail and calls that are undone

A call that fails leaves the store as it is. A document is refused before anything is written, and a
removal gives up before it takes anything out: because it finds no document at its path, because it
is not granted the lock, or because the document is gone by the time it holds the lock. Then another
removal was faster, and what this one leaves is what that one left. To remove what was just stored
puts back what was there before, except for the id, which is not handed out again. Main statements:

* `Store.endRemoval_eq_error` and `Store.removeDocument_eq_error` — why removals fail, and that they
  change nothing then;
* `Store.removeDocument_storeDocument` — to remove what was stored;
* `History.traceless_run` — after any calls, whatever threads hold.
-/

namespace DocBase

namespace Keyed

variable {α κ : Type} [LT κ] [DecidableLT κ] [DecidableEq κ] {key : α → κ}

/-- A member that was put in leaves no trace when it is removed, and neither does one it
replaced. -/
theorem erase_insert (x : α) (l : List α) :
    erase key (key x) (insert key x l) = erase key (key x) l := by
  induction l with
  | nil => simp [insert, erase]
  | cons y ys ih =>
    simp only [insert]
    split
    · simp [erase]
    · split
      · next heq => simp [erase, ← heq]
      · simp only [erase, List.filter_cons] at ih ⊢
        rw [ih]

omit [LT κ] [DecidableLT κ] in
/-- Only where there is nothing to remove the list stays as it is. -/
theorem erase_eq_self_iff {k : κ} {l : List α} : erase key k l = l ↔ find? key k l = none := by
  simp [erase, find?]

end Keyed

namespace Store

variable {s s' : Store} {d : Document} {e : StoreError} {path : String} {r : Removal} {me : Thread}

/-! ## Removals that fail -/

/-- What a removal does that has found its document, from its lock to its end, while no other thread
moves. -/
def endRemoval (s : Store) (r : Removal) (me : Thread) : Except StoreError Document × Store :=
  match r.acquisition.run s.options me s.locks with
  | (.ok guard, locks) => { s with locks }.finishRemoval r guard me
  | (.error e, locks) => { s with locks }.failRemoval r e

theorem removeDocument_of_begin {begun : Store} (h : s.beginRemoval path = (.ok r, begun)) :
    s.removeDocument path me = begun.endRemoval r me := by
  rw [removeDocument, h]
  rfl

/-- A removal that holds its lock and can give it back fails only because its document is gone. -/
theorem finishRemoval_eq_error {guard : Lock.Guard} {locks : Lock.Table}
    (hunlock : guard.unlock me s.locks = (.ok (), locks))
    (h : s.finishRemoval r guard me = (.error e, s')) :
    s.document? r.document.id = none ∧ e = .documentNotFound r.path ∧
      s' = { s with locks, registry := s.registry.drop r.document.lock } := by
  have hlocks : (s.takeOut r.document).2.locks = s.locks := locks_takeOut rfl
  rw [finishRemoval_eq, hlocks, hunlock] at h
  cases hdocument : s.document? r.document.id with
  | none =>
    rw [takeOut_of_gone hdocument] at h
    obtain ⟨he, rfl⟩ := Prod.mk.inj h
    exact ⟨rfl, (Except.error.inj he).symm, rfl⟩
  | some stored =>
    rw [(takeOut_of_document? hdocument).1] at h
    simp [concludeRemoval] at h

/-- A removal that goes on and fails finds its document gone or is not granted its lock. It leaves
everything as it was when it went on, but for its own handle. -/
theorem endRemoval_eq_error (sound : ∀ h, (s.locks h).Sound)
    (hwrite : r.acquisition = (DocumentSet.ofList [r.document]).acquisition .write)
    (h : s.endRemoval r me = (.error e, s')) :
    s' = { s with registry := s.registry.drop r.document.lock } ∧
      (s.document? r.document.id = none ∧ e = .documentNotFound r.path ∨
        (s.locks r.document.lock).grants me .write = false ∧ ∃ l, e = .lock l) := by
  have counted : ∀ h, (s.locks h).Counted .write := fun h => (sound h).counted .write
  rw [endRemoval, hwrite] at h
  rcases hrun : ((DocumentSet.ofList [r.document]).acquisition .write).run s.options me s.locks with
    ⟨l | guard, locks⟩
  · -- the lock was not granted, and a set of one document has nothing else to give back
    rw [hrun] at h
    obtain rfl := Lock.Acquisition.locks_of_run_error counted hrun
    obtain ⟨he, rfl⟩ := Prod.mk.inj h
    refine ⟨rfl, .inr ⟨?_, l, (Except.error.inj he).symm⟩⟩
    rw [← Bool.not_eq_true]
    intro hgrants
    have hone : (DocumentSet.ofList [r.document]).documents = [r.document] := rfl
    have hall : ∀ d ∈ (DocumentSet.ofList [r.document]).documents,
        (s.locks d.lock).grants me .write = true := by simpa [hone] using hgrants
    have hlock : ∃ guard, ((DocumentSet.ofList [r.document]).lock .write s.options me s.locks).1 =
        .ok guard := DocumentSet.exists_lock_eq_ok.2 hall
    rcases hlock with ⟨guard, hok⟩
    rw [DocumentSet.lock, hrun] at hok
    contradiction
  · -- it was granted; then only a document that is gone stops the removal
    rw [hrun] at h
    have hunlock := Lock.Acquisition.unlock_run counted hrun
    rcases finishRemoval_eq_error (s := { s with locks }) hunlock h with ⟨hgone, he, rfl⟩
    exact ⟨rfl, .inl ⟨hgone, he⟩⟩

/-- A removal that fails finds no document at its path or is not granted the lock. It changes
nothing. -/
theorem removeDocument_eq_error (sound : ∀ h, (s.locks h).Sound)
    (h : s.removeDocument path me = (.error e, s')) :
    s' = s ∧ (s.documentAt? path = none ∧ e = .documentNotFound path ∨
      ∃ d, s.documentAt? path = some d ∧ (s.locks d.lock).grants me .write = false ∧
        ∃ l, e = .lock l) := by
  rcases hbegin : s.beginRemoval path with ⟨e' | r, begun⟩
  · rcases beginRemoval_eq_error hbegin with ⟨hnone, rfl, rfl⟩
    rw [removeDocument, hbegin] at h
    obtain ⟨he, rfl⟩ := Prod.mk.inj h
    exact ⟨rfl, .inl ⟨hnone, (Except.error.inj he).symm⟩⟩
  · rcases beginRemoval_eq_ok hbegin with ⟨hat, -, hwrite, rfl⟩
    rw [removeDocument_of_begin hbegin] at h
    -- to begin takes a handle, and to fail lets it go
    have hend := endRemoval_eq_error
      (s := { s with registry := s.registry.clone r.document.lock }) sound hwrite h
    rcases hend with ⟨rfl, ⟨hgone, -⟩ | hdenied⟩
    · -- no other thread moves, so what was found is there
      have hthere : s.document? r.document.id = none := hgone
      rw [document?_of_documentAt? hat] at hthere
      contradiction
    · refine ⟨?_, .inr ⟨r.document, hat, hdenied⟩⟩
      simp only [Lock.Registry.drop_clone]

/-! ## Removals of what was just stored -/

/-- To take out a document that was stored restores the paths, and the documents but for one that it
replaced. -/
theorem Stores.takeOut (stores : s.Stores d s') :
    (s'.takeOut d).2.documents = Keyed.erase Document.id d.id s.documents ∧
      (s'.takeOut d).2.paths = s.paths := by
  have hthere : s'.document? d.id = some d := by rw [document?_of_stores stores, if_pos rfl]
  have hfiled : s'.filed? d.uri = some d.id := by rw [filed?_of_stores stores, if_pos rfl]
  have hfree : Keyed.find? Prod.fst d.uri s.paths = none := by
    simpa [filed?] using stores.free
  constructor
  · rw [documents_takeOut hthere, stores.documents_eq, Keyed.erase_insert]
  · rw [((takeOut_of_document? hthere).2.2 hfiled).1, stores.paths_eq]
    have herase : Keyed.erase Prod.fst d.uri (Keyed.insert Prod.fst (d.uri, d.id) s.paths) =
        Keyed.erase Prod.fst d.uri s.paths := Keyed.erase_insert (d.uri, d.id) s.paths
    rw [herase, Keyed.erase_eq_self_iff.2 hfree]

theorem Alike.documentAt? (h : s.Alike s') (path : String) :
    s'.documentAt? path = s.documentAt? path := by
  have hdocuments : s'.document? = s.document? := funext h.document?
  simp only [Store.documentAt?, h.filed?, hdocuments]

/-- What is stored at a path is found there. -/
theorem documentAt?_of_storeDocument {kind : ResourceKind} {permission : Permission}
    (h : s.storeDocument path kind permission = (.ok d, s')) : s'.documentAt? path = some d := by
  have stores := storeDocument_eq_ok h
  rcases placed_of_storeDocument h with ⟨⟨p, c, hp, -, -, -, huri⟩, -, -, -⟩
  rw [documentAt?, hp]
  dsimp only
  rw [← huri, filed?_of_stores stores, if_pos rfl, Option.bind_some, document?_of_stores stores,
    if_pos rfl]

/-- A removal by the path by which a document was just stored takes out this document. It restores
collections and paths, and the documents but for one whose id the new one got. -/
theorem removeDocument_storeDocument {kind : ResourceKind} {permission : Permission}
    {stored : Store} {locks : Lock.Table} {registry : Lock.Registry} {removed : Document}
    (hstore : s.storeDocument path kind permission = (.ok d, stored))
    (hremove : { stored with locks, registry }.removeDocument path me = (.ok removed, s')) :
    removed = d ∧ s'.collections = s.collections ∧ s'.paths = s.paths ∧
      s'.documents = Keyed.erase Document.id s.nextId s.documents := by
  have stores := storeDocument_eq_ok hstore
  rcases keeping_of_removeDocument_ok hremove with ⟨hat, taken⟩
  -- the removal looks for the path in documents and paths, which nobody touched
  have apart : stored.Keeping { stored with locks, registry } := ⟨⟨rfl, rfl, rfl⟩, rfl⟩
  rw [apart.documentAt?, documentAt?_of_storeDocument hstore] at hat
  obtain rfl := Option.some.inj hat
  have undone := (apart.takeOut d).trans taken
  rcases stores.takeOut with ⟨hdocuments, hpaths⟩
  refine ⟨rfl, ?_, ?_, ?_⟩
  · rw [undone.collections_eq, collections_takeOut, (collections_storeDocument hstore).1]
  · rw [undone.paths_eq, hpaths]
  · rw [undone.documents_eq, hdocuments, stores.id_eq]

/-- It succeeds if nobody holds a lock. -/
theorem exists_removeDocument_eq_ok {kind : ResourceKind} {permission : Permission} {stored : Store}
    (hstore : s.storeDocument path kind permission = (.ok d, stored))
    (hfree : s.locks = Lock.Table.free) (me : Thread) :
    ∃ s', stored.removeDocument path me = (.ok d, s') := by
  have hlocks : stored.locks = Lock.Table.free := (storeDocument_eq_ok hstore).locks_eq.trans hfree
  have sound : ∀ h, (stored.locks h).Sound := by
    rw [hlocks]
    exact fun _ => Lock.State.sound_free
  rcases hremove : stored.removeDocument path me with ⟨e | removed, s'⟩
  · rcases removeDocument_eq_error sound hremove with ⟨-, ⟨hnone, -⟩ | ⟨e', -, hdenied, -⟩⟩
    · rw [documentAt?_of_storeDocument hstore] at hnone
      contradiction
    · -- nobody stands in the way
      rw [hlocks] at hdenied
      contradiction
  · have hsame : { stored with locks := stored.locks, registry := stored.registry }.removeDocument
        path me = (.ok removed, s') := hremove
    exact ⟨s', by rw [(removeDocument_storeDocument hstore hsame).1]⟩

end Store

open Lock (Usage)

namespace History

/-- After any calls, and whatever holds threads were granted and gave back: a document that is
refused and a removal that fails change nothing. The removal may also have found its document before
others went on, in another state of the store; if it fails then, it changes nothing but for its
handle, which it had taken when it began. A removal that succeeds, by the path by which a document
was just stored, takes out this document and restores collections and paths. It restores the
documents, too, if the id was free, as ids are until the counter comes round. -/
theorem traceless_run (options : Lock.Options) (calls : List Call) {u : Usage}
    (reached : Usage.Reachable options u) :
    let s := { (run options calls).store with locks := u.locks }
    (∀ path kind permission e s', s.storeDocument path kind permission = (.error e, s') → s' = s) ∧
    (∀ path me e s', s.removeDocument path me = (.error e, s') → s' = s) ∧
    (∀ (before : Store) path r begun, before.beginRemoval path = (.ok r, begun) →
      begun = { before with registry := before.registry.clone r.document.lock } ∧
      ∀ me e s', s.endRemoval r me = (.error e, s') →
        s' = { s with registry := s.registry.drop r.document.lock }) ∧
    ∀ path kind permission d stored, s.storeDocument path kind permission = (.ok d, stored) →
      ∀ locks registry me e s', { stored with locks, registry }.removeDocument path me = (.ok e, s') →
        e = d ∧ s'.collections = s.collections ∧ s'.paths = s.paths ∧
        (s'.documents = s.documents ↔ s.document? s.nextId = none) ∧
        ((run options calls).stored.length < UInt32.size - 1 → s'.documents = s.documents) := by
  intro s
  have sound : ∀ h, (s.locks h).Sound := (Usage.sound_of_reachable reached).1
  refine ⟨?_, ?_, ?_, ?_⟩
  · -- nothing is written before the last check
    intro path kind permission e s' h
    have hsame := Store.storeDocument_error (congrArg Prod.fst h)
    rwa [h] at hsame
  · intro path me e s' h
    exact (Store.removeDocument_eq_error sound h).1
  · intro before path r begun hbegin
    rcases Store.beginRemoval_eq_ok hbegin with ⟨-, -, hwrite, hbegun⟩
    refine ⟨hbegun, fun me e s' h => ?_⟩
    exact (Store.endRemoval_eq_error sound hwrite h).1
  · intro path kind permission d stored hstore locks registry me e s' hremove
    rcases Store.removeDocument_storeDocument hstore hremove with
      ⟨hremoved, hcollections, hpaths, hdocuments⟩
    have hiff : s'.documents = s.documents ↔ s.document? s.nextId = none := by
      rw [hdocuments]
      exact Keyed.erase_eq_self_iff
    refine ⟨hremoved, hcollections, hpaths, hiff, fun few => ?_⟩
    -- below the bound the next id is free
    exact hiff.2 (sound_run options calls few).numbered.document?_nextId

/-- Calls by which a document is stored, and removed again. -/
def filing : List Call :=
  [.createCollection ⟨["notes"], by decide⟩ Store.rootPermission,
    .storeDocument "/db/notes/x.xml" .xml Store.rootPermission,
    .removeDocument "/db/notes/x.xml" "first"]

/-- A thread reads the document. -/
def reading : Usage :=
  Usage.answer {} ⟨.acquire, "reader", ⟨0, 1⟩, .read, .ok ()⟩
    (Lock.Table.free.set ⟨0, 1⟩ (Lock.State.take {} "reader" .read))

theorem reachable_reading : Usage.Reachable {} reading :=
  .step .start (.acquired (.inl rfl) rfl)

/-- The document that is read is not removed. Where a first removal has taken it out, a second one
that had found it before does not find it again, and a removal of another document that was just
stored, by a path with a blank before it, restores what was there. -/
theorem traceless_run_reading :
    let read := { (run {} (filing.take 2)).store with locks := reading.locks }
    let gone := { (run {} filing).store with locks := reading.locks }
    read.removeDocument "/db/notes/x.xml" "second" = (.error (.lock (.timeout 1 .write)), read) ∧
    (∃ r begun, (run {} (filing.take 2)).store.beginRemoval "/db/notes/x.xml" = (.ok r, begun) ∧
      gone.endRemoval r "reader" = (.error (.documentNotFound "/db/notes/x.xml"),
        { gone with registry := gone.registry.drop r.document.lock })) ∧
    ∃ d stored s', gone.storeDocument " /db/notes/y.xml" .xml Store.rootPermission = (.ok d, stored) ∧
      stored.removeDocument " /db/notes/y.xml" "second" = (.ok d, s') ∧
      s'.collections = gone.collections ∧ s'.paths = gone.paths ∧ s'.documents = gone.documents := by
  intro read gone
  rcases traceless_run {} (filing.take 2) reachable_reading with ⟨-, hremove, -, -⟩
  rcases traceless_run {} filing reachable_reading with ⟨-, -, hend, hundo⟩
  refine ⟨?_, ?_, ?_⟩
  · -- the reader is in the way, and waits without giving anything back
    have hfails : (read.removeDocument "/db/notes/x.xml" "second").1 =
        .error (.lock (.timeout 1 .write)) := by decide +kernel
    exact Prod.ext hfails (hremove _ _ _ _ (Prod.ext hfails rfl))
  · have hlate : (match (run {} (filing.take 2)).store.beginRemoval "/db/notes/x.xml" with
        | (.ok r, _) => some (gone.endRemoval r "reader").1
        | (.error _, _) => none) = some (.error (.documentNotFound "/db/notes/x.xml")) := by
      decide +kernel
    rcases hbegin : (run {} (filing.take 2)).store.beginRemoval "/db/notes/x.xml" with ⟨e | r, begun⟩
    · simp [hbegin] at hlate
    · rw [hbegin] at hlate
      have hfails := Option.some.inj hlate
      exact ⟨r, begun, rfl,
        Prod.ext hfails ((hend _ _ _ _ hbegin).2 _ _ _ (Prod.ext hfails rfl))⟩
  · -- where nobody is in the way the removal undoes what was stored
    have hdone : ((gone.storeDocument " /db/notes/y.xml" .xml Store.rootPermission).1.toOption.isSome &&
        ((gone.storeDocument " /db/notes/y.xml" .xml Store.rootPermission).2.removeDocument
          " /db/notes/y.xml" "second").1.toOption.isSome) = true := by decide +kernel
    rcases hstore : gone.storeDocument " /db/notes/y.xml" .xml Store.rootPermission with ⟨e | d, stored⟩
    · simp [hstore, Except.toOption] at hdone
    rcases hremoved : stored.removeDocument " /db/notes/y.xml" "second" with ⟨e | e, s'⟩
    · simp [hstore, hremoved, Except.toOption] at hdone
    rcases hundo _ _ _ _ _ hstore stored.locks stored.registry _ _ _ hremoved with
      ⟨rfl, hcollections, hpaths, -, hdocuments⟩
    exact ⟨_, _, _, rfl, hremoved, hcollections, hpaths, hdocuments (by decide +kernel)⟩

end History
end DocBase
