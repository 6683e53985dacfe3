import DocBase.Store.Basic
/-!
# What a subject may see

Documents are retrieved for a subject. A collection that is asked for has to exist and be readable;
below it, documents that the subject may not read, and documents in collections that the subject may
not read, are left out without an error. Only a document's own collection counts, not the
collections on the way to it.
-/

namespace DocBase.Store

/-- Whether a subject may read the collection a document is in. -/
def collectionReadable (d : Document) (subject : Subject) : Bool :=
  d.collection.all fun c => c.permission.readableBy subject

/-- The documents in a collection and below it that a subject may see; without `check`, all. -/
def collectionDocuments (s : Store) (subject : Subject) (uri : CollectionUri) (check : Bool) :
    Except StoreError DocumentSet :=
  match s.collection? uri with
  | none => .error (.collectionNotFound uri)
  | some c =>
    if check && !c.permission.readableBy subject then
      .error (.readDenied subject.name uri.text)
    else
      let visible := (s.documentsIn uri true).filter fun d =>
        !check || collectionReadable d subject
      .ok (({} : DocumentSet).addAll visible (some subject) check).2

/-- The document at a path, unless there is none or the subject may not read it. -/
def readableDocument (s : Store) (subject : Subject) (path : String) (check : Bool) :
    Except StoreError (Option Document) :=
  match Path.parse path with
  | .error e => .error e
  | .ok _ => .ok ((s.documentAt? path).filter fun d => !check || d.readableBy subject)

end DocBase.Store
