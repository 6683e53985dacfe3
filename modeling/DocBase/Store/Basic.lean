import DocBase.Document.Locking
import DocBase.Text.Cut
/-!
# The store

The store holds users by name, collections in the order of their uris, documents by id, and the id
filed under each path. It hands out document ids from a 32-bit counter that wraps around, and a lock
for each id. Creating a collection creates the ancestors it lacks; storing a document needs its
collection. Main statement: `storeDocument_error` — a document that is refused changes nothing.
-/

namespace DocBase

inductive StoreError where
  | invalidUri (error : InvalidUri)
  | invalidPath (path : String)
  | collectionNotFound (uri : CollectionUri)
  | documentNotFound (path : String)
  | alreadyExists (path : String)
  | readDenied (subject resource : String)
  | lock (error : Lock.Error)
deriving DecidableEq, Repr

def StoreError.message : StoreError → String
  | .invalidUri e => e.message
  | .invalidPath p => "invalid document path '" ++ p ++ "'"
  | .collectionNotFound u => "collection " ++ u.text ++ " not found"
  | .documentNotFound p => "document " ++ p ++ " not found"
  | .alreadyExists p => "resource " ++ p ++ " already exists"
  | .readDenied s r => "user '" ++ s ++ "' lacks AccessMode(READ) permission on " ++ r
  | .lock e => e.message

/-- Where a document is filed: its collection and its name there. -/
structure Path where
  collection : CollectionUri
  name : String
deriving DecidableEq, Repr

namespace Path

/-- The form under which the store files a document. -/
def text (p : Path) : String := p.collection.text ++ "/" ++ p.name

/-- Reads a path, which is cut at its last slash; blanks around it do not count. -/
def parse (input : String) : Except StoreError Path :=
  match Text.cutLast '/' (Text.trim input.toList) with
  | none => .error (.invalidPath input)
  | some (_, []) => .error (.invalidPath input)
  | some (front, name) =>
    match CollectionUri.parse (String.ofList front) with
    | .ok uri => .ok ⟨uri, String.ofList name⟩
    | .error e => .error (.invalidUri e)

end Path

structure Store where
  options : Lock.Options
  users : List Subject
  collections : List Collection
  documents : List Document := []
  /-- The id filed under each path. -/
  paths : List (String × DocId) := []
  nextId : DocId := 1
  locks : Lock.Table := Lock.Table.free
  registry : Lock.Registry := {}

namespace Store

/-- The permission of the root collection. -/
def rootPermission : Permission :=
  Permission.ofMode adminUser adminGroup Permission.collectionMode

/-- A store with the root collection and two users, an administrator and a guest. -/
def create (options : Lock.Options) : Store where
  options
  -- in the order of their names
  users := Keyed.insert Subject.name Subject.guest [Subject.admin adminUser]
  collections := [⟨CollectionUri.root, rootPermission⟩]

/-! ## Users -/

/-- A user of the same name is replaced. -/
def registerUser (s : Store) (u : Subject) : Store :=
  { s with users := Keyed.insert Subject.name u s.users }

def user? (s : Store) (name : String) : Option Subject :=
  Keyed.find? Subject.name name s.users

/-! ## Collections -/

def collection? (s : Store) (uri : CollectionUri) : Option Collection :=
  Keyed.find? Collection.key uri.text s.collections

/-- The uris from `uri` upwards that have no collection, up to the first that has one. -/
def missing (s : Store) (uri : CollectionUri) : List CollectionUri :=
  uri.lineage.takeWhile fun u => (s.collection? u).isNone

/-- The collection of a uri. One that exists is left as it is; otherwise it is made, and so are the
ancestors it lacks, all with the same permission. -/
def createCollection (s : Store) (uri : CollectionUri) (permission : Permission) :
    Collection × Store :=
  match s.collection? uri with
  | some c => (c, s)
  | none =>
    -- the uri itself is the first of those that are missing
    let made := (s.missing uri).map fun u => Collection.mk u permission
    (⟨uri, permission⟩,
      { s with collections := made.foldl (fun cs c => Keyed.insert Collection.key c cs) s.collections })

/-! ## Documents -/

def document? (s : Store) (id : DocId) : Option Document :=
  Keyed.find? Document.id id s.documents

/-- The id filed under a path. -/
def filed? (s : Store) (path : String) : Option DocId :=
  (Keyed.find? Prod.fst path s.paths).map Prod.snd

/-- The document at a path as a user writes it. -/
def documentAt? (s : Store) (path : String) : Option Document :=
  match Path.parse path with
  | .ok p => (s.filed? p.text).bind s.document?
  | .error _ => none

/-- Documents filed directly in a collection, or anywhere below it too. -/
def documentsIn (s : Store) (uri : CollectionUri) (recursive : Bool) : List Document :=
  s.documents.filter fun d =>
    d.collection.any fun c => if recursive then c.uri.within uri else c.uri == uri

/-- Files a new document under the next id. -/
def file (s : Store) (path : Path) (collection : Collection) (kind : ResourceKind)
    (permission : Permission) : Document × Store :=
  let id := s.nextId
  let (lock, registry) := s.registry.obtain id
  let d : Document := { id, fileName := path.name, collection := some collection, permission, kind, lock }
  -- the counter may have come round to an id in use: that document is replaced
  let registry := match s.document? id with
    | some old => registry.drop old.lock
    | none => registry
  (d, { s with
    documents := Keyed.insert Document.id d s.documents
    paths := Keyed.insert Prod.fst (path.text, id) s.paths
    nextId := id + 1
    registry })

/-- Stores a new document in a collection that exists, at a path that is free. -/
def storeDocument (s : Store) (path : String) (kind : ResourceKind) (permission : Permission) :
    Except StoreError Document × Store :=
  match Path.parse path with
  | .error e => (.error e, s)
  | .ok p =>
    match s.collection? p.collection with
    | none => (.error (.collectionNotFound p.collection), s)
    | some c =>
      if (s.filed? p.text).isSome then (.error (.alreadyExists p.text), s)
      else
        let (d, s) := s.file p c kind permission
        (.ok d, s)

/-- A document that is refused changes nothing. -/
theorem storeDocument_error {s : Store} {path : String} {kind : ResourceKind}
    {permission : Permission} {e : StoreError}
    (h : (s.storeDocument path kind permission).1 = .error e) :
    (s.storeDocument path kind permission).2 = s := by
  unfold storeDocument at h ⊢
  split at h
  · rfl
  · split at h
    · simp_all
    · split at h
      · simp_all
      · simp at h

end Store
end DocBase
