import DocBase.Access.Mode
import DocBase.Settings
import DocBase.Store.Basic
/-!
# Store manifests

A manifest lists users, collections and documents; a store is built from it in this order. A
collection brings the ancestors it lacks into being with its own permission. An entry without owner,
group or mode has the administrator's and the default mode.
-/

namespace DocBase

/-- The permission of an entry as it is written. -/
structure EntryPermission where
  owner : Option String := none
  group : Option String := none
  mode : Option String := none
deriving DecidableEq, Repr

structure UserEntry where
  name : String
  groups : List String := []
  administrator : Bool := false
deriving DecidableEq, Repr

structure CollectionEntry where
  uri : String
  permission : EntryPermission := {}
deriving DecidableEq, Repr

structure DocumentEntry where
  path : String
  kind : ResourceKind := .xml
  permission : EntryPermission := {}
deriving DecidableEq, Repr

structure Manifest where
  users : List UserEntry := []
  collections : List CollectionEntry := []
  documents : List DocumentEntry := []
deriving DecidableEq, Repr

/-- What may be wrong with a manifest. -/
inductive ManifestError where
  | malformed
  | mode (fault : Mode.Fault)
  | uri (error : InvalidUri)
  | document (path : String) (error : StoreError)
deriving DecidableEq, Repr

/-- The error and what it comes from. -/
def ManifestError.chain : ManifestError → List String
  | malformed => ["invalid store manifest", Toml.faultMark]
  | mode f => f.message :: f.source?.toList
  | uri e => [e.message]
  | document path e => ["storing " ++ path, e.message]

/-! ## Reading -/

namespace EntryPermission

def ofFields? (f : Toml.Fields) : Option EntryPermission := do
  let owner ← f.optional "owner" Toml.Value.text?
  let group ← f.optional "group" Toml.Value.text?
  let mode ← f.optional "mode" Toml.Value.text?
  pure { owner, group, mode }

/-- The permission an entry asks for. -/
def read (p : EntryPermission) (defaultMode : Nat) : Except Mode.Fault Permission :=
  let made := Permission.ofMode (p.owner.getD adminUser) (p.group.getD adminGroup)
  match p.mode with
  | none => .ok (made defaultMode)
  | some text => (Mode.parse text).map made

end EntryPermission

def UserEntry.ofValue? (v : Toml.Value) : Option UserEntry := do
  let f ← v.fields? ["name", "groups", "dba"]
  let name ← f.required "name" Toml.Value.text?
  let groups ← f.withDefault "groups" (Toml.Value.list? Toml.Value.text?) []
  let administrator ← f.withDefault "dba" Toml.Value.boolean? false
  pure { name, groups, administrator }

def CollectionEntry.ofValue? (v : Toml.Value) : Option CollectionEntry := do
  let f ← v.fields? ["uri", "owner", "group", "mode"]
  let uri ← f.required "uri" Toml.Value.text?
  let permission ← EntryPermission.ofFields? f
  pure { uri, permission }

/-- A kind of resource is written as its name, or as a table or list of nothing under its name. -/
def ResourceKind.ofValue? : Toml.Value → Option ResourceKind
  | .text s => named? s
  | .table [(s, .table [])] | .table [(s, .array [])] => named? s
  | _ => none
where
  named? (s : String) : Option ResourceKind := [ResourceKind.xml, .binary].find? (·.name = s)

def DocumentEntry.ofValue? (v : Toml.Value) : Option DocumentEntry := do
  let f ← v.fields? ["path", "type", "owner", "group", "mode"]
  let path ← f.required "path" Toml.Value.text?
  let kind ← f.withDefault "type" ResourceKind.ofValue? .xml
  let permission ← EntryPermission.ofFields? f
  pure { path, kind, permission }

namespace Manifest

def ofValue? (v : Toml.Value) : Option Manifest := do
  let f ← v.fields? ["users", "collections", "documents"]
  let users ← f.withDefault "users" (Toml.Value.list? UserEntry.ofValue?) []
  let collections ← f.withDefault "collections" (Toml.Value.list? CollectionEntry.ofValue?) []
  let documents ← f.withDefault "documents" (Toml.Value.list? DocumentEntry.ofValue?) []
  pure { users, collections, documents }

def parse (text : String) : Except ManifestError Manifest :=
  match (Toml.parse text).bind ofValue? with
  | some m => .ok m
  | none => .error .malformed

end Manifest

/-! ## Building -/

def UserEntry.subject (u : UserEntry) : Subject :=
  (if u.administrator then Subject.admin u.name else { name := u.name }).addGroups u.groups

namespace Store

/-- Creates the collection of an entry. -/
def addCollection (s : Store) (c : CollectionEntry) : Except ManifestError Store := do
  let uri ← (CollectionUri.parse c.uri).mapError .uri
  -- a uri that is refused counts before a mode that is
  let permission ← (c.permission.read Permission.collectionMode).mapError .mode
  pure (s.createCollection uri permission).2

/-- Stores the document of an entry. -/
def addDocument (s : Store) (d : DocumentEntry) : Except ManifestError Store := do
  let permission ← (d.permission.read Permission.documentMode).mapError .mode
  match s.storeDocument d.path d.kind permission with
  | (.ok _, s) => pure s
  | (.error e, _) => throw (.document d.path e)

end Store

/-- Builds a store: users, collections, documents, each in the order they are listed. -/
def Manifest.build (m : Manifest) (settings : Settings) : Except ManifestError Store := do
  let s := m.users.foldl (fun s u => s.registerUser u.subject)
    (Store.create settings.locks.options)
  let s ← m.collections.foldlM Store.addCollection s
  m.documents.foldlM Store.addDocument s

end DocBase
