import DocBase.Collection.Basic
import DocBase.Lock.Registry
/-!
# Documents

What is known of a stored resource: its id, file name, collection, permission and kind, and the lock
that guards it. A document outside every collection has its file name as uri.
-/

namespace DocBase

inductive ResourceKind where
  | xml
  | binary
deriving DecidableEq, Repr

def ResourceKind.name : ResourceKind → String
  | .xml => "xml"
  | .binary => "binary"

structure Document where
  id : DocId
  fileName : String
  collection : Option Collection := none
  permission : Permission
  kind : ResourceKind
  lock : Lock.Handle
deriving DecidableEq, Repr

namespace Document

def isXml (d : Document) : Bool := d.kind == .xml

/-- The path under which a document is stored. -/
def uri (d : Document) : String :=
  match d.collection with
  | some c => c.uri.text ++ "/" ++ d.fileName
  | none => d.fileName

def text (d : Document) : String :=
  d.uri ++ " (doc " ++ toString d.id.toNat ++ ")"

def readableBy (d : Document) (s : Subject) : Bool := d.permission.readableBy s

end Document
end DocBase
