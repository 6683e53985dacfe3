import DocBase.Query.Evaluation
import DocBase.Store.Retrieval
/-!
# Resources of a query

The documents that the `collection()` and `doc()` calls of a query address, found before any of them
is locked. A resource that cannot be retrieved contributes nothing, or fails the query if the
dynamic context says so.
-/

namespace DocBase.Query

/-- What is seen by the subject that runs a query. -/
structure View where
  store : Store
  subject : Subject
  dynamic : DynamicContext

namespace View

/-- What a retrieval contributes: a failure contributes nothing, unless failures are raised. -/
def retrieved {α : Type} (v : View) : Except StoreError α → Except QueryError (Option α)
  | .ok a => .ok (some a)
  | .error e => if v.dynamic.raiseOnFailure then .error (.ofStore e) else .ok none

/-- The uris among texts. -/
def uris (v : View) : List String → Except QueryError (List CollectionUri)
  | [] => .ok []
  | s :: rest =>
    -- a malformed uri is a retrieval that fails
    match v.retrieved ((CollectionUri.parse s).mapError .invalidUri) with
    | .error e => .error e
    | .ok uri => (v.uris rest).map (uri.toList ++ ·)

/-- Adds the documents of collections to a set. -/
def addCollections (v : View) : List CollectionUri → DocumentSet → Except QueryError DocumentSet
  | [], found => .ok found
  | uri :: rest, found =>
    match v.retrieved
        (v.store.collectionDocuments v.subject uri v.dynamic.checkPermissions) with
    | .error e => .error e
    | .ok documents => v.addCollections rest (documents.elim found found.extendFrom)

/-- The XML document at a path. -/
def xmlDocument (v : View) (path : String) : Except StoreError Document :=
  match v.store.readableDocument v.subject path v.dynamic.checkPermissions with
  | .error e => .error e
  | .ok none => .error (.documentNotFound path)
  | .ok (some d) => if d.isXml then .ok d else .error (.documentNotFound path)

/-- Adds the XML documents at paths to a set. -/
def addDocuments (v : View) : List String → DocumentSet → Except QueryError DocumentSet
  | [], found => .ok found
  | path :: rest, found =>
    match v.retrieved (v.xmlDocument path) with
    | .error e => .error e
    | .ok document => v.addDocuments rest (document.elim found fun d => (found.add d).2)

/-- The collections a `collection()` call names; without arguments it names the default one. -/
def namedCollections (v : View) (static : StaticContext) (arguments : List String) :
    Except QueryError (List CollectionUri) :=
  match arguments, static.defaultCollection with
  | [], some uri => .ok [uri]
  | [], none => .error .noDefaultCollection
  | arguments, _ => v.uris arguments

/-- The documents one call addresses. -/
def addressed (v : View) (static : StaticContext) (f : Builtin) (arguments : List String) :
    Except QueryError DocumentSet :=
  match f with
  | .doc => v.addDocuments arguments {}
  | _ => (v.namedCollections static arguments).bind fun uris => v.addCollections uris {}

end View

/-- The texts of arguments that have to be string literals. -/
def literalTexts (t : Tree) : List ExprId → Except QueryError (List String)
  | [] => .ok []
  | a :: rest =>
    match t.kind? a with
    | some (.literal (.string s)) => (literalTexts t rest).map (s :: ·)
    | _ => .error .uriNotLiteral

/-- The documents of the calls among some expressions, in order. -/
def resourcesAmong (v : View) (q : CompiledQuery) : List ExprId → Except QueryError Resources
  | [] => .ok []
  | id :: ids =>
    match q.tree.kind? id with
    | some (.call f arguments) =>
      if f.readsStore then
        match (literalTexts q.tree arguments).bind (v.addressed q.static f) with
        | .error e => .error e
        | .ok documents => (resourcesAmong v q ids).map ((id, documents) :: ·)
      else resourcesAmong v q ids
    | _ => resourcesAmong v q ids

/-- The documents each call of a query addresses. -/
def CompiledQuery.resources (q : CompiledQuery) (v : View) : Except QueryError Resources :=
  resourcesAmong v q q.tree.reachable

namespace Resources

/-- All documents of all calls. -/
def documents (r : Resources) : DocumentSet :=
  r.foldl (fun all entry => all.extendFrom entry.2) {}

/-- Leaves out the documents that are no longer in the store. -/
def stillIn (r : Resources) (s : Store) : Resources :=
  r.map fun entry => (entry.1, (entry.2.retain fun d => (s.document? d.id).isSome).2)

end Resources

end DocBase.Query
