import DocBase.CommandLine.Report
import DocBase.Manifest
import DocBase.Query.Execution
/-!
# Running commands

A command reads its settings, builds a store from a manifest, finds its user and then runs a query
or joins the documents of collections. The first thing that goes wrong is reported, with what it
comes from.
-/

namespace DocBase.CommandLine

/-- The texts of files that can be read. -/
abbrev Files := String → Option String

/-- Stands in messages for why a file could not be read. -/
def unreadableMark : String := "<io>"

inductive CommandError where
  | settingsUnreadable (path : String)
  | settingsMalformed (path : String)
  | manifestUnreadable (path : String)
  | manifest (path : String) (error : ManifestError)
  | unknownUser (name : String)
  | uri (error : InvalidUri)
  | store (error : StoreError)
  | query (error : Query.QueryError)
deriving DecidableEq, Repr

/-- The error and what it comes from. -/
def CommandError.chain : CommandError → List String
  | settingsUnreadable path =>
    ["loading settings from " ++ path,
      "failed to read settings from " ++ path ++ ": " ++ unreadableMark, unreadableMark]
  | settingsMalformed path =>
    ["loading settings from " ++ path, "invalid settings: " ++ Toml.faultMark, Toml.faultMark]
  | manifestUnreadable path => ["reading store manifest " ++ path, unreadableMark]
  | manifest path .malformed => ("in " ++ path) :: ManifestError.malformed.chain
  | manifest _ e => e.chain
  | unknownUser name => ["unknown user '" ++ name ++ "'"]
  | uri e => [e.message]
  | store e => [e.message]
  | query e => e.text :: e.source?.toList

def loadSettings (files : Files) : Option String → Except CommandError Settings
  | none => .ok {}
  | some path =>
    match files path with
    | none => .error (.settingsUnreadable path)
    | some text =>
      match Settings.parse text with
      | none => .error (.settingsMalformed path)
      | some s => .ok s

def loadStore (files : Files) (settings : Settings) (path : String) :
    Except CommandError Store :=
  match files path with
  | none => .error (.manifestUnreadable path)
  | some text =>
    -- only a malformed manifest is told with its path, see `CommandError.chain`
    ((Manifest.parse text).bind fun m => m.build settings).mapError (.manifest path)

/-- The user that was asked for, or the one that the settings name. -/
def findUser (s : Store) (settings : Settings) (asked : Option String) :
    Except CommandError Subject :=
  let name := asked.getD settings.defaultUser
  match s.user? name with
  | some u => .ok u
  | none => .error (.unknownUser name)

/-- Integers and truth values keep their type; everything else is a string. -/
def variableItem (value : String) : Query.Item :=
  match Text.readInt64 value.toList with
  | .ok i => .atomic (.integer i)
  | .error _ =>
    match value with
    | "true" => .boolean true
    | "false" => .boolean false
    | s => .atomic (.string s)

/-- The thread that commands run on. -/
def mainThread : Thread := "main"

def parseUri (text : String) : Except CommandError CollectionUri :=
  (CollectionUri.parse text).mapError .uri

namespace QueryArguments

/-- The context in which the query is compiled. -/
def static (q : QueryArguments) (settings : Settings) :
    Except CommandError Query.StaticContext := do
  -- what is given a value on the command line is thereby declared
  let c := { settings.queries.static with externals := q.bindings.map Prod.fst }
  match q.context with
  | none => pure c
  | some text =>
    let uri ← parseUri text
    pure { c with defaultCollection := some uri }

/-- The context in which the query is run; of two values for a variable the later counts. -/
def dynamic (q : QueryArguments) (settings : Settings) : Query.DynamicContext :=
  { settings.queries.dynamic with
    values := q.bindings.reverse.map fun (name, value) => (name, [variableItem value]) }

def run (q : QueryArguments) (files : Files) (settings : Settings) :
    Except CommandError QueryReport := do
  let store ← loadStore files settings q.store
  let user ← findUser store settings q.user
  let static ← q.static settings
  let (answer, _) :=
    store.evaluateQuery q.expression static user (q.dynamic settings) mainThread
  let items ← answer.mapError .query
  pure (.ofItems items q.maxResults)

end QueryArguments

namespace DocumentsArguments

/-- The documents of one collection after another, joined with those found before. -/
def gather (d : DocumentsArguments) (store : Store) (user : Subject) (check : Bool) :
    Option DocumentSet → List String → Except CommandError DocumentSet
  | found, [] => .ok (found.getD {})
  | found, text :: rest => do
    let uri ← parseUri text
    let documents ← (store.collectionDocuments user uri check).mapError .store
    let joined := match found with
      | none => documents
      | some found => if d.intersect then found.intersection documents else found.union documents
    d.gather store user check (some joined) rest

def run (d : DocumentsArguments) (files : Files) (settings : Settings) :
    Except CommandError DocumentsReport := do
  let store ← loadStore files settings d.store
  let user ← findUser store settings d.user
  let documents ← d.gather store user settings.queries.checkPermissions none d.collections
  pure (.ofSet documents)

end DocumentsArguments

namespace Command

def format : Command → Format
  | query q => q.format
  | documents d => d.format

def store : Command → String
  | query q => q.store
  | documents d => d.store

end Command

namespace Arguments

/-- The files that running reads. -/
def paths (a : Arguments) : List String := a.config.toList ++ [a.command.store]

def run (a : Arguments) (files : Files) : Except CommandError Report := do
  let settings ← loadSettings files a.config
  match a.command with
  | .query q => (q.run files settings).map .query
  | .documents d => (d.run files settings).map .documents

end Arguments
end DocBase.CommandLine
