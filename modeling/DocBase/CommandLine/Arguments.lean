import DocBase.CommandLine.Usage
import DocBase.Text.Blank
import DocBase.Text.Cut
import DocBase.Text.Integer
/-!
# Arguments

The two commands and their options. A settings file and a log level may be given before a command
and behind it; what is given behind it counts. Main statement: a variable that is read has a name
(`readVariable_name`).
-/

namespace DocBase.CommandLine

inductive Format where
  | text
  | json
deriving DecidableEq, Repr

/-- Runs a query. -/
structure QueryArguments where
  expression : String
  store : String
  user : Option String := none
  /-- The collection that `collection()` without arguments means. -/
  context : Option String := none
  maxResults : Nat := 100
  /-- Names and values of variables. -/
  bindings : List (String × String) := []
  format : Format := .text
deriving DecidableEq, Repr

/-- Lists the documents of collections. -/
structure DocumentsArguments where
  collections : List String
  store : String
  user : Option String := none
  /-- Only documents that all collections share. -/
  intersect : Bool := false
  format : Format := .text
deriving DecidableEq, Repr

inductive Command where
  | query (arguments : QueryArguments)
  | documents (arguments : DocumentsArguments)
deriving DecidableEq, Repr

structure Arguments where
  config : Option String := none
  logLevel : Option String := none
  command : Command
deriving DecidableEq, Repr

/-- What one option says. -/
inductive Setting where
  | config (path : String)
  | logLevel (level : String)
  | store (path : String)
  | user (name : String)
  | context (uri : String)
  | maxResults (n : Nat)
  | binding (name value : String)
  | format (f : Format)
  | intersect
deriving DecidableEq, Repr

/-! ## Values of options -/

def readPath (option : String) (make : String → Setting) (value : String) :
    Except UsageError Setting :=
  if value = "" then .error (.notAllowed option value) else .ok (make value)

def readFormat (value : String) : Except UsageError Setting :=
  match value with
  | "text" => .ok (.format .text)
  | "json" => .ok (.format .json)
  | _ => .error (.notAllowed "format" value)

/-- Counts have 64 bits. -/
def readMaxResults (value : String) : Except UsageError Setting :=
  match Text.readUnsigned 10 (1 <<< 64) value.toList with
  | .ok n => .ok (.maxResults n)
  | .error _ => .error (.malformedValue "max-results" value)

/-- The name and the value of a variable, between which the first equals sign stands. Blanks around
the name and dollar signs before it do not count. -/
def readVariable (input : String) : Option (String × String) :=
  match Text.cutFirst '=' input.toList with
  | none => none
  | some (name, value) =>
    match (Text.trim name).dropWhile (· == '$') with
    | [] => none
    | name => some (String.ofList name, String.ofList value)

def readBinding (value : String) : Except UsageError Setting :=
  match readVariable value with
  | some (name, value) => .ok (.binding name value)
  | none => .error (.malformedValue "var" value)

/-! ## Commands -/

def globalOptions : List (OptionRule Setting) :=
  [{ name := "config", read := readPath "config" .config },
   { name := "log-level", read := fun s => .ok (.logLevel s) }]

/-- Options of both commands. -/
def sharedOptions : List (OptionRule Setting) :=
  [{ name := "store", read := readPath "store" .store },
   { name := "user", read := fun s => .ok (.user s) },
   { name := "format", read := readFormat }]

def programRules : Rules Setting where
  options := globalOptions
  maxWords := some 0
  commands := ["query", "documents", "help"]
  hasVersion := true

def queryRules : Rules Setting where
  options := globalOptions ++ sharedOptions ++
    [{ name := "context", read := fun s => .ok (.context s) },
     { name := "max-results", read := readMaxResults },
     { name := "var", repeatable := true, read := readBinding }]
  maxWords := some 1

def documentsRules : Rules Setting where
  options := globalOptions ++ sharedOptions ++
    [{ name := "intersect", takesValue := false, read := fun _ => .ok .intersect }]
  maxWords := none

def QueryArguments.set (q : QueryArguments) : Setting → QueryArguments
  | .user name => { q with user := some name }
  | .context uri => { q with context := some uri }
  | .maxResults n => { q with maxResults := n }
  | .binding name value => { q with bindings := q.bindings ++ [(name, value)] }
  | .format format => { q with format }
  | _ => q

def DocumentsArguments.set (d : DocumentsArguments) : Setting → DocumentsArguments
  | .user name => { d with user := some name }
  | .intersect => { d with intersect := true }
  | .format format => { d with format }
  | _ => d

def storeOf (settings : List Setting) : Option String :=
  settings.findSome? fun
    | .store path => some path
    | _ => none

def configOf (settings : List Setting) : Option String :=
  settings.findSome? fun
    | .config path => some path
    | _ => none

def logLevelOf (settings : List Setting) : Option String :=
  settings.findSome? fun
    | .logLevel level => some level
    | _ => none

/-- All arguments of a command. -/
def givenTo (rules : Rules Setting) (arguments : List String) :
    Except UsageError (Given Setting) :=
  (scan rules {} arguments).bind fun (g, _) => g.settle

def queryCommand (g : Given Setting) : Except UsageError Command :=
  match g.words, storeOf g.settings with
  | expression :: _, some store =>
    .ok (.query (g.settings.foldl QueryArguments.set { expression, store }))
  | [], _ => .error (.missingArgument "XQUERY")
  | _, none => .error (.missingArgument "--store")

def documentsCommand (g : Given Setting) : Except UsageError Command :=
  match g.words, storeOf g.settings with
  | collections@(_ :: _), some store =>
    .ok (.documents (g.settings.foldl DocumentsArguments.set { collections, store }))
  | [], _ => .error (.missingArgument "URI")
  | _, none => .error (.missingArgument "--store")

/-- Help is asked for, for the program or for one of its commands. -/
def helpFor : List String → UsageError
  | [] => .help
  | name :: rest =>
    if name ∈ programRules.commands then
      match rest with
      | [] => .help
      | other :: _ => .unknownCommand other
    else .unknownCommand name

/-- Reads the arguments of the program. What stands before the command is looked at last. -/
def Arguments.parse (arguments : List String) : Except UsageError Arguments := do
  let (before, command) ← scan programRules {} arguments
  match command with
  | none =>
    let before ← before.settle
    .error (if before.settings.isEmpty then .noArguments else .missingCommand)
  -- whoever asks for help is told nothing of faults before the command
  | some ("help", rest) => .error (helpFor rest)
  | some (name, rest) =>
    let isQuery := name == "query"
    let behind ← givenTo (if isQuery then queryRules else documentsRules) rest
    let command ← if isQuery then queryCommand behind else documentsCommand behind
    let before ← before.settle
    .ok {
      config := (configOf behind.settings).or (configOf before.settings)
      logLevel := (logLevelOf behind.settings).or (logLevelOf before.settings)
      command }

/-- A variable that is read has a name. -/
theorem readVariable_name {input name value : String}
    (h : readVariable input = some (name, value)) : name ≠ "" := by
  unfold readVariable at h
  split at h
  · simp at h
  · split at h
    · simp at h
    · next hn =>
      simp only [Option.some.injEq, Prod.mk.injEq] at h
      rw [← h.1]
      intro he
      apply hn
      have := congrArg String.toList he
      simpa using this

end DocBase.CommandLine
