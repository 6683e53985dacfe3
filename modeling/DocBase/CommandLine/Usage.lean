/-!
# Options and words

How the arguments of a command are told apart. An option begins with two hyphens and may have a
value, behind an equals sign or as the next argument; its value is looked at when the next argument
has been told to be an option or a word, or when the arguments end. After two hyphens alone all
arguments are words. A word may name a command, which the remaining arguments are for.
-/

namespace DocBase.CommandLine

/-- Why arguments lead to no command: something is wrong with them, or help or the version is asked
for. -/
inductive UsageError where
  | unknownArgument (argument : String)
  | missingValue (option : String)
  | unexpectedValue (option value : String)
  | notAllowed (option value : String)
  | malformedValue (option value : String)
  | repeated (option : String)
  | missingArgument (name : String)
  | unknownCommand (name : String)
  | missingCommand
  | noArguments
  | help
  | version
deriving DecidableEq, Repr

namespace UsageError

def message : UsageError → String
  | unknownArgument a => "unknown argument '" ++ a ++ "'"
  | missingValue o => "option --" ++ o ++ " needs a value"
  | unexpectedValue o v => "option --" ++ o ++ " takes no value, but '" ++ v ++ "' is given"
  | notAllowed o v => "'" ++ v ++ "' is no possible value of --" ++ o
  | malformedValue o v => "'" ++ v ++ "' is malformed as a value of --" ++ o
  | repeated o => "option --" ++ o ++ " may be given only once"
  | missingArgument n => "missing argument: " ++ n
  | unknownCommand n => "unknown command '" ++ n ++ "'"
  | missingCommand => "a command is needed"
  | noArguments => "no arguments given"
  | help => "usage: docbase [--config FILE] [--log-level LEVEL] query XQUERY | documents URI..."
  | version => "docbase 0.1.0"

end UsageError

/-- An option that gives settings of type `α`. -/
structure OptionRule (α : Type) where
  name : String
  takesValue : Bool := true
  repeatable : Bool := false
  /-- What a value means; an option without a value is read as the empty text. -/
  read : String → Except UsageError α

/-- The arguments a command takes. -/
structure Rules (α : Type) where
  options : List (OptionRule α)
  /-- The most words, if there is a limit. -/
  maxWords : Option Nat
  commands : List String := []
  /-- Whether the version may be asked for. -/
  hasVersion : Bool := false

/-- The arguments of a command that have been told apart so far. -/
structure Given (α : Type) where
  settings : List α := []
  words : List String := []
  /-- Options that may not be given again. -/
  used : List String := []
  /-- An option whose value has not been looked at, or has not come yet. -/
  pending : Option (OptionRule α × Option String) := none
  wordsOnly : Bool := false

/-- What an argument is by its looks. -/
inductive Look where
  | separator
  | long (name : String) (value : Option String)
  | short (letter : Char)
  | word

/-- Two hyphens alone separate; one hyphen alone is a word. -/
def lookOf (argument : String) : Look :=
  match argument.toList with
  | ['-', '-'] => .separator
  | '-' :: '-' :: s =>
    match s.span (· != '=') with
    | (name, []) => .long (String.ofList name) none
    | (name, _ :: value) => .long (String.ofList name) (some (String.ofList value))
  | '-' :: c :: _ => .short c
  | _ => .word

namespace Given

variable {α : Type}

/-- Adds an option with its value. -/
def give (g : Given α) (o : OptionRule α) (value : String) : Except UsageError (Given α) :=
  if g.used.contains o.name then .error (.repeated o.name)
  else (o.read value).map fun a =>
    { g with
      settings := g.settings ++ [a]
      used := if o.repeatable then g.used else o.name :: g.used }

/-- Looks at the value of the option that is pending. -/
def settle (g : Given α) : Except UsageError (Given α) :=
  match g.pending with
  | none => .ok g
  | some (o, none) => .error (.missingValue o.name)
  | some (o, some value) => { g with pending := none }.give o value

/-- Whether the next argument that is neither option nor separator is a value. -/
def awaited? (g : Given α) : Option (OptionRule α) :=
  match g.pending with
  | some (o, none) => some o
  | _ => none

/-- Adds an option written with two hyphens. -/
def long (g : Given α) (rules : Rules α) (argument name : String) (value : Option String) :
    Except UsageError (Given α) :=
  let flag (e : UsageError) : Except UsageError (Given α) :=
    match value with
    | some v => .error (.unexpectedValue name v)
    -- a fault in the option before it counts first
    | none => g.settle.bind fun _ => .error e
  match rules.options.find? (·.name = name) with
  | some o =>
    match o.takesValue, value with
    | true, some v => g.settle.bind (·.give o v)
    | true, none => g.settle.map fun g => { g with pending := some (o, none) }
    | false, some v => .error (.unexpectedValue name v)
    | false, none => g.settle.bind (·.give o "")
  | none =>
    if name = "help" then flag .help
    else if name = "version" ∧ rules.hasVersion then flag .version
    else .error (.unknownArgument argument)

/-- Adds an option written with one hyphen. -/
def short (g : Given α) (rules : Rules α) (argument : String) (letter : Char) :
    Except UsageError (Given α) :=
  if letter = 'h' then g.settle.bind fun _ => .error .help
  else if letter = 'V' ∧ rules.hasVersion then g.settle.bind fun _ => .error .version
  else .error (.unknownArgument argument)

/-- Adds a word. Where commands are expected a word too many is taken for one, unless it is a
command that stands behind the separator. -/
def word (g : Given α) (rules : Rules α) (argument : String) : Except UsageError (Given α) :=
  if rules.maxWords.all (g.words.length < ·) then
    g.settle.map fun g => { g with words := g.words ++ [argument] }
  else if rules.commands.isEmpty ∨ (g.wordsOnly ∧ argument ∈ rules.commands) then
    .error (.unknownArgument argument)
  else .error (.unknownCommand argument)

end Given

/-- Tells arguments apart up to a command's name, which is answered with the arguments behind it. -/
def scan {α : Type} (rules : Rules α) :
    Given α → List String → Except UsageError (Given α × Option (String × List String))
  | g, [] => .ok (g, none)
  | g, a :: rest =>
    if g.wordsOnly then (g.word rules a).bind fun g => scan rules g rest
    else if g.awaited?.isNone ∧ a ∈ rules.commands then .ok (g, some (a, rest))
    else
      match lookOf a, g.awaited? with
      | .separator, _ => scan rules { g with wordsOnly := true } rest
      | .long name value, _ => (g.long rules a name value).bind fun g => scan rules g rest
      | .short letter, _ => (g.short rules a letter).bind fun g => scan rules g rest
      | .word, some o => scan rules { g with pending := some (o, some a) } rest
      | .word, none => (g.word rules a).bind fun g => scan rules g rest

end DocBase.CommandLine
