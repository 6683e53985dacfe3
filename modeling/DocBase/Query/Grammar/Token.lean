import DocBase.Query.Grammar.Match
import DocBase.Query.Syntax
/-!
# Tokens of the query language

Layout (spaces and comments, which nest), keywords, names, numbers and quoted strings. Each token is
recognised by a function that takes it off the front of a text.
-/

namespace DocBase.Query.Grammar

/-! ## Layout -/

def isSpace (c : Char) : Bool := c == ' ' || c == '\t' || c == '\r' || c == '\n'

/-- The text behind the end of a comment whose beginning has been read, and how many characters were
read by then, `k` of them before. A mark that would open an inner comment which never ends is plain
text. The clock bounds the characters read; the text itself is enough. -/
def commentEnd? : (clock : List Char) → Nat → List Char → Option (Nat × List Char)
  | [], _, _ => none
  | _ :: _, _, [] => none
  | _ :: _, k, ':' :: ')' :: rest => some (k + 2, rest)
  | _ :: clock, k, '(' :: ':' :: rest =>
    match commentEnd? clock (k + 2) rest with
    | some (k, behind) => commentEnd? clock k behind
    -- no inner comment after all: only the parenthesis is passed, for a colon may end the comment
    | none => commentEnd? clock (k + 1) (':' :: rest)
  | _ :: clock, k, _ :: rest => commentEnd? clock (k + 1) rest

/-- The text behind spaces and comments, and how many characters were read by then, `k` of them
before. The clock bounds the spaces and comments read; the text itself is enough. -/
def skipLayout : (clock : List Char) → Nat → List Char → Nat × List Char
  | _ :: clock, k, '(' :: ':' :: rest =>
    match commentEnd? rest (k + 2) rest with
    | some (k, behind) => skipLayout clock k behind
    | none => (k, '(' :: ':' :: rest)
  | _ :: clock, k, c :: rest => if isSpace c then skipLayout clock (k + 1) rest else (k, c :: rest)
  | _, k, s => (k, s)

/-- Spaces and comments, or nothing. -/
def layout : Rule Unit := fun s =>
  let (k, rest) := skipLayout s 0 s
  { result := some ((), rest), taken := k }

/-! ## Names and keywords -/

def isNameStart (c : Char) : Bool := c.isAlpha || c == '_'

def isNameChar (c : Char) : Bool := c.isAlphanum || c == '_' || c == '-' || c == '.'

/-- A name without a qualifier. -/
def simpleName? : List Char → Option (List Char × List Char)
  | [] => none
  | c :: rest =>
    if isNameStart c then some (c :: rest.takeWhile isNameChar, rest.dropWhile isNameChar) else none

/-- A name; a colon belongs to it if another name follows. -/
def name? (s : List Char) : Option (QName × List Char) :=
  match simpleName? s with
  | none => none
  | some (first, rest) =>
    match rest with
    | ':' :: behind =>
      match simpleName? behind with
      | some (second, rest') => some (⟨some (String.ofList first), String.ofList second⟩, rest')
      | none => some (⟨none, String.ofList first⟩, rest)
    | _ => some (⟨none, String.ofList first⟩, rest)

def name : Rule QName := (Rule.scan (·.text.length) name?).named

/-- What is left of a text behind a word it begins with. -/
def dropWord? : List Char → List Char → Option (List Char)
  | [], s => some s
  | _ :: _, [] => none
  | w :: ws, c :: cs => if w = c then dropWord? ws cs else none

/-- A mark of one or more characters. -/
def mark (w : String) : Rule Unit :=
  Rule.scan (fun _ => w.length) fun s => (dropWord? w.toList s).map fun rest => ((), rest)

/-- A word that does not go on as a name. -/
def keyword? (w : String) (s : List Char) : Option (Unit × List Char) :=
  match dropWord? w.toList s with
  | some rest => if rest.head?.any isNameChar then none else some ((), rest)
  | none => none

def keyword (w : String) : Rule Unit := (Rule.scan (fun _ => w.length) (keyword? w)).named

/-! ## Numbers -/

/-- At least one digit, and all digits that follow. -/
def digits? (s : List Char) : Option (List Char × List Char) :=
  match s.takeWhile Char.isDigit with
  | [] => none
  | ds => some (ds, s.dropWhile Char.isDigit)

/-- A number with a decimal point, with digits on at least one side of it. -/
def decimal? : List Char → Option (List Char × List Char)
  | '.' :: s => (digits? s).map fun (ds, rest) => ('.' :: ds, rest)
  | s =>
    match digits? s with
    | some (ds, '.' :: rest) =>
      some (ds ++ '.' :: rest.takeWhile Char.isDigit, rest.dropWhile Char.isDigit)
    | _ => none

/-- An exponent: a mark, an optional sign and digits. -/
def exponent? : List Char → Option (List Char × List Char)
  | c :: s =>
    if c = 'e' ∨ c = 'E' then
      match s with
      | '+' :: ds => (digits? ds).map fun (d, rest) => (c :: '+' :: d, rest)
      | '-' :: ds => (digits? ds).map fun (d, rest) => (c :: '-' :: d, rest)
      | ds => (digits? ds).map fun (d, rest) => (c :: d, rest)
    else none
  | [] => none

/-- A number, with or without a point, and an exponent. -/
def scientific? (s : List Char) : Option (List Char × List Char) :=
  match (decimal? s).or (digits? s) with
  | some (front, rest) => (exponent? rest).map fun (e, rest') => (front ++ e, rest')
  | none => none

/-! ## Strings -/

/-- The rest of a string in quotes; a quote inside is written twice. -/
def quotedEnd? (q : Char) : List Char → Option (List Char × List Char)
  | [] => none
  | [c] => if c = q then some ([], []) else none
  | c :: d :: rest =>
    if c = q then
      -- two quotes stand for one, a single one ends the string
      if d = q then (quotedEnd? q rest).map fun (t, r) => (q :: t, r) else some ([], d :: rest)
    else (quotedEnd? q (d :: rest)).map fun (t, r) => (c :: t, r)

/-- A string in double or in single quotes: its quote and its text. -/
def quoted? : List Char → Option ((Char × List Char) × List Char)
  | c :: s =>
    if c = '"' ∨ c = '\'' then (quotedEnd? c s).map fun (t, rest) => ((c, t), rest) else none
  | [] => none

/-- A string as it is written has two quotes around it and each of its quotes twice. -/
def quoted : Rule (List Char) := do
  let (_, t) ← Rule.scan (fun (q, t) => t.length + t.count q + 2) quoted?
  return t

/-! ## The end of the text -/

def endOfText : Rule Unit :=
  (Rule.scan (fun _ => 0) fun s => if s.isEmpty then some ((), []) else none).named

end DocBase.Query.Grammar
