import DocBase.Toml.Scalar
import DocBase.Toml.Table
/-!
# Settings files

A settings file is a list of statements, one a line: the header of a table, the header of a further
table of a list, or a value for a key. Read in order they make up one table. What is wrong with a
text that is not well formed is not told. Main statement: a text that is well formed stands for a
table (`eq_table_of_parse`).
-/

namespace DocBase.Toml

open Text Text.Reader

/-- Stands in messages for what is wrong with a text. -/
def faultMark : String := "<toml>"

/-! ## Values with parts -/

/-- Elements between brackets; a comma may follow the last. -/
def array (element : Reader Value) : Reader Value := do
  let _ ← char '['
  let vs ← separated (do gap; let v ← element; gap; pure v) (char ',')
  -- a comma alone makes no array
  let _ ← if vs.isEmpty then pure none else opt (char ',')
  gap
  let _ ← char ']'
  pure (.array vs)

/-- A key with its value. -/
def pair (value : Reader Value) : Reader ((List String × String) × Value) := do
  let p ← path
  let _ ← char '='
  blanks
  let v ← value
  pure (p, v)

/-- Pairs between braces, on one line. -/
def inlineTable (value : Reader Value) : Reader Value := do
  let _ ← char '{'
  blanks
  let ps ← separated (do let p ← pair value; blanks; pure p) (char ',')
  blanks
  let _ ← char '}'
  match ps.foldlM (fun (t : Entries) ((path, key), v) => t.assign path key v) [] with
  | some t => pure (.table (closeAll t))
  | none => failure

/-- A value in which at most `depth` arrays and inline tables stand inside one another. -/
def value : (depth : Nat) → Reader Value
  | 0 => scalar
  | depth + 1 => scalar <|> array (value depth) <|> inlineTable (value depth)

/-! ## Statements -/

inductive Statement where
  | table (path : List String) (key : String)
  | element (path : List String) (key : String)
  | assign (path : List String) (key : String) (v : Value)

def header : Reader Statement := do
  let _ ← char '['
  let (p, k) ← path
  let _ ← char ']'
  lineEnd
  pure (.table p k)

def elementHeader : Reader Statement := do
  word ['[', '[']
  let (p, k) ← path
  word [']', ']']
  lineEnd
  pure (.element p k)

/-- A line with a value. -/
def assignment : Reader Statement := do
  let ((p, k), v) ← pair (value (depthLimit - 1))
  lineEnd
  pure (.assign p k v)

/-- A line without a statement. -/
def emptyLine : Reader Unit := newline <|> (do comment; newline <|> atEnd)

/-- All statements of a text, which a byte order mark may precede. -/
def statements : Reader (List Statement) := do
  let _ ← opt (char '\ufeff')
  blanks
  let lines ← many (do
    let line ← (do emptyLine; pure none) <|>
      -- two brackets before one
      (do let s ← elementHeader <|> header <|> assignment; pure (some s))
    blanks
    pure line)
  atEnd
  pure (lines.filterMap id)

/-- A text half read: its tables, and the path of the one that was opened last. -/
structure Draft where
  entries : Entries := []
  table : List String := []

/-- Adds a statement. -/
def Draft.add (d : Draft) : Statement → Option Draft
  | .table path key =>
    (d.entries.openTable path key).map fun entries => ⟨entries, path ++ [key]⟩
  | .element path key =>
    (d.entries.openElement path key).map fun entries => ⟨entries, path ++ [key]⟩
  | .assign path key v =>
    (d.entries.assignIn d.table path key v).map fun entries => { d with entries }

/-- The table a text stands for, if it is well formed. -/
def parse (text : String) : Option Value := do
  let ss ← statements.whole text.toList
  let d ← ss.foldlM Draft.add {}
  pure (.table (closeAll d.entries))

/-- A text that is well formed stands for a table. -/
theorem eq_table_of_parse {text : String} {v : Value} (h : parse text = some v) :
    ∃ entries, v = .table entries := by
  simp only [parse, Option.bind_eq_bind, Option.bind_eq_some_iff, Option.pure_def,
    Option.some.injEq] at h
  obtain ⟨_, _, d, _, rfl⟩ := h
  exact ⟨_, rfl⟩

end DocBase.Toml
