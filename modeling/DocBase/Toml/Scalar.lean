import DocBase.Double.Text
import DocBase.Text.Integer
import DocBase.Text.Reader
import DocBase.Toml.Moment
import DocBase.Toml.Value
/-!
# Keys, texts and numbers of a settings file

The smallest parts of a settings file: blanks and comments, bare and quoted keys, texts on one or on
several lines with or without escapes, integers in four radices, numbers with a fraction, dates and
truth values.
-/

namespace DocBase.Toml

open Text Text.Reader

def isBlank (c : Char) : Bool := c == ' ' || c == '\t'

/-- Characters that may stand in a comment: all but the control characters, save the tab. -/
def isPlain (c : Char) : Bool := c == '\t' || (0x20 ≤ c.toNat && c.toNat != 0x7F)

def blanks : Reader Unit := do
  let _ ← span isBlank

/-- A line feed, also after a carriage return. -/
def newline : Reader Unit := do
  let _ ← opt (char '\r')
  let _ ← char '\n'

def comment : Reader Unit := do
  let _ ← char '#'
  let _ ← span isPlain

/-- Whatever may stand between the parts of an array: blanks, ends of lines and comments. -/
def gap : Reader Unit := do
  let _ ← many ((do let _ ← span1 isBlank) <|> newline <|> comment)

/-- What may follow a statement on its line. -/
def lineEnd : Reader Unit := do
  blanks
  let _ ← opt comment
  newline <|> atEnd

/-! ## Texts -/

def isHexDigit (c : Char) : Bool := (digitValue? 16 c).isSome

/-- The value of hexadecimal digits. -/
def hexValue (cs : List Char) : Nat := cs.foldl (fun n c => 16 * n + (digitValue? 16 c).getD 0) 0

/-- The character whose code point `n` hexadecimal digits give. -/
def codePoint (n : Nat) : Reader Char := fun s =>
  let ds := s.take n
  let v := hexValue ds
  if ds.length = n ∧ ds.all isHexDigit ∧ v.isValidChar then some (Char.ofNat v, s.drop n) else none

/-- A character written with a backslash. -/
def escape : Reader Char := do
  let _ ← char '\\'
  let c ← next fun _ => true
  match c with
  | 'b' => pure '\x08'
  | 't' => pure '\t'
  | 'n' => pure '\n'
  | 'f' => pure '\x0c'
  | 'r' => pure '\r'
  | '"' => pure '"'
  | '\\' => pure '\\'
  | 'u' => codePoint 4
  | 'U' => codePoint 8
  | _ => failure

/-- Between double quotes, with escapes. -/
def basicText : Reader (List Char) := do
  let _ ← char '"'
  let cs ← many (next (fun c => isPlain c && c != '"' && c != '\\') <|> escape)
  let _ ← char '"'
  pure cs

/-- Between single quotes, without escapes. -/
def literalText : Reader (List Char) := do
  let _ ← char '\''
  let cs ← span fun c => isPlain c && c != '\''
  let _ ← char '\''
  pure cs

/-- One or two quotes inside a text that three of them end. -/
def innerQuotes (quote : Char) : Reader (List Char) := fun s =>
  match span1 (· == quote) s with
  | some (quotes, rest) => if quotes.length < 3 ∧ rest ≠ [] then some (quotes, rest) else none
  | none => none

/-- The quotes that end such a text; up to two more before them belong to it. -/
def lastQuotes (quote : Char) : Reader (List Char) := do
  let quotes ← span (· == quote)
  if 3 ≤ quotes.length ∧ quotes.length ≤ 5 then pure (quotes.drop 3) else failure

/-- A backslash before the end of a line: the text goes on at the next character that is not
blank. -/
def lineContinued : Reader (List Char) := do
  let _ ← char '\\'
  blanks
  newline
  let _ ← many ((do let _ ← next isBlank) <|> newline)
  pure []

/-- A text on several lines, made of `parts` between three quotes. A line feed right behind the
opening quotes does not belong to it, and each end of line in it is a line feed. -/
def longText (quote : Char) (part : Reader (List Char)) : Reader (List Char) := do
  word [quote, quote, quote]
  let _ ← opt newline
  let parts ← many (part <|> innerQuotes quote <|> (do newline; pure ['\n']))
  let last ← lastQuotes quote
  pure (parts.flatten ++ last)

def longBasicText : Reader (List Char) :=
  longText '"' <|
    span1 (fun c => isPlain c && c != '"' && c != '\\') <|> lineContinued <|>
      (do let c ← escape; pure [c])

def longLiteralText : Reader (List Char) :=
  longText '\'' (span1 fun c => isPlain c && c != '\'')

def text : Reader String := do
  -- three quotes before one: the first two of them would be an empty text
  let cs ← longBasicText <|> basicText <|> longLiteralText <|> literalText
  pure (String.ofList cs)

/-! ## Keys -/

def isKeyChar (c : Char) : Bool := c.isAlphanum || c == '_' || c == '-'

def key : Reader String := do
  let cs ← basicText <|> literalText <|> span1 isKeyChar
  pure (String.ofList cs)

/-- A path has fewer keys than this, and so many arrays and inline tables are too many to stand
inside one another. -/
def depthLimit : Nat := 80

/-- Keys with dots between them: the path of tables and the last key. -/
def path : Reader (List String × String) := do
  let keys ← separated (do blanks; let k ← key; blanks; pure k) (char '.')
  match keys.getLast? with
  | some last => if keys.length < depthLimit then pure (keys.dropLast, last) else failure
  | none => failure

/-! ## Numbers -/

/-- Digits, between two of which one underscore may stand. -/
def digits (isDigit : Char → Bool) : Reader (List Char) := do
  let first ← next isDigit
  let rest ← many (opt (char '_') *> next isDigit)
  pure (first :: rest)

def sign : Reader (List Char) := do
  let c ← opt (next fun c => c == '+' || c == '-')
  pure c.toList

/-- A decimal number with its sign. Only zero itself begins with a zero. -/
def decimal : Reader (List Char) := do
  let s ← sign
  -- digits behind a zero are left over, and no value may be followed by them
  let ds ← (do let zero ← char '0'; pure [zero]) <|> digits Char.isDigit
  pure (s ++ ds)

/-- Digits of a radix behind their mark. -/
def marked (mark : Char) (radix : Nat) : Reader Int64 := do
  word ['0', mark]
  let ds ← digits fun c => (digitValue? radix c).isSome
  match readDigits radix (1 <<< 63) 0 ds with
  | .ok n => pure (Int64.ofInt n)
  | .error _ => failure

def integer : Reader Int64 :=
  marked 'x' 16 <|> marked 'o' 8 <|> marked 'b' 2 <|> do
    let ds ← decimal
    match readInt64 ds with
    | .ok i => pure i
    | .error _ => failure

def exponent : Reader (List Char) := do
  let e ← next fun c => c == 'e' || c == 'E'
  let s ← sign
  let ds ← digits Char.isDigit
  pure (e :: (s ++ ds))

def fractionPart : Reader (List Char) := do
  let p ← char '.'
  let ds ← digits Char.isDigit
  let e ← opt exponent
  pure (p :: (ds ++ e.getD []))

/-- A number with a fraction or an exponent. One that is too large for a double is refused; below
the least double there is negative infinity. -/
def fraction : Reader Double := do
  let whole ← decimal
  let more ← exponent <|> fractionPart
  match Double.read? (whole ++ more) with
  | some d => if d.isInfinite && !d.negative then failure else pure d
  | none => failure

/-- A word for infinity or for what is no number, with or without a sign. -/
def namedFraction : Reader Double := do
  let s ← sign
  let name ← (do word ['i', 'n', 'f']; pure ['i', 'n', 'f']) <|>
    (do word ['n', 'a', 'n']; pure ['n', 'a', 'n'])
  match Double.read? (s ++ name) with
  | some d => pure d
  | none => failure

/-! ## Values without parts -/

def scalar : Reader Value :=
  (do let s ← text; pure (Value.text s)) <|>
  (do moment; pure Value.moment) <|>
  -- a fraction begins like an integer, and a moment like both
  (do let d ← fraction <|> namedFraction; pure (Value.fraction d)) <|>
  (do let i ← integer; pure (Value.integer i)) <|>
  (do word ['t', 'r', 'u', 'e']; pure (Value.boolean true)) <|>
  (do word ['f', 'a', 'l', 's', 'e']; pure (Value.boolean false))

end DocBase.Toml
