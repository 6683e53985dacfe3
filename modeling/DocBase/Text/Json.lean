/-!
# JSON texts

Values as JSON on several lines: two spaces more for every level, one element or member a line, and
nothing between the brackets of an empty list. Only quotes, backslashes and control characters are
escaped. Main statement: what is written holds no control character (`isPrintable_of_mem_escape`).
-/

namespace DocBase.Text

inductive Json where
  | null
  | number (n : Nat)
  | text (s : String)
  | list (elements : List Json)
  | record (members : List (String × Json))
deriving Repr

namespace Json

def hexDigit (n : Nat) : Char := if n < 10 then Char.ofNat (48 + n) else Char.ofNat (87 + n)

/-- A character inside quotes. -/
def escape (c : Char) : List Char :=
  match c with
  | '"' => ['\\', '"']
  | '\\' => ['\\', '\\']
  | '\x08' => ['\\', 'b']
  | '\t' => ['\\', 't']
  | '\n' => ['\\', 'n']
  | '\x0c' => ['\\', 'f']
  | '\r' => ['\\', 'r']
  | c =>
    if c.toNat < 0x20 then
      ['\\', 'u', '0', '0', hexDigit (c.toNat / 16), hexDigit (c.toNat % 16)]
    else [c]

def quoted (s : String) : String :=
  "\"" ++ String.ofList (s.toList.flatMap escape) ++ "\""

/-- A new line at a level. -/
def line (level : Nat) : String := "\n" ++ String.ofList (List.replicate (2 * level) ' ')

mutual

/-- A value whose first line stands at a level. -/
def pretty (level : Nat) : Json → String
  | null => "null"
  | number n => toString n
  | text s => quoted s
  | list [] => "[]"
  | list (e :: es) =>
    "[" ++ line (level + 1) ++ pretty (level + 1) e ++ prettyElements (level + 1) es ++ line level ++
      "]"
  | record [] => "\x7b\x7d"
  | record ((k, v) :: ms) =>
    "\x7b" ++ line (level + 1) ++ quoted k ++ ": " ++ pretty (level + 1) v ++
      prettyMembers (level + 1) ms ++ line level ++ "\x7d"

/-- Further elements, each after a comma. -/
def prettyElements (level : Nat) : List Json → String
  | [] => ""
  | e :: es => "," ++ line level ++ pretty level e ++ prettyElements level es

/-- Further members, each after a comma. -/
def prettyMembers (level : Nat) : List (String × Json) → String
  | [] => ""
  | (k, v) :: ms =>
    "," ++ line level ++ quoted k ++ ": " ++ pretty level v ++ prettyMembers level ms

end

/-- What is written for a character holds no control character. -/
theorem isPrintable_of_mem_escape {c d : Char} (h : d ∈ escape c) : 0x20 ≤ d.toNat := by
  unfold escape at h
  split at h
  iterate 7
    · simp only [List.mem_cons, List.not_mem_nil, or_false] at h
      rcases h with rfl | rfl <;> decide
  split at h
  · next hc =>
    have hex : ∀ n, n < 16 → 0x20 ≤ (hexDigit n).toNat := by decide
    simp only [List.mem_cons, List.not_mem_nil, or_false] at h
    rcases h with rfl | rfl | rfl | rfl | rfl | rfl
    iterate 4 decide
    · exact hex _ (by omega)
    · exact hex _ (by omega)
  · next hc =>
    simp only [List.mem_cons, List.not_mem_nil, or_false] at h
    subst h
    omega

end Json
end DocBase.Text
