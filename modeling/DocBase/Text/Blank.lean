/-!
# Blanks

The characters with Unicode's property White_Space, and cutting them off the ends of a text. Main
statement: `trim_trim` — a trimmed text has nothing left to trim.
-/

namespace DocBase.Text

/-- The characters of the property White_Space. -/
def isBlank (c : Char) : Bool :=
  let n := c.toNat
  (0x09 ≤ n && n ≤ 0x0D) || n == 0x20 || n == 0x85 || n == 0xA0 || n == 0x1680 ||
    (0x2000 ≤ n && n ≤ 0x200A) || n == 0x2028 || n == 0x2029 || n == 0x202F || n == 0x205F ||
    n == 0x3000

/-- What is left when the longest tail of members that satisfy `p` is cut off. -/
def dropEndWhile {α : Type} (p : α → Bool) (l : List α) : List α :=
  (l.reverse.dropWhile p).reverse

/-- A text without the blanks at its end. -/
def trimEnd (s : List Char) : List Char :=
  dropEndWhile isBlank s

/-- A text without the blanks at either end. -/
def trim (s : List Char) : List Char :=
  trimEnd (s.dropWhile isBlank)

/-! ## Laws -/

/-- Cutting off a tail leaves a front part. -/
theorem dropEndWhile_isPrefix {α : Type} (p : α → Bool) (l : List α) : dropEndWhile p l <+: l := by
  rw [dropEndWhile, ← List.reverse_suffix, List.reverse_reverse]
  exact List.dropWhile_suffix p

theorem dropEndWhile_idem {α : Type} (p : α → Bool) (l : List α) :
    dropEndWhile p (dropEndWhile p l) = dropEndWhile p l := by
  simp only [dropEndWhile, List.reverse_reverse]
  congr 1
  induction l.reverse with
  | nil => rfl
  | cons a r ih => by_cases h : p a <;> simp [h, ih]

/-- A trimmed text begins with no blank. -/
theorem dropWhile_trim (s : List Char) : (trim s).dropWhile isBlank = trim s := by
  have front : ∀ t : List Char, (∀ c, t.head? = some c → isBlank c = false) →
      t.dropWhile isBlank = t := by
    intro t h
    cases t with
    | nil => rfl
    | cons a r => simp [h a rfl]
  apply front
  intro c hc
  have hp : trim s <+: s.dropWhile isBlank := dropEndWhile_isPrefix _ _
  obtain ⟨r, hr⟩ := hp
  have : (s.dropWhile isBlank).head? = some c := by
    rw [← hr]
    cases h : trim s with
    | nil => simp [h] at hc
    | cons a t => simpa [h] using hc
  have := List.head?_dropWhile_not isBlank s
  simp_all

/-- A trimmed text has nothing left to trim. -/
theorem trim_trim (s : List Char) : trim (trim s) = trim s := by
  show trimEnd ((trim s).dropWhile isBlank) = trim s
  rw [dropWhile_trim]
  exact dropEndWhile_idem _ _

end DocBase.Text
