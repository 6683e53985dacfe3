import DocBase.Proofs.Query.Grammar.Spelling
import DocBase.Proofs.Text.Integer
/-!
# Reading tokens

Each kind of token is read off the front of a text it stands in, up to where the token ends; and it
is told apart from other kinds by its first character. Main statements:

* `name?_append` — a name is read in full, its qualifier included;
* `quotedEnd?_append` — a string is read back, its quotes no longer doubled;
* `readInt64_toString` — so is a number.
-/

namespace DocBase.Query.Grammar

/-! ## Marks and keywords -/

theorem dropWord?_append (w rest : List Char) : dropWord? w (w ++ rest) = some rest := by
  induction w with
  | nil => simp [dropWord?]
  | cons c w ih => simpa [dropWord?] using ih

/-- A word that begins otherwise is another word. -/
theorem dropWord?_of_head {c : Char} {w s : List Char} (h : ∀ r, s ≠ c :: r) :
    dropWord? (c :: w) s = none := by
  cases s with
  | nil => simp [dropWord?]
  | cons d s =>
    have hne : c ≠ d := fun heq => h s (by rw [heq])
    simp [dropWord?, hne]

theorem reads_mark (w : String) (rest : List Char) : (mark w).Reads (w.toList ++ rest) () rest :=
  .scan (by simp [dropWord?_append])

theorem rejects_mark {w : String} {c : Char} {cs s : List Char} (hw : w.toList = c :: cs)
    (h : ∀ r, s ≠ c :: r) : (mark w).Rejects s :=
  .scan (by simp [hw, dropWord?_of_head h])

/-- Where a token ends no name goes on. -/
theorem not_isNameChar_of_ends {c : Char} {r : List Char} (h : Ends (c :: r)) :
    isNameChar c = false := by
  have hc := h c r rfl
  simp only [List.mem_cons, List.not_mem_nil, or_false] at hc
  rcases hc with rfl | rfl | rfl | rfl | rfl <;> decide

theorem reads_keyword (w : String) {rest : List Char} (h : Ends rest) :
    (keyword w).Reads (w.toList ++ rest) () rest := by
  have hhead : rest.head?.any isNameChar = false := by
    cases rest with
    | nil => simp
    | cons c r => simpa using not_isNameChar_of_ends h
  exact .named (.scan (by simp [keyword?, dropWord?_append, hhead]))

theorem rejects_keyword {w : String} {c : Char} {cs s : List Char} (hw : w.toList = c :: cs)
    (h : ∀ r, s ≠ c :: r) : (keyword w).Rejects s :=
  .named (.scan (by simp [keyword?, hw, dropWord?_of_head h]))

/-- Characters of one kind are taken up to the first that is of another kind. -/
theorem takeWhile_dropWhile_append {p : Char → Bool} {cs rest : List Char}
    (hcs : ∀ c ∈ cs, p c = true) (h : ∀ c r, rest = c :: r → p c = false) :
    (cs ++ rest).takeWhile p = cs ∧ (cs ++ rest).dropWhile p = rest := by
  rw [List.takeWhile_append_of_pos hcs, List.dropWhile_append_of_pos hcs]
  cases rest with
  | nil => simp
  | cons c r => simp [h c r rfl]

theorem eq_append_of_dropWord? {w s rest : List Char} (h : dropWord? w s = some rest) :
    s = w ++ rest := by
  -- on the word, a character at a time
  induction w generalizing s with
  | nil => simpa [dropWord?] using h
  | cons c w ih =>
    cases s with
    | nil => simp [dropWord?] at h
    | cons d s =>
      rw [dropWord?] at h
      split at h
      · next hcd => rw [hcd, ih h, List.cons_append]
      · simp at h

/-- A keyword is a word of its own: no name goes on behind it. -/
theorem rejects_or_reads_keyword (w : String) (s : List Char) :
    (keyword w).Rejects s ∨ ∃ rest, s = w.toList ++ rest ∧ (keyword w).Reads s () rest ∧
      ∀ c r, rest = c :: r → isNameChar c = false := by
  cases hdrop : dropWord? w.toList s with
  | none => exact .inl (.named (.scan (by simp [keyword?, hdrop])))
  | some rest =>
    -- the word must end where it is read
    by_cases hname : rest.head?.any isNameChar = true
    · exact .inl (.named (.scan (by simp [keyword?, hdrop, hname])))
    · refine .inr ⟨rest, eq_append_of_dropWord? hdrop, ?_, ?_⟩
      · exact .named (.scan (by simp [keyword?, hdrop, hname]))
      · rintro c r rfl
        simpa using hname

/-! ## Names -/

/-- A simple name is read up to the first character that is not of a name. -/
theorem simpleName?_append {n : String} (hn : IsSimpleName n) {rest : List Char}
    (h : ∀ c r, rest = c :: r → isNameChar c = false) :
    simpleName? (n.toList ++ rest) = some (n.toList, rest) := by
  rcases hn with ⟨c, cs, heq, hstart, hchars⟩
  rcases takeWhile_dropWhile_append hchars h with ⟨htake, hdrop⟩
  rw [heq, List.cons_append, simpleName?, if_pos hstart, htake, hdrop]

/-- A name is read in full, its qualifier included. -/
theorem name?_append {n : QName} (hn : n.WellFormed) {rest : List Char} (h : Ends rest) :
    name? (n.text.toList ++ rest) = some (n, rest) := by
  have hrest : ∀ c r, rest = c :: r → isNameChar c = false := by
    rintro c r rfl
    exact not_isNameChar_of_ends h
  rcases n with ⟨qualifier, n⟩
  cases qualifier with
  -- without a qualifier a colon would make it one, but the token ends first
  | none =>
    have hfirst := simpleName?_append hn.name hrest
    simp only at hfirst
    have htext : (QName.mk none n).text = n := rfl
    rw [htext, name?, hfirst]
    cases rest with
    | nil => simp
    | cons c r =>
      have hcolon : c ≠ ':' := by
        rintro rfl
        exact absurd (h ':' r rfl) (by decide)
      simp [hcolon]
  | some q =>
    -- the qualifier ends at the colon, the name behind it where the whole token does
    have hbehind : ∀ c r, ':' :: (n.toList ++ rest) = c :: r → isNameChar c = false := by
      intro c r heq
      rw [← (List.cons.inj heq).1]
      decide
    have hfirst := simpleName?_append (hn.qualifier q rfl) hbehind
    have hsecond := simpleName?_append hn.name hrest
    simp only at hsecond
    have htext : (QName.mk (some q) n).text.toList ++ rest =
        q.toList ++ ':' :: (n.toList ++ rest) := by
      simp [QName.text]
    rw [htext, name?, hfirst]
    simp [hsecond]

theorem isNameChar_of_isNameStart {c : Char} (h : isNameStart c = true) : isNameChar c = true := by
  simp only [isNameStart, Bool.or_eq_true] at h
  simp only [isNameChar, Char.isAlphanum, Bool.or_eq_true]
  tauto

/-- Where the first simple name ends that a name consists of: at the end of the name, or at the
colon behind the qualifier. -/
theorem exists_simpleName_append {n : QName} (hn : n.WellFormed) (s : List Char) :
    ∃ cs rest, n.text.toList ++ s = cs ++ rest ∧ (∀ c ∈ cs, isNameChar c = true) ∧
      (rest = s ∨ ∃ r, rest = ':' :: r) := by
  -- names are made of name characters throughout
  have hchars {m : String} (hm : IsSimpleName m) : ∀ c ∈ m.toList, isNameChar c = true := by
    rcases hm with ⟨c, cs, heq, hstart, hchars⟩
    intro d hd
    rw [heq] at hd
    rcases List.mem_cons.1 hd with rfl | hd
    · exact isNameChar_of_isNameStart hstart
    · exact hchars d hd
  rcases n with ⟨qualifier, n⟩
  cases qualifier with
  | none => exact ⟨n.toList, s, rfl, hchars hn.name, .inl rfl⟩
  | some q =>
    refine ⟨q.toList, ':' :: (n.toList ++ s), ?_, hchars (hn.qualifier q rfl), .inr ⟨_, rfl⟩⟩
    simp [QName.text]

theorem reads_name {n : QName} (hn : n.WellFormed) {rest : List Char} (h : Ends rest) :
    name.Reads (n.text.toList ++ rest) n rest :=
  .named (.scan (name?_append hn h))

/-- No name begins with a character that is neither a letter nor an underscore. -/
theorem rejects_name {s : List Char} (h : ∀ c r, s = c :: r → isNameStart c = false) :
    name.Rejects s := by
  refine .named (.scan ?_)
  cases s with
  | nil => simp [name?, simpleName?]
  | cons c r => simp [name?, simpleName?, h c r rfl]

theorem reads_varName {n : QName} (hn : n.WellFormed) {rest : List Char} (h : Ends rest) :
    varName.Reads ('$' :: n.text.toList ++ rest) n rest :=
  .named (.bind (reads_mark "$" _) (reads_name hn h))

theorem rejects_varName {s : List Char} (h : ∀ r, s ≠ '$' :: r) : varName.Rejects s :=
  .named (.bind (rejects_mark rfl h) _)

/-! ## Strings -/

/-- A string is read back, its quotes no longer doubled. -/
theorem quotedEnd?_append {q : Char} {rest : List Char} (h : ∀ r, rest ≠ q :: r) (s : List Char) :
    quotedEnd? q ((s.flatMap fun c => if c = q then [q, q] else [c]) ++ q :: rest) =
      some (s, rest) := by
  -- on the text: a doubled mark stands for one, and the last one is not doubled
  induction s with
  | nil =>
    cases rest with
    | nil => simp [quotedEnd?]
    | cons d r =>
      have hd : d ≠ q := fun heq => h r (by rw [heq])
      simp [quotedEnd?, hd]
  | cons c s ih =>
    by_cases hc : c = q
    · subst hc
      simp [quotedEnd?, ih]
    · rw [List.flatMap_cons, if_neg hc]
      rcases hmore : (s.flatMap fun c => if c = q then [q, q] else [c]) ++ q :: rest with _ | ⟨d, r⟩
      · simp at hmore
      · rw [hmore] at ih
        simp [quotedEnd?, hc, hmore, ih]

theorem reads_quoted {q : Char} (hq : q ∈ ['"', '\'']) (s : List Char) {rest : List Char}
    (h : Ends rest) : quoted.Reads (inQuotes q s ++ rest) s rest := by
  have hq' : q = '"' ∨ q = '\'' := by simpa using hq
  have hrest : ∀ r, rest ≠ q :: r := h.ne_cons (by rcases hq' with rfl | rfl <;> decide)
  have hread : quoted? (inQuotes q s ++ rest) = some ((q, s), rest) := by
    simp [inQuotes, quoted?, hq', quotedEnd?_append hrest]
  exact .bind (.scan hread) (.pure s rest)

theorem rejects_quoted {s : List Char} (h : ∀ c r, s = c :: r → c ∉ ['"', '\'']) :
    quoted.Rejects s := by
  refine .bind (.scan ?_) _
  cases s with
  | nil => simp [quoted?]
  | cons c r =>
    have hc : ¬ (c = '"' ∨ c = '\'') := by simpa using h c r rfl
    rw [quoted?, if_neg hc]

/-! ## Numbers -/

/-- A number is read back. -/
theorem readInt64_toString {i : Int64} (h : 0 ≤ i.toInt) :
    Text.readInt64 (toString i.toInt.toNat).toList = .ok i := by
  have hdigits : ∀ d ∈ (toString i.toInt.toNat).toList, d.isDigit = true :=
    fun d hd => isDigit_of_mem_toString hd
  -- the figures of a number have its value
  have hvalue : Nat.ofDigitChars 10 (toString i.toInt.toNat).toList 0 = i.toInt.toNat := by
    have hlist : (toString i.toInt.toNat).toList = Nat.toDigits 10 i.toInt.toNat := by simp
    rw [hlist]
    exact Nat.ofDigitChars_toDigits (by decide) (by decide)
  have hbound : i.toInt.toNat < 1 <<< 63 := by
    have hlt := i.toInt_lt
    omega
  have hread : Text.readDigits 10 (1 <<< 63) 0 (toString i.toInt.toNat).toList =
      .ok i.toInt.toNat := by
    rw [Text.readDigits_eq_ok_iff (by decide) (by decide) (by decide)]
    exact ⟨fun d hd => Text.isFigure_ten_iff.2 (hdigits d hd), hvalue, hbound⟩
  -- a figure is no sign, so all of the text is read as figures
  rcases hds : (toString i.toInt.toNat).toList with _ | ⟨d, ds⟩
  · exact absurd hds (toString_ne_nil _)
  · have hd := hdigits d (by rw [hds]; simp)
    have hminus : d ≠ '-' := by
      rintro rfl
      simp at hd
    have hplus : d ≠ '+' := by
      rintro rfl
      simp at hd
    rw [Text.readInt64_unsigned hminus hplus, ← hds, hread]
    simp only [Int.toNat_of_nonneg h, Int64.ofInt_toInt]

/-- Digits are read up to the first character that is none. -/
theorem digits?_append {ds rest : List Char} (hne : ds ≠ []) (hds : ∀ d ∈ ds, d.isDigit = true)
    (h : ∀ c r, rest = c :: r → c.isDigit = false) : digits? (ds ++ rest) = some (ds, rest) := by
  rcases takeWhile_dropWhile_append hds h with ⟨htake, hdrop⟩
  unfold digits?
  rw [htake, hdrop]
  split
  · exact absurd rfl hne
  · rfl

theorem digits?_of_head {s : List Char} (h : ∀ c r, s = c :: r → c.isDigit = false) :
    digits? s = none := by
  cases s with
  | nil => simp [digits?]
  | cons c r => simp [digits?, h c r rfl]

theorem not_isDigit_of_ends {c : Char} {r : List Char} (h : Ends (c :: r)) : c.isDigit = false := by
  have hc := h c r rfl
  simp only [List.mem_cons, List.not_mem_nil, or_false] at hc
  rcases hc with rfl | rfl | rfl | rfl | rfl <;> decide

/-- A number with a decimal point begins with a digit or the point. -/
theorem decimal?_of_head {s : List Char} (h : ∀ c r, s = c :: r → c.isDigit = false ∧ c ≠ '.') :
    decimal? s = none := by
  have hdigits := digits?_of_head fun c r heq => (h c r heq).1
  unfold decimal?
  split
  · exact absurd rfl (h _ _ rfl).2
  · rw [hdigits]

theorem scientific?_of_head {s : List Char} (h : ∀ c r, s = c :: r → c.isDigit = false ∧ c ≠ '.') :
    scientific? s = none := by
  have hdigits := digits?_of_head fun c r heq => (h c r heq).1
  simp [scientific?, decimal?_of_head h, hdigits]

/-- A point without a digit behind it is no number. -/
theorem decimal?_point {rest : List Char} (h : Ends rest) : decimal? ('.' :: rest) = none := by
  have hdigits := digits?_of_head (s := rest) fun c r heq => not_isDigit_of_ends (r := r) (heq ▸ h)
  simp [decimal?, hdigits]

theorem scientific?_point {rest : List Char} (h : Ends rest) :
    scientific? ('.' :: rest) = none := by
  have hpoint : digits? ('.' :: rest) = none := digits?_of_head fun c r heq => by
    rw [← (List.cons.inj heq).1]
    decide
  simp [scientific?, decimal?_point h, hpoint]

/-- Digits that end before layout are neither followed by a point nor by an exponent. -/
theorem decimal?_digits {ds rest : List Char} (hne : ds ≠ []) (hds : ∀ d ∈ ds, d.isDigit = true)
    (h : Ends rest) : decimal? (ds ++ rest) = none := by
  have hdigits := digits?_append hne hds fun c r heq => not_isDigit_of_ends (r := r) (heq ▸ h)
  unfold decimal?
  split
  · -- a point in front is no digit
    next s heq =>
    rcases ds with _ | ⟨d, ds⟩
    · exact absurd rfl hne
    · have hd := hds d List.mem_cons_self
      rw [(List.cons.inj heq).1] at hd
      simp at hd
  · rw [hdigits]
    split
    · next ds' r heq =>
      simp only [Option.some.injEq, Prod.mk.injEq] at heq
      exact absurd heq.2 (h.ne_cons (by decide) r)
    · rfl

theorem scientific?_digits {ds rest : List Char} (hne : ds ≠ []) (hds : ∀ d ∈ ds, d.isDigit = true)
    (h : Ends rest) : scientific? (ds ++ rest) = none := by
  have hdigits := digits?_append hne hds fun c r heq => not_isDigit_of_ends (r := r) (heq ▸ h)
  -- nor does an exponent begin where the token ends
  have hexponent : exponent? rest = none := by
    cases rest with
    | nil => simp [exponent?]
    | cons c r =>
      have hc : ¬ (c = 'e' ∨ c = 'E') := by
        rintro (rfl | rfl)
        · exact h.ne_cons (by decide) r rfl
        · exact h.ne_cons (by decide) r rfl
      simp only [exponent?, if_neg hc]
  simp [scientific?, decimal?_digits hne hds h, hdigits, hexponent]

end DocBase.Query.Grammar
