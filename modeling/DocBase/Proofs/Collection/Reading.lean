import DocBase.Proofs.Collection.Spelling
import Mathlib.Data.List.DropRight
/-!
# Reading uris back

A text is read as a uri by cutting the blanks off its ends, and then the slashes off what is left;
the rest is the text of the uri. So a uri is not always read back from its text: a segment may end
in blanks, and when it stands last in the text, they are cut off. A uri has such a segment last if a
slash stood behind it when it was read, or if it is the parent of another one. Main statements:

* `parse_eq_ok_iff` — which texts are read, and as which uris;
* `parse_text_iff` — which uris are read back from their texts;
* `parse_text_slash` — from its text with a slash behind it, every uri is read back.
-/

namespace DocBase

/-! ## Cutting off ends -/

namespace Text

variable {α : Type} {p : α → Bool} {a : α}

/-- Members that stay are not reached over. -/
theorem dropEndWhile_append_cons (h : p a = false) (l r : List α) :
    dropEndWhile p (l ++ a :: r) = l ++ a :: dropEndWhile p r := by
  have hreverse : (l ++ a :: r).reverse = r.reverse ++ a :: l.reverse := by simp
  rw [dropEndWhile, dropEndWhile, hreverse, List.dropWhile_append]
  split
  · next hempty =>
    rw [List.isEmpty_iff.1 hempty]
    simp [h]
  · simp

/-- A text without blanks at its end is read in full behind a slash. -/
theorem trim_slash (l r : List Char) (hhead : l.head? = none ∨ l.head? = some '/') :
    trim (l ++ '/' :: r) = l ++ '/' :: trimEnd r := by
  have hfront : (l ++ '/' :: r).dropWhile isBlank = l ++ '/' :: r := by
    cases l with
    | nil => simp [show isBlank '/' = false by decide]
    | cons c l =>
      obtain rfl : c = '/' := by simpa using hhead
      simp [show isBlank '/' = false by decide]
  rw [trim, hfront]
  exact dropEndWhile_append_cons (by decide) l r

end Text

namespace CollectionUri

/-! ## Texts -/

/-- The slash-separated parts of a uri's text; the first one is empty, for it begins with a
slash. -/
theorem toList_text_eq_intercalate (u : CollectionUri) :
    u.text.toList = ['/'].intercalate ([] :: "db".toList :: u.segments.map String.toList) := by
  have behind : ∀ (l : List Char) (ls : List String),
      ['/'].intercalate (l :: ls.map String.toList) = l ++ ls.flatMap fun s => '/' :: s.toList := by
    intro l ls
    induction ls generalizing l with
    | nil => simp
    | cons s ls ih =>
      rw [List.map_cons, List.intercalate_cons_cons, ih]
      simp
  rw [toList_text, List.intercalate_cons_cons, behind]
  rfl

theorem splitOn_text (u : CollectionUri) :
    u.text.toList.splitOn '/' = [] :: "db".toList :: u.segments.map String.toList := by
  rw [toList_text_eq_intercalate]
  refine List.splitOn_intercalate '/' (fun l hl => ?_) (by simp)
  simp only [List.mem_cons, List.mem_map] at hl
  rcases hl with rfl | rfl | ⟨s, hs, rfl⟩
  · simp
  · decide
  · exact (u.valid s hs).2.1

/-- The text of a uri ends in a slash and the uri's name. -/
theorem exists_text_eq (u : CollectionUri) :
    ∃ front : List Char, u.text.toList = front ++ '/' :: u.name.toList ∧
      (front.head? = none ∨ front.head? = some '/') := by
  rcases List.eq_nil_or_concat u.segments with hnil | ⟨l, s, hsegments⟩
  · exact ⟨[], by simp [toList_text, name, hnil], .inl rfl⟩
  · refine ⟨"/db".toList ++ l.flatMap fun s => '/' :: s.toList, ?_, .inr (by simp)⟩
    simp [toList_text, name, hsegments]

/-- A name is not empty and holds no slash. -/
theorem name_spec (u : CollectionUri) : u.name ≠ "" ∧ '/' ∉ u.name.toList := by
  rw [name]
  cases hlast : u.segments.getLast? with
  | none => decide
  | some s =>
    have hvalid := u.valid s (List.mem_of_getLast? hlast)
    exact ⟨hvalid.1, hvalid.2.1⟩

/-- No slash is cut off the end of a uri's text. -/
theorem dropEndWhile_text (u : CollectionUri) :
    Text.dropEndWhile (· == '/') u.text.toList = u.text.toList := by
  rcases u.exists_text_eq with ⟨front, htext, -⟩
  rcases u.name_spec with ⟨hne, hslash⟩
  refine List.rdropWhile_eq_self_iff.2 fun hnil => ?_
  have hname : u.name.toList ≠ [] := by simpa using hne
  have hlast : u.text.toList.getLast hnil = u.name.toList.getLast hname := by
    simp only [htext, List.getLast_append, List.getLast_cons hname]
    simp
  rw [hlast, beq_iff_eq]
  exact fun h => hslash (h ▸ List.getLast_mem hname)

/-! ## What is read -/

theorem ofSegments?_eq_ok {l : List String} {u : CollectionUri} :
    ofSegments? l = .ok u ↔ u.segments = l := by
  unfold ofSegments?
  split
  · next hvalid =>
    rw [Except.ok.injEq]
    exact ⟨fun h => h ▸ rfl, fun h => (ext_segments h).symm⟩
  · next hinvalid =>
    have hne : u.segments ≠ l := fun h => hinvalid (h ▸ u.valid)
    split <;> simp [hne]

/-- The first part of a text that is read is empty, the second one is the root's name, and the
others are the segments. -/
theorem parse_eq_ok {input : String} {u : CollectionUri} :
    parse input = .ok u ↔ (Text.trim input.toList).head? = some '/' ∧
      (parts (Text.trim input.toList)).drop 1 = "db" :: u.segments := by
  have unmapped (r : Except UriFault CollectionUri) :
      r.mapError (fun fault => (⟨input, fault⟩ : InvalidUri)) = .ok u ↔ r = .ok u := by
    cases r <;> simp [Except.mapError]
  simp only [parse, unmapped]
  split
  · next hhead => simp [hhead]
  · next hhead =>
    rw [ne_eq, not_not] at hhead
    split
    · next segments hsegments =>
      rw [ofSegments?_eq_ok, hsegments]
      simp [hhead, eq_comm]
    · next hother =>
      simp only [reduceCtorEq, false_iff, not_and]
      exact fun _ h => hother _ h

/-- A text is read as a uri if, without the blanks at its ends and then the slashes at its end, it
is the uri's text. -/
theorem parse_eq_ok_iff {input : String} {u : CollectionUri} :
    parse input = .ok u ↔
      Text.dropEndWhile (· == '/') (Text.trim input.toList) = u.text.toList := by
  rw [parse_eq_ok]
  -- from here on it does not matter that the text was trimmed, only that slashes were cut off
  generalize Text.trim input.toList = s
  have hprefix : Text.dropEndWhile (· == '/') s <+: s := Text.dropEndWhile_isPrefix _ s
  rw [parts]
  generalize Text.dropEndWhile (· == '/') s = x at hprefix
  constructor
  · rintro ⟨hhead, hparts⟩
    -- what is left begins with the slash, which makes its first part empty
    obtain ⟨y, rfl⟩ : ∃ y, x = '/' :: y := by
      cases x with
      | nil => simp at hparts
      | cons c y =>
        obtain ⟨r, rfl⟩ := hprefix
        obtain rfl : c = '/' := by simpa using hhead
        exact ⟨y, rfl⟩
    have hsplit : ('/' :: y).splitOn '/' = [] :: y.splitOn '/' := by
      rw [List.splitOn_cons_eq_if_modifyHead, if_pos (beq_self_eq_true '/')]
    have hrest : y.splitOn '/' = "db".toList :: u.segments.map String.toList := by
      rw [hsplit, List.map_cons, List.drop_one, List.tail_cons] at hparts
      have htexts := congrArg (List.map String.toList) hparts
      simpa [Function.comp_def] using htexts
    -- cut into parts and joined again, it is the text of the uri
    have hjoin : ['/'].intercalate (('/' :: y).splitOn '/') = '/' :: y := List.intercalate_splitOn '/'
    rw [← hjoin, hsplit, hrest, toList_text_eq_intercalate]
  · rintro rfl
    constructor
    · obtain ⟨r, rfl⟩ := hprefix
      simp [toList_text]
    · rw [splitOn_text]
      simp [Function.comp_def]

/-- The last segment does not end in a blank. -/
def Tight (u : CollectionUri) : Prop := Text.trimEnd u.name.toList = u.name.toList

instance (u : CollectionUri) : Decidable u.Tight := by
  unfold Tight
  infer_instance

/-- From its text a uri is read back unless its last segment ends in a blank. -/
theorem parse_text_iff {u : CollectionUri} : parse u.text = .ok u ↔ u.Tight := by
  rcases u.exists_text_eq with ⟨front, htext, hhead⟩
  have hkept := u.dropEndWhile_text
  rw [parse_eq_ok_iff, Tight, htext, Text.trim_slash _ _ hhead]
  rw [htext] at hkept
  constructor
  · intro h
    -- no more can have been cut off the name than what is missing in the end
    have hcut := (Text.dropEndWhile_isPrefix (· == '/')
      (front ++ '/' :: Text.trimEnd u.name.toList)).length_le
    rw [h] at hcut
    refine (Text.dropEndWhile_isPrefix Text.isBlank u.name.toList).eq_of_length_le ?_
    simpa [Text.trimEnd] using hcut
  · -- no blank was at the end of the name, so nothing was cut off but the slash
    intro h
    rw [h, hkept]

/-- With a slash behind its text, a uri is always read back. -/
theorem parse_text_slash (u : CollectionUri) : parse (u.text ++ "/") = .ok u := by
  have htrim := Text.trim_slash u.text.toList [] (.inr (by simp [toList_text]))
  have hslash : (u.text ++ "/").toList = u.text.toList ++ '/' :: [] := by simp
  rw [parse_eq_ok_iff, hslash, htrim]
  exact (List.rdropWhile_concat_pos _ _ _ rfl).trans u.dropEndWhile_text

/-- Reading the text of a uri that was read, or of one that is above such a uri, gives this uri
unless its last segment ends in a blank; with a slash behind the text, it always does. So what was
written without a slash at its end is read back. -/
theorem parse_again {input : String} {u : CollectionUri} (h : parse input = .ok u) :
    (∀ v ∈ u.lineage, (parse v.text = .ok v ↔ v.Tight) ∧ parse (v.text ++ "/") = .ok v) ∧
      ((Text.trim input.toList).getLast? ≠ some '/' → parse u.text = .ok u) := by
  refine ⟨fun v _ => ⟨parse_text_iff, v.parse_text_slash⟩, fun hslash => ?_⟩
  rw [parse_eq_ok_iff] at h ⊢
  have hkept : Text.dropEndWhile (· == '/') (Text.trim input.toList) = Text.trim input.toList := by
    refine List.rdropWhile_eq_self_iff.2 fun hnil hlast => hslash ?_
    rw [List.getLast?_eq_getLast_of_ne_nil hnil, beq_iff_eq.1 hlast]
  rw [hkept] at h
  rw [← h, Text.trim_trim, hkept]

/-- A blank inside a uri that comes to stand at the end of its parent. -/
theorem parse_again_parent :
    ∃ u, parse "/db/a /b" = .ok u ∧ parse u.text = .ok u ∧
      ∃ v ∈ u.lineage, v.text = "/db/a " ∧ parse v.text ≠ .ok v ∧ parse (v.text ++ "/") = .ok v := by
  have hread : parse "/db/a /b" = .ok ⟨["a ", "b"], by decide⟩ := by decide +kernel
  have hmem : (⟨["a "], by decide⟩ : CollectionUri) ∈
      (⟨["a ", "b"], by decide⟩ : CollectionUri).lineage :=
    mem_lineage.2 (.inr ⟨_, rfl, List.mem_cons_self⟩)
  obtain ⟨hlineage, hback⟩ := parse_again hread
  obtain ⟨hiff, hslash⟩ := hlineage _ hmem
  refine ⟨_, hread, hback (by decide +kernel), _, hmem, by decide +kernel, fun hok => ?_, hslash⟩
  exact absurd (hiff.1 hok) (by decide +kernel)

/-- So a uri that was read is not always read back from its text. -/
theorem not_parse_text :
    ¬∀ (input : String) (u : CollectionUri), parse input = .ok u → parse u.text = .ok u := by
  intro back
  have hread : parse "/db/a /" = .ok ⟨["a "], by decide⟩ := by decide +kernel
  have hback := parse_text_iff.1 (back _ _ hread)
  exact absurd hback (by decide +kernel)

end CollectionUri
end DocBase
