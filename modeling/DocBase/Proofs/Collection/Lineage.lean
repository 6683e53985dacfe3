import DocBase.Proofs.Collection.Reading
import DocBase.Text.Cut
import Mathlib.Data.List.Chain
import Mathlib.Data.List.Infix
import Mathlib.Order.Defs.Unbundled
/-!
# Uris and the collections above them

Whether a collection lies within another one is looked up in the texts of their uris: one begins
with the other and a slash. That comes to the same as going up from parent to parent until the other
one is met, for a segment holds no slash and a slash stands before each. Main statements:

* `within_iff_isPrefix` and `mem_lineage_iff_isPrefix` — both are told by the segments;
* `within_of_join` — what is joined to a uri lies within it;
* `within_iff_above` — the test on texts is the hierarchy of collections, a partial order with the
  root on top.
-/

namespace DocBase

namespace Text

/-- Behind the last `c` there is none, wherever that is. -/
theorem cutLast_append {c : Char} {front back : List Char} (h : c ∉ back) :
    cutLast c (front ++ c :: back) = some (front, back) := by
  induction front with
  | nil => simp [cutLast, cutLast_eq_none.2 h]
  | cons x front ih => simp [cutLast, ih]

/-- Cutting off an end behind a member that may go with it: that member is cut off with all that was
behind it, or it stays. -/
theorem dropEndWhile_append {α : Type} (p : α → Bool) (l r : List α) :
    dropEndWhile p (l ++ r) = dropEndWhile p l ∨
      ∃ kept, dropEndWhile p (l ++ r) = l ++ kept ∧ kept <+: r := by
  rw [dropEndWhile, List.reverse_append, List.dropWhile_append]
  split
  · exact .inl rfl
  · refine .inr ⟨dropEndWhile p r, ?_, dropEndWhile_isPrefix p r⟩
    simp [dropEndWhile]

end Text

namespace CollectionUri

variable {u v w p : CollectionUri}

/-! ## Parents -/

/-- A parent has all segments but the last, which is the name. -/
theorem segments_of_parent (h : u.parent? = some p) : u.segments = p.segments ++ [u.name] := by
  unfold parent? at h
  split at h
  · simp at h
  · next hne =>
    obtain rfl := Option.some.inj h
    have hlast : u.name = u.segments.getLast hne := by
      rw [name, List.getLast?_eq_getLast_of_ne_nil hne, Option.getD_some]
    rw [hlast, List.dropLast_append_getLast]

/-- The text of a uri is that of its parent, a slash and its name. -/
theorem text_of_parent (h : u.parent? = some p) :
    u.text.toList = p.text.toList ++ '/' :: u.name.toList := by
  rw [toList_text, toList_text, segments_of_parent h]
  simp

/-- So the parent is what stands before the last slash. -/
theorem cutLast_text (h : u.parent? = some p) :
    Text.cutLast '/' u.text.toList = some (p.text.toList, u.name.toList) := by
  rw [text_of_parent h]
  exact Text.cutLast_append u.name_spec.2

theorem length_text_parent (h : u.parent? = some p) : p.text.length < u.text.length := by
  rw [← String.length_toList, ← String.length_toList, text_of_parent h, List.length_append,
    List.length_cons]
  omega

/-! ## The chain of parents -/

/-- From a uri the lineage goes up from parent to parent. -/
theorem isChain_lineage (u : CollectionUri) :
    u.lineage.IsChain fun w p => w.parent? = some p := by
  induction u using ind with
  | step u ih =>
    rw [lineage_eq]
    cases hparent : u.parent? with
    | none => exact List.isChain_singleton u
    | some p =>
      have hp := ih p hparent
      rw [Option.map_some, Option.getD_some]
      rw [lineage_eq] at hp ⊢
      exact hp.cons_cons hparent

/-- It ends at the root. -/
theorem getLast?_lineage (u : CollectionUri) : u.lineage.getLast? = some root := by
  induction u using ind with
  | step u ih =>
    rw [lineage_eq]
    cases hparent : u.parent? with
    | none =>
      obtain rfl := parent?_eq_none.1 hparent
      rfl
    | some p =>
      have hp := ih p hparent
      rw [Option.map_some, Option.getD_some]
      rw [lineage_eq] at hp ⊢
      rw [List.getLast?_cons_cons]
      exact hp

/-- The uris above another one are those whose segments it begins with. -/
theorem mem_lineage_iff_isPrefix : v ∈ u.lineage ↔ v.segments <+: u.segments := by
  induction u using ind with
  | step u ih =>
    rw [mem_lineage]
    cases hparent : u.parent? with
    -- the root is the only uri without segments
    | none =>
      obtain rfl := parent?_eq_none.1 hparent
      have hnil : root.segments = [] := rfl
      rw [hnil, List.prefix_nil, ← hnil]
      simp only [reduceCtorEq, false_and, exists_false, or_false]
      constructor
      · intro h
        rw [h]
      · exact ext_segments
    | some p =>
      -- one segment more than the parent: a prefix of it is the whole, or one of the parent
      have hself : v = u ↔ v.segments = u.segments := ⟨fun h => by rw [h], ext_segments⟩
      rw [hself, segments_of_parent hparent, List.prefix_concat_iff]
      simp only [Option.some.injEq, exists_eq_left', ih p hparent]

/-! ## The test on texts -/

/-- One uri lies within another one if it begins with the segments of the other. -/
theorem within_iff_isPrefix : u.within v = true ↔ v.segments <+: u.segments := by
  rw [within, Bool.or_eq_true, beq_iff_eq, List.isPrefixOf_iff_prefix]
  constructor
  · rintro (rfl | ⟨r, hr⟩)
    · exact List.prefix_refl _
    · -- the slash behind the other's text stands between two segments of this one
      have hsplit := u.splitOn_text
      rw [← hr, List.append_assoc, List.singleton_append, List.splitOn_append_cons_self,
        v.splitOn_text] at hsplit
      have hsegments : v.segments.map String.toList <+: u.segments.map String.toList := by
        refine ⟨r.splitOn '/', ?_⟩
        simpa using hsplit
      exact (List.prefix_map_iff_of_injective fun _ _ h => String.toList_inj.1 h).1 hsegments
  · rintro ⟨r, hr⟩
    cases r with
    | nil =>
      rw [List.append_nil] at hr
      exact .inl (ext_segments hr.symm)
    | cons s r =>
      -- what is left over begins with the slash that the test puts behind the other's text
      refine .inr ⟨s.toList ++ r.flatMap fun s => '/' :: s.toList, ?_⟩
      rw [toList_text, toList_text, ← hr]
      simp

theorem within_iff_mem_lineage : u.within v = true ↔ v ∈ u.lineage := by
  rw [within_iff_isPrefix, mem_lineage_iff_isPrefix]

/-- Lying within is a partial order. -/
theorem isPartialOrder_within : IsPartialOrder CollectionUri fun u v => u.within v = true where
  refl u := within_iff_isPrefix.2 (List.prefix_refl _)
  trans u v w huv hvw := by
    rw [within_iff_isPrefix] at huv hvw ⊢
    exact hvw.trans huv
  antisymm u v huv hvu := by
    rw [within_iff_isPrefix] at huv hvu
    exact ext_segments (hvu.eq_of_length_le huv.length_le)

theorem within_root (u : CollectionUri) : u.within root = true :=
  within_iff_isPrefix.2 (List.nil_prefix)

/-- What is joined to a uri lies within it, whatever blanks and slashes are cut off the end. -/
theorem within_of_join {path : String} (h : u.join path = .ok w) : w.within u = true := by
  have hslash : (u.text ++ "/" ++ path).toList = u.text.toList ++ '/' :: path.toList := by simp
  have htrim := Text.trim_slash u.text.toList path.toList (.inr (by simp [toList_text]))
  rw [join, parse_eq_ok_iff, hslash, htrim] at h
  rw [within, Bool.or_eq_true, beq_iff_eq, List.isPrefixOf_iff_prefix]
  have hsplit : u.text.toList ++ '/' :: Text.trimEnd path.toList =
      (u.text.toList ++ ['/']) ++ Text.trimEnd path.toList := by simp
  rw [hsplit] at h
  rcases Text.dropEndWhile_append (· == '/') (u.text.toList ++ ['/'])
    (Text.trimEnd path.toList) with hgone | ⟨kept, hkept, -⟩
  · -- nothing but slashes was joined
    left
    have hself : Text.dropEndWhile (· == '/') (u.text.toList ++ ['/']) = u.text.toList :=
      (List.rdropWhile_concat_pos _ _ _ rfl).trans u.dropEndWhile_text
    rw [hgone, hself, String.toList_inj] at h
    exact (text_injective h).symm
  · -- something is left of what was joined, and it stands behind the uri and its slash
    right
    exact ⟨kept, by rw [← h, hkept]⟩

/-- Whatever uri one starts from: a uri lies within exactly those met on the way up from parent to
parent. This way begins with the uri itself; each next one is what stands before the last slash, so
the texts get shorter and shorter, and the last one is the root. Lying within is a partial order, in
which the root is above everything, and what is joined to a uri lies within it. -/
theorem within_iff_above (u : CollectionUri) :
    (∀ v, u.within v = true ↔ v ∈ u.lineage) ∧
    (u.lineage.head? = some u ∧
      u.lineage.IsChain (fun v p => v.parent? = some p ∧ p.text.length < v.text.length ∧
        Text.cutLast '/' v.text.toList = some (p.text.toList, v.name.toList)) ∧
      u.lineage.getLast? = some root ∧ root.text = "/db" ∧ root.parent? = none) ∧
    (IsPartialOrder CollectionUri (fun v w => v.within w = true) ∧ u.within root = true) ∧
    ∀ path w, u.join path = .ok w → w.within u = true := by
  refine ⟨fun v => within_iff_mem_lineage, ⟨rfl, ?_, u.getLast?_lineage, text_root, parent?_root⟩,
    ⟨isPartialOrder_within, u.within_root⟩, fun path w => within_of_join⟩
  apply u.isChain_lineage.imp
  intro v p hp
  exact ⟨hp, length_text_parent hp, cutLast_text hp⟩

/-- A collection whose name is a blank, and one joined to it whose name ends in one: it lies
within the first and all that are above that, but not within another one with which its text
begins, too. -/
theorem within_iff_above_blank :
    ∃ u w, parse "/db/apps/ /" = .ok u ∧ u.join "x /" = .ok w ∧ w.text = "/db/apps/ /x " ∧
      w.within u = true ∧ w.lineage.map text = ["/db/apps/ /x ", "/db/apps/ ", "/db/apps", "/db"] ∧
      ∃ v, parse "/db/app" = .ok v ∧ v.text.toList <+: w.text.toList ∧ w.within v = false := by
  have hu : parse "/db/apps/ /" = .ok ⟨["apps", " "], by decide⟩ := by decide +kernel
  have hw : join ⟨["apps", " "], by decide⟩ "x /" = .ok ⟨["apps", " ", "x "], by decide⟩ := by
    decide +kernel
  have hv : parse "/db/app" = .ok ⟨["app"], by decide⟩ := by decide +kernel
  rcases within_iff_above ⟨["apps", " "], by decide⟩ with ⟨-, -, -, hjoin⟩
  rcases within_iff_above ⟨["apps", " ", "x "], by decide⟩ with ⟨hiff, -, -, -⟩
  refine ⟨_, _, hu, hw, by decide +kernel, hjoin _ _ hw, ?_, _, hv, by decide +kernel, ?_⟩
  · simp [lineage, ancestors, parent?, text]
  · rw [Bool.eq_false_iff, ne_eq, hiff]
    simp [lineage, ancestors, parent?]

end CollectionUri
end DocBase
