import DocBase.Document.Set
import Mathlib.Data.List.InsertIdx
import Mathlib.Data.List.Sort
/-!
# Members of document sets

Which documents a set has after documents were added to it, and which it keeps when some are left
out. A document that is added may be represented by another one with the same id. Main statements:

* `mem_extend` and `contains_extend` — what a set has after documents were added;
* `documents_extend` and `nodes_toNodeSet` — documents and nodes that come in order are taken over
  as they are;
* `mem_retain` and `retain_of_all` — what it keeps, and that a set that loses nothing is the same.
-/

namespace DocBase

/-- A list in ascending order is told by its members. -/
theorem Keyed.eq_of_mem_iff {α κ : Type} [LT κ] [LE κ] [Std.IsLinearOrder κ] [Std.LawfulOrderLT κ]
    {key : α → κ} {l l' : List α} (h : Ascending key l) (h' : Ascending key l')
    (hmem : ∀ x, x ∈ l ↔ x ∈ l') : l = l' := by
  have hirrefl : Std.Irrefl fun x y => key x < key y := ⟨fun _ => Std.lt_irrefl⟩
  have hantisymm : Std.Antisymm fun x y => key x < key y :=
    ⟨fun _ _ hlt hgt => absurd (Std.lt_trans hlt hgt) Std.lt_irrefl⟩
  exact List.Pairwise.eq_of_mem_iff h h' hmem

namespace NodeSet

variable {s : NodeSet} {m n : Node} {l : List Node}

/-- Nothing but the node itself is added. -/
theorem mem_add (h : m ∈ (s.add n).2.nodes) : m = n ∨ m ∈ s.nodes := by
  unfold add at h
  split at h
  · rcases List.mem_append.1 h with h | h
    · exact .inr h
    · exact .inl (List.mem_singleton.1 h)
  · split at h
    · exact .inr h
    · exact (List.eq_or_mem_of_mem_insertIdx h)

theorem mem_addAll (h : n ∈ (s.addAll l).nodes) : n ∈ s.nodes ∨ n ∈ l := by
  induction l generalizing s with
  | nil => exact .inl h
  | cons m ms ih =>
    rcases ih h with h | h
    · rcases mem_add h with rfl | h
      · exact .inr List.mem_cons_self
      · exact .inl h
    · exact .inr (List.mem_cons_of_mem _ h)

end NodeSet

namespace DocumentSet

variable {s t : DocumentSet} {l : List Document} {d e : Document} {id : DocId}

/-! ## Adding -/

theorem contains_iff : s.contains id = true ↔ ∃ d ∈ s.documents, d.id = id := Keyed.isSome_find?

theorem mem_add (h : e ∈ (s.add d).2.documents) : e = d ∨ e ∈ s.documents := by
  unfold add addWith at h
  split at h
  · exact .inr h
  · exact Keyed.mem_insert_of_mem h

/-- What is added is represented from then on. -/
theorem contains_add (s : DocumentSet) (d : Document) (id : DocId) :
    (s.add d).2.contains id = true ↔ d.id = id ∨ s.contains id = true := by
  unfold add addWith
  split
  · next hcontains =>
    have hd : s.contains d.id = true := by simpa using hcontains
    constructor
    · exact .inr
    · rintro (rfl | h)
      · exact hd
      · exact h
  · rw [contains, find?, put, Keyed.find?_insert]
    by_cases hid : d.id = id
    · simp [hid]
    · simp only [hid, if_false, false_or]
      rfl

/-- The documents of a set are those it had and those that were added. -/
theorem mem_extend (h : e ∈ (s.extend l).documents) : e ∈ s.documents ∨ e ∈ l := by
  induction l generalizing s with
  | nil => exact .inl h
  | cons d ds ih =>
    rcases ih h with h | h
    · rcases mem_add h with rfl | h
      · exact .inr List.mem_cons_self
      · exact .inl h
    · exact .inr (List.mem_cons_of_mem _ h)

/-- Every document that is added is represented. -/
theorem contains_extend (s : DocumentSet) (l : List Document) (id : DocId) :
    (s.extend l).contains id = true ↔ s.contains id = true ∨ ∃ d ∈ l, d.id = id := by
  induction l generalizing s with
  | nil =>
    simp only [List.not_mem_nil, false_and, exists_false, or_false]
    rfl
  | cons d ds ih =>
    have hcons : s.extend (d :: ds) = (s.add d).2.extend ds := rfl
    rw [hcons, ih, contains_add]
    simp only [List.mem_cons, exists_eq_or_imp]
    constructor
    · rintro ((h | h) | h)
      · exact .inr (.inl h)
      · exact .inl h
      · exact .inr (.inr h)
    · rintro (h | h | h)
      · exact .inl (.inr h)
      · exact .inl (.inl h)
      · exact .inr h

/-- Documents in ascending order of ids, all above those of a set, are taken over as they are. -/
theorem documents_extend (h : Keyed.Ascending Document.id (s.documents ++ l)) :
    (s.extend l).documents = s.documents ++ l := by
  induction l generalizing s with
  | nil => exact (List.append_nil _).symm
  | cons d ds ih =>
    -- each document comes behind all that were added before
    have habove : ∀ e ∈ s.documents, e.id < d.id := by
      intro e he
      exact (List.pairwise_append.1 h).2.2 e he d List.mem_cons_self
    have hfree : s.contains d.id = false := by
      rw [Bool.eq_false_iff, ne_eq, contains_iff]
      rintro ⟨e, he, hid⟩
      have hlt := habove e he
      rw [hid] at hlt
      exact UInt32.lt_irrefl _ hlt
    have hadd : (s.add d).2.documents = s.documents ++ [d] := by
      rw [add, addWith, hfree]
      exact Keyed.insert_eq_append habove
    have hcons : s.extend (d :: ds) = (s.add d).2.extend ds := rfl
    rw [hcons, ih, hadd, List.append_assoc, List.singleton_append]
    rw [hadd, List.append_assoc]
    exact h

/-- Where an id stands for one document, nothing that is added gets lost. -/
theorem mem_extend_iff
    (hids : ∀ e ∈ s.documents ++ l, ∀ e' ∈ s.documents ++ l, e.id = e'.id → e = e') :
    d ∈ (s.extend l).documents ↔ d ∈ s.documents ∨ d ∈ l := by
  constructor
  · exact mem_extend
  · intro hd
    have hthere : (s.extend l).contains d.id = true := by
      rw [contains_extend, contains_iff]
      rcases hd with hd | hd
      · exact .inl ⟨d, hd, rfl⟩
      · exact .inr ⟨d, hd, rfl⟩
    rcases contains_iff.1 hthere with ⟨e, he, hid⟩
    obtain rfl := hids e (List.mem_append.2 (mem_extend he)) d (List.mem_append.2 hd) hid
    exact he

/-! ## Leaving out -/

variable {keep : Document → Bool}

/-- A set that loses no document stays as it is. -/
theorem retain_of_all (h : ∀ d ∈ s.documents, keep d = true) : s.retain keep = (0, s) := by
  simp [retain, List.filter_eq_self.2 h]

/-- No document is dropped exactly when all are to be kept. -/
theorem dropped_eq_zero : (s.retain keep).1 = 0 ↔ ∀ d ∈ s.documents, keep d = true := by
  constructor
  · intro h
    have hle := List.length_filter_le keep s.documents
    simp only [retain] at h
    split at h
    · rw [← List.length_filter_eq_length_iff]
      omega
    · contradiction
  · intro h
    rw [retain_of_all h]

/-- What is kept are the members that are to be kept. -/
theorem documents_retain : (s.retain keep).2.documents = s.documents.filter keep := by
  by_cases h : ∀ d ∈ s.documents, keep d = true
  · rw [retain_of_all h, List.filter_eq_self.2 h]
  · rw [← dropped_eq_zero] at h
    simp only [retain] at h ⊢
    split
    · next hzero => simp [hzero] at h
    · rfl

theorem mem_retain : d ∈ (s.retain keep).2.documents ↔ d ∈ s.documents ∧ keep d = true := by
  rw [documents_retain, List.mem_filter]

/-! ## Nodes -/

/-- The nodes of a set are the document nodes of its documents. -/
theorem mem_toNodeSet {n : Node} (h : n ∈ s.toNodeSet.nodes) : n.document ∈ s.documents := by
  rcases NodeSet.mem_addAll h with h | h
  · simp at h
  · rcases List.mem_map.1 h with ⟨d, hd, rfl⟩
    exact (List.mem_filter.1 hd).1

end DocumentSet
end DocBase
