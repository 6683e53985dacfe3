import DocBase.Collection.Uri
/-!
# Uris and their texts

A collection is filed under the text of its uri, and its ancestors are found by going from parent to
parent. Main statements:

* `text_injective` — a uri is told by its text, so nothing is filed under the text of another uri;
* `lineage_eq` and `ind` — recursion and induction along the parents, the last of which is the root.
-/

namespace DocBase.CollectionUri

/-- Segments hold no slash, so they can be told from the text that a slash before each makes. -/
theorem segments_eq_of_flatMap {l m : List String} (hl : ∀ s ∈ l, '/' ∉ s.toList)
    (hm : ∀ s ∈ m, '/' ∉ s.toList)
    (h : (l.flatMap fun s => '/' :: s.toList) = m.flatMap fun s => '/' :: s.toList) : l = m := by
  -- up to the next slash stands one segment, on either side
  have front : ∀ (s : String) (r : List String), '/' ∉ s.toList →
      (s.toList ++ r.flatMap fun s => '/' :: s.toList).takeWhile (· != '/') = s.toList := by
    intro s r hs
    have hall : ∀ c ∈ s.toList, (c != '/') = true := by
      intro c hc
      have hne : c ≠ '/' := fun h => hs (h ▸ hc)
      simpa using hne
    rw [List.takeWhile_append_of_pos hall]
    cases r with
    | nil => simp
    | cons t r => simp
  -- segment by segment from the front
  induction l generalizing m with
  | nil =>
    cases m with
    | nil => rfl
    | cons t m => simp at h
  | cons s l ih =>
    cases m with
    | nil => simp at h
    | cons t m =>
      simp only [List.flatMap_cons, List.cons_append, List.cons.injEq, true_and] at h
      have hs := front s l (hl s List.mem_cons_self)
      have ht := front t m (hm t List.mem_cons_self)
      have hst : s.toList = t.toList := by rw [← hs, h, ht]
      rw [hst, List.append_cancel_left_eq] at h
      have hrest := ih (fun s hs => hl s (List.mem_cons_of_mem _ hs))
        (fun s hs => hm s (List.mem_cons_of_mem _ hs)) h
      rw [String.toList_inj.1 hst, hrest]

/-- A uri is told by its text. -/
theorem text_injective {u v : CollectionUri} (h : u.text = v.text) : u = v := by
  have hlist : u.text.toList = v.text.toList := by rw [h]
  rw [toList_text, toList_text, List.append_cancel_left_eq] at hlist
  apply ext_segments
  exact segments_eq_of_flatMap (fun s hs => (u.valid s hs).2.1)
    (fun s hs => (v.valid s hs).2.1) hlist

/-- The root alone has no parent. -/
theorem parent?_eq_none {u : CollectionUri} : u.parent? = none ↔ u = root := by
  constructor
  · intro h
    apply ext_segments
    unfold parent? at h
    split at h
    · next hnil => simpa [root] using hnil
    · simp at h
  · intro h
    rw [h, parent?_root]

/-- A lineage is a uri followed by the lineage of its parent. -/
theorem lineage_eq (u : CollectionUri) :
    u.lineage = u :: (u.parent?.map lineage).getD [] := by
  unfold lineage
  rw [ancestors]
  split
  · next h => simp [h]
  · next p h => simp [h]

/-- Induction along the chain of parents. -/
theorem ind {motive : CollectionUri → Prop}
    (step : ∀ u, (∀ p, u.parent? = some p → motive p) → motive u) (u : CollectionUri) :
    motive u := by
  induction hn : u.segments.length using Nat.strongRecOn generalizing u with
  | ind n ih =>
    apply step
    intro p hp
    have hlt := segments_length_parent hp
    exact ih p.segments.length (by omega) p (by omega)

end DocBase.CollectionUri
