import TreeMetrics.Proofs.Document.Preorder

namespace TreeMetrics

open Document

variable {α : Type} {doc : Document α} {n p first length : Nat}

theorem Document.length_children_lt (hfit : doc.size < UInt64.size) (n : NodeId) :
    (doc.children n).length < UInt64.size :=
  Nat.lt_of_le_of_lt (length_children_le doc n) hfit

namespace Walk

theorem checkedAdd_of_lt (h : first + length < UInt64.size) :
    checkedAdd first length = some (first + length) :=
  if_pos h

theorem checkedAdd_filter_eq_none {count : Nat} (h : count < first + length) :
    (checkedAdd first length).filter (· ≤ count) = none := by
  rw [checkedAdd]
  split
  · exact Option.filter_some_neg (by simpa using h)
  · rfl

theorem ofSlice_of_lt (h : (doc.children n).length < first + length) :
    ∃ e, ofSlice doc n first length = .error e := by
  by_cases hfirst : (doc.children n).length < first
  · exact ⟨_, if_pos hfirst⟩
  · refine ⟨.badLength first length (doc.children n).length, (if_neg hfirst).trans ?_⟩
    rw [checkedAdd_filter_eq_none h]

/-- The end of a slice within the children is a number of 64 bits, so its sum does not overflow. -/
theorem ofSlice_of_le (hfit : doc.size < UInt64.size)
    (h : first + length ≤ (doc.children n).length) :
    ofSlice doc n first length = .ok (slice doc n first length) := by
  have hfirst : ¬(doc.children n).length < first := by omega
  have hsum := checkedAdd_of_lt (Nat.lt_of_le_of_lt h (length_children_lt hfit n))
  have hfilter : (checkedAdd first length).filter (· ≤ (doc.children n).length) =
      some (first + length) := by
    rw [hsum]
    exact Option.filter_some_pos (decide_eq_true h)
  refine (if_neg hfirst).trans ?_
  rw [hfilter]

/-- A slice is refused just if its end lies beyond the last child. -/
theorem ofSlice_error_iff (hfit : doc.size < UInt64.size) :
    (∃ e, ofSlice doc n first length = .error e) ↔ (doc.children n).length < first + length := by
  constructor
  · rintro ⟨e, he⟩
    apply Nat.lt_of_not_le
    intro hle
    rw [ofSlice_of_le hfit hle] at he
    cases he
  · exact ofSlice_of_lt

theorem slice_produces (h : first + length ≤ (doc.children n).length) :
    (slice doc n first length).Produces doc (((doc.children n).drop first).take length) :=
  produces_iff.2 (Stream.walked_slice h).symm

/-- The representation of a slice depends on its length. -/
theorem variant_slice (h : first + length ≤ (doc.children n).length) :
    (slice doc n first length).variant =
      if length = 0 then "Empty" else if length = 1 then "Single" else "Children" := by
  rw [slice, dif_pos h]
  split
  · rfl
  split <;> rfl

/-- A slice within the children is made of the children in the places from `first` on. -/
theorem ofSlice_produces (hfit : doc.size < UInt64.size)
    (h : first + length ≤ (doc.children n).length) :
    ∃ w ns, ofSlice doc n first length = .ok w ∧ w.Produces doc ns ∧
      w.variant = (if length = 0 then "Empty" else if length = 1 then "Single" else "Children") ∧
      ns.length = length ∧
      ∀ i < length, ∃ c, doc.child n (first + i) = .ok c ∧ ns[i]? = some c := by
  refine ⟨_, _, ofSlice_of_le hfit h, slice_produces h, variant_slice h, ?_, ?_⟩
  · rw [List.length_take, List.length_drop]
    omega
  · intro i hi
    have hplace : first + i < (doc.children n).length := by omega
    obtain ⟨c, hc⟩ := exists_child? hplace
    refine ⟨c, child_of_child? hc, ?_⟩
    rw [List.getElem?_take_of_lt hi, List.getElem?_drop]
    exact hc

end Walk

namespace Document

/-- The siblings behind a node are the slice from the place behind its own to the end. An only child
is at that end. -/
theorem ofFollowingSiblings_eq (h : doc.parent? n = some p) :
    Walk.ofFollowingSiblings doc n =
      .slice doc p (doc.index n + 1) ((doc.children p).length - (doc.index n + 1)) := by
  have hlt := index_lt h
  simp only [Walk.ofFollowingSiblings, h]
  split
  · rfl
  · have hzero : (doc.children p).length - (doc.index n + 1) = 0 := by omega
    rw [hzero, Walk.slice, dif_pos (by omega)]
    rfl

/-- The siblings in front of a node are the slice of as many children as its place says. -/
theorem ofPrecedingSiblings_eq (h : doc.parent? n = some p) :
    Walk.ofPrecedingSiblings doc n = .slice doc p 0 (doc.index n) := by
  have hlt := index_lt h
  simp only [Walk.ofPrecedingSiblings, h]
  split
  · rfl
  · have hzero : doc.index n = 0 := by omega
    rw [hzero, Walk.slice, dif_pos (Nat.zero_le _)]
    rfl

theorem ofFollowingSiblings_produces (h : doc.parent? n = some p) :
    (Walk.ofFollowingSiblings doc n).Produces doc ((doc.children p).drop (doc.index n + 1)) :=
  Walk.produces_iff.2 (Stream.walked_ofFollowingSiblings h).symm

theorem ofPrecedingSiblings_produces (h : doc.parent? n = some p) :
    (Walk.ofPrecedingSiblings doc n).Produces doc ((doc.children p).take (doc.index n)) :=
  Walk.produces_iff.2 (Stream.walked_ofPrecedingSiblings h).symm

/-- The siblings on both sides of a node are the other children of its parent. -/
theorem take_append_drop_siblings (h : doc.parent? n = some p) :
    (doc.children p).take (doc.index n) ++ n :: (doc.children p).drop (doc.index n + 1) =
      doc.children p := by
  have hdrop : (doc.children p).drop (doc.index n) =
      n :: (doc.children p).drop (doc.index n + 1) := by
    obtain ⟨hlt, hn⟩ := List.getElem?_eq_some_iff.1 (child?_index h)
    rw [List.drop_eq_getElem_cons hlt, hn]
  rw [← hdrop, List.take_append_drop]

/-- Where the nodes can be numbered by 64 bits, a slice of children is refused just if it ends
beyond the last child, whatever the numbers asked for, and else produces the children in the given
places; the siblings of a node are slices that are not refused. The place of a node lies before the
end of the children of its parent, which are the siblings on both sides with the node between. -/
theorem slices_exact (doc : Document α) (n : NodeId) (hn : n < doc.size) :
    (doc.size < UInt64.size → ∀ first length,
      ((∃ e, Walk.ofSlice doc n first length = .error e) ↔
        (doc.children n).length < first + length) ∧
      (first + length ≤ (doc.children n).length →
        ∃ w ns, Walk.ofSlice doc n first length = .ok w ∧ w.Produces doc ns ∧
          w.variant =
            (if length = 0 then "Empty" else if length = 1 then "Single" else "Children") ∧
          ns.length = length ∧
          ∀ i < length, ∃ c, doc.child n (first + i) = .ok c ∧ ns[i]? = some c)) ∧
    (n ≠ root → ∃ p, doc.parent? n = some p ∧
      doc.index n + 1 ≤ (doc.children p).length ∧
      (doc.size < UInt64.size →
        Walk.ofSlice doc p (doc.index n + 1) ((doc.children p).length - (doc.index n + 1)) =
          .ok (.ofFollowingSiblings doc n) ∧
        Walk.ofSlice doc p 0 (doc.index n) = .ok (.ofPrecedingSiblings doc n)) ∧
      ∃ before behind, (Walk.ofPrecedingSiblings doc n).Produces doc before ∧
        (Walk.ofFollowingSiblings doc n).Produces doc behind ∧
        before ++ n :: behind = doc.children p) ∧
    (n = root → (Walk.ofPrecedingSiblings doc n).Produces doc [] ∧
      (Walk.ofFollowingSiblings doc n).Produces doc []) := by
  refine ⟨fun hfit first length => ?_, ?_, ?_⟩
  · exact ⟨Walk.ofSlice_error_iff hfit, Walk.ofSlice_produces hfit⟩
  · intro hroot
    obtain ⟨p, hp, -⟩ := exists_parent hn hroot
    have hlt := index_lt hp
    refine ⟨p, hp, hlt, fun hfit => ⟨?_, ?_⟩, _, _, ofPrecedingSiblings_produces hp,
      ofFollowingSiblings_produces hp, take_append_drop_siblings hp⟩
    · rw [ofFollowingSiblings_eq hp]
      exact Walk.ofSlice_of_le hfit (by omega)
    · rw [ofPrecedingSiblings_eq hp]
      exact Walk.ofSlice_of_le hfit (by omega)
  · intro hroot
    have hp := (parent?_eq_none_iff hn).2 hroot
    rw [Walk.ofPrecedingSiblings, Walk.ofFollowingSiblings, hp]
    exact ⟨.done rfl, .done rfl⟩

/-- The node 3 of the fork stands between the nodes 1 and 8. -/
theorem slices_exact_fork :
    (ofTree fork).size < UInt64.size ∧ 3 < (ofTree fork).size ∧ (3 : NodeId) ≠ root ∧
    (∃ e, Walk.ofSlice (ofTree fork) 3 1 (UInt64.size - 1) = .error e) ∧
    (∃ w ns, Walk.ofSlice (ofTree fork) 3 1 1 = .ok w ∧ w.Produces (ofTree fork) ns ∧
      w.variant = "Single" ∧ ns.length = 1) ∧
    ∃ before behind, (Walk.ofPrecedingSiblings (ofTree fork) 3).Produces (ofTree fork) before ∧
      (Walk.ofFollowingSiblings (ofTree fork) 3).Produces (ofTree fork) behind ∧
      before ++ 3 :: behind = [1, 3, 8] := by
  obtain ⟨hslice, hsiblings, -⟩ := slices_exact (ofTree fork) 3 (by decide)
  have hslice := hslice (by decide)
  obtain ⟨p, hp, -, -, before, behind, hbefore, hbehind, hall⟩ := hsiblings (by decide)
  obtain ⟨w, ns, hw, hns, hvariant, hlength, -⟩ := (hslice 1 1).2 (by decide)
  cases (show (ofTree fork).parent? 3 = some 0 from rfl).symm.trans hp
  exact ⟨by decide, by decide, by decide, (hslice 1 (UInt64.size - 1)).1.2 (by decide),
    ⟨w, ns, hw, hns, hvariant, hlength⟩, before, behind, hbefore, hbehind, hall⟩

end Document

end TreeMetrics
