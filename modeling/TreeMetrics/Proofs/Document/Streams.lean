import TreeMetrics.Document.Stream
import TreeMetrics.Proofs.Document.Placement

namespace TreeMetrics

open TreeMetrics.Tree Document

variable {α : Type} {doc : Document α} {n p k : Nat} {w w' : Walk doc}

namespace Document

theorem subtreeSizes_cons (n : NodeId) (ns : List NodeId) :
    doc.subtreeSizes (n :: ns) = doc.subtreeSize n + doc.subtreeSizes ns := rfl

theorem subtreeSizes_append (ns ms : List NodeId) :
    doc.subtreeSizes (ns ++ ms) = doc.subtreeSizes ns + doc.subtreeSizes ms := by
  induction ns with
  | nil => exact (Nat.zero_add _).symm
  | cons n ns ih => rw [List.cons_append, subtreeSizes_cons, ih, subtreeSizes_cons, Nat.add_assoc]

theorem subtreeSizes_reverse (ns : List NodeId) :
    doc.subtreeSizes ns.reverse = doc.subtreeSizes ns := by
  induction ns with
  | nil => rfl
  | cons n ns ih =>
    rw [List.reverse_cons, subtreeSizes_append, ih, subtreeSizes_cons, Nat.add_comm]
    rfl

theorem Stands.subtreeSizeWithin {t : Tree α} {parent : Option NodeId} {index d : Nat}
    (h : doc.Stands n t parent index) (hd : t.size ≤ d) : doc.subtreeSizeWithin d n = t.size := by
  induction d generalizing n t parent index with
  | zero => exact absurd hd (Nat.not_le_of_lt t.size_pos)
  | succ d ih =>
    obtain ⟨a, ts⟩ := t
    rw [Tree.size] at hd
    have hsum {cs : List NodeId} {us : List (Tree α)} (hus : sizeAll us ≤ d)
        (hcs : List.Forall₂ (fun c u => ∃ i, doc.Stands c u (some n) i) cs us) :
        cs.foldr (fun c k => doc.subtreeSizeWithin d c + k) 0 = sizeAll us := by
      induction hcs with
      | nil => rfl
      | cons hc _ ihcs =>
        obtain ⟨i, hc⟩ := hc
        rw [sizeAll] at hus
        rw [List.foldr_cons, ih hc (by omega), ihcs (by omega), sizeAll]
    rw [Document.subtreeSizeWithin, hsum (Nat.le_of_succ_le_succ hd) h.forall₂_children, Tree.size]

theorem Stands.subtreeSize {t : Tree α} {parent : Option NodeId} {index : Nat}
    (h : doc.Stands n t parent index) : doc.subtreeSize n = t.size :=
  h.subtreeSizeWithin h.size_le

theorem subtreeSize_of_le (h : doc.size ≤ n) : doc.subtreeSize n = 1 := by
  rw [subtreeSize]
  cases doc.size with
  | zero => rfl
  | succ d => rw [subtreeSizeWithin, children_of_le h]; rfl

theorem subtreeSizes_of_forall₂ {ns : List NodeId} {ts : List (Tree α)}
    (h : List.Forall₂ (fun c u => ∃ i, doc.Stands c u (some n) i) ns ts) :
    doc.subtreeSizes ns = sizeAll ts := by
  induction h with
  | nil => rfl
  | cons hc _ ih =>
    obtain ⟨i, hc⟩ := hc
    rw [subtreeSizes_cons, ih, hc.subtreeSize, sizeAll]

theorem subtreeSizes_children (doc : Document α) (n : Nat) :
    doc.subtreeSizes (doc.children n) + 1 = doc.subtreeSize n := by
  by_cases hn : n < doc.size
  · obtain ⟨⟨a, ts⟩, parent, index, h⟩ := exists_stands hn
    rw [subtreeSizes_of_forall₂ h.forall₂_children, h.subtreeSize]
    rfl
  · have hn := Nat.le_of_not_lt hn
    rw [children_of_le hn, subtreeSize_of_le hn]
    rfl

theorem subtreeSize_le (doc : Document α) (n : Nat) : doc.subtreeSize n ≤ doc.size + 1 := by
  by_cases hn : n < doc.size
  · obtain ⟨t, parent, index, h⟩ := exists_stands hn
    have hl := h.add_size_le
    rw [h.subtreeSize]
    omega
  · rw [subtreeSize_of_le (Nat.le_of_not_lt hn)]
    exact Nat.le_add_left 1 doc.size

theorem length_le_subtreeSizes (ns : List NodeId) : ns.length ≤ doc.subtreeSizes ns := by
  induction ns with
  | nil => exact Nat.le_refl 0
  | cons n ns ih =>
    have hn := subtreeSizes_children doc n
    rw [List.length_cons, subtreeSizes_cons]
    omega

theorem length_children_le (doc : Document α) (n : Nat) : (doc.children n).length ≤ doc.size := by
  have hl : (doc.children n).length ≤ doc.subtreeSizes (doc.children n) := length_le_subtreeSizes _
  have hc := subtreeSizes_children doc n
  have hs := subtreeSize_le doc n
  omega

theorem parent?_lt (h : doc.parent? n = some p) : p < n ∧ n < doc.size := by
  have hn : n < doc.size := by
    apply Nat.lt_of_not_le
    intro hn
    rw [parent?, entry?_of_le hn] at h
    cases h
  refine ⟨?_, hn⟩
  obtain ⟨t, parent, index, hs⟩ := exists_stands hn
  rw [hs.parent?] at h
  cases hs with
  | root => cases h
  | child _ =>
    cases h
    omega

/-- A node stands in its place among the children of its parent. -/
theorem child?_index (h : doc.parent? n = some p) : doc.child? p (doc.index n) = some n := by
  obtain ⟨t, parent, index, hs⟩ := exists_stands (parent?_lt h).2
  rw [hs.parent?] at h
  rw [hs.index_eq]
  cases hs with
  | root => cases h
  | @child _ a us _ vs _ _ hp =>
    cases h
    rw [child?, hp.children]
    exact getElem?_siblingIds.2 ⟨us, t, vs, rfl, rfl, rfl⟩

theorem index_lt (h : doc.parent? n = some p) : doc.index n < (doc.children p).length :=
  (List.getElem?_eq_some_iff.1 (child?_index h)).1

theorem exists_child? {i : Nat} (h : i < (doc.children n).length) :
    ∃ c, doc.child? n i = some c :=
  ⟨_, List.getElem?_eq_getElem h⟩

end Document

namespace Walk

variable {i stop first length : Nat}

/-- A walk over siblings finds a child in each of its places. -/
theorem next_siblings {h : stop ≤ (doc.children p).length} (hi : i < stop) :
    ∃ c, doc.child? p i = some c ∧
      (siblings p i stop h).next doc = some (c, siblings p (i + 1) stop h) := by
  obtain ⟨c, hc⟩ := exists_child? (Nat.lt_of_lt_of_le hi h)
  refine ⟨c, hc, ?_⟩
  rw [next, if_pos hi, hc]
  rfl

theorem next_siblings_of_le {h : stop ≤ (doc.children p).length} (hi : stop ≤ i) :
    (siblings p i stop h).next doc = none := by
  rw [next, if_neg (Nat.not_lt_of_le hi)]

end Walk

namespace Stream

theorem walkBound_descendants (ns : List NodeId) :
    walkBound doc (.descendants ns) = doc.subtreeSizes ns := rfl

theorem walkBound_next (h : w.next doc = some (n, w')) :
    walkBound doc w' < walkBound doc w := by
  cases w with
  | empty => cases h
  | single m =>
    cases m with
    | none => cases h
    | some m =>
      cases h
      exact Nat.zero_lt_one
  | siblings p i stop hstop =>
    by_cases hi : i < stop
    · obtain ⟨c, -, hnext⟩ := Walk.next_siblings (h := hstop) hi
      rw [hnext] at h
      cases h
      show stop - (i + 1) < stop - i
      omega
    · rw [Walk.next_siblings_of_le (Nat.le_of_not_lt hi)] at h
      cases h
  | descendants ns =>
    cases ns with
    | nil => cases h
    | cons m ns =>
      cases h
      have hc := subtreeSizes_children doc n
      rw [walkBound_descendants, walkBound_descendants, subtreeSizes_append, subtreeSizes_cons]
      omega
  | ancestors m =>
    cases m with
    | none => cases h
    | some m =>
      cases h
      cases hp : doc.parent? n with
      | none => exact Nat.succ_pos n
      | some p => exact Nat.succ_lt_succ (parent?_lt hp).1

theorem walkBound_slice (doc : Document α) (n first length : Nat) :
    walkBound doc (.slice doc n first length) ≤ doc.size + 1 := by
  have hl := length_children_le doc n
  rw [Walk.slice]
  split
  · split
    · exact Nat.zero_le _
    split
    · cases doc.child? n first with
      | none => exact Nat.zero_le _
      | some c => exact Nat.le_add_left 1 _
    · rw [walkBound]
      omega
  · exact Nat.zero_le _

theorem walkBound_ofAncestorsOrSelf (doc : Document α) (n : Nat) :
    walkBound doc (.ofAncestorsOrSelf doc (some n)) ≤ doc.size + 1 := by
  cases hp : doc.parent? n with
  | none =>
    rw [Walk.ofAncestorsOrSelf, isRoot, hp]
    exact Nat.le_add_left 1 _
  | some p =>
    rw [Walk.ofAncestorsOrSelf, isRoot, hp]
    exact Nat.succ_le_succ (Nat.le_of_lt (parent?_lt hp).2)

theorem walkBound_axis (doc : Document α) (n : Nat) (axis : Axis) :
    walkBound doc (axis.walk doc n) ≤ doc.size + 1 := by
  have hl := length_children_le doc
  have hs := subtreeSize_le doc n
  cases axis with
  | child =>
    show walkBound doc (.ofChildren doc n) ≤ _
    rw [Walk.ofChildren]
    split
    · exact Nat.zero_le _
    · exact Nat.le_succ_of_le (hl n)
  | descendant =>
    show walkBound doc (.ofDescendants doc n) ≤ _
    rw [Walk.ofDescendants]
    split
    · exact Nat.zero_le _
    · have hc := subtreeSizes_children doc n
      rw [walkBound_descendants]
      omega
  | descendantOrSelf =>
    show walkBound doc (.ofDescendantsOrSelf doc n) ≤ _
    rw [Walk.ofDescendantsOrSelf]
    split
    · exact Nat.le_add_left 1 _
    · exact hs
  | ancestor =>
    show walkBound doc (.ofAncestorsOrSelf doc (doc.parent? n)) ≤ _
    cases hp : doc.parent? n with
    | none => exact Nat.zero_le _
    | some p => exact walkBound_ofAncestorsOrSelf doc p
  | ancestorOrSelf => exact walkBound_ofAncestorsOrSelf doc n
  | followingSibling =>
    show walkBound doc (.ofFollowingSiblings doc n) ≤ _
    rw [Walk.ofFollowingSiblings]
    split
    · exact Nat.zero_le _
    · dsimp only
      split
      · exact walkBound_slice doc _ _ _
      · exact Nat.zero_le _
  | precedingSibling =>
    show walkBound doc (.ofPrecedingSiblings doc n) ≤ _
    rw [Walk.ofPrecedingSiblings]
    split
    · exact Nat.zero_le _
    · split
      · exact walkBound_slice doc _ _ _
      · exact Nat.zero_le _
  | self => exact Nat.le_add_left 1 _
  | parent =>
    show walkBound doc (.ofParent doc n) ≤ _
    rw [Walk.ofParent]
    split
    · exact Nat.zero_le _
    · exact Nat.le_add_left 1 _

variable {s s' : Stream doc} {o : Option NodeId}

/-- Every step brings a stream nearer to its end. -/
theorem bound_step? (h : s.step? doc = some (o, s')) : bound doc s' < bound doc s := by
  induction s generalizing o s' with
  | walk w =>
    rw [step?] at h
    cases hw : w.next doc with
    | none =>
      rw [hw] at h
      cases h
    | some r =>
      rw [hw] at h
      cases h
      exact walkBound_next hw
  | sifted w f =>
    rw [step?] at h
    cases hw : w.next doc with
    | none =>
      rw [hw] at h
      cases h
    | some r =>
      rw [hw] at h
      cases h
      exact walkBound_next hw
  | filtered s f ih =>
    rw [step?] at h
    cases hs : s.step? doc with
    | none =>
      rw [hs] at h
      cases h
    | some r =>
      obtain ⟨r, s'⟩ := r
      rw [hs] at h
      cases h
      rw [bound, bound]
      exact ih hs
  | along s w axis ih =>
    rw [step?] at h
    cases hw : w.next doc with
    | some r =>
      rw [hw] at h
      cases h
      exact Nat.add_lt_add_right (walkBound_next hw) _
    | none =>
      rw [hw] at h
      -- a node of the source pays for the whole walk from it
      have hpay (r : Option NodeId) (s' : Stream doc) (w' : Walk doc)
          (hs : s.step? doc = some (r, s'))
          (hw' : walkBound doc w' ≤ doc.size + 1) :
          bound doc (along s' w' axis) < bound doc (along s w axis) := by
        have hb : (bound doc s' + 1) * (doc.size + 2) ≤ bound doc s * (doc.size + 2) :=
          Nat.mul_le_mul_right _ (ih hs)
        rw [Nat.succ_mul] at hb
        rw [bound, bound]
        omega
      cases hs : s.step? doc with
      | none =>
        rw [hs] at h
        cases h
      | some r =>
        obtain ⟨r, s'⟩ := r
        rw [hs] at h
        cases r with
        | none =>
          cases h
          exact hpay none s' _ hs (Nat.zero_le _)
        | some n =>
          cases h
          exact hpay (some n) s' _ hs (walkBound_axis doc n axis)
  | pending s t _ _ =>
    cases h
    exact Nat.lt_succ_self _
  | append s t ihs iht =>
    rw [step?] at h
    cases hs : s.step? doc with
    | none =>
      rw [hs] at h
      exact Nat.lt_of_lt_of_le (iht h) (Nat.le_add_left _ _)
    | some r =>
      rw [hs] at h
      cases h
      exact Nat.add_lt_add_right (ihs hs) _

theorem toListWithin_of_le {j k : Nat} (hj : bound doc s ≤ j) (hk : bound doc s ≤ k) :
    toListWithin doc j s = toListWithin doc k s := by
  induction j generalizing k s with
  | zero =>
    cases k with
    | zero => rfl
    | succ k =>
      cases hs : s.step? doc with
      | none =>
        rw [toListWithin, toListWithin, hs]
      | some r => exact absurd (bound_step? hs) (by omega)
  | succ j ih =>
    cases hs : s.step? doc with
    | none =>
      cases k with
      | zero => rw [toListWithin, toListWithin, hs]
      | succ k => rw [toListWithin, toListWithin, hs]
    | some r =>
      have hb := bound_step? hs
      cases k with
      | zero => omega
      | succ k =>
        rw [toListWithin, toListWithin, hs]
        show r.1.toList ++ _ = r.1.toList ++ _
        rw [ih (s := r.2) (k := k) (by omega) (by omega)]

theorem toList_of_none (h : s.step? doc = none) : s.toList doc = [] := by
  rw [toList]
  cases bound doc s with
  | zero => rfl
  | succ k => rw [toListWithin, h]

theorem toList_of_some (h : s.step? doc = some (o, s')) :
    s.toList doc = o.toList ++ s'.toList doc := by
  have hb := bound_step? h
  rw [toList, toListWithin_of_le (Nat.le_refl _) (Nat.le_succ (bound doc s)),
    toListWithin, h, toList]
  show o.toList ++ _ = _
  rw [toListWithin_of_le (Nat.le_of_lt hb) (Nat.le_refl _)]

/-- What a walk produces. -/
abbrev walked (doc : Document α) (w : Walk doc) : List NodeId := (walk w).toList doc

theorem walked_of_none (h : w.next doc = none) : walked doc w = [] := by
  apply toList_of_none
  rw [step?, h]

theorem walked_of_some (h : w.next doc = some (n, w')) : walked doc w = n :: walked doc w' := by
  apply toList_of_some (o := some n)
  rw [step?, h]

/-- Along an axis come the rest of the current walk and the walks from the nodes of the source. -/
theorem toList_along (s : Stream doc) (w : Walk doc) (axis : Axis) :
    (along s w axis).toList doc =
      walked doc w ++ (s.toList doc).flatMap fun n => walked doc (axis.walk doc n) := by
  generalize hb : bound doc (along s w axis) = b
  induction b using Nat.strongRecOn generalizing s w with
  | ind b ih =>
    cases hw : w.next doc with
    | some r =>
      obtain ⟨n, w'⟩ := r
      have hstep : (along s w axis).step? doc = some (some n, along s w' axis) := by
        rw [step?, hw]
      rw [toList_of_some hstep, walked_of_some hw, ih _ (hb ▸ bound_step? hstep) _ _ rfl]
      rfl
    | none =>
      rw [walked_of_none hw, List.nil_append]
      cases hs : s.step? doc with
      | none =>
        have hstep : (along s w axis).step? doc = none := by
          rw [step?, hw, hs]
        rw [toList_of_none hstep, toList_of_none hs, List.flatMap_nil]
      | some r =>
        obtain ⟨r, s'⟩ := r
        cases r with
        | none =>
          have hstep : (along s w axis).step? doc = some (none, along s' .empty axis) := by
            rw [step?, hw, hs]
          rw [toList_of_some hstep, toList_of_some hs, ih _ (hb ▸ bound_step? hstep) _ _ rfl,
            walked_of_none rfl]
          rfl
        | some n =>
          have hstep : (along s w axis).step? doc =
              some (none, along s' (axis.walk doc n) axis) := by
            rw [step?, hw, hs]
          rw [toList_of_some hstep, toList_of_some hs, ih _ (hb ▸ bound_step? hstep) _ _ rfl]
          rfl

theorem toList_follow (s : Stream doc) (axis : Axis) :
    (s.follow axis).toList doc =
      (s.toList doc).flatMap fun n => walked doc (axis.walk doc n) := by
  rw [follow, toList_along, walked_of_none rfl, List.nil_append]

end Stream

end TreeMetrics
