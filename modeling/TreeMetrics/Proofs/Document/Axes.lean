import TreeMetrics.Proofs.Document.Streams

namespace TreeMetrics

open TreeMetrics.Tree

variable {α : Type} {doc : Document α} {n m p index : Nat} {parent : Option NodeId} {t : Tree α}

theorem Tree.take_siblingIds (id : Nat) (us vs : List (Tree α)) :
    (siblingIds id (us ++ vs)).take us.length = siblingIds id us := by
  rw [siblingIds_append, List.take_left' (length_siblingIds id us)]

theorem Tree.drop_siblingIds (id : Nat) (us : List (Tree α)) (u : Tree α) (vs : List (Tree α)) :
    (siblingIds id (us ++ u :: vs)).drop (us.length + 1) =
      siblingIds (id + sizeAll us + u.size) vs := by
  have hl : (siblingIds id (us ++ [u])).length = us.length + 1 := by
    rw [length_siblingIds, List.length_append, List.length_singleton]
  rw [List.append_cons, siblingIds_append, List.drop_left' hl, sizeAll_concat, Nat.add_assoc]

namespace Document

def ancestors (doc : Document α) (n : NodeId) : List NodeId :=
  (Stream.walk (Axis.ancestor.walk doc n)).toList doc

def descendants (doc : Document α) (n : NodeId) : List NodeId :=
  (Stream.walk (Axis.descendant.walk doc n)).toList doc

/-- The subtrees at the siblings before a node and before each of those above it. -/
def preceding (doc : Document α) (n : NodeId) : List NodeId :=
  (((Stream.walk (Axis.ancestorOrSelf.walk doc n)).follow .precedingSibling).follow
    .descendantOrSelf).toList doc

/-- The subtrees at the siblings behind a node and behind each of those above it. -/
def following (doc : Document α) (n : NodeId) : List NodeId :=
  (((Stream.walk (Axis.ancestorOrSelf.walk doc n)).follow .followingSibling).follow
    .descendantOrSelf).toList doc

/-- The numbers that the subtree at a node takes up. -/
def interval (doc : Document α) (n : NodeId) : List NodeId := List.range' n (doc.subtreeSize n)

end Document

namespace Stream

open Document

theorem walked_siblings {i stop : Nat} (h : stop ≤ (doc.children p).length) :
    walked doc (.siblings p i stop h) = ((doc.children p).take stop).drop i := by
  generalize hk : stop - i = k
  induction k generalizing i with
  | zero =>
    rw [walked_of_none (Walk.next_siblings_of_le (by omega)), List.drop_eq_nil_of_le]
    rw [List.length_take]
    omega
  | succ k ih =>
    have hi : i < stop := by omega
    obtain ⟨c, hc, hnext⟩ := Walk.next_siblings (h := h) hi
    have hget : ((doc.children p).take stop)[i]? = some c := by
      rw [List.getElem?_take_of_lt hi]
      exact hc
    obtain ⟨hlt, hget⟩ := List.getElem?_eq_some_iff.1 hget
    rw [walked_of_some hnext, ih (by omega), List.drop_eq_getElem_cons hlt, hget]

theorem walked_single (n : Nat) : walked doc (.single (some n)) = [n] := by
  rw [walked_of_some rfl, walked_of_none rfl]

theorem walked_slice {first length : Nat} (h : first + length ≤ (doc.children p).length) :
    walked doc (.slice doc p first length) = ((doc.children p).drop first).take length := by
  rw [Walk.slice, dif_pos h]
  split
  · subst length
    exact walked_of_none rfl
  split
  · subst length
    obtain ⟨c, hc⟩ := exists_child? (Nat.lt_of_succ_le h)
    obtain ⟨hlt, hget⟩ := List.getElem?_eq_some_iff.1 hc
    rw [hc, walked_single, List.drop_eq_getElem_cons hlt, hget]
    rfl
  · rw [walked_siblings, List.drop_take, Nat.add_sub_cancel_left]

theorem walked_ofFollowingSiblings (h : doc.parent? n = some p) :
    walked doc (.ofFollowingSiblings doc n) = (doc.children p).drop (doc.index n + 1) := by
  have hlt := index_lt h
  simp only [Walk.ofFollowingSiblings, h]
  split
  · rw [walked_slice (by omega), ← List.length_drop, List.take_length]
  · rw [walked_of_none rfl, List.drop_eq_nil_of_le (by omega)]

theorem walked_ofPrecedingSiblings (h : doc.parent? n = some p) :
    walked doc (.ofPrecedingSiblings doc n) = (doc.children p).take (doc.index n) := by
  have hlt := index_lt h
  simp only [Walk.ofPrecedingSiblings, h]
  split
  · rw [walked_slice (by omega), List.drop_zero]
  · have hzero : doc.index n = 0 := by omega
    rw [walked_of_none rfl, hzero, List.take_zero]

theorem walked_ofAncestorsOrSelf (n : Option NodeId) :
    walked doc (.ofAncestorsOrSelf doc n) = walked doc (.ancestors n) := by
  cases n with
  | none => exact (walked_of_none rfl).trans (walked_of_none rfl).symm
  | some n =>
    rw [Walk.ofAncestorsOrSelf, isRoot]
    cases hp : doc.parent? n with
    | none =>
      have hn : (Walk.ancestors (some n)).next doc = some (n, .ancestors none) := by
        rw [Walk.next, hp]
      have hnone : walked doc (.ancestors none) = [] := walked_of_none rfl
      rw [walked_of_some hn, hnone]
      exact walked_single n
    | some p => rfl

theorem walked_ancestorOrSelf (doc : Document α) (n : Nat) :
    walked doc (Axis.ancestorOrSelf.walk doc n) = n :: doc.ancestors n := by
  have ha : doc.ancestors n = walked doc (.ancestors (doc.parent? n)) :=
    walked_ofAncestorsOrSelf (doc.parent? n)
  have hs : walked doc (Axis.ancestorOrSelf.walk doc n) = walked doc (.ancestors (some n)) :=
    walked_ofAncestorsOrSelf (some n)
  rw [hs, ha, walked_of_some rfl]

/-- The subtrees at siblings that stand side by side take up the numbers without a gap. -/
theorem flatMap_interval_siblingIds {a : α} {us ts vs : List (Tree α)}
    (h : doc.Stands n (.node a (us ++ (ts ++ vs))) parent index) :
    (siblingIds (n + 1 + sizeAll us) ts).flatMap doc.interval =
      List.range' (n + 1 + sizeAll us) (sizeAll ts) := by
  induction ts generalizing us with
  | nil => rfl
  | cons t ts ih =>
    have ht : doc.Stands (n + 1 + sizeAll us) t (some n) us.length := .child h
    rw [List.cons_append, List.append_cons] at h
    have hts := ih h
    rw [sizeAll_concat, ← Nat.add_assoc] at hts
    rw [siblingIds, List.flatMap_cons, hts, interval, ht.subtreeSize, sizeAll,
      List.range'_append_1]

theorem flatMap_interval_elder {a : α} {us vs : List (Tree α)}
    (h : doc.Stands n (.node a (us ++ vs)) parent index) :
    (siblingIds (n + 1) us).flatMap doc.interval = List.range' (n + 1) (sizeAll us) := by
  have hus : doc.Stands n (.node a ([] ++ (us ++ vs))) parent index := h
  exact flatMap_interval_siblingIds hus

theorem flatMap_interval_younger {a : α} {us vs : List (Tree α)} {u : Tree α}
    (h : doc.Stands n (.node a (us ++ u :: vs)) parent index) :
    (siblingIds (n + 1 + sizeAll us + u.size) vs).flatMap doc.interval =
      List.range' (n + 1 + sizeAll us + u.size) (sizeAll vs) := by
  rw [List.append_cons, ← List.append_nil vs] at h
  have hvs := flatMap_interval_siblingIds h
  rwa [sizeAll_concat, ← Nat.add_assoc] at hvs

theorem flatMap_interval_children (doc : Document α) (n : Nat) :
    (doc.children n).flatMap doc.interval = List.range' (n + 1) (doc.subtreeSize n - 1) := by
  by_cases hn : n < doc.size
  · obtain ⟨⟨a, ts⟩, parent, index, h⟩ := exists_stands hn
    rw [h.children, h.subtreeSize]
    rw [← List.append_nil ts] at h
    exact flatMap_interval_elder h
  · have hn := Nat.le_of_not_lt hn
    rw [children_of_le hn, subtreeSize_of_le hn]
    rfl

theorem interval_eq (doc : Document α) (n : Nat) :
    doc.interval n = n :: (doc.children n).flatMap doc.interval := by
  have hs := subtreeSizes_children doc n
  rw [flatMap_interval_children, interval, ← hs]
  rfl

theorem walked_descendants (ns : List NodeId) :
    walked doc (.descendants ns) = ns.flatMap doc.interval := by
  generalize hb : walkBound doc (.descendants ns) = b
  induction b using Nat.strongRecOn generalizing ns with
  | ind b ih =>
    cases ns with
    | nil => exact walked_of_none rfl
    | cons n ns =>
      have hn : (Walk.descendants (n :: ns)).next doc =
        some (n, .descendants (doc.children n ++ ns)) := rfl
      rw [walked_of_some hn, ih _ (hb ▸ walkBound_next hn) _ rfl, List.flatMap_append,
        List.flatMap_cons, interval_eq doc n, List.cons_append]

theorem walked_descendantOrSelf (doc : Document α) (n : Nat) :
    walked doc (Axis.descendantOrSelf.walk doc n) = doc.interval n := by
  show walked doc (.ofDescendantsOrSelf doc n) = _
  rw [Walk.ofDescendantsOrSelf, isLeaf]
  cases hc : doc.children n with
  | nil =>
    rw [interval_eq, hc]
    exact walked_single n
  | cons c cs =>
    show walked doc (.descendants [n]) = _
    rw [walked_descendants, List.flatMap_singleton]

theorem descendants_eq (doc : Document α) (n : Nat) :
    doc.descendants n = List.range' (n + 1) (doc.subtreeSize n - 1) := by
  rw [← flatMap_interval_children]
  show walked doc (.ofDescendants doc n) = _
  rw [Walk.ofDescendants, isLeaf]
  cases hc : doc.children n with
  | nil => exact walked_of_none rfl
  | cons c cs => exact walked_descendants _

end Stream

namespace Document

theorem ancestors_of_parent? (h : doc.parent? n = some p) :
    doc.ancestors n = p :: doc.ancestors p := by
  rw [← Stream.walked_ancestorOrSelf]
  show Stream.walked doc (.ofAncestorsOrSelf doc (doc.parent? n)) = _
  rw [h]
  rfl

theorem ancestors_of_none (h : doc.parent? n = none) : doc.ancestors n = [] := by
  show Stream.walked doc (.ofAncestorsOrSelf doc (doc.parent? n)) = _
  rw [h]
  exact Stream.walked_of_none rfl

/-- What is met on the way from a node to the root, along an axis and then downwards. -/
theorem toList_sweep (axis : Axis) (n : Nat) :
    (((Stream.walk (Axis.ancestorOrSelf.walk doc n)).follow axis).follow
      .descendantOrSelf).toList doc =
      (n :: doc.ancestors n).flatMap fun m =>
        (Stream.walked doc (axis.walk doc m)).flatMap doc.interval := by
  rw [Stream.toList_follow, Stream.toList_follow, List.flatMap_assoc]
  have hs : (Stream.walk (Axis.ancestorOrSelf.walk doc n)).toList doc = n :: doc.ancestors n :=
    Stream.walked_ancestorOrSelf doc n
  rw [hs]
  simp only [Stream.walked_descendantOrSelf]

theorem preceding_of_parent? (h : doc.parent? n = some p) :
    doc.preceding n =
      ((doc.children p).take (doc.index n)).flatMap doc.interval ++ doc.preceding p := by
  have hw : Stream.walked doc (Axis.precedingSibling.walk doc n) =
      (doc.children p).take (doc.index n) := Stream.walked_ofPrecedingSiblings h
  rw [preceding, preceding, toList_sweep, toList_sweep, ancestors_of_parent? h,
    List.flatMap_cons, hw]

theorem following_of_parent? (h : doc.parent? n = some p) :
    doc.following n =
      ((doc.children p).drop (doc.index n + 1)).flatMap doc.interval ++ doc.following p := by
  have hw : Stream.walked doc (Axis.followingSibling.walk doc n) =
      (doc.children p).drop (doc.index n + 1) := Stream.walked_ofFollowingSiblings h
  rw [following, following, toList_sweep, toList_sweep, ancestors_of_parent? h,
    List.flatMap_cons, hw]

/-- Along siblings nothing is met from the root. -/
theorem sweep_of_none {axis : Axis} (h : doc.parent? n = none)
    (hw : Stream.walked doc (axis.walk doc n) = []) :
    (((Stream.walk (Axis.ancestorOrSelf.walk doc n)).follow axis).follow
      .descendantOrSelf).toList doc =
      [] := by
  rw [toList_sweep, ancestors_of_none h, List.flatMap_singleton, hw, List.flatMap_nil]

theorem preceding_of_none (h : doc.parent? n = none) : doc.preceding n = [] := by
  apply sweep_of_none h
  show Stream.walked doc (.ofPrecedingSiblings doc n) = _
  rw [Walk.ofPrecedingSiblings, h]
  exact Stream.walked_of_none rfl

theorem following_of_none (h : doc.parent? n = none) : doc.following n = [] := by
  apply sweep_of_none h
  show Stream.walked doc (.ofFollowingSiblings doc n) = _
  rw [Walk.ofFollowingSiblings, h]
  exact Stream.walked_of_none rfl

/-- Before a node come the nodes above it and the subtrees that precede it. -/
theorem Stands.preceding_perm (h : doc.Stands n t parent index) :
    (doc.preceding n ++ doc.ancestors n).Perm (List.range' 0 n) := by
  induction h with
  | root =>
    have hp : doc.parent? 0 = none := Stands.root.parent?
    rw [preceding_of_none hp, ancestors_of_none hp]
    exact .refl _
  | @child p a us u vs parent index h ih =>
    have hu : doc.Stands (p + 1 + sizeAll us) u (some p) us.length := .child h
    rw [preceding_of_parent? hu.parent?, ancestors_of_parent? hu.parent?, hu.index_eq, h.children,
      Tree.children, take_siblingIds, Stream.flatMap_interval_elder h]
    have hsplit : List.range' 0 (p + 1 + sizeAll us) =
        List.range' 0 p ++ p :: List.range' (p + 1) (sizeAll us) := by
      have hr : List.range' p (1 + sizeAll us) = p :: List.range' (p + 1) (sizeAll us) := by
        rw [Nat.add_comm, List.range'_succ]
      rw [← hr, Nat.add_assoc, ← List.range'_append_1, Nat.zero_add]
    rw [hsplit, List.append_assoc]
    calc List.range' (p + 1) (sizeAll us) ++ (doc.preceding p ++ p :: doc.ancestors p)
      _ |>.Perm (List.range' (p + 1) (sizeAll us) ++ p :: (doc.preceding p ++ doc.ancestors p)) :=
        List.perm_middle.append_left _
      _ |>.Perm (p :: (doc.preceding p ++ doc.ancestors p) ++ List.range' (p + 1) (sizeAll us)) :=
        List.perm_append_comm
      _ |>.Perm (p :: (List.range' 0 p ++ List.range' (p + 1) (sizeAll us))) :=
        (ih.append_right _).cons p
      _ |>.Perm (List.range' 0 p ++ p :: List.range' (p + 1) (sizeAll us)) := List.perm_middle.symm

theorem Stands.lt_of_mem_ancestors (h : doc.Stands n t parent index) (hm : m ∈ doc.ancestors n) :
    m < n := by
  have hrange := h.preceding_perm.mem_iff.1 (List.mem_append_right _ hm)
  rw [List.mem_range'_1, Nat.zero_add] at hrange
  exact hrange.2

theorem interval_eq_cons (doc : Document α) (n : Nat) :
    doc.interval n = n :: doc.descendants n := by
  rw [Stream.interval_eq, Stream.descendants_eq, Stream.flatMap_interval_children]

/-- The nodes at and below a node stand with the subtrees of its tree, in order. -/
theorem Stands.forall₂_interval (h : doc.Stands n t parent index) :
    List.Forall₂ (fun m u => ∃ parent index, doc.Stands m u parent index) (doc.interval n)
      t.subtrees := by
  induction t using Tree.induction generalizing n parent index with
  | h a ts ih =>
    have hrest {ns : List NodeId} {us : List (Tree α)} (hus : ∀ u ∈ us, u ∈ ts)
        (hns : List.Forall₂ (fun c u => ∃ i, doc.Stands c u (some n) i) ns us) :
        List.Forall₂ (fun m u => ∃ parent index, doc.Stands m u parent index)
          (ns.flatMap doc.interval) (us.flatMap subtrees) := by
      induction hns with
      | nil => exact .nil
      | cons hc _ ihns =>
        obtain ⟨i, hc⟩ := hc
        obtain ⟨hu, hus⟩ := List.forall_mem_cons.1 hus
        rw [List.flatMap_cons, List.flatMap_cons]
        exact List.rel_append (ih _ hu hc) (ihns hus)
    rw [Stream.interval_eq, subtrees, subtreesAll_eq_flatMap]
    exact .cons ⟨parent, index, h⟩ (hrest (fun u hu => hu) h.forall₂_children)

theorem Stands.forall₂_descendants (h : doc.Stands n t parent index) :
    List.Forall₂ (fun m u => ∃ parent index, doc.Stands m u parent index) (doc.descendants n)
      t.descendants := by
  have hall := h.forall₂_interval
  obtain ⟨a, ts⟩ := t
  rw [interval_eq_cons, subtrees] at hall
  cases hall with
  | cons _ hrest => exact hrest

/-- Nodes are counted as the trees at them are. -/
theorem Stands.countP_descendants (h : doc.Stands n t parent index) {p : NodeId → Bool}
    {q : Tree α → Bool} (hpq : ∀ {m u parent index}, doc.Stands m u parent index → p m = q u) :
    (doc.descendants n).countP p = t.descendants.countP q :=
  countP_of_forall₂ (h.forall₂_descendants.imp fun _ _ ⟨_, _, hm⟩ => hpq hm)

/-- Behind the subtree at a node come the subtrees that follow it. -/
theorem Stands.following_eq (h : doc.Stands n t parent index) :
    doc.following n = List.range' (n + t.size) (doc.size - (n + t.size)) := by
  induction h with
  | root =>
    rw [following_of_none Stands.root.parent?, size_eq, Nat.zero_add, Nat.sub_self]
    rfl
  | @child p a us u vs parent index h ih =>
    have hu : doc.Stands (p + 1 + sizeAll us) u (some p) us.length := .child h
    have hl := h.add_size_le
    rw [following_of_parent? hu.parent?, hu.index_eq, h.children, Tree.children, drop_siblingIds,
      Stream.flatMap_interval_younger h, ih]
    rw [Tree.size, sizeAll_append, sizeAll] at hl ⊢
    have he : p + (sizeAll us + (u.size + sizeAll vs) + 1) =
        p + 1 + sizeAll us + u.size + sizeAll vs := by omega
    rw [he] at hl ⊢
    rw [List.range'_append_1]
    congr 1
    omega

/-- Seen from a node, every node of the document is above it, the node itself, below it, before it
or behind it, and only one of these. Above and before are smaller numbers, below and behind greater
ones. -/
theorem axes_partition (t : Tree α) (n : Nat) (hn : n < (ofTree t).size) :
    ((ofTree t).ancestors n ++ [n] ++ (ofTree t).descendants n ++ (ofTree t).preceding n ++
      (ofTree t).following n).Perm (List.range (ofTree t).size) ∧
    (∀ m : Nat, m ∈ (ofTree t).preceding n ++ (ofTree t).ancestors n → m < n) ∧
    (∀ m : Nat, m ∈ (ofTree t).descendants n ++ (ofTree t).following n → n < m) := by
  obtain ⟨u, parent, index, h⟩ := exists_stands hn
  have hbefore := h.preceding_perm
  have hbelow := Stream.descendants_eq (ofTree t) n
  have hbehind := h.following_eq
  have hpos := u.size_pos
  have hle := h.add_size_le
  rw [h.subtreeSize] at hbelow
  have hrange : List.range (ofTree t).size =
      List.range' 0 n ++ n :: (ofTree t).descendants n ++ (ofTree t).following n := by
    have hat : n :: (ofTree t).descendants n = List.range' n u.size := by
      rw [hbelow, ← List.range'_succ, Nat.sub_add_cancel hpos]
    have hto : List.range' 0 n ++ List.range' n u.size = List.range' 0 (n + u.size) := by
      rw [← List.range'_append_1, Nat.zero_add]
    rw [hat, hto, hbehind]
    nth_rewrite 2 [← Nat.zero_add (n + u.size)]
    rw [List.range'_append_1, Nat.add_sub_of_le hle, List.range_eq_range']
  refine ⟨?_, ?_, ?_⟩
  · rw [hrange]
    apply List.Perm.append_right
    calc (ofTree t).ancestors n ++ [n] ++ (ofTree t).descendants n ++ (ofTree t).preceding n
      _ |>.Perm ((ofTree t).preceding n ++
          ((ofTree t).ancestors n ++ [n] ++ (ofTree t).descendants n)) := List.perm_append_comm
      _ = (ofTree t).preceding n ++ (ofTree t).ancestors n ++ n :: (ofTree t).descendants n := by
        simp only [List.append_assoc, List.singleton_append]
      _ |>.Perm (List.range' 0 n ++ n :: (ofTree t).descendants n) := hbefore.append_right _
  · intro m hm
    have hm := hbefore.mem_iff.1 hm
    rw [List.mem_range'_1] at hm
    omega
  · intro m hm
    rw [hbelow, hbehind, List.mem_append, List.mem_range'_1, List.mem_range'_1] at hm
    omega

/-- A tree in which the node 4 has nodes on every side. -/
def fork : Tree Nat :=
  .node 0 [.node 1 [.node 2 []], .node 3 [.node 4 [.node 5 [], .node 6 []], .node 7 []], .node 8 []]

theorem axes_partition_fork :
    4 < (ofTree fork).size ∧
    ((ofTree fork).ancestors 4 ++ [4] ++ (ofTree fork).descendants 4 ++ (ofTree fork).preceding 4 ++
      (ofTree fork).following 4).Perm (List.range (ofTree fork).size) ∧
    (∀ m : Nat, m ∈ (ofTree fork).preceding 4 ++ (ofTree fork).ancestors 4 → m < 4) ∧
    (∀ m : Nat, m ∈ (ofTree fork).descendants 4 ++ (ofTree fork).following 4 → 4 < m) :=
  ⟨by decide, axes_partition fork 4 (by decide)⟩

example : (ofTree fork).ancestors 4 = [3, 0] ∧ (ofTree fork).preceding 4 = [1, 2] ∧
    (ofTree fork).descendants 4 = [5, 6] ∧ (ofTree fork).following 4 = [7, 8] := by
  decide

end Document

end TreeMetrics
