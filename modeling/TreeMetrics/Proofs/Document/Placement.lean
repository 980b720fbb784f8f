import Mathlib.Logic.Relation
import TreeMetrics.Document.Basic
import TreeMetrics.Proofs.Data.Basic

namespace TreeMetrics

variable {α : Type}

namespace Tree

theorem size_pos (t : Tree α) : 0 < t.size := by
  cases t
  exact Nat.succ_pos _

theorem sizeAll_append (ts us : List (Tree α)) : sizeAll (ts ++ us) = sizeAll ts + sizeAll us := by
  induction ts with
  | nil => rw [List.nil_append, sizeAll, Nat.zero_add]
  | cons t ts ih => rw [List.cons_append, sizeAll, sizeAll, ih, Nat.add_assoc]

theorem sizeAll_concat (ts : List (Tree α)) (t : Tree α) :
    sizeAll (ts ++ [t]) = sizeAll ts + t.size := by
  rw [sizeAll_append]
  rfl

theorem size_le_sizeAll {t : Tree α} {ts : List (Tree α)} (h : t ∈ ts) : t.size ≤ sizeAll ts := by
  obtain ⟨us, vs, rfl⟩ := List.append_of_mem h
  rw [sizeAll_append, sizeAll]
  omega

theorem siblingIds_append (id : NodeId) (ts us : List (Tree α)) :
    siblingIds id (ts ++ us) = siblingIds id ts ++ siblingIds (id + sizeAll ts) us := by
  induction ts generalizing id with
  | nil => rfl
  | cons t ts ih => rw [List.cons_append, siblingIds, siblingIds, ih, sizeAll, Nat.add_assoc,
      List.cons_append]

theorem layoutAll_append (parent : NodeId) (index : Nat) (id : NodeId) (ts us : List (Tree α)) :
    layoutAll parent index id (ts ++ us) =
      layoutAll parent index id ts ++
        layoutAll parent (index + ts.length) (id + sizeAll ts) us := by
  induction ts generalizing index id with
  | nil => rfl
  | cons t ts ih =>
    rw [List.cons_append, layoutAll, layoutAll, ih, List.append_assoc, sizeAll, List.length_cons,
      Nat.add_assoc id, Nat.add_assoc index, Nat.add_comm 1]

/-- In the layout of a tree the children are laid out one behind the other. -/
theorem exists_layout_child (id : NodeId) (a : α) (us : List (Tree α)) (u : Tree α)
    (vs : List (Tree α)) (parent : Option NodeId) (index : Nat) :
    ∃ before after, (node a (us ++ u :: vs)).layout parent index id =
      before ++ (u.layout (some id) us.length (id + 1 + sizeAll us) ++ after) ∧
        before.length = 1 + sizeAll us := by
  rw [layout, layoutAll_append, layoutAll, Nat.zero_add]
  refine ⟨_ :: layoutAll id 0 (id + 1) us, _, (List.cons_append ..).symm, ?_⟩
  rw [List.length_cons, length_layoutAll fun t _ => length_layout t, Nat.add_comm]

theorem length_siblingIds (id : NodeId) (ts : List (Tree α)) :
    (siblingIds id ts).length = ts.length := by
  induction ts generalizing id with
  | nil => rfl
  | cons t ts ih => rw [siblingIds, List.length_cons, List.length_cons, ih]

theorem getElem?_siblingIds {id i c : Nat} {ts : List (Tree α)} :
    (siblingIds id ts)[i]? = some c ↔
      ∃ us u vs, ts = us ++ u :: vs ∧ i = us.length ∧ c = id + sizeAll us := by
  constructor
  · intro h
    induction ts generalizing id i with
    | nil => cases h
    | cons t ts ih =>
      cases i with
      | zero =>
        cases h
        exact ⟨[], t, ts, rfl, rfl, rfl⟩
      | succ i =>
        obtain ⟨us, u, vs, rfl, rfl, rfl⟩ := ih h
        exact ⟨t :: us, u, vs, rfl, rfl, by rw [sizeAll, Nat.add_assoc]⟩
  · rintro ⟨us, u, vs, rfl, rfl, rfl⟩
    induction us generalizing id with
    | nil => rfl
    | cons t us ih => rw [sizeAll, ← Nat.add_assoc, ← ih]; rfl

theorem mem_siblingIds {id c : Nat} {ts : List (Tree α)} :
    c ∈ siblingIds id ts ↔ ∃ us u vs, ts = us ++ u :: vs ∧ c = id + sizeAll us := by
  constructor
  · intro h
    obtain ⟨i, hi⟩ := List.getElem?_of_mem h
    obtain ⟨us, u, vs, hts, -, hc⟩ := getElem?_siblingIds.1 hi
    exact ⟨us, u, vs, hts, hc⟩
  · rintro ⟨us, u, vs, hts, hc⟩
    exact List.mem_of_getElem? (getElem?_siblingIds.2 ⟨us, u, vs, hts, rfl, hc⟩)

/-- A number among those of a forest is among those of one of its trees. -/
theorem exists_split {ts : List (Tree α)} {k : Nat} (h : k < sizeAll ts) :
    ∃ us u vs, ts = us ++ u :: vs ∧ sizeAll us ≤ k ∧ k < sizeAll us + u.size := by
  induction ts generalizing k with
  | nil => cases h
  | cons t ts ih =>
    rw [sizeAll] at h
    by_cases hk : k < t.size
    · exact ⟨[], t, ts, rfl, Nat.zero_le k, by rwa [sizeAll, Nat.zero_add]⟩
    · obtain ⟨us, u, vs, rfl, hu, hk'⟩ := ih (k := k - t.size) (by omega)
      refine ⟨t :: us, u, vs, rfl, ?_, ?_⟩
      · rw [sizeAll]
        omega
      · rw [sizeAll]
        omega

/-- Among the subtrees of a tree those of a child stand behind those of its elder siblings. -/
theorem subtrees_node_append (a : α) (us : List (Tree α)) (u : Tree α) (vs : List (Tree α)) :
    (node a (us ++ u :: vs)).subtrees =
      (node a (us ++ u :: vs) :: subtreesAll us) ++ (u.subtrees ++ subtreesAll vs) := by
  rw [subtrees, subtreesAll_append, subtreesAll]
  rfl

end Tree

namespace Document

open TreeMetrics.Tree

/-- The subtree at a node, its parent and its place: a child stands behind the subtrees of its elder
siblings. -/
inductive Stands (doc : Document α) : Nat → Tree α → Option NodeId → Nat → Prop where
  | root : Stands doc 0 doc.tree none 0
  | child {n a us u vs parent index} : Stands doc n (.node a (us ++ u :: vs)) parent index →
    Stands doc (n + 1 + sizeAll us) u (some n) us.length

variable {doc : Document α} {n m c i index : Nat} {parent : Option NodeId} {t u : Tree α}

theorem size_eq (doc : Document α) : doc.size = doc.tree.size := by
  rw [size, doc.entries_eq, List.size_toArray, length_layout]

namespace Stands

/-- The entries from the node on are those of its subtree. -/
theorem entries (h : doc.Stands n t parent index) :
    ∃ before after, doc.entries.toList = before ++ (t.layout parent index n ++ after) ∧
      before.length = n := by
  induction h with
  | root =>
    refine ⟨[], [], ?_, rfl⟩
    rw [doc.entries_eq, List.nil_append, List.append_nil]
  | @child n a us u vs parent index _ ih =>
    obtain ⟨before, after, he, hn⟩ := ih
    obtain ⟨before', after', hl, hn'⟩ := exists_layout_child n a us u vs parent index
    refine ⟨before ++ before', after' ++ after, ?_, ?_⟩
    · simp only [he, hl, List.append_assoc]
    · rw [List.length_append, hn, hn', Nat.add_assoc]

theorem entry? (h : doc.Stands n t parent index) :
    doc.entry? n = some ⟨t.label, parent, index, siblingIds (n + 1) t.children⟩ := by
  obtain ⟨before, after, he, hn⟩ := h.entries
  obtain ⟨a, ts⟩ := t
  rw [Document.entry?, ← Array.getElem?_toList, he, List.getElem?_append_right (Nat.le_of_eq hn),
    hn, Nat.sub_self]
  rfl

theorem add_size_le (h : doc.Stands n t parent index) : n + t.size ≤ doc.size := by
  obtain ⟨before, after, he, hn⟩ := h.entries
  have hl := congrArg List.length he
  rw [List.length_append, List.length_append, length_layout, Array.length_toList, hn,
    ← Nat.add_assoc] at hl
  exact Nat.le.intro hl.symm

theorem parent? (h : doc.Stands n t parent index) : doc.parent? n = parent := by
  rw [Document.parent?, h.entry?]
  rfl

theorem index_eq (h : doc.Stands n t parent index) : doc.index n = index := by
  rw [Document.index, h.entry?]
  rfl

theorem children (h : doc.Stands n t parent index) :
    doc.children n = siblingIds (n + 1) t.children := by
  rw [Document.children, h.entry?]
  rfl

theorem label? (h : doc.Stands n t parent index) :
    (doc.entry? n).map Entry.label = some t.label := by
  rw [h.entry?]
  rfl

/-- The children of a node stand behind it with the trees under it. -/
theorem forall₂_children (h : doc.Stands n t parent index) :
    List.Forall₂ (fun c u => ∃ i, doc.Stands c u (some n) i) (doc.children n) t.children := by
  obtain ⟨a, ts⟩ := t
  have hrest (us vs : List (Tree α)) (hts : ts = us ++ vs) :
      List.Forall₂ (fun c u => ∃ i, doc.Stands c u (some n) i)
        (siblingIds (n + 1 + sizeAll us) vs) vs := by
    induction vs generalizing us with
    | nil => exact .nil
    | cons v vs ih =>
      subst hts
      apply List.Forall₂.cons ⟨_, .child h⟩
      have hv := ih (us ++ [v]) (List.append_cons us v vs)
      rwa [sizeAll_concat, ← Nat.add_assoc] at hv
  rw [h.children]
  exact hrest [] ts rfl

theorem mem_children (h : doc.Stands n t parent index) (hc : c ∈ doc.children n) :
    ∃ u i, doc.Stands c u (some n) i ∧ n < c ∧ c + u.size ≤ n + t.size := by
  obtain ⟨a, ts⟩ := t
  rw [h.children, mem_siblingIds] at hc
  obtain ⟨us, u, vs, rfl, rfl⟩ := hc
  refine ⟨u, us.length, .child h, by omega, ?_⟩
  rw [Tree.size, sizeAll_append, sizeAll]
  omega

end Stands

/-- The second node is the first one or stands somewhere below it. -/
abbrev Below (doc : Document α) : NodeId → NodeId → Prop :=
  Relation.ReflTransGen fun n c => c ∈ doc.children n

namespace Stands

/-- The subtree at a node takes up the numbers from its own on. -/
theorem below_iff (h : doc.Stands n t parent index) :
    doc.Below n m ↔ n ≤ m ∧ m < n + t.size := by
  constructor
  · intro hb
    have hs : ∃ u parent' index', doc.Stands m u parent' index' ∧ n ≤ m ∧
        m + u.size ≤ n + t.size := by
      induction hb with
      | refl => exact ⟨t, parent, index, h, Nat.le_refl n, Nat.le_refl _⟩
      | tail _ hc ih =>
        obtain ⟨u, parent', index', hu, hn, hm⟩ := ih
        obtain ⟨v, i, hv, hlt, hle⟩ := hu.mem_children hc
        exact ⟨v, _, i, hv, by omega, by omega⟩
    obtain ⟨u, -, -, -, hn, hm⟩ := hs
    exact ⟨hn, Nat.lt_of_lt_of_le (Nat.lt_add_of_pos_right u.size_pos) hm⟩
  · rintro ⟨hn, hm⟩
    induction t using Tree.induction generalizing n parent index with
    | h a ts ih =>
      rcases Nat.eq_or_lt_of_le hn with rfl | hn
      · exact .refl
      · rw [Tree.size] at hm
        have hk : m - (n + 1) < sizeAll ts := by omega
        obtain ⟨us, u, vs, rfl, hu, hk⟩ := exists_split hk
        have hc : n + 1 + sizeAll us ∈ doc.children n := by
          rw [h.children]
          exact mem_siblingIds.2 ⟨us, u, vs, rfl, rfl⟩
        exact .head hc (ih u (List.mem_append_right us List.mem_cons_self) (.child h) (by omega)
          (by omega))

end Stands

theorem exists_stands_of_below (hb : doc.Below root m) :
    ∃ t parent index, doc.Stands m t parent index := by
  induction hb with
  | refl => exact ⟨doc.tree, none, 0, .root⟩
  | tail _ hc ih =>
    obtain ⟨t, parent, index, ht⟩ := ih
    obtain ⟨u, i, hu, -, -⟩ := ht.mem_children hc
    exact ⟨u, _, i, hu⟩

theorem exists_stands (h : n < doc.size) : ∃ t parent index, doc.Stands n t parent index := by
  apply exists_stands_of_below
  apply Stands.root.below_iff.2
  rw [size_eq, ← Nat.zero_add doc.tree.size] at h
  exact ⟨Nat.zero_le n, h⟩

theorem entry?_of_le (h : doc.size ≤ n) : doc.entry? n = none :=
  Array.getElem?_eq_none h

theorem lt_size_of_child? (h : doc.child? n i = some c) : n < doc.size := by
  apply Nat.lt_of_not_le
  intro hn
  rw [child?, children, entry?_of_le hn] at h
  cases h

/-- The tree that is read back from a node through labels and children, down to a given depth. -/
def treeWithin (doc : Document α) : Nat → NodeId → Option (Tree α)
  | 0, _ => none
  | depth + 1, n => do
    let a ← (doc.entry? n).map Entry.label
    let ts ← (doc.children n).mapM (treeWithin doc depth)
    some (.node a ts)

def tree? (doc : Document α) (n : NodeId) : Option (Tree α) := treeWithin doc doc.size n

theorem Stands.treeWithin {d : Nat} (h : doc.Stands n t parent index) (hd : t.size ≤ d) :
    doc.treeWithin d n = some t := by
  induction d generalizing n t parent index with
  | zero => exact absurd hd (Nat.not_le_of_lt t.size_pos)
  | succ d ih =>
    obtain ⟨a, ts⟩ := t
    rw [Tree.size] at hd
    have hts : (doc.children n).mapM (doc.treeWithin d) = some ts := by
      apply mapM_of_forall₂ h.forall₂_children
      intro c u hu hc
      obtain ⟨i, hc⟩ := hc
      apply ih hc
      exact Nat.le_trans (size_le_sizeAll hu) (Nat.le_of_succ_le_succ hd)
    rw [Document.treeWithin, h.entry?, hts]
    rfl

theorem Stands.size_le (h : doc.Stands n t parent index) : t.size ≤ doc.size :=
  Nat.le_trans (Nat.le_add_left t.size n) h.add_size_le

theorem Stands.tree? (h : doc.Stands n t parent index) : doc.tree? n = some t :=
  h.treeWithin h.size_le

theorem tree?_of_le (h : doc.size ≤ n) : doc.tree? n = none := by
  rw [tree?]
  cases doc.size with
  | zero => rfl
  | succ d => rw [treeWithin, entry?_of_le h]; rfl

theorem exists_stands_of_tree? (h : doc.tree? n = some t) :
    ∃ parent index, doc.Stands n t parent index := by
  by_cases hn : n < doc.size
  · obtain ⟨u, parent, index, hu⟩ := exists_stands hn
    rw [hu.tree?] at h
    cases h
    exact ⟨parent, index, hu⟩
  · rw [tree?_of_le (Nat.le_of_not_lt hn)] at h
    cases h

/-- The subtrees of the document from the node on are those of its own subtree. -/
theorem Stands.exists_subtrees (h : doc.Stands n t parent index) :
    ∃ before after, doc.tree.subtrees = before ++ (t.subtrees ++ after) ∧ before.length = n := by
  induction h with
  | root =>
    refine ⟨[], [], ?_, rfl⟩
    rw [List.nil_append, List.append_nil]
  | @child n a us u vs parent index _ ih =>
    obtain ⟨before, after, ht, hn⟩ := ih
    refine ⟨before ++ .node a (us ++ u :: vs) :: subtreesAll us, subtreesAll vs ++ after, ?_, ?_⟩
    · simp only [ht, subtrees_node_append, List.append_assoc]
    · rw [List.length_append, List.length_cons, length_subtreesAll fun t _ => length_subtrees t, hn]
      omega

/-- From each node its subtree is read back, and these stand in document order. -/
theorem tree?_eq (doc : Document α) (n : Nat) : doc.tree? n = doc.tree.subtrees[n]? := by
  by_cases hn : n < doc.size
  · obtain ⟨t, parent, index, h⟩ := exists_stands hn
    obtain ⟨before, after, ht, hlength⟩ := h.exists_subtrees
    rw [h.tree?, ht, List.getElem?_append_right (Nat.le_of_eq hlength), hlength, Nat.sub_self]
    cases t
    rfl
  · have hn := Nat.le_of_not_lt hn
    rw [tree?_of_le hn, List.getElem?_eq_none]
    rwa [length_subtrees, ← size_eq]

theorem child_of_child? (h : doc.child? n i = some c) : doc.child n i = .ok c := by
  rw [child, h]

theorem exists_child (h : i < (doc.children n).length) :
    ∃ c, doc.child n i = .ok c ∧ doc.parent? c = some n ∧ doc.index c = i ∧ n < c := by
  obtain ⟨c, hc⟩ : ∃ c, doc.child? n i = some c := ⟨_, List.getElem?_eq_getElem h⟩
  obtain ⟨⟨a, ts⟩, parent, index, hs⟩ := exists_stands (lt_size_of_child? hc)
  refine ⟨c, child_of_child? hc, ?_⟩
  rw [child?, hs.children] at hc
  obtain ⟨us, u, vs, rfl, rfl, rfl⟩ := getElem?_siblingIds.1 hc
  have hu : doc.Stands (n + 1 + sizeAll us) u (some n) us.length := .child hs
  exact ⟨hu.parent?, hu.index_eq, by omega⟩

theorem exists_parent (h : n < doc.size) (hn : n ≠ root) :
    ∃ p, doc.parent? n = some p ∧ doc.child p (doc.index n) = .ok n := by
  obtain ⟨t, parent, index, hs⟩ := exists_stands h
  rw [hs.parent?, hs.index_eq]
  cases hs with
  | root => exact absurd rfl hn
  | @child p a us _ vs _ _ hp =>
    refine ⟨p, rfl, child_of_child? ?_⟩
    rw [child?, hp.children]
    exact getElem?_siblingIds.2 ⟨us, t, vs, rfl, rfl, rfl⟩

theorem parent?_eq_none_iff (h : n < doc.size) : doc.parent? n = none ↔ n = root := by
  constructor
  · intro hp
    apply Classical.byContradiction
    intro hn
    obtain ⟨p, hp', -⟩ := exists_parent h hn
    rw [hp] at hp'
    cases hp'
  · rintro rfl
    exact Stands.root.parent?

theorem below_iff_of_tree? (h : doc.tree? n = some u) :
    doc.Below n m ↔ n ≤ m ∧ m < n + u.size := by
  obtain ⟨parent, index, hs⟩ := exists_stands_of_tree? h
  exact hs.below_iff

theorem nodup_siblingIds (id : NodeId) (ts : List (Tree α)) : (siblingIds id ts).Nodup := by
  induction ts generalizing id with
  | nil => exact List.nodup_nil
  | cons t ts ih =>
    rw [siblingIds, List.nodup_cons]
    refine ⟨fun hmem => ?_, ih _⟩
    obtain ⟨us, u, vs, -, he⟩ := mem_siblingIds.1 hmem
    have hpos := t.size_pos
    omega

theorem children_of_le (h : doc.size ≤ n) : doc.children n = [] := by
  rw [children, entry?_of_le h]
  rfl

theorem nodup_children (doc : Document α) (n : NodeId) : (doc.children n).Nodup := by
  by_cases hn : n < doc.size
  · obtain ⟨t, parent, index, h⟩ := exists_stands hn
    rw [h.children]
    exact nodup_siblingIds _ _
  · rw [children_of_le (Nat.le_of_not_lt hn)]
    exact List.nodup_nil

/-- The document shows the tree: from each node its subtree is read back, in document order, the
links between nodes agree with each other, and a subtree takes up a run of numbers. -/
structure Shows (doc : Document α) (t : Tree α) : Prop where
  size : doc.size = t.size
  tree_root : doc.tree? root = some t
  tree : ∀ n, doc.tree? n = t.subtrees[n]?
  child : ∀ n i, i < (doc.children n).length →
    ∃ c, doc.child n i = .ok c ∧ doc.parent? c = some n ∧ doc.index c = i ∧ n < c
  parent : ∀ n, n < doc.size → n ≠ root →
    ∃ p, doc.parent? n = some p ∧ doc.child p (doc.index n) = .ok n
  orphan : ∀ n, n < doc.size → (doc.parent? n = none ↔ n = root)
  subtree : ∀ n u, doc.tree? n = some u → ∀ m, doc.Below n m ↔ n ≤ m ∧ m < n + u.size

/-- The document that is made from a tree shows that tree. -/
theorem shows_ofTree (t : Tree α) : (ofTree t).Shows t where
  size := size_eq (ofTree t)
  tree_root := Stands.root.tree?
  tree := tree?_eq (ofTree t)
  child _ _ := exists_child
  parent _ := exists_parent
  orphan _ := parent?_eq_none_iff
  subtree _ _ h _ := below_iff_of_tree? h

end Document

end TreeMetrics
