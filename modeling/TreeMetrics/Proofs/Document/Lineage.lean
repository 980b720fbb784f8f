import TreeMetrics.Proofs.Document.Preorder

namespace TreeMetrics

namespace Document

open TreeMetrics.Tree

variable {α : Type} {doc : Document α} {n m p index : Nat} {parent : Option NodeId} {t : Tree α}

theorem climb_of_le {j k : Nat} (hj : n ≤ j) (hk : n ≤ k) : doc.climb j n = doc.climb k n := by
  induction j generalizing k n with
  | zero =>
    cases k with
    | zero => rfl
    | succ k =>
      cases hp : doc.parent? n with
      | none => rw [climb, climb, hp]
      | some p => exact absurd (parent?_lt hp).1 (by omega)
  | succ j ih =>
    cases hp : doc.parent? n with
    | none =>
      cases k with
      | zero => rw [climb, climb, hp]
      | succ k => rw [climb, climb, hp]
    | some p =>
      have hlt := (parent?_lt hp).1
      cases k with
      | zero => omega
      | succ k =>
        rw [climb, climb, hp]
        exact ih (by omega) (by omega)

theorem topmost_of_none (h : doc.parent? n = none) : doc.topmost n = n := by
  rw [topmost]
  cases n with
  | zero => rfl
  | succ n => rw [climb, h]

theorem topmost_of_parent? (h : doc.parent? n = some p) : doc.topmost n = doc.topmost p := by
  have hlt := (parent?_lt h).1
  have hstep : doc.climb (n + 1) n = doc.climb n p := by rw [climb, h]
  rw [topmost, climb_of_le (Nat.le_refl n) (Nat.le_succ n), hstep, topmost]
  exact climb_of_le (Nat.le_of_lt hlt) (Nat.le_refl p)

theorem mem_children_iff : m ∈ doc.children p ↔ doc.parent? m = some p := by
  constructor
  · intro h
    have hp : p < doc.size := by
      apply Nat.lt_of_not_le
      intro hle
      rw [children_of_le hle] at h
      cases h
    obtain ⟨t, parent, index, hs⟩ := exists_stands hp
    obtain ⟨u, i, hu, -⟩ := hs.mem_children h
    exact hu.parent?
  · intro h
    obtain ⟨t, parent, index, hs⟩ := exists_stands (parent?_lt h).2
    rw [hs.parent?] at h
    cases hs with
    | root => cases h
    | @child _ a us _ vs _ _ hp =>
      cases h
      rw [hp.children]
      exact mem_siblingIds.2 ⟨us, t, vs, rfl, rfl⟩

/-- The nodes lead from a node to the topmost one, which is the root, each to its parent. -/
structure Lineage (doc : Document α) (m : NodeId) (ns : List NodeId) : Prop where
  first : ns.head? = some m
  last : ns.getLast? = some (doc.topmost m)
  topmost : doc.topmost m = root
  decreasing : ns.Pairwise (· > ·)
  linked : ns.IsChain fun c p => doc.parent? c = some p ∧ c ∈ doc.children p

theorem Stands.lineage (h : doc.Stands m t parent index) :
    doc.Lineage m (m :: doc.ancestors m) := by
  induction h with
  | root =>
    have hnone : doc.parent? 0 = none := Stands.root.parent?
    rw [ancestors_of_none hnone]
    have htop : doc.topmost 0 = 0 := topmost_of_none hnone
    exact ⟨rfl, congrArg some htop.symm, htop, List.pairwise_singleton _ _, .singleton _⟩
  | @child p a us u vs parent index h ih =>
    have hu : doc.Stands (p + 1 + sizeAll us) u (some p) us.length := .child h
    have hparent := hu.parent?
    have hlast := ih.last
    rw [← topmost_of_parent? hparent] at hlast
    have hlt : ∀ q ∈ doc.ancestors (p + 1 + sizeAll us), p + 1 + sizeAll us > q := by
      intro q hq
      exact hu.lt_of_mem_ancestors hq
    constructor
    case first => rfl
    case last =>
      rw [ancestors_of_parent? hparent, List.getLast?_cons_cons]
      exact hlast
    case topmost => rw [topmost_of_parent? hparent, ih.topmost]
    case decreasing =>
      apply List.Pairwise.cons hlt
      rw [ancestors_of_parent? hparent]
      exact ih.decreasing
    case linked =>
      rw [ancestors_of_parent? hparent]
      exact .cons_cons ⟨hparent, mem_children_iff.2 hparent⟩ ih.linked

theorem below_iff_parent? :
    doc.Below n m ↔ n = m ∨ ∃ p, doc.parent? m = some p ∧ doc.Below n p := by
  constructor
  · intro h
    cases h with
    | refl => exact .inl rfl
    | tail hb hc => exact .inr ⟨_, mem_children_iff.1 hc, hb⟩
  · rintro (rfl | ⟨p, hp, hb⟩)
    · exact .refl
    · exact hb.tail (mem_children_iff.2 hp)

/-- Going up from a node meets the nodes from which going down leads to it. -/
theorem mem_lineage_iff : n ∈ m :: doc.ancestors m ↔ doc.Below n m := by
  induction m using Nat.strongRecOn with
  | ind m ih =>
    rw [List.mem_cons, below_iff_parent?]
    apply or_congr_right
    cases hp : doc.parent? m with
    | none =>
      rw [ancestors_of_none hp]
      simp only [List.not_mem_nil, reduceCtorEq, false_and, exists_false]
    | some p =>
      rw [ancestors_of_parent? hp, ih p (parent?_lt hp).1]
      simp only [Option.some.injEq, exists_eq_left']

theorem mem_interval_iff (hn : n < doc.size) : m ∈ doc.interval n ↔ doc.Below n m := by
  obtain ⟨t, parent, index, h⟩ := exists_stands hn
  rw [h.below_iff, interval, h.subtreeSize, List.mem_range'_1]

theorem mem_descendants_iff (hn : n < doc.size) (hm : m < doc.size) :
    m ∈ doc.descendants n ↔ n ∈ doc.ancestors m := by
  have hboth : m ∈ n :: doc.descendants n ↔ n ∈ m :: doc.ancestors m := by
    rw [← interval_eq_cons, mem_interval_iff hn, mem_lineage_iff]
  obtain ⟨t, parent, index, h⟩ := exists_stands hm
  have hup : n ∈ doc.ancestors m → n ≠ m := by
    intro hmem
    exact Nat.ne_of_lt (h.lt_of_mem_ancestors hmem)
  have hdown : m ∈ doc.descendants n → n ≠ m := by
    rw [Stream.descendants_eq, List.mem_range'_1]
    omega
  rw [List.mem_cons, List.mem_cons] at hboth
  constructor
  · intro hmem
    exact (hboth.1 (.inr hmem)).resolve_left (hdown hmem)
  · intro hmem
    exact (hboth.2 (.inr hmem)).resolve_left (hup hmem).symm

/-- One node is met below another just if the other is met above it. No walk up or down meets a node
twice, and the walk up leads to the root. -/
theorem ancestors_descendants_dual (doc : Document α) (m n : NodeId) (hm : m < doc.size)
    (hn : n < doc.size) :
    ∃ below belowOrSelf above aboveOrSelf,
      (Walk.ofDescendants doc n).Produces doc below ∧
      (Walk.ofDescendantsOrSelf doc n).Produces doc belowOrSelf ∧
      (Walk.ofAncestors doc m).Produces doc above ∧
      (Walk.ofAncestorsOrSelf doc (some m)).Produces doc aboveOrSelf ∧
      (m ∈ below ↔ n ∈ above) ∧ below.Nodup ∧ above.Nodup ∧
      (m ∈ belowOrSelf ↔ n ∈ aboveOrSelf) ∧ belowOrSelf.Nodup ∧ aboveOrSelf.Nodup ∧
      doc.Lineage m aboveOrSelf := by
  obtain ⟨t, parent, index, h⟩ := exists_stands hm
  have hup : Stream.walked doc (.ofAncestorsOrSelf doc (some m)) = m :: doc.ancestors m :=
    Stream.walked_ancestorOrSelf doc m
  have hdown : Stream.walked doc (.ofDescendantsOrSelf doc n) = doc.interval n :=
    Stream.walked_descendantOrSelf doc n
  have hnodup : (m :: doc.ancestors m).Nodup := h.lineage.decreasing.imp Nat.ne_of_gt
  refine ⟨_, _, _, _, Walk.produces_walked .., Walk.produces_walked .., Walk.produces_walked ..,
    Walk.produces_walked .., mem_descendants_iff hn hm, ?_, ?_, ?_⟩
  · rw [Stream.walked_ofDescendants, Stream.walked_descendants, Stream.flatMap_interval_children]
    exact List.nodup_range'
  · exact hnodup.of_cons
  · rw [hup, hdown, mem_interval_iff hn, mem_lineage_iff]
    exact ⟨.rfl, List.nodup_range', hnodup, h.lineage⟩

/-- The leaf 6 of the fork lies below the nodes 4, 3 and 0, and not below the node 1. -/
theorem ancestors_descendants_dual_fork :
    (∃ below above, (Walk.ofDescendants (ofTree fork) 3).Produces (ofTree fork) below ∧
      (Walk.ofAncestors (ofTree fork) 6).Produces (ofTree fork) above ∧
      (6 ∈ below ↔ 3 ∈ above) ∧ above = [4, 3, 0]) ∧
    ∃ below above, (Walk.ofDescendants (ofTree fork) 1).Produces (ofTree fork) below ∧
      (Walk.ofAncestors (ofTree fork) 6).Produces (ofTree fork) above ∧
      (6 ∈ below ↔ 1 ∈ above) ∧ below = [2] := by
  have habove : (Walk.ofAncestors (ofTree fork) 6).Produces (ofTree fork) [4, 3, 0] :=
    .more rfl (.more rfl (.more rfl (.done rfl)))
  have hbelow : (Walk.ofDescendants (ofTree fork) 1).Produces (ofTree fork) [2] :=
    .more rfl (.done rfl)
  obtain ⟨below, _, above, _, h₁, -, h₂, -, hiff, -⟩ :=
    ancestors_descendants_dual (ofTree fork) 6 3 (by decide) (by decide)
  obtain ⟨below', _, above', _, h₁', -, h₂', -, hiff', -⟩ :=
    ancestors_descendants_dual (ofTree fork) 6 1 (by decide) (by decide)
  exact ⟨⟨below, above, h₁, h₂, hiff, h₂.unique habove⟩, below', above', h₁', h₂', hiff',
    h₁'.unique hbelow⟩

end Document

end TreeMetrics
