import TreeMetrics.Proofs.Document.Axes

namespace TreeMetrics

open Document

variable {α : Type} {doc : Document α} {n : Nat} {w w' : Walk doc} {ns ms : List NodeId}

namespace Walk

/-- Asked for the next node until there is none, the walk produces these nodes. -/
inductive Produces (doc : Document α) : Walk doc → List NodeId → Prop where
  | done {w : Walk doc} : w.next doc = none → Produces doc w []
  | more {w w' : Walk doc} {n : NodeId} {ns : List NodeId} :
    w.next doc = some (n, w') → Produces doc w' ns → Produces doc w (n :: ns)

theorem Produces.unique (h : w.Produces doc ns) (h' : w.Produces doc ms) : ns = ms := by
  induction h generalizing ms with
  | done hw =>
    cases h' with
    | done _ => rfl
    | more hw' _ =>
      rw [hw] at hw'
      cases hw'
  | more hw _ ih =>
    cases h' with
    | done hw' =>
      rw [hw] at hw'
      cases hw'
    | more hw' h' =>
      rw [hw] at hw'
      cases hw'
      rw [ih h']

/-- No walk goes on for ever. -/
theorem produces_walked (doc : Document α) (w : Walk doc) :
    w.Produces doc (Stream.walked doc w) := by
  generalize hb : Stream.walkBound doc w = b
  induction b using Nat.strongRecOn generalizing w with
  | ind b ih =>
    cases hw : w.next doc with
    | none =>
      rw [Stream.walked_of_none hw]
      exact .done hw
    | some r =>
      obtain ⟨n, w'⟩ := r
      rw [Stream.walked_of_some hw]
      exact .more hw (ih _ (hb ▸ Stream.walkBound_next hw) w' rfl)

theorem produces_iff : w.Produces doc ns ↔ ns = Stream.walked doc w := by
  constructor
  · intro h
    exact h.unique (produces_walked doc w)
  · rintro rfl
    exact produces_walked doc w

end Walk

namespace Stream

/-- Nothing is seen of the choice between an empty walk and an empty stack. -/
theorem walked_ofDescendants (doc : Document α) (n : Nat) :
    walked doc (.ofDescendants doc n) = walked doc (.descendants (doc.children n)) := by
  rw [walked_descendants, flatMap_interval_children]
  exact descendants_eq doc n

theorem walked_ofDescendantsOrSelf (doc : Document α) (n : Nat) :
    walked doc (.ofDescendantsOrSelf doc n) = walked doc (.descendants [n]) := by
  rw [walked_descendants, List.flatMap_singleton]
  exact walked_descendantOrSelf doc n

theorem walked_ofDescendants_eq_flatMap (doc : Document α) (n : Nat) :
    walked doc (.ofDescendants doc n) =
      (doc.children n).flatMap fun c => walked doc (.ofDescendantsOrSelf doc c) := by
  rw [walked_ofDescendants, walked_descendants]
  apply List.flatMap_congr
  intro c _
  exact (walked_descendantOrSelf doc c).symm

theorem walked_ofDescendantsOrSelf_eq_cons (doc : Document α) (n : Nat) :
    walked doc (.ofDescendantsOrSelf doc n) = n :: walked doc (.ofDescendants doc n) :=
  (walked_descendantOrSelf doc n).trans (interval_eq_cons doc n)

end Stream

namespace Document

theorem subtreeSize_of_tree? {t : Tree α} (h : doc.tree? n = some t) :
    doc.subtreeSize n = t.size := by
  obtain ⟨parent, index, hs⟩ := exists_stands_of_tree? h
  exact hs.subtreeSize

/-- The walks below a node produce the numbers that its subtree takes up, in ascending order, be it
a leaf or not and whether or not leaves are treated apart. What is below a node is what its children
produce together with what is below them. -/
theorem descendants_preorder (doc : Document α) (n : NodeId) (t : Tree α)
    (h : doc.tree? n = some t) :
    (∀ w ∈ [Walk.ofDescendants doc n, .descendants (doc.children n)], ∀ ns,
      w.Produces doc ns ↔ ns = List.range' (n + 1) (t.size - 1)) ∧
    (∀ w ∈ [Walk.ofDescendantsOrSelf doc n, .descendants [n]], ∀ ns,
      w.Produces doc ns ↔ ns = List.range' n t.size) ∧
    (∀ ns, (Walk.ofDescendants doc n).Produces doc ns ↔ ∃ parts,
      List.Forall₂ (fun c part => (Walk.ofDescendantsOrSelf doc c).Produces doc part)
        (doc.children n) parts ∧ ns = parts.flatten) ∧
    (∀ ns, (Walk.ofDescendantsOrSelf doc n).Produces doc ns ↔
      ∃ rest, (Walk.ofDescendants doc n).Produces doc rest ∧ ns = n :: rest) := by
  have hsize := subtreeSize_of_tree? h
  have hbelow : ∀ w ∈ [Walk.ofDescendants doc n, .descendants (doc.children n)],
      Stream.walked doc w = List.range' (n + 1) (t.size - 1) := by
    rw [List.forall_mem_cons, List.forall_mem_singleton, ← Stream.walked_ofDescendants, and_self,
      ← hsize]
    exact Stream.descendants_eq doc n
  have hself : ∀ w ∈ [Walk.ofDescendantsOrSelf doc n, .descendants [n]],
      Stream.walked doc w = List.range' n t.size := by
    rw [List.forall_mem_cons, List.forall_mem_singleton, ← Stream.walked_ofDescendantsOrSelf,
      and_self, ← hsize]
    exact Stream.walked_descendantOrSelf doc n
  constructor
  · intro w hw ns
    rw [Walk.produces_iff, hbelow w hw]
  constructor
  · intro w hw ns
    rw [Walk.produces_iff, hself w hw]
  constructor
  · intro ns
    rw [Walk.produces_iff, Stream.walked_ofDescendants_eq_flatMap, List.flatMap_def]
    constructor
    · rintro rfl
      refine ⟨_, ?_, rfl⟩
      rw [List.forall₂_map_right_iff, List.forall₂_same]
      intro c _
      exact Walk.produces_walked doc _
    · rintro ⟨parts, hparts, rfl⟩
      congr 1
      rw [← List.forall₂_eq_eq_eq, List.forall₂_map_right_iff]
      exact hparts.flip.imp fun _ _ h => Walk.produces_iff.1 h
  · intro ns
    simp only [Walk.produces_iff, exists_eq_left]
    rw [Stream.walked_ofDescendantsOrSelf_eq_cons]

/-- The node 4 of the fork lies above two leaves, one of which is the node 5. -/
theorem descendants_preorder_fork :
    (Walk.ofDescendants (ofTree fork) 4).Produces (ofTree fork) [5, 6] ∧
    (Walk.ofDescendantsOrSelf (ofTree fork) 4).Produces (ofTree fork) [4, 5, 6] ∧
    (Walk.ofDescendants (ofTree fork) 5).Produces (ofTree fork) [] := by
  have hinner : (ofTree fork).tree? 4 = some (.node 4 [.node 5 [], .node 6 []]) := by
    rw [tree?_eq]
    rfl
  have hleaf : (ofTree fork).tree? 5 = some (.node 5 []) := by
    rw [tree?_eq]
    rfl
  obtain ⟨hbelow, hself, -⟩ := descendants_preorder (ofTree fork) 4 _ hinner
  obtain ⟨hnone, -⟩ := descendants_preorder (ofTree fork) 5 _ hleaf
  refine ⟨?_, ?_, ?_⟩
  · exact (hbelow _ List.mem_cons_self _).2 rfl
  · exact (hself _ List.mem_cons_self _).2 rfl
  · exact (hnone _ List.mem_cons_self _).2 rfl

end Document

end TreeMetrics
