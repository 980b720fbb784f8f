import TreeMetrics.Proofs.Document.Axes
import TreeMetrics.Proofs.Twig.Schema

namespace TreeMetrics.Twig

/-- How far below the file nodes of a kind stand, where everything inside members is one layer. -/
def Kind.layer : Kind → Nat
  | compilationUnit => 0
  | importDeclaration | classDeclaration => 1
  | fieldDeclaration | methodDeclaration => 2
  | _ => 3

/-- Every node of the tree stands on the layer below its parent, if there is one. -/
inductive Layered : Tree Node → Prop where
  | node {a : Node} {ts : List (Tree Node)} :
    (∀ t ∈ ts, t.label.kind.layer = min 3 (a.kind.layer + 1)) → (∀ t ∈ ts, Layered t) →
    Layered (.node a ts)

/-- A layered tree whose root is on the given layer. -/
def OnLayer (n : Nat) (t : Tree Node) : Prop := t.label.kind.layer = n ∧ Layered t

variable {t : Tree Node} {ts : List (Tree Node)} {a : Node} {n : Nat}

theorem OnLayer.of_children (ha : a.kind.layer = n) (hts : ∀ t ∈ ts, OnLayer (min 3 (n + 1)) t) :
    OnLayer n (.node a ts) := by
  subst ha
  exact ⟨rfl, .node (fun t ht => (hts t ht).1) fun t ht => (hts t ht).2⟩

theorem IsExpression.onLayer (h : IsExpression t) : OnLayer 3 t := by
  induction h with
  | name _ | literal _ => exact .of_children rfl (List.forall_mem_nil _)
  | assignment _ _ target value =>
    exact .of_children rfl (List.forall_mem_cons.2 ⟨target, List.forall_mem_singleton.2 value⟩)
  | conditional _ _ _ condition yes no =>
    exact .of_children rfl (List.forall_mem_cons.2 ⟨condition, List.forall_mem_cons.2
      ⟨yes, List.forall_mem_singleton.2 no⟩⟩)
  | binary _ _ _ left right =>
    exact .of_children rfl (List.forall_mem_cons.2 ⟨left, List.forall_mem_singleton.2 right⟩)
  | negation _ operand => exact .of_children rfl (List.forall_mem_singleton.2 operand)
  | call _ _ callee args =>
    exact .of_children rfl (List.forall_mem_cons.2 ⟨callee, List.forall_mem_singleton.2
      (.of_children rfl args)⟩)

theorem IsStatement.onLayer (h : IsStatement t) : OnLayer 3 t := by
  induction h with
  | block _ body => exact .of_children rfl body
  | branch condition _ body | loop condition _ body =>
    exact .of_children rfl
      (List.forall_mem_cons.2 ⟨condition.onLayer, List.forall_mem_singleton.2 body⟩)
  | otherwise condition _ _ _ body other =>
    exact .of_children rfl (List.forall_mem_cons.2 ⟨condition.onLayer, List.forall_mem_cons.2
      ⟨body, List.forall_mem_singleton.2 (.of_children rfl (List.forall_mem_singleton.2 other))⟩⟩)
  | exit => exact .of_children rfl (List.forall_mem_nil _)
  | give value | expression value =>
    exact .of_children rfl (List.forall_mem_singleton.2 value.onLayer)

theorem IsMember.onLayer (h : IsMember t) : OnLayer 2 t := by
  have hparams {b e params} (h : ∀ p ∈ params, IsParameter p) :
      OnLayer 3 (.node (.plain .formalParameters b e) params) := by
    apply OnLayer.of_children rfl
    intro p hp
    obtain ⟨_⟩ := h p hp
    exact .of_children rfl (List.forall_mem_nil _)
  cases h with
  | field _ => exact .of_children rfl (List.forall_mem_nil _)
  | declaration _ params => exact .of_children rfl (List.forall_mem_singleton.2 (hparams params))
  | method _ params body =>
    have hbody {b e} : OnLayer 3 (.node (.plain .block b e) _) :=
      .of_children rfl fun s hs => (body s hs).onLayer
    exact .of_children rfl
      (List.forall_mem_cons.2 ⟨hparams params, List.forall_mem_singleton.2 hbody⟩)

theorem IsFile.onLayer (h : IsFile t) : OnLayer 0 t := by
  obtain ⟨imports, classes⟩ := h
  apply OnLayer.of_children rfl
  intro u hu
  rcases List.mem_append.1 hu with hu | hu
  · obtain ⟨_⟩ := imports u hu
    exact .of_children rfl (List.forall_mem_nil _)
  · obtain ⟨_, members⟩ := classes u hu
    exact .of_children rfl fun m hm => (members m hm).onLayer

theorem Layered.layer_le (h : Layered t) :
    ∀ u ∈ t.subtrees, t.label.kind.layer ≤ u.label.kind.layer := by
  induction h with
  | @node a ts hlayer _ ih =>
    intro u hu
    rw [Tree.subtrees, Tree.subtreesAll_eq_flatMap, List.mem_cons, List.mem_flatMap] at hu
    rcases hu with rfl | ⟨v, hv, hu⟩
    · exact Nat.le_refl _
    · have hvu := ih v hv u hu
      have ha : a.kind.layer ≤ 3 := by cases a.kind <;> decide
      rw [hlayer v hv] at hvu
      rw [Tree.label]
      omega

theorem OnLayer.le_of_mem_descendants {u : Tree Node} (h : OnLayer n t)
    (hu : u ∈ t.descendants) : min 3 (n + 1) ≤ u.label.kind.layer := by
  obtain ⟨rfl, ⟨hlayer, hts⟩⟩ := h
  rw [Tree.descendants, Tree.subtreesAll_eq_flatMap, List.mem_flatMap] at hu
  obtain ⟨v, hv, hu⟩ := hu
  have hvu := (hts v hv).layer_le u hu
  rw [hlayer v hv] at hvu
  exact hvu

open Document

variable {doc : Document Node} {k m index : Nat} {parent : Option NodeId} {u : Tree Node}

theorem Layered.of_stands (hdoc : Layered doc.tree) (h : doc.Stands k t parent index) :
    Layered t := by
  induction h with
  | root => exact hdoc
  | child _ ih =>
    obtain ⟨-, ih⟩ := ih
    exact ih _ (List.mem_append_right _ List.mem_cons_self)

/-- A declaration is the file or stands on the layer right below its parent. -/
theorem OnLayer.exists_above (hdoc : OnLayer 0 doc.tree) (h : doc.Stands k t parent index)
    (hk : t.label.kind.layer < 3) :
    (t = doc.tree ∧ t.label.kind.layer = 0) ∨
      ∃ p u grand i, doc.Stands p u grand i ∧ t ∈ u.children ∧
        t.label.kind.layer = u.label.kind.layer + 1 := by
  cases h with
  | root => exact .inl ⟨rfl, hdoc.1⟩
  | @child p a us v vs grand i hp =>
    obtain ⟨hlayer, -⟩ := hdoc.2.of_stands hp
    have hmem : t ∈ us ++ t :: vs := List.mem_append_right _ List.mem_cons_self
    refine .inr ⟨p, _, grand, i, hp, hmem, ?_⟩
    have ht := hlayer t hmem
    rw [Tree.label]
    omega

/-- What stands on the layer of the members is a member of a class. -/
theorem IsFile.member_of_stands (hdoc : IsFile doc.tree) (h : doc.Stands k t parent index)
    (hk : t.label.kind.layer = 2) : IsMember t := by
  have hlayers := hdoc.onLayer
  rcases hlayers.exists_above h (by omega) with ⟨-, h0⟩ | ⟨p, u, grand, i, hu, htu, h1⟩
  · omega
  rcases hlayers.exists_above hu (by omega) with ⟨-, h0⟩ | ⟨q, v, grand', j, hv, huv, h2⟩
  · omega
  rcases hlayers.exists_above hv (by omega) with ⟨rfl, -⟩ | ⟨_, w, _, _, _, _, h3⟩
  · generalize doc.tree = file at hdoc huv
    obtain ⟨imports, classes⟩ := hdoc
    rcases List.mem_append.1 huv with hu | hu
    · obtain ⟨_⟩ := imports u hu
      cases htu
    · obtain ⟨_, members⟩ := classes u hu
      exact members t htu
  · omega

/-- The nodes above a declaration stand on higher layers than it does. -/
theorem Layered.layer_lt (hdoc : Layered doc.tree) (h : doc.Stands k t parent index)
    (hk : t.label.kind.layer < 3) (hm : m ∈ doc.ancestors k) :
    ∃ u parent index, doc.Stands m u parent index ∧ u.label.kind.layer < t.label.kind.layer := by
  induction h with
  | root =>
    rw [ancestors_of_none Stands.root.parent?] at hm
    cases hm
  | @child p a us v vs parent index hp ih =>
    obtain ⟨hlayer, -⟩ := hdoc.of_stands hp
    have hv := hlayer v (List.mem_append_right _ List.mem_cons_self)
    rw [ancestors_of_parent? (Stands.child hp).parent?, List.mem_cons] at hm
    rcases hm with rfl | hm
    · refine ⟨_, parent, index, hp, ?_⟩
      rw [hv, Tree.label]
      omega
    · have hlt : (Tree.node a (us ++ v :: vs)).label.kind.layer < 3 := by
        rw [Tree.label]
        omega
      obtain ⟨w, parent', index', hw, hlayer⟩ := ih hlt hm
      refine ⟨w, parent', index', hw, Nat.lt_trans hlayer ?_⟩
      rw [hv, Tree.label]
      omega

end TreeMetrics.Twig
