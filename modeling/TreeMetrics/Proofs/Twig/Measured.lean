import Mathlib.Algebra.GroupWithZero.Nat
import TreeMetrics.Proofs.Document.ListView
import TreeMetrics.Twig.Catalog

namespace TreeMetrics.Twig

open Document

def isOf (k : Kind) (t : Tree Node) : Bool := t.label.kind == k

def body? (m : Tree Node) : Option (Tree Node) := m.children.find? (isOf .block)

def isConcrete (m : Tree Node) : Bool := isOf .methodDeclaration m && (body? m).isSome

def isDecision (t : Tree Node) : Bool :=
  isOf .ifStatement t || isOf .whileStatement t || isOf .conditionalExpression t

mutual

/-- The conjunctions and disjunctions of a condition. A conditional expression inside is a decision
of its own and is not entered. -/
def booleanPaths : Tree Node → Nat
  | .node n ts =>
    if n.kind = .conditionalExpression then 0
    else (if isBooleanOperator n then 1 else 0) + booleanPathsAll ts

def booleanPathsAll : List (Tree Node) → Nat
  | [] => 0
  | t :: ts => booleanPaths t + booleanPathsAll ts

end

/-- The operators that a decision examines, which are those of its first child. -/
def examinedBy (d : Tree Node) : Nat := (d.children.head?.map booleanPaths).getD 0

def decisionPaths (countBoolean : Bool) (d : Tree Node) : Nat :=
  if countBoolean then 1 + examinedBy d else 1

/-- The paths that the decisions of a method add to one. -/
def addedPaths (countBoolean : Bool) (m : Tree Node) : Nat :=
  ((m.descendants.filter isDecision).map (decisionPaths countBoolean)).sum

def statementsBelow (m : Tree Node) : Nat := m.descendants.countP fun t => t.label.kind.isStatement

/-- What counts towards the statements of a class: its members and the statements in them. -/
def isCounted (t : Tree Node) : Bool :=
  t.label.kind.isStatement || isOf .fieldDeclaration t || isOf .methodDeclaration t

def countedBelow (c : Tree Node) : Nat := c.descendants.countP isCounted

def importCount (unit : Tree Node) : Nat := unit.children.countP (isOf .importDeclaration)

def publicFields (c : Tree Node) : Nat :=
  c.children.countP fun t => isOf .fieldDeclaration t && t.label.modifiers.isPublic

def isAccessor (m : Tree Node) : Bool :=
  isOf .methodDeclaration m && (m.label.modifiers.isPublic &&
    m.label.image.any isAccessorName && (body? m).any fun b => b.children.length == 1)

def accessors (c : Tree Node) : Nat := c.children.countP isAccessor

def importsBeside (doc : Document Node) (n : NodeId) : Nat :=
  match (doc.parent? n).bind doc.tree? with
  | some unit => importCount unit
  | none => 0

theorem Kind.ofText?_text (k : Kind) : ofText? k.text = some k := by
  cases k <;> rfl

theorem Kind.text_injective : Function.Injective text := by
  intro k l h
  have hl := ofText?_text l
  rw [← h, ofText?_text] at hl
  exact Option.some.inj hl

theorem booleanPathsAll_eq_sum (ts : List (Tree Node)) :
    booleanPathsAll ts = (ts.map booleanPaths).sum := by
  induction ts with
  | nil => rfl
  | cons t ts ih => rw [booleanPathsAll, ih, List.map_cons, List.sum_cons]

variable {doc : Document Node} {n index : Nat} {parent : Option NodeId} {t c : Tree Node}

theorem labelAt_eq (h : doc.Stands n t parent index) : labelAt doc n = t.label := by
  rw [labelAt, h.label?]
  rfl

theorem kindIs_eq (h : doc.Stands n t parent index) (k : Kind) : kindIs doc k n = isOf k t := by
  rw [kindIs, labelAt_eq h, isOf]

theorem kindIs_of_le {k : Kind} (h : doc.size ≤ n) (hk : k ≠ .compilationUnit) :
    kindIs doc k n = false := by
  rw [kindIs, labelAt, entry?_of_le h]
  exact beq_false_of_ne hk.symm

theorem isKind_text (h : doc.Stands n t parent index) (k : Kind) :
    doc.isKind k.text n = isOf k t := by
  have hkind : doc.kind? n = some t.label.kind.text := by
    rw [kind?, h.entry?]
    rfl
  rw [isKind, hkind, isOf, Bool.eq_iff_iff, beq_iff_eq, beq_iff_eq, Option.some_inj]
  exact Kind.text_injective.eq_iff

theorem exists_stands_of_isKind {k : String} (h : doc.isKind k n = true) :
    ∃ t parent index, doc.Stands n t parent index := by
  apply exists_stands
  apply Nat.lt_of_not_le
  intro hn
  rw [isKind, kind?, entry?_of_le hn] at h
  cases h

/-- The children of a kind stand behind a node with their trees. -/
theorem forall₂_ofKind (h : doc.Stands n c parent index) (k : Kind) :
    List.Forall₂ (fun m t => ∃ i, doc.Stands m t (some n) i)
      ((doc.children n).filter (doc.isKind k.text)) (c.children.filter (isOf k)) := by
  apply List.rel_filter _ h.forall₂_children
  intro m t hm
  obtain ⟨i, hm⟩ := hm
  dsimp only
  rw [isKind_text hm]

theorem children_ofKind {α : Type} [HasKind α] (doc : Document α) (k : String) (n : NodeId) :
    Operations.children k doc n = (doc.children n).filter (doc.isKind k) := by
  rw [Operations.children, Stream.toList_filtered, Stream.toList_ofChildren, Filter.ofKind,
    Filter.filterMap_keep]

theorem operations_eq (doc : Document Node) (c : NodeId) :
    operations doc c = (doc.children c).filter (doc.isKind Kind.methodDeclaration.text) :=
  children_ofKind doc _ c

theorem methodBody?_eq (h : doc.Stands n t parent index) :
    Option.Rel (fun b u => ∃ i, doc.Stands b u (some n) i) (methodBody? doc n) (body? t) := by
  have hblocks := forall₂_ofKind h .block
  rw [methodBody?, firstChildOfKind?_eq_find?, body?, ← List.head?_filter, ← List.head?_filter]
  generalize (doc.children n).filter _ = ns at hblocks
  generalize t.children.filter _ = ts at hblocks
  cases hblocks with
  | nil => exact .none
  | cons hb _ => exact .some hb

theorem any_methodBody? (h : doc.Stands n t parent index) {p : NodeId → Bool}
    {q : Tree Node → Bool} (hpq : ∀ {b u i}, doc.Stands b u (some n) i → p b = q u) :
    (methodBody? doc n).any p = (body? t).any q := by
  have hbody := methodBody?_eq h
  generalize methodBody? doc n = b at hbody ⊢
  generalize body? t = u at hbody ⊢
  cases hbody with
  | none => rfl
  | some hb =>
    obtain ⟨i, hb⟩ := hb
    exact hpq hb

theorem isSome_methodBody? (h : doc.Stands n t parent index) :
    (methodBody? doc n).isSome = (body? t).isSome := by
  rw [← Option.any_true, ← Option.any_true]
  exact any_methodBody? h fun _ => rfl

theorem isConcreteAt_eq (h : doc.Stands n t parent index) : isConcreteAt doc n = isConcrete t := by
  rw [isConcreteAt, kindIs_eq h, isSome_methodBody? h, isConcrete]

theorem length_children (h : doc.Stands n t parent index) :
    (doc.children n).length = t.children.length :=
  h.forall₂_children.length_eq

theorem isAccessorAt_eq (h : doc.Stands n t parent index) :
    isAccessorAt doc n = (t.label.modifiers.isPublic && t.label.image.any isAccessorName &&
      (body? t).any fun b => b.children.length == 1) := by
  have hbody : (methodBody? doc n).any (fun b => (doc.children b).length == 1) =
      (body? t).any fun b => b.children.length == 1 :=
    any_methodBody? h fun hb => by rw [length_children hb]
  rw [isAccessorAt, labelAt_eq h, hbody]

theorem decidesAt_eq (h : doc.Stands n t parent index) : decidesAt doc n = isDecision t := by
  rw [decidesAt, kindIs_eq h, kindIs_eq h, kindIs_eq h, isDecision]

theorem countWhere_eq (s : Stream doc) (p : NodeId → Bool) :
    countWhere s p = Number.ofCount ((s.toList doc).countP p) := by
  rw [countWhere, Stream.count_eq_length, Stream.toList_filtered, Filter.filterMap_keep,
    List.countP_eq_length_filter]

section Counts

variable {p : NodeId → Bool} {q : Tree Node → Bool}

theorem countWhere_descendants (h : doc.Stands n t parent index)
    (hpq : ∀ {m u parent index}, doc.Stands m u parent index → p m = q u) :
    countWhere (.walk (.ofDescendants doc n)) p = Number.ofCount (t.descendants.countP q) := by
  rw [countWhere_eq]
  exact congrArg Number.ofCount (h.countP_descendants hpq)

theorem countWhere_children (h : doc.Stands n t parent index)
    (hpq : ∀ {m u parent index}, doc.Stands m u parent index → p m = q u) :
    countWhere (.walk (.ofChildren doc n)) p = Number.ofCount (t.children.countP q) := by
  rw [countWhere_eq, Stream.toList_ofChildren]
  exact congrArg Number.ofCount
    (countP_of_forall₂ (h.forall₂_children.imp fun _ _ ⟨_, hm⟩ => hpq hm))

theorem countWhere_childrenOf (h : doc.Stands n t parent index) (k : Kind)
    (hpq : ∀ {m u parent index}, doc.Stands m u parent index → p m = q u) :
    countWhere (childrenOf doc k n) p =
      Number.ofCount (t.children.countP fun u => isOf k u && q u) := by
  have hchildren : (childrenOf doc k n).toList doc = (doc.children n).filter (doc.isKind k.text) :=
    children_ofKind doc k.text n
  rw [countWhere_eq, hchildren,
    countP_of_forall₂ ((forall₂_ofKind h k).imp fun _ _ ⟨_, hm⟩ => hpq hm), List.countP_filter]
  simp only [Bool.and_comm]

end Counts

theorem methodNcssAt_eq (h : doc.Stands n t parent index) :
    methodNcssAt doc n = 1.0 + Number.ofCount (statementsBelow t) := by
  rw [methodNcssAt, countWhere_descendants h fun hm => by rw [labelAt_eq hm], statementsBelow]

theorem importsBeside_eq {p i : Nat} (hc : doc.Stands n c parent index)
    (h : doc.Stands p t (some n) i) : importsBeside doc p = importCount c := by
  rw [importsBeside, h.parent?, Option.bind_some, hc.tree?]

theorem importsAt_eq (h : doc.Stands n t parent index) :
    importsAt doc n = Number.ofCount (importsBeside doc n) := by
  cases h with
  | root =>
    rw [importsAt, importsBeside, Stands.root.parent?]
    show (0.0 : Float) = Number.ofCount 0
    decide
  | child hp =>
    have hc := Stands.child hp
    rw [importsBeside_eq hp hc, importsAt, hc.parent?]
    exact countWhere_children hp fun hm => kindIs_eq hm _

theorem classNcssAt_eq (h : doc.Stands n t parent index) (countImports : Bool) :
    classNcssAt doc countImports n =
      if countImports then
        1.0 + Number.ofCount (countedBelow t) + Number.ofCount (importsBeside doc n)
      else 1.0 + Number.ofCount (countedBelow t) := by
  have hcounted : ∀ {m u parent index}, doc.Stands m u parent index →
      ((labelAt doc m).kind.isStatement || kindIs doc .fieldDeclaration m ||
        kindIs doc .methodDeclaration m) = isCounted u := by
    intro m u _ _ hm
    rw [labelAt_eq hm, kindIs_eq hm, kindIs_eq hm, isCounted]
  rw [classNcssAt, importsAt_eq h, countedBelow, countWhere_descendants h hcounted]

theorem nopaAt_eq (h : doc.Stands n t parent index) :
    nopaAt doc n = Number.ofCount (publicFields t) := by
  rw [nopaAt, countWhere_childrenOf h _ fun hm => by rw [labelAt_eq hm], publicFields]

theorem noamAt_eq (h : doc.Stands n t parent index) :
    noamAt doc n = Number.ofCount (accessors t) := by
  rw [noamAt, countWhere_childrenOf h _ fun hm => isAccessorAt_eq hm, accessors]
  rfl

theorem locAt_eq (h : doc.Stands n t parent index) :
    locAt doc n = Number.ofCount (lineCount t.label) := by
  rw [locAt, labelAt_eq h]

/-- With steps for all nodes of the trees on the stack, their operators are counted. A node comes
off the stack and its children, in reverse, come onto it in its place. -/
theorem booleanPathsWithin_eq {steps count : Nat} {ns : List NodeId} {ts : List (Tree Node)}
    (h : List.Forall₂ (fun m u => ∃ parent index, doc.Stands m u parent index) ns ts)
    (hsteps : doc.subtreeSizes ns ≤ steps) :
    booleanPathsWithin doc steps count ns = count + booleanPathsAll ts := by
  induction steps generalizing count ns ts with
  | zero =>
    cases h with
    | nil => rfl
    | @cons n _ ns =>
      have hlength : (n :: ns).length ≤ doc.subtreeSizes (n :: ns) := length_le_subtreeSizes _
      rw [List.length_cons] at hlength
      omega
  | succ steps ih =>
    cases h with
    | nil => rfl
    | @cons n t ns ts hn hns =>
      obtain ⟨parent, index, hn⟩ := hn
      obtain ⟨a, us⟩ := t
      have hsizes := subtreeSizes_children doc n
      rw [subtreeSizes_cons] at hsteps
      rw [booleanPathsWithin, booleanPathsAll, booleanPaths, kindIs_eq hn, labelAt_eq hn,
        Stream.toList_ofChildren]
      by_cases ha : a.kind = .conditionalExpression
      · have hk : isOf .conditionalExpression (.node a us) = true := beq_iff_eq.2 ha
        rw [if_pos hk, if_pos ha, ih hns (by omega), Nat.zero_add]
      · have hchildren : List.Forall₂ (fun m u => ∃ parent index, doc.Stands m u parent index)
            (doc.children n).reverse us.reverse :=
          List.forall₂_reverse_iff.2 (hn.forall₂_children.imp fun _ _ ⟨i, hm⟩ => ⟨_, i, hm⟩)
        have hsum : booleanPathsAll (us.reverse ++ ts) =
            booleanPathsAll us + booleanPathsAll ts := by
          simp only [booleanPathsAll_eq_sum, List.map_append, List.map_reverse, List.sum_append,
            List.sum_reverse]
        have hstack : doc.subtreeSizes ((doc.children n).reverse ++ ns) ≤ steps := by
          rw [subtreeSizes_append, subtreeSizes_reverse]
          omega
        have hk : ¬isOf .conditionalExpression (.node a us) = true := fun hk => ha (beq_iff_eq.1 hk)
        rw [if_neg hk, if_neg ha, ih (List.rel_append hchildren hns) hstack, hsum, Tree.label]
        cases isBooleanOperator a with
        | false =>
          rw [if_neg Bool.false_ne_true, if_neg Bool.false_ne_true]
          omega
        | true =>
          rw [if_pos rfl, if_pos rfl]
          omega

theorem booleanPathsAt_eq (h : doc.Stands n t parent index) :
    booleanPathsAt doc n = booleanPaths t := by
  have hsize : doc.subtreeSizes [n] ≤ doc.subtreeSize n := by
    rw [subtreeSizes_cons]
    exact Nat.le_refl _
  rw [booleanPathsAt, booleanPathsWithin_eq (.cons ⟨parent, index, h⟩ .nil) hsize, booleanPathsAll,
    booleanPathsAll]
  omega

theorem decisionPathsAt_eq (h : doc.Stands n t parent index) (ht : t.children ≠ [])
    (countBoolean : Bool) :
    decisionPathsAt doc countBoolean n = .ok (decisionPaths countBoolean t) := by
  cases countBoolean with
  | false => rfl
  | true =>
    obtain ⟨a, ts⟩ := t
    cases ts with
    | nil => exact absurd rfl ht
    | cons u ts =>
      have hfirst := h.forall₂_children
      cases hc : doc.children n with
      | nil =>
        rw [hc] at hfirst
        cases hfirst
      | cons c cs =>
        rw [hc] at hfirst
        cases hfirst with
        | cons hu _ =>
          obtain ⟨i, hu⟩ := hu
          have hchild : doc.child n 0 = .ok c := child_of_child? (by rw [child?, hc]; rfl)
          rw [decisionPathsAt, if_pos rfl, hchild, decisionPaths, if_pos rfl]
          exact congrArg (fun k => Except.ok (1 + k)) (booleanPathsAt_eq hu)

/-- Where all decisions have conditions the paths of a method are those of its tree. -/
theorem cycloAt_eq (h : doc.Stands n t parent index)
    (ht : ∀ d ∈ t.descendants, isDecision d = true → d.children ≠ []) (countBoolean : Bool) :
    cycloAt doc countBoolean n = .ok (1.0 + Number.ofCount (addedPaths countBoolean t)) := by
  have hrows : List.Forall₂ (fun m u => ∃ parent index, doc.Stands m u parent index)
      ((doc.descendants n).filter (decidesAt doc)) (t.descendants.filter isDecision) := by
    apply List.rel_filter _ h.forall₂_descendants
    intro m u hm
    obtain ⟨_, _, hm⟩ := hm
    dsimp only
    rw [decidesAt_eq hm]
  have hpaths : ((doc.descendants n).filter (decidesAt doc)).mapM (decisionPathsAt doc
      countBoolean) =
        pure ((t.descendants.filter isDecision).map (decisionPaths countBoolean)) := by
    apply mapM_of_forall₂ (R := fun m k => decisionPathsAt doc countBoolean m = .ok k)
    · have hconditions : ∀ d ∈ t.descendants.filter isDecision, d.children ≠ [] := by
        intro d hd
        obtain ⟨hd, hdec⟩ := List.mem_filter.1 hd
        exact ht d hd hdec
      rw [List.forall₂_map_right_iff]
      apply ((List.forall₂_and_left _ _).2 ⟨hconditions, hrows.flip⟩).flip.imp
      rintro m d ⟨hd, _, _, hm⟩
      exact decisionPathsAt_eq hm hd countBoolean
    · intro m k _ hk
      exact hk
  have hdecisions :
      (Stream.filtered (.walk (.ofDescendants doc n)) (.keep (decidesAt doc))).toList doc =
      (doc.descendants n).filter (decidesAt doc) := by
    rw [Stream.toList_filtered, Filter.filterMap_keep]
    rfl
  rw [cycloAt, hdecisions, hpaths, addedPaths, List.sum_eq_foldl]
  rfl

end TreeMetrics.Twig
