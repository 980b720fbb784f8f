import TreeMetrics.Proofs.Twig.Layers
import TreeMetrics.Proofs.Twig.Locality
import TreeMetrics.Proofs.Twig.Shape

namespace TreeMetrics.Twig

open Document TreeMetrics.Tree

variable {doc : Document Node} {n p index : Nat} {parent : Option NodeId}
variable {t u : Tree Node} {ts us vs : List (Tree Node)} {a : Node}

/-- The flow of control divides at the node. -/
def decides (doc : Document Node) (n : NodeId) : Bool := (doc.tree? n).any isDecision

def joins (doc : Document Node) (n : NodeId) : Bool :=
  (doc.tree? n).any fun t => isBooleanOperator t.label

/-- The node stands in the condition of the nearest decision above it, which is the first child of
that decision. -/
def inCondition (doc : Document Node) (n : NodeId) : Bool :=
  ((doc.ancestors n).find? (decides doc)).any fun d =>
    (doc.child? d 0).any fun c => n == c || (doc.ancestors n).contains c

/-- The decisions below a node and, unless they are to be ignored, the conjunctions and disjunctions
in the condition of the nearest decision above them. -/
def dividesBelow (doc : Document Node) (o : OptionSet) (n : NodeId) : Nat :=
  (doc.descendants n).countP (decides doc) +
    if o.contains ignoreBooleanPaths then 0
    else (doc.descendants n).countP fun b => joins doc b && inCondition doc b

theorem decides_eq (h : doc.Stands n t parent index) : decides doc n = isDecision t := by
  rw [decides, h.tree?, Option.any_some]

theorem joins_eq (h : doc.Stands n t parent index) : joins doc n = isBooleanOperator t.label := by
  rw [joins, h.tree?, Option.any_some]

theorem inCondition_of_decides (h : doc.Stands p (.node a (us ++ u :: vs)) parent index)
    (hd : decides doc p = true) : inCondition doc (p + 1 + sizeAll us) = us.isEmpty := by
  have hu : doc.Stands (p + 1 + sizeAll us) u (some p) us.length := .child h
  have hanc : doc.ancestors (p + 1 + sizeAll us) = p :: doc.ancestors p :=
    ancestors_of_parent? hu.parent?
  have hfirst : doc.child? p 0 = some (p + 1) := by
    rw [child?, h.children]
    cases us with
    | nil => rfl
    | cons v us => rfl
  have hout : (p :: doc.ancestors p).contains (p + 1) = false := by
    rw [List.contains_eq_mem, decide_eq_false_iff_not, List.mem_cons]
    rintro (he | hm)
    · omega
    · have hlt := h.lt_of_mem_ancestors hm
      omega
  rw [inCondition, hanc, List.find?_cons_of_pos hd, Option.any_some, hfirst, Option.any_some, hout,
    Bool.or_false]
  cases us with
  | nil => exact beq_self_eq_true _
  | cons v us =>
    have hpos := v.size_pos
    have hne : p + 1 + sizeAll (v :: us) ≠ p + 1 := by
      rw [sizeAll]
      omega
    exact beq_false_of_ne hne

theorem inCondition_of_not_decides (h : doc.Stands p (.node a (us ++ u :: vs)) parent index)
    (hd : decides doc p = false) : inCondition doc (p + 1 + sizeAll us) = inCondition doc p := by
  have hu : doc.Stands (p + 1 + sizeAll us) u (some p) us.length := .child h
  have hanc : doc.ancestors (p + 1 + sizeAll us) = p :: doc.ancestors p :=
    ancestors_of_parent? hu.parent?
  rw [inCondition, inCondition, hanc, List.find?_cons_of_neg (by rw [hd]; exact Bool.false_ne_true)]
  cases hfind : (doc.ancestors p).find? (decides doc) with
  | none => rfl
  | some d =>
    have hlt := h.lt_of_mem_ancestors (List.mem_of_find?_eq_some hfind)
    rw [Option.any_some, Option.any_some]
    cases hc : doc.child? d 0 with
    | none => rfl
    | some c =>
      have hlen : 0 < (doc.children d).length := by
        rw [child?] at hc
        exact (List.getElem?_eq_some_iff.1 hc).1
      obtain ⟨c', hc', hparent, -, -⟩ := exists_child hlen
      rw [child_of_child? hc] at hc'
      cases hc'
      -- The condition of a decision further up is no child of the node.
      have hne : p + 1 + sizeAll us ≠ c := by
        rintro rfl
        rw [hu.parent?] at hparent
        cases hparent
        omega
      rw [Option.any_some, Option.any_some, beq_false_of_ne hne, Bool.false_or, List.contains_cons,
        Bool.beq_comm]

mutual

/-- The conjunctions and disjunctions in the condition of the nearest decision above them, given
whether the tree itself stands in one. -/
def operatorsIn (inside : Bool) : Tree Node → Nat
  | .node a ts =>
    (if isBooleanOperator a && inside then 1 else 0) +
      if isDecision (.node a ts) then operatorsInAll true false ts
      else operatorsInAll inside inside ts

/-- Those of several trees, given whether the first and whether the others stand in a condition. -/
def operatorsInAll (first others : Bool) : List (Tree Node) → Nat
  | [] => 0
  | t :: ts => operatorsIn first t + operatorsInAll others others ts

end

/-- Operators are counted over nodes as they are over trees. -/
theorem countP_inCondition (h : doc.Stands n t parent index) :
    (doc.interval n).countP (fun m => joins doc m && inCondition doc m) =
      operatorsIn (inCondition doc n) t := by
  induction t using Tree.induction generalizing n parent index with
  | h a ts ih =>
    have hrest (us vs : List (Tree Node)) (hts : ts = us ++ vs) :
        ((siblingIds (n + 1 + sizeAll us) vs).flatMap doc.interval).countP
            (fun m => joins doc m && inCondition doc m) =
          if isDecision (.node a ts) then operatorsInAll us.isEmpty false vs
          else operatorsInAll (inCondition doc n) (inCondition doc n) vs := by
      induction vs generalizing us with
      | nil =>
        split
        all_goals rfl
      | cons v vs ihvs =>
        have hv := ih v (hts ▸ List.mem_append_right _ List.mem_cons_self) (.child (hts ▸ h))
        have hvs := ihvs (us ++ [v]) (hts.trans (List.append_cons us v vs))
        rw [sizeAll_concat, ← Nat.add_assoc] at hvs
        rw [siblingIds, List.flatMap_cons, List.countP_append, hv, hvs]
        have hd := decides_eq h
        subst hts
        split
        · rename_i hdec
          rw [inCondition_of_decides h (hd.trans hdec), operatorsInAll]
          congr 2
          cases us
          all_goals rfl
        · rename_i hdec
          rw [Bool.not_eq_true] at hdec
          rw [inCondition_of_not_decides h (hd.trans hdec), operatorsInAll]
    have hall := hrest [] ts rfl
    rw [Stream.interval_eq, List.countP_cons, h.children, Tree.children, operatorsIn, joins_eq h,
      Nat.add_comm]
    exact congrArg _ hall

/-- The operators that the decisions of a tree examine. -/
def examined (t : Tree Node) : Nat := ((t.subtrees.filter isDecision).map examinedBy).sum

theorem examined_node (a : Node) (ts : List (Tree Node)) :
    examined (.node a ts) =
      (if isDecision (.node a ts) then examinedBy (.node a ts) else 0) + (ts.map examined).sum := by
  have hall : ((subtreesAll ts).filter isDecision |>.map examinedBy).sum =
      (ts.map examined).sum := by
    induction ts with
    | nil => rfl
    | cons t ts ih =>
      rw [subtreesAll, List.filter_append, List.map_append, List.sum_append, ih, List.map_cons,
        List.sum_cons, examined]
  rw [examined, subtrees, List.filter_cons]
  split
  · rw [List.map_cons, List.sum_cons, hall]
  · rw [hall, Nat.zero_add]

/-- Outside of conditions the decisions of a tree examine the operators in their conditions. -/
def Outside (t : Tree Node) : Prop := examined t = operatorsIn false t

/-- Inside a condition the operators are examined either by the decision with the condition or by
decisions of their own. -/
def Inside (t : Tree Node) : Prop := booleanPaths t + examined t = operatorsIn true t

theorem sum_examined (h : ∀ t ∈ ts, Outside t) :
    (ts.map examined).sum = operatorsInAll false false ts := by
  induction ts with
  | nil => rfl
  | cons t ts ih =>
    obtain ⟨ht, hts⟩ := List.forall_mem_cons.1 h
    rw [List.map_cons, List.sum_cons, operatorsInAll, ht, ih hts]

theorem sum_booleanPaths (h : ∀ t ∈ ts, Inside t) :
    booleanPathsAll ts + (ts.map examined).sum = operatorsInAll true true ts := by
  induction ts with
  | nil => rfl
  | cons t ts ih =>
    obtain ⟨ht, hts⟩ := List.forall_mem_cons.1 h
    rw [List.map_cons, List.sum_cons, operatorsInAll, booleanPathsAll, ← ht, ← ih hts]
    omega

theorem Outside.undecided (ha : isDecision (.node a ts) = false) (h : ∀ t ∈ ts, Outside t) :
    Outside (.node a ts) := by
  rw [Outside, examined_node, operatorsIn, ha, sum_examined h, Bool.and_false]
  rfl

theorem Outside.decision (ha : isDecision (.node a (t :: ts)) = true) (ht : Inside t)
    (h : ∀ t ∈ ts, Outside t) : Outside (.node a (t :: ts)) := by
  have hby : examinedBy (.node a (t :: ts)) = booleanPaths t := rfl
  rw [Outside, examined_node, operatorsIn, ha, if_pos rfl, if_pos rfl, hby, List.map_cons,
    List.sum_cons, operatorsInAll, ← ht, sum_examined h, Bool.and_false, Nat.add_assoc]
  exact (Nat.zero_add _).symm

theorem Inside.undecided (ha : isDecision (.node a ts) = false) (h : ∀ t ∈ ts, Inside t) :
    Inside (.node a ts) := by
  have hkind : a.kind ≠ .conditionalExpression := by
    intro hk
    rw [isDecision, isOf, isOf, isOf, label, hk] at ha
    cases ha
  rw [Inside, examined_node, operatorsIn, ha, booleanPaths, if_neg hkind, ← sum_booleanPaths h,
    Bool.and_true, if_neg Bool.false_ne_true, if_neg Bool.false_ne_true, Nat.zero_add,
    Nat.add_assoc]

/-- A conditional expression hides its operators from the decision around it. -/
theorem Inside.conditional (ha : a.kind = .conditionalExpression) (ht : Inside t)
    (h : ∀ t ∈ ts, Outside t) : Inside (.node a (t :: ts)) := by
  have hdec : isDecision (.node a (t :: ts)) = true := by
    rw [isDecision, isOf, isOf, isOf, label, ha]
    rfl
  have hop : isBooleanOperator a = false := by
    rw [isBooleanOperator, ha]
    rfl
  have hout := Outside.decision hdec ht h
  rw [Outside, operatorsIn, hop, Bool.false_and] at hout
  rw [Inside, booleanPaths, if_pos ha, Nat.zero_add, operatorsIn, hop, Bool.false_and, hout, hdec]
  rfl

theorem IsExpression.attributed (h : IsExpression t) : Inside t ∧ Outside t := by
  have undecided {a : Node} {ts : List (Tree Node)} (ha : isDecision (.node a ts) = false)
      (h : ∀ t ∈ ts, Inside t ∧ Outside t) : Inside (.node a ts) ∧ Outside (.node a ts) :=
    ⟨.undecided ha fun t ht => (h t ht).1, .undecided ha fun t ht => (h t ht).2⟩
  induction h with
  | name _ | literal _ => exact undecided rfl (List.forall_mem_nil _)
  | assignment _ _ target value =>
    exact undecided rfl (List.forall_mem_cons.2 ⟨target, List.forall_mem_singleton.2 value⟩)
  | conditional _ _ _ condition yes no =>
    have hout := List.forall_mem_cons.2 ⟨yes.2, List.forall_mem_singleton.2 no.2⟩
    exact ⟨.conditional rfl condition.1 hout, .decision rfl condition.1 hout⟩
  | binary _ _ _ left right =>
    exact undecided rfl (List.forall_mem_cons.2 ⟨left, List.forall_mem_singleton.2 right⟩)
  | negation _ operand => exact undecided rfl (List.forall_mem_singleton.2 operand)
  | call _ _ callee args =>
    exact undecided rfl (List.forall_mem_cons.2 ⟨callee, List.forall_mem_singleton.2
      (undecided rfl args)⟩)

theorem IsStatement.outside (h : IsStatement t) : Outside t := by
  induction h with
  | block _ body => exact .undecided rfl body
  | branch condition _ body | loop condition _ body =>
    exact .decision rfl condition.attributed.1 (List.forall_mem_singleton.2 body)
  | otherwise condition _ _ _ body other =>
    exact .decision rfl condition.attributed.1 (List.forall_mem_cons.2 ⟨body,
      List.forall_mem_singleton.2 (.undecided rfl (List.forall_mem_singleton.2 other))⟩)
  | exit => exact .undecided rfl (List.forall_mem_nil _)
  | give value | expression value =>
    exact .undecided rfl (List.forall_mem_singleton.2 value.attributed.2)

theorem IsMember.outside (h : IsMember t) : Outside t := by
  have hparams {b e params} (h : ∀ p ∈ params, IsParameter p) :
      Outside (.node (.plain .formalParameters b e) params) := by
    apply Outside.undecided rfl
    intro p hp
    obtain ⟨_⟩ := h p hp
    exact .undecided rfl (List.forall_mem_nil _)
  cases h with
  | field _ => exact .undecided rfl (List.forall_mem_nil _)
  | declaration _ params => exact .undecided rfl (List.forall_mem_singleton.2 (hparams params))
  | method _ params body =>
    have hbody {b e} : Outside (.node (.plain .block b e) _) :=
      .undecided rfl fun s hs => (body s hs).outside
    exact .undecided rfl
      (List.forall_mem_cons.2 ⟨hparams params, List.forall_mem_singleton.2 hbody⟩)

theorem sum_decisionPaths (countBoolean : Bool) (ts : List (Tree Node)) :
    (ts.map (decisionPaths countBoolean)).sum =
      ts.length + if countBoolean then (ts.map examinedBy).sum else 0 := by
  induction ts with
  | nil =>
    cases countBoolean
    all_goals rfl
  | cons d ts ih =>
    rw [List.map_cons, List.sum_cons, ih, List.length_cons, decisionPaths]
    cases countBoolean with
    | false =>
      rw [if_neg Bool.false_ne_true, if_neg Bool.false_ne_true, if_neg Bool.false_ne_true]
      omega
    | true =>
      rw [if_pos rfl, if_pos rfl, if_pos rfl, List.map_cons, List.sum_cons]
      omega

/-- No decision stands above a member. -/
theorem inCondition_member (hdoc : IsFile doc.tree) (h : doc.Stands n t parent index)
    (ht : t.label.kind.layer < 3) : inCondition doc n = false := by
  have hnone : (doc.ancestors n).find? (decides doc) = none := by
    rw [List.find?_eq_none]
    intro m hm hd
    obtain ⟨u, parent', index', hu, hlt⟩ := hdoc.onLayer.2.layer_lt h ht hm
    rw [decides_eq hu, isDecision, isOf, isOf, isOf] at hd
    cases hk : u.label.kind with
    | ifStatement | whileStatement | conditionalExpression =>
      rw [hk] at hlt
      exact absurd (Nat.lt_trans hlt ht) (Nat.lt_irrefl 3)
    | _ =>
      rw [hk] at hd
      cases hd
  rw [inCondition, hnone]
  rfl

theorem kind_of_isConcrete (h : isConcrete t = true) : t.label.kind = .methodDeclaration := by
  rw [isConcrete, Bool.and_eq_true] at h
  exact of_decide_eq_true h.1

/-- The decisions of a method examine the operators in their conditions. -/
theorem sum_examinedBy (hdoc : IsFile doc.tree) (h : doc.Stands n t parent index)
    (ht : t.label.kind = .methodDeclaration) :
    ((t.descendants.filter isDecision).map examinedBy).sum =
      (doc.descendants n).countP fun b => joins doc b && inCondition doc b := by
  have hlayer : t.label.kind.layer = 2 := by
    rw [ht]
    rfl
  have hcount := countP_inCondition h
  have hout : examined t = operatorsIn false t := (hdoc.member_of_stands h hlayer).outside
  have hjoins : joins doc n = false := by
    rw [joins_eq h, isBooleanOperator, ht]
    rfl
  have hdec : isDecision t = false := by
    rw [isDecision, isOf, isOf, isOf, ht]
    rfl
  rw [inCondition_member hdoc h (by omega), ← hout, interval_eq_cons, List.countP_cons, hjoins,
    Bool.false_and, if_neg Bool.false_ne_true, Nat.add_zero] at hcount
  obtain ⟨a, ts⟩ := t
  rw [hcount, examined, subtrees, List.filter_cons_of_neg (by rw [hdec]; exact Bool.false_ne_true)]
  rfl

theorem exists_condition (hdoc : Conditioned doc.tree) (hd : decides doc n = true) :
    ∃ c, doc.child n 0 = .ok c := by
  cases hn : doc.tree? n with
  | none =>
    rw [decides, hn] at hd
    cases hd
  | some t =>
    obtain ⟨parent, index, hs⟩ := exists_stands_of_tree? hn
    rw [decides_eq hs] at hd
    have hne := (Report.conditioned_of_stands hdoc hs).children_ne_nil hd
    have hlen : 0 < (doc.children n).length := by
      rw [hs.children, length_siblingIds]
      exact List.length_pos_iff.2 hne
    obtain ⟨c, hc, -⟩ := exists_child hlen
    exact ⟨c, hc⟩

theorem addedPaths_eq (hdoc : IsFile doc.tree) (h : doc.Stands n t parent index)
    (ht : t.label.kind = .methodDeclaration) (o : OptionSet) :
    addedPaths (!o.contains ignoreBooleanPaths) t = dividesBelow doc o n := by
  rw [addedPaths, sum_decisionPaths, sum_examinedBy hdoc h ht, ← List.countP_eq_length_filter,
    dividesBelow, h.countP_descendants decides_eq]
  cases o.contains ignoreBooleanPaths
  all_goals rfl

theorem decides_of_joins (h : joins doc n = true) : decides doc n = false := by
  cases hn : doc.tree? n with
  | none => rw [decides, hn, Option.any_none]
  | some t =>
    rw [joins, hn, Option.any_some, isBooleanOperator, Bool.and_eq_true] at h
    rw [decides, hn, Option.any_some, isDecision, isOf, isOf, isOf, eq_of_beq h.1]
    rfl

/-- No node is both a decision and an operator, so no more are counted than there are nodes. -/
theorem dividesBelow_le (doc : Document Node) (o : OptionSet) (n : NodeId) :
    dividesBelow doc o n ≤ (doc.descendants n).length := by
  have hoperators : (doc.descendants n).countP (fun b => joins doc b && inCondition doc b) ≤
      (doc.descendants n).countP fun b => ¬decides doc b = true := by
    apply List.countP_mono_left
    intro b _ hb
    rw [Bool.and_eq_true] at hb
    rw [decides_of_joins hb.1]
    rfl
  rw [List.length_eq_countP_add_countP (decides doc), dividesBelow]
  split
  · omega
  · omega

theorem dividesBelow_lt (hdoc : IsFile doc.tree) (h : doc.Stands n t parent index)
    (ht : t.label.kind = .methodDeclaration) (o : OptionSet) :
    1 + dividesBelow doc o n < doc.size := by
  have hle := dividesBelow_le doc o n
  have hlt := hdoc.length_descendants_lt h (by rw [ht]; exact Kind.noConfusion)
  omega

/-- The paths through a method with a body are one more than its decisions and, unless they are to
be ignored, the conjunctions and disjunctions in the condition of the nearest decision above them,
and they are counted without rounding as long as no number of nodes is rounded. No other flag and no
call that was made before changes that, and every decision has a condition. -/
theorem cyclo_counts_conditions (source : String) (t m : Tree Node) (hp : parse source = .ok t)
    (n : NodeId) (hn : (ofTree t).tree? n = some m) (hm : isConcrete m = true)
    (h : History (ofTree t)) (again : Bool) (o : OptionSet) :
    h.value again .cyclo n o = .ok (1.0 + Number.ofCount (dividesBelow (ofTree t) o n)) ∧
    ((ofTree t).size ≤ Number.exactLimit →
      h.value again .cyclo n o = .ok (Number.ofCount (1 + dividesBelow (ofTree t) o n))) ∧
    ∀ d ∈ (ofTree t).descendants n, decides (ofTree t) d = true →
      ∃ c, (ofTree t).child d 0 = .ok c := by
  obtain ⟨pt, hfits, hb⟩ := exists_fits_of_parse hp
  have hfile : IsFile (ofTree t).tree := isFile_of_builds hfits hb
  have hdoc := Conditioned.file hfile
  obtain ⟨parent, index, hs⟩ := exists_stands_of_tree? hn
  have hkind := kind_of_isConcrete hm
  have hvalue : h.value again .cyclo n o =
      .ok (1.0 + Number.ofCount (dividesBelow (ofTree t) o n)) := by
    rw [h.value_eq hdoc hs, ← addedPaths_eq hfile hs hkind]
    exact congrArg Except.ok (if_pos hm)
  refine ⟨hvalue, ?_, fun d _ hd => exists_condition hdoc hd⟩
  intro hsize
  have hlt := Nat.lt_of_lt_of_le (dividesBelow_lt hfile hs hkind o) hsize
  rw [hvalue, Number.one_add_ofCount hlt]

/-- A source with conditions inside conditions and operators outside of any. -/
def decidingSource : String :=
  "class C \x7b method m(p, q) \x7b if (p && (q || p ? q && p : q)) while (!q || p) x = p && q; \x7d \x7d"

theorem cyclo_counts_conditions_nested :
    ∃ t m, parse decidingSource = .ok t ∧ (ofTree t).tree? 2 = some m ∧ isConcrete m = true ∧
      (ofTree t).size ≤ Number.exactLimit ∧
      ∀ (h : History (ofTree t)) (again : Bool),
        h.value again .cyclo 2 .empty = .ok (Number.ofCount 7) ∧
        h.value again .cyclo 2 (.ofList [countImports, ignoreBooleanPaths]) =
          .ok (Number.ofCount 4) := by
  have hrun : ((parse decidingSource).toOption.bind fun t =>
      ((ofTree t).tree? 2).map fun m => (isConcrete m, decide ((ofTree t).size ≤ Number.exactLimit),
        dividesBelow (ofTree t) .empty 2,
        dividesBelow (ofTree t) (.ofList [countImports, ignoreBooleanPaths]) 2)) =
      some (true, true, 6, 3) := by
    decide +kernel
  cases hp : parse decidingSource with
  | error e =>
    rw [hp] at hrun
    cases hrun
  | ok t =>
    rw [hp] at hrun
    cases hm : (ofTree t).tree? 2 with
    | none =>
      rw [Except.toOption, Option.bind_some, hm] at hrun
      cases hrun
    | some m =>
      rw [Except.toOption, Option.bind_some, hm] at hrun
      have hcounts := Option.some.inj hrun
      simp only [Prod.mk.injEq] at hcounts
      obtain ⟨hconcrete, hsize, hall, hdecisions⟩ := hcounts
      have hsize := of_decide_eq_true hsize
      refine ⟨t, m, rfl, hm, hconcrete, hsize, ?_⟩
      intro h again
      have hvalue := cyclo_counts_conditions decidingSource t m hp 2 hm hconcrete h again
      obtain ⟨-, hempty, -⟩ := hvalue .empty
      obtain ⟨-, hflags, -⟩ := hvalue (.ofList [countImports, ignoreBooleanPaths])
      rw [hempty hsize, hflags hsize, hall, hdecisions]
      exact ⟨rfl, rfl⟩

end TreeMetrics.Twig
