import TreeMetrics.Proofs.Metric.Number
import TreeMetrics.Proofs.Metric.Transparency
import TreeMetrics.Proofs.Twig.Measured
import TreeMetrics.Proofs.Twig.Schema
import TreeMetrics.Twig.Report

namespace TreeMetrics.Twig

def classesIn (unit : Tree Node) : List (Tree Node) := unit.children.filter (isOf .classDeclaration)

def methodsIn (c : Tree Node) : List (Tree Node) := c.children.filter (isOf .methodDeclaration)

namespace Metric

def supports : Metric → Tree Node → Bool
  | wmc | classNcss | classLoc | nopa | noam => isOf .classDeclaration
  | cyclo | methodNcss => isConcrete
  | methodLoc => isOf .methodDeclaration

/-- The paths of a method, one more than its decisions add. -/
def paths (o : OptionSet) (m : Tree Node) : Float :=
  1.0 + Number.ofCount (addedPaths (!o.contains ignoreBooleanPaths) m)

/-- The value of a metric on a tree that has so many imports beside it. -/
def value (imports : Nat) (t : Tree Node) (o : OptionSet) : Metric → Float
  | wmc => Reduction.sum.reduce (((methodsIn t).filter isConcrete).map (paths o))
  | classNcss =>
    if o.contains countImports then
      1.0 + Number.ofCount (countedBelow t) + Number.ofCount imports
    else 1.0 + Number.ofCount (countedBelow t)
  | classLoc | methodLoc => Number.ofCount (lineCount t.label)
  | nopa => Number.ofCount (publicFields t)
  | noam => Number.ofCount (accessors t)
  | cyclo => paths o t
  | methodNcss => 1.0 + Number.ofCount (statementsBelow t)

theorem unsigned_succ (k : Nat) : Number.Unsigned (1.0 + Number.ofCount k) := by
  have hone : (1.0 : Float) = Number.ofCount 1 := by decide
  rw [hone]
  exact .add (.ofCount 1) (.ofCount k)

theorem unsigned_value (imports : Nat) (t : Tree Node) (o : OptionSet) (m : Metric) :
    Number.Unsigned (m.value imports t o) := by
  cases m with
  | wmc =>
    apply Reduction.unsigned_sum
    intro x hx
    obtain ⟨u, _, rfl⟩ := List.mem_map.1 hx
    exact unsigned_succ _
  | classNcss =>
    rw [value]
    split
    · exact .add (unsigned_succ _) (.ofCount imports)
    · exact unsigned_succ _
  | cyclo | methodNcss => exact unsigned_succ _
  | _ => exact .ofCount _

end Metric

/-- Every decision in the tree has a condition. -/
inductive Conditioned : Tree Node → Prop where
  | node {a : Node} {ts : List (Tree Node)} : (isDecision (.node a ts) = true → ts ≠ []) →
    (∀ t ∈ ts, Conditioned t) → Conditioned (.node a ts)

namespace Conditioned

variable {t u : Tree Node} {ts : List (Tree Node)}

theorem children (h : Conditioned t) (hu : u ∈ t.children) : Conditioned u := by
  obtain ⟨_, h⟩ := h
  exact h u hu

theorem children_ne_nil (h : Conditioned t) (hd : isDecision t = true) : t.children ≠ [] := by
  obtain ⟨h, _⟩ := h
  exact h hd

theorem subtrees (h : Conditioned t) : ∀ u ∈ t.subtrees, Conditioned u := by
  induction h with
  | @node a ts hd hts ih =>
    intro u hu
    rw [Tree.subtrees, Tree.subtreesAll_eq_flatMap, List.mem_cons, List.mem_flatMap] at hu
    rcases hu with rfl | ⟨v, hv, hu⟩
    · exact .node hd hts
    · exact ih v hv u hu

theorem descendants (h : Conditioned t) (hu : u ∈ t.descendants) : Conditioned u := by
  rw [Tree.descendants, Tree.subtreesAll_eq_flatMap, List.mem_flatMap] at hu
  obtain ⟨v, hv, hu⟩ := hu
  exact (h.children hv).subtrees u hu

theorem nonempty {a : Node} (ht : Conditioned t) (hts : ∀ u ∈ ts, Conditioned u) :
    Conditioned (.node a (t :: ts)) := by
  apply Conditioned.node
  · intro _
    exact List.cons_ne_nil t ts
  · intro u hu
    rcases List.mem_cons.1 hu with rfl | hu
    · exact ht
    · exact hts u hu

theorem undecided {a : Node} (ha : isDecision (.node a ts) = false)
    (hts : ∀ u ∈ ts, Conditioned u) : Conditioned (.node a ts) := by
  apply Conditioned.node _ hts
  intro hd
  rw [ha] at hd
  cases hd

theorem leaf {a : Node} (ha : isDecision (.leaf a) = false) : Conditioned (.leaf a) := by
  apply undecided ha
  intro u hu
  cases hu

theorem expression (h : IsExpression t) : Conditioned t := by
  induction h with
  | name _ => exact leaf rfl
  | literal _ => exact leaf rfl
  | assignment _ _ target value => exact nonempty target (List.forall_mem_singleton.2 value)
  | conditional _ _ _ condition yes no =>
    exact nonempty condition (List.forall_mem_cons.2 ⟨yes, List.forall_mem_singleton.2 no⟩)
  | binary _ _ _ left right => exact nonempty left (List.forall_mem_singleton.2 right)
  | negation _ operand => exact nonempty operand (List.forall_mem_nil _)
  | call _ _ callee args =>
    exact nonempty callee (List.forall_mem_singleton.2 (undecided rfl args))

theorem statement (h : IsStatement t) : Conditioned t := by
  induction h with
  | block _ body => exact undecided rfl body
  | branch condition _ body =>
    exact nonempty (expression condition) (List.forall_mem_singleton.2 body)
  | otherwise condition _ _ _ body other =>
    have hother {a : Node} := nonempty (a := a) other (List.forall_mem_nil _)
    exact nonempty (expression condition)
      (List.forall_mem_cons.2 ⟨body, List.forall_mem_singleton.2 hother⟩)
  | loop condition _ body =>
    exact nonempty (expression condition) (List.forall_mem_singleton.2 body)
  | exit => exact leaf rfl
  | give value => exact nonempty (expression value) (List.forall_mem_nil _)
  | expression value => exact nonempty (expression value) (List.forall_mem_nil _)

theorem member (h : IsMember t) : Conditioned t := by
  have hparams {b e params} (h : ∀ p ∈ params, IsParameter p) :
      Conditioned (.node (.plain .formalParameters b e) params) := by
    apply undecided rfl
    intro p hp
    obtain ⟨_⟩ := h p hp
    exact leaf rfl
  cases h with
  | field _ => exact leaf rfl
  | declaration _ params => exact nonempty (hparams params) (List.forall_mem_nil _)
  | method _ params body =>
    have hbody {b e} : Conditioned (.node (.plain .block b e) _) :=
      undecided rfl fun s hs => statement (body s hs)
    exact nonempty (hparams params) (List.forall_mem_singleton.2 hbody)

theorem file (h : IsFile t) : Conditioned t := by
  obtain ⟨imports, classes⟩ := h
  apply undecided rfl
  intro u hu
  rcases List.mem_append.1 hu with hu | hu
  · obtain ⟨_⟩ := imports u hu
    exact leaf rfl
  · obtain ⟨_, members⟩ := classes u hu
    exact undecided rfl fun m hm => member (members m hm)

end Conditioned

namespace Report

open Document

variable {doc : Document Node} {n index : Nat} {parent : Option NodeId} {t c : Tree Node}

theorem getElem?_all (m : Metric) : Metric.all[Metric.all.idxOf m]? = some m := by
  cases m <;> rfl

theorem getElem?_calculators (i : Nat) :
    (calculators : Array (Calculator Node Unit))[i]? = Metric.all[i]?.map Metric.calculator := by
  rw [calculators, List.getElem?_toArray, List.getElem?_map]

theorem supportsAt_eq (h : doc.Stands n t parent index) (m : Metric) :
    m.supportsAt doc n = m.supports t := by
  cases m with
  | cyclo | methodNcss => exact isConcreteAt_eq h
  | _ => exact kindIs_eq h _

theorem supportsAt_of_le (h : doc.size ≤ n) (m : Metric) : m.supportsAt doc n = false := by
  cases m with
  | cyclo | methodNcss =>
    show isConcreteAt doc n = false
    rw [isConcreteAt, kindIs_of_le h Kind.noConfusion, Bool.false_and]
  | _ => exact kindIs_of_le h Kind.noConfusion

theorem supports_key (h : doc.Stands n t parent index) (m : Metric) :
    (engine doc).supports m.key n = m.supports t := by
  unfold Engine.supports
  rw [engine, Metric.key, getElem?_calculators, getElem?_all]
  exact supportsAt_eq h m

/-- A metric that asks for no other ends in the value that it has on the tree. -/
theorem behaviour_eq {σ : Type} {m : Metric} (hm : m ≠ .wmc) (h : doc.Stands n t parent index)
    (ht : Conditioned t) (o : OptionSet) :
    (m.behaviour doc n o : Behaviour σ) = .value (m.value (importsBeside doc n) t o) := by
  cases m with
  | wmc => exact absurd rfl hm
  | classNcss => rw [Metric.behaviour, classNcssAt_eq h, Metric.value]
  | classLoc | methodLoc => rw [Metric.behaviour, locAt_eq h, Metric.value]
  | nopa => rw [Metric.behaviour, nopaAt_eq h, Metric.value]
  | noam => rw [Metric.behaviour, noamAt_eq h, Metric.value]
  | methodNcss => rw [Metric.behaviour, methodNcssAt_eq h, Metric.value]
  | cyclo =>
    have hdecisions : ∀ d ∈ t.descendants, isDecision d = true → d.children ≠ [] :=
      fun d hd hdec => (ht.descendants hd).children_ne_nil hdec
    rw [Metric.behaviour, cycloAt_eq h hdecisions, Metric.value, Metric.paths]

def methodTasks (doc : Document Node) (m : Metric) (n : NodeId) (o : OptionSet) : List Task :=
  (engine doc).tasks metrics.computer (.overOperations m.key n o .sum)

/-- What each task of the catalog does: only one metric asks for the values of another. -/
def plan (doc : Document Node) (task : Task) : Plan :=
  match Metric.all[task.key.calculator]?, doc.tree? task.node with
  | some .wmc, some _ =>
    .askAll (methodTasks doc .cyclo task.node task.options) fun xs =>
      .value (Reduction.sum.reduce xs)
  | some m, some t => .value (m.value (importsBeside doc task.node) t task.options)
  | _, _ => .value Number.undefined

theorem conditioned_of_stands (hdoc : Conditioned doc.tree) (h : doc.Stands n t parent index) :
    Conditioned t := by
  induction h with
  | root => exact hdoc
  | child _ ih => exact ih.children (List.mem_append_right _ List.mem_cons_self)

/-- A task that is performed is one for a metric of the catalog on a node of the document. -/
theorem exists_of_performs {task : Task} (h : (engine doc).performs task = true) :
    ∃ m t parent index, Metric.all[task.key.calculator]? = some m ∧
      doc.Stands task.node t parent index := by
  unfold Engine.performs Engine.supports at h
  rw [engine, getElem?_calculators] at h
  cases hm : Metric.all[task.key.calculator]? with
  | none =>
    rw [hm] at h
    cases h
  | some m =>
    rw [hm] at h
    by_cases hn : task.node < doc.size
    · obtain ⟨t, parent, index, hs⟩ := exists_stands hn
      exact ⟨m, t, parent, index, rfl, hs⟩
    · have hnone := supportsAt_of_le (Nat.le_of_not_lt hn) m
      exact absurd (hnone.symm.trans h) Bool.false_ne_true

theorem program_eq {task : Task} {m : Metric} (hm : Metric.all[task.key.calculator]? = some m) :
    (engine doc).program task = m.behaviour doc task.node task.options := by
  unfold Engine.program Engine.behaviour
  rw [engine, getElem?_calculators, hm]
  rfl

theorem engine_pure (hdoc : Conditioned doc.tree) :
    (engine doc).Pure metrics.computer (plan doc) := by
  intro task hperforms
  obtain ⟨m, t, parent, index, hm, hs⟩ := exists_of_performs hperforms
  rw [program_eq hm, plan, hm, hs.tree?]
  by_cases hwmc : m = .wmc
  · subst hwmc
    exact .ask fun xs => .value _
  · rw [behaviour_eq hwmc hs (conditioned_of_stands hdoc hs)]
    cases m with
    | wmc => exact absurd rfl hwmc
    | _ => exact .value _

theorem forall₂_operations (h : doc.Stands n c parent index) :
    List.Forall₂ (fun m t => ∃ i, doc.Stands m t (some n) i) (operations doc n) (methodsIn c) := by
  rw [operations_eq]
  exact forall₂_ofKind h .methodDeclaration

theorem forall₂_classesOf (doc : Document Node) :
    List.Forall₂ (fun m t => ∃ i, doc.Stands m t (some root) i) (classesOf doc)
      (classesIn doc.tree) := by
  rw [classesOf, children_ofKind]
  exact forall₂_ofKind .root .classDeclaration

/-- Methods are chosen by their nodes as they are by their trees. -/
theorem forall₂_chosen (h : doc.Stands n c parent index) {p : NodeId → Bool} {q : Tree Node → Bool}
    (hpq : ∀ {m t i}, doc.Stands m t (some n) i → p m = q t) :
    List.Forall₂ (fun m t => ∃ i, doc.Stands m t (some n) i)
      ((operations doc n).filter p) ((methodsIn c).filter q) := by
  apply List.rel_filter _ (forall₂_operations h)
  intro m t hm
  obtain ⟨i, hm⟩ := hm
  dsimp only
  rw [hpq hm]

theorem forall₂_supported (h : doc.Stands n c parent index) (m : Metric) :
    List.Forall₂ (fun k t => ∃ i, doc.Stands k t (some n) i)
      ((operations doc n).filter ((engine doc).supports m.key))
      ((methodsIn c).filter m.supports) :=
  forall₂_chosen h fun hk => supports_key hk m

theorem valueWithin_succ_of_ne {m : Metric} (hm : m ≠ .wmc) (h : doc.Stands n t parent index)
    (o : OptionSet) (d : Nat) : Plan.valueWithin (plan doc) (d + 1) ⟨m.key, n, o⟩ =
      some (m.value (importsBeside doc n) t o) := by
  rw [Plan.valueWithin, plan, Metric.key, getElem?_all, h.tree?]
  cases m with
  | wmc => exact absurd rfl hm
  | _ => rfl

def valuesOver (m : Metric) (c : Tree Node) (o : OptionSet) : List Float :=
  ((methodsIn c).filter m.supports).map fun t => m.value (importCount c) t o

theorem mapM_methodTasks {m : Metric} (hm : m ≠ .wmc) (h : doc.Stands n c parent index)
    (o : OptionSet) (d : Nat) :
    (methodTasks doc m n o).mapM (Plan.valueWithin (plan doc) (d + 1)) =
      some (valuesOver m c o) := by
  apply mapM_of_forall₂ (R := fun task x => Plan.valueWithin (plan doc) (d + 1) task = some x)
  · have hrows := forall₂_supported h m
    rw [methodTasks, Engine.tasks, valuesOver, List.forall₂_map_left_iff,
      List.forall₂_map_right_iff]
    apply hrows.imp
    intro k t hk
    obtain ⟨i, hk⟩ := hk
    rw [valueWithin_succ_of_ne hm hk, importsBeside_eq h hk]
  · intro _ _ _ hx
    exact hx

theorem valueWithin_two (h : doc.Stands n t parent index) (m : Metric) (o : OptionSet) :
    Plan.valueWithin (plan doc) 2 ⟨m.key, n, o⟩ =
      some (m.value (importsBeside doc n) t o) := by
  by_cases hm : m = .wmc
  · subst hm
    have hplan : plan doc ⟨Metric.wmc.key, n, o⟩ = .askAll (methodTasks doc .cyclo n o) fun xs =>
        .value (Reduction.sum.reduce xs) := by
      rw [plan, h.tree?]
      rfl
    have hcyclo : Metric.cyclo ≠ .wmc := Metric.noConfusion
    rw [Plan.valueWithin, hplan, Plan.run_askAll, mapM_methodTasks hcyclo h o 0]
    rfl
  · exact valueWithin_succ_of_ne hm h o 1

/-- The run ends in the value, provided that what is kept are values of metrics, as it is behind
the run. -/
abbrev Gives {β : Type} (doc : Document Node) (x : Run Unit β) (b : β) : Prop :=
  TreeMetrics.Yields (Store.Sound fun _ => plan doc) x b

theorem answer_yields (hdoc : Conditioned doc.tree) {q : Request} {xs : List Float}
    (hq : ((engine doc).tasks metrics.computer q).mapM (Plan.valueWithin (plan doc) 2) = some xs) :
    Gives doc ((engine doc).answer metrics.computer q) (q.combine xs) := by
  have hdepth : (engine doc).depth = (UInt64.size - 1) + 1 := rfl
  rw [Engine.answer, hdepth]
  apply Engine.answerWithin_yields (engine_pure hdoc)
  apply Plan.mapM_mono _ hq
  intro _ _
  exact Plan.valueWithin_mono (by decide)

/-- A request for a metric is answered with its value. -/
theorem kept_yields (hdoc : Conditioned doc.tree) (h : doc.Stands n t parent index) {m : Metric}
    (hm : m.supports t = true) (o : OptionSet) :
    Gives doc ((engine doc).answer metrics.computer (.kept m.key n o))
      (m.value (importsBeside doc n) t o) := by
  have htasks : (engine doc).tasks metrics.computer (.kept m.key n o) = [⟨m.key, n, o⟩] := by
    rw [Engine.tasks, supports_key h, hm, if_pos rfl]
  have hvalue : [⟨m.key, n, o⟩].mapM (Plan.valueWithin (plan doc) 2) =
      some [m.value (importsBeside doc n) t o] := by
    rw [List.mapM_cons, valueWithin_two h]
    rfl
  exact answer_yields hdoc (htasks ▸ hvalue)

/-- A request for a reduction over methods is answered with the reduction of their values. -/
theorem reduced_yields (hdoc : Conditioned doc.tree) (h : doc.Stands n c parent index) {m : Metric}
    (hm : m ≠ .wmc) (o : OptionSet) (r : Reduction) :
    Gives doc ((engine doc).answer metrics.computer (.overOperations m.key n o r))
      (r.reduce (valuesOver m c o)) :=
  answer_yields hdoc (mapM_methodTasks hm h o 1)

end Report

end TreeMetrics.Twig
