import TreeMetrics.Proofs.Metric.Exact
import TreeMetrics.Proofs.Metric.Isolation
import TreeMetrics.Proofs.Twig.Lines
import TreeMetrics.Proofs.Twig.Values

namespace TreeMetrics.Twig

variable {k : Nat} {t u : Tree Node} {ts : List (Tree Node)}

section Moved

@[simp] theorem isOf_moved (kind : Kind) (t : Tree Node) : isOf kind (moved k t) = isOf kind t := by
  rw [isOf, label_moved, Node.kind_moved, isOf]

theorem filter_moved {p : Tree Node → Bool} (hp : ∀ t, p (moved k t) = p t)
    (ts : List (Tree Node)) :
    (ts.map (moved k)).filter p = (ts.filter p).map (moved k) := by
  rw [List.filter_map]
  congr 1
  exact List.filter_congr fun t _ => hp t

theorem countP_moved {p : Tree Node → Bool} (hp : ∀ t, p (moved k t) = p t)
    (ts : List (Tree Node)) :
    (ts.map (moved k)).countP p = ts.countP p := by
  rw [List.countP_eq_length_filter, filter_moved hp, List.length_map, List.countP_eq_length_filter]

theorem body?_moved (m : Tree Node) : body? (moved k m) = (body? m).map (moved k) := by
  rw [body?, children_moved, List.find?_map, body?]
  congr 2
  funext t
  exact isOf_moved _ t

theorem isConcrete_moved (m : Tree Node) : isConcrete (moved k m) = isConcrete m := by
  rw [isConcrete, isOf_moved, body?_moved, Option.isSome_map, isConcrete]

theorem isDecision_moved (t : Tree Node) : isDecision (moved k t) = isDecision t := by
  simp only [isDecision, isOf_moved]

theorem subtrees_moved (t : Tree Node) : (moved k t).subtrees = t.subtrees.map (moved k) := by
  induction t using Tree.induction with
  | h n ts ih =>
    rw [moved_node, Tree.subtrees, Tree.subtreesAll_eq_flatMap, List.flatMap_map, Tree.subtrees,
      Tree.subtreesAll_eq_flatMap, List.map_cons, List.map_flatMap, moved_node]
    exact congrArg _ (List.flatMap_congr ih)

theorem descendants_moved (t : Tree Node) :
    (moved k t).descendants = t.descendants.map (moved k) := by
  rw [Tree.descendants, Tree.subtreesAll_eq_flatMap, children_moved, List.flatMap_map,
    Tree.descendants, Tree.subtreesAll_eq_flatMap, List.map_flatMap]
  exact List.flatMap_congr fun u _ => subtrees_moved u

theorem booleanPaths_moved (t : Tree Node) : booleanPaths (moved k t) = booleanPaths t := by
  induction t using Tree.induction with
  | h n ts ih =>
    have hts : (ts.map (moved k)).map booleanPaths = ts.map booleanPaths := by
      rw [List.map_map]
      exact List.map_congr_left ih
    rw [moved_node, booleanPaths, booleanPathsAll_eq_sum, hts, booleanPaths, booleanPathsAll_eq_sum]
    rfl

theorem decisionPaths_moved (b : Bool) (t : Tree Node) :
    decisionPaths b (moved k t) = decisionPaths b t := by
  rw [decisionPaths, examinedBy, children_moved, List.head?_map, Option.map_map, decisionPaths,
    examinedBy]
  simp only [Function.comp_def, booleanPaths_moved]

theorem addedPaths_moved (b : Bool) (m : Tree Node) :
    addedPaths b (moved k m) = addedPaths b m := by
  rw [addedPaths, descendants_moved, filter_moved isDecision_moved, List.map_map, addedPaths]
  simp only [Function.comp_def, decisionPaths_moved]

theorem lineCount_moved (n : Node) : lineCount (n.moved k) = lineCount n := by
  have hle : n.beginLine + k ≤ n.endLine + k + 1 ↔ n.beginLine ≤ n.endLine + 1 := by omega
  have hsub : n.endLine + k + 1 - (n.beginLine + k) = n.endLine + 1 - n.beginLine := by omega
  have hsub' : n.beginLine + k - (n.endLine + k + 1) = n.beginLine - (n.endLine + 1) := by omega
  simp only [lineCount, Node.moved, hle, hsub, hsub']

theorem isAccessor_moved (m : Tree Node) : isAccessor (moved k m) = isAccessor m := by
  simp only [isAccessor, isOf_moved, label_moved, Node.modifiers_moved, Node.image_moved,
    body?_moved, Option.any_map, children_moved, List.length_map]

theorem methodsIn_moved (c : Tree Node) : methodsIn (moved k c) = (methodsIn c).map (moved k) := by
  rw [methodsIn, children_moved, filter_moved (isOf_moved _), methodsIn]

theorem Metric.supports_moved (m : Metric) (t : Tree Node) :
    m.supports (moved k t) = m.supports t := by
  cases m with
  | cyclo | methodNcss => exact isConcrete_moved t
  | _ => exact isOf_moved _ t

theorem Metric.paths_moved (o : OptionSet) (m : Tree Node) : paths o (moved k m) = paths o m := by
  rw [paths, addedPaths_moved, paths]

theorem countedBelow_moved (c : Tree Node) : countedBelow (moved k c) = countedBelow c := by
  have hp : ∀ u, isCounted (moved k u) = isCounted u := by
    intro u
    rw [isCounted, isOf_moved, isOf_moved, label_moved, Node.kind_moved, isCounted]
  rw [countedBelow, descendants_moved, countP_moved hp, countedBelow]

theorem statementsBelow_moved (m : Tree Node) :
    statementsBelow (moved k m) = statementsBelow m := by
  have hp : ∀ u, (moved k u).label.kind.isStatement = u.label.kind.isStatement := by
    intro u
    rw [label_moved, Node.kind_moved]
  rw [statementsBelow, descendants_moved, countP_moved hp, statementsBelow]

theorem Metric.value_moved (imports : Nat) (t : Tree Node) (o : OptionSet) (m : Metric) :
    m.value imports (moved k t) o = m.value imports t o := by
  cases m with
  | wmc =>
    simp only [value, methodsIn_moved, filter_moved isConcrete_moved, List.map_map,
      Function.comp_def, paths_moved]
  | classNcss => rw [value, countedBelow_moved, value]
  | classLoc | methodLoc => rw [value, label_moved, lineCount_moved, value]
  | nopa =>
    have hp : ∀ u, (isOf .fieldDeclaration (moved k u) && (moved k u).label.modifiers.isPublic) =
        (isOf .fieldDeclaration u && u.label.modifiers.isPublic) := by
      intro u
      rw [isOf_moved, label_moved, Node.modifiers_moved]
    rw [value, publicFields, children_moved, countP_moved hp, value, publicFields]
  | noam => rw [value, accessors, children_moved, countP_moved isAccessor_moved, value, accessors]
  | cyclo => rw [value, paths_moved, value]
  | methodNcss => rw [value, statementsBelow_moved, value]

end Moved

section Catalog

open Document Report

variable {σ : Type} {doc : Document Node} {others : Array (Calculator Node σ)} {n index : Nat}
variable {parent : Option NodeId} {c : Tree Node}

/-- The catalog on a document, and other calculators behind it. -/
def withOthers (doc : Document Node) (others : Array (Calculator Node σ)) : Engine Node σ :=
  ⟨doc, calculators ++ others⟩

theorem getElem?_withOthers {i : Nat} {m : Metric} (hm : Metric.all[i]? = some m) :
    (withOthers doc others).calculators[i]? = some m.calculator := by
  obtain ⟨hi, -⟩ := List.getElem?_eq_some_iff.1 hm
  have hsize : i < (calculators : Array (Calculator Node σ)).size := by
    rwa [calculators, List.size_toArray, List.length_map]
  rw [withOthers, Array.getElem?_append_left hsize, calculators, List.getElem?_toArray,
    List.getElem?_map, hm, Option.map_some]

theorem supports_withOthers (h : doc.Stands n t parent index) (m : Metric) :
    (withOthers doc others).supports m.key n = m.supports t := by
  have hm : (withOthers doc others).calculators[m.key.calculator]? = some m.calculator :=
    getElem?_withOthers (getElem?_all m)
  rw [Engine.supports, hm]
  exact supportsAt_eq h m

theorem program_withOthers {task : Task} {m : Metric}
    (hm : Metric.all[task.key.calculator]? = some m) :
    (withOthers doc others).program task = m.behaviour doc task.node task.options := by
  rw [Engine.program, Engine.behaviour, getElem?_withOthers hm]
  rfl

/-- How many calculators wait for each other when a metric is computed. -/
def Metric.depth : Metric → Nat
  | wmc => 2
  | _ => 1

/-- The values of the tasks of the catalog. -/
def catalogValue (doc : Document Node) (d : Nat) (task : Task) : Option Float :=
  match Metric.all[task.key.calculator]?, doc.tree? task.node with
  | some m, some t =>
    if m.depth ≤ d then some (m.value (importsBeside doc task.node) t task.options) else none
  | _, _ => none

theorem catalogValue_key {d : Nat} (h : doc.Stands n t parent index) (m : Metric) (o : OptionSet)
    (hd : m.depth ≤ d) :
    catalogValue doc d ⟨m.key, n, o⟩ = some (m.value (importsBeside doc n) t o) := by
  rw [catalogValue, Metric.key, getElem?_all, h.tree?]
  exact if_pos hd

theorem catalogValue_eq_some {d : Nat} {task : Task} {x : Float}
    (h : catalogValue doc d task = some x) :
    ∃ m t, Metric.all[task.key.calculator]? = some m ∧ doc.tree? task.node = some t ∧
      m.depth ≤ d ∧ x = m.value (importsBeside doc task.node) t task.options := by
  unfold catalogValue at h
  split at h
  · rename_i m t hm ht
    split at h
    · rename_i hd
      cases h
      exact ⟨m, t, hm, ht, hd, rfl⟩
    · cases h
  · cases h

theorem mapM_tasks_withOthers {d pool : Nat} (h : doc.Stands n c parent index) (o : OptionSet)
    (r : Reduction) (hd : 1 ≤ d) :
    ((withOthers doc others).tasks ⟨pool, operations⟩
        (.overOperations Metric.cyclo.key n o r)).mapM (catalogValue doc d) =
      some (((methodsIn c).filter isConcrete).map (Metric.paths o)) := by
  apply mapM_of_forall₂ (R := fun task x => catalogValue doc d task = some x)
  · rw [Engine.tasks, List.forall₂_map_left_iff, List.forall₂_map_right_iff]
    apply (forall₂_chosen h fun hk => supports_withOthers hk .cyclo).imp
    intro k t hk
    obtain ⟨i, hk⟩ := hk
    exact catalogValue_key hk .cyclo o hd
  · intro _ _ _ hx
    exact hx

theorem withOthers_explains (hdoc : Conditioned doc.tree) (others : Array (Calculator Node σ))
    (pool : Nat) : (withOthers doc others).Explains ⟨pool, operations⟩ (catalogValue doc) := by
  constructor
  · intro task
    cases h : catalogValue doc 0 task with
    | none => rfl
    | some x =>
      obtain ⟨m, _, _, _, hd, _⟩ := catalogValue_eq_some h
      cases m
      all_goals cases hd
  · intro task d y _ hy
    obtain ⟨m, t, hm, ht, hd, rfl⟩ := catalogValue_eq_some hy
    obtain ⟨parent, index, hstands⟩ := exists_stands_of_tree? ht
    rw [program_withOthers hm]
    by_cases hwmc : m = .wmc
    · subst hwmc
      refine ⟨_, .ask fun xs => .value _, ?_⟩
      have hcyclo : 1 ≤ d := Nat.le_of_succ_le_succ hd
      rw [Plan.run_askAll, mapM_tasks_withOthers hstands task.options .sum hcyclo]
      rfl
    · rw [behaviour_eq hwmc hstands (conditioned_of_stands hdoc hstands)]
      exact ⟨_, .value _, rfl⟩

end Catalog

/-- What was done with a document before: calls in any number, which may run any calculators beside
those of the catalog. Computers that share the pool of the catalog's computer find the same
operations as it does. -/
structure History (doc : Document Node) where
  σ : Type
  others : Array (Calculator Node σ)
  pool : Nat
  pools : Nat
  nodes : Nat
  state : σ
  calls : List (Call Node)
  shared : ∀ c q, Call.request c q ∈ calls → c.pool = pool → c.operations = operations

namespace History

open Document Report

variable {doc : Document Node} {n index : Nat} {parent : Option NodeId} {t : Tree Node}

def store (h : History doc) : Store h.σ :=
  let e := withOthers doc h.others
  (e.performWithin e.depth h.calls (.init h.pools h.nodes h.state)).2

/-- The value of a metric on a node behind the calls. It is computed afresh, or a kept value will
do. -/
def value (h : History doc) (again : Bool) (m : Metric) (n : NodeId) (o : OptionSet) :
    Except Stop Float :=
  ((withOthers doc h.others).answer ⟨h.pool, operations⟩
    (if again then .fresh m.key n o else .kept m.key n o) h.store).1

/-- The values in the pools: those of the catalog in its own pool, none in the others. -/
def values (h : History doc) (p : Nat) : Nat → Task → Option Float :=
  if p = h.pool then catalogValue doc else fun _ _ => none

theorem explains_values (h : History doc) (hdoc : Conditioned doc.tree) {c : Computer Node}
    (hc : c.pool = h.pool → c.operations = operations) :
    (withOthers doc h.others).Explains c (h.values c.pool) := by
  unfold values
  split
  · rename_i hp
    obtain ⟨p, find⟩ := c
    cases hc hp
    exact withOthers_explains hdoc h.others p
  · exact ⟨fun _ => rfl, fun _ hy => nomatch hy⟩

theorem store_agrees (h : History doc) (hdoc : Conditioned doc.tree) :
    h.store.Agrees h.values := by
  apply Engine.performWithin_agrees
  · intro c q hq
    exact h.explains_values hdoc (h.shared c q hq)
  · exact .init h.pools h.nodes h.state

/-- Behind whatever calls a metric has the value that its tree has. -/
theorem value_eq (h : History doc) (hdoc : Conditioned doc.tree) (hn : doc.Stands n t parent index)
    (again : Bool) (m : Metric) (o : OptionSet) :
    h.value again m n o =
      .ok (if m.supports t then m.value (importsBeside doc n) t o
        else Number.undefined) := by
  have hexplains : (withOthers doc h.others).Explains ⟨h.pool, operations⟩ (h.values h.pool) :=
    h.explains_values hdoc fun _ => rfl
  have hdepth : 2 < (withOthers doc h.others).depth := by
    change 2 < UInt64.size
    decide
  apply Engine.answerWithin_one hexplains (h.store_agrees hdoc) hdepth again
  have hd : m.depth ≤ 2 := by
    cases m
    all_goals decide
  have hcatalog : h.values h.pool = catalogValue doc := if_pos rfl
  rw [supports_withOthers hn, hcatalog, catalogValue_key hn m o hd]
  split
  all_goals rfl

end History

def importSiblings (doc : Document Node) (n : NodeId) : List NodeId :=
  match doc.parent? n with
  | some p => (doc.children p).filter (doc.isKind Kind.importDeclaration.text)
  | none => []

section Local

open Document Report

variable {doc₁ doc₂ : Document Node} {n₁ n₂ index₁ index₂ j : Nat} {parent₁ parent₂ : Option NodeId}
variable {t₁ t₂ : Tree Node}

theorem length_importSiblings (h : doc₁.Stands n₁ t parent₁ index₁) :
    (importSiblings doc₁ n₁).length = importsBeside doc₁ n₁ := by
  rw [importSiblings, h.parent?]
  cases h with
  | root =>
    rw [importsBeside, Stands.root.parent?]
    rfl
  | child hp =>
    rw [importsBeside_eq hp (.child hp), importCount, List.countP_eq_length_filter]
    exact (forall₂_ofKind hp .importDeclaration).length_eq

theorem Metric.value_of_ne {m : Metric} (hm : m ≠ .classNcss) (i i' : Nat) (o : OptionSet) :
    m.value i t o = m.value i' t o := by
  cases m with
  | classNcss => exact absurd rfl hm
  | _ => rfl

theorem History.values_agree (hdoc₁ : Conditioned doc₁.tree) (hdoc₂ : Conditioned doc₂.tree)
    (hs₁ : doc₁.Stands n₁ t₁ parent₁ index₁) (hs₂ : doc₂.Stands n₂ t₂ parent₂ index₂)
    (hsame : moved j t₁ = moved k t₂) (h₁ : History doc₁) (h₂ : History doc₂)
    (again₁ again₂ : Bool) {m : Metric} (hm : m ≠ .classNcss) (o : OptionSet) :
    ∃ x, h₁.value again₁ m n₁ o = .ok x ∧ h₂.value again₂ m n₂ o = .ok x := by
  refine ⟨_, h₁.value_eq hdoc₁ hs₁ again₁ m o, ?_⟩
  rw [h₂.value_eq hdoc₂ hs₂, ← Metric.supports_moved (k := j) m t₁, hsame, Metric.supports_moved,
    ← Metric.value_moved (k := j) _ t₁, hsame, Metric.value_moved,
    Metric.value_of_ne hm (importsBeside doc₂ n₂) (importsBeside doc₁ n₁)]

/-- What is not the file itself has fewer nodes. -/
theorem IsFile.size_lt {doc : Document Node} {n index : Nat} {parent : Option NodeId}
    (hdoc : IsFile doc.tree) (h : doc.Stands n t parent index)
    (ht : t.label.kind ≠ .compilationUnit) : t.size < doc.size := by
  cases h with
  | root =>
    generalize doc.tree = unit at hdoc ht
    cases hdoc
    exact absurd rfl ht
  | child hp =>
    have hle := (Stands.child hp).add_size_le
    omega

theorem IsFile.length_descendants_lt {doc : Document Node} {n index : Nat} {parent : Option NodeId}
    (hdoc : IsFile doc.tree) (h : doc.Stands n t parent index)
    (ht : t.label.kind ≠ .compilationUnit) : 1 + (doc.descendants n).length < doc.size := by
  have hpos := t.size_pos
  have hlt := hdoc.size_lt h ht
  rw [Stream.descendants_eq, List.length_range', h.subtreeSize]
  omega

/-- What a class counts, its own node included, and the imports beside it are fewer than the nodes
of the file. -/
theorem counted_add_importCount_lt {unit c : Tree Node} (hc : c ∈ classesIn unit) :
    1 + countedBelow c + importCount unit < unit.size := by
  obtain ⟨a, ts⟩ := unit
  obtain ⟨hmem, hk⟩ := List.mem_filter.1 hc
  obtain ⟨us, vs, rfl⟩ := List.append_of_mem hmem
  have himport : isOf .importDeclaration c = false := by
    rw [isOf, eq_of_beq hk]
    rfl
  have hsiblings (ws : List (Tree Node)) : ws.countP (isOf .importDeclaration) ≤
      Tree.sizeAll ws := by
    induction ws with
    | nil => exact Nat.le_refl 0
    | cons w ws ih =>
      have hpos := w.size_pos
      rw [List.countP_cons, Tree.sizeAll]
      split
      all_goals omega
  have hbelow : countedBelow c + 1 ≤ c.size := by
    rw [← Tree.length_descendants]
    exact Nat.succ_le_succ List.countP_le_length
  have hus := hsiblings us
  have hvs := hsiblings vs
  rw [importCount, Tree.children, List.countP_append, List.countP_cons, himport, Tree.size,
    Tree.sizeAll_append, Tree.sizeAll, if_neg Bool.false_ne_true]
  omega

/-- The statements of a class are counted without rounding as long as no number of nodes is rounded.
-/
theorem value_classNcss_exact (hdoc : IsFile doc₁.tree) (hs : doc₁.Stands n₁ t parent₁ index₁)
    (hclass : isOf .classDeclaration t = true) (hsize : doc₁.size ≤ Number.exactLimit)
    (o : OptionSet) :
    Metric.value (importsBeside doc₁ n₁) t o .classNcss = Number.ofCount (1 + countedBelow t +
      if o.contains countImports then importsBeside doc₁ n₁ else 0) := by
  have hlt : 1 + countedBelow t + importsBeside doc₁ n₁ < 2 ^ 53 := by
    cases hs with
    | root =>
      generalize doc₁.tree = unit at hdoc hclass
      cases hdoc
      cases hclass
    | @child _ a us _ vs _ _ hp =>
      have hmem : t ∈ classesIn (.node a (us ++ t :: vs)) :=
        List.mem_filter.2 ⟨List.mem_append_right _ List.mem_cons_self, hclass⟩
      have hcount := counted_add_importCount_lt hmem
      have hle := hp.size_le
      have hlimit : Number.exactLimit = 2 ^ 53 := rfl
      rw [importsBeside_eq hp (.child hp)]
      omega
  rw [Metric.value, Number.one_add_ofCount (by omega), Number.ofCount_add (by omega)]
  split
  · rfl
  · rfl

/-- The metrics of a class and of its methods are those of every class with the same tree but for a
shift of all lines, be it in another file and behind other calls. The statements of the class alone
differ, by the imports beside it, if imports are to be counted; in files whose nodes can be counted
without rounding, by just their number. -/
theorem metrics_local (hdoc₁ : IsFile doc₁.tree) (hdoc₂ : IsFile doc₂.tree)
    (hn₁ : doc₁.tree? n₁ = some t₁) (hn₂ : doc₂.tree? n₂ = some t₂)
    (hclass : isOf .classDeclaration t₁ = true) (hsame : moved j t₁ = moved k t₂)
    (h₁ : History doc₁) (h₂ : History doc₂) (again₁ again₂ : Bool) (o : OptionSet) :
    (∀ m ∈ [Metric.wmc, .classLoc, .nopa, .noam],
      ∃ x, h₁.value again₁ m n₁ o = .ok x ∧ h₂.value again₂ m n₂ o = .ok x) ∧
    List.Forall₂ (fun m₁ m₂ => ∀ m ∈ Metric.ofMethods,
        ∃ x, h₁.value again₁ m m₁ o = .ok x ∧ h₂.value again₂ m m₂ o = .ok x)
      (operations doc₁ n₁) (operations doc₂ n₂) ∧
    ∃ x count x₁ x₂, h₁.value again₁ .classNcss n₁ o = .ok x₁ ∧
      h₂.value again₂ .classNcss n₂ o = .ok x₂ ∧
      (o.contains countImports = false → x₁ = x ∧ x₂ = x) ∧
      (o.contains countImports = true →
        x₁ = x + Number.ofCount (importSiblings doc₁ n₁).length ∧
        x₂ = x + Number.ofCount (importSiblings doc₂ n₂).length) ∧
      (doc₁.size ≤ Number.exactLimit → x₁ = Number.ofCount
        (count + if o.contains countImports then (importSiblings doc₁ n₁).length else 0)) ∧
      (doc₂.size ≤ Number.exactLimit → x₂ = Number.ofCount
        (count + if o.contains countImports then (importSiblings doc₂ n₂).length else 0)) := by
  obtain ⟨_, _, hs₁⟩ := exists_stands_of_tree? hn₁
  obtain ⟨_, _, hs₂⟩ := exists_stands_of_tree? hn₂
  have hc₁ := Conditioned.file hdoc₁
  have hc₂ := Conditioned.file hdoc₂
  have hcount : countedBelow t₁ = countedBelow t₂ := by
    rw [← countedBelow_moved (k := j), hsame, countedBelow_moved]
  have hclass₂ : isOf .classDeclaration t₂ = true := by
    rw [← isOf_moved (k := k), ← hsame, isOf_moved, hclass]
  refine ⟨?_, ?_, 1.0 + Number.ofCount (countedBelow t₁), 1 + countedBelow t₁, _, _,
    h₁.value_eq hc₁ hs₁ again₁ .classNcss o, h₂.value_eq hc₂ hs₂ again₂ .classNcss o, ?_⟩
  · intro m hm
    apply History.values_agree hc₁ hc₂ hs₁ hs₂ hsame
    rintro rfl
    simp at hm
  · have hmethods : List.Forall₂ (fun u₁ u₂ => moved j u₁ = moved k u₂)
        (methodsIn t₁) (methodsIn t₂) := by
      have heq := congrArg methodsIn hsame
      rw [methodsIn_moved, methodsIn_moved, ← List.forall₂_eq_eq_eq] at heq
      rwa [List.forall₂_map_left_iff, List.forall₂_map_right_iff] at heq
    have hrows := forall₂_comp (T := fun m₁ u₂ => ∃ u₁ i, doc₁.Stands m₁ u₁ (some n₁) i ∧
      moved j u₁ = moved k u₂) (fun _ u₁ _ ⟨i, hi⟩ hu => ⟨u₁, i, hi, hu⟩)
      (forall₂_operations hs₁) hmethods
    apply forall₂_comp _ hrows (forall₂_operations hs₂).flip
    intro m₁ u₂ m₂ hu₁ hu₂ m hm
    obtain ⟨u₁, i₁, hm₁, hu⟩ := hu₁
    obtain ⟨i₂, hm₂⟩ := hu₂
    apply History.values_agree hc₁ hc₂ hm₁ hm₂ hu
    rintro rfl
    simp [Metric.ofMethods] at hm
  · rw [Metric.supports, hclass, hclass₂, if_pos rfl, if_pos rfl, length_importSiblings hs₁,
      length_importSiblings hs₂]
    refine ⟨?_, ?_, fun hsize => value_classNcss_exact hdoc₁ hs₁ hclass hsize o, ?_⟩
    · intro hno
      rw [Metric.value, Metric.value, hno, hcount]
      exact ⟨rfl, rfl⟩
    · intro hyes
      rw [Metric.value, Metric.value, hyes, hcount]
      exact ⟨rfl, rfl⟩
    · intro hsize
      rw [hcount]
      exact value_classNcss_exact hdoc₂ hs₂ hclass₂ hsize o

end Local

/-- A class with a public field and a method that branches, which begins on a given line. -/
def branchingClass (b : Nat) : Tree Node :=
  .node (.word .classDeclaration "C" b (b + 2))
    [.leaf ⟨.fieldDeclaration, some "x", ⟨true, false⟩, b, b⟩,
      .node (.word .methodDeclaration "m" (b + 1) (b + 2))
        [.node (.plain .formalParameters (b + 1) (b + 1)) [],
          .node (.plain .block (b + 1) (b + 2))
            [.node (.plain .ifStatement (b + 1) (b + 2))
              [.leaf (.word .name "x" (b + 1) (b + 1)),
                .leaf (.plain .returnStatement (b + 2) (b + 2))]]]]

theorem branchingClass_isClass (b : Nat) : IsClass (branchingClass b) := by
  have hx : IsIdentifier "x" := by decide
  apply IsClass.mk (by decide)
  refine List.forall_mem_cons.2 ⟨.field hx, List.forall_mem_singleton.2 ?_⟩
  apply IsMember.method (by decide) (List.forall_mem_nil _)
  exact List.forall_mem_singleton.2 (.branch (.name hx) .exit)

def behindImport : Document Node :=
  .ofTree (.node (.plain .compilationUnit 1 4)
    ([.leaf (.word .importDeclaration "a" 1 1)] ++ [branchingClass 2]))

def behindClass : Document Node :=
  .ofTree (.node (.plain .compilationUnit 1 9)
    ([] ++ [.node (.word .classDeclaration "D" 1 1)
      [.leaf ⟨.fieldDeclaration, some "y", .none, 1, 1⟩], branchingClass 7]))

/-- Asks for another metric and stops then. -/
def faltering : Calculator Node Nat where
  supports _ _ := true
  behaviour _ n o := .read fun runs =>
    .write (runs + 1) (.ask (.kept Metric.wmc.key n o) fun _ => .stop "faltered")

/-- A metric of another calculator was requested, and a computer with a pool of its own and other
operations was asked for the same metric. -/
def faltered : History behindImport where
  σ := Nat
  others := #[faltering]
  pool := 0
  pools := 2
  nodes := 9
  state := 0
  calls := [.request ⟨0, operations⟩ (.kept ⟨"FALTERING", 8⟩ 2 (.ofList [countImports])),
    .request ⟨1, fun _ _ => []⟩ (.kept Metric.wmc.key 2 .empty), .clear 1]
  shared := by
    intro c q hq hc
    simp only [List.mem_cons, Call.request.injEq, List.not_mem_nil, reduceCtorEq, or_false] at hq
    rcases hq with ⟨rfl, -⟩ | ⟨rfl, -⟩
    · rfl
    · cases hc

def untouched : History behindClass := ⟨Unit, #[], 0, 1, 11, (), [], fun _ _ h => nomatch h⟩

theorem metrics_local_behindImport :
    (∀ m ∈ [Metric.wmc, .classLoc, .nopa, .noam], ∃ x,
      faltered.value false m 2 (.ofList [countImports]) = .ok x ∧
      untouched.value true m 3 (.ofList [countImports]) = .ok x) ∧
    ∃ count,
      faltered.value false .classNcss 2 (.ofList [countImports]) =
        .ok (Number.ofCount (count + 1)) ∧
      untouched.value true .classNcss 3 (.ofList [countImports]) =
        .ok (Number.ofCount (count + 0)) := by
  have himport : IsImport (.leaf (.word .importDeclaration "a" 1 1)) :=
    .mk ⟨['a'], [], rfl, by decide, by decide⟩
  have hfirst : IsFile behindImport.tree := .mk (List.forall_mem_singleton.2 himport)
    (List.forall_mem_singleton.2 (branchingClass_isClass 2))
  have hsecond : IsFile behindClass.tree :=
    .mk (List.forall_mem_nil _) (List.forall_mem_cons.2 ⟨.mk (by decide)
      (List.forall_mem_singleton.2 (.field (by decide))),
      List.forall_mem_singleton.2 (branchingClass_isClass 7)⟩)
  have hn₁ : behindImport.tree? 2 = some (branchingClass 2) := rfl
  have hn₂ : behindClass.tree? 3 = some (branchingClass 7) := rfl
  have hsame : moved 5 (branchingClass 2) = moved 0 (branchingClass 7) := rfl
  obtain ⟨hclass, -, _, count, x₁, x₂, h₁, h₂, -, -, hx₁, hx₂⟩ := metrics_local hfirst hsecond hn₁
    hn₂ rfl hsame faltered untouched false true (.ofList [countImports])
  cases hx₁ (by decide)
  cases hx₂ (by decide)
  exact ⟨hclass, count, h₁, h₂⟩

end TreeMetrics.Twig
