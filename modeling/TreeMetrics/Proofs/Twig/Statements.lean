import TreeMetrics.Proofs.Document.Search
import TreeMetrics.Proofs.Metric.Exact
import TreeMetrics.Proofs.Twig.Completeness
import TreeMetrics.Proofs.Twig.Layers
import TreeMetrics.Proofs.Twig.Locality

namespace TreeMetrics

namespace Twig

section Counting

open TreeMetrics.Tree

variable {t u c m : Tree Node} {us ms : List (Tree Node)}

theorem countP_imports (h : ∀ u ∈ us, OnLayer 1 u) :
    us.countP (isOf .importDeclaration) =
      (us.flatMap subtrees).countP (isOf .importDeclaration) := by
  induction us with
  | nil => rfl
  | cons u us ih =>
    obtain ⟨hu, hus⟩ := List.forall_mem_cons.1 h
    have hbelow : u.descendants.countP (isOf .importDeclaration) = 0 := by
      rw [List.countP_eq_zero]
      intro v hv hk
      have hlayer := hu.le_of_mem_descendants hv
      rw [isOf, beq_iff_eq] at hk
      rw [hk] at hlayer
      exact absurd hlayer (by decide)
    obtain ⟨a, ts⟩ := u
    rw [descendants, children] at hbelow
    rw [List.flatMap_cons, List.countP_append, subtrees, List.countP_cons, List.countP_cons, hbelow,
      ih hus]
    omega

/-- The imports of a file stand right below it. -/
theorem IsFile.importCount_eq (h : IsFile t) :
    importCount t = t.descendants.countP (isOf .importDeclaration) := by
  obtain ⟨hroot, ⟨hlayer, hts⟩⟩ := h.onLayer
  rw [importCount, descendants, subtreesAll_eq_flatMap]
  apply countP_imports
  intro u hu
  refine ⟨?_, hts u hu⟩
  rw [hlayer u hu]
  rw [label] at hroot
  rw [hroot]
  rfl

/-- A method counts for one, and so does each statement in it. -/
def methodStatements (m : Tree Node) : Nat := 1 + statementsBelow m

theorem IsMember.countP_subtrees (h : IsMember m) :
    m.subtrees.countP isCounted = methodStatements m := by
  -- No declaration stands below a member, so both tests agree there.
  have hbelow : m.descendants.countP isCounted =
      m.descendants.countP fun t => t.label.kind.isStatement := by
    apply List.countP_congr
    intro u hu
    have hlayer := h.onLayer.le_of_mem_descendants hu
    rw [isCounted, isOf, isOf]
    cases hk : u.label.kind with
    | fieldDeclaration | methodDeclaration =>
      rw [hk] at hlayer
      exact absurd hlayer (by decide)
    | _ => rfl
  have hroot : isCounted m = true := by
    cases h with
    | _ => rfl
  obtain ⟨a, ts⟩ := m
  rw [subtrees, List.countP_cons_of_pos hroot, Nat.add_comm]
  exact congrArg (1 + ·) hbelow

theorem IsClass.countedBelow_eq_sum (h : IsClass c) :
    countedBelow c = (c.children.map methodStatements).sum := by
  obtain ⟨_, members⟩ := h
  rw [countedBelow, descendants, subtreesAll_eq_flatMap, List.countP_flatMap]
  apply congrArg List.sum
  apply List.map_congr_left
  intro m hm
  exact (members m hm).countP_subtrees

theorem methodStatements_declaration {a : Node} {b e : Nat} {params : List (Tree Node)}
    (h : ∀ p ∈ params, IsParameter p) :
    methodStatements (.node a [.node (.plain .formalParameters b e) params]) = 1 := by
  have hnone : (descendants (.node a [.node (.plain .formalParameters b e) params])).countP
      (fun t => t.label.kind.isStatement) = 0 := by
    rw [List.countP_eq_zero]
    intro u hu
    rw [descendants, children, subtreesAll, subtreesAll, List.append_nil, subtrees, List.mem_cons,
      subtreesAll_eq_flatMap, List.mem_flatMap] at hu
    rcases hu with rfl | ⟨p, hp, hu⟩
    · exact Bool.false_ne_true
    · obtain ⟨_⟩ := h p hp
      obtain rfl := List.mem_singleton.1 hu
      exact Bool.false_ne_true
  rw [methodStatements, statementsBelow, hnone]

/-- Fields and methods without a body count for one. -/
theorem sum_methodStatements (h : ∀ m ∈ ms, IsMember m) :
    (ms.map methodStatements).sum = (ms.filter (isOf .fieldDeclaration)).length +
      ((ms.filter (isOf .methodDeclaration)).filter fun m => (body? m).isNone).length +
      (((ms.filter (isOf .methodDeclaration)).filter fun m => (body? m).isSome).map
        methodStatements).sum := by
  induction ms with
  | nil => rfl
  | cons m ms ih =>
    obtain ⟨hm, hms⟩ := List.forall_mem_cons.1 h
    rw [List.map_cons, List.sum_cons, ih hms]
    cases hm with
    | field hw =>
      rw [List.filter_cons_of_pos rfl, List.filter_cons_of_neg Bool.false_ne_true, List.length_cons]
      show 1 + _ = _
      omega
    | declaration hw params =>
      rw [List.filter_cons_of_neg Bool.false_ne_true, List.filter_cons_of_pos rfl,
        List.filter_cons_of_pos rfl, List.filter_cons_of_neg Bool.false_ne_true, List.length_cons,
        methodStatements_declaration params]
      omega
    | method hw params body =>
      rw [List.filter_cons_of_neg Bool.false_ne_true, List.filter_cons_of_pos rfl,
        List.filter_cons_of_neg Bool.false_ne_true, List.filter_cons_of_pos rfl, List.map_cons,
        List.sum_cons]
      omega

theorem IsClass.methodStatements_le (h : IsClass c) (hm : m ∈ c.children) :
    methodStatements m ≤ countedBelow c := by
  rw [h.countedBelow_eq_sum]
  exact List.le_sum_of_mem (List.mem_map_of_mem hm)

end Counting

section Nodes

open Document Report

def fields (doc : Document Node) (c : NodeId) : List NodeId :=
  (doc.children c).filter (doc.isKind Kind.fieldDeclaration.text)

def bodyless (doc : Document Node) (c : NodeId) : List NodeId :=
  (operations doc c).filter fun m => (methodBody? doc m).isNone

def concrete (doc : Document Node) (c : NodeId) : List NodeId :=
  (operations doc c).filter fun m => (methodBody? doc m).isSome

def statesAt (doc : Document Node) (n : NodeId) : Bool :=
  (doc.tree? n).any fun t => t.label.kind.isStatement

def statesBelow (doc : Document Node) (m : NodeId) : Nat :=
  (doc.descendants m).countP (statesAt doc)

def statementsOf (doc : Document Node) (m : NodeId) : Nat := 1 + statesBelow doc m

/-- What the members of a class count: one for a field and for a method without a body, and for the
other methods their statements. -/
def memberStatements (doc : Document Node) (c : NodeId) : Nat :=
  (fields doc c).length + (bodyless doc c).length + ((concrete doc c).map (statementsOf doc)).sum

/-- What a class counts apart from its methods with a body: itself, its fields and its other
methods. -/
def ownStatements (doc : Document Node) (c : NodeId) : Nat :=
  1 + (fields doc c).length + (bodyless doc c).length

/-- The imports anywhere in a file, if they are to be counted. -/
def importsCounted (doc : Document Node) (o : OptionSet) : Nat :=
  if o.contains countImports then
    (doc.descendants root).countP (doc.isKind Kind.importDeclaration.text)
  else 0

variable {doc : Document Node} {n index : Nat} {parent : Option NodeId} {t c : Tree Node}

theorem statesBelow_eq (h : doc.Stands n t parent index) :
    statesBelow doc n = statementsBelow t := by
  rw [statesBelow, statementsBelow, h.countP_descendants]
  intro m u parent index hu
  rw [statesAt, hu.tree?]
  rfl

theorem map_statementsOf (h : doc.Stands n c parent index) :
    (concrete doc n).map (statementsOf doc) =
      ((methodsIn c).filter fun m => (body? m).isSome).map methodStatements := by
  have hrows := forall₂_chosen h (p := fun m => (methodBody? doc m).isSome)
    (q := fun m => (body? m).isSome) isSome_methodBody?
  rw [← List.forall₂_eq_eq_eq, List.forall₂_map_left_iff, List.forall₂_map_right_iff]
  apply hrows.imp
  intro m t hm
  obtain ⟨i, hm⟩ := hm
  rw [statementsOf, statesBelow_eq hm, methodStatements]

theorem countedBelow_eq (hc : IsClass c) (h : doc.Stands n c parent index) :
    countedBelow c = memberStatements doc n := by
  have hmembers : ∀ m ∈ c.children, IsMember m := by
    obtain ⟨_, members⟩ := hc
    exact members
  have hfields := (forall₂_ofKind h .fieldDeclaration).length_eq
  have hbodyless := (forall₂_chosen h (p := fun m => (methodBody? doc m).isNone)
    (q := fun m => (body? m).isNone) fun hm => by
      rw [← Option.not_isSome, ← Option.not_isSome, isSome_methodBody? hm]).length_eq
  rw [hc.countedBelow_eq_sum, sum_methodStatements hmembers, memberStatements, map_statementsOf h,
    fields, hfields, bodyless, hbodyless]
  rfl

/-- Classes stand right below the file, beside its imports. -/
theorem IsFile.class_of_stands (hdoc : IsFile doc.tree) (h : doc.Stands n c parent index)
    (hk : isOf .classDeclaration c = true) :
    c ∈ classesIn doc.tree ∧ importsBeside doc n = importCount doc.tree := by
  have hlayers := hdoc.onLayer
  have hc : c.label.kind.layer = 1 := by
    rw [eq_of_beq hk]
    rfl
  cases h with
  | root => exact absurd (hlayers.1.symm.trans hc) Nat.zero_ne_one
  | @child p a us v vs grand i hp =>
    obtain ⟨hbelow, -⟩ := hlayers.2.of_stands hp
    have hmem : c ∈ us ++ c :: vs := List.mem_append_right _ List.mem_cons_self
    have hac := hbelow c hmem
    have ha : (Tree.node a (us ++ c :: vs)).label.kind.layer = 0 := by
      rw [Tree.label]
      omega
    rcases hlayers.exists_above hp (by omega) with ⟨htop, -⟩ | ⟨_, _, _, _, _, _, hup⟩
    · rw [← htop]
      exact ⟨List.mem_filter.2 ⟨hmem, hk⟩, importsBeside_eq hp (.child hp)⟩
    · omega

theorem importsCounted_eq (hdoc : IsFile doc.tree) (o : OptionSet) :
    importsCounted doc o = if o.contains countImports then importCount doc.tree else 0 := by
  have hcount : (doc.descendants root).countP (doc.isKind Kind.importDeclaration.text) =
      doc.tree.descendants.countP (isOf .importDeclaration) :=
    Stands.root.countP_descendants fun h => isKind_text h _
  rw [importsCounted, hcount, ← hdoc.importCount_eq]

theorem value_classNcss (hdoc : IsFile doc.tree) (hs : doc.Stands n c parent index)
    (hk : isOf .classDeclaration c = true) (h : History doc) (again : Bool) (o : OptionSet) :
    h.value again .classNcss n o = .ok (Metric.value (importsBeside doc n) c o .classNcss) := by
  rw [h.value_eq (.file hdoc) hs, Metric.supports, hk, if_pos rfl]

theorem classNcss_eq (hdoc : IsFile doc.tree) (hs : doc.Stands n c parent index)
    (hk : isOf .classDeclaration c = true) (o : OptionSet) :
    Metric.value (importsBeside doc n) c o .classNcss =
      if o.contains countImports then
        1.0 + Number.ofCount (memberStatements doc n) + Number.ofCount (importsCounted doc o)
      else 1.0 + Number.ofCount (memberStatements doc n) := by
  obtain ⟨hmem, himports⟩ := hdoc.class_of_stands hs hk
  rw [Metric.value, himports, countedBelow_eq (isClass_of_mem hdoc hmem) hs, importsCounted_eq hdoc]
  split
  · rfl
  · rfl

theorem classNcss_eq_ofCount (hdoc : IsFile doc.tree) (hs : doc.Stands n c parent index)
    (hk : isOf .classDeclaration c = true) (hsize : doc.size ≤ Number.exactLimit) (o : OptionSet) :
    Metric.value (importsBeside doc n) c o .classNcss = Number.ofCount (ownStatements doc n +
      importsCounted doc o + ((concrete doc n).map (statementsOf doc)).sum) := by
  obtain ⟨hmem, himports⟩ := hdoc.class_of_stands hs hk
  rw [value_classNcss_exact hdoc hs hk hsize, himports, ← importsCounted_eq hdoc,
    countedBelow_eq (isClass_of_mem hdoc hmem) hs, memberStatements, ownStatements]
  congr 1
  omega

theorem value_methodNcss (hdoc : IsFile doc.tree) {m : NodeId} (hm : m ∈ concrete doc n)
    (h : History doc) (again : Bool) (o : OptionSet) :
    h.value again .methodNcss m o = .ok (1.0 + Number.ofCount (statesBelow doc m)) ∧
      1 + statesBelow doc m < doc.size := by
  obtain ⟨hm, hbody⟩ := List.mem_filter.1 hm
  rw [operations_eq] at hm
  obtain ⟨-, hkind⟩ := List.mem_filter.1 hm
  obtain ⟨t, parent, index, hs⟩ := exists_stands_of_isKind hkind
  rw [isKind_text hs] at hkind
  rw [isSome_methodBody? hs] at hbody
  have hconcrete : isConcrete t = true := Bool.and_eq_true_iff.2 ⟨hkind, hbody⟩
  constructor
  · rw [h.value_eq (.file hdoc) hs, Metric.supports, hconcrete, if_pos rfl, Metric.value,
      statesBelow_eq hs]
  · have hlt := hdoc.length_descendants_lt hs (by rw [eq_of_beq hkind]; exact Kind.noConfusion)
    have hle : statesBelow doc m ≤ (doc.descendants m).length := List.countP_le_length
    omega

/-- Up to the size that numbers tell apart, no count of a class is rounded. -/
theorem statements_lt (hdoc : IsFile doc.tree) (hs : doc.Stands n c parent index)
    (hk : isOf .classDeclaration c = true) (hsize : doc.size ≤ Number.exactLimit) (o : OptionSet) :
    ownStatements doc n + importsCounted doc o +
      ((concrete doc n).map (statementsOf doc)).sum < 2 ^ 53 := by
  obtain ⟨hmem, -⟩ := hdoc.class_of_stands hs hk
  have hlt := counted_add_importCount_lt hmem
  have himports : importsCounted doc o ≤ importCount doc.tree := by
    rw [importsCounted_eq hdoc]
    split
    · exact Nat.le_refl _
    · exact Nat.zero_le _
  have hlimit : Number.exactLimit = 2 ^ 53 := rfl
  rw [countedBelow_eq (isClass_of_mem hdoc hmem) hs, ← size_eq, memberStatements] at hlt
  rw [ownStatements]
  omega

theorem valuesOver_methodNcss (hc : IsClass c) (h : doc.Stands n c parent index)
    (hlt : 1 + countedBelow c < 2 ^ 53) (o : OptionSet) :
    valuesOver .methodNcss c o =
      (((concrete doc n).map (statementsOf doc)).map Number.ofCount) := by
  have hfilter : (methodsIn c).filter Metric.methodNcss.supports =
      (methodsIn c).filter fun m => (body? m).isSome := by
    apply List.filter_congr
    intro m hm
    rw [Metric.supports, isConcrete, isOf_of_mem_methodsIn hm, Bool.true_and]
  rw [valuesOver, hfilter, map_statementsOf h, List.map_map]
  apply List.map_congr_left
  intro m hm
  have hle := hc.methodStatements_le (List.mem_filter.1 (List.mem_filter.1 hm).1).1
  rw [methodStatements] at hle
  exact Number.one_add_ofCount (by omega)

theorem onClass_ncss (hdoc : IsFile doc.tree) (hs : doc.Stands n c parent index)
    (hk : isOf .classDeclaration c = true) (hsize : doc.size ≤ Number.exactLimit) {config : Config}
    (hoption : (config.optionsFor "NCSS").contains countImports = false)
    (hsum : Reduction.sum ∈ config.aggregate) :
    ∃ x s, (onClass (shareOptions config) doc.tree c).metrics.find? "NCSS" = some x ∧
      (onClass (shareOptions config) doc.tree c).aggregates.find? "NCSS.sum" = some s ∧
      x - s = Number.ofCount (ownStatements doc n) := by
  obtain ⟨hmem, himports⟩ := hdoc.class_of_stands hs hk
  have hlt := statements_lt hdoc hs hk hsize .empty
  have hcounted := countedBelow_eq (isClass_of_mem hdoc hmem) hs
  rw [memberStatements] at hcounted
  rw [ownStatements] at hlt
  rw [← shareOptions_aggregate] at hsum
  rw [← shareOptions_optionsFor (by decide)] at hoption
  have hclass : (onClass (shareOptions config) doc.tree c).metrics.find? "NCSS" =
      some (Number.ofCount (ownStatements doc n +
        ((concrete doc n).map (statementsOf doc)).sum)) := by
    have hvalue := classNcss_eq_ofCount hdoc hs hk hsize ((shareOptions config).optionsFor "NCSS")
    rw [importsCounted, hoption, if_neg Bool.false_ne_true, Nat.add_zero, himports] at hvalue
    show (NameMap.ofList (valuesOn _ _ c)).find? Metric.classNcss.name = _
    rw [find?_values (m := .classNcss) hk]
    exact congrArg some hvalue
  have htotal : (onClass (shareOptions config) doc.tree c).aggregates.find? "NCSS.sum" =
      some (Number.ofCount ((concrete doc n).map (statementsOf doc)).sum) := by
    have hname : "NCSS.sum" = Metric.methodNcss.name ++ "." ++ Reduction.sum.name := by decide
    rw [hname, onClass, find?_sum (by decide) hsum,
      valuesOver_methodNcss (isClass_of_mem hdoc hmem) hs (by omega),
      Reduction.sum_ofCount (by omega)]
  refine ⟨_, _, hclass, htotal, ?_⟩
  rw [Number.ofCount_sub (Nat.le_add_left _ _) (by rw [ownStatements]; omega), Nat.add_sub_cancel]

theorem forall₂_classes (doc : Document Node) :
    List.Forall₂ (fun c n => isOf .classDeclaration c = true ∧ ∃ i, doc.Stands n c (some root) i)
      (classesIn doc.tree) (classesOf doc) := by
  rw [List.forall₂_and_left]
  exact ⟨fun _ hc => (List.mem_filter.1 hc).2, (forall₂_classesOf doc).flip⟩

end Nodes

open Document Report

/-- The statements of a class are itself, its fields, its methods without a body, the statements of
its other methods and, if they are to be counted, the imports of the file. As long as no number of
nodes is rounded the value of the class is its own share and the sum of the values of its methods,
and in a report without imports the value of a class less the sum over its methods is that share. -/
theorem classNcss_decomposes (source : String) (t : Tree Node) (hp : parse source = .ok t) :
    (∀ c, (ofTree t).isKind Kind.classDeclaration.text c = true →
      ∀ (h : History (ofTree t)) (again : Bool) (o o' : OptionSet),
        (∀ m ∈ concrete (ofTree t) c, h.value again .methodNcss m o' =
          .ok (1.0 + Number.ofCount (statesBelow (ofTree t) m))) ∧
        h.value again .classNcss c o = .ok (if o.contains countImports then
            1.0 + Number.ofCount (memberStatements (ofTree t) c) +
              Number.ofCount (importsCounted (ofTree t) o)
          else 1.0 + Number.ofCount (memberStatements (ofTree t) c)) ∧
        ((ofTree t).size ≤ Number.exactLimit →
          (∀ m ∈ concrete (ofTree t) c,
            h.value again .methodNcss m o' = .ok (Number.ofCount (statementsOf (ofTree t) m))) ∧
          h.value again .classNcss c o = .ok (Number.ofCount (ownStatements (ofTree t) c +
            importsCounted (ofTree t) o +
              ((concrete (ofTree t) c).map (statementsOf (ofTree t))).sum)) ∧
          h.value again .classNcss c o =
            .ok (Number.ofCount (ownStatements (ofTree t) c + importsCounted (ofTree t) o) +
              Reduction.sum.reduce ((concrete (ofTree t) c).map fun m =>
                Number.ofCount (statementsOf (ofTree t) m))))) ∧
    ((ofTree t).size ≤ Number.exactLimit → ∀ config : Config,
      (config.optionsFor "NCSS").contains countImports = false →
      Reduction.sum ∈ config.aggregate →
      ∃ report, analyze source config = .ok report ∧
        List.Forall₂ (fun r c => ∃ x s, r.metrics.find? "NCSS" = some x ∧
            r.aggregates.find? "NCSS.sum" = some s ∧
            x - s = Number.ofCount (ownStatements (ofTree t) c))
          report.classes (classesOf (ofTree t))) := by
  obtain ⟨pt, hfits, hb⟩ := exists_fits_of_parse hp
  have hfile : IsFile (ofTree t).tree := isFile_of_builds hfits hb
  constructor
  · intro c hc h again o o'
    obtain ⟨u, parent, index, hs⟩ := exists_stands_of_isKind hc
    rw [isKind_text hs] at hc
    have hvalue := value_classNcss hfile hs hc h again o
    refine ⟨fun m hm => (value_methodNcss hfile hm h again o').1, ?_, fun hsize => ⟨?_, ?_, ?_⟩⟩
    · rw [hvalue, classNcss_eq hfile hs hc]
    · intro m hm
      obtain ⟨hmethod, hlt⟩ := value_methodNcss hfile hm h again o'
      rw [hmethod, Number.one_add_ofCount (Nat.lt_of_lt_of_le hlt hsize), statementsOf]
    · rw [hvalue, classNcss_eq_ofCount hfile hs hc hsize]
    · have hlt := statements_lt hfile hs hc hsize o
      rw [hvalue, classNcss_eq_ofCount hfile hs hc hsize, ← Number.ofCount_add hlt,
        ← Reduction.sum_ofCount (by omega), List.map_map]
      rfl
  · intro hsize config hoption hsum
    obtain ⟨poolSize, hreport⟩ := exists_analyze_eq config hfile hp
    refine ⟨_, hreport, ?_⟩
    rw [List.forall₂_map_left_iff]
    apply (forall₂_classes (ofTree t)).imp
    rintro c n ⟨hk, i, hs⟩
    exact onClass_ncss hfile hs hk hsize hoption hsum

/-- A source with an import and a class that has members of all sorts. -/
def mixedMembers : String :=
  "import a.b; class C \x7b field x; abstract method g(p); method f(p) \x7b if (p) return x;
    else \x7b x = p; g(p); \x7d \x7d method h() \x7b \x7d \x7d"

theorem classNcss_decomposes_mixedMembers :
    ∃ t report, parse mixedMembers = .ok t ∧
      (ofTree t).isKind Kind.classDeclaration.text 2 = true ∧
      (ofTree t).size ≤ Number.exactLimit ∧
      (∀ (h : History (ofTree t)) (again : Bool),
        h.value again .classNcss 2 .empty =
          .ok (Number.ofCount 3 + Reduction.sum.reduce [Number.ofCount 6, Number.ofCount 1]) ∧
        h.value again .classNcss 2 (.ofList [countImports]) = .ok (Number.ofCount 11)) ∧
      analyze mixedMembers ⟨.empty, [.sum]⟩ = .ok report ∧
      List.Forall₂ (fun r _ => ∃ x s, r.metrics.find? "NCSS" = some x ∧
        r.aggregates.find? "NCSS.sum" = some s ∧ x - s = Number.ofCount 3) report.classes [2] := by
  have hrun : ((parse mixedMembers).toOption.map fun t =>
      (((ofTree t).isKind Kind.classDeclaration.text 2, (ofTree t).size, classesOf (ofTree t)),
        (concrete (ofTree t) 2).map (statementsOf (ofTree t)), ownStatements (ofTree t) 2,
        importsCounted (ofTree t) .empty, importsCounted (ofTree t) (.ofList [countImports]))) =
      some ((true, 29, [2]), [6, 1], 3, 0, 1) := by
    decide +kernel
  cases hp : parse mixedMembers with
  | error e =>
    rw [hp] at hrun
    cases hrun
  | ok t =>
    rw [hp] at hrun
    have hcounts := Option.some.inj hrun
    simp only [Prod.mk.injEq] at hcounts
    obtain ⟨⟨hc, hnodes, hclasses⟩, hmethods, hown, hnone, hone⟩ := hcounts
    have hsize : (ofTree t).size ≤ Number.exactLimit := by
      rw [hnodes]
      decide
    obtain ⟨hvalues, hreports⟩ := classNcss_decomposes mixedMembers t hp
    obtain ⟨report, hreport, hrows⟩ := hreports hsize ⟨.empty, [.sum]⟩ rfl List.mem_cons_self
    have hmap := congrArg (List.map Number.ofCount) hmethods
    rw [List.map_map] at hmap
    refine ⟨t, report, rfl, hc, hsize, ?_, hreport, ?_⟩
    · intro h again
      obtain ⟨-, -, hplain⟩ := (hvalues 2 hc h again .empty .empty).2.2 hsize
      obtain ⟨-, hwhole, -⟩ := (hvalues 2 hc h again (.ofList [countImports]) .empty).2.2 hsize
      rw [hown, hnone] at hplain
      rw [hown, hone, hmethods] at hwhole
      refine ⟨hplain.trans ?_, hwhole⟩
      exact congrArg (fun xs => Except.ok (Number.ofCount 3 + Reduction.sum.reduce xs)) hmap
    · rw [hclasses] at hrows
      generalize report.classes = rs at hrows
      cases hrows with
      | cons hrow hrest =>
        cases hrest
        rw [hown] at hrow
        exact .cons hrow .nil

end Twig

end TreeMetrics
