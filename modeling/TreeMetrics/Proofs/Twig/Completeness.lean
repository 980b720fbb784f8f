import TreeMetrics.Proofs.Data.NameMap
import TreeMetrics.Proofs.Twig.Extent
import TreeMetrics.Proofs.Twig.Report

namespace TreeMetrics.Twig

namespace Metric

variable {t : Tree Node} {m m' : Metric}

theorem mem_of_supports (h : m.supports t = true) :
    isOf .classDeclaration t = true ∧ m ∈ ofClasses ∨
      isOf .methodDeclaration t = true ∧ m ∈ ofMethods := by
  cases m with
  | wmc | classNcss | classLoc | nopa | noam => exact .inl ⟨h, by decide⟩
  | cyclo | methodNcss => exact .inr ⟨(Bool.and_eq_true_iff.1 h).1, by decide⟩
  | methodLoc => exact .inr ⟨h, by decide⟩

theorem not_isOf_both (hc : isOf .classDeclaration t = true)
    (hm : isOf .methodDeclaration t = true) : False := by
  have hk := (beq_iff_eq.1 hc).symm.trans (beq_iff_eq.1 hm)
  cases hk

theorem name_injOn_ofClasses : ∀ m ∈ ofClasses, ∀ m' ∈ ofClasses, m.name = m'.name → m = m' := by
  decide

theorem name_injOn_ofMethods : ∀ m ∈ ofMethods, ∀ m' ∈ ofMethods, m.name = m'.name → m = m' := by
  decide

/-- No two metrics that support a tree have one name. -/
theorem eq_of_name_eq (h : m.supports t = true) (h' : m'.supports t = true)
    (hname : m.name = m'.name) : m = m' := by
  rcases mem_of_supports h with ⟨hc, hm⟩ | ⟨hc, hm⟩
  · rcases mem_of_supports h' with ⟨_, hm'⟩ | ⟨hc', _⟩
    · exact name_injOn_ofClasses m hm m' hm' hname
    · exact (not_isOf_both hc hc').elim
  · rcases mem_of_supports h' with ⟨hc', _⟩ | ⟨_, hm'⟩
    · exact (not_isOf_both hc' hc).elim
    · exact name_injOn_ofMethods m hm m' hm' hname

theorem supports_of_class (hc : isOf .classDeclaration t = true) :
    m.supports t = true ↔ m ∈ ofClasses := by
  constructor
  · intro h
    rcases mem_of_supports h with ⟨_, hm⟩ | ⟨hc', _⟩
    · exact hm
    · exact (not_isOf_both hc hc').elim
  · intro hm
    cases m with
    | wmc | classNcss | classLoc | nopa | noam => exact hc
    | cyclo | methodNcss | methodLoc => exact absurd hm (by decide)

theorem supports_of_method (hc : isOf .methodDeclaration t = true) :
    m.supports t = true ↔ m ∈ ofMethods ∧ (m = .methodLoc ∨ (body? t).isSome = true) := by
  constructor
  · intro h
    rcases mem_of_supports h with ⟨hc', _⟩ | ⟨_, hm⟩
    · exact (not_isOf_both hc' hc).elim
    · refine ⟨hm, ?_⟩
      cases m with
      | wmc | classNcss | classLoc | nopa | noam => exact absurd hm (by decide)
      | cyclo | methodNcss => exact .inr (Bool.and_eq_true_iff.1 h).2
      | methodLoc => exact .inl rfl
  · rintro ⟨hm, hbody⟩
    cases m with
    | wmc | classNcss | classLoc | nopa | noam => exact absurd hm (by decide)
    | cyclo | methodNcss =>
      rcases hbody with hbody | hbody
      · cases hbody
      · exact Bool.and_eq_true_iff.2 ⟨hc, hbody⟩
    | methodLoc => exact hc

end Metric

namespace Report

variable {config : Config} {parent c t : Tree Node} {m m' : Metric} {r r' : Reduction} {k : String}

theorem mem_valuesOn {v : String × Float} : v ∈ valuesOn config parent t ↔
    ∃ m : Metric, m.supports t = true ∧
      (m.name, m.value (importCount parent) t (config.optionsFor m.name)) = v := by
  have hall (m : Metric) : m ∈ Metric.all := by cases m <;> decide
  simp only [valuesOn, List.mem_map, List.mem_filter, hall, true_and]

theorem mem_names_values : k ∈ (NameMap.ofList (valuesOn config parent t)).names ↔
    ∃ m : Metric, m.supports t = true ∧ m.name = k := by
  rw [NameMap.mem_names_ofList, List.mem_map]
  constructor
  · rintro ⟨v, hv, rfl⟩
    obtain ⟨m, hm, rfl⟩ := mem_valuesOn.1 hv
    exact ⟨m, hm, rfl⟩
  · rintro ⟨m, hm, rfl⟩
    exact ⟨_, mem_valuesOn.2 ⟨m, hm, rfl⟩, rfl⟩

/-- No value is hidden by that of another metric. -/
theorem find?_values (hm : m.supports t = true) :
    (NameMap.ofList (valuesOn config parent t)).find? m.name =
      some (m.value (importCount parent) t (config.optionsFor m.name)) := by
  apply NameMap.find?_ofList
  · exact mem_valuesOn.2 ⟨m, hm, rfl⟩
  · intro x hx
    obtain ⟨m', hm', he⟩ := mem_valuesOn.1 hx
    obtain ⟨hname, rfl⟩ := Prod.mk.inj he
    rw [Metric.eq_of_name_eq hm' hm hname]

theorem find?_values_of_method (hc : isOf .methodDeclaration t = true)
    (hm : m ∈ Metric.ofMethods) : (NameMap.ofList (valuesOn config parent t)).find? m.name =
      if m.supports t = true then
        some (m.value (importCount parent) t (config.optionsFor m.name))
      else none := by
  split
  · rename_i h
    exact find?_values h
  · rename_i h
    rw [← Option.not_isSome_iff_eq_none, ← NameMap.mem_names_iff, mem_names_values]
    rintro ⟨m', hm', hname⟩
    obtain ⟨hmem, _⟩ := (Metric.supports_of_method hc).1 hm'
    rw [Metric.name_injOn_ofMethods m' hmem m hm hname] at hm'
    exact h hm'

theorem isOf_of_mem_methodsIn (h : t ∈ methodsIn c) : isOf .methodDeclaration t = true :=
  (List.mem_filter.1 h).2

/-- The values on the methods of a class are those in the reports on them. -/
theorem filterMap_find? (config : Config) (c : Tree Node) (hm : m ∈ Metric.ofMethods) :
    ((methodsIn c).map (onMethod config c)).filterMap (fun o => o.metrics.find? m.name) =
      valuesOver m c (config.optionsFor m.name) := by
  rw [List.filterMap_map, valuesOver, ← List.filterMap_eq_map, ← List.filterMap_eq_filter,
    List.filterMap_filterMap]
  apply List.filterMap_congr
  intro t ht
  simp only [Function.comp, onMethod, find?_values_of_method (isOf_of_mem_methodsIn ht) hm,
    Option.guard]
  split <;> rfl

theorem aggregateName_inj : ∀ m ∈ Metric.ofMethods, ∀ r ∈ Reduction.all, ∀ m' ∈ Metric.ofMethods,
    ∀ r' ∈ Reduction.all, m.name ++ "." ++ r.name = m'.name ++ "." ++ r'.name →
      m = m' ∧ r = r' := by
  decide

theorem unsigned_of_mem_valuesOver {o : OptionSet} {x : Float} (h : x ∈ valuesOver m c o) :
    Number.Unsigned x := by
  obtain ⟨t, _, rfl⟩ := List.mem_map.1 h
  exact m.unsigned_value _ t o

theorem valuesOver_ne_nil_iff (hm : m ∈ Metric.ofMethods) {o : OptionSet} :
    valuesOver m c o ≠ [] ↔ ∃ t ∈ methodsIn c, m = .methodLoc ∨ (body? t).isSome = true := by
  rw [valuesOver, Ne, List.map_eq_nil_iff, List.filter_eq_nil_iff]
  push Not
  apply exists_congr
  intro t
  apply and_congr_right
  intro ht
  rw [Metric.supports_of_method (isOf_of_mem_methodsIn ht)]
  exact and_iff_right hm

theorem length_valuesOver_le (m : Metric) (c : Tree Node) (o : OptionSet) :
    (valuesOver m c o).length ≤ c.children.length := by
  rw [valuesOver, List.length_map]
  exact Nat.le_trans (List.length_filter_le ..) (List.length_filter_le ..)

theorem mem_reductionsOn {v : String × Float} : v ∈ reductionsOn config c ↔
    ∃ m ∈ Metric.ofMethods, ∃ r ∈ config.aggregate,
      v = (m.name ++ "." ++ r.name, r.reduce (valuesOver m c (config.optionsFor m.name))) ∧
        v.2.isNaN = false := by
  rw [reductionsOn, List.mem_filter, List.mem_map, Bool.not_eq_true']
  constructor
  · rintro ⟨⟨⟨m, r⟩, hmr, rfl⟩, hnan⟩
    obtain ⟨hm, hr⟩ := List.mem_product.1 hmr
    exact ⟨m, hm, r, hr, rfl, hnan⟩
  · rintro ⟨m, hm, r, hr, rfl, hnan⟩
    exact ⟨⟨(m, r), List.mem_product.2 ⟨hm, hr⟩, rfl⟩, hnan⟩

theorem isNaN_reduce_valuesOver (hm : m ∈ Metric.ofMethods) (r : Reduction) {o : OptionSet}
    (hc : c.children.length < UInt64.size) : (r.reduce (valuesOver m c o)).isNaN = false ↔
      r = .sum ∨ ∃ t ∈ methodsIn c, m = .methodLoc ∨ (body? t).isSome = true := by
  rw [Reduction.isNaN_reduce, valuesOver_ne_nil_iff hm]
  · exact fun _ => unsigned_of_mem_valuesOver
  · exact Nat.lt_of_le_of_lt (length_valuesOver_le m c o) hc

theorem mem_names_reductions (hc : c.children.length < UInt64.size) :
    k ∈ (NameMap.ofList (reductionsOn config c)).names ↔
      ∃ m ∈ Metric.ofMethods, ∃ r ∈ config.aggregate, k = m.name ++ "." ++ r.name ∧
        (r = .sum ∨ ∃ t ∈ methodsIn c, m = .methodLoc ∨ (body? t).isSome = true) := by
  rw [NameMap.mem_names_ofList, List.mem_map]
  constructor
  · rintro ⟨v, hv, rfl⟩
    obtain ⟨m, hm, r, hr, rfl, hnan⟩ := mem_reductionsOn.1 hv
    exact ⟨m, hm, r, hr, rfl, (isNaN_reduce_valuesOver hm r hc).1 hnan⟩
  · rintro ⟨m, hm, r, hr, rfl, hdef⟩
    have hnan := (isNaN_reduce_valuesOver (o := config.optionsFor m.name) hm r hc).2 hdef
    exact ⟨_, mem_reductionsOn.2 ⟨m, hm, r, hr, rfl, hnan⟩, rfl⟩

theorem eq_of_find?_reductions (hm : m ∈ Metric.ofMethods) {x : Float}
    (h : (NameMap.ofList (reductionsOn config c)).find? (m.name ++ "." ++ r.name) = some x) :
    x = r.reduce (valuesOver m c (config.optionsFor m.name)) := by
  obtain ⟨m', hm', r', _, he, _⟩ := mem_reductionsOn.1 (NameMap.mem_of_find?_ofList h)
  obtain ⟨hname, rfl⟩ := Prod.mk.inj he
  have hall (r : Reduction) : r ∈ Reduction.all := by cases r <;> decide
  obtain ⟨rfl, rfl⟩ := aggregateName_inj m hm r (hall r) m' hm' r' (hall r') hname
  rfl

/-- A sum that is asked for is never missing, not even the sum over no methods. -/
theorem find?_sum (hm : m ∈ Metric.ofMethods) (hr : Reduction.sum ∈ config.aggregate) :
    (NameMap.ofList (reductionsOn config c)).find? (m.name ++ "." ++ Reduction.sum.name) =
      some (Reduction.sum.reduce (valuesOver m c (config.optionsFor m.name))) := by
  have hnan : (Reduction.sum.reduce (valuesOver m c (config.optionsFor m.name))).isNaN = false :=
    (Reduction.unsigned_sum fun _ => unsigned_of_mem_valuesOver).isNaN_eq_false
  have hmem := mem_reductionsOn.2 ⟨m, hm, .sum, hr, rfl, hnan⟩
  have hname := NameMap.mem_names_ofList.2 (List.mem_map_of_mem (f := Prod.fst) hmem)
  obtain ⟨x, hx⟩ := Option.isSome_iff_exists.1 (NameMap.mem_names_iff.1 hname)
  rw [hx, eq_of_find?_reductions hm hx]

end Report

/-- The report on a method has its name and line, and the value of every metric that supports it. -/
structure OperationReport.Covers (config : Config) (c : Tree Node) (report : OperationReport)
    (m : Tree Node) : Prop where
  name : m.label.image = some report.name
  beginLine : report.beginLine = m.label.beginLine
  metrics : ∀ k, k ∈ report.metrics.names ↔
    k = "LOC" ∨ (body? m).isSome = true ∧ (k = "CYCLO" ∨ k = "NCSS")
  values : ∀ metric : Metric, metric.supports m = true → report.metrics.find? metric.name =
    some (metric.value (importCount c) m ((Report.shareOptions config).optionsFor metric.name))

/-- The report on a class has its name and line, the value of every metric that supports it, reports
on its methods in order, and the reductions of the values in them. -/
structure ClassReport.Covers (config : Config) (unit : Tree Node) (report : ClassReport)
    (c : Tree Node) : Prop where
  name : c.label.image = some report.name
  beginLine : report.beginLine = c.label.beginLine
  metrics : ∀ k, k ∈ report.metrics.names ↔ k ∈ ["WMC", "NCSS", "LOC", "NOPA", "NOAM"]
  values : ∀ metric : Metric, metric.supports c = true → report.metrics.find? metric.name =
    some (metric.value (importCount unit) c ((Report.shareOptions config).optionsFor metric.name))
  operations : List.Forall₂ (OperationReport.Covers config c) report.operations (methodsIn c)
  aggregates : ∀ k, k ∈ report.aggregates.names ↔
    ∃ metric ∈ Metric.ofMethods, ∃ r ∈ config.aggregate, k = metric.name ++ "." ++ r.name ∧
      (r = .sum ∨ ∃ m ∈ methodsIn c, metric = .methodLoc ∨ (body? m).isSome = true)
  reductions : ∀ metric ∈ Metric.ofMethods, ∀ (r : Reduction) (x : Float),
    report.aggregates.find? (metric.name ++ "." ++ r.name) = some x →
      x = r.reduce (report.operations.filterMap fun o => o.metrics.find? metric.name)

namespace Report

variable {config : Config} {unit c m : Tree Node}

theorem shareOptions_aggregate (config : Config) :
    (shareOptions config).aggregate = config.aggregate := by
  unfold shareOptions
  split <;> rfl

theorem optionsFor_withOptions (config : Config) (k l : String) (o : OptionSet) :
    (config.withOptions k o).optionsFor l = if l = k then o else config.optionsFor l := by
  rw [Config.optionsFor, Config.withOptions, NameMap.find?_insert]
  split
  · rfl
  · rfl

theorem shareOptions_optionsFor {k : String} (hk : k ≠ "WMC") (config : Config) :
    (shareOptions config).optionsFor k = config.optionsFor k := by
  unfold shareOptions
  split
  · rw [optionsFor_withOptions, if_neg hk]
  · rfl

theorem onMethod_covers (hm : IsMember m) (hk : isOf .methodDeclaration m = true) :
    (onMethod (shareOptions config) c m).Covers config c m where
  name := by
    cases hm with
    | field _ => cases hk
    | declaration _ _ => rfl
    | method _ _ _ => rfl
  beginLine := rfl
  metrics k := by
    rw [onMethod, mem_names_values]
    constructor
    · rintro ⟨metric, h, rfl⟩
      obtain ⟨hmem, hloc | hbody⟩ := (Metric.supports_of_method hk).1 h
      · subst hloc
        exact .inl rfl
      · simp only [Metric.ofMethods, List.mem_cons, List.not_mem_nil, or_false] at hmem
        rcases hmem with rfl | rfl | rfl
        · exact .inr ⟨hbody, .inl rfl⟩
        · exact .inr ⟨hbody, .inr rfl⟩
        · exact .inl rfl
    · rintro (rfl | ⟨hbody, rfl | rfl⟩)
      · exact ⟨.methodLoc, (Metric.supports_of_method hk).2 ⟨by decide, .inl rfl⟩, rfl⟩
      · exact ⟨.cyclo, (Metric.supports_of_method hk).2 ⟨by decide, .inr hbody⟩, rfl⟩
      · exact ⟨.methodNcss, (Metric.supports_of_method hk).2 ⟨by decide, .inr hbody⟩, rfl⟩
  values _ h := find?_values h

theorem forall₂_onMethod (h : ∀ m ∈ c.children, IsMember m) :
    List.Forall₂ (OperationReport.Covers config c)
      ((methodsIn c).map (onMethod (shareOptions config) c)) (methodsIn c) := by
  rw [List.forall₂_map_left_iff, List.forall₂_same]
  intro m hm
  obtain ⟨hm, hk⟩ := List.mem_filter.1 hm
  exact onMethod_covers (h m hm) hk

theorem onClass_covers (hc : IsClass c) (hlength : c.children.length < UInt64.size) :
    (onClass (shareOptions config) unit c).Covers config unit c := by
  have hkind : isOf .classDeclaration c = true := by
    cases hc
    rfl
  constructor
  case name =>
    cases hc
    rfl
  case beginLine => rfl
  case metrics =>
    intro k
    have hnames : ["WMC", "NCSS", "LOC", "NOPA", "NOAM"] = Metric.ofClasses.map Metric.name := rfl
    rw [onClass, mem_names_values, hnames, List.mem_map]
    simp only [Metric.supports_of_class hkind]
  case values =>
    intro _ h
    exact find?_values h
  case operations =>
    obtain ⟨_, hmembers⟩ := hc
    exact forall₂_onMethod hmembers
  case aggregates =>
    intro k
    rw [← shareOptions_aggregate]
    exact mem_names_reductions hlength
  case reductions =>
    intro metric hmetric r x hx
    rw [onClass, filterMap_find? _ _ hmetric]
    exact eq_of_find?_reductions hmetric hx

theorem isClass_of_mem {t : Tree Node} (ht : IsFile t) (hc : c ∈ classesIn t) : IsClass c := by
  obtain ⟨himports, hclasses⟩ := ht
  obtain ⟨hc, hk⟩ := List.mem_filter.1 hc
  rcases List.mem_append.1 hc with hc | hc
  · obtain ⟨_⟩ := himports c hc
    cases hk
  · exact hclasses c hc

/-- A source that can be read has a report, which says of each class what its tree says. -/
theorem exists_analyze_eq {source : String} {t : Tree Node} (config : Config) (ht : IsFile t)
    (h : parse source = .ok t) : ∃ poolSize, analyze source config =
      .ok ⟨(classesIn t).map (onClass (shareOptions config) t), poolSize,
        (Document.ofTree t).size⟩ := by
  have htree : (Document.ofTree t).tree = t := rfl
  have hdoc : Conditioned (Document.ofTree t).tree := .file ht
  obtain ⟨poolSize, hreport⟩ := ofDocument_eq hdoc config
  rw [htree] at hreport
  refine ⟨poolSize, ?_⟩
  unfold analyze
  rw [h]
  dsimp only
  rw [hreport]
  rfl

end Report

/-- Every source that can be read gets a complete report under every configuration. A machine word
counts its characters, hence also the methods of a class, by whose number averages divide. -/
theorem analyze_complete (source : String) (config : Config) (t : Tree Node)
    (hsource : source.length < UInt64.size) (h : parse source = .ok t) :
    ∃ report, analyze source config = .ok report ∧
      List.Forall₂ (ClassReport.Covers config t) report.classes (classesIn t) ∧
      report.nodes = (Document.ofTree t).size ∧
      ∀ (u : Tree Node) (m m' : Metric), m.supports u = true → m'.supports u = true →
        m.name = m'.name → m = m' := by
  obtain ⟨tree, hfits, hb⟩ := exists_fits_of_parse h
  have ht := isFile_of_builds hfits hb
  obtain ⟨poolSize, hreport⟩ := Report.exists_analyze_eq config ht h
  refine ⟨_, hreport, ?_, rfl, fun u m m' => Metric.eq_of_name_eq⟩
  rw [List.forall₂_map_left_iff, List.forall₂_same]
  intro c hc
  apply Report.onClass_covers (Report.isClass_of_mem ht hc)
  exact Nat.lt_of_le_of_lt (length_children_le h c (List.mem_filter.1 hc).1) hsource

/-- A class with methods of both sorts, and one without members. -/
def twoClasses : String :=
  "class C \x7b field x; method f(p) \x7b if (p) return x; \x7d method g(); \x7d class D \x7b \x7d"

def allReductions : Config := ⟨.empty, [.average, .sum, .highest, .sum]⟩

theorem analyze_complete_twoClasses :
    ∃ t report, parse twoClasses = .ok t ∧ (classesIn t).length = 2 ∧
      analyze twoClasses allReductions = .ok report ∧
      List.Forall₂ (ClassReport.Covers allReductions t) report.classes (classesIn t) ∧
      report.nodes = (Document.ofTree t).size := by
  have hparse : (parse twoClasses).toOption.any (fun t => (classesIn t).length == 2) = true := by
    decide +kernel
  obtain ⟨t, ht⟩ := exists_ok_of_isSome (Option.isSome_of_any hparse)
  rw [ht] at hparse
  obtain ⟨report, hreport, hclasses, hnodes, _⟩ :=
    analyze_complete twoClasses allReductions t (by decide +kernel) ht
  exact ⟨t, report, ht, beq_iff_eq.1 hparse, hreport, hclasses, hnodes⟩

end TreeMetrics.Twig
