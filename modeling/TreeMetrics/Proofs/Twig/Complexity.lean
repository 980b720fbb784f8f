import TreeMetrics.Proofs.Twig.Completeness

namespace TreeMetrics.Twig

namespace Report

variable {config : Config} {unit c : Tree Node}

/-- Options of `WMC` go before those of `CYCLO`. -/
theorem shareOptions_wmc (config : Config) : (shareOptions config).optionsFor "WMC" =
    (config.options.find? "WMC").getD (config.optionsFor "CYCLO") := by
  unfold shareOptions
  split
  · rename_i o hcyclo hwmc
    rw [optionsFor_withOptions, if_pos rfl, hwmc, Config.optionsFor, hcyclo]
    rfl
  · rename_i hnone
    rw [Config.optionsFor, Config.optionsFor]
    cases hwmc : config.options.find? "WMC" with
    | some w => rfl
    | none =>
      cases hcyclo : config.options.find? "CYCLO" with
      | some o => exact (hnone o hcyclo hwmc).elim
      | none => rfl

theorem find?_wmc (hc : isOf .classDeclaration c = true) :
    (onClass config unit c).metrics.find? "WMC" =
      some (Reduction.sum.reduce (valuesOver .cyclo c (config.optionsFor "WMC"))) :=
  find?_values (m := .wmc) hc

theorem find?_sum_cyclo (hsum : Reduction.sum ∈ config.aggregate) :
    (onClass config unit c).aggregates.find? "CYCLO.sum" =
      some (Reduction.sum.reduce (valuesOver .cyclo c (config.optionsFor "CYCLO"))) := by
  have hname : "CYCLO.sum" = Metric.cyclo.name ++ "." ++ Reduction.sum.name := by decide
  rw [hname]
  exact find?_sum (by decide) hsum

theorem sum_cyclo_eq_total :
    Reduction.sum.reduce (valuesOver .cyclo c (config.optionsFor "CYCLO")) =
      Reduction.total ((onClass config unit c).operations.filterMap fun m =>
        m.metrics.find? "CYCLO") := by
  have hcyclo : Metric.cyclo ∈ Metric.ofMethods := by decide
  have hentries : (onClass config unit c).operations.filterMap (fun m => m.metrics.find? "CYCLO") =
      valuesOver .cyclo c (config.optionsFor "CYCLO") := filterMap_find? config c hcyclo
  rw [hentries, Reduction.reduce, Reduction.filter_known fun _ => unsigned_of_mem_valuesOver]

end Report

open Report

/-- Of classes whose options are not their own, the complexity is the reported sum of those of their
methods, added up in the order of the methods. If they have options of their own it is the sum that
is reported when the methods have those options too. -/
theorem wmc_agrees_with_cyclo (source : String) (t : Tree Node) (config : Config)
    (hp : parse source = .ok t) (hsum : Reduction.sum ∈ config.aggregate) :
    ∃ report, analyze source config = .ok report ∧
      (config.options.find? "WMC" = none →
        ∀ r ∈ report.classes, ∃ x, r.metrics.find? "WMC" = some x ∧
          r.aggregates.find? "CYCLO.sum" = some x ∧
          x = Reduction.total (r.operations.filterMap fun m => m.metrics.find? "CYCLO")) ∧
      ∀ w, config.options.find? "WMC" = some w →
        ∃ report', analyze source (config.withOptions "CYCLO" w) = .ok report' ∧
          List.Forall₂ (fun r r' => r.name = r'.name ∧ r.beginLine = r'.beginLine ∧
              ∃ x, r.metrics.find? "WMC" = some x ∧ r'.aggregates.find? "CYCLO.sum" = some x)
            report.classes report'.classes := by
  obtain ⟨pt, hfits, hb⟩ := exists_fits_of_parse hp
  have ht : IsFile t := isFile_of_builds hfits hb
  obtain ⟨poolSize, hreport⟩ := exists_analyze_eq config ht hp
  refine ⟨_, hreport, ?_, ?_⟩
  · intro hnone r hr
    obtain ⟨c, hc, rfl⟩ := List.mem_map.1 hr
    have hshared : (shareOptions config).optionsFor "WMC" =
        (shareOptions config).optionsFor "CYCLO" := by
      rw [shareOptions_wmc, hnone, Option.getD_none, shareOptions_optionsFor (by decide)]
    rw [← shareOptions_aggregate] at hsum
    refine ⟨_, find?_wmc (List.mem_filter.1 hc).2, ?_, ?_⟩
    · rw [find?_sum_cyclo hsum, hshared]
    · rw [hshared]
      exact sum_cyclo_eq_total
  · intro w hw
    obtain ⟨poolSize', hreport'⟩ := exists_analyze_eq (config.withOptions "CYCLO" w) ht hp
    refine ⟨_, hreport', ?_⟩
    have hsum' : Reduction.sum ∈ (shareOptions (config.withOptions "CYCLO" w)).aggregate := by
      rw [shareOptions_aggregate]
      exact hsum
    have hmoved : (shareOptions config).optionsFor "WMC" =
        (shareOptions (config.withOptions "CYCLO" w)).optionsFor "CYCLO" := by
      rw [shareOptions_wmc, hw, shareOptions_optionsFor (by decide), optionsFor_withOptions,
        if_pos rfl]
      rfl
    rw [List.forall₂_map_left_iff, List.forall₂_map_right_iff, List.forall₂_same]
    intro c hc
    refine ⟨rfl, rfl, _, find?_wmc (List.mem_filter.1 hc).2, ?_⟩
    rw [find?_sum_cyclo hsum', hmoved]

/-- A class with two methods that divide and one without a body, and a class without methods. -/
def conjunctions : String :=
  "class C \x7b method f(p, q) \x7b if (p && q) return p; \x7d abstract method g();
    method h(p) \x7b while (p || !p) p = p ? p : p; \x7d \x7d class D \x7b field x; \x7d"

/-- Neither metric counts conjunctions, or only that of classes does. -/
def plainPaths (ownOptions : Bool) : Config :=
  ⟨.ofList (("CYCLO", .ofList [ignoreBooleanPaths]) ::
      if ownOptions then [("WMC", .empty)] else []),
    [.average, .sum]⟩

theorem wmc_agrees_with_cyclo_conjunctions :
    (plainPaths false).options.find? "WMC" = none ∧
    (plainPaths true).options.find? "WMC" = some .empty ∧
    ∃ t shared own moved, parse conjunctions = .ok t ∧
      analyze conjunctions (plainPaths false) = .ok shared ∧
      shared.classes.length = 2 ∧
      (∀ r ∈ shared.classes, ∃ x, r.metrics.find? "WMC" = some x ∧
        r.aggregates.find? "CYCLO.sum" = some x ∧
        x = Reduction.total (r.operations.filterMap fun m => m.metrics.find? "CYCLO")) ∧
      analyze conjunctions (plainPaths true) = .ok own ∧
      analyze conjunctions ((plainPaths true).withOptions "CYCLO" .empty) = .ok moved ∧
      own.classes.length = 2 ∧
      List.Forall₂ (fun r r' => r.name = r'.name ∧ r.beginLine = r'.beginLine ∧
          ∃ x, r.metrics.find? "WMC" = some x ∧ r'.aggregates.find? "CYCLO.sum" = some x)
        own.classes moved.classes := by
  have hnone : (plainPaths false).options.find? "WMC" = none := by decide
  have hsome : (plainPaths true).options.find? "WMC" = some .empty := by decide
  have hparse : (parse conjunctions).toOption.any (fun t => (classesIn t).length == 2) = true := by
    decide +kernel
  obtain ⟨t, ht⟩ := exists_ok_of_isSome (Option.isSome_of_any hparse)
  rw [ht] at hparse
  obtain ⟨pt, hfits, hb⟩ := exists_fits_of_parse ht
  have hlength {config report} (h : analyze conjunctions config = .ok report) :
      report.classes.length = 2 := by
    obtain ⟨_, hreport⟩ := exists_analyze_eq config (isFile_of_builds hfits hb) ht
    rw [h] at hreport
    rw [Except.ok.inj hreport, List.length_map]
    exact beq_iff_eq.1 hparse
  have hsum {b} : Reduction.sum ∈ (plainPaths b).aggregate :=
    List.mem_cons_of_mem _ List.mem_cons_self
  obtain ⟨shared, hshared, hclasses, -⟩ := wmc_agrees_with_cyclo conjunctions t _ ht hsum
  obtain ⟨own, hown, -, hmoved⟩ := wmc_agrees_with_cyclo conjunctions t _ ht hsum
  obtain ⟨moved, hmoved, hrows⟩ := hmoved _ hsome
  exact ⟨hnone, hsome, t, shared, own, moved, ht, hshared, hlength hshared, hclasses hnone, hown,
    hmoved, hlength hown, hrows⟩

end TreeMetrics.Twig
