import TreeMetrics.Proofs.Twig.Values

namespace TreeMetrics.Twig

namespace Report

open Document

/-- The values of all metrics on a child of a tree, by name. -/
def valuesOn (config : Config) (parent t : Tree Node) : List (String × Float) :=
  (Metric.all.filter fun m => m.supports t).map fun m =>
    (m.name, m.value (importCount parent) t (config.optionsFor m.name))

/-- The reductions of the values on the methods of a class, as far as they are defined. -/
def reductionsOn (config : Config) (c : Tree Node) : List (String × Float) :=
  ((Metric.ofMethods.product config.aggregate).map fun (m, r) =>
    (m.name ++ "." ++ r.name, r.reduce (valuesOver m c (config.optionsFor m.name)))).filter
      fun v => !v.2.isNaN

def onMethod (config : Config) (c m : Tree Node) : OperationReport :=
  ⟨m.label.image.getD "", m.label.beginLine, .ofList (valuesOn config c m)⟩

def onClass (config : Config) (unit c : Tree Node) : ClassReport :=
  ⟨c.label.image.getD "", c.label.beginLine, .ofList (valuesOn config unit c),
    .ofList (reductionsOn config c), (methodsIn c).map (onMethod config c)⟩

variable {doc : Document Node} {n k i index : Nat} {parent : Option NodeId} {t c unit : Tree Node}

theorem filter_keys (h : doc.Stands n t parent index) :
    metrics.keys.filter ((engine doc).supports · n) =
      (Metric.all.filter fun m => m.supports t).map Metric.key := by
  have hkeys : metrics.keys = Metric.all.map Metric.key := rfl
  rw [hkeys, List.filter_map]
  congr 1
  apply List.filter_congr
  intro m _
  exact supports_key h m

theorem evaluateAll_yields (hdoc : Conditioned doc.tree) (hc : doc.Stands n c parent index)
    (h : doc.Stands k t (some n) i) (config : Config) :
    Gives doc (metrics.evaluateAll (engine doc) config k)
      ((Metric.all.filter fun m => m.supports t).map fun m =>
        (m.key, m.value (importCount c) t (config.optionsFor m.name))) := by
  rw [Provider.evaluateAll, filter_keys h]
  have hvalues : Gives doc
      (((Metric.all.filter fun m => m.supports t).map Metric.key).mapM fun key => do
        let x ← (engine doc).answer metrics.computer (.kept key k (config.optionsFor key.name))
        pure (key, x))
      ((Metric.all.filter fun m => m.supports t).map fun m =>
        (m.key, m.value (importCount c) t (config.optionsFor m.name))) := by
    apply TreeMetrics.Yields.forall₂
    rw [List.forall₂_map_left_iff, List.forall₂_map_right_iff, List.forall₂_same]
    intro m hm
    have hm := kept_yields hdoc h (List.mem_filter.1 hm).2 (config.optionsFor m.name)
    rw [importsBeside_eq hc h] at hm
    exact hm.bind (.pure _)
  apply hvalues.bind
  -- All values are numbers, so nothing is left out.
  rw [List.filter_eq_self.2]
  · exact .pure _
  · intro v hv
    obtain ⟨m, _, rfl⟩ := List.mem_map.1 hv
    dsimp only
    rw [(Metric.unsigned_value _ t _ m).isNaN_eq_false]
    rfl

theorem named_eq (config : Config) (c t : Tree Node) :
    named ((Metric.all.filter fun m => m.supports t).map fun m =>
      (m.key, m.value (importCount c) t (config.optionsFor m.name))) =
        .ofList (valuesOn config c t) := by
  rw [named, valuesOn, List.map_map]
  rfl

theorem operation_yields (hdoc : Conditioned doc.tree) (hc : doc.Stands n c parent index)
    (h : doc.Stands k t (some n) i) (config : Config) :
    Gives doc (operation doc config k) (onMethod config c t) := by
  rw [operation, labelAt_eq h]
  apply (evaluateAll_yields hdoc hc h config).bind
  rw [named_eq]
  exact .pure _

theorem wanted_eq (config : Config) :
    (metrics.operationKeys.flatMap fun key => config.aggregate.map fun r => (key, r)) =
      (Metric.ofMethods.product config.aggregate).map fun v => (v.1.key, v.2) := by
  have hkeys : metrics.operationKeys = Metric.ofMethods.map Metric.key := rfl
  rw [hkeys, List.flatMap_map, List.product, List.map_flatMap]
  simp only [List.map_map]
  rfl

theorem aggregates_yields (hdoc : Conditioned doc.tree) (hc : doc.Stands n c parent index)
    (config : Config) :
    Gives doc (aggregates doc config n) (.ofList (reductionsOn config c)) := by
  rw [aggregates, wanted_eq, reductionsOn]
  apply TreeMetrics.Yields.bind
  case hf => exact .pure _
  apply TreeMetrics.Yields.forall₂
  rw [List.forall₂_map_left_iff, List.forall₂_map_right_iff, List.forall₂_same]
  intro v hv
  obtain ⟨m, r⟩ := v
  have hm : m ≠ .wmc := by
    rintro rfl
    exact absurd (List.mem_product.1 hv).1 (by decide)
  exact (reduced_yields hdoc hc hm _ r).bind (.pure _)

theorem ofClass_yields (hdoc : Conditioned doc.tree) (hunit : doc.Stands n unit parent index)
    (h : doc.Stands k c (some n) i) (config : Config) :
    Gives doc (ofClass doc config k) (onClass config unit c) := by
  have hmethods : Gives doc ((operations doc k).mapM (operation doc config))
      ((methodsIn c).map (onMethod config c)) := by
    apply TreeMetrics.Yields.forall₂
    rw [List.forall₂_map_right_iff]
    apply (forall₂_operations h).imp
    intro l t hl
    obtain ⟨j, hl⟩ := hl
    exact operation_yields hdoc h hl config
  rw [ofClass, labelAt_eq h]
  apply (evaluateAll_yields hdoc hunit h config).bind
  apply (aggregates_yields hdoc h config).bind
  apply hmethods.bind
  rw [named_eq]
  exact .pure _

/-- The report on a document is made, and it says of each class what its tree says. -/
theorem ofDocument_eq (hdoc : Conditioned doc.tree) (config : Config) :
    ∃ poolSize, ofDocument doc config =
      .ok ⟨(classesIn doc.tree).map (onClass (shareOptions config) doc.tree), poolSize,
        doc.size⟩ := by
  have hclasses : Gives doc ((classesOf doc).mapM (ofClass doc (shareOptions config)))
      ((classesIn doc.tree).map (onClass (shareOptions config) doc.tree)) := by
    apply TreeMetrics.Yields.forall₂
    rw [List.forall₂_map_right_iff]
    apply (forall₂_classesOf doc).imp
    intro k c hk
    obtain ⟨i, hk⟩ := hk
    exact ofClass_yields hdoc .root hk (shareOptions config)
  obtain ⟨s, hs, _⟩ := hclasses _ (Store.Sound.init 1 doc.size ())
  refine ⟨(s.pool 0).size, ?_⟩
  have hrun : ((classesOf doc).mapM (ofClass doc (shareOptions config))).run.run
      (Store.init 1 doc.size ()) = (.ok _, s) := hs
  simp only [ofDocument, hrun, Stream.count_root]

end Report

end TreeMetrics.Twig
