import TreeMetrics.Proofs.Metric.Footprint
import TreeMetrics.Proofs.Twig.Complexity

namespace TreeMetrics.Twig

/-- Decides whether a metric is computed on a class or on one of its methods. -/
def Metric.usedIn (c : Tree Node) (m : Metric) : Bool :=
  m.supports c || (methodsIn c).any m.supports

theorem Metric.mem_all (m : Metric) : m ∈ Metric.all := by
  cases m <;> decide

theorem Metric.key_injective : Function.Injective key := by
  intro m m' h
  have hidx := congrArg MetricKey.calculator h
  exact (List.idxOf_inj m.mem_all).1 hidx

namespace Report

open Document

variable {doc : Document Node} {config : Config} {n k i index : Nat} {parent : Option NodeId}
variable {t c unit : Tree Node} {m : Metric} {o : OptionSet} {x : MetricKey × OptionSet}

def pairOf (config : Config) (m : Metric) : MetricKey × OptionSet :=
  (m.key, config.optionsFor m.name)

/-- The pairs that the calculator of a task asks for: only one metric asks for another. -/
def foot (doc : Document Node) (task : Task) : Set (MetricKey × OptionSet) :=
  if Metric.all[task.key.calculator]? = some .wmc then
    {x | ∃ u ∈ methodTasks doc .cyclo task.node task.options, x = u.pair}
  else ∅

theorem foot_of_ne (hm : m ≠ .wmc) : foot doc ⟨m.key, n, o⟩ = ∅ := by
  apply if_neg
  rw [Metric.key, getElem?_all]
  exact fun h => hm (Option.some.inj h)

theorem exists_methodTask_iff (h : doc.Stands n c parent index) :
    (∃ u ∈ methodTasks doc m n o, x = u.pair) ↔
      x = (m.key, o) ∧ (methodsIn c).any m.supports = true := by
  have hany : (methodsIn c).any m.supports = true ↔
      ∃ l, l ∈ (operations doc n).filter ((engine doc).supports m.key) := by
    have hlength := (forall₂_supported h m).length_eq
    rw [← List.length_pos_iff_exists_mem, hlength, List.length_pos_iff_exists_mem, List.any_eq_true]
    simp only [List.mem_filter]
  rw [hany]
  constructor
  · rintro ⟨u, hu, rfl⟩
    obtain ⟨l, hl, rfl⟩ := List.mem_map.1 hu
    exact ⟨rfl, l, hl⟩
  · rintro ⟨rfl, l, hl⟩
    exact ⟨_, List.mem_map_of_mem hl, rfl⟩

theorem asked_overOperations (hm : m ≠ .wmc) (doc : Document Node) (n : NodeId) (o : OptionSet)
    (r : Reduction) :
    (engine doc).asked metrics.computer (foot doc) (.overOperations m.key n o r) =
      {x | ∃ u ∈ methodTasks doc m n o, x = u.pair} := by
  have hfoot : ∀ u ∈ methodTasks doc m n o, insert u.pair (foot doc u) = {u.pair} := by
    intro u hu
    obtain ⟨l, -, rfl⟩ := List.mem_map.1 hu
    rw [foot_of_ne hm]
    exact insert_empty_eq _
  ext x
  rw [Engine.asked, Set.mem_iUnion₂]
  apply exists_congr
  intro u
  rw [exists_prop]
  apply and_congr_right
  intro hu
  rw [hfoot u hu, Set.mem_singleton_iff]

theorem engine_draws (doc : Document Node) : (engine doc).Draws metrics.computer (foot doc) := by
  intro task hperforms answer hanswer
  obtain ⟨m, t, _, _, hm, -⟩ := exists_of_performs hperforms
  have hfoot : m ≠ .wmc → foot doc task = ∅ := by
    intro hne
    rw [foot, hm, if_neg fun h => hne (Option.some.inj h)]
  rw [program_eq hm]
  cases m with
  | wmc =>
    have hcyclo : Metric.cyclo ≠ .wmc := Metric.noConfusion
    have hasked := hanswer (.overOperations Metric.cyclo.key task.node task.options .sum)
    rw [asked_overOperations hcyclo] at hasked
    rw [foot, hm, if_pos rfl]
    exact hasked.map id
  | cyclo =>
    rw [hfoot Metric.noConfusion, Metric.behaviour]
    split
    · exact .pure _
    · exact .throw _
  | classNcss | classLoc | nopa | noam | methodNcss | methodLoc =>
    rw [hfoot Metric.noConfusion]
    exact .pure _

/-- The pairs that a run on the document of a report adds to the pool. -/
abbrev Fills {β : Type} (doc : Document Node) (x : Run Unit β) (d : Set (MetricKey × OptionSet)) :
    Prop :=
  Adds (foot doc) 0 x d

theorem answer_fills (doc : Document Node) (q : Request) :
    Fills doc ((engine doc).answer metrics.computer q)
      ((engine doc).asked metrics.computer (foot doc) q) :=
  Engine.answerWithin_adds (engine_draws doc) _ q

theorem kept_fills (h : doc.Stands n t parent index) (hm : m.supports t = true) (o : OptionSet) :
    Fills doc ((engine doc).answer metrics.computer (.kept m.key n o))
      (insert (m.key, o) (foot doc ⟨m.key, n, o⟩)) := by
  have hasked : (engine doc).asked metrics.computer (foot doc) (.kept m.key n o) =
      insert (m.key, o) (foot doc ⟨m.key, n, o⟩) := by
    rw [Engine.asked, Engine.tasks, supports_key h, hm, Engine.iUnion_one]
    rfl
  rw [← hasked]
  exact answer_fills doc _

theorem evaluateAll_fills (h : doc.Stands n t parent index) (config : Config) :
    Fills doc (metrics.evaluateAll (engine doc) config n)
      (⋃ m ∈ Metric.all.filter fun m => m.supports t,
        insert (pairOf config m) (foot doc ⟨m.key, n, config.optionsFor m.name⟩)) := by
  rw [Provider.evaluateAll, filter_keys h]
  apply Adds.map
  apply Adds.forall₂
  rw [List.forall₂_map_left_iff, List.forall₂_same]
  intro m hm
  exact (kept_fills h (List.mem_filter.1 hm).2 _).map _

theorem operation_fills (h : doc.Stands n t parent index) (ht : isOf .methodDeclaration t = true)
    (config : Config) :
    Fills doc (operation doc config n) {x | ∃ m, m.supports t = true ∧ x = pairOf config m} := by
  have hset : (⋃ m ∈ Metric.all.filter fun m => m.supports t,
      insert (pairOf config m) (foot doc ⟨m.key, n, config.optionsFor m.name⟩)) =
        {x | ∃ m, m.supports t = true ∧ x = pairOf config m} := by
    ext x
    rw [Set.mem_iUnion₂]
    apply exists_congr
    intro m
    rw [exists_prop, List.mem_filter, and_iff_right m.mem_all]
    apply and_congr_right
    intro hm
    have hne : m ≠ .wmc := by
      rintro rfl
      exact Metric.not_isOf_both hm ht
    rw [foot_of_ne hne, insert_empty_eq]
    rfl
  rw [← hset]
  exact (evaluateAll_fills h config).map _

theorem aggregates_fills (doc : Document Node) (config : Config) (n : NodeId) :
    Fills doc (aggregates doc config n) (⋃ v ∈ Metric.ofMethods.product config.aggregate,
      {x | ∃ u ∈ methodTasks doc v.1 n (config.optionsFor v.1.name), x = u.pair}) := by
  rw [aggregates, wanted_eq]
  apply Adds.map
  apply Adds.forall₂
  rw [List.forall₂_map_left_iff, List.forall₂_same]
  intro v hv
  have hm : v.1 ≠ .wmc := by
    intro hwmc
    exact absurd (hwmc ▸ (List.mem_product.1 hv).1) (by decide)
  rw [← asked_overOperations hm doc n _ v.2]
  exact (answer_fills doc _).map _

def classPairs (config : Config) (c : Tree Node) : Set (MetricKey × OptionSet) :=
  {x | (∃ m : Metric, m.usedIn c = true ∧ x = pairOf config m) ∨
    Metric.cyclo.usedIn c = true ∧
      x = (Metric.cyclo.key, config.optionsFor Metric.wmc.name)}

theorem usedIn_iff :
    m.usedIn c = true ↔ m.supports c = true ∨ ∃ t ∈ methodsIn c, m.supports t = true := by
  rw [Metric.usedIn, Bool.or_eq_true, List.any_eq_true]

theorem usedIn_of_ofMethods (hc : isOf .classDeclaration c = true) (hm : m ∈ Metric.ofMethods) :
    m.usedIn c = (methodsIn c).any m.supports := by
  have hno : m.supports c = false := by
    rw [Bool.eq_false_iff, ne_eq, Metric.supports_of_class hc]
    intro hm'
    exact (by decide : ∀ m ∈ Metric.ofMethods, m ∉ Metric.ofClasses) m hm hm'
  rw [Metric.usedIn, hno, Bool.false_or]

theorem mem_foot_iff (h : doc.Stands n c parent index) :
    x ∈ foot doc ⟨m.key, n, o⟩ ↔
      m = .wmc ∧ x = (Metric.cyclo.key, o) ∧ (methodsIn c).any isConcrete = true := by
  by_cases hm : m = .wmc
  · subst hm
    have hfoot : foot doc ⟨Metric.wmc.key, n, o⟩ =
        {x | ∃ u ∈ methodTasks doc .cyclo n o, x = u.pair} := if_pos rfl
    rw [hfoot, and_iff_right rfl]
    exact exists_methodTask_iff h
  · rw [foot_of_ne hm]
    exact iff_of_false (Set.notMem_empty x) fun hx => hm hx.1

/-- Runs on the children of a kind fill the pool as their trees say. -/
theorem mapM_fills {β : Type} {f : NodeId → Run Unit β}
    {d : Tree Node → Set (MetricKey × OptionSet)} (h : doc.Stands n c parent index) (kind : Kind)
    (hf : ∀ {l t i}, doc.Stands l t (some n) i → isOf kind t = true → Fills doc (f l) (d t)) :
    Fills doc ((Operations.children kind.text doc n).mapM f)
      (⋃ t ∈ c.children.filter (isOf kind), d t) := by
  rw [children_ofKind]
  apply Adds.forall₂
  have hkind : ∀ l ∈ (doc.children n).filter (doc.isKind kind.text),
      doc.isKind kind.text l = true := by
    intro l hl
    exact (List.mem_filter.1 hl).2
  apply ((List.forall₂_and_left _ _).2 ⟨hkind, forall₂_ofKind h kind⟩).imp
  rintro l t ⟨hl, i, hstands⟩
  rw [isKind_text hstands] at hl
  exact hf hstands hl

theorem mem_classPairs_iff (h : doc.Stands n c parent index)
    (hc : isOf .classDeclaration c = true) :
    x ∈ classPairs config c ↔
      (∃ m : Metric, m.supports c = true ∧
        (x = pairOf config m ∨ x ∈ foot doc ⟨m.key, n, config.optionsFor m.name⟩)) ∨
      (∃ v ∈ Metric.ofMethods.product config.aggregate,
        ∃ u ∈ methodTasks doc v.1 n (config.optionsFor v.1.name), x = u.pair) ∨
      ∃ t ∈ methodsIn c, ∃ m : Metric, m.supports t = true ∧ x = pairOf config m := by
  constructor
  · rintro (⟨m, hm, hx⟩ | ⟨hused, hx⟩)
    · rcases usedIn_iff.1 hm with hm | ⟨t, ht, hm⟩
      · exact .inl ⟨m, hm, .inl hx⟩
      · exact .inr (.inr ⟨t, ht, m, hm, hx⟩)
    · rw [usedIn_of_ofMethods hc (by decide)] at hused
      exact .inl ⟨.wmc, hc, .inr ((mem_foot_iff h).2 ⟨rfl, hx, hused⟩)⟩
  · rintro (⟨m, hm, hx | hx⟩ | ⟨v, -, hu⟩ | ⟨t, ht, m, hm, hx⟩)
    · exact .inl ⟨m, usedIn_iff.2 (.inl hm), hx⟩
    · obtain ⟨rfl, hx, hany⟩ := (mem_foot_iff h).1 hx
      refine .inr ⟨?_, hx⟩
      rw [usedIn_of_ofMethods hc (by decide)]
      exact hany
    · obtain ⟨hx, hany⟩ := (exists_methodTask_iff h).1 hu
      exact .inl ⟨v.1, usedIn_iff.2 (.inr (List.any_eq_true.1 hany)), hx⟩
    · exact .inl ⟨m, usedIn_iff.2 (.inr ⟨t, ht, hm⟩), hx⟩

theorem ofClass_fills (h : doc.Stands n c parent index) (hc : isOf .classDeclaration c = true)
    (config : Config) : Fills doc (ofClass doc config n) (classPairs config c) := by
  have hset : classPairs config c = (⋃ m ∈ Metric.all.filter fun m => m.supports c,
      insert (pairOf config m) (foot doc ⟨m.key, n, config.optionsFor m.name⟩)) ∪
      ((⋃ v ∈ Metric.ofMethods.product config.aggregate,
        {x | ∃ u ∈ methodTasks doc v.1 n (config.optionsFor v.1.name), x = u.pair}) ∪
      ⋃ t ∈ methodsIn c, {x | ∃ m : Metric, m.supports t = true ∧ x = pairOf config m}) := by
    ext x
    simp only [mem_classPairs_iff h hc, Set.mem_union, Set.mem_iUnion₂, exists_prop,
      List.mem_filter, Metric.mem_all, true_and, Set.mem_insert_iff, Set.mem_ofPred_eq]
  have hmethods := mapM_fills h .methodDeclaration fun hl ht => operation_fills hl ht config
  rw [hset, ofClass]
  exact (evaluateAll_fills h config).bind fun _ =>
    (aggregates_fills doc config n).bind fun _ => hmethods.map _

/-- The pairs that stand in the pool behind the report on a file: one for each metric that is used,
and one for the paths that are counted for classes if they are counted otherwise. -/
def poolPairs (config : Config) (unit : Tree Node) : List (MetricKey × OptionSet) :=
  (Metric.all.filter fun m => (classesIn unit).any m.usedIn).map (pairOf config) ++
    if (classesIn unit).any Metric.cyclo.usedIn ∧
        config.optionsFor Metric.wmc.name ≠ config.optionsFor Metric.cyclo.name then
      [(Metric.cyclo.key, config.optionsFor Metric.wmc.name)]
    else []

theorem nodup_poolPairs (config : Config) (unit : Tree Node) : (poolPairs config unit).Nodup := by
  have hinj : Function.Injective (pairOf config) := by
    intro m m' h
    exact Metric.key_injective (Prod.mk.inj h).1
  have hused : ((Metric.all.filter fun m => (classesIn unit).any m.usedIn).map
      (pairOf config)).Nodup := by
    apply List.Nodup.map hinj
    exact List.Nodup.filter _ (by decide)
  unfold poolPairs
  split
  · rename_i hown
    rw [← List.concat_eq_append]
    apply hused.concat
    intro hmem
    obtain ⟨m, -, hm⟩ := List.mem_map.1 hmem
    obtain ⟨hkey, hoptions⟩ := Prod.mk.inj hm
    rw [Metric.key_injective hkey] at hoptions
    exact hown.2 hoptions.symm
  · rw [List.append_nil]
    exact hused

theorem mem_poolPairs_iff :
    x ∈ poolPairs config unit ↔ ∃ c ∈ classesIn unit, x ∈ classPairs config c := by
  rw [poolPairs, List.mem_append, List.mem_map]
  constructor
  · rintro (⟨m, hm, rfl⟩ | hx)
    · obtain ⟨c, hc, hused⟩ := List.any_eq_true.1 (List.mem_filter.1 hm).2
      exact ⟨c, hc, .inl ⟨m, hused, rfl⟩⟩
    · split at hx
      · rename_i hown
        obtain ⟨c, hc, hused⟩ := List.any_eq_true.1 hown.1
        exact ⟨c, hc, .inr ⟨hused, List.mem_singleton.1 hx⟩⟩
      · cases hx
  · have hfilter {c : Tree Node} {m : Metric} (hc : c ∈ classesIn unit) (hm : m.usedIn c = true) :
        m ∈ Metric.all.filter fun m => (classesIn unit).any m.usedIn :=
      List.mem_filter.2 ⟨m.mem_all, List.any_eq_true.2 ⟨c, hc, hm⟩⟩
    rintro ⟨c, hc, ⟨m, hm, rfl⟩ | ⟨hused, rfl⟩⟩
    · exact .inl ⟨m, hfilter hc hm, rfl⟩
    · by_cases hown : config.optionsFor Metric.wmc.name = config.optionsFor Metric.cyclo.name
      · exact .inl ⟨.cyclo, hfilter hc hused, Prod.ext rfl hown.symm⟩
      · rw [if_pos ⟨List.any_eq_true.2 ⟨c, hc, hused⟩, hown⟩]
        exact .inr List.mem_cons_self

theorem classesOf_fills (doc : Document Node) (config : Config) :
    Fills doc ((classesOf doc).mapM (ofClass doc config)) {x | x ∈ poolPairs config doc.tree} := by
  have hset : {x | x ∈ poolPairs config doc.tree} =
      ⋃ c ∈ classesIn doc.tree, classPairs config c := by
    ext x
    rw [Set.mem_ofPred_eq, mem_poolPairs_iff, Set.mem_iUnion₂]
    simp only [exists_prop]
  rw [hset]
  exact mapM_fills .root .classDeclaration fun hl hc => ofClass_fills hl hc config

/-- The pool behind a report has just the pairs that the file calls for. -/
theorem poolSize_eq {report : Report} (h : ofDocument doc config = .ok report) :
    report.poolSize = (poolPairs (shareOptions config) doc.tree).length := by
  unfold ofDocument at h
  cases hrun : ((classesOf doc).mapM (ofClass doc (shareOptions config))).run.run
      (Store.init 1 doc.size ()) with
  | mk r s =>
    simp only [hrun] at h
    cases r with
    | error stop => cases h
    | ok classes =>
      cases h
      have hclosed : (Store.init 1 doc.size ()).Closed (foot doc) 0 := .init Nat.zero_lt_one _ _
      obtain ⟨hs, hheld⟩ := classesOf_fills doc (shareOptions config) _ _ _ hclosed hrun
      rw [Store.held_init, Set.empty_union] at hheld
      have hperm : (s.pool 0).pairs.Perm (poolPairs (shareOptions config) doc.tree) := by
        apply (List.perm_ext_iff_of_nodup hs.nodup (nodup_poolPairs _ _)).2
        intro x
        exact Set.ext_iff.1 hheld x
      rw [← hperm.length_eq, Pool.length_pairs]

theorem any_congr_of_mem {α : Type} {l : List α} {f g : α → Bool} (h : ∀ a ∈ l, f a = g a) :
    l.any f = l.any g := by
  rw [Bool.eq_iff_iff, List.any_eq_true, List.any_eq_true]
  apply exists_congr
  intro a
  apply and_congr_right
  intro ha
  rw [h a ha]

theorem any_usedIn_ofClasses (hm : m ∈ Metric.ofClasses) :
    (classesIn unit).any m.usedIn = !(classesIn unit).isEmpty := by
  have hused : ∀ c ∈ classesIn unit, m.usedIn c = true := by
    intro c hc
    exact usedIn_iff.2 (.inl ((Metric.supports_of_class (List.mem_filter.1 hc).2).2 hm))
  cases hclasses : classesIn unit with
  | nil => rfl
  | cons c cs =>
    rw [List.any_cons, hused c (hclasses ▸ List.mem_cons_self)]
    rfl

theorem any_usedIn_methodLoc (unit : Tree Node) :
    (classesIn unit).any Metric.methodLoc.usedIn =
      (classesIn unit).any fun c => !(methodsIn c).isEmpty := by
  apply any_congr_of_mem
  intro c hc
  rw [usedIn_of_ofMethods (List.mem_filter.1 hc).2 (by decide)]
  cases hmethods : methodsIn c with
  | nil => rfl
  | cons t ts =>
    have ht : t ∈ methodsIn c := hmethods ▸ List.mem_cons_self
    rw [List.any_cons, Metric.supports, isOf_of_mem_methodsIn ht]
    rfl

theorem any_usedIn_of_concrete (hm : m ∈ [.cyclo, .methodNcss]) :
    (classesIn unit).any m.usedIn =
      (classesIn unit).any fun c => (methodsIn c).any fun t => (body? t).isSome := by
  obtain ⟨hmem, hne⟩ :=
    (by decide : ∀ m ∈ [.cyclo, .methodNcss], m ∈ Metric.ofMethods ∧ m ≠ .methodLoc) m hm
  apply any_congr_of_mem
  intro c hc
  rw [usedIn_of_ofMethods (List.mem_filter.1 hc).2 hmem]
  apply any_congr_of_mem
  intro t ht
  rw [Bool.eq_iff_iff, Metric.supports_of_method (isOf_of_mem_methodsIn ht), and_iff_right hmem,
    or_iff_right hne]

theorem length_usedOfClasses (unit : Tree Node) :
    (Metric.ofClasses.filter fun m => (classesIn unit).any m.usedIn).length =
      5 * (!(classesIn unit).isEmpty).toNat := by
  rw [List.filter_congr fun m hm => any_usedIn_ofClasses hm]
  cases (classesIn unit).isEmpty with
  | true => rfl
  | false => rfl

theorem length_usedOfMethods (unit : Tree Node) :
    (Metric.ofMethods.filter fun m => (classesIn unit).any m.usedIn).length =
      ((classesIn unit).any fun c => !(methodsIn c).isEmpty).toNat +
      2 * ((classesIn unit).any fun c => (methodsIn c).any fun m => (body? m).isSome).toNat := by
  have hmethods : Metric.ofMethods = [.cyclo, .methodNcss] ++ [.methodLoc] := rfl
  rw [hmethods, List.filter_append, List.length_append,
    List.filter_congr fun m hm => any_usedIn_of_concrete hm, List.filter_singleton,
    any_usedIn_methodLoc]
  cases (classesIn unit).any fun c => !(methodsIn c).isEmpty <;>
    cases (classesIn unit).any fun c => (methodsIn c).any fun m => (body? m).isSome <;> rfl

theorem length_poolPairs (config : Config) (unit : Tree Node) :
    (poolPairs config unit).length =
      5 * (!(classesIn unit).isEmpty).toNat +
      ((classesIn unit).any fun c => !(methodsIn c).isEmpty).toNat +
      ((classesIn unit).any fun c => (methodsIn c).any fun m => (body? m).isSome).toNat *
        (2 + (decide (config.optionsFor Metric.wmc.name ≠
          config.optionsFor Metric.cyclo.name)).toNat) := by
  rw [poolPairs, List.length_append, List.length_map, Metric.all, List.filter_append,
    List.length_append, length_usedOfClasses, length_usedOfMethods,
    any_usedIn_of_concrete (by decide : Metric.cyclo ∈ [.cyclo, .methodNcss])]
  generalize (classesIn unit).any (fun c => (methodsIn c).any fun m => (body? m).isSome) = d
  by_cases hown : config.optionsFor Metric.wmc.name = config.optionsFor Metric.cyclo.name
  · rw [if_neg fun h => h.2 hown, decide_eq_false (not_not.2 hown), List.length_nil,
      Bool.toNat_false]
    omega
  · rw [decide_eq_true hown, Bool.toNat_true]
    cases d with
    | true =>
      rw [if_pos ⟨rfl, hown⟩, List.length_singleton, Bool.toNat_true]
      omega
    | false =>
      rw [if_neg fun h => Bool.false_ne_true h.1, List.length_nil, Bool.toNat_false]
      omega

theorem length_poolPairs_le (config : Config) (unit : Tree Node) :
    (poolPairs config unit).length ≤ 9 := by
  have hused : (Metric.all.filter fun m => (classesIn unit).any m.usedIn).length ≤ 8 :=
    List.length_filter_le _ _
  rw [poolPairs, List.length_append, List.length_map]
  split
  · exact Nat.add_le_add_right hused 1
  · exact Nat.le_succ_of_le hused

end Report

open Report

/-- The size of the pool behind the report on a source that can be read: five instances if there is
a class, one if there is a method, and two if a method has a body, or three if the options for the
complexity of classes differ from those for the complexity of methods. -/
theorem poolSize_counts (source : String) (t : Tree Node) (config : Config)
    (hp : parse source = .ok t) :
    ∃ report, analyze source config = .ok report ∧
      report.poolSize =
        5 * (!(classesIn t).isEmpty).toNat +
        ((classesIn t).any fun c => !(methodsIn c).isEmpty).toNat +
        ((classesIn t).any fun c => (methodsIn c).any fun m => (body? m).isSome).toNat *
          (2 + (decide (((config.options.find? "WMC").getD
            (config.optionsFor "CYCLO")).flags.toFinset ≠
              (config.optionsFor "CYCLO").flags.toFinset)).toNat) ∧
      report.poolSize ≤ 9 := by
  obtain ⟨pt, hfits, hb⟩ := exists_fits_of_parse hp
  have hdoc : Conditioned (Document.ofTree t).tree := .file (isFile_of_builds hfits hb)
  obtain ⟨report, hreport⟩ : ∃ report, ofDocument (.ofTree t) config = .ok report := by
    obtain ⟨poolSize, hreport⟩ := ofDocument_eq hdoc config
    exact ⟨_, hreport⟩
  refine ⟨report, ?_, ?_, ?_⟩
  · unfold analyze
    rw [hp]
    dsimp only
    rw [hreport]
    rfl
  · have hwmc : (shareOptions config).optionsFor Metric.wmc.name =
        (config.options.find? "WMC").getD (config.optionsFor "CYCLO") := shareOptions_wmc config
    have hcyclo : (shareOptions config).optionsFor Metric.cyclo.name = config.optionsFor "CYCLO" :=
      shareOptions_optionsFor (by decide) config
    rw [poolSize_eq hreport, length_poolPairs, hwmc, hcyclo]
    simp only [ne_eq, OptionSet.toFinset_injective.eq_iff]
    rfl
  · rw [poolSize_eq hreport]
    exact length_poolPairs_le _ _

/-- A class with a method of each sort and one without methods. -/
def bareMethods : String :=
  "class C \x7b method f() \x7b \x7d abstract method g(); \x7d class D \x7b \x7d"

theorem poolSize_counts_bareMethods :
    ∃ t own shared, parse bareMethods = .ok t ∧
      analyze bareMethods (plainPaths true) = .ok own ∧ own.poolSize = 9 ∧
      analyze bareMethods (plainPaths false) = .ok shared ∧ shared.poolSize = 8 := by
  have hparse : (parse bareMethods).toOption.any (fun t => !(classesIn t).isEmpty &&
      ((classesIn t).any fun c => !(methodsIn c).isEmpty) &&
        (classesIn t).any fun c => (methodsIn c).any fun m => (body? m).isSome) = true := by
    decide +kernel
  obtain ⟨t, ht⟩ := exists_ok_of_isSome (Option.isSome_of_any hparse)
  rw [ht] at hparse
  obtain ⟨hclasses, hbody⟩ := Bool.and_eq_true_iff.1 hparse
  obtain ⟨hclass, hmethod⟩ := Bool.and_eq_true_iff.1 hclasses
  obtain ⟨own, hown, hownSize, -⟩ := poolSize_counts bareMethods t (plainPaths true) ht
  obtain ⟨shared, hshared, hsharedSize, -⟩ := poolSize_counts bareMethods t (plainPaths false) ht
  rw [hclass, hmethod, hbody] at hownSize hsharedSize
  refine ⟨t, own, shared, ht, hown, ?_, hshared, ?_⟩
  · rw [hownSize]
    decide +kernel
  · rw [hsharedSize]
    decide +kernel

end TreeMetrics.Twig
