import TreeMetrics.Twig.Catalog
import TreeMetrics.Twig.Source

namespace TreeMetrics.Twig

structure OperationReport where
  name : String
  beginLine : Nat
  metrics : NameMap Float

/-- The metrics of a class, the reductions of the metrics of its methods, and its methods. -/
structure ClassReport where
  name : String
  beginLine : Nat
  metrics : NameMap Float
  aggregates : NameMap Float
  operations : List OperationReport

/-- The classes of a file, the number of instances in the pool, and the number of nodes. -/
structure Report where
  classes : List ClassReport
  poolSize : Nat
  nodes : Nat

inductive AnalysisError where
  | source (cause : ParseError)
  | stopped (cause : Stop)

namespace Report

/-- Values by the name of their metric; of two metrics with one name the later one stays. -/
def named (values : List (MetricKey × Float)) : NameMap Float :=
  .ofList (values.map fun v => (v.1.name, v.2))

/-- The options of `CYCLO` hold for `WMC` too unless it has its own. -/
def shareOptions (c : Config) : Config :=
  match c.options.find? "CYCLO", c.options.find? "WMC" with
  | some o, none => c.withOptions "WMC" o
  | _, _ => c

def engine (doc : Document Node) : Engine Node Unit := ⟨doc, calculators⟩

def metrics : Provider Node := provider 0

def aggregates (doc : Document Node) (config : Config) (c : NodeId) : Run Unit (NameMap Float) := do
  let wanted := metrics.operationKeys.flatMap fun k => config.aggregate.map fun r => (k, r)
  let values ← wanted.mapM fun (k, r) => do
    let q := .overOperations k c (config.optionsFor k.name) r
    let x ← (engine doc).answer metrics.computer q
    pure (k.name ++ "." ++ r.name, x)
  pure (.ofList (values.filter fun v => !v.2.isNaN))

def operation (doc : Document Node) (config : Config) (m : NodeId) : Run Unit OperationReport := do
  let values ← metrics.evaluateAll (engine doc) config m
  let node := labelAt doc m
  pure ⟨node.image.getD "", node.beginLine, named values⟩

def ofClass (doc : Document Node) (config : Config) (c : NodeId) : Run Unit ClassReport := do
  let values ← metrics.evaluateAll (engine doc) config c
  let reductions ← aggregates doc config c
  let methods ← (operations doc c).mapM (operation doc config)
  let node := labelAt doc c
  pure ⟨node.image.getD "", node.beginLine, named values, reductions, methods⟩

def classesOf (doc : Document Node) : List NodeId :=
  Operations.children Kind.classDeclaration.text doc Document.root

def ofDocument (doc : Document Node) (config : Config) : Except Stop Report :=
  let config := shareOptions config
  match ((classesOf doc).mapM (ofClass doc config)).run.run (Store.init 1 doc.size ()) with
  | (.ok classes, store) =>
    let nodes := Stream.walk (.ofDescendantsOrSelf doc Document.root)
    .ok ⟨classes, (store.pool 0).size, nodes.count doc⟩
  | (.error stop, _) => .error stop

end Report

def analyze (source : String) (config : Config) : Except AnalysisError Report :=
  match parse source with
  | .ok t => (Report.ofDocument (.ofTree t) config).mapError .stopped
  | .error e => .error (.source e)

end TreeMetrics.Twig
