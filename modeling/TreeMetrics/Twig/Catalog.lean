import TreeMetrics.Metric.Operations
import TreeMetrics.Metric.Provider
import TreeMetrics.Twig.Measure

namespace TreeMetrics.Twig

inductive Metric where
  | wmc
  | classNcss
  | classLoc
  | nopa
  | noam
  | cyclo
  | methodNcss
  | methodLoc
deriving DecidableEq, Repr

/-- With this flag the conjunctions and disjunctions of conditions are not counted as paths. -/
def ignoreBooleanPaths : String := "ignoreBooleanPaths"

/-- With this flag the imports of the file count towards the statements of a class. -/
def countImports : String := "countImports"

namespace Metric

def ofClasses : List Metric := [wmc, classNcss, classLoc, nopa, noam]

def ofMethods : List Metric := [cyclo, methodNcss, methodLoc]

/-- The catalog: the number of a metric in it is the number of its calculator. -/
def all : List Metric := ofClasses ++ ofMethods

def name : Metric → String
  | wmc => "WMC"
  | classNcss | methodNcss => "NCSS"
  | classLoc | methodLoc => "LOC"
  | nopa => "NOPA"
  | noam => "NOAM"
  | cyclo => "CYCLO"

def key (m : Metric) : MetricKey := ⟨m.name, all.idxOf m⟩

/-- Decides whether a metric can be computed on a node. -/
def supportsAt (doc : Document Node) (n : NodeId) : Metric → Bool
  | wmc | classNcss | classLoc | nopa | noam => kindIs doc .classDeclaration n
  | cyclo | methodNcss => isConcreteAt doc n
  | methodLoc => kindIs doc .methodDeclaration n

variable {σ : Type}

/-- The run of a metric on a node. Only the complexity of a class asks for other values. -/
def behaviour (doc : Document Node) (n : NodeId) (o : OptionSet) : Metric → Behaviour σ
  | wmc => .ask (.overOperations cyclo.key n o .sum) .value
  | classNcss => .value (classNcssAt doc (o.contains countImports) n)
  | classLoc | methodLoc => .value (locAt doc n)
  | nopa => .value (nopaAt doc n)
  | noam => .value (noamAt doc n)
  | cyclo =>
    match cycloAt doc (!o.contains ignoreBooleanPaths) n with
    | .ok x => .value x
    | .error e => .stop e.message
  | methodNcss => .value (methodNcssAt doc n)

def calculator (m : Metric) : Calculator Node σ where
  supports doc n := m.supportsAt doc n
  behaviour doc n o := m.behaviour doc n o

end Metric

def calculators {σ : Type} : Array (Calculator Node σ) := (Metric.all.map Metric.calculator).toArray

def operations (doc : Document Node) (c : NodeId) : List NodeId :=
  Operations.children Kind.methodDeclaration.text doc c

def provider (pool : Nat) : Provider Node where
  classKeys := Metric.ofClasses.map Metric.key
  operationKeys := Metric.ofMethods.map Metric.key
  computer := ⟨pool, operations⟩

end TreeMetrics.Twig
