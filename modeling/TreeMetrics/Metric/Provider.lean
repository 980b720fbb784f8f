import TreeMetrics.Metric.Config
import TreeMetrics.Metric.Engine

namespace TreeMetrics

/-- The metrics of containers and of operations, and a computer. -/
structure Provider (α : Type) where
  classKeys : List MetricKey
  operationKeys : List MetricKey
  computer : Computer α

inductive LookupError where
  | unknownMetric (name : String)
  | unsupportedNode (name kind : String)
  | ambiguous (name kind : String)
deriving DecidableEq, Repr

def LookupError.message : LookupError → String
  | unknownMetric name => "unknown metric '" ++ name ++ "'"
  | unsupportedNode name kind =>
    "metric '" ++ name ++ "' cannot be computed on a " ++ kind ++ " node"
  | ambiguous name kind =>
    "ambiguous metric name '" ++ name ++ "', several metrics are supported on a " ++ kind ++ " node"

namespace Provider

variable {α σ : Type}

def keys (p : Provider α) : List MetricKey := p.classKeys ++ p.operationKeys

/-- The values of the metrics that support a node, without those that cannot be computed. -/
def evaluateAll (p : Provider α) (e : Engine α σ) (config : Config) (n : NodeId) :
    Run σ (List (MetricKey × Float)) := do
  let values ← (p.keys.filter (e.supports · n)).mapM fun k => do
    let x ← e.answer p.computer (.kept k n (config.optionsFor k.name))
    pure (k, x)
  pure (values.filter fun v => !v.2.isNaN)

variable [HasKind α]

/-- The one metric of a given name that supports a node. -/
def find (p : Provider α) (e : Engine α σ) (n : NodeId) (name : String) :
    Except LookupError MetricKey :=
  let named := p.keys.filter fun k => k.name == name
  let kind := (e.doc.kind? n).getD ""
  if named.isEmpty then .error (.unknownMetric name)
  else
    match named.filter (e.supports · n) with
    | [] => .error (.unsupportedNode name kind)
    | [k] => .ok k
    | _ => .error (.ambiguous name kind)

def evaluateNamed (p : Provider α) (e : Engine α σ) (n : NodeId) (name : String) :
    Except LookupError (Run σ Float) := do
  let k ← p.find e n name
  .ok (e.answer p.computer (.kept k n .empty))

end Provider

end TreeMetrics
