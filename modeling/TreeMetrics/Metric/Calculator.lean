import TreeMetrics.Document.Basic
import TreeMetrics.Metric.Pool
import TreeMetrics.Metric.Reduction

namespace TreeMetrics

/-- What can be asked of a computer: a value that is kept once computed, a value computed afresh, or
a reduction of the kept values over some nodes or over the operations of a container. -/
inductive Request where
  | kept (key : MetricKey) (node : NodeId) (options : OptionSet)
  | fresh (key : MetricKey) (node : NodeId) (options : OptionSet)
  | over (key : MetricKey) (nodes : List NodeId) (options : OptionSet) (reduction : Reduction)
  | overOperations (key : MetricKey) (container : NodeId) (options : OptionSet)
    (reduction : Reduction)

/-- The run of a calculator: it ends in a value, stops with a message, reads or writes the state
that calculators share, or goes on with the answer to a request. -/
inductive Behaviour (σ : Type) where
  | value (x : Float)
  | stop (message : String)
  | read (next : σ → Behaviour σ)
  | write (s : σ) (next : Behaviour σ)
  | ask (q : Request) (next : Float → Behaviour σ)

/-- A calculator says which nodes it supports and what it does on one of them. -/
structure Calculator (α σ : Type) where
  supports : Document α → NodeId → Bool
  behaviour : Document α → NodeId → OptionSet → Behaviour σ

end TreeMetrics
