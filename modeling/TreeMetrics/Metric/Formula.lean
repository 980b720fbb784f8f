import TreeMetrics.Document.Stream
import TreeMetrics.Metric.Calculator

namespace TreeMetrics

/-- The nodes that a formula supports. -/
inductive Support where
  | all
  | leaf
  | inner
  | ofKind (kind : String)

def Support.holds {α : Type} [HasKind α] (doc : Document α) (n : NodeId) : Support → Bool
  | all => true
  | leaf => doc.isLeaf n
  | inner => !doc.isLeaf n
  | ofKind k => doc.isKind k n

/-- How often each calculator has run. -/
abbrev Calls := Array Nat

/-- A formula. `counter` gives the number of earlier runs, `stopOnce` stops in the first run and is
a counter from then on. -/
inductive Formula where
  | children
  | descendants
  | depth
  | index
  | options
  | childrenUnlessLeaf
  | counter
  | const (x : Float)
  | flag (name : String) (yes no : Float)
  | stop (message : String)
  | stopOnce (message : String)
  | plus (key : MetricKey) (x : Float)
  | reduce (key : MetricKey) (reduction : Reduction)

namespace Formula

variable {α : Type}

/-- What a formula does in a run before which there were `calls` others. -/
def body (doc : Document α) (n : NodeId) (o : OptionSet) (calls : Nat) : Formula → Behaviour Calls
  | children => .value (Number.ofCount (doc.children n).length)
  | descendants => .value (Number.ofCount ((Stream.walk (.ofDescendants doc n)).count doc))
  | depth => .value (Number.ofCount ((Stream.walk (.ofAncestors doc n)).count doc))
  | index => .value (Number.ofCount (doc.index n))
  | options => .value (Number.ofCount o.size)
  | childrenUnlessLeaf =>
    .value (if doc.isLeaf n then Number.undefined else Number.ofCount (doc.children n).length)
  | counter => .value (Number.ofCount calls)
  | const x => .value x
  | flag name yes no => .value (if o.contains name then yes else no)
  | stop message => .stop message
  | stopOnce message => if calls = 0 then .stop message else .value (Number.ofCount calls)
  | plus k x => .ask (.kept k n o) fun y => .value (y + x)
  | reduce k r => .ask (.overOperations k n o r) .value

def calculator [HasKind α] (id : Nat) (support : Support) (f : Formula) : Calculator α Calls where
  supports doc n := support.holds doc n
  behaviour doc n o :=
    .read fun calls => .write (calls.modify id (· + 1)) (f.body doc n o (calls.getD id 0))

end Formula

end TreeMetrics
