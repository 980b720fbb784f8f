import TreeMetrics.Metric.OptionSet

namespace TreeMetrics

/-- A metric is told apart by its name and its calculator, which is numbered. -/
structure MetricKey where
  name : String
  calculator : Nat
deriving DecidableEq, Repr

def MetricKey.describe (k : MetricKey) : String := "MetricKey(" ++ k.name ++ ")"

/-- The number of a slot; no two instances share one. -/
abbrev SlotId := Nat

/-- A key bound to options. -/
structure Instance where
  key : MetricKey
  options : OptionSet
  slot : SlotId
deriving DecidableEq

namespace Instance

/-- Instances are alike if they bind the same key to the same options, in whatever pool. -/
def alike (i j : Instance) : Bool := i.key == j.key && i.options == j.options

def slotName (i : Instance) : String := "metric." ++ i.key.name

def display (i : Instance) : String :=
  "ParameterizedMetricKey\x7bkey=" ++ i.key.name ++ ", options=" ++ i.options.display ++ "\x7d"

end Instance

structure Pool where
  instances : List Instance

namespace Pool

def empty : Pool := ⟨[]⟩

def size (p : Pool) : Nat := p.instances.length

def find? (p : Pool) (k : MetricKey) (o : OptionSet) : Option Instance :=
  p.instances.find? fun i => i.key == k && i.options == o

def add (p : Pool) (i : Instance) : Pool := ⟨p.instances ++ [i]⟩

def display (p : Pool) : String := "KeyPool \x7b len: " ++ toString p.size ++ " \x7d"

end Pool

end TreeMetrics
