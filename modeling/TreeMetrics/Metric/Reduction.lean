import TreeMetrics.Metric.Number

namespace TreeMetrics

inductive Reduction where
  | sum
  | highest
  | average
deriving DecidableEq, Repr

namespace Reduction

def name : Reduction → String
  | sum => "sum"
  | highest => "highest"
  | average => "average"

def all : List Reduction := [sum, highest, average]

def ofName? (s : String) : Option Reduction := all.find? fun r => r.name == s

def total (xs : List Float) : Float := xs.foldl (· + ·) 0.0

/-- The greatest value, of equal ones the first. -/
def greatest (xs : List Float) : Float :=
  xs.foldl (fun x y => if x < y then y else x) (-Number.infinity)

/-- Reduces the values that are numbers; of none the sum is zero and the rest is undefined. -/
def reduce (r : Reduction) (values : List Float) : Float :=
  let known := values.filter fun x => !x.isNaN
  match r with
  | sum => total known
  | highest => if known.isEmpty then Number.undefined else greatest known
  | average =>
    if known.isEmpty then Number.undefined else total known / Number.ofCount known.length

end Reduction

end TreeMetrics
