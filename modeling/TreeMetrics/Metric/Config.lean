import TreeMetrics.Data.NameMap
import TreeMetrics.Data.Value
import TreeMetrics.Metric.OptionSet
import TreeMetrics.Metric.Reduction

namespace TreeMetrics

/-- The options of metrics by name, and the reductions of operation metrics to report. -/
structure Config where
  options : NameMap OptionSet
  aggregate : List Reduction
deriving DecidableEq

namespace OptionSet

def readFlags : List Value → Except DecodeError (List String)
  | [] => .ok []
  | .text s :: vs => do
    let fs ← readFlags vs
    .ok (s :: fs)
  | v :: _ => .error (.wrongType v .string)

/-- Reads a set of flags from a list that may repeat them. -/
def ofValue : Value → Except DecodeError OptionSet
  | .list vs => do .ok (ofList (← readFlags vs))
  | v => .error (.wrongType v .sequence)

def toValue (o : OptionSet) : Value := .list (o.flags.map .text)

end OptionSet

namespace Reduction

def readName (s : String) : Except DecodeError Reduction :=
  match ofName? s with
  | some r => .ok r
  | none => .error (.unknownVariant s)

/-- Reads a reduction from its name, or from an object with the name as its only member. -/
def ofValue : Value → Except DecodeError Reduction
  | .text s => readName s
  | .object [(s, v)] => do
    let r ← readName s
    match v with
    | .null => .ok r
    | v => .error (.wrongType v .unit)
  | .object _ => .error .notOneMember
  | v => .error (.wrongType v .stringOrMap)

def toValue (r : Reduction) : Value := .text r.name

end Reduction

namespace Config

def default : Config := ⟨.empty, []⟩

def optionsFor (c : Config) (metric : String) : OptionSet :=
  (c.options.find? metric).getD .empty

def withOptions (c : Config) (metric : String) (o : OptionSet) : Config :=
  { c with options := c.options.insert metric o }

def withAggregate (c : Config) (r : Reduction) : Config :=
  { c with aggregate := c.aggregate ++ [r] }

def readOptions : List (String × Value) → Except DecodeError (List (String × OptionSet))
  | [] => .ok []
  | (k, v) :: ms => do
    let o ← OptionSet.ofValue v
    let os ← readOptions ms
    .ok ((k, o) :: os)

def optionsOfValue : Value → Except DecodeError (NameMap OptionSet)
  | .object ms => do .ok (.ofList (← readOptions ms))
  | v => .error (.wrongType v .map)

def readAggregate : List Value → Except DecodeError (List Reduction)
  | [] => .ok []
  | v :: vs => do
    let r ← Reduction.ofValue v
    let rs ← readAggregate vs
    .ok (r :: rs)

def aggregateOfValue : Value → Except DecodeError (List Reduction)
  | .list vs => readAggregate vs
  | v => .error (.wrongType v .sequence)

def readMembers (c : Config) : List (String × Value) → Except DecodeError Config
  | [] => .ok c
  | (k, v) :: ms =>
    if k = "options" then do
      let os ← optionsOfValue v
      readMembers { c with options := os } ms
    else if k = "aggregate" then do
      let rs ← aggregateOfValue v
      readMembers { c with aggregate := rs } ms
    else .error (.unknownField k)

/-- Reads a configuration from an object, or from a list of the options and the reductions. -/
def ofValue : Value → Except DecodeError Config
  | .object ms => readMembers default ms
  | .list [] => .ok default
  | .list [os] => do .ok { default with options := ← optionsOfValue os }
  | .list (os :: rs :: rest) => do
    let os ← optionsOfValue os
    let rs ← aggregateOfValue rs
    if rest.isEmpty then .ok ⟨os, rs⟩ else .error (.tooLong (rest.length + 2))
  | v => .error (.wrongType v .config)

def toValue (c : Config) : Value :=
  .object [("aggregate", .list (c.aggregate.map Reduction.toValue)),
    ("options", .object (c.options.entries.map fun e => (e.1, e.2.toValue)))]

end Config

end TreeMetrics
