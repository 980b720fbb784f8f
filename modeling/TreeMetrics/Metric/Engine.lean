import TreeMetrics.Memo.DataMap
import TreeMetrics.Metric.Calculator

namespace TreeMetrics

/-- Why there is no answer: a calculator stopped, or too many calculators waited for each other. -/
inductive Stop where
  | calculator (message : String)
  | tooDeep
deriving DecidableEq, Repr

/-- What changes as requests are answered: the pools, the values kept on each node, the number of
the next slot and the state of the calculators. -/
structure Store (σ : Type) where
  pools : Array Pool
  kept : Array (DataMap SlotId Float)
  nextSlot : SlotId
  state : σ

/-- A computer has a pool and knows the operations of a container. -/
structure Computer (α : Type) where
  pool : Nat
  operations : Document α → NodeId → List NodeId

/-- A document and the calculators that run on it. -/
structure Engine (α σ : Type) where
  doc : Document α
  calculators : Array (Calculator α σ)

namespace Store

variable {σ : Type}

def init (pools nodes : Nat) (state : σ) : Store σ :=
  ⟨Array.replicate pools .empty, Array.replicate nodes .empty, 0, state⟩

def pool (s : Store σ) (p : Nat) : Pool := s.pools.getD p .empty

def data (s : Store σ) (n : NodeId) : DataMap SlotId Float := s.kept.getD n .empty

def modifyData (n : NodeId) (f : DataMap SlotId Float → DataMap SlotId Float) (s : Store σ) :
    Store σ :=
  { s with kept := s.kept.modify n f }

/-- The instance for a key and options in a pool, which is made with a new slot if need be. -/
def intern (p : Nat) (k : MetricKey) (o : OptionSet) (s : Store σ) : Instance × Store σ :=
  match (s.pool p).find? k o with
  | some i => (i, s)
  | none =>
    let i := ⟨k, o, s.nextSlot⟩
    (i, { s with pools := s.pools.modify p (·.add i), nextSlot := s.nextSlot + 1 })

/-- Forgets the instances of a pool. The values kept under their slots are out of reach then. -/
def clear (p : Nat) (s : Store σ) : Store σ :=
  { s with pools := s.pools.modify p fun _ => .empty }

end Store

abbrev Run (σ β : Type) := Action (Store σ) Stop β

namespace Behaviour

variable {σ : Type}

def run (answer : Request → Run σ Float) : Behaviour σ → Run σ Float
  | value x => pure x
  | stop message => throw (.calculator message)
  | read next => do
    let s ← get
    run answer (next s.state)
  | write state next => do
    modify fun s => { s with state := state }
    run answer next
  | ask q next => do
    let x ← answer q
    run answer (next x)

end Behaviour

namespace Engine

variable {α σ : Type}

def supports (e : Engine α σ) (k : MetricKey) (n : NodeId) : Bool :=
  match e.calculators[k.calculator]? with
  | some c => c.supports e.doc n
  | none => false

def behaviour (e : Engine α σ) (k : MetricKey) (n : NodeId) (o : OptionSet) : Behaviour σ :=
  match e.calculators[k.calculator]? with
  | some c => c.behaviour e.doc n o
  | none => .value Number.undefined

def keep (e : Engine α σ) (c : Computer α) (answer : Request → Run σ Float) (k : MetricKey)
    (n : NodeId) (o : OptionSet) : Run σ Float :=
  if e.supports k n then do
    let i ← modifyGet (Store.intern c.pool k o)
    DataMap.computeIfAbsent (fun s => s.data n) (Store.modifyData n) i.slot
      ((e.behaviour k n o).run answer)
  else pure Number.undefined

/-- Reduces the values kept on those nodes that the metric supports, computed from the left. -/
def reduce (e : Engine α σ) (c : Computer α) (answer : Request → Run σ Float) (k : MetricKey)
    (ns : List NodeId) (o : OptionSet) (r : Reduction) : Run σ Float := do
  let xs ← (ns.filter (e.supports k)).mapM fun n => e.keep c answer k n o
  pure (r.reduce xs)

/-- Answers a request, given answers to the requests that calculators make. -/
def respond (e : Engine α σ) (c : Computer α) (answer : Request → Run σ Float) :
    Request → Run σ Float
  | .kept k n o => e.keep c answer k n o
  | .fresh k n o =>
    if e.supports k n then (e.behaviour k n o).run answer else pure Number.undefined
  | .over k ns o r => e.reduce c answer k ns o r
  | .overOperations k n o r => e.reduce c answer k (c.operations e.doc n) o r

/-- Answers a request while no more than `depth` calculators wait for each other. -/
def answerWithin (e : Engine α σ) (c : Computer α) : Nat → Request → Run σ Float
  | 0, _ => throw .tooDeep
  | depth + 1, q => e.respond c (answerWithin e c depth) q

/-- How many calculators may wait for each other: as many as a machine word can count. -/
def depth (_ : Engine α σ) : Nat := UInt64.size

def answer (e : Engine α σ) (c : Computer α) (q : Request) : Run σ Float :=
  e.answerWithin c e.depth q

end Engine

def Computer.display {α σ : Type} (c : Computer α) (s : Store σ) : String :=
  "MetricsComputer \x7b pool: " ++ (s.pool c.pool).display ++ ", .. \x7d"

end TreeMetrics
