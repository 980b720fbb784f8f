import TreeMetrics.Memo.DataMap

namespace TreeMetrics.Script

/-- A key is told apart by its number; its name is for the reader. -/
structure Key where
  id : Nat
  name : String
deriving DecidableEq, Repr

/-- The key that is made when `made` keys exist already. -/
def Key.make (made : Nat) (name : String) : Key := ⟨made, name⟩

inductive Value where
  | int (n : Int64)
  | text (s : String)
deriving DecidableEq

/-- How a computation ends: in a given value, in the number of its last step plus a given one, or
without a value. -/
inductive Ending where
  | value (v : Value)
  | plusLast (n : Int64)
  | stop (message : String)

inductive Step where
  | put (map key : Nat) (v : Value)
  | get (map key : Nat)
  | contains (map key : Nat)
  | compute (map key : Nat) (inner : List Step) (ending : Ending)
  | describe (map : Nat)
  | keyName (key : Nat)
  | sameKey (a b : Nat)
  | olderKey (a b : Nat)

inductive Answer where
  | value (v : Option Value)
  | flag (b : Bool)
  | map (size : Nat) (display : String)
  | name (s : String)
  | computed (v : Value) (ran : Bool) (inner : List Answer)
  | stopped (message : String)

abbrev Maps := Array (DataMap Nat Value)

def Answer.int? : Answer → Option Int64
  | value (some (.int n)) => some n
  | computed (.int n) _ _ => some n
  | _ => none

/-- The value in which a computation ends, given the answers of its steps. -/
def Ending.evaluate (answers : List Answer) : Ending → Except String Value
  | value v => .ok v
  | plusLast n => .ok (.int (n + (answers.getLast?.bind Answer.int?).getD 0))
  | stop message => .error message

def keyAt (keys : Array Key) (k : Nat) : Key := keys.getD k ⟨k, ""⟩

def mapAt (maps : Maps) (m : Nat) : DataMap Nat Value := maps.getD m .empty

mutual

def runStep (keys : Array Key) : Step → Maps → Answer × Maps
  | .put m k v, maps =>
    let id := (keyAt keys k).id
    (.value ((mapAt maps m).get? id), maps.modify m (·.put id v))
  | .get m k, maps => (.value ((mapAt maps m).get? (keyAt keys k).id), maps)
  | .contains m k, maps => (.flag ((mapAt maps m).contains (keyAt keys k).id), maps)
  | .compute m k inner ending, maps =>
    let action : Action (Maps × Option (List Answer)) String Value := fun (maps, _) =>
      let (answers, maps) := runSteps keys inner maps
      (ending.evaluate answers, (maps, some answers))
    match DataMap.computeIfAbsent (fun s => mapAt s.1 m) (fun f s => (s.1.modify m f, s.2))
        (keyAt keys k).id action (maps, none) with
    | (.ok v, (maps, answers)) => (.computed v answers.isSome (answers.getD []), maps)
    | (.error message, (maps, _)) => (.stopped message, maps)
  | .describe m, maps => (.map (mapAt maps m).size (mapAt maps m).display, maps)
  | .keyName k, maps => (.name (keyAt keys k).name, maps)
  | .sameKey a b, maps => (.flag ((keyAt keys a).id == (keyAt keys b).id), maps)
  | .olderKey a b, maps => (.flag ((keyAt keys a).id < (keyAt keys b).id), maps)

/-- Runs steps one after the other; a step that stops does not stop the next ones. -/
def runSteps (keys : Array Key) : List Step → Maps → List Answer × Maps
  | [], maps => ([], maps)
  | step :: steps, maps =>
    let (answer, maps) := runStep keys step maps
    let (answers, maps) := runSteps keys steps maps
    (answer :: answers, maps)

end

def run (keys : Array Key) (count : Nat) (steps : List Step) : List Answer :=
  (runSteps keys steps (Array.replicate count .empty)).1

end TreeMetrics.Script
