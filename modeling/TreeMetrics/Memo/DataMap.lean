namespace TreeMetrics

/-- A computation on states that ends in a value or stops early; either way it leaves a state. -/
abbrev Action (S ε β : Type) := ExceptT ε (StateM S) β

structure Slot (β : Type) where
  version : Nat
  value : Option β
deriving Repr

/-- Slots by key. Versions below `nextVersion` are taken. -/
structure DataMap (κ β : Type) where
  slots : List (κ × Slot β)
  nextVersion : Nat
deriving Repr

namespace DataMap

variable {κ β : Type} [DecidableEq κ]

def empty : DataMap κ β := ⟨[], 0⟩

def assign (k : κ) (s : Slot β) : List (κ × Slot β) → List (κ × Slot β)
  | [] => [(k, s)]
  | (l, t) :: rest => if l = k then (k, s) :: rest else (l, t) :: assign k s rest

def slot? (m : DataMap κ β) (k : κ) : Option (Slot β) := m.slots.lookup k

def get? (m : DataMap κ β) (k : κ) : Option β := (m.slot? k).bind Slot.value

def contains (m : DataMap κ β) (k : κ) : Bool := (m.get? k).isSome

/-- The number of values; empty slots do not count. -/
def size (m : DataMap κ β) : Nat := m.slots.countP fun s => s.2.value.isSome

def isEmpty (m : DataMap κ β) : Bool := m.size == 0

def display (m : DataMap κ β) : String := "DataMap \x7b len: " ++ toString m.size ++ " \x7d"

def put (m : DataMap κ β) (k : κ) (v : β) : DataMap κ β :=
  ⟨assign k ⟨m.nextVersion, some v⟩ m.slots, m.nextVersion + 1⟩

def reserve (m : DataMap κ β) (k : κ) : Slot β × DataMap κ β :=
  match m.slot? k with
  | some s => (s, m)
  | none =>
    let s := ⟨m.nextVersion, none⟩
    (s, ⟨assign k s m.slots, m.nextVersion + 1⟩)

/-- Fills the slot of a key unless another slot has taken its place. -/
def settle (m : DataMap κ β) (k : κ) (version : Nat) (v : β) : DataMap κ β :=
  match m.slot? k with
  | some s =>
    if s.version = version then { m with slots := assign k ⟨version, some v⟩ m.slots } else m
  | none => m

/-- The value of a key in the map that `view` finds in a state; without one `compute` is run, and
the value it ends in is kept. -/
def computeIfAbsent {S ε : Type} (view : S → DataMap κ β)
    (modify : (DataMap κ β → DataMap κ β) → S → S) (k : κ) (compute : Action S ε β) :
    Action S ε β := fun s =>
  let (slot, m) := (view s).reserve k
  match slot.value with
  | some v => (.ok v, s)
  | none =>
    match compute (modify (fun _ => m) s) with
    | (.ok v, s) => (.ok v, modify (fun m => m.settle k slot.version v) s)
    | (.error e, s) => (.error e, s)

end DataMap

end TreeMetrics
