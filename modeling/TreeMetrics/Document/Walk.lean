import TreeMetrics.Document.Basic

namespace TreeMetrics

/-- The nodes of a document that are still to come. A walk over siblings goes through the places
from `next` to `stop` among the children of their parent; one over descendants keeps the subtrees
ahead, the next one first; one over ancestors keeps the next one. -/
inductive Walk {α : Type} (doc : Document α) where
  | empty
  | single (node : Option NodeId)
  | siblings (parent : NodeId) (next stop : Nat) (within : stop ≤ (doc.children parent).length)
  | descendants (ahead : List NodeId)
  | ancestors (node : Option NodeId)

inductive SliceError where
  | badStart (first count : Nat)
  | badLength (first length count : Nat)
deriving DecidableEq, Repr

def SliceError.message : SliceError → String
  | badStart first count =>
    "from (" ++ toString first ++ ") should be a valid index, have " ++ toString count ++
      " children"
  | badLength first length count =>
    "from (" ++ toString first ++ ") + length (" ++ toString length ++
      ") should be a valid index, have " ++ toString count ++ " children"

namespace Walk

variable {α : Type} {doc : Document α}

/-- The next node and the walk behind it. -/
def next (doc : Document α) : Walk doc → Option (NodeId × Walk doc)
  | empty => none
  | single none => none
  | single (some n) => some (n, single none)
  | siblings p i stop h =>
    if i < stop then (doc.child? p i).map fun c => (c, siblings p (i + 1) stop h) else none
  | descendants [] => none
  | descendants (n :: ahead) => some (n, descendants (doc.children n ++ ahead))
  | ancestors none => none
  | ancestors (some n) => some (n, ancestors (doc.parent? n))

/-- The least number of nodes to come, and the greatest if it is known. -/
def sizeHint : Walk doc → Nat × Option Nat
  | empty => (0, some 0)
  | single n => (n.toList.length, some n.toList.length)
  | siblings _ i stop _ => (stop - i, some (stop - i))
  | descendants ahead => (ahead.length, none)
  | ancestors n => (n.toList.length, none)

def variant : Walk doc → String
  | empty => "Empty"
  | single _ => "Single"
  | siblings .. => "Children"
  | descendants _ => "Descendants"
  | ancestors _ => "Ancestors"

/-- A walk that is empty from the start. -/
def isEmpty : Walk doc → Bool
  | empty => true
  | _ => false

def ofNode (n : NodeId) : Walk doc := single (some n)

def ofChildren (doc : Document α) (n : NodeId) : Walk doc :=
  if doc.isLeaf n then empty else siblings n 0 (doc.children n).length (Nat.le_refl _)

def ofDescendants (doc : Document α) (n : NodeId) : Walk doc :=
  if doc.isLeaf n then empty else descendants (doc.children n)

def ofDescendantsOrSelf (doc : Document α) (n : NodeId) : Walk doc :=
  if doc.isLeaf n then single (some n) else descendants [n]

/-- Over a node and the nodes above it, the root last; over nothing if there is no node. -/
def ofAncestorsOrSelf (doc : Document α) : Option NodeId → Walk doc
  | none => empty
  | some n => if doc.isRoot n then single (some n) else ancestors (some n)

def ofAncestors (doc : Document α) (n : NodeId) : Walk doc := ofAncestorsOrSelf doc (doc.parent? n)

def ofParent (doc : Document α) (n : NodeId) : Walk doc :=
  match doc.parent? n with
  | none => empty
  | some p => single (some p)

/-- Over `length` children of a node from number `first` on, where there are so many. -/
def slice (doc : Document α) (n : NodeId) (first length : Nat) : Walk doc :=
  if h : first + length ≤ (doc.children n).length then
    if length = 0 then empty
    else if length = 1 then single (doc.child? n first)
    else siblings n first (first + length) h
  else empty

/-- The sum of two numbers of 64 bits, if it is one. -/
def checkedAdd (i j : Nat) : Option Nat := if i + j < UInt64.size then some (i + j) else none

/-- Over `length` children of a node from number `first` on, which have to exist. -/
def ofSlice (doc : Document α) (n : NodeId) (first length : Nat) :
    Except SliceError (Walk doc) :=
  let count := (doc.children n).length
  if count < first then .error (.badStart first count)
  else
    match (checkedAdd first length).filter (· ≤ count) with
    | some _ => .ok (slice doc n first length)
    | none => .error (.badLength first length count)

def ofFollowingSiblings (doc : Document α) (n : NodeId) : Walk doc :=
  match doc.parent? n with
  | none => empty
  | some p =>
    let count := (doc.children p).length
    let first := doc.index n + 1
    if 1 < count then slice doc p first (count - first) else empty

def ofPrecedingSiblings (doc : Document α) (n : NodeId) : Walk doc :=
  match doc.parent? n with
  | none => empty
  | some p => if 1 < (doc.children p).length then slice doc p 0 (doc.index n) else empty

end Walk

end TreeMetrics
