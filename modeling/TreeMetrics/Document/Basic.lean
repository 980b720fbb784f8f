import TreeMetrics.Document.Layout

namespace TreeMetrics

/-- A tree together with the layout of its nodes. -/
structure Document (α : Type) where
  tree : Tree α
  entries : Array (Entry α)
  entries_eq : entries = (tree.layout none 0 0).toArray

class HasKind (α : Type) where
  kind : α → String

export HasKind (kind)

/-- A name alone is a kind. -/
instance : HasKind String := ⟨id⟩

/-- A child was asked for in a place where there is none. -/
structure NoChild where
  count : Nat
  index : Nat
deriving DecidableEq, Repr

def NoChild.message (e : NoChild) : String :=
  "index out of bounds: the len is " ++ toString e.count ++ " but the index is " ++ toString e.index

namespace Document

variable {α : Type}

def ofTree (t : Tree α) : Document α := ⟨t, t.arrange, t.arrange_eq⟩

def size (doc : Document α) : Nat := doc.entries.size

def entry? (doc : Document α) (n : NodeId) : Option (Entry α) := doc.entries[n]?

def root : NodeId := 0

def parent? (doc : Document α) (n : NodeId) : Option NodeId := (doc.entry? n).bind Entry.parent

/-- The place among the children of the parent; the root is in place zero. -/
def index (doc : Document α) (n : NodeId) : Nat := ((doc.entry? n).map Entry.index).getD 0

def children (doc : Document α) (n : NodeId) : List NodeId :=
  ((doc.entry? n).map Entry.children).getD []

def child? (doc : Document α) (n : NodeId) (i : Nat) : Option NodeId := (doc.children n)[i]?

/-- The child in a given place, which has to exist. -/
def child (doc : Document α) (n : NodeId) (i : Nat) : Except NoChild NodeId :=
  match doc.child? n i with
  | some c => .ok c
  | none => .error ⟨(doc.children n).length, i⟩

/-- The number of nodes of the subtree at a node, as far as a given depth. -/
def subtreeSizeWithin (doc : Document α) : Nat → NodeId → Nat
  | 0, _ => 1
  | depth + 1, n => (doc.children n).foldr (fun c k => subtreeSizeWithin doc depth c + k) 0 + 1

def subtreeSize (doc : Document α) (n : NodeId) : Nat := doc.subtreeSizeWithin doc.size n

def subtreeSizes (doc : Document α) (ns : List NodeId) : Nat :=
  ns.foldr (fun n k => doc.subtreeSize n + k) 0

def isLeaf (doc : Document α) (n : NodeId) : Bool := (doc.children n).isEmpty

def isRoot (doc : Document α) (n : NodeId) : Bool := (doc.parent? n).isNone

/-- Goes from parent to parent, no more than `steps` times. -/
def climb (doc : Document α) : Nat → NodeId → NodeId
  | 0, n => n
  | steps + 1, n =>
    match doc.parent? n with
    | some p => climb doc steps p
    | none => n

/-- The topmost node above a node, or the node itself if it has no parent. Parents have smaller
numbers, so that there are no more steps than the number of the node says. -/
def topmost (doc : Document α) (n : NodeId) : NodeId := doc.climb n n

variable [HasKind α]

def kind? (doc : Document α) (n : NodeId) : Option String :=
  (doc.entry? n).map fun e => kind e.label

def isKind (doc : Document α) (k : String) (n : NodeId) : Bool := doc.kind? n == some k

/-- A node in messages: its kind and its number. -/
def describe (doc : Document α) (n : NodeId) : String :=
  (doc.kind? n).getD "" ++ "#" ++ toString n

end Document

end TreeMetrics
