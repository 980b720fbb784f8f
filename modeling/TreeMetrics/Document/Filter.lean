import TreeMetrics.Document.Basic

namespace TreeMetrics

/-- What becomes of a node. -/
abbrev Filter := NodeId → Option NodeId

namespace Filter

variable {α : Type}

def keep (p : NodeId → Bool) : Filter := fun n => if p n then some n else none

def identity : Filter := some

def leaf (doc : Document α) : Filter := keep doc.isLeaf

def ofKind [HasKind α] (doc : Document α) (k : String) : Filter := keep (doc.isKind k)

/-- Keeps the nodes in place `i` or later among their siblings. -/
def minIndex (doc : Document α) (i : Nat) : Filter := keep fun n => i ≤ doc.index n

def parent (doc : Document α) : Filter := doc.parent?

def child (doc : Document α) (i : Nat) : Filter := fun n => doc.child? n i

def andThen (f g : Filter) : Filter := fun n => (f n).bind g

end Filter

end TreeMetrics
