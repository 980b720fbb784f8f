import TreeMetrics.Document.Stream

namespace TreeMetrics.Operations

variable {α : Type}

def none (_ : Document α) (_ : NodeId) : List NodeId := []

def children [HasKind α] (k : String) (doc : Document α) (n : NodeId) : List NodeId :=
  (Stream.filtered (.walk (.ofChildren doc n)) (.ofKind doc k)).toList doc

def descendants [HasKind α] (k : String) (doc : Document α) (n : NodeId) : List NodeId :=
  (Stream.filtered (.walk (.ofDescendants doc n)) (.ofKind doc k)).toList doc

end TreeMetrics.Operations
