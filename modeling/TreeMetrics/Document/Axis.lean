import TreeMetrics.Document.Walk
import TreeMetrics.Text.Quoted

namespace TreeMetrics

inductive Axis where
  | child
  | descendant
  | descendantOrSelf
  | ancestor
  | ancestorOrSelf
  | followingSibling
  | precedingSibling
  | self
  | parent
deriving DecidableEq, Repr

namespace Axis

def name : Axis → String
  | child => "child"
  | descendant => "descendant"
  | descendantOrSelf => "descendant-or-self"
  | ancestor => "ancestor"
  | ancestorOrSelf => "ancestor-or-self"
  | followingSibling => "following-sibling"
  | precedingSibling => "preceding-sibling"
  | self => "self"
  | parent => "parent"

def all : List Axis :=
  [child, descendant, descendantOrSelf, ancestor, ancestorOrSelf, followingSibling,
    precedingSibling, self, parent]

def ofName? (s : String) : Option Axis := all.find? fun a => a.name == s

def unknownMessage (s : String) : String := "unknown axis: " ++ Text.quoted s

/-- An axis is reverse if it leads to nodes in front of the one it starts from. -/
def isReverse : Axis → Bool
  | ancestor | ancestorOrSelf | precedingSibling | parent => true
  | _ => false

variable {α : Type}

def walk (doc : Document α) (n : NodeId) : Axis → Walk doc
  | child => .ofChildren doc n
  | descendant => .ofDescendants doc n
  | descendantOrSelf => .ofDescendantsOrSelf doc n
  | ancestor => .ofAncestors doc n
  | ancestorOrSelf => .ofAncestorsOrSelf doc (some n)
  | followingSibling => .ofFollowingSiblings doc n
  | precedingSibling => .ofPrecedingSiblings doc n
  | self => .ofNode n
  | parent => .ofParent doc n

end Axis

end TreeMetrics
