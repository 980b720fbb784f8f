import TreeMetrics.Document.Axis
import TreeMetrics.Document.Filter

namespace TreeMetrics

/-- A walk; a walk that is sifted node by node; a stream that is; a stream of which each node is
followed along an axis, `current` being the walk from the node met last; and one stream behind
another, which is `pending` as long as the first of them is not entered. -/
inductive Stream {α : Type} (doc : Document α) where
  | walk (w : Walk doc)
  | sifted (w : Walk doc) (f : Filter)
  | filtered (source : Stream doc) (f : Filter)
  | along (source : Stream doc) (current : Walk doc) (axis : Axis)
  | pending (first second : Stream doc)
  | append (first second : Stream doc)

namespace Stream

variable {α : Type} {doc : Document α}

def follow (s : Stream doc) (axis : Axis) : Stream doc := along s .empty axis

def concat (ss : List (Stream doc)) : Stream doc := ss.foldr pending (walk .empty)

/-- One step: the node it produces, if any, and the stream behind it. A stream that cannot step is
at its end. -/
def step? (doc : Document α) : Stream doc → Option (Option NodeId × Stream doc)
  | walk w =>
    match w.next doc with
    | some (n, w) => some (some n, walk w)
    | none => none
  | sifted w f =>
    match w.next doc with
    | some (n, w) => some (f n, sifted w f)
    | none => none
  | filtered s f =>
    match s.step? doc with
    | some (n, s) => some (n.bind f, filtered s f)
    | none => none
  | along s w axis =>
    match w.next doc with
    | some (n, w) => some (some n, along s w axis)
    | none =>
      match s.step? doc with
      | some (some n, s) => some (none, along s (axis.walk doc n) axis)
      | some (none, s) => some (none, along s .empty axis)
      | none => none
  | pending s t => some (none, append s t)
  | append s t =>
    match s.step? doc with
    | some (n, s) => some (n, append s t)
    | none => t.step? doc

/-- A bound on the nodes that a walk still produces: below a node there are no more than its subtree
has, above it no more than have smaller numbers. -/
def walkBound (doc : Document α) : Walk doc → Nat
  | .empty => 0
  | .single n => n.toList.length
  | .siblings _ i stop _ => stop - i
  | .descendants ahead => doc.subtreeSizes ahead
  | .ancestors none => 0
  | .ancestors (some n) => n + 1

/-- A bound on the steps that a stream still makes; along an axis from one node there are no more
nodes than in the document. -/
def bound (doc : Document α) : Stream doc → Nat
  | walk w => walkBound doc w
  | sifted w _ => walkBound doc w
  | filtered s _ => bound doc s
  | along s w _ => walkBound doc w + bound doc s * (doc.size + 2)
  | pending s t => bound doc s + bound doc t + 1
  | append s t => bound doc s + bound doc t

/-- A stream that is known to stay at its end is kept there when it is followed; any other is let
go. -/
def staysAtEnd : Stream doc → Bool
  | sifted .. | filtered .. => false
  | _ => true

/-- What is left of a stream when it was asked in vain for a node. -/
def ended : Stream doc → Stream doc
  | walk w => walk w
  | sifted w f => sifted w f
  | filtered s f => filtered s.ended f
  | along s _ axis => along (if s.staysAtEnd then s.ended else walk .empty) .empty axis
  | pending s t => pending s t
  | append _ t => t.ended

/-- The next node within `steps` steps, if there is one, and the stream behind it. -/
def nextWithin (doc : Document α) : Nat → Stream doc → Option NodeId × Stream doc
  | 0, s => (none, s.ended)
  | steps + 1, s =>
    match s.step? doc with
    | none => (none, s.ended)
    | some (some n, s) => (some n, s)
    | some (none, s) => nextWithin doc steps s

/-- The next node, if there is one, and the stream behind it. Looking for a node in vain brings the
stream to its end. -/
def next (doc : Document α) (s : Stream doc) : Option NodeId × Stream doc :=
  nextWithin doc (bound doc s) s

/-- The nodes that `steps` steps produce. -/
def toListWithin (doc : Document α) : Nat → Stream doc → List NodeId
  | 0, _ => []
  | steps + 1, s =>
    match s.step? doc with
    | none => []
    | some (n, s) => n.toList ++ toListWithin doc steps s

def toList (doc : Document α) (s : Stream doc) : List NodeId := toListWithin doc (bound doc s) s

/-- The number of nodes that `steps` steps add to `count`. -/
def countWithin (doc : Document α) : Nat → Nat → Stream doc → Nat
  | 0, count, _ => count
  | steps + 1, count, s =>
    match s.step? doc with
    | none => count
    | some (none, s) => countWithin doc steps count s
    | some (some _, s) => countWithin doc steps (count + 1) s

def count (doc : Document α) (s : Stream doc) : Nat := countWithin doc (bound doc s) 0 s

def nonempty (doc : Document α) (s : Stream doc) : Bool := (s.next doc).1.isSome

def first? (doc : Document α) (s : Stream doc) : Option NodeId := (s.next doc).1

def firstOfKind? [HasKind α] (doc : Document α) (s : Stream doc) (k : String) : Option NodeId :=
  (filtered s (.ofKind doc k)).first? doc

/-- The least number of nodes to come, and the greatest if it is known. A filter may drop every
node. In front of walks that are not yet entered only the one in progress counts, and how many nodes
there are at most is known when no further walk comes. -/
def sizeHint : Stream doc → Nat × Option Nat
  | walk w => w.sizeHint
  | sifted w _ => (0, w.sizeHint.2)
  | filtered _ _ => (0, none)
  | along s w _ => (w.sizeHint.1, if s.sizeHint = (0, some 0) then w.sizeHint.2 else none)
  | pending _ _ => (0, none)
  | append s t => (s.sizeHint.1, if t.sizeHint = (0, some 0) then s.sizeHint.2 else none)

/-- The size hints and nodes of `n` calls for the next node; behind the first call in vain there is
only one more. -/
def trace (doc : Document α) : Nat → Stream doc → List ((Nat × Option Nat) × Option NodeId)
  | 0, _ => []
  | n + 1, s =>
    match s.next doc with
    | (some m, t) => (s.sizeHint, some m) :: trace doc n t
    | (none, t) => (s.sizeHint, none) :: List.replicate (min n 1) (t.sizeHint, (t.next doc).1)

end Stream

namespace Document

variable {α : Type}

def firstDescendant? (doc : Document α) (n : NodeId) (f : Filter) : Option NodeId :=
  (Stream.sifted (.ofDescendants doc n) f).first? doc

def firstAncestor? (doc : Document α) (n : NodeId) (f : Filter) : Option NodeId :=
  (Stream.sifted (.ofAncestors doc n) f).first? doc

def firstChildOfKind? [HasKind α] (doc : Document α) (n : NodeId) (k : String) : Option NodeId :=
  (Stream.walk (.ofChildren doc n)).firstOfKind? doc k

end Document

end TreeMetrics
