import TreeMetrics.Document.Stream
import TreeMetrics.Metric.Number
import TreeMetrics.Twig.Node

namespace TreeMetrics.Twig

instance : HasKind Node := ⟨fun n => n.kind.text⟩

def labelAt (doc : Document Node) (n : NodeId) : Node :=
  ((doc.entry? n).map Entry.label).getD (.plain .compilationUnit 0 0)

def kindIs (doc : Document Node) (k : Kind) (n : NodeId) : Bool := (labelAt doc n).kind == k

/-- The body of a method: its first block. -/
def methodBody? (doc : Document Node) (n : NodeId) : Option NodeId :=
  doc.firstChildOfKind? n Kind.block.text

def enclosingClass? (doc : Document Node) (n : NodeId) : Option NodeId :=
  doc.firstAncestor? n (.ofKind doc Kind.classDeclaration.text)

def isConcreteAt (doc : Document Node) (n : NodeId) : Bool :=
  kindIs doc .methodDeclaration n && (methodBody? doc n).isSome

/-- The number of nodes of a stream that have a property. -/
def countWhere {doc : Document Node} (s : Stream doc) (p : NodeId → Bool) : Float :=
  Number.ofCount ((Stream.filtered s (.keep p)).count doc)

/-- Where the flow of control divides. -/
def decidesAt (doc : Document Node) (n : NodeId) : Bool :=
  kindIs doc .ifStatement n || kindIs doc .whileStatement n || kindIs doc .conditionalExpression n

def isBooleanOperator (n : Node) : Bool :=
  n.kind == .infixExpression && (n.image == some "&&" || n.image == some "||")

/-- Adds to `count` the conjunctions and disjunctions that `steps` nodes off the stack are. The
children of a node come onto the stack unless it is a conditional expression, which is a decision of
its own. -/
def booleanPathsWithin (doc : Document Node) : Nat → Nat → List NodeId → Nat
  | 0, count, _ => count
  | _ + 1, count, [] => count
  | steps + 1, count, n :: stack =>
    if kindIs doc .conditionalExpression n then booleanPathsWithin doc steps count stack
    else
      let count := if isBooleanOperator (labelAt doc n) then count + 1 else count
      let children := (Stream.walk (.ofChildren doc n)).toList doc
      booleanPathsWithin doc steps count (children.reverse ++ stack)

/-- The conjunctions and disjunctions of a condition, each node of which comes onto the stack no
more than once. -/
def booleanPathsAt (doc : Document Node) (condition : NodeId) : Nat :=
  booleanPathsWithin doc (doc.subtreeSize condition) 0 [condition]

/-- The paths that a decision adds: one, and one for each conjunction and disjunction of its
condition, which is its first child, if they are to be counted. -/
def decisionPathsAt (doc : Document Node) (countBoolean : Bool) (d : NodeId) :
    Except NoChild Nat := do
  if countBoolean then
    let condition ← doc.child d 0
    pure (1 + booleanPathsAt doc condition)
  else pure 1

/-- One more than the paths that the decisions of a method add, unless a decision lacks the
condition that is to be examined. -/
def cycloAt (doc : Document Node) (countBoolean : Bool) (n : NodeId) : Except NoChild Float := do
  let decisions := Stream.filtered (.walk (.ofDescendants doc n)) (.keep (decidesAt doc))
  let paths ← (decisions.toList doc).mapM (decisionPathsAt doc countBoolean)
  pure (1.0 + Number.ofCount (paths.foldl (· + ·) 0))

def methodNcssAt (doc : Document Node) (n : NodeId) : Float :=
  1.0 + countWhere (.walk (.ofDescendants doc n)) fun m => (labelAt doc m).kind.isStatement

def importsAt (doc : Document Node) (n : NodeId) : Float :=
  match doc.parent? n with
  | some unit => countWhere (.walk (.ofChildren doc unit)) (kindIs doc .importDeclaration)
  | none => 0.0

def classNcssAt (doc : Document Node) (countImports : Bool) (n : NodeId) : Float :=
  let own := 1.0 + countWhere (.walk (.ofDescendants doc n)) fun m =>
    (labelAt doc m).kind.isStatement || kindIs doc .fieldDeclaration m ||
      kindIs doc .methodDeclaration m
  if countImports then own + importsAt doc n else own

/-- The number of lines that a node spans, modulo `2 ^ 64` should it end before it begins. -/
def lineCount (n : Node) : Nat :=
  if n.beginLine ≤ n.endLine + 1 then n.endLine + 1 - n.beginLine
  else UInt64.size - (n.beginLine - (n.endLine + 1))

def locAt (doc : Document Node) (n : NodeId) : Float := Number.ofCount (lineCount (labelAt doc n))

def childrenOf (doc : Document Node) (k : Kind) (n : NodeId) : Stream doc :=
  .filtered (.walk (.ofChildren doc n)) (.ofKind doc k.text)

def nopaAt (doc : Document Node) (n : NodeId) : Float :=
  countWhere (childrenOf doc .fieldDeclaration n) fun m => (labelAt doc m).modifiers.isPublic

/-- A name such as `getX`, `setX` or `isX`. -/
def isAccessorName (s : String) : Bool :=
  match s.toList with
  | 'g' :: 'e' :: 't' :: c :: _ => c.isUpper
  | 's' :: 'e' :: 't' :: c :: _ => c.isUpper
  | 'i' :: 's' :: c :: _ => c.isUpper
  | _ => false

/-- A public method with the name of an accessor and one statement. -/
def isAccessorAt (doc : Document Node) (m : NodeId) : Bool :=
  (labelAt doc m).modifiers.isPublic && (labelAt doc m).image.any isAccessorName &&
    (methodBody? doc m).any fun b => (doc.children b).length == 1

def noamAt (doc : Document Node) (n : NodeId) : Float :=
  countWhere (childrenOf doc .methodDeclaration n) (isAccessorAt doc)

end TreeMetrics.Twig
