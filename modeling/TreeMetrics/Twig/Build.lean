import TreeMetrics.Grammar.ParseTree
import TreeMetrics.Twig.Node
import TreeMetrics.Twig.Rule

namespace TreeMetrics.Twig

inductive Place where
  | file
  | importDecl
  | classDecl
  | classBody
  | field
  | method
  | statement
  | expression
  | assignment
  | conditional
  | chain
  | call
deriving DecidableEq, Repr

def Place.text : Place → String
  | file => "file"
  | importDecl => "import"
  | classDecl => "class"
  | classBody => "class body"
  | field => "field"
  | method => "method"
  | statement => "statement position"
  | expression => "expression"
  | assignment => "assignment"
  | conditional => "conditional"
  | chain => "binary expression"
  | call => "postfix"

inductive Malformed where
  | unexpected (rule : Rule) (place : Place)
  | endedEarly (place : Place)
  | noOperand
  | noFile
deriving DecidableEq, Repr

def Malformed.message : Malformed → String
  | unexpected r p => "malformed parse tree: unexpected " ++ r.name ++ " in " ++ p.text
  | endedEarly p => "malformed parse tree: " ++ p.text ++ " ended early"
  | noOperand => "malformed parse tree: unary without operand"
  | noFile => "malformed parse tree: no file rule"

namespace Build

abbrev Result := Except Malformed (Tree Node)

/-- What is made of a match inside an expression: its tree, and the trees of the matches in it. -/
structure Part where
  source : ParseTree Rule
  tree : Result
  inner : Except Malformed (List (Tree Node))

def spanning (kind : Kind) (t : ParseTree Rule) : Node :=
  .plain kind t.start.line t.stop.line

def wordLeaf (kind : Kind) (t : ParseTree Rule) : Tree Node :=
  .leaf (.word kind t.text t.start.line t.stop.line)

/-- Goes on from the tree of the first part with the parts behind it. -/
def leading (place : Place) (parts : List Part) (go : Tree Node → List Part → Result) : Result :=
  match parts with
  | [] => .error (.endedEarly place)
  | first :: rest => do go (← first.tree) rest

/-- An assignment, or what stands alone in its place. -/
def assign (t : ParseTree Rule) (target : Tree Node) : List Part → Result
  | [] => .ok target
  | [_] => .error (.endedEarly .assignment)
  | op :: value :: _ => do
    let value ← value.tree
    .ok (.node (.word .assignment op.source.text t.start.line t.stop.line) [target, value])

def choose (t : ParseTree Rule) (condition : Tree Node) : List Part → Result
  | [] => .ok condition
  | yes :: rest => do
    let yes ← yes.tree
    -- The second branch is missed only when the first one is built.
    match rest with
    | [] => .error (.endedEarly .conditional)
    | no :: _ => do
      let no ← no.tree
      .ok (.node (spanning .conditionalExpression t) [condition, yes, no])

/-- Joins operands from the left: `a + b - c` is `(a + b) - c`. -/
def joinChain (left : Tree Node) : List Part → Result
  | [] => .ok left
  | [_] => .error (.endedEarly .chain)
  | op :: right :: rest => do
    let right ← right.tree
    let node :=
      Node.word .infixExpression op.source.text left.label.beginLine right.label.endLine
    joinChain (.node node [left, right]) rest

/-- The operators met so far, the latest first, and the operand met last. -/
def readUnary (ops : List String) (operand : Option (Tree Node)) :
    List Part → Except Malformed (List String × Option (Tree Node))
  | [] => .ok (ops, operand)
  | p :: ps =>
    if p.source.rule = .notOp then readUnary (p.source.text :: ops) operand ps
    else do readUnary ops (some (← p.tree)) ps

def negate (beginLine endLine : Nat) (operand : Tree Node) (op : String) : Tree Node :=
  .node (.word .unaryExpression op beginLine endLine) [operand]

/-- Applies the operators in front of an operand, the nearest one first. -/
def applyUnary (beginLine endLine : Nat) (parts : List Part) : Result := do
  match ← readUnary [] none parts with
  | (_, none) => .error .noOperand
  | (ops, some operand) => .ok (ops.foldl (negate beginLine endLine) operand)

/-- Calls what stands on the left with the matches inside each further part in turn. -/
def applyCalls (callee : Tree Node) : List Part → Result
  | [] => .ok callee
  | call :: rest => do
    let arguments := Tree.node (spanning .arguments call.source) (← call.inner)
    let node := Node.plain .methodCall callee.label.beginLine call.source.stop.line
    applyCalls (.node node [callee, arguments]) rest

def collect : List Part → Except Malformed (List (Tree Node))
  | [] => .ok []
  | p :: ps => do
    let t ← p.tree
    let ts ← collect ps
    .ok (t :: ts)

/-- The tree of an expression, given what is made of its parts. -/
def assemble (t : ParseTree Rule) (parts : List Part) : Result :=
  match t.rule with
  | .expr => leading .expression parts fun e _ => .ok e
  | .assignment => leading .assignment parts (assign t)
  | .ternary => leading .conditional parts (choose t)
  | .orExpr | .andExpr | .eqExpr | .relExpr | .addExpr => leading .chain parts joinChain
  | .unary => applyUnary t.start.line t.stop.line parts
  | .callChain => leading .call parts applyCalls
  | .number => .ok (wordLeaf .literal t)
  | .identifier => .ok (wordLeaf .name t)
  | r => .error (.unexpected r .expression)

mutual

def part : ParseTree Rule → Part
  | .node r p q s ts =>
    -- Both results are read off the same parts: each match is built once.
    let parts := partsOf ts
    ⟨.node r p q s ts, assemble (.node r p q s ts) parts, collect parts⟩

def partsOf : List (ParseTree Rule) → List Part
  | [] => []
  | t :: ts => part t :: partsOf ts

end

def expression (t : ParseTree Rule) : Result := (part t).tree

def arguments (t : ParseTree Rule) : Except Malformed (List (Tree Node)) := (part t).inner

theorem partsOf_eq_map (ts : List (ParseTree Rule)) : partsOf ts = ts.map part := by
  induction ts with
  | nil => rfl
  | cons t ts ih => rw [partsOf, ih, List.map_cons]

@[simp] theorem source_part (t : ParseTree Rule) : (part t).source = t := by
  cases t
  rfl

@[simp] theorem tree_part (t : ParseTree Rule) : (part t).tree = expression t := rfl

@[simp] theorem inner_part (t : ParseTree Rule) : (part t).inner = arguments t := rfl

section Equations

variable {r : Rule} {p q : Position} {s : String} {t u v o : ParseTree Rule}
variable {ts os : List (ParseTree Rule)} {a b c left callee : Tree Node} {as : List (Tree Node)}
variable {ps : List Part} {beginLine endLine : Nat}

theorem expression_node (r : Rule) (p q : Position) (s : String) (ts : List (ParseTree Rule)) :
    expression (.node r p q s ts) = assemble (.node r p q s ts) (ts.map part) := by
  rw [← partsOf_eq_map]
  rfl

theorem arguments_node (r : Rule) (p q : Position) (s : String) (ts : List (ParseTree Rule)) :
    arguments (.node r p q s ts) = collect (ts.map part) := by
  rw [← partsOf_eq_map]
  rfl

/-- A rule whose first part is built in front of the others. -/
theorem expression_leading {place : Place} {go : Tree Node → List Part → Result}
    (hr : ∀ ps, assemble (.node r p q s (t :: ts)) ps = leading place ps go)
    (h : expression t = .ok a) : expression (.node r p q s (t :: ts)) = go a (ts.map part) := by
  rw [expression_node, hr, List.map_cons, leading, tree_part, h]
  rfl

theorem expression_expr (h : expression t = .ok a) :
    expression (.node .expr p q s (t :: ts)) = .ok a :=
  (expression_leading (fun _ => rfl) h).trans rfl

theorem expression_target (h : expression t = .ok a) :
    expression (.node .assignment p q s [t]) = .ok a :=
  (expression_leading (fun _ => rfl) h).trans rfl

theorem expression_assignment (ht : expression t = .ok a) (hu : expression u = .ok b) :
    expression (.node .assignment p q s (t :: o :: u :: ts)) =
      .ok (.node (.word .assignment o.text p.line q.line) [a, b]) := by
  refine (expression_leading (fun _ => rfl) ht).trans ?_
  rw [List.map_cons, List.map_cons, assign, tree_part, hu, source_part]
  rfl

theorem expression_condition (h : expression t = .ok a) :
    expression (.node .ternary p q s [t]) = .ok a :=
  (expression_leading (fun _ => rfl) h).trans rfl

theorem expression_ternary (ht : expression t = .ok a) (hu : expression u = .ok b)
    (hv : expression v = .ok c) :
    expression (.node .ternary p q s (t :: u :: v :: ts)) =
      .ok (.node (.plain .conditionalExpression p.line q.line) [a, b, c]) := by
  refine (expression_leading (fun _ => rfl) ht).trans ?_
  rw [List.map_cons, List.map_cons, choose, tree_part, hu]
  change ((part v).tree >>= _) = _
  rw [tree_part, hv]
  rfl

theorem joinChain_cons (h : expression u = .ok b) :
    joinChain left (part o :: part u :: ps) =
      joinChain (.node (.word .infixExpression o.text left.label.beginLine b.label.endLine)
        [left, b]) ps := by
  rw [joinChain, tree_part, h, source_part]
  rfl

theorem readUnary_append (ops : List String) (operand : Option (Tree Node))
    (ho : ∀ o ∈ os, o.rule = .notOp) (ht : t.rule ≠ .notOp) (h : expression t = .ok a) :
    readUnary ops operand ((os ++ [t]).map part) =
      .ok ((os.map ParseTree.text).reverse ++ ops, some a) := by
  induction os generalizing ops with
  | nil =>
    rw [List.nil_append, List.map_singleton, readUnary, source_part, if_neg ht, tree_part, h]
    rfl
  | cons o os ih =>
    obtain ⟨ho, hos⟩ := List.forall_mem_cons.1 ho
    rw [List.cons_append, List.map_cons, readUnary, source_part, if_pos ho, ih _ hos, List.map_cons,
      List.reverse_cons, List.append_assoc]
    rfl

theorem expression_unary (ho : ∀ o ∈ os, o.rule = .notOp) (ht : t.rule ≠ .notOp)
    (h : expression t = .ok a) :
    expression (.node .unary p q s (os ++ [t])) =
      .ok (os.foldr (fun o e => negate p.line q.line e o.text) a) := by
  have hread := readUnary_append [] none ho ht h
  rw [expression_node]
  change applyUnary p.line q.line _ = _
  rw [applyUnary, hread, List.append_nil]
  change Except.ok _ = _
  rw [List.foldl_reverse, List.foldr_map]

theorem expression_callChain (h : expression t = .ok a) :
    expression (.node .callChain p q s (t :: ts)) = applyCalls a (ts.map part) :=
  expression_leading (fun _ => rfl) h

theorem applyCalls_cons (h : arguments t = .ok as) :
    applyCalls callee (part t :: ps) =
      applyCalls (.node (.plain .methodCall callee.label.beginLine t.stop.line)
        [callee, .node (spanning .arguments t) as]) ps := by
  rw [applyCalls, inner_part, h, source_part]
  rfl

theorem collect_cons (ht : expression t = .ok a) (hps : collect ps = .ok as) :
    collect (part t :: ps) = .ok (a :: as) := by
  rw [collect, tree_part, ht, hps]
  rfl

end Equations

/-- The kind of node that a statement rule makes. -/
def statementKind? : Rule → Option Kind
  | .block => some .block
  | .ifStmt => some .ifStatement
  | .elseClause => some .elseClause
  | .whileStmt => some .whileStatement
  | .returnStmt => some .returnStatement
  | .exprStmt => some .expressionStatement
  | _ => none

mutual

def statement : ParseTree Rule → Result
  | .node r p q _ ts =>
    match statementKind? r with
    | none => .error (.unexpected r .statement)
    | some kind => do .ok (.node (.plain kind p.line q.line) (← statements ts))

def statements : List (ParseTree Rule) → Except Malformed (List (Tree Node))
  | [] => .ok []
  | t :: ts => do
    let t ← if t.rule = .expr then expression t else statement t
    let ts ← statements ts
    .ok (t :: ts)

end

/-- The modifiers that a parse tree lists; naming one twice changes nothing. -/
def modifiers (t : ParseTree Rule) : Modifiers :=
  ⟨t.children.any fun m => m.text == "public", t.children.any fun m => m.text == "abstract"⟩

def importDecl (t : ParseTree Rule) : Result :=
  match t.children with
  | [] => .error (.endedEarly .importDecl)
  | name :: _ => .ok (.leaf { spanning .importDeclaration t with image := some name.text })

def field (t : ParseTree Rule) : Result :=
  match t.children with
  | mods :: name :: _ =>
    let node := spanning .fieldDeclaration t
    .ok (.leaf { node with image := some name.text, modifiers := modifiers mods })
  | _ => .error (.endedEarly .field)

/-- The tree of a method: its parameters, then its body if it has one. -/
def method (t : ParseTree Rule) : Result :=
  match t.children with
  | mods :: name :: params :: rest => do
    let body ←
      match rest with
      | [] => .ok []
      | body :: _ => (statement body).map ([·])
    let node := spanning .methodDeclaration t
    let formals := .node (spanning .formalParameters params)
      (params.children.map (wordLeaf .formalParameter))
    .ok (.node { node with image := some name.text, modifiers := modifiers mods }
      (formals :: body))
  | _ => .error (.endedEarly .method)

def member (t : ParseTree Rule) : Result :=
  match t.rule with
  | .fieldDecl => field t
  | .methodDecl => method t
  | r => .error (.unexpected r .classBody)

def classDecl (t : ParseTree Rule) : Result :=
  match t.children with
  | [] => .error (.endedEarly .classDecl)
  | name :: members => do
    let members ← members.mapM member
    .ok (.node { spanning .classDeclaration t with image := some name.text } members)

def declarations : List (ParseTree Rule) → Except Malformed (List (Tree Node))
  | [] => .ok []
  | t :: ts =>
    match t.rule with
    | .importDecl => do
      let d ← importDecl t
      let ds ← declarations ts
      .ok (d :: ds)
    | .classDecl => do
      let d ← classDecl t
      let ds ← declarations ts
      .ok (d :: ds)
    | .endOfInput => declarations ts
    | r => .error (.unexpected r .file)

def file (t : ParseTree Rule) : Result := do
  .ok (.node (spanning .compilationUnit t) (← declarations t.children))

end Build

end TreeMetrics.Twig
