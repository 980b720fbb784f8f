import TreeMetrics.Proofs.Twig.Schema

namespace TreeMetrics.Twig

namespace Print

structure Piece where
  kind : Kind
  tokens : List String

def Piece.operand (p : Piece) : List String :=
  match p.kind with
  | .name | .literal => p.tokens
  | _ => "(" :: p.tokens ++ [")"]

def commas : List (List String) → List String
  | [] => []
  | ws :: wss => ws ++ wss.flatMap ("," :: ·)

def modifiers (m : Modifiers) : List String :=
  (if m.isPublic then ["public"] else []) ++ if m.isAbstract then ["abstract"] else []

/-- The tokens of a node, given the pieces under it. -/
def join (n : Node) (parts : List Piece) : List String :=
  let image := n.image.getD ""
  let inner := parts.flatMap (·.tokens)
  match n.kind, parts with
  | .compilationUnit, _ => inner
  | .importDeclaration, _ => ["import", image, ";"]
  | .classDeclaration, _ => "class" :: image :: "\x7b" :: inner ++ ["\x7d"]
  | .fieldDeclaration, _ => modifiers n.modifiers ++ ["field", image, ";"]
  | .methodDeclaration, [params] =>
    modifiers n.modifiers ++ "method" :: image :: params.tokens ++ [";"]
  | .methodDeclaration, _ => modifiers n.modifiers ++ "method" :: image :: inner
  | .formalParameters, _ | .arguments, _ => "(" :: commas (parts.map (·.tokens)) ++ [")"]
  | .block, _ => "\x7b" :: inner ++ ["\x7d"]
  | .ifStatement, condition :: rest =>
    "if" :: "(" :: condition.tokens ++ ")" :: rest.flatMap (·.tokens)
  | .elseClause, _ => "else" :: inner
  | .whileStatement, condition :: rest =>
    "while" :: "(" :: condition.tokens ++ ")" :: rest.flatMap (·.tokens)
  | .returnStatement, _ => "return" :: inner ++ [";"]
  | .expressionStatement, _ => "(" :: inner ++ [")", ";"]
  | .assignment, [left, right] | .infixExpression, [left, right] =>
    left.operand ++ image :: right.operand
  | .conditionalExpression, [condition, yes, no] =>
    condition.operand ++ "?" :: yes.operand ++ ":" :: no.operand
  | .unaryExpression, [operand] => image :: operand.operand
  | .methodCall, [callee, arguments] => callee.operand ++ arguments.tokens
  | _, _ => image :: inner

end Print

mutual

def tokens : Tree Node → List String
  | .node n ts => Print.join n (pieces ts)

def pieces : List (Tree Node) → List Print.Piece
  | [] => []
  | t :: ts => ⟨t.label.kind, tokens t⟩ :: pieces ts

end

def print (t : Tree Node) : String := " ".intercalate (tokens t)

def operand (t : Tree Node) : List String := Print.Piece.operand ⟨t.label.kind, tokens t⟩

def Node.unplaced (n : Node) : Node := { n with beginLine := 0, endLine := 0 }

mutual

/-- A tree without the lines of its nodes. -/
def unplaced : Tree Node → Tree Node
  | .node n ts => .node n.unplaced (unplacedAll ts)

def unplacedAll : List (Tree Node) → List (Tree Node)
  | [] => []
  | t :: ts => unplaced t :: unplacedAll ts

end

theorem unplaced_node {m n : Node} {ts us : List (Tree Node)} (hn : m.unplaced = n.unplaced)
    (h : unplacedAll ts = unplacedAll us) : unplaced (.node m ts) = unplaced (.node n us) := by
  rw [unplaced, unplaced, hn, h]

theorem unplacedAll_cons {t u : Tree Node} {ts us : List (Tree Node)} (ht : unplaced t = unplaced u)
    (h : unplacedAll ts = unplacedAll us) : unplacedAll (t :: ts) = unplacedAll (u :: us) := by
  rw [unplacedAll, unplacedAll, ht, h]

theorem flatMap_tokens (ts : List (Tree Node)) :
    (pieces ts).flatMap (·.tokens) = ts.flatMap tokens := by
  induction ts with
  | nil => rfl
  | cons t ts ih => rw [pieces, List.flatMap_cons, List.flatMap_cons, ih]

theorem map_tokens (ts : List (Tree Node)) : (pieces ts).map (·.tokens) = ts.map tokens := by
  induction ts with
  | nil => rfl
  | cons t ts ih => rw [pieces, List.map_cons, List.map_cons, ih]

section Tokens

variable {b e b' e' : Nat} {w : String} {m : Modifiers} {ts : List (Tree Node)}
variable {condition body other value params : Tree Node}

-- The cases of `join` are read off by definition: its equation lemmas are slow to derive.
theorem tokens_call {callee : Tree Node} :
    tokens (.node (.plain .methodCall b e) [callee, .node (.plain .arguments b' e') ts]) =
      operand callee ++ "(" :: Print.commas (ts.map tokens) ++ [")"] := by
  rw [← map_tokens, List.append_assoc]
  rfl

theorem tokens_block :
    tokens (.node (.plain .block b e) ts) = "\x7b" :: ts.flatMap tokens ++ ["\x7d"] := by
  rw [← flatMap_tokens]
  rfl

theorem tokens_branch :
    tokens (.node (.plain .ifStatement b e) [condition, body]) =
      "if" :: "(" :: (tokens condition ++ ")" :: tokens body) := by
  show "if" :: "(" :: (tokens condition ++ ")" :: [body].flatMap tokens) = _
  rw [List.flatMap_singleton]

theorem tokens_else :
    tokens (.node (.plain .elseClause b e) [other]) = "else" :: tokens other := by
  show "else" :: [other].flatMap tokens = _
  rw [List.flatMap_singleton]

theorem tokens_otherwise :
    tokens (.node (.plain .ifStatement b e)
        [condition, body, .node (.plain .elseClause b' e') [other]]) =
      "if" :: "(" :: (tokens condition ++ ")" :: (tokens body ++ "else" :: tokens other)) := by
  show "if" :: "(" :: (tokens condition ++ ")" ::
    [body, .node (.plain .elseClause b' e') [other]].flatMap tokens) = _
  rw [List.flatMap_cons, List.flatMap_singleton, tokens_else]

theorem tokens_loop :
    tokens (.node (.plain .whileStatement b e) [condition, body]) =
      "while" :: "(" :: (tokens condition ++ ")" :: tokens body) := by
  show "while" :: "(" :: (tokens condition ++ ")" :: [body].flatMap tokens) = _
  rw [List.flatMap_singleton]

theorem tokens_give :
    tokens (.node (.plain .returnStatement b e) [value]) = "return" :: (tokens value ++ [";"]) := by
  show "return" :: ([value].flatMap tokens ++ [";"]) = _
  rw [List.flatMap_singleton]

theorem tokens_expression :
    tokens (.node (.plain .expressionStatement b e) [value]) =
      "(" :: tokens value ++ [")"] ++ [";"] := by
  show "(" :: [value].flatMap tokens ++ ([")"] ++ [";"]) = _
  rw [List.flatMap_singleton, List.append_assoc]

theorem tokens_parameters :
    tokens (.node (.plain .formalParameters b e) ts) =
      "(" :: (Print.commas (ts.map tokens) ++ [")"]) := by
  rw [← map_tokens]
  rfl

theorem tokens_declaration :
    tokens (.node ⟨.methodDeclaration, some w, m, b, e⟩
        [.node (.plain .formalParameters b' e') ts]) =
      Print.modifiers m ++
        "method" :: w :: "(" :: (Print.commas (ts.map tokens) ++ [")", ";"]) := by
  show Print.modifiers m ++ "method" :: w :: tokens (.node (.plain .formalParameters b' e') ts) ++
    [";"] = _
  rw [tokens_parameters]
  simp only [List.append_assoc, List.cons_append, List.nil_append]

theorem tokens_method {b₂ e₂ : Nat} {body : List (Tree Node)} :
    tokens (.node ⟨.methodDeclaration, some w, m, b, e⟩
        [.node (.plain .formalParameters b' e') ts, .node (.plain .block b₂ e₂) body]) =
      Print.modifiers m ++ "method" :: w :: "(" :: (Print.commas (ts.map tokens) ++
        ")" :: tokens (.node (.plain .block b₂ e₂) body)) := by
  show Print.modifiers m ++ "method" :: w :: [.node (.plain .formalParameters b' e') ts,
    .node (.plain .block b₂ e₂) body].flatMap tokens = _
  rw [List.flatMap_cons, List.flatMap_singleton, tokens_parameters]
  simp only [List.append_assoc, List.cons_append, List.nil_append]

theorem tokens_class :
    tokens (.node (.word .classDeclaration w b e) ts) =
      "class" :: w :: "\x7b" :: (ts.flatMap tokens ++ ["\x7d"]) := by
  rw [← flatMap_tokens]
  rfl

theorem tokens_file : tokens (.node (.plain .compilationUnit b e) ts) = ts.flatMap tokens := by
  rw [← flatMap_tokens]
  rfl

end Tokens

end TreeMetrics.Twig
