import TreeMetrics.Tree.Basic

namespace TreeMetrics.Twig

inductive Kind where
  | compilationUnit
  | importDeclaration
  | classDeclaration
  | fieldDeclaration
  | methodDeclaration
  | formalParameters
  | formalParameter
  | block
  | ifStatement
  | elseClause
  | whileStatement
  | returnStatement
  | expressionStatement
  | assignment
  | conditionalExpression
  | infixExpression
  | unaryExpression
  | methodCall
  | arguments
  | name
  | literal
deriving DecidableEq, Repr

namespace Kind

def text : Kind → String
  | compilationUnit => "CompilationUnit"
  | importDeclaration => "ImportDeclaration"
  | classDeclaration => "ClassDeclaration"
  | fieldDeclaration => "FieldDeclaration"
  | methodDeclaration => "MethodDeclaration"
  | formalParameters => "FormalParameters"
  | formalParameter => "FormalParameter"
  | block => "Block"
  | ifStatement => "IfStatement"
  | elseClause => "ElseClause"
  | whileStatement => "WhileStatement"
  | returnStatement => "ReturnStatement"
  | expressionStatement => "ExpressionStatement"
  | assignment => "Assignment"
  | conditionalExpression => "ConditionalExpression"
  | infixExpression => "InfixExpression"
  | unaryExpression => "UnaryExpression"
  | methodCall => "MethodCall"
  | arguments => "Arguments"
  | name => "Name"
  | literal => "Literal"

def all : List Kind :=
  [compilationUnit, importDeclaration, classDeclaration, fieldDeclaration, methodDeclaration,
    formalParameters, formalParameter, block, ifStatement, elseClause, whileStatement,
    returnStatement, expressionStatement, assignment, conditionalExpression, infixExpression,
    unaryExpression, methodCall, arguments, name, literal]

def ofText? (s : String) : Option Kind := all.find? fun k => k.text == s

/-- The kinds that count as statements; a block counts only through what it holds. -/
def isStatement : Kind → Bool
  | ifStatement | elseClause | whileStatement | returnStatement | expressionStatement => true
  | _ => false

end Kind

structure Modifiers where
  isPublic : Bool
  isAbstract : Bool
deriving DecidableEq, Repr

def Modifiers.none : Modifiers := ⟨false, false⟩

/-- A node: its kind, the identifier, operator or number that it stands for if there is one, its
modifiers, and the lines on which it begins and ends. -/
structure Node where
  kind : Kind
  image : Option String
  modifiers : Modifiers
  beginLine : Nat
  endLine : Nat
deriving DecidableEq, Repr

def Node.plain (kind : Kind) (beginLine endLine : Nat) : Node :=
  ⟨kind, none, .none, beginLine, endLine⟩

def Node.word (kind : Kind) (image : String) (beginLine endLine : Nat) : Node :=
  ⟨kind, some image, .none, beginLine, endLine⟩

end TreeMetrics.Twig
