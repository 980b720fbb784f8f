namespace TreeMetrics.Twig

inductive Rule where
  | endOfInput
  | whitespace
  | comment
  | file
  | importDecl
  | qualifiedName
  | classDecl
  | member
  | fieldDecl
  | methodDecl
  | modifiers
  | modifier
  | paramList
  | statement
  | block
  | ifStmt
  | elseClause
  | whileStmt
  | returnStmt
  | exprStmt
  | expr
  | assignment
  | ternary
  | orExpr
  | andExpr
  | eqExpr
  | relExpr
  | addExpr
  | unary
  | callChain
  | callArgs
  | primary
  | assignOp
  | orOp
  | andOp
  | eqOp
  | relOp
  | addOp
  | notOp
  | number
  | keyword
  | identChar
  | identRaw
  | identifier
deriving DecidableEq, Repr

namespace Rule

def name : Rule → String
  | endOfInput => "EOI"
  | whitespace => "WHITESPACE"
  | comment => "COMMENT"
  | file => "file"
  | importDecl => "import_decl"
  | qualifiedName => "qualified_name"
  | classDecl => "class_decl"
  | member => "member"
  | fieldDecl => "field_decl"
  | methodDecl => "method_decl"
  | modifiers => "modifiers"
  | modifier => "modifier"
  | paramList => "param_list"
  | statement => "statement"
  | block => "block"
  | ifStmt => "if_stmt"
  | elseClause => "else_clause"
  | whileStmt => "while_stmt"
  | returnStmt => "return_stmt"
  | exprStmt => "expr_stmt"
  | expr => "expr"
  | assignment => "assignment"
  | ternary => "ternary"
  | orExpr => "or_expr"
  | andExpr => "and_expr"
  | eqExpr => "eq_expr"
  | relExpr => "rel_expr"
  | addExpr => "add_expr"
  | unary => "unary"
  | callChain => "postfix"
  | callArgs => "call_args"
  | primary => "primary"
  | assignOp => "assign_op"
  | orOp => "or_op"
  | andOp => "and_op"
  | eqOp => "eq_op"
  | relOp => "rel_op"
  | addOp => "add_op"
  | notOp => "not_op"
  | number => "number"
  | keyword => "keyword"
  | identChar => "ident_char"
  | identRaw => "ident_raw"
  | identifier => "identifier"

/-- All rules, in the order in which they are reported. -/
def all : List Rule :=
  [endOfInput, whitespace, comment, file, importDecl, qualifiedName, classDecl, member, fieldDecl,
    methodDecl, modifiers, modifier, paramList, statement, block, ifStmt, elseClause, whileStmt,
    returnStmt, exprStmt, expr, assignment, ternary, orExpr, andExpr, eqExpr, relExpr, addExpr,
    unary, callChain, callArgs, primary, assignOp, orOp, andOp, eqOp, relOp, addOp, notOp, number,
    keyword, identChar, identRaw, identifier]

def ofName? (s : String) : Option Rule := all.find? fun r => r.name == s

theorem mem_all (r : Rule) : r ∈ all := by cases r <;> decide

end Rule

end TreeMetrics.Twig
