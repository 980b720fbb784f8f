import TreeMetrics.Grammar.Basic
import TreeMetrics.Twig.Rule

namespace TreeMetrics.Twig

open TreeMetrics.Expr TreeMetrics.Twig.Rule

/-- A line feed, with or without a carriage return before it, or a lone carriage return. -/
def newline : Expr Rule := oneOf [lit "\n", lit "\r\n", lit "\r"]

def gap : Expr Rule :=
  tight [star (call whitespace), star (tight [call comment, star (call whitespace)])]

/-- The given parts with gaps between them. -/
def phrase (parts : List (Expr Rule)) : Expr Rule := spaced gap parts

def many (part : Expr Rule) : Expr Rule := spacedMany gap part

def chain (operand op : Rule) : Expr Rule :=
  phrase [call operand, many (phrase [call op, call operand])]

def commaSeparated (part : Rule) : Expr Rule :=
  phrase [call part, many (phrase [lit ",", call part])]

def keywords : List String :=
  ["import", "class", "field", "method", "public", "abstract", "if", "else", "while", "return"]

def pattern : Rule → Expr Rule
  | endOfInput => atEnd
  | whitespace => oneOf [lit " ", lit "\t", newline]
  | comment =>
    oneOf
      [tight [lit "//", star (tight [not newline, char .any])],
        tight [lit "/*", star (tight [not (lit "*/"), char .any]), lit "*/"]]
  | file => seq gap (phrase [many (call importDecl), many (call classDecl), call endOfInput])
  | importDecl => phrase [lit "import", call qualifiedName, lit ";"]
  | qualifiedName => tight [call identRaw, star (tight [lit ".", call identRaw])]
  | classDecl =>
    phrase [lit "class", call identifier, lit "\x7b", many (call member), lit "\x7d"]
  | member => oneOf [call fieldDecl, call methodDecl]
  | fieldDecl => phrase [call modifiers, lit "field", call identifier, lit ";"]
  | methodDecl =>
    phrase [call modifiers, lit "method", call identifier, lit "(", call paramList, lit ")",
      oneOf [call block, lit ";"]]
  | modifiers => many (call modifier)
  | modifier => tight [oneOf [lit "public", lit "abstract"], not (call identChar)]
  | paramList => opt (commaSeparated identifier)
  | statement =>
    oneOf [call block, call ifStmt, call whileStmt, call returnStmt, call exprStmt]
  | block => phrase [lit "\x7b", many (call statement), lit "\x7d"]
  | ifStmt =>
    phrase [lit "if", lit "(", call expr, lit ")", call statement, opt (call elseClause)]
  | elseClause => phrase [lit "else", call statement]
  | whileStmt => phrase [lit "while", lit "(", call expr, lit ")", call statement]
  | returnStmt => phrase [lit "return", opt (call expr), lit ";"]
  | exprStmt => phrase [call expr, lit ";"]
  | expr => call assignment
  | assignment => phrase [call ternary, opt (phrase [call assignOp, call assignment])]
  | ternary =>
    phrase [call orExpr, opt (phrase [lit "?", call expr, lit ":", call ternary])]
  | orExpr => chain andExpr orOp
  | andExpr => chain eqExpr andOp
  | eqExpr => chain relExpr eqOp
  | relExpr => chain addExpr relOp
  | addExpr => chain unary addOp
  | unary => phrase [many (call notOp), call callChain]
  | callChain => phrase [call primary, many (call callArgs)]
  | callArgs => phrase [lit "(", opt (commaSeparated expr), lit ")"]
  | primary => oneOf [call number, call identifier, phrase [lit "(", call expr, lit ")"]]
  | assignOp => tight [lit "=", not (lit "=")]
  | orOp => lit "||"
  | andOp => lit "&&"
  | eqOp => oneOf [lit "==", lit "!="]
  | relOp => oneOf [lit "<=", lit ">=", lit "<", lit ">"]
  | addOp => oneOf [lit "+", lit "-"]
  | notOp => tight [lit "!", not (lit "=")]
  | number => tight [char .digit, star (char .digit)]
  | keyword => tight [oneOf (keywords.map lit), not (call identChar)]
  | identChar => oneOf [char .alphanumeric, lit "_"]
  -- Not atomic itself, but called by atomic rules only, and these skip nothing between the parts.
  | identRaw => tight [oneOf [char .letter, lit "_"], star (call identChar)]
  | identifier => tight [not (call keyword), call identRaw]

/-- Words and the operators that need a look ahead are atomic; rules that only name a choice or a
class of characters are silent. -/
def visibility : Rule → Visibility
  | whitespace | comment | member | statement | primary | identChar | identRaw => .silent
  | qualifiedName | modifier | assignOp | notOp | number | keyword | identifier => .atomic
  | _ => .normal

def grammar : Grammar Rule where
  production r := ⟨visibility r, pattern r⟩
  reach := 64

end TreeMetrics.Twig
