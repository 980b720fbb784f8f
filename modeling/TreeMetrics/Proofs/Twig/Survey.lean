import TreeMetrics.Proofs.Grammar.Termination
import TreeMetrics.Twig.Grammar

namespace TreeMetrics.Twig

/-- The rules that may match the empty text are those that list, and the end of the input. -/
def survey : Survey Rule where
  nullable
    | .endOfInput | .file | .modifiers | .paramList => true
    | _ => false
  rank
    | .endOfInput | .orOp | .andOp => 1
    | .importDecl | .classDecl | .block | .ifStmt | .elseClause | .whileStmt | .returnStmt
    | .callArgs | .assignOp | .eqOp | .addOp | .notOp | .number | .identChar => 2
    | .comment | .modifier | .identRaw => 3
    | .relOp => 4
    | .whitespace | .qualifiedName => 5
    | .modifiers => 6
    | .fieldDecl | .methodDecl => 10
    | .keyword => 11
    | .member => 12
    | .file => 13
    | .identifier => 14
    | .paramList | .primary => 17
    | .callChain => 19
    | .unary => 22
    | .addExpr => 24
    | .relExpr => 26
    | .eqExpr => 28
    | .andExpr => 30
    | .orExpr => 32
    | .ternary => 34
    | .assignment => 36
    | .expr => 37
    | .exprStmt => 39
    | .statement => 44

theorem survey_holds (r : Rule) : survey.Holds grammar r := by
  cases r <;> decide

theorem survey_guards (r : Rule) : survey.guards grammar.reach (.call r) = true := by
  cases r <;> decide

/-- Parsing gives what the rules of the grammar say. -/
theorem parse_eq_ok_iff {r : Rule} {source : List Char} {ts : List (ParseTree Rule)} {d : Cursor} :
    grammar.parse r source = .ok (ts, d) ↔
      Derives grammar false (.call r) (.ofText source) (some (ts, d)) :=
  Grammar.parse_eq_ok_iff survey_holds (survey_guards r)

end TreeMetrics.Twig
