import TreeMetrics.Grammar.Run
import TreeMetrics.Twig.Build
import TreeMetrics.Twig.Grammar

namespace TreeMetrics.Twig

/-- Names in a list: `a`, `a or b`, `a, b, or c`. -/
def enumerate : List String → String
  | [] => ""
  | [a] => a
  | [a, b] => a ++ " or " ++ b
  | names => ", ".intercalate names.dropLast ++ ", or " ++ names.getLastD ""

inductive ParseError where
  | unmatched (position : Position) (expected : List Rule)
  | malformed (cause : Malformed)
deriving DecidableEq, Repr

namespace ParseError

/-- The failed rules of an attempt, each once and in the order of the grammar. -/
def ofAttempts (a : Attempts Rule) : ParseError :=
  unmatched a.position (Rule.all.filter (a.rules.contains ·))

def expectation : List Rule → String
  | [] => "unknown parsing error"
  | rules => "expected " ++ enumerate (rules.map Rule.name)

def message : ParseError → String
  | unmatched p expected =>
    "syntax error at " ++ toString p.line ++ ":" ++ toString p.column ++ ": " ++
      expectation expected
  | malformed m => m.message

end ParseError

def parseRule (r : Rule) (source : String) : Except ParseError (List (ParseTree Rule)) :=
  match grammar.parse r source.toList with
  | .ok (ts, _) => .ok ts
  | .error a => .error (.ofAttempts a)

def parse (source : String) : Except ParseError (Tree Node) :=
  match parseRule .file source with
  | .ok (t :: _) => (Build.file t).mapError .malformed
  | .ok [] => .error (.malformed .noFile)
  | .error e => .error e

end TreeMetrics.Twig
