namespace TreeMetrics

/-- A class of characters, over ASCII apart from `any`. -/
inductive CharClass where
  | digit
  | letter
  | alphanumeric
  | any
deriving DecidableEq, Repr

def CharClass.holds : CharClass → Char → Bool
  | digit, c => c.isDigit
  | letter, c => c.isAlpha
  | alphanumeric, c => c.isAlphanum
  | any, _ => true

/-- A parsing expression whose productions are named by `ρ`. -/
inductive Expr (ρ : Type) where
  | empty
  | lit (text : String)
  | char (cls : CharClass)
  | atEnd
  | call (rule : ρ)
  | seq (first second : Expr ρ)
  | alt (first second : Expr ρ)
  | star (body : Expr ρ)
  | not (body : Expr ρ)
deriving DecidableEq, Repr

namespace Expr

variable {ρ : Type}

/-- Matches the expression or, failing that, nothing. -/
def opt (e : Expr ρ) : Expr ρ := alt e empty

/-- Tries the alternatives from the left; without alternatives it never matches. -/
def oneOf : List (Expr ρ) → Expr ρ
  | [] => not empty
  | [e] => e
  | e :: es => alt e (oneOf es)

/-- One match after the other, nothing in between. -/
def tight : List (Expr ρ) → Expr ρ
  | [] => empty
  | [e] => e
  | e :: es => seq e (tight es)

/-- One match after the other, with a match of `gap` between neighbours. -/
def spaced (gap : Expr ρ) : List (Expr ρ) → Expr ρ
  | [] => empty
  | [e] => e
  | e :: es => seq e (seq gap (spaced gap es))

/-- Any number of matches with a match of `gap` between neighbours and none behind the last. -/
def spacedMany (gap e : Expr ρ) : Expr ρ := opt (seq e (star (seq gap e)))

end Expr

/-- How a production shows in the parse tree: with a node and the nodes of its parts, only through
its parts, or with a node that has no parts. -/
inductive Visibility where
  | normal
  | silent
  | atomic
deriving DecidableEq, Repr

structure Production (ρ : Type) where
  visibility : Visibility
  body : Expr ρ

/-- A grammar gives each rule name a production. Between two characters consumed by a parse no more
than `reach` expressions are entered inside each other. -/
structure Grammar (ρ : Type) where
  production : ρ → Production ρ
  reach : Nat

end TreeMetrics
