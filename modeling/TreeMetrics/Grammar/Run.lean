import TreeMetrics.Grammar.Basic
import TreeMetrics.Grammar.ParseTree
import TreeMetrics.Grammar.Attempts

namespace TreeMetrics

/-- The text still to be parsed and the position at which it begins. -/
structure Cursor where
  position : Position
  rest : List Char
deriving DecidableEq, Repr

namespace Cursor

def ofText (source : List Char) : Cursor := ⟨Position.start, source⟩

def char? (c : Cursor) (cls : CharClass) : Option Cursor :=
  match c.rest with
  | [] => none
  | x :: rest => if cls.holds x then some ⟨c.position.advance x, rest⟩ else none

def text? (c : Cursor) : List Char → Option Cursor
  | [] => some c
  | x :: xs =>
    match c.rest with
    | [] => none
    | y :: rest => if y = x then text? ⟨c.position.advance y, rest⟩ xs else none

/-- The text between a cursor and a later one. -/
def upTo (c d : Cursor) : String :=
  String.ofList (c.rest.take (d.position.index - c.position.index))

end Cursor

/-- The result of a run: a match that leaves the parse at `next`, no match, or no answer because
expressions were entered too deeply. -/
inductive Result (ρ : Type) where
  | ok (trees : List (ParseTree ρ)) (next : Cursor) (attempts : Attempts ρ)
  | fail (attempts : Attempts ρ)
  | tooDeep

namespace Result

variable {ρ : Type}

def ofCursor (a : Attempts ρ) : Option Cursor → Result ρ
  | some c => ok [] c a
  | none => fail a

def prepend (trees : List (ParseTree ρ)) : Result ρ → Result ρ
  | ok ts c a => ok (trees ++ ts) c a
  | fail a => fail a
  | tooDeep => tooDeep

/-- Goes on behind a match. -/
def andThen (r : Result ρ) (next : Cursor → Attempts ρ → Result ρ) : Result ρ :=
  match r with
  | ok ts c a => (next c a).prepend ts
  | fail a => fail a
  | tooDeep => tooDeep

def orElse (r : Result ρ) (other : Attempts ρ → Result ρ) : Result ρ :=
  match r with
  | ok ts c a => ok ts c a
  | fail a => other a
  | tooDeep => tooDeep

/-- Stays at `c` if there is no match. -/
def negate (c : Cursor) : Result ρ → Result ρ
  | ok _ _ a => fail a
  | fail a => ok [] c a
  | tooDeep => tooDeep

/-- Makes the match of a rule that was tried at `c` a parse tree, and records its failure. -/
def close (rule : ρ) (c : Cursor) (before : Nat) : Result ρ → Result ρ
  | ok ts d a => ok [.node rule c.position d.position (c.upTo d) ts] d a
  | fail a => fail (a.record rule c.position before)
  | tooDeep => tooDeep

end Result

namespace Grammar

variable {ρ : Type}

/-- Runs an expression with at most `depth` expressions entered inside each other. Inside an atomic
rule or a lookahead the run is `quiet`: it makes no trees and records no failures. -/
def run (g : Grammar ρ) (depth : Nat) (quiet : Bool) (e : Expr ρ) (c : Cursor) (a : Attempts ρ) :
    Result ρ :=
  match depth with
  | 0 => .tooDeep
  | depth + 1 =>
    match e with
    | .empty => .ok [] c a
    | .lit s => .ofCursor a (c.text? s.toList)
    | .char cls => .ofCursor a (c.char? cls)
    | .atEnd => if c.rest.isEmpty then .ok [] c a else .fail a
    | .seq x y => (run g depth quiet x c a).andThen fun d b => run g depth quiet y d b
    | .alt x y => (run g depth quiet x c a).orElse fun b => run g depth quiet y c b
    | .star x =>
      ((run g depth quiet x c a).andThen fun d b => run g depth quiet (.star x) d b).orElse
        fun b => .ok [] c b
    | .not x => (run g depth true x c a).negate c
    | .call r =>
      let p := g.production r
      if quiet then run g depth true p.body c a
      else if p.visibility = .silent then run g depth false p.body c a
      else
        (run g depth (p.visibility = .atomic) p.body c a).close r c (a.countAt c.position)

/-- A depth of nesting for texts of `n` characters. -/
def depth (g : Grammar ρ) (n : Nat) : Nat := g.reach * (n + 1)

/-- Parses a beginning of the text as `r`; without a match, says which rules failed furthest to
the right. -/
def parse (g : Grammar ρ) (r : ρ) (source : List Char) :
    Except (Attempts ρ) (List (ParseTree ρ) × Cursor) :=
  match g.run (g.depth source.length) false (.call r) (Cursor.ofText source) .none with
  | .ok ts c _ => .ok (ts, c)
  | .fail a => .error a
  | .tooDeep => .error .none

end Grammar

end TreeMetrics
