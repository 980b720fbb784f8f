import TreeMetrics.Text.Position

namespace TreeMetrics

/-- The rules that failed at the rightmost position reached so far. -/
structure Attempts (ρ : Type) where
  position : Position
  rules : List ρ
deriving Repr

namespace Attempts

variable {ρ : Type}

def none : Attempts ρ := ⟨Position.start, []⟩

def countAt (a : Attempts ρ) (p : Position) : Nat :=
  if a.position = p then a.rules.length else 0

/-- Records that `r`, tried at `p` when `before` failures were known there, has failed. A single
failure inside `r` stands for `r`; otherwise `r` stands for the failures inside it. -/
def record (a : Attempts ρ) (r : ρ) (p : Position) (before : Nat) : Attempts ρ :=
  if a.countAt p = before + 1 then a
  else if a.position = p then ⟨p, a.rules.take before ++ [r]⟩
  else if a.position.index < p.index then ⟨p, [r]⟩
  else a

end Attempts

end TreeMetrics
