import TreeMetrics.Tree.Basic

namespace TreeMetrics.Tree

variable {α : Type}

/-- A label and the number of the row that it hangs from. -/
structure Row (α : Type) where
  label : α
  parent : Option Nat

/-- Assembles the rows from number `i` on into trees, each with the row that its root hangs from. -/
def graft (i : Nat) : List (Row α) → List (Option Nat × Tree α)
  | [] => []
  | row :: rows =>
    let later := graft (i + 1) rows
    let mine := later.filter fun t => t.1 == some i
    let others := later.filter fun t => t.1 != some i
    (row.parent, node row.label (mine.map Prod.snd)) :: others

def ofRows? (rows : List (Row α)) : Option (Tree α) := (graft 0 rows).head?.map Prod.snd

end TreeMetrics.Tree
