import TreeMetrics.Text.Position

namespace TreeMetrics

/-- A match of a rule, from `start` to `stop`, with the matches of the rules inside it. -/
inductive ParseTree (ρ : Type) where
  | node (rule : ρ) (start stop : Position) (text : String) (children : List (ParseTree ρ))
deriving Repr

namespace ParseTree

variable {ρ : Type}

def rule : ParseTree ρ → ρ
  | node r _ _ _ _ => r

def start : ParseTree ρ → Position
  | node _ p _ _ _ => p

def stop : ParseTree ρ → Position
  | node _ _ p _ _ => p

def text : ParseTree ρ → String
  | node _ _ _ s _ => s

def children : ParseTree ρ → List (ParseTree ρ)
  | node _ _ _ _ ts => ts

theorem induction {P : ParseTree ρ → Prop}
    (h : ∀ r p q s ts, (∀ t ∈ ts, P t) → P (.node r p q s ts)) (t : ParseTree ρ) : P t := by
  refine @ParseTree.rec ρ P (fun ts => ∀ t ∈ ts, P t) h ?_ ?_ t
  · exact fun t ht => absurd ht List.not_mem_nil
  · exact fun t ts ht hts => List.forall_mem_cons.2 ⟨ht, hts⟩

mutual

def subtrees : ParseTree ρ → List (ParseTree ρ)
  | node r p q s ts => node r p q s ts :: subtreesAll ts

def subtreesAll : List (ParseTree ρ) → List (ParseTree ρ)
  | [] => []
  | t :: ts => subtrees t ++ subtreesAll ts

end

theorem subtreesAll_cons (r : ρ) (p q : Position) (s : String) (ts us : List (ParseTree ρ)) :
    subtreesAll (node r p q s ts :: us) =
      node r p q s ts :: (subtreesAll ts ++ subtreesAll us) := by
  rw [subtreesAll, subtrees, List.cons_append]

theorem subtreesAll_append (ts us : List (ParseTree ρ)) :
    subtreesAll (ts ++ us) = subtreesAll ts ++ subtreesAll us := by
  induction ts with
  | nil => rfl
  | cons t ts ih => rw [List.cons_append, subtreesAll, subtreesAll, ih, List.append_assoc]

theorem subtreesAll_singleton (t : ParseTree ρ) : subtreesAll [t] = t.subtrees := by
  rw [subtreesAll, subtreesAll, List.append_nil]

/-- A line of an indented listing of parse trees. -/
structure Row (ρ : Type) where
  depth : Nat
  rule : ρ
  start : Position
  stop : Position

mutual

def rows (depth : Nat) : ParseTree ρ → List (Row ρ)
  | node r p q _ ts => ⟨depth, r, p, q⟩ :: rowsAll (depth + 1) ts

def rowsAll (depth : Nat) : List (ParseTree ρ) → List (Row ρ)
  | [] => []
  | t :: ts => rows depth t ++ rowsAll depth ts

end

end ParseTree

end TreeMetrics
