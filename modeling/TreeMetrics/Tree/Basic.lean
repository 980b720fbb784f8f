namespace TreeMetrics

/-- A node with its label and its children in order. -/
inductive Tree (α : Type) where
  | node (label : α) (children : List (Tree α))
deriving Repr

namespace Tree

variable {α : Type}

def leaf (label : α) : Tree α := node label []

def label : Tree α → α
  | node a _ => a

def children : Tree α → List (Tree α)
  | node _ ts => ts

mutual

def size : Tree α → Nat
  | node _ ts => sizeAll ts + 1

def sizeAll : List (Tree α) → Nat
  | [] => 0
  | t :: ts => size t + sizeAll ts

end

mutual

/-- The subtrees at all nodes in document order, the tree itself first. -/
def subtrees : Tree α → List (Tree α)
  | node a ts => node a ts :: subtreesAll ts

def subtreesAll : List (Tree α) → List (Tree α)
  | [] => []
  | t :: ts => subtrees t ++ subtreesAll ts

end

/-- The subtrees below the root in document order. -/
def descendants (t : Tree α) : List (Tree α) := subtreesAll t.children

theorem induction {P : Tree α → Prop} (h : ∀ a ts, (∀ t ∈ ts, P t) → P (node a ts)) (t : Tree α) :
    P t := by
  refine @Tree.rec α P (fun ts => ∀ t ∈ ts, P t) h ?_ ?_ t
  · exact fun t ht => absurd ht List.not_mem_nil
  · exact fun t ts ht hts => List.forall_mem_cons.2 ⟨ht, hts⟩

theorem subtreesAll_eq_flatMap (ts : List (Tree α)) : subtreesAll ts = ts.flatMap subtrees := by
  induction ts with
  | nil => simp [subtreesAll]
  | cons t ts ih => simp [subtreesAll, ih]

theorem subtreesAll_append (ts us : List (Tree α)) :
    subtreesAll (ts ++ us) = subtreesAll ts ++ subtreesAll us := by
  rw [subtreesAll_eq_flatMap, subtreesAll_eq_flatMap, subtreesAll_eq_flatMap, List.flatMap_append]

theorem length_subtreesAll {ts : List (Tree α)} (h : ∀ t ∈ ts, t.subtrees.length = t.size) :
    (subtreesAll ts).length = sizeAll ts := by
  induction ts with
  | nil => rfl
  | cons t ts ih =>
    obtain ⟨ht, hts⟩ := List.forall_mem_cons.1 h
    rw [subtreesAll, List.length_append, ht, ih hts, sizeAll]

theorem length_subtrees (t : Tree α) : t.subtrees.length = t.size := by
  induction t using Tree.induction with
  | h a ts ih => rw [subtrees, List.length_cons, length_subtreesAll ih, size]

theorem length_descendants (t : Tree α) : t.descendants.length + 1 = t.size := by
  rw [← length_subtrees]
  obtain ⟨a, ts⟩ := t
  rfl

end Tree

end TreeMetrics
