import TreeMetrics.Tree.Basic

namespace TreeMetrics

variable {α : Type}

/-- The number of a node in document order; the root is node zero. -/
abbrev NodeId := Nat

/-- What a document holds of a node: its label, its parent, its place among the children of the
parent, and its children. -/
structure Entry (α : Type) where
  label : α
  parent : Option NodeId
  index : Nat
  children : List NodeId
deriving Repr

namespace Entry

def adopt (e : Entry α) (ids : List NodeId) : Entry α := { e with children := e.children ++ ids }

theorem adopt_nil (e : Entry α) : e.adopt [] = e := by
  rw [adopt, List.append_nil]

theorem adopt_adopt (e : Entry α) (ids ids' : List NodeId) :
    (e.adopt ids).adopt ids' = e.adopt (ids ++ ids') := by
  simp only [adopt, List.append_assoc]

end Entry

namespace Tree

/-- The numbers of sibling trees that are laid out from `id` on. -/
def siblingIds (id : NodeId) : List (Tree α) → List NodeId
  | [] => []
  | t :: ts => id :: siblingIds (id + t.size) ts

mutual

/-- The entries of a tree whose root is node `id`, in document order. -/
def layout (parent : Option NodeId) (index : Nat) (id : NodeId) : Tree α → List (Entry α)
  | node a ts =>
    ⟨a, parent, index, siblingIds (id + 1) ts⟩ :: layoutAll id 0 (id + 1) ts

/-- The entries of sibling trees, the first of which has the given place and number. -/
def layoutAll (parent : NodeId) (index : Nat) (id : NodeId) : List (Tree α) → List (Entry α)
  | [] => []
  | t :: ts =>
    layout (some parent) index id t ++ layoutAll parent (index + 1) (id + t.size) ts

end

def childCount (entries : Array (Entry α)) (p : NodeId) : Nat :=
  (entries[p]?.map fun e => e.children.length).getD 0

/-- Makes the entry of the next node, and makes the node a child of its parent. -/
def enter (entries : Array (Entry α)) (t : Tree α) : Option NodeId → Array (Entry α)
  | none => entries.push ⟨t.label, none, 0, []⟩
  | some p =>
    (entries.modify p (·.adopt [entries.size])).push ⟨t.label, some p, childCount entries p, []⟩

/-- Makes entries for no more than `steps` nodes of the trees ahead, each of which comes with the
parent of its root. -/
def arrangeWithin :
    Nat → Array (Entry α) → List (Tree α × Option NodeId) → Array (Entry α)
  | steps + 1, entries, (t, parent) :: ahead =>
    arrangeWithin steps (enter entries t parent)
      (t.children.map (·, some entries.size) ++ ahead)
  | _, entries, _ => entries

def arrange (t : Tree α) : Array (Entry α) := arrangeWithin t.size #[] [(t, none)]

theorem length_layoutAll {ts : List (Tree α)}
    (h : ∀ t ∈ ts, ∀ parent index id, (t.layout parent index id).length = t.size)
    (parent : NodeId) (index : Nat) (id : NodeId) :
    (layoutAll parent index id ts).length = sizeAll ts := by
  induction ts generalizing index id with
  | nil => rfl
  | cons t ts ih =>
    obtain ⟨ht, hts⟩ := List.forall_mem_cons.1 h
    rw [layoutAll, List.length_append, ht, ih hts, sizeAll]

theorem length_layout (t : Tree α) (parent : Option NodeId) (index : Nat) (id : NodeId) :
    (t.layout parent index id).length = t.size := by
  induction t using Tree.induction generalizing parent index id with
  | h a ts ih => rw [layout, List.length_cons, length_layoutAll ih, size]

section Arrange

variable {entries later : Array (Entry α)} {p : NodeId} {ids : List NodeId}

theorem modify_adopt_nil : entries.modify p (·.adopt []) = entries := by
  apply Array.ext_getElem?
  intro i
  simp only [Array.getElem?_modify, Entry.adopt_nil, Option.map_id', ite_self]

theorem adopt_push (e : Entry α) :
    (entries.push e).modify entries.size (·.adopt ids) = entries.push (e.adopt ids) := by
  apply Array.ext_getElem?
  intro i
  rw [Array.getElem?_modify, Array.getElem?_push, Array.getElem?_push]
  by_cases hi : i = entries.size
  · rw [if_pos hi.symm, if_pos hi, if_pos hi, Option.map_some]
  · rw [if_neg (Ne.symm hi), if_neg hi, if_neg hi]

theorem adopt_append (hp : p < entries.size) (ids' : List NodeId) :
    (entries.modify p (·.adopt ids) ++ later).modify p (·.adopt ids') =
      entries.modify p (·.adopt (ids ++ ids')) ++ later := by
  apply Array.ext_getElem?
  intro i
  rw [Array.getElem?_modify, Array.getElem?_append, Array.getElem?_append, Array.size_modify,
    Array.size_modify, Array.getElem?_modify, Array.getElem?_modify]
  by_cases hi : p = i
  · subst hi
    simp only [if_pos, hp, Option.map_map, Function.comp_def, Entry.adopt_adopt]
  · simp only [if_neg hi]

theorem append_toArray_append (entries : Array (Entry α)) (es es' : List (Entry α)) :
    entries ++ es.toArray ++ es'.toArray = entries ++ (es ++ es').toArray := by
  rw [Array.append_assoc, List.append_toArray es es']

theorem childCount_adopt (hp : p < entries.size) :
    childCount (entries.modify p (·.adopt ids) ++ later) p = childCount entries p + ids.length := by
  have hs : p < (entries.modify p (·.adopt ids)).size := by rwa [Array.size_modify]
  rw [childCount, childCount, Array.getElem?_append_left hs, Array.getElem?_modify, if_pos rfl,
    Array.getElem?_eq_getElem hp]
  simp only [Option.map_some, Option.getD_some, Entry.adopt, List.length_append]

theorem childCount_push_size (e : Entry α) :
    childCount (entries.push e) entries.size = e.children.length := by
  rw [childCount, Array.getElem?_push_size, Option.map_some, Option.getD_some]

end Arrange

/-- Going through the tree makes the entries of its layout and leaves the trees behind it as they
are. The place of the root is the number of children that its parent has so far. -/
def Arranged (t : Tree α) : Prop :=
  ∀ (entries : Array (Entry α)) (p : NodeId) (steps : Nat) (ahead : List (Tree α × Option NodeId)),
    arrangeWithin (t.size + steps) entries ((t, some p) :: ahead) =
      arrangeWithin steps
        (entries.modify p (·.adopt [entries.size]) ++
          (t.layout (some p) (childCount entries p) entries.size).toArray)
        ahead

theorem arrangeWithin_forest {ts : List (Tree α)} (h : ∀ t ∈ ts, t.Arranged)
    {entries : Array (Entry α)} {p : NodeId} (hp : p < entries.size) (steps : Nat)
    (ahead : List (Tree α × Option NodeId)) :
    arrangeWithin (sizeAll ts + steps) entries (ts.map (·, some p) ++ ahead) =
      arrangeWithin steps
        (entries.modify p (·.adopt (siblingIds entries.size ts)) ++
          (layoutAll p (childCount entries p) entries.size ts).toArray)
        ahead := by
  induction ts generalizing entries with
  | nil =>
    rw [sizeAll, Nat.zero_add, siblingIds, modify_adopt_nil, layoutAll]
    rw [List.map_nil, List.nil_append, Array.append_empty]
  | cons t ts ih =>
    obtain ⟨ht, hts⟩ := List.forall_mem_cons.1 h
    have hs : (entries.modify p (·.adopt [entries.size]) ++
        (t.layout (some p) (childCount entries p) entries.size).toArray).size =
          entries.size + t.size := by
      rw [Array.size_append, Array.size_modify]
      exact congrArg (entries.size + ·) (length_layout t ..)
    rw [sizeAll, Nat.add_assoc, List.map_cons, List.cons_append, ht,
      ih hts (by rw [hs]; exact Nat.lt_add_right _ hp), hs, adopt_append hp, childCount_adopt hp,
      append_toArray_append]
    rfl

/-- The children of a node that was entered last. -/
theorem arrangeWithin_push {ts : List (Tree α)} (h : ∀ t ∈ ts, t.Arranged)
    (entries : Array (Entry α)) (e : Entry α) (he : e.children = []) (steps : Nat)
    (ahead : List (Tree α × Option NodeId)) :
    arrangeWithin (sizeAll ts + steps) (entries.push e) (ts.map (·, some entries.size) ++ ahead) =
      arrangeWithin steps
        (entries ++ ({ e with children := siblingIds (entries.size + 1) ts } ::
          layoutAll entries.size 0 (entries.size + 1) ts).toArray)
        ahead := by
  have hp : entries.size < (entries.push e).size := by
    rw [Array.size_push]
    exact Nat.lt_succ_self _
  have hf := arrangeWithin_forest h hp steps ahead
  rw [childCount_push_size, he, List.length_nil, Array.size_push, adopt_push, Entry.adopt, he,
    List.nil_append] at hf
  rw [hf, Array.push_eq_append, append_toArray_append entries [_]]
  rfl

theorem arranged (t : Tree α) : t.Arranged := by
  induction t using Tree.induction with
  | h a ts ih =>
    intro entries p steps ahead
    have hs := arrangeWithin_push ih (entries.modify p (·.adopt [entries.size]))
      ⟨a, some p, childCount entries p, []⟩ rfl steps ahead
    rw [Array.size_modify] at hs
    rw [size, Nat.add_right_comm, arrangeWithin]
    exact hs

/-- Going through a tree makes the entries of its layout. -/
theorem arrange_eq (t : Tree α) : t.arrange = (t.layout none 0 0).toArray := by
  cases t with
  | node a ts =>
    have ht : ∀ t ∈ ts, t.Arranged := fun t _ => t.arranged
    have hs := arrangeWithin_push ht #[] ⟨a, none, 0, []⟩ rfl 0 []
    rw [Array.empty_append, Nat.add_zero] at hs
    rw [arrange, size, arrangeWithin]
    exact hs

end Tree

end TreeMetrics
