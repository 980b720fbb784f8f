namespace TreeMetrics

/-- A set of flags, listed once each and in ascending order. -/
structure OptionSet where
  flags : List String
  sorted : flags.Pairwise (· < ·)
deriving DecidableEq

namespace OptionSet

/-- Puts a flag in its place among sorted flags. -/
def insertFlag (f : String) : List String → List String
  | [] => [f]
  | g :: gs =>
    if f < g then f :: g :: gs
    else if f = g then g :: gs
    else g :: insertFlag f gs

@[simp] theorem mem_insertFlag {f g : String} {gs : List String} :
    f ∈ insertFlag g gs ↔ f = g ∨ f ∈ gs := by
  induction gs with
  | nil => simp [insertFlag]
  | cons h gs ih =>
    unfold insertFlag
    split
    · simp
    · split
      · rename_i hgh
        subst hgh
        simp
      · simp only [List.mem_cons, ih]
        grind

theorem sorted_insertFlag (f : String) {gs : List String} (h : gs.Pairwise (· < ·)) :
    (insertFlag f gs).Pairwise (· < ·) := by
  induction gs with
  | nil => simp [insertFlag]
  | cons g gs ih =>
    rw [List.pairwise_cons] at h
    unfold insertFlag
    split
    · rename_i hfg
      refine List.pairwise_cons.2 ⟨fun x hx => ?_, List.pairwise_cons.2 h⟩
      rcases List.mem_cons.1 hx with rfl | hx
      · exact hfg
      · exact String.lt_trans hfg (h.1 x hx)
    · split
      · exact List.pairwise_cons.2 h
      · refine List.pairwise_cons.2 ⟨fun x hx => ?_, ih h.2⟩
        rcases mem_insertFlag.1 hx with rfl | hx
        · grind
        · exact h.1 x hx

theorem sorted_nil : ([] : List String).Pairwise (· < ·) := List.Pairwise.nil

def empty : OptionSet := ⟨[], sorted_nil⟩

def insert (o : OptionSet) (f : String) : OptionSet :=
  ⟨insertFlag f o.flags, sorted_insertFlag f o.sorted⟩

def ofList (fs : List String) : OptionSet := fs.foldl insert empty

def contains (o : OptionSet) (f : String) : Bool := o.flags.contains f

def size (o : OptionSet) : Nat := o.flags.length

def isEmpty (o : OptionSet) : Bool := o.flags.isEmpty

def display (o : OptionSet) : String := "\x7b" ++ ", ".intercalate o.flags ++ "\x7d"

end OptionSet

end TreeMetrics
