namespace TreeMetrics

/-- A place in a text, by the characters and bytes before it and by line and column from one. -/
structure Position where
  index : Nat
  offset : Nat
  line : Nat
  column : Nat
deriving DecidableEq, Repr

namespace Position

def start : Position := ⟨0, 0, 1, 1⟩

/-- Only a line feed starts a new line; a carriage return takes a column like other characters. -/
def advance (p : Position) (c : Char) : Position :=
  if c = '\n' then ⟨p.index + 1, p.offset + c.utf8Size, p.line + 1, 1⟩
  else ⟨p.index + 1, p.offset + c.utf8Size, p.line, p.column + 1⟩

/-- The position behind a text that begins at `p`. -/
def after (p : Position) (cs : List Char) : Position := cs.foldl advance p

@[simp] theorem after_nil (p : Position) : p.after [] = p := rfl

@[simp] theorem after_cons (p : Position) (c : Char) (cs : List Char) :
    p.after (c :: cs) = (p.advance c).after cs := rfl

theorem after_append (p : Position) (cs ds : List Char) :
    p.after (cs ++ ds) = (p.after cs).after ds :=
  List.foldl_append

@[simp] theorem advance_index (p : Position) (c : Char) : (p.advance c).index = p.index + 1 := by
  unfold advance
  split <;> rfl

theorem after_index (p : Position) (cs : List Char) :
    (p.after cs).index = p.index + cs.length := by
  induction cs generalizing p with
  | nil => rfl
  | cons c cs ih =>
    simp only [after_cons, ih, advance_index, List.length_cons]
    omega

end Position

end TreeMetrics
