namespace TreeMetrics.Number

/-- The value of a metric that cannot be computed. -/
def undefined : Float := 0.0 / 0.0

def infinity : Float := 1.0 / 0.0

/-- The value of a count, rounded if it exceeds 53 bits. -/
def ofCount (n : Nat) : Float := n.toUInt64.toFloat

/-- The greatest number up to which all integers have a value of their own. -/
def exactLimit : Nat := 1 <<< 53

def hexWord (w : UInt64) : String :=
  let digits := Nat.toDigits 16 w.toNat
  String.ofList (List.replicate (16 - digits.length) '0' ++ digits)

/-- The integer that a value is, if it is one that the format tells apart from its neighbours. -/
def toInt? (x : Float) : Option Int :=
  if x.abs ≤ ofCount exactLimit then
    let n := x.toInt64
    if n.toFloat == x then some n.toInt else none
  else none

/-- Integers are written in decimal, values that are no integers by their bits. -/
def text (x : Float) : String :=
  if x.isNaN then "NaN"
  else if x == infinity then "inf"
  else if x == -infinity then "-inf"
  else
    match toInt? x with
    | some 0 => if x.toBits == 0 then "0" else "-0"
    | some n => toString n
    | none => "0x" ++ hexWord x.toBits

def hexDigit? (c : Char) : Option Nat :=
  if c.isDigit then some (c.toNat - '0'.toNat)
  else if 'a' ≤ c ∧ c ≤ 'f' then some (c.toNat - 'a'.toNat + 10)
  else none

def readHex? (cs : List Char) : Option Nat :=
  cs.foldlM (fun n c => (hexDigit? c).map (n * 16 + ·)) 0

def ofText? (s : String) : Option Float :=
  match s with
  | "NaN" => some undefined
  | "inf" => some infinity
  | "-inf" => some (-infinity)
  | "-0" => some (-0.0)
  | s =>
    match s.toList with
    | '0' :: 'x' :: digits => (readHex? digits).map fun n => Float.ofBits n.toUInt64
    | _ => s.toInt?.map Float.ofInt

end TreeMetrics.Number
