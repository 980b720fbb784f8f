import TreeMetrics.Data.Value

namespace TreeMetrics

/-- A numeral: its sign, the digits before the point, those behind it, and the power of ten. -/
structure Numeral where
  isNegative : Bool
  whole : List Nat
  places : Option (List Nat)
  exponent : Option Int
deriving DecidableEq, Repr

namespace Numeral

/-- Splits off leading digits, of which there is at least one. -/
def digits? (cs : List Char) : Option (List Nat × List Char) :=
  match cs.takeWhile Char.isDigit with
  | [] => none
  | ds => some (ds.map fun c => c.toNat - '0'.toNat, cs.dropWhile Char.isDigit)

def places? : List Char → Option (Option (List Nat) × List Char)
  | '.' :: cs => (digits? cs).map fun (ds, cs) => (some ds, cs)
  | cs => some (none, cs)

def exponent? : List Char → Option (Option Int × List Char)
  | [] => some (none, [])
  | c :: cs =>
    if c = 'e' ∨ c = 'E' then
      let (isNegative, cs) := match cs with
        | '-' :: cs => (true, cs)
        | '+' :: cs => (false, cs)
        | cs => (false, cs)
      (digits? cs).map fun (ds, cs) =>
        let k : Nat := ds.foldl (fun k d => k * 10 + d) 0
        (some (if isNegative then -(k : Int) else k), cs)
    else some (none, c :: cs)

/-- Reads a numeral. A zero at its start is the only digit before the point. -/
def ofText? (s : String) : Option Numeral := do
  let (isNegative, cs) := match s.toList with
    | '-' :: cs => (true, cs)
    | cs => (false, cs)
  let (whole, cs) ← digits? cs
  let (places, cs) ← places? cs
  let (exponent, cs) ← exponent? cs
  guard (cs.isEmpty ∧ (whole.head? = some 0 → whole = [0]))
  some ⟨isNegative, whole, places, exponent⟩

/-- The value of leading digits, as long as it stays below `2 ^ 64`, put behind a number, and the
digits that are left over. -/
def leading (n : Nat) : List Nat → Nat × List Nat
  | [] => (n, [])
  | d :: ds => if n * 10 + d < UInt64.size then leading (n * 10 + d) ds else (n, d :: ds)

/-- Digits before the point that are left over count as zeros, those behind it do not count: the
numeral is close to the first number times ten to the second. -/
def parts (n : Numeral) : Nat × Int :=
  let (c, left) := leading 0 n.whole
  let places := n.places.getD []
  let (c, unused) := leading c places
  (c, n.exponent.getD 0 + left.length - (places.length - unused.length : Nat))

def power (k : Nat) : Float := Float.ofScientific 1 false k

/-- Divides by a power of ten, in steps of the largest one that binary64 can hold. -/
def divide (x : Float) (k : Nat) : Float :=
  if k ≤ 308 then x / power k
  else if x == 0 then x
  else divide (x / power 308) (k - 308)
termination_by k

def scale? (x : Float) (e : Int) : Option Float :=
  if e < 0 then some (divide x e.natAbs)
  else if x == 0 then some x
  else if e ≤ 308 then
    let y := x * power e.natAbs
    if y.isInf then none else some y
  else none

/-- The integer that a numeral with neither a point nor an exponent stands for. The negative zero is
not an integer. -/
def integer? (n : Numeral) : Option Int :=
  match n.places, n.exponent, leading 0 n.whole with
  | none, none, (c, []) =>
    if n.isNegative then if 0 < c ∧ c ≤ UInt64.size / 2 then some (-(c : Int)) else none
    else some (c : Int)
  | _, _, _ => none

def value? (n : Numeral) : Option Value :=
  match n.integer? with
  | some i => some (.integer i)
  | none =>
    let (c, e) := n.parts
    (scale? (UInt64.ofNat c).toFloat e).map fun x => .fraction (if n.isNegative then -x else x)

end Numeral

def Value.ofNumeral? (s : String) : Option Value := Numeral.ofText? s >>= Numeral.value?

end TreeMetrics
