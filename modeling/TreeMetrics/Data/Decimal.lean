namespace TreeMetrics.Decimal

/-- The number `mantissa * 2 ^ exponent`. -/
structure Binary where
  mantissa : Nat
  exponent : Int

def twoTo (n : Nat) : Nat := Nat.pow 2 n

def tenTo (n : Nat) : Nat := Nat.pow 10 n

def Binary.ofFloat (x : Float) : Binary :=
  let bits := x.toBits.toNat
  let e : Nat := bits / twoTo 52 % twoTo 11
  let f : Nat := bits % twoTo 52
  if e = 0 then ⟨f, -1074⟩ else ⟨f + twoTo 52, (e : Int) - 1075⟩

def compareTo (c : Nat) (p : Int) (b : Binary) : Ordering :=
  compare (c * tenTo p.toNat * twoTo (-b.exponent).toNat)
    (b.mantissa * twoTo b.exponent.toNat * tenTo (-p).toNat)

/-- Decides whether `c * 10 ^ p` reads back as `b`: it lies between the midpoints to the neighbours,
of which the lower one is nearer at a power of two; a midpoint itself reads back as the even one. -/
def readsBack (b : Binary) (c : Nat) (p : Int) : Bool :=
  let below := if b.mantissa = twoTo 52 ∧ -1074 < b.exponent then 1 else 2
  let low : Binary := ⟨4 * b.mantissa - below, b.exponent - 2⟩
  let high : Binary := ⟨4 * b.mantissa + 2, b.exponent - 2⟩
  let even := b.mantissa % 2 == 0
  let aboveLow := match compareTo c p low with
    | .lt => false
    | .eq => even
    | .gt => true
  let belowHigh := match compareTo c p high with
    | .lt => true
    | .eq => even
    | .gt => false
  aboveLow && belowHigh

/-- The least power of ten above a number. -/
def magnitude (b : Binary) : Int :=
  let offsets := List.range 640
  let above (i : Nat) : Bool := compareTo 1 ((i : Int) - 324) b == .gt
  ((offsets.find? above).getD 0 : Nat) - 324

def quotient (b : Binary) (p : Int) : Nat :=
  b.mantissa * twoTo b.exponent.toNat * tenTo (-p).toNat /
    (twoTo (-b.exponent).toNat * tenTo p.toNat)

/-- The nearer of the two neighbours on the grid of multiples of `10 ^ p`, among those that read
back. -/
def pick? (b : Binary) (p : Int) : Option Nat :=
  let c := quotient b p
  match readsBack b c p, readsBack b (c + 1) p with
  | false, false => none
  | true, false => some c
  | false, true => some (c + 1)
  | true, true =>
    match compareTo (2 * c + 1) p { b with mantissa := 2 * b.mantissa } with
    | .lt => some (c + 1)
    | .gt => some c
    | .eq => some (c + c % 2)

/-- The fewest digits that read back, as `c * 10 ^ p`. A `c` that reaches the next power of ten is
that power. -/
def shortest (b : Binary) : Nat × Int :=
  let e := magnitude b
  let attempt (i : Nat) : Option (Nat × Int) :=
    let p := e - (i : Int) - 1
    (pick? b p).map fun c => if c = tenTo (i + 1) then (1, e) else (c, p)
  ((List.range 17).findSome? attempt).getD (0, 0)

/-- Digits of `c * 10 ^ p` around a decimal point, with at least one digit on each side. -/
def positional (c : Nat) (p : Int) : String :=
  let digits := Nat.toDigits 10 c
  let zeros (n : Nat) := List.replicate n '0'
  String.ofList <|
    if 0 ≤ p then digits ++ zeros p.toNat ++ ['.', '0']
    else
      let places := (-p).toNat
      let padded := zeros (places + 1 - digits.length) ++ digits
      padded.take (padded.length - places) ++ ['.'] ++ padded.drop (padded.length - places)

/-- Digits with the point behind the first of them, and the exponent with its sign. A single digit
has no point. -/
def scientific (c : Nat) (e : Int) : String :=
  let digits := Nat.toDigits 10 c
  let point := if digits.length ≤ 1 then [] else ['.']
  let sign := if e < 0 then '-' else '+'
  String.ofList (digits.take 1 ++ point ++ digits.drop 1 ++ 'e' :: sign :: Nat.toDigits 10 e.natAbs)

/-- Numbers from `10 ^ (-5)` up to but not including `10 ^ 16` are written without an exponent. -/
def layout (c : Nat) (p : Int) : String :=
  let e := (Nat.toDigits 10 c).length + p - 1
  if -5 ≤ e ∧ e < 16 then positional c p else scientific c e

def text (x : Float) : String :=
  let sign := if x.toBits.toNat < UInt64.size / 2 then "" else "-"
  let b := Binary.ofFloat x
  if b.mantissa = 0 then sign ++ "0.0"
  else
    let (c, p) := shortest b
    sign ++ layout c p

end TreeMetrics.Decimal
