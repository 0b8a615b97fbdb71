import MetricRelay.Number.Digits
/-!
The shortest decimal of a binary number. A positive double `m · 2^q` owns the interval of reals
that round to it, ends included when `m` is even. Over coarser to finer decimal grids, the first
grid with a neighbour of the value inside the interval gives the digits; of two such neighbours
the nearer one. A tie goes as the writer of the number wants it.
-/
namespace MetricRelay.Number

/-- A positive finite double: the value is `mantissa · 2^exponent`. -/
structure Binary where
  mantissa : Nat
  exponent : Int
  /-- The gap below is half the gap above. -/
  narrowBelow : Bool
  deriving Repr

/-- The magnitude of a finite double, read off its bits; zero has mantissa zero. -/
def Binary.ofBits (bits : UInt64) : Binary :=
  let fraction := (bits &&& 0xFFFFFFFFFFFFF).toNat
  let biased := ((bits >>> 52) &&& 0x7FF).toNat
  if biased = 0 then ⟨fraction, -1074, false⟩
  else ⟨fraction + Nat.pow 2 52, (biased : Int) - 1075, fraction = 0⟩

/-- Which of two neighbours stands for a value in the middle between them. -/
inductive TieRule where
  | up
  /-- The one with the even last digit. -/
  | even
  deriving DecidableEq, Repr

/-- A decimal number: the value is `digits · 10^exponent`. -/
structure Decimal where
  digits : Nat
  exponent : Int
  deriving Repr, DecidableEq

namespace Binary

/-- The ends and the value of the interval, in quarters of the last place. -/
def low (b : Binary) : Nat := 4 * b.mantissa - (if b.narrowBelow then 1 else 2)
def mid (b : Binary) : Nat := 4 * b.mantissa
def high (b : Binary) : Nat := 4 * b.mantissa + 2

/-- `n` quarters of the last place and `c · 10^g`, both scaled to whole numbers. -/
def onQuarters (b : Binary) (g : Int) (n : Nat) : Nat :=
  n * Nat.pow 2 (b.exponent - 2).toNat * Nat.pow 10 (-g).toNat

def onGrid (b : Binary) (g : Int) (c : Nat) : Nat :=
  c * Nat.pow 10 g.toNat * Nat.pow 2 (2 - b.exponent).toNat

/-- The point `c · 10^g` rounds to `b`. -/
def owns (b : Binary) (g : Int) (c : Nat) : Bool :=
  let x := b.onGrid g c
  let l := b.onQuarters g b.low
  let h := b.onQuarters g b.high
  if b.mantissa % 2 = 0 then l ≤ x && x ≤ h else l < x && x < h

/-- The greatest point of the grid `10^g` that is not above `b`. -/
def below (b : Binary) (g : Int) : Nat := b.onQuarters g b.mid / b.onGrid g 1

/-- The neighbour on the grid `10^g` that stands for `b`, if one rounds to it. -/
def pick? (tie : TieRule) (b : Binary) (g : Int) : Option Nat :=
  let c := b.below g
  match b.owns g c, b.owns g (c + 1) with
  | false, false => none
  | true, false => some c
  | false, true => some (c + 1)
  | true, true =>
    let v := b.onQuarters g b.mid
    let down := v - b.onGrid g c
    let up := b.onGrid g (c + 1) - v
    if up < down ∨ (up = down ∧ (tie = .up ∨ c % 2 = 1)) then some (c + 1) else some c

/-- Try the grids `10^g`, `10^(g-1)`, … until one has a point for `b`. -/
def search (tie : TieRule) (b : Binary) : Nat → Int → Decimal
  | 0, g => ⟨b.below g, g⟩
  | fuel + 1, g =>
    match b.pick? tie g with
    | some c => ⟨c, g⟩
    | none => b.search tie fuel (g - 1)

/-- A power of ten above the value: no coarser grid has a point for it. -/
def startGrid (b : Binary) : Int :=
  ((b.mantissa.log2 : Int) + b.exponent) * 30103 / 100000 + 1

/-- Seventeen digits always suffice; two grids more allow for the estimate. -/
def shortest (tie : TieRule) (b : Binary) : Decimal := b.search tie 19 b.startGrid

end Binary

/-- Drop the zeros at the end of the digits, moving them to the exponent. -/
def Decimal.reduce : Nat → Decimal → Decimal
  | 0, d => d
  | fuel + 1, d =>
    if d.digits ≠ 0 ∧ d.digits % 10 = 0 then Decimal.reduce fuel ⟨d.digits / 10, d.exponent + 1⟩
    else d

/-- The digits of a decimal and the place of its point: the value is `0.d₁d₂… · 10^point`. -/
def Decimal.layout (d : Decimal) : List Char × Int :=
  let r := Decimal.reduce 20 d
  let ds := digitsOf r.digits
  (ds, r.exponent + ds.length)

end MetricRelay.Number
