import MetricRelay.Number.Shortest
/-!
The two written forms of a double. `valueText` is the form of a sample value: the shortest digits
that read back, always positional, a tie going up. `read?` is the reader: an optional sign, then
infinity or NaN in any case, or digits with at most one point and an optional exponent, correctly
rounded.
-/
namespace MetricRelay.Number

def isNegative (x : Float) : Bool := x.toBits >>> 63 == 1

def infinity : Float := Float.ofBits 0x7FF0000000000000

def zeros (n : Nat) : List Char := List.replicate n '0'

/-- Digits with the point at `point`, written out in full. -/
def positional (ds : List Char) (point : Int) : List Char :=
  if point ≤ 0 then '0' :: '.' :: zeros (-point).toNat ++ ds
  else
    let n := point.toNat
    if ds.length ≤ n then ds ++ zeros (n - ds.length)
    else ds.take n ++ '.' :: ds.drop n

/-- The text of a positive finite magnitude or of zero. -/
def magnitudeText (x : Float) : List Char :=
  let b := Binary.ofBits x.toBits
  if b.mantissa = 0 then ['0']
  else
    let (ds, point) := (b.shortest .up).layout
    positional ds point

/-- The text of any double: `NaN`, `inf` and `-inf` beside the numbers. -/
def plainText (x : Float) : String :=
  if x.isNaN then "NaN"
  else
    let sign := if isNegative x then "-" else ""
    if x.isInf then sign ++ "inf" else sign ++ String.ofList (magnitudeText x)

/-- The text of a sample value: as `plainText`, with infinity written `+Inf` or `-Inf`. -/
def valueText (x : Float) : String :=
  if x.isInf then (if isNegative x then "-Inf" else "+Inf") else plainText x

/-- The text of a finite number in a type error: at least one digit after the point, and an exponent
with a sign outside of `1e-5` to `1e16`. A tie goes to the even digit. -/
def tokenText (x : Float) : String :=
  let b := Binary.ofBits x.toBits
  let sign := if isNegative x then "-" else ""
  if b.mantissa = 0 then sign ++ "0.0"
  else
    let (ds, point) := (b.shortest .even).layout
    let e := point - 1
    let body :=
      if -5 ≤ e ∧ e < 16 then
        if (ds.length : Int) ≤ point then String.ofList (positional ds point) ++ ".0"
        else String.ofList (positional ds point)
      else
        let whole := String.ofList (ds.take 1)
        let rest := ds.drop 1
        let fraction := if rest.isEmpty then "" else "." ++ String.ofList rest
        let mark := if e < 0 then "e-" else "e+"
        whole ++ fraction ++ mark ++ text e.natAbs
    sign ++ body

/-- The double nearest to `digits · 10^exponent`. An exponent far outside the range of doubles is
settled without computing the power. -/
def scaled (digits : Nat) (exponent : Int) : Float :=
  let size : Int := (digitsOf digits).length
  if digits = 0 then 0.0
  else if exponent + size > 310 then infinity
  else if exponent + size < -330 then 0.0
  else if exponent < 0 then Float.ofScientific digits true exponent.natAbs
  else Float.ofScientific digits false exponent.natAbs

/-- The exponent after its mark: an optional sign and one or more digits. -/
def readExponent? (cs : List Char) : Option Int :=
  match cs with
  | '-' :: r => (readDigits? r).map fun n => -(n : Int)
  | '+' :: r => (readDigits? r).map fun n => (n : Int)
  | _ => (readDigits? cs).map fun n => (n : Int)

/-- An unsigned decimal: digits on at least one side of an optional point, then an optional
exponent. -/
def readDecimal? (cs : List Char) : Option Float :=
  let whole := cs.takeWhile isDigit
  let rest := cs.dropWhile isDigit
  let (fraction, rest) := match rest with
    | '.' :: r => (r.takeWhile isDigit, r.dropWhile isDigit)
    | _ => ([], rest)
  if whole.isEmpty && fraction.isEmpty then none
  else
    let digits := ofDigits 0 (whole ++ fraction)
    let places : Int := fraction.length
    match rest with
    | [] => some (scaled digits (-places))
    | c :: r =>
      if c = 'e' ∨ c = 'E' then (readExponent? r).map fun e => scaled digits (e - places)
      else none

/-- An unsigned number: infinity, NaN or a decimal. -/
def readMagnitude? (cs : List Char) : Option Float :=
  let word := String.ofList (cs.map Char.toLower)
  if word = "inf" ∨ word = "infinity" then some infinity
  else if word = "nan" then some (Float.ofBits 0x7FF8000000000000)
  else readDecimal? cs

def read? (cs : List Char) : Option Float :=
  match cs with
  | '-' :: r => (readMagnitude? r).map fun x => -x
  | '+' :: r => readMagnitude? r
  | _ => readMagnitude? cs

/-- The sum of numbers in order. It starts from negative zero, which adds nothing to any number. -/
def sum (xs : List Float) : Float := xs.foldl (· + ·) (-0.0)

end MetricRelay.Number
