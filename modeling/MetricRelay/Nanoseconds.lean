import MetricRelay.Number.Digits
import MetricRelay.Text.Blank
/-!
Spans of time in whole nanoseconds, and the way people write them: one or more numbers, each with a
unit. Every number and every intermediate product must fit 64 bits.
-/
namespace MetricRelay

/-- A span of time in whole nanoseconds. -/
structure Nanoseconds where
  count : Nat
  deriving DecidableEq, Repr

namespace Nanoseconds

def perSecond : Nat := 1000000000

def ofMilliseconds (ms : Nat) : Nanoseconds := ⟨ms * 1000000⟩

/-- Whole seconds plus the remaining fraction, each rounded on its own. -/
def seconds (t : Nanoseconds) : Float :=
  Float.ofNat (t.count / perSecond) + Float.ofNat (t.count % perSecond) / Float.ofNat perSecond

/-- What one of a unit lasts: a number of nanoseconds, or of whole seconds. -/
inductive TimeUnit where
  | nanoseconds (count : Nat)
  | seconds (count : Nat)
  deriving DecidableEq, Repr

namespace TimeUnit

/-- The unit with this name. A month is 30.44 days and a year 365.25. -/
def ofName? : String → Option TimeUnit
  | "nanos" | "nsec" | "ns" => some (.nanoseconds 1)
  | "usec" | "us" | "µs" => some (.nanoseconds 1000)
  | "millis" | "msec" | "ms" => some (.nanoseconds 1000000)
  | "seconds" | "second" | "secs" | "sec" | "s" => some (.seconds 1)
  | "minutes" | "minute" | "min" | "mins" | "m" => some (.seconds 60)
  | "hours" | "hour" | "hr" | "hrs" | "h" => some (.seconds 3600)
  | "days" | "day" | "d" => some (.seconds 86400)
  | "weeks" | "week" | "wk" | "wks" | "w" => some (.seconds 604800)
  | "months" | "month" | "M" => some (.seconds 2630016)
  | "years" | "year" | "yr" | "yrs" | "y" => some (.seconds 31557600)
  | _ => none

end TimeUnit

/-- A number that fits 64 bits. -/
def bounded? (n : Nat) : Option Nat := if n ≤ Number.maxU64 then some n else none

/-- One more part of a span. The seconds so far and the nanoseconds beside them must fit 64 bits
each. -/
def plus? (t : Nanoseconds) (seconds nanoseconds : Nat) : Option Nanoseconds := do
  let fine ← bounded? (t.count % perSecond + nanoseconds)
  let whole ← bounded? (t.count / perSecond + seconds + fine / perSecond)
  some ⟨whole * perSecond + fine % perSecond⟩

/-- Digits after the point, as a fraction: `numerator / denominator`. -/
structure Fraction where
  numerator : Nat
  denominator : Nat

/-- Add `n` and a fraction of the unit. The fraction of a unit up to the minute is cut to
nanoseconds, of a longer one to seconds, and a nanosecond has none. -/
def addUnits? (t : Nanoseconds) (n : Nat) (fraction : Option Fraction) (unit : TimeUnit) :
    Option Nanoseconds := do
  let t ← match unit with
    | .nanoseconds size => (bounded? (n * size)).bind fun n => t.plus? 0 n
    | .seconds size => (bounded? (n * size)).bind fun n => t.plus? n 0
  match fraction with
  | none => some t
  | some f =>
    match unit with
    | .nanoseconds size =>
      if size = 1 then none
      else (bounded? (f.numerator * size)).bind fun n => t.plus? 0 (n / f.denominator)
    | .seconds size =>
      if size ≤ 60 then
        (bounded? (f.numerator * (size * perSecond))).bind fun n => t.plus? 0 (n / f.denominator)
      else (bounded? (f.numerator * size)).bind fun n => t.plus? (n / f.denominator) 0

def isUnitLetter (c : Char) : Bool := c.isAlpha || c == 'µ'

/-- The digits of a number, with blanks between them at will. -/
def takeDigits (cs : List Char) : List Char × List Char :=
  let inNumber := fun c => Number.isDigit c || Text.isBlank c
  ((cs.takeWhile inNumber).filter Number.isDigit, cs.dropWhile inNumber)

/-- The digits after a point; there must be one. -/
def takeFraction? (cs : List Char) : Option (Fraction × List Char) := do
  let (digits, rest) := takeDigits cs
  if digits.isEmpty then none
  else
    let denominator ← bounded? (Nat.pow 10 digits.length)
    some (⟨Number.ofDigits 0 digits, denominator⟩, rest)

/-- Numbers with units up to the end of the text, added to `t`. Each pass takes at least a digit. -/
def readParts? : Nat → Nanoseconds → List Char → Option Nanoseconds
  | 0, _, _ => none
  | fuel + 1, t, cs => do
    let (digits, rest) := takeDigits cs
    if digits.isEmpty then none
    else
      let n ← bounded? (Number.ofDigits 0 digits)
      let (fraction, rest) ← match rest with
        | '.' :: r => (takeFraction? r).map fun (f, r) => (some f, r)
        | _ => some (none, rest)
      let unit ← TimeUnit.ofName? (String.ofList (rest.takeWhile isUnitLetter))
      let t ← t.addUnits? n fraction unit
      let rest := rest.dropWhile isUnitLetter
      if rest.all Text.isBlank then some t
      else readParts? fuel t rest

/-- A lone zero needs no unit. -/
def read? (text : String) : Option Nanoseconds :=
  if text = "0" then some ⟨0⟩ else readParts? (text.toList.length + 1) ⟨0⟩ text.toList

end Nanoseconds
end MetricRelay
