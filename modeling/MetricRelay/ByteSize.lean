import MetricRelay.Json.Value
import MetricRelay.Text.Blank
/-!
Sizes in bytes as people write them: a number, optional blanks and a unit. The number times its unit
must fit 64 bits. The written form takes the largest unit that divides the size.
-/
namespace MetricRelay

/-- A number of bytes below `2^64`. -/
structure ByteSize where
  bytes : UInt64
  deriving DecidableEq, Repr

namespace ByteSize

inductive ReadError where
  /-- The text does not start with a digit. -/
  | noNumber (text : String)
  /-- The number times its unit does not fit. -/
  | overflow (text : String)
  /-- The number itself does not fit. -/
  | numberTooLarge
  | unknownUnit (unit : String)
  deriving DecidableEq, Repr

def ReadError.message : ReadError → String
  | .noNumber text => s!"Invalid size format: {text}"
  | .overflow text => s!"Invalid size format: {text} overflows a 64-bit byte count"
  | .numberTooLarge => "Invalid number: number too large to fit in target type"
  | .unknownUnit unit => s!"Invalid unit: {unit}"

/-- Capital of a letter. Beside the ASCII letters only the dotless i (U+0131) has a capital that
occurs in a unit. -/
def capital (c : Char) : Char := if c = '\u0131' then 'I' else c.toUpper

/-- The factor of a unit in any case; no unit at all counts single bytes. -/
def unitFactor? (unit : List Char) : Option Nat :=
  match String.ofList (unit.map capital) with
  | "" | "B" => some 1
  | "K" | "KB" | "KIB" => some (Nat.pow 2 10)
  | "M" | "MB" | "MIB" => some (Nat.pow 2 20)
  | "G" | "GB" | "GIB" => some (Nat.pow 2 30)
  | _ => none

def read (text : String) : Except ReadError ByteSize :=
  let cs := Text.trim text.toList
  let digits := cs.takeWhile Number.isDigit
  let unit := Text.trim (cs.dropWhile Number.isDigit)
  if digits.isEmpty then .error (.noNumber (String.ofList cs))
  else
    let n := Number.ofDigits 0 digits
    if n > Number.maxU64 then .error .numberTooLarge
    else
      match unitFactor? unit with
      | none => .error (.unknownUnit (String.ofList unit))
      | some factor =>
        if n * factor ≤ Number.maxU64 then .ok ⟨UInt64.ofNat (n * factor)⟩
        else .error (.overflow (String.ofList cs))

/-- The units that the written form may take, largest first. -/
def units : List (String × Nat) :=
  [("GB", Nat.pow 2 30), ("MB", Nat.pow 2 20), ("KB", Nat.pow 2 10)]

def text (size : ByteSize) : String :=
  let n := size.bytes.toNat
  match units.find? fun (_, factor) => factor ≤ n && n % factor == 0 with
  | some (unit, factor) => Number.text (n / factor) ++ unit
  | none => Number.text n ++ "B"

/-- What a JSON value fails with where a size is expected. -/
inductive ValueError where
  | negative (n : Int)
  | text (error : ReadError)
  /-- The value is of another type, described as in `found`. -/
  | wrongType (found : String)

def ValueError.message : ValueError → String
  | .negative n => "negative byte size: " ++ Number.signedText n
  | .text error => error.message
  | .wrongType found =>
    s!"invalid type: {found}, expected a byte size as string (e.g., \"5MB\", \"1GB\") or integer"

/-- A size is a whole number or a text that reads as a size. -/
def ofJson : Json → Except ValueError ByteSize
  | .number (.unsigned n) => .ok ⟨UInt64.ofNat n⟩
  | .number (.negative n) => .error (.negative n)
  | .number (.real x) => .error (.wrongType (s!"floating point `{Number.tokenText x}`"))
  | .string s => (read s).mapError .text
  | .null => .error (.wrongType "null")
  | .bool b => .error (.wrongType (if b then "boolean `true`" else "boolean `false`"))
  | .array _ => .error (.wrongType "sequence")
  | .object _ => .error (.wrongType "map")

end ByteSize
end MetricRelay
