/-!
Whole numbers in decimal digits. A reader takes the whole text or nothing; the bounded readers
refuse a number that does not fit the stated width.
-/
namespace MetricRelay.Number

def isDigit (c : Char) : Bool := '0' ≤ c && c ≤ '9'

def digitValue (c : Char) : Nat := c.toNat - '0'.toNat

/-- The number that the digits `cs` continue when `acc` stands before them. -/
def ofDigits (acc : Nat) (cs : List Char) : Nat :=
  cs.foldl (fun n c => 10 * n + digitValue c) acc

/-- One or more digits and nothing else. -/
def readDigits? (cs : List Char) : Option Nat :=
  if !cs.isEmpty && cs.all isDigit then some (ofDigits 0 cs) else none

def maxU16 : Nat := Nat.pow 2 16 - 1
def maxU32 : Nat := Nat.pow 2 32 - 1
def maxU64 : Nat := Nat.pow 2 64 - 1
def maxI64 : Nat := Nat.pow 2 63 - 1

/-- An unsigned number up to `bound`, with an optional plus sign. -/
def readUnsigned? (bound : Nat) (cs : List Char) : Option Nat :=
  let digits := match cs with
    | '+' :: r => r
    | _ => cs
  (readDigits? digits).filter (· ≤ bound)

/-- A signed number of 64 bits, with an optional sign. -/
def readSigned? (cs : List Char) : Option Int :=
  match cs with
  | '-' :: r => ((readDigits? r).filter (· ≤ maxI64 + 1)).map fun n => -(n : Int)
  | '+' :: r => ((readDigits? r).filter (· ≤ maxI64)).map fun n => (n : Int)
  | _ => ((readDigits? cs).filter (· ≤ maxI64)).map fun n => (n : Int)

/-- The decimal digits of a number, without leading zeros. -/
def digitsOf (n : Nat) : List Char := Nat.toDigits 10 n

def text (n : Nat) : String := String.ofList (digitsOf n)

def signedText (n : Int) : String :=
  match n with
  | .ofNat n => text n
  | .negSucc n => "-" ++ text (n + 1)

end MetricRelay.Number
