import MetricRelay.Number.Real
/-!
TOML values, and the typed views that tables are read through. A view fails on a value of another
type; a whole number also counts as a float.
-/
namespace MetricRelay

inductive Toml where
  | string (s : String)
  | integer (n : Int)
  | float (x : Float)
  | boolean (b : Bool)
  | datetime (text : String)
  | array (items : List Toml)
  | table (entries : List (String × Toml))
  deriving Inhabited

namespace Toml

/-- The value of a key that is present. -/
def entry? (key : String) (entries : List (String × Toml)) : Option Toml :=
  (entries.find? (·.1 == key)).map (·.2)

def string? : Toml → Option String
  | .string s => some s
  | _ => none

/-- A whole number from zero to `bound`. -/
def natural? (bound : Nat) : Toml → Option Nat
  | .integer n => if 0 ≤ n ∧ n ≤ bound then some n.toNat else none
  | _ => none

def float? : Toml → Option Float
  | .float x => some x
  | .integer n => some (Float.ofInt n)
  | _ => none

def array? : Toml → Option (List Toml)
  | .array items => some items
  | _ => none

/-- The word of an enumeration: a string, or a table whose only key is the word and whose value is
empty. -/
def word? : Toml → Option String
  | .string s => some s
  | .table [(word, .table [])] => some word
  | .table [(word, .array [])] => some word
  | _ => none

/-- The fraction of a second as it is written: at most nine digits, without zeros at the end. -/
def fractionText (digits : List Char) : List Char :=
  match ((digits.take 9).reverse.dropWhile (· == '0')).reverse with
  | [] => []
  | ds => '.' :: ds

/-- The canonical text of a date or time: capital letters around the time, no idle zeros. -/
def datetimeText (text : String) : String :=
  let capital := text.toList.map fun c =>
    if c = ' ' ∨ c = 't' then 'T' else if c = 'z' then 'Z' else c
  let clock := capital.takeWhile (· != '.')
  let fraction := (capital.dropWhile (· != '.')).drop 1
  String.ofList
    (clock ++ fractionText (fraction.takeWhile Number.isDigit) ++ fraction.dropWhile Number.isDigit)

mutual

/-- Whether every whole number in a value fits 64 bits. -/
def isNarrow : Toml → Bool
  | .integer n => -(Nat.pow 2 63 : Int) ≤ n && n < (Nat.pow 2 63 : Int)
  | .array items => areNarrow items
  | .table entries => entriesAreNarrow entries
  | _ => true

def areNarrow : List Toml → Bool
  | [] => true
  | value :: rest => isNarrow value && areNarrow rest

def entriesAreNarrow : List (String × Toml) → Bool
  | [] => true
  | (_, value) :: rest => isNarrow value && entriesAreNarrow rest

end

/-- The fields of a record: a table by key, or an array in the order of `names`. -/
def fields? (names : List String) : Toml → Option (List (String × Toml))
  | .table entries => some entries
  | .array items => some (names.zip items)
  | _ => none

end Toml

/-- The fields of a record that is being read. -/
abbrev Fields := List (String × Toml)

namespace Fields

/-- A field that may be absent, read by `view`. -/
def optional {α : Type} (fields : Fields) (key : String) (view : Toml → Option α) :
    Option (Option α) :=
  match Toml.entry? key fields with
  | none => some none
  | some value => (view value).map some

/-- A field that must be there. -/
def required {α : Type} (fields : Fields) (key : String) (view : Toml → Option α) : Option α :=
  (Toml.entry? key fields).bind view

/-- A field with a default. -/
def defaulted {α : Type} (fields : Fields) (key : String) (default : α) (view : Toml → Option α) :
    Option α :=
  (fields.optional key view).map (·.getD default)

end Fields
end MetricRelay
