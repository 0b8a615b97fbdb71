import MetricRelay.Number.Real
/-!
JSON values as they stand in a text: numbers keep the form that their token had, and an object keeps
its members in order of appearance, repeated keys included.
-/
namespace MetricRelay

namespace Json

/-- A number token: whole numbers that fit 64 bits are exact, all others are doubles. -/
inductive Number where
  | unsigned (n : Nat)
  | negative (n : Int)
  | real (x : Float)

def Number.toFloat : Number → Float
  | .unsigned n => Float.ofNat n
  | .negative n => Float.ofInt n
  | .real x => x

end Json

/-- A JSON value. -/
inductive Json where
  | null
  | bool (b : Bool)
  | number (n : Json.Number)
  | string (s : String)
  | array (items : List Json)
  | object (members : List (String × Json))
  deriving Inhabited

namespace Json

/-- The value of the last member with this key. -/
def member? (key : String) (members : List (String × Json)) : Option Json :=
  (members.reverse.find? (·.1 == key)).map (·.2)

/-- Write a string with the escapes of compact output: quotes, backslashes and control characters.
-/
def quote (s : String) : String :=
  let escape (c : Char) : List Char :=
    match c with
    | '"' => ['\\', '"']
    | '\\' => ['\\', '\\']
    | '\x08' => ['\\', 'b']
    | '\t' => ['\\', 't']
    | '\n' => ['\\', 'n']
    | '\x0c' => ['\\', 'f']
    | '\r' => ['\\', 'r']
    | _ =>
      if c.toNat < 0x20 then
        ['\\', 'u', '0', '0', Nat.digitChar (c.toNat / 16), Nat.digitChar (c.toNat % 16)]
      else [c]
  String.ofList ('"' :: s.toList.flatMap escape ++ ['"'])

end Json
end MetricRelay
