/-!
Offsets into a text, counted in the bytes of its characters. A text has no part before or from an
offset that lies inside a character or past the end.
-/
namespace MetricRelay.Text

/-- The number of bytes that the characters take. -/
def byteLength : List Char → Nat
  | [] => 0
  | c :: cs => c.utf8Size + byteLength cs

/-- The text before an offset and the text from there on. -/
def splitAtByte? : Nat → List Char → Option (List Char × List Char)
  | 0, cs => some ([], cs)
  | _ + 1, [] => none
  | n + 1, c :: cs =>
    if c.utf8Size ≤ n + 1 then
      (splitAtByte? (n + 1 - c.utf8Size) cs).map fun (front, rest) => (c :: front, rest)
    else none

def upTo? (offset : Nat) (cs : List Char) : Option (List Char) :=
  (splitAtByte? offset cs).map (·.1)

def startingAt? (offset : Nat) (cs : List Char) : Option (List Char) :=
  (splitAtByte? offset cs).map (·.2)

/-- The offset of the first character with `p`. -/
def offsetOf? (p : Char → Bool) : List Char → Option Nat
  | [] => none
  | c :: cs => if p c then some 0 else (offsetOf? p cs).map (c.utf8Size + ·)

/-- The characters with their offsets, the first of which is `start`. -/
def withOffsets (start : Nat) : List Char → List (Nat × Char)
  | [] => []
  | c :: cs => (start, c) :: withOffsets (start + c.utf8Size) cs

end MetricRelay.Text
