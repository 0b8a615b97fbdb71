import MetricRelay.Json.Value
/-!
The strict JSON reader: one value, blanks around it, nothing after it. At most 127 arrays and
objects may be open at once, control characters and lone surrogates are refused in strings, and a
number whose value is beyond the doubles is refused.
-/
namespace MetricRelay.Json

/-- The deepest nesting of arrays and objects that is accepted. -/
def maxDepth : Nat := 127

def isBlank (c : Char) : Bool := c == ' ' || c == '\t' || c == '\n' || c == '\r'

def skipBlanks (cs : List Char) : List Char := cs.dropWhile isBlank

/-- Digits taken into a 64-bit significand until the next one would not fit: the significand, the
number of digits taken, and the rest. -/
def takeSignificand (acc : Nat) : List Char → Nat × Nat × List Char
  | [] => (acc, 0, [])
  | c :: cs =>
    if Number.isDigit c && 10 * acc + Number.digitValue c ≤ Number.maxU64 then
      let (n, k, rest) := takeSignificand (10 * acc + Number.digitValue c) cs
      (n, k + 1, rest)
    else (acc, 0, c :: cs)

def ten (n : Nat) : Float := Float.ofScientific 1 false n

/-- `significand · 10^exponent` by one multiplication or division with a power of ten, by two when
the power is beyond the doubles; `none` when the result is. -/
def scale? (significand : Nat) (exponent : Int) : Option Float :=
  let x := Float.ofNat significand
  if significand = 0 then some 0.0
  else if exponent > 308 then none
  else if 0 ≤ exponent then
    let y := x * ten exponent.toNat
    if y.isInf then none else some y
  else if -308 ≤ exponent then some (x / ten exponent.natAbs)
  else if -616 ≤ exponent then some (x / ten 308 / ten (exponent + 308).natAbs)
  else some 0.0

/-- The exponent after its mark, if a mark stands here: its value and the rest. -/
def takeExponent? (cs : List Char) : Option (Int × List Char) :=
  match cs with
  | c :: r =>
    if c = 'e' ∨ c = 'E' then
      let (negative, digits) := match r with
        | '+' :: t => (false, t)
        | '-' :: t => (true, t)
        | _ => (false, r)
      (Number.readDigits? (digits.takeWhile Number.isDigit)).map fun n =>
        (if negative then -(n : Int) else n, digits.dropWhile Number.isDigit)
    else some (0, cs)
  | [] => some (0, [])

def hasMark (marks : List Char) (cs : List Char) : Bool :=
  match cs with
  | c :: _ => marks.contains c
  | [] => false

/-- A number token and what follows it. Digits beyond the significand only scale the number when
they stand before the point, and are dropped after it. -/
def takeNumber? (cs : List Char) : Option (Number × List Char) :=
  let (negative, cs) := match cs with
    | '-' :: r => (true, r)
    | _ => (false, cs)
  let whole := cs.takeWhile Number.isDigit
  if whole.isEmpty || (whole.length > 1 && whole.head? == some '0') then none
  else
    let (significand, _, rest) := takeSignificand 0 cs
    let dropped := (rest.takeWhile Number.isDigit).length
    let rest := rest.dropWhile Number.isDigit
    if dropped = 0 && !hasMark ['.', 'e', 'E'] rest then
      let token :=
        if !negative then .unsigned significand
        else if 0 < significand ∧ significand ≤ Number.maxI64 + 1 then
          .negative (-(significand : Int))
        else .real (-(Float.ofNat significand))
      some (token, rest)
    else do
      let (significand, places, rest) ← match rest with
        | '.' :: r =>
          if hasMark ['0', '1', '2', '3', '4', '5', '6', '7', '8', '9'] r then
            let (n, k, t) := takeSignificand significand r
            some (n, k, t.dropWhile Number.isDigit)
          else none
        | _ => some (significand, 0, rest)
      let (exponent, rest) ← takeExponent? rest
      let x ← scale? significand (exponent + dropped - places)
      some (.real (if negative then -x else x), rest)

def hexValue? (c : Char) : Option Nat :=
  if Number.isDigit c then some (Number.digitValue c)
  else if 'a' ≤ c && c ≤ 'f' then some (c.toNat - 'a'.toNat + 10)
  else if 'A' ≤ c && c ≤ 'F' then some (c.toNat - 'A'.toNat + 10)
  else none

def hex4? (a b c d : Char) : Option Nat := do
  let a ← hexValue? a
  let b ← hexValue? b
  let c ← hexValue? c
  let d ← hexValue? d
  some (((a * 16 + b) * 16 + c) * 16 + d)

def unescape? : Char → Option Char
  | '"' => some '"'
  | '\\' => some '\\'
  | '/' => some '/'
  | 'b' => some '\x08'
  | 'f' => some '\x0c'
  | 'n' => some '\n'
  | 'r' => some '\r'
  | 't' => some '\t'
  | _ => none

/-- The characters of a string up to its closing quote, and what follows the quote. -/
def takeString? : List Char → Option (List Char × List Char)
  | [] => none
  | '"' :: cs => some ([], cs)
  | '\\' :: 'u' :: a :: b :: c :: d :: '\\' :: 'u' :: e :: f :: g :: h :: cs => do
    let first ← hex4? a b c d
    if 0xD800 ≤ first ∧ first ≤ 0xDBFF then
      let second ← hex4? e f g h
      if 0xDC00 ≤ second ∧ second ≤ 0xDFFF then
        let (s, rest) ← takeString? cs
        some (Char.ofNat (0x10000 + (first - 0xD800) * 0x400 + (second - 0xDC00)) :: s, rest)
      else none
    else if 0xDC00 ≤ first ∧ first ≤ 0xDFFF then none
    else
      let (s, rest) ← takeString? ('\\' :: 'u' :: e :: f :: g :: h :: cs)
      some (Char.ofNat first :: s, rest)
  | '\\' :: 'u' :: a :: b :: c :: d :: cs => do
    let code ← hex4? a b c d
    if 0xD800 ≤ code ∧ code ≤ 0xDFFF then none
    else
      let (s, rest) ← takeString? cs
      some (Char.ofNat code :: s, rest)
  | '\\' :: c :: cs => do
    let c ← unescape? c
    let (s, rest) ← takeString? cs
    some (c :: s, rest)
  | c :: cs =>
    if c.toNat < 0x20 then none
    else (takeString? cs).map fun (s, rest) => (c :: s, rest)

def takeWord? (word : String) (cs : List Char) : Option (List Char) :=
  if word.toList.isPrefixOf cs then some (cs.drop word.length) else none

mutual

/-- A value at the start of the text, with at most `depth` more levels to open. Each step of `fuel`
takes at least one character. -/
def takeValue? (fuel depth : Nat) (cs : List Char) : Option (Json × List Char) :=
  match fuel with
  | 0 => none
  | fuel + 1 =>
    match skipBlanks cs with
    | [] => none
    | '"' :: r => (takeString? r).map fun (s, t) => (.string (String.ofList s), t)
    | '[' :: r =>
      match depth with
      | 0 => none
      | depth + 1 =>
        match skipBlanks r with
        | ']' :: t => some (.array [], t)
        | r => (takeItems? fuel depth r).map fun (items, t) => (.array items, t)
    | '\x7b' :: r =>
      match depth with
      | 0 => none
      | depth + 1 =>
        match skipBlanks r with
        | '\x7d' :: t => some (.object [], t)
        | r => (takeMembers? fuel depth r).map fun (members, t) => (.object members, t)
    | c :: r =>
      if c = 'n' then (takeWord? "null" (c :: r)).map (.null, ·)
      else if c = 't' then (takeWord? "true" (c :: r)).map (.bool true, ·)
      else if c = 'f' then (takeWord? "false" (c :: r)).map (.bool false, ·)
      else (takeNumber? (c :: r)).map fun (n, t) => (.number n, t)

/-- The items of an array up to its closing bracket. -/
def takeItems? (fuel depth : Nat) (cs : List Char) : Option (List Json × List Char) :=
  match fuel with
  | 0 => none
  | fuel + 1 => do
    let (item, rest) ← takeValue? fuel depth cs
    match skipBlanks rest with
    | ',' :: r =>
      let (items, t) ← takeItems? fuel depth r
      some (item :: items, t)
    | ']' :: t => some ([item], t)
    | _ => none

/-- The members of an object up to its closing brace. -/
def takeMembers? (fuel depth : Nat) (cs : List Char) : Option (List (String × Json) × List Char) :=
  match fuel with
  | 0 => none
  | fuel + 1 => do
    let key ← match skipBlanks cs with
      | '"' :: r => takeString? r
      | _ => none
    let rest ← match skipBlanks key.2 with
      | ':' :: r => some r
      | _ => none
    let (value, rest) ← takeValue? fuel depth rest
    match skipBlanks rest with
    | ',' :: r =>
      let (members, t) ← takeMembers? fuel depth r
      some ((String.ofList key.1, value) :: members, t)
    | '\x7d' :: t => some ([(String.ofList key.1, value)], t)
    | _ => none

end

/-- The value that the whole text is, if it is one. -/
def read? (cs : List Char) : Option Json :=
  match takeValue? (2 * cs.length + 2) maxDepth cs with
  | some (value, rest) => if (skipBlanks rest).isEmpty then some value else none
  | none => none

end MetricRelay.Json
