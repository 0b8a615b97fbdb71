import MetricRelay.Json.Reader
import MetricRelay.Toml.Value
/-!
The smallest parts of a TOML text: keys, strings, numbers, dates. Every reader returns what follows,
and `none` when the text is not well-formed.
-/
namespace MetricRelay.Toml

open Number (isDigit)

/-- Control characters other than the tab stand nowhere but in line ends. -/
def isControl (c : Char) : Bool := (c.toNat < 0x20 && c != '\t') || c.toNat == 0x7F

def isInlineBlank (c : Char) : Bool := c == ' ' || c == '\t'

def skipInline (cs : List Char) : List Char := cs.dropWhile isInlineBlank

/-- A line end, if the text starts with one. -/
def takeNewline? : List Char → Option (List Char)
  | '\n' :: cs => some cs
  | '\r' :: '\n' :: cs => some cs
  | _ => none

def skipComment (cs : List Char) : List Char :=
  match cs with
  | '#' :: r => r.dropWhile (!isControl ·)
  | _ => cs

/-- Blanks, comments and line ends, as they may stand between the items of an array. -/
def skipGaps : Nat → List Char → List Char
  | 0, cs => cs
  | fuel + 1, cs =>
    let rest := skipComment (skipInline cs)
    match takeNewline? rest with
    | some r => skipGaps fuel r
    | none => rest

/-! Strings. -/

/-- The character with this number, if there is one. -/
def scalarValue? (n : Nat) : Option Char :=
  if n < 0xD800 ∨ (0xDFFF < n ∧ n < 0x110000) then some (Char.ofNat n) else none

def hexNumber? (ds : List Char) : Option Nat :=
  ds.foldlM (fun n d => (Json.hexValue? d).map fun h => 16 * n + h) 0

/-- What a backslash and the characters after it stand for. -/
def takeEscape? : List Char → Option (Char × List Char)
  | 'b' :: cs => some ('\x08', cs)
  | 't' :: cs => some ('\t', cs)
  | 'n' :: cs => some ('\n', cs)
  | 'f' :: cs => some ('\x0c', cs)
  | 'r' :: cs => some ('\r', cs)
  | '"' :: cs => some ('"', cs)
  | '\\' :: cs => some ('\\', cs)
  | 'u' :: cs =>
    if cs.length < 4 then none
    else (hexNumber? (cs.take 4)).bind fun n => (scalarValue? n).map fun c => (c, cs.drop 4)
  | 'U' :: cs =>
    if cs.length < 8 then none
    else (hexNumber? (cs.take 8)).bind fun n => (scalarValue? n).map fun c => (c, cs.drop 8)
  | _ => none

def prepend (c : Char) (tail : Option (List Char × List Char)) : Option (List Char × List Char) :=
  tail.map fun (s, rest) => (c :: s, rest)

/-- A string in double quotes on one line, after its opening quote. -/
def takeBasic? : Nat → List Char → Option (List Char × List Char)
  | 0, _ => none
  | fuel + 1, cs =>
    match cs with
    | [] => none
    | '"' :: rest => some ([], rest)
    | '\\' :: rest => do
      let (c, rest) ← takeEscape? rest
      prepend c (takeBasic? fuel rest)
    | c :: rest => if isControl c then none else prepend c (takeBasic? fuel rest)

/-- A string in single quotes on one line, after its opening quote. -/
def takeLiteral? : List Char → Option (List Char × List Char)
  | [] => none
  | '\'' :: rest => some ([], rest)
  | c :: rest => if isControl c then none else prepend c (takeLiteral? rest)

/-- The quotes that belong to a string of several lines when a run of quotes stands here: up to two
before the closing three. `none` when the run does not close the string. -/
def closing? (quote : Char) (cs : List Char) : Option (List Char × List Char) :=
  let run := min (cs.takeWhile (· == quote)).length 5
  if run < 3 then none else some (List.replicate (run - 3) quote, cs.drop run)

/-- After a backslash at a line end: the blanks and line ends that it swallows. -/
def swallow? (cs : List Char) : Option (List Char) :=
  let rest := skipInline cs
  (takeNewline? rest).map fun r =>
    r.dropWhile fun c => isInlineBlank c || c == '\n' || c == '\r'

/-- A string in three double quotes, after the line end that may follow them. -/
def takeLongBasic? : Nat → List Char → Option (List Char × List Char)
  | 0, _ => none
  | fuel + 1, cs =>
    match closing? '"' cs with
    | some done => some done
    | none =>
      match takeNewline? cs with
      | some rest => prepend '\n' (takeLongBasic? fuel rest)
      | none =>
        match cs with
        | [] => none
        | '\\' :: rest =>
          match swallow? rest with
          | some rest => takeLongBasic? fuel rest
          | none => do
            let (c, rest) ← takeEscape? rest
            prepend c (takeLongBasic? fuel rest)
        | c :: rest => if isControl c then none else prepend c (takeLongBasic? fuel rest)

/-- A string in three single quotes, after the line end that may follow them. -/
def takeLongLiteral? : Nat → List Char → Option (List Char × List Char)
  | 0, _ => none
  | fuel + 1, cs =>
    match closing? '\'' cs with
    | some done => some done
    | none =>
      match takeNewline? cs with
      | some rest => prepend '\n' (takeLongLiteral? fuel rest)
      | none =>
        match cs with
        | [] => none
        | c :: rest => if isControl c then none else prepend c (takeLongLiteral? fuel rest)

/-- The line end right after the opening quotes of a long string is not part of it. -/
def dropNewline (cs : List Char) : List Char := (takeNewline? cs).getD cs

/-- A string of any of the four kinds. -/
def takeString? (cs : List Char) : Option (String × List Char) :=
  let read := match cs with
    | '"' :: '"' :: '"' :: r => takeLongBasic? (r.length + 1) (dropNewline r)
    | '"' :: r => takeBasic? (r.length + 1) r
    | '\'' :: '\'' :: '\'' :: r => takeLongLiteral? (r.length + 1) (dropNewline r)
    | '\'' :: r => takeLiteral? r
    | _ => none
  read.map fun (s, rest) => (String.ofList s, rest)

/-! Keys. -/

def isBareChar (c : Char) : Bool := c.isAlphanum || c == '-' || c == '_'

/-- One part of a key: bare, or a quoted string on one line. -/
def takeKeyPart? (cs : List Char) : Option (String × List Char) :=
  match cs with
  | '"' :: r => (takeBasic? (r.length + 1) r).map fun (s, rest) => (String.ofList s, rest)
  | '\'' :: r => (takeLiteral? r).map fun (s, rest) => (String.ofList s, rest)
  | _ =>
    let part := cs.takeWhile isBareChar
    if part.isEmpty then none else some (String.ofList part, cs.dropWhile isBareChar)

/-- A key of one or more parts with points between them. -/
def takeKey? : Nat → List Char → Option (List String × List Char)
  | 0, _ => none
  | fuel + 1, cs => do
    let (part, rest) ← takeKeyPart? (skipInline cs)
    match skipInline rest with
    | '.' :: r =>
      let (parts, rest) ← takeKey? fuel r
      some (part :: parts, rest)
    | rest => some ([part], rest)

/-! Numbers and dates. -/

/-- Digits of the class `p`, with single underscores allowed between two of them. -/
def readGrouped? (p : Char → Bool) : List Char → Option (List Char)
  | [] => none
  | [c] => if p c then some [c] else none
  | c :: '_' :: cs => if p c then (readGrouped? p cs).map (c :: ·) else none
  | c :: cs => if p c then (readGrouped? p cs).map (c :: ·) else none

def splitSign (cs : List Char) : Bool × List Char :=
  match cs with
  | '-' :: r => (true, r)
  | '+' :: r => (false, r)
  | _ => (false, cs)

def readRadix? (radix : Nat) (cs : List Char) : Option Nat := do
  let ds ← readGrouped? (fun c => (Json.hexValue? c).any (· < radix)) cs
  some (ds.foldl (fun n d => radix * n + (Json.hexValue? d).getD 0) 0)

/-- Decimal digits without a leading zero. -/
def readWhole? (cs : List Char) : Option (List Char) := do
  let ds ← readGrouped? isDigit cs
  if ds.length > 1 ∧ ds.head? = some '0' then none else some ds

/-- The widest whole numbers that are read at all. -/
def integerFits (n : Int) : Bool := -(Nat.pow 2 127 : Int) ≤ n && n < (Nat.pow 2 128 : Int)

def readInteger? (cs : List Char) : Option Int :=
  let n : Option Int := match cs with
    | '0' :: 'x' :: r => (readRadix? 16 r).map Int.ofNat
    | '0' :: 'o' :: r => (readRadix? 8 r).map Int.ofNat
    | '0' :: 'b' :: r => (readRadix? 2 r).map Int.ofNat
    | _ =>
      let (negative, r) := splitSign cs
      (readWhole? r).map fun ds =>
        let n : Int := Number.ofDigits 0 ds
        if negative then -n else n
  n.filter integerFits

/-- A float has a point with digits on both sides, an exponent, or is one of the special words. -/
def readFloat? (cs : List Char) : Option Float :=
  let (negative, r) := splitSign cs
  let finite : Option Float :=
    let whole := r.takeWhile fun c => isDigit c || c == '_'
    let rest := r.dropWhile fun c => isDigit c || c == '_'
    let (fraction, rest) := match rest with
      | '.' :: t => (some (t.takeWhile fun c => isDigit c || c == '_'),
          t.dropWhile fun c => isDigit c || c == '_')
      | _ => (none, rest)
    do
      let whole ← readWhole? whole
      let fraction ← match fraction with
        | none => some []
        | some ds => readGrouped? isDigit ds
      let exponent ← match rest with
        | [] => some (0 : Int)
        | c :: t =>
          if c = 'e' ∨ c = 'E' then
            let (down, ds) := splitSign t
            (readGrouped? isDigit ds).map fun ds =>
              let n : Int := Number.ofDigits 0 ds
              if down then -n else n
          else none
      let x := Number.scaled (Number.ofDigits 0 (whole ++ fraction)) (exponent - fraction.length)
      if x.isInf then none else some x
  let x := match r with
    | ['i', 'n', 'f'] => some Number.infinity
    | ['n', 'a', 'n'] => some (Float.ofBits 0x7FF8000000000000)
    | _ => finite
  x.map fun x => if negative then -x else x

/-- A number of exactly `width` digits within bounds at the start of the text. -/
def takeFixed? (width low high : Nat) (cs : List Char) : Option (Nat × List Char) := do
  let ds := cs.take width
  if ds.length ≠ width then none
  else
    let n ← Number.readDigits? ds
    if low ≤ n ∧ n ≤ high then some (n, cs.drop width) else none

def takeChar? (c : Char) (cs : List Char) : Option (List Char) :=
  match cs with
  | d :: r => if c = d then some r else none
  | [] => none

def daysIn (year month : Nat) : Nat :=
  if month = 2 then
    if year % 4 = 0 ∧ (year % 100 ≠ 0 ∨ year % 400 = 0) then 29 else 28
  else if month ∈ [4, 6, 9, 11] then 30 else 31

def takeDate? (cs : List Char) : Option (List Char) := do
  let (year, cs) ← takeFixed? 4 0 9999 cs
  let cs ← takeChar? '-' cs
  let (month, cs) ← takeFixed? 2 1 12 cs
  let cs ← takeChar? '-' cs
  let (_, cs) ← takeFixed? 2 1 (daysIn year month) cs
  some cs

def takeTime? (cs : List Char) : Option (List Char) := do
  let (_, cs) ← takeFixed? 2 0 23 cs
  let cs ← takeChar? ':' cs
  let (_, cs) ← takeFixed? 2 0 59 cs
  let cs ← takeChar? ':' cs
  let (_, cs) ← takeFixed? 2 0 60 cs
  match cs with
  | '.' :: r => if (r.takeWhile isDigit).isEmpty then none else some (r.dropWhile isDigit)
  | _ => some cs

def takeOffset? (cs : List Char) : Option (List Char) :=
  match cs with
  | [] => some []
  | c :: r =>
    if c = 'Z' ∨ c = 'z' then some r
    else if c = '+' ∨ c = '-' then do
      let (_, r) ← takeFixed? 2 0 23 r
      let r ← takeChar? ':' r
      let (_, r) ← takeFixed? 2 0 59 r
      some r
    else some cs

/-- A date, a time, or both with an optional offset. -/
def isDatetime (cs : List Char) : Bool :=
  match takeDate? cs with
  | some [] => true
  | some (c :: r) =>
    (c = 'T' || c = 't' || c = ' ') && (((takeTime? r).bind takeOffset?).any (·.isEmpty))
  | none => (takeTime? cs).any (·.isEmpty)

def isTokenChar (c : Char) : Bool :=
  c.isAlphanum || c == '+' || c == '-' || c == '_' || c == '.' || c == ':'

/-- A value that is one unquoted token; only a date may go on after a blank with its time. -/
def takeToken? (cs : List Char) : Option (Toml × List Char) :=
  let token := cs.takeWhile isTokenChar
  let rest := cs.dropWhile isTokenChar
  let (token, rest) := match rest with
    | ' ' :: d :: r =>
      if takeDate? token = some [] ∧ isDigit d then
        (token ++ ' ' :: (d :: r).takeWhile isTokenChar, (d :: r).dropWhile isTokenChar)
      else (token, rest)
    | _ => (token, rest)
  let text := String.ofList token
  let value : Option Toml :=
    if text = "true" then some (.boolean true)
    else if text = "false" then some (.boolean false)
    else if isDatetime token then some (.datetime text)
    else
      match readInteger? token with
      | some n => some (.integer n)
      | none => (readFloat? token).map .float
  value.map fun v => (v, rest)

end MetricRelay.Toml
