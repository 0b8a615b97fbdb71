import MetricRelay.Json.Reader
import MetricRelay.Number.Digits
import MetricRelay.Text.Lines
/-!
Numeric network addresses: the dotted form of four bytes, the colon form of eight groups, and either
with a port. A reader returns what follows the address; the written form is canonical.
-/
namespace MetricRelay

/-- Four bytes, each below 256. -/
structure Ipv4 where
  bytes : List Nat
  deriving DecidableEq, Repr

namespace Ipv4

/-- One to three digits without a leading zero, up to 255. -/
def takeByte? (cs : List Char) : Option (Nat × List Char) := do
  let digits := (cs.take 3).takeWhile Number.isDigit
  let n ← Number.readDigits? digits
  if n ≤ 255 ∧ (digits.length = 1 ∨ digits.head? ≠ some '0') then
    some (n, cs.drop digits.length)
  else none

/-- `n` bytes with a point in front of each. -/
def takeMore? : Nat → List Char → Option (List Nat × List Char)
  | 0, cs => some ([], cs)
  | n + 1, '.' :: cs => do
    let (b, cs) ← takeByte? cs
    let (bs, cs) ← takeMore? n cs
    some (b :: bs, cs)
  | _ + 1, _ => none

def take? (cs : List Char) : Option (Ipv4 × List Char) := do
  let (b, cs) ← takeByte? cs
  let (bs, cs) ← takeMore? 3 cs
  some (⟨b :: bs⟩, cs)

def text (a : Ipv4) : String := ".".intercalate (a.bytes.map Number.text)

end Ipv4

/-- Eight groups, each below `2^16`. -/
structure Ipv6 where
  groups : List Nat
  deriving DecidableEq, Repr

namespace Ipv6

/-- One to four hexadecimal digits. -/
def takeGroup? (cs : List Char) : Option (Nat × List Char) :=
  let digits := (cs.take 4).takeWhile fun c => (Json.hexValue? c).isSome
  if digits.isEmpty then none
  else some (digits.foldl (fun n c => 16 * n + (Json.hexValue? c).getD 0) 0, cs.drop digits.length)

/-- What a colon form ends with: a group, or a dotted form in place of two groups. -/
def takePart? (room : Nat) (cs : List Char) : Option (List Nat × List Char) :=
  match if room > 1 then Ipv4.take? cs else none with
  | some (⟨[a, b, c, d]⟩, rest) => some ([256 * a + b, 256 * c + d], rest)
  | _ => (takeGroup? cs).map fun (g, rest) => ([g], rest)

/-- At most `room` groups with colons between them. A dotted form is the last part. -/
def takeGroups (room : Nat) (first : Bool) (cs : List Char) : List Nat × Bool × List Char :=
  match room with
  | 0 => ([], false, cs)
  | room + 1 =>
    let start := if first then some cs else match cs with
      | ':' :: r => some r
      | _ => none
    match start.bind (takePart? (room + 1)) with
    | none => ([], false, cs)
    | some ([g], rest) =>
      let (gs, dotted, rest) := takeGroups room false rest
      (g :: gs, dotted, rest)
    | some (gs, rest) => (gs, true, rest)

/-- Eight groups, or fewer with one double colon that stands for at least one group of zeros. The
part before a double colon holds no dotted form. -/
def take? (cs : List Char) : Option (Ipv6 × List Char) :=
  let (front, dotted, rest) := takeGroups 8 true cs
  if front.length = 8 then some (⟨front⟩, rest)
  else if dotted then none
  else
    match rest with
    | ':' :: ':' :: rest =>
      let (back, _, rest) := takeGroups (7 - front.length) true rest
      some (⟨front ++ List.replicate (8 - front.length - back.length) 0 ++ back⟩, rest)
    | _ => none

def hexText (n : Nat) : String := String.ofList (Nat.toDigits 16 n)

def colons (groups : List Nat) : String := ":".intercalate (groups.map hexText)

/-- Where the longest run of zeros starts and how long it is; of runs of one length the first. -/
def longestZeros (groups : List Nat) : Nat × Nat :=
  (List.range 8).foldl (fun best i =>
    let run := ((groups.drop i).takeWhile (· == 0)).length
    if run > best.2 then (i, run) else best) (0, 0)

/-- Lower-case groups without leading zeros; the longest run of two or more zeros becomes a double
colon, and a mapped address ends in its dotted form. -/
def text (a : Ipv6) : String :=
  match a.groups with
  | [0, 0, 0, 0, 0, 0xFFFF, g, h] =>
    "::ffff:" ++ Ipv4.text ⟨[g / 256, g % 256, h / 256, h % 256]⟩
  | groups =>
    let (start, run) := longestZeros groups
    if run ≤ 1 then colons groups
    else colons (groups.take start) ++ "::" ++ colons (groups.drop (start + run))

end Ipv6

/-- An address with a port; the colon form may name a scope. -/
inductive SocketAddress where
  | v4 (address : Ipv4) (port : Nat)
  | v6 (address : Ipv6) (scope port : Nat)
  deriving DecidableEq, Repr

namespace SocketAddress

def readPort? (cs : List Char) : Option Nat :=
  match cs with
  | ':' :: r => (Number.readDigits? r).filter (· ≤ Number.maxU16)
  | _ => none

def readV4? (cs : List Char) : Option SocketAddress := do
  let (address, rest) ← Ipv4.take? cs
  let port ← readPort? rest
  some (.v4 address port)

/-- The number of a scope after a percent sign; without one the scope is zero. -/
def takeScope? (cs : List Char) : Option (Nat × List Char) :=
  match cs with
  | '%' :: r => do
    let n ← (Number.readDigits? (r.takeWhile Number.isDigit)).filter (· ≤ Number.maxU32)
    some (n, r.dropWhile Number.isDigit)
  | _ => some (0, cs)

def readV6? (cs : List Char) : Option SocketAddress :=
  match cs with
  | '[' :: r => do
    let (address, rest) ← Ipv6.take? r
    let (scope, rest) ← takeScope? rest
    match rest with
    | ']' :: rest => (readPort? rest).map fun port => .v6 address scope port
    | _ => none
  | _ => none

def read? (text : String) : Option SocketAddress :=
  (readV4? text.toList).orElse fun _ => readV6? text.toList

def text : SocketAddress → String
  | .v4 address port => address.text ++ ":" ++ Number.text port
  | .v6 address scope port =>
    let zone := if scope = 0 then "" else "%" ++ Number.text scope
    "[" ++ address.text ++ zone ++ "]:" ++ Number.text port

end SocketAddress
end MetricRelay
