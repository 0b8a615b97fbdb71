import MetricRelay.Address
import MetricRelay.Text.Blank
import MetricRelay.Text.Utf8
import MetricRelay.Url
import MetricRelay.Url.Punycode
/-!
Whether a web location names a host that can be asked. Only the part from the scheme to the port is
looked at; the first thing wrong in it is the reason.
-/
namespace MetricRelay.Url

/-- Why a location names no host. -/
inductive HostFault where
  | empty
  | badName
  | badIpv4
  | badIpv6
  | badPort
  deriving DecidableEq, Repr

def HostFault.message : HostFault → String
  | .empty => "empty host"
  | .badName => "invalid international domain name"
  | .badIpv4 => "invalid IPv4 address"
  | .badIpv6 => "invalid IPv6 address"
  | .badPort => "invalid port number"

/-- The characters that end the host and its port. -/
def endsAuthority (c : Char) : Bool := c == '/' || c == '\\' || c == '?' || c == '#'

/-- Everything after the last `@` before the path, or the whole text when there is none. -/
def afterUser (cs : List Char) : List Char :=
  let authority := cs.takeWhile (!endsAuthority ·)
  (authority.reverse.takeWhile (· != '@')).reverse ++ cs.dropWhile (!endsAuthority ·)

/-- Cut before the colon, outside brackets, or the path that ends the host. -/
def splitHost : Bool → List Char → List Char × List Char
  | _, [] => ([], [])
  | inBrackets, c :: cs =>
    if (c = ':' && !inBrackets) || endsAuthority c then ([], c :: cs)
    else
      let inside := if c = '[' then true else if c = ']' then false else inBrackets
      let (host, rest) := splitHost inside cs
      (c :: host, rest)

/-- The byte that two hexadecimal digits stand for. -/
def hexByte? (h l : UInt8) : Option UInt8 := do
  let high ← Json.hexValue? (Char.ofNat h.toNat)
  let low ← Json.hexValue? (Char.ofNat l.toNat)
  some (UInt8.ofNat (16 * high + low))

/-- Percent signs with two hexadecimal digits become bytes; all other bytes stay. -/
def percentDecode : Text.Bytes → Text.Bytes
  | 0x25 :: h :: l :: rest =>
    match hexByte? h l with
    | some b => b :: percentDecode rest
    | none => 0x25 :: percentDecode (h :: l :: rest)
  | b :: rest => b :: percentDecode rest
  | [] => []

/-- The ASCII characters that no host name has. -/
def isForbidden (c : Char) : Bool :=
  c.toNat ≤ 0x20 || c.toNat == 0x7F || "%#/:<>?@[\\]^|".toList.contains c

/-- Characters that leave no trace in a name: the soft hyphen, spaces without width and variation
selectors. -/
def isIgnored (c : Char) : Bool :=
  let n := c.toNat
  n == 0xAD || n == 0x34F || n == 0x200B || n == 0x2060 || n == 0xFEFF
    || (0x180B ≤ n && n ≤ 0x180F) || (0xFE00 ≤ n && n ≤ 0xFE0F)

/-- The plain form of a character of a name: lower case, full-width forms narrow, every kind of full
stop the ASCII one. -/
def fold (c : Char) : Char :=
  let n := c.toNat
  if n = 0x3002 ∨ n = 0xFF61 then '.'
  else if 0xFF01 ≤ n ∧ n ≤ 0xFF5E then (Char.ofNat (n - 0xFEE0)).toLower
  else c.toLower

/-- Beyond ASCII: controls, blanks, format characters, private and unassigned planes. -/
def isUnnameable (c : Char) : Bool :=
  let n := c.toNat
  (0x80 ≤ n && n ≤ 0x9F) || n == 0x1680 || (0x200C ≤ n && n ≤ 0x200F) || n == 0x2028 || n == 0x2029
    || (0x202A ≤ n && n ≤ 0x202E) || (0xE000 ≤ n && n ≤ 0xF8FF) || (0xFFF9 ≤ n && n ≤ 0xFFFF)
    || n > 0xE0000

/-- A character that a name cannot hold in its plain form. -/
def isRefused (c : Char) : Bool := isForbidden c || isUnnameable c || Text.isBlank c

/-- Marks that go onto the character before them. -/
def isMark (c : Char) : Bool := 0x300 ≤ c.toNat && c.toNat ≤ 0x36F

/-- One part of a name between the full stops: it does not start with a mark, and after `xn--` it
spells another name with at least one character beyond ASCII, in its plain form. -/
def isLabel (label : List Char) : Bool :=
  !label.head?.any isMark &&
    match label with
    | 'x' :: 'n' :: '-' :: '-' :: rest =>
      match Punycode.decode? rest with
      | none => false
      | some spelled =>
        spelled.any (0x7F < ·.toNat) && !spelled.head?.any isMark
          && spelled.all fun c => !isRefused c && !isIgnored c && fold c == c
    | _ => true

/-- A name in its plain form, if it is one. Blanks beyond ASCII fold to the space, which no name
has. -/
def plainName? (bytes : Text.Bytes) : Option (List Char) :=
  match Text.Utf8.decode (percentDecode bytes) with
  | .error _ => none
  | .ok cs =>
    let name := (cs.filter (!isIgnored ·)).map fold
    if name.any isRefused || !(Text.splitOn '.' name).all isLabel then none else some name

/-- A number in one part of a dotted address: hexadecimal after `0x`, octal after another leading
zero. A part of the prefix alone is zero. -/
def readPart? (cs : List Char) : Option Nat :=
  let digits (radix : Nat) (cs : List Char) : Option Nat :=
    cs.foldlM (fun n c => ((Json.hexValue? c).filter (· < radix)).map fun d => radix * n + d) 0
  match cs with
  | [] => none
  | '0' :: 'x' :: r | '0' :: 'X' :: r => digits 16 r
  | ['0'] => some 0
  | '0' :: r => digits 8 r
  | _ => digits 10 cs

/-- The parts between the points; an empty last one does not count. -/
def parts (name : List Char) : List (List Char) :=
  let all := Text.splitOn '.' name
  if all.length > 1 ∧ all.getLast? = some [] then all.dropLast else all

/-- A name whose last part is a number stands for a dotted address. -/
def endsInNumber (name : List Char) : Bool :=
  match (parts name).getLast? with
  | none => false
  | some last =>
    (!last.isEmpty && last.all Number.isDigit) ||
      (match last with
      | '0' :: 'x' :: _ | '0' :: 'X' :: _ => (readPart? last).isSome
      | _ => false)

/-- One to four numbers: all but the last are bytes, the last fills what is left. -/
def isIpv4 (name : List Char) : Bool :=
  let ps := parts name
  match ps.mapM readPart? with
  | none => false
  | some ns =>
    match ns.getLast? with
    | none => false
    | some last => ns.length ≤ 4 && ns.dropLast.all (· ≤ 255) && last < Nat.pow 256 (5 - ns.length)

def checkHost (host : List Char) : Except HostFault Unit :=
  match host with
  | [] => .error .empty
  | '[' :: inner =>
    if inner.getLast? ≠ some ']' then .error .badIpv6
    else
      match Ipv6.take? inner.dropLast with
      | some (_, []) => .ok ()
      | _ => .error .badIpv6
  | _ =>
    match plainName? (Text.Utf8.encode (String.ofList host)) with
    | none => .error .badName
    | some [] => .error .empty
    | some name => if endsInNumber name && !isIpv4 name then .error .badIpv4 else .ok ()

/-- After the host: nothing, the path, or a colon and at most a port of 16 bits. -/
def checkPort (cs : List Char) : Except HostFault Unit :=
  match cs with
  | ':' :: r =>
    let digits := r.takeWhile Number.isDigit
    let ends := match r.dropWhile Number.isDigit with
      | [] => true
      | c :: _ => endsAuthority c
    if ends && Number.ofDigits 0 digits ≤ Number.maxU16 then .ok () else .error .badPort
  | _ => .ok ()

/-- Tabs and line ends count nowhere in a location. -/
def isSkipped (c : Char) : Bool := c == '\t' || c == '\n' || c == '\r'

/-- The host and the port of a location that starts with a web scheme and two slashes. -/
def checkLocation (url : String) : Except HostFault Unit := do
  let cs := url.toList.filter (!isSkipped ·)
  let rest := ((cs.dropWhile (· != ':')).drop 1).dropWhile fun c => c == '/' || c == '\\'
  let (host, rest) := splitHost false (afterUser rest)
  checkHost host
  checkPort rest

/-- A location can be asked if it names a host. -/
def hosted : Check := fun url => (checkLocation url).mapError HostFault.message

end MetricRelay.Url
