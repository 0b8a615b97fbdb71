/-!
UTF-8 read strictly and leniently. `decode` accepts exactly well-formed text and otherwise names the
first bad place; `decodeLossy` puts one replacement character for each maximal invalid part.
-/
namespace MetricRelay.Text

abbrev Bytes := List UInt8

namespace Utf8

/-- What the first bytes of a text hold. -/
inductive Head where
  | char (c : Char) (rest : Bytes)
  /-- The first `length` bytes start no character; a character may start after them. -/
  | invalid (length : Nat) (rest : Bytes)
  /-- The text ends inside a character. -/
  | cut

def isTail (b : UInt8) : Bool := 0x80 ≤ b && b ≤ 0xBF

def payload (b : UInt8) : Nat := (b &&& 0x3F).toNat

/-- The bounds of the second byte after the lead `b` of a character of three or four bytes: they
shut out overlong forms, surrogates and numbers beyond the last code point. -/
def secondBounds (b : UInt8) : UInt8 × UInt8 :=
  if b == 0xE0 then (0xA0, 0xBF)
  else if b == 0xED then (0x80, 0x9F)
  else if b == 0xF0 then (0x90, 0xBF)
  else if b == 0xF4 then (0x80, 0x8F)
  else (0x80, 0xBF)

def isSecond (lead b : UInt8) : Bool := (secondBounds lead).1 ≤ b && b ≤ (secondBounds lead).2

def head (b : UInt8) (rest : Bytes) : Head :=
  if b < 0x80 then .char (Char.ofNat b.toNat) rest
  else if 0xC2 ≤ b && b ≤ 0xDF then
    match rest with
    | [] => .cut
    | b₁ :: r =>
      if isTail b₁ then .char (Char.ofNat ((b &&& 0x1F).toNat * 64 + payload b₁)) r
      else .invalid 1 rest
  else if 0xE0 ≤ b && b ≤ 0xEF then
    match rest with
    | [] => .cut
    | b₁ :: r₁ =>
      if isSecond b b₁ then
        match r₁ with
        | [] => .cut
        | b₂ :: r =>
          if isTail b₂ then
            .char (Char.ofNat (((b &&& 0x0F).toNat * 64 + payload b₁) * 64 + payload b₂)) r
          else .invalid 2 r₁
      else .invalid 1 rest
  else if 0xF0 ≤ b && b ≤ 0xF4 then
    match rest with
    | [] => .cut
    | b₁ :: r₁ =>
      if isSecond b b₁ then
        match r₁ with
        | [] => .cut
        | b₂ :: r₂ =>
          if isTail b₂ then
            match r₂ with
            | [] => .cut
            | b₃ :: r =>
              if isTail b₃ then
                .char (Char.ofNat ((((b &&& 0x07).toNat * 64 + payload b₁) * 64 + payload b₂) * 64
                  + payload b₃)) r
              else .invalid 3 r₂
          else .invalid 2 r₁
      else .invalid 1 rest
  else .invalid 1 rest

/-- The bytes after the head. -/
def Head.rest : Head → Bytes
  | .char _ r | .invalid _ r => r
  | .cut => []

theorem length_rest_head_le (b : UInt8) (rest : Bytes) :
    (head b rest).rest.length ≤ rest.length := by
  unfold head
  split
  · simp [Head.rest]
  split
  · split <;> try split
    all_goals simp [Head.rest]
  split
  · split <;> try split
    all_goals try split
    all_goals try split
    all_goals simp [Head.rest]
    all_goals omega
  split
  · split <;> try split
    all_goals try split
    all_goals try split
    all_goals try split
    all_goals try split
    all_goals simp [Head.rest]
    all_goals omega
  · simp [Head.rest]

/-- Where a text stops being UTF-8. -/
inductive Fault where
  | invalid (length index : Nat)
  | incomplete (index : Nat)
  deriving DecidableEq, Repr

def Fault.message : Fault → String
  | .invalid n i => s!"invalid utf-8 sequence of {n} bytes from index {i}"
  | .incomplete i => s!"incomplete utf-8 byte sequence from index {i}"

def decodeFrom (index : Nat) : Bytes → Except Fault (List Char)
  | [] => .ok []
  | b :: bs =>
    match h : head b bs with
    | .char c rest =>
      have : rest.length < (b :: bs).length := by
        have := length_rest_head_le b bs
        simp only [h, Head.rest] at this
        simp only [List.length_cons]; omega
      (decodeFrom (index + c.utf8Size) rest).map (c :: ·)
    | .invalid n _ => .error (.invalid n index)
    | .cut => .error (.incomplete index)
  termination_by bs => bs.length
  decreasing_by all_goals assumption

def decode (bs : Bytes) : Except Fault (List Char) := decodeFrom 0 bs

def replacement : Char := '\uFFFD'

def decodeLossy : Bytes → List Char
  | [] => []
  | b :: bs =>
    match h : head b bs with
    | .char c rest =>
      have : rest.length < (b :: bs).length := by
        have := length_rest_head_le b bs
        simp only [h, Head.rest] at this
        simp only [List.length_cons]; omega
      c :: decodeLossy rest
    | .invalid _ rest =>
      have : rest.length < (b :: bs).length := by
        have := length_rest_head_le b bs
        simp only [h, Head.rest] at this
        simp only [List.length_cons]; omega
      replacement :: decodeLossy rest
    | .cut => [replacement]
  termination_by bs => bs.length
  decreasing_by all_goals assumption

def encode (s : String) : Bytes := s.toUTF8.toList

end Utf8
end MetricRelay.Text
