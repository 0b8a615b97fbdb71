import MetricRelay.Number.Digits
/-!
Names written in ASCII letters, digits and hyphens that stand for characters beyond ASCII. What
stands before the last hyphen is plain; the rest spells where further characters go, in ascending
order, by differences in digits of base 36 whose weights adapt to what has been read.
-/
namespace MetricRelay.Url.Punycode

def digitValue? (c : Char) : Option Nat :=
  if 'a' ≤ c && c ≤ 'z' then some (c.toNat - 'a'.toNat)
  else if Number.isDigit c then some (26 + Number.digitValue c)
  else none

/-- Up to which value a digit at place `k` is the last one of its number. -/
def threshold (k bias : Nat) : Nat := min 26 (max 1 (k - bias))

/-- A number from `i` on whose next digit has weight `w` and place `k`. -/
def takeDelta? (bias : Nat) (i w k : Nat) : List Char → Option (Nat × List Char)
  | [] => none
  | c :: cs =>
    match digitValue? c with
    | none => none
    | some d =>
      let t := threshold k bias
      if d < t then some (i + d * w, cs)
      else takeDelta? bias (i + d * w) (w * (36 - t)) (k + 36) cs

theorem length_of_takeDelta? {bias i w k n : Nat} {cs rest : List Char}
    (h : takeDelta? bias i w k cs = some (n, rest)) : rest.length < cs.length := by
  induction cs generalizing i w k with
  | nil => simp [takeDelta?] at h
  | cons c cs ih =>
    unfold takeDelta? at h
    split at h
    · simp at h
    · dsimp only at h
      split at h
      · simp only [Option.some.injEq, Prod.mk.injEq] at h
        obtain ⟨-, rfl⟩ := h
        simp
      · have := ih h
        simp only [List.length_cons]
        omega

def shrink (k delta : Nat) : Nat :=
  if h : 455 < delta then shrink (k + 36) (delta / 35) else k + 36 * delta / (delta + 38)
  termination_by delta
  decreasing_by exact Nat.div_lt_self (by omega) (by omega)

/-- The bias after a difference, when there are `count` characters. -/
def adapt (delta count : Nat) (first : Bool) : Nat :=
  let delta := if first then delta / 700 else delta / 2
  shrink 0 (delta + delta / count)

/-- The number of a character that there is, surrogates left out. -/
def isScalar (n : Nat) : Bool := n < 0xD800 || (0xDFFF < n && n < 0x110000)

/-- Insert character after character into `out`. -/
def insertAll? (bias i n : Nat) (out : List Char) (cs : List Char) : Option (List Char) :=
  match cs with
  | [] => some out
  | c :: cs =>
    match h : takeDelta? bias i 1 36 (c :: cs) with
    | none => none
    | some (next, rest) =>
      have : rest.length < (c :: cs).length := length_of_takeDelta? h
      let count := out.length + 1
      let code := n + next / count
      let place := next % count
      if isScalar code then
        insertAll? (adapt (next - i) count (i == 0)) (place + 1) code
          (out.take place ++ Char.ofNat code :: out.drop place) rest
      else none
  termination_by cs.length
  decreasing_by assumption

/-- The characters that a name stands for. -/
def decode? (name : List Char) : Option (List Char) :=
  let spelled := (name.reverse.takeWhile (· != '-')).reverse
  insertAll? 72 0 128 (name.take (name.length - spelled.length - 1)) spelled

end MetricRelay.Url.Punycode
