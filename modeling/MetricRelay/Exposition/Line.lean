import MetricRelay.Exposition.Family
import MetricRelay.Text.Blank
import MetricRelay.Text.Lines
/-!
The lines of the exposition format, one at a time: comments that describe a family, and samples. A
line comes in trimmed. Every reader returns what it has not used, and that rest is shorter.
-/
namespace MetricRelay.Exposition

open Text (isBlank trim trimStart)

/-- What is wrong with a line. -/
inductive LineFault where
  | commentWithoutName (keyword : String)
  | sampleWithoutValue (line : String)
  | sampleWithoutName (line : String)
  | labelWithoutEquals
  | labelNotQuoted (label : String)
  | labelNotClosed (label : String)
  | labelNotSeparated
  | valueMissing (sample : String)
  | valueInvalid (text : String)
  | timestampInvalid (text : String)
  deriving DecidableEq, Repr

def LineFault.message : LineFault → String
  | .commentWithoutName keyword => s!"{keyword} without metric name"
  | .sampleWithoutValue line => s!"sample without value: '{line}'"
  | .sampleWithoutName line => s!"sample without name: '{line}'"
  | .labelWithoutEquals => "label without '='"
  | .labelNotQuoted label => s!"label '{label}' value is not quoted"
  | .labelNotClosed label => s!"unterminated value for label '{label}'"
  | .labelNotSeparated => "expected ',' or '\x7d' after label value"
  | .valueMissing sample => s!"sample '{sample}' has no value"
  | .valueInvalid text => s!"invalid sample value '{text}'"
  | .timestampInvalid text => s!"invalid timestamp '{text}'"

/-- The characters of a quoted value up to its closing quote, and what follows the quote. A
backslash stands for the character after it, `\n` for a line feed. -/
def takeQuoted? : List Char → Option (List Char × List Char)
  | [] => none
  | '"' :: cs => some ([], cs)
  | ['\\'] => none
  | '\\' :: c :: cs =>
    (takeQuoted? cs).map fun (v, rest) => ((if c = 'n' then '\n' else c) :: v, rest)
  | c :: cs => (takeQuoted? cs).map fun (v, rest) => (c :: v, rest)

theorem length_of_takeQuoted? {cs v rest : List Char} (h : takeQuoted? cs = some (v, rest)) :
    rest.length < cs.length := by
  fun_induction takeQuoted? cs generalizing v rest with
  | case1 => simp at h
  | case2 cs => simp_all
  | case3 => simp at h
  | case4 c cs ih =>
    simp only [Option.map_eq_some_iff, Prod.mk.injEq, Prod.exists] at h
    obtain ⟨v', rest', h', -, rfl⟩ := h
    have := ih h'
    simp only [List.length_cons]; omega
  | case5 c cs _ _ _ ih =>
    simp only [Option.map_eq_some_iff, Prod.mk.injEq, Prod.exists] at h
    obtain ⟨v', rest', h', -, rfl⟩ := h
    have := ih h'
    simp only [List.length_cons]; omega

/-- One label: a name, an equals sign and a quoted value. -/
def takeLabel (cs : List Char) : Except LineFault (Label × List Char) :=
  match Text.cutAt? '=' cs with
  | none => .error .labelWithoutEquals
  | some (name, rest) =>
    let name := String.ofList (trim name)
    match trimStart rest with
    | '"' :: r =>
      match takeQuoted? r with
      | some (value, rest) => .ok (⟨name, String.ofList value⟩, rest)
      | none => .error (.labelNotClosed name)
    | _ => .error (.labelNotQuoted name)

theorem length_of_takeLabel {cs rest : List Char} {label : Label}
    (h : takeLabel cs = .ok (label, rest)) : rest.length < cs.length := by
  unfold takeLabel at h
  split at h
  · simp at h
  · next name tail hcut =>
    have hlen := Text.length_of_cutAt? hcut
    have htrim := Text.length_trimStart_le tail
    dsimp only at h
    split at h
    · next r hr =>
      rw [hr] at htrim
      split at h
      · next value rest' hq =>
        have := length_of_takeQuoted? hq
        simp only [Except.ok.injEq, Prod.mk.injEq] at h
        obtain ⟨-, rfl⟩ := h
        simp only [List.length_cons] at htrim
        omega
      · simp at h
    · simp at h

/-- The labels up to the closing brace, and what follows it. A comma stands between two labels and
may follow the last one. -/
def takeLabels (cs : List Char) : Except LineFault (List Label × List Char) :=
  match trimStart cs with
  | '\x7d' :: rest => .ok ([], rest)
  | _ =>
    match h : takeLabel (trimStart cs) with
    | .error fault => .error fault
    | .ok (label, rest) =>
      match h' : trimStart rest with
      | ',' :: r =>
        have : r.length < cs.length := by
          have h₁ := length_of_takeLabel h
          have h₂ := Text.length_trimStart_le cs
          have h₃ := Text.length_trimStart_le rest
          rw [h'] at h₃
          simp only [List.length_cons] at h₃
          omega
        (takeLabels r).map fun (labels, t) => (label :: labels, t)
      | '\x7d' :: r => .ok ([label], r)
      | _ => .error .labelNotSeparated
  termination_by cs.length

def isNameEnd (c : Char) : Bool := c == '\x7b' || isBlank c

/-- The value and the optional timestamp after a sample's name and labels. Further fields are not
looked at. -/
def readFields (name : String) (labels : List Label) (cs : List Char) :
    Except LineFault Sample :=
  match Text.words cs with
  | [] => .error (.valueMissing name)
  | value :: more =>
    match Number.read? value with
    | none => .error (.valueInvalid (String.ofList value))
    | some x =>
      match more with
      | [] => .ok ⟨name, labels, x, none⟩
      | time :: _ =>
        match Number.readSigned? time with
        | none => .error (.timestampInvalid (String.ofList time))
        | some t => .ok ⟨name, labels, x, some t⟩

/-- A sample: a name, labels in braces, a value and a timestamp. -/
def readSample (line : List Char) : Except LineFault Sample :=
  let name := line.takeWhile (!isNameEnd ·)
  let rest := line.dropWhile (!isNameEnd ·)
  match rest with
  | [] => .error (.sampleWithoutValue (String.ofList line))
  | c :: r =>
    if name.isEmpty then .error (.sampleWithoutName (String.ofList line))
    else if c = '\x7b' then
      match takeLabels r with
      | .error fault => .error fault
      | .ok (labels, rest) => readFields (String.ofList name) labels rest
    else readFields (String.ofList name) [] rest

/-- A help text as written: a backslash stands for the character after it, `\n` for a line feed, and
a backslash at the end for itself. -/
def unescapeHelp : List Char → List Char
  | [] => []
  | ['\\'] => ['\\']
  | '\\' :: c :: cs => (if c = 'n' then '\n' else c) :: unescapeHelp cs
  | c :: cs => c :: unescapeHelp cs

/-- What a line says. -/
inductive Line where
  | nothing
  | help (name text : String)
  | kind (name : String) (kind : MetricKind)
  | sample (sample : Sample)

/-- A comment after its `#`. Only `HELP` and `TYPE` say something; a single blank ends the keyword
and the name. -/
def readComment (cs : List Char) : Except LineFault Line :=
  let (keyword, rest) := Text.word (trimStart cs)
  let keyword := String.ofList keyword
  if keyword = "HELP" ∨ keyword = "TYPE" then
    let (name, rest) := Text.word (rest.drop 1)
    if name.isEmpty then .error (.commentWithoutName keyword)
    else
      let name := String.ofList name
      let text := trim (rest.drop 1)
      if keyword = "HELP" then .ok (.help name (String.ofList (unescapeHelp text)))
      else .ok (.kind name (MetricKind.ofText (String.ofList text)))
  else .ok .nothing

def readLine (raw : List Char) : Except LineFault Line :=
  match trim raw with
  | [] => .ok .nothing
  | '#' :: cs => readComment cs
  | line => (readSample line).map .sample

end MetricRelay.Exposition
