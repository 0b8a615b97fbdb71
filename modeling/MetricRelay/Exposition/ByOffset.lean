import MetricRelay.Exposition.Reader
import MetricRelay.Text.Offset
/-!
The exposition reader as it works on offsets and places: texts are cut where a search found a
character, and families are kept in a table and named by their places in it. A cut that is no cut, a
place that holds no family and a loop that does not get on break the reading off.
-/
namespace MetricRelay.Exposition.ByOffset

/-- A reading that may break off, and then has neither an answer nor a fault. -/
abbrev Attempt (ε α : Type) := ExceptT ε Option α

/-- A quoted value and the offset of the quote that closes it. -/
def closing? : List (Nat × Char) → Option (List Char × Nat)
  | [] => none
  | (offset, '"') :: _ => some ([], offset)
  | [(_, '\\')] => none
  | (_, '\\') :: (_, c) :: more =>
    (closing? more).map fun (v, offset) => ((if c = 'n' then '\n' else c) :: v, offset)
  | (_, c) :: more => (closing? more).map fun (v, offset) => (c :: v, offset)

/-- One label: a name, an equals sign and a quoted value. -/
def label (cs : List Char) : Attempt LineFault (Label × List Char) := do
  let some equals := Text.offsetOf? (· == '=') cs | throw .labelWithoutEquals
  let name := String.ofList (Text.trim (← Text.upTo? equals cs))
  let '"' :: quoted := Text.trimStart (← Text.startingAt? (equals + 1) cs)
    | throw (.labelNotQuoted name)
  let some (value, quote) := closing? (Text.withOffsets 0 quoted) | throw (.labelNotClosed name)
  return (⟨name, String.ofList value⟩, ← Text.startingAt? (quote + 1) quoted)

/-- What one pass over the text of labels comes to. -/
inductive Pass where
  | closed (rest : List Char)
  | found (label : Label) (rest : List Char)
  deriving DecidableEq, Repr

/-- The text that a pass leaves. -/
def Pass.rest : Pass → List Char
  | .closed rest | .found _ rest => rest

/-- After a label comes a comma, or the closing brace, which is left to the next pass. -/
def separated (label : Label) (cs : List Char) : Except LineFault Pass :=
  match Text.trimStart cs with
  | ',' :: rest => .ok (.found label rest)
  | '\x7d' :: rest => .ok (.found label ('\x7d' :: rest))
  | _ => .error .labelNotSeparated

/-- One pass: the closing brace, or a label and what separates it from the next one. -/
def pass (cs : List Char) : Attempt LineFault Pass := do
  match Text.trimStart cs with
  | '\x7d' :: rest => return .closed rest
  | cs =>
    let (label, rest) ← label cs
    liftExcept (separated label rest)

/-- All labels and what follows their closing brace, pass by pass. After a pass that leaves no
shorter text there might be passes for ever, so that one is the last. -/
def labels (cs : List Char) : Attempt LineFault (List Label × List Char) := do
  match ← pass cs with
  | .closed rest => return ([], rest)
  | .found label rest =>
    if Text.byteLength rest < Text.byteLength cs then
      let (more, rest) ← labels rest
      return (label :: more, rest)
    else ExceptT.mk none
  termination_by Text.byteLength cs

def sample (line : List Char) : Attempt LineFault Sample := do
  let some nameEnd := Text.offsetOf? isNameEnd line
    | throw (.sampleWithoutValue (String.ofList line))
  let name ← Text.upTo? nameEnd line
  if name.isEmpty then throw (.sampleWithoutName (String.ofList line))
  let rest ← Text.startingAt? nameEnd line
  if rest.head? = some '\x7b' then
    let (labels, rest) ← labels (← Text.startingAt? 1 rest)
    liftExcept (readFields (String.ofList name) labels rest)
  else liftExcept (readFields (String.ofList name) [] rest)

def line (raw : List Char) : Attempt LineFault Line := do
  match Text.trim raw with
  | [] => return .nothing
  | '#' :: comment => liftExcept (readComment comment)
  | said => return .sample (← sample said)

/-! ### Families by their places -/

/-- The families read so far, the places of their names, and the place that the last line belongs
to. -/
structure Table where
  families : List Family := []
  places : List (String × Nat) := []
  current : Option Nat := none

namespace Table

/-- The place of the family `name`, which is started at the end when there is none. -/
def place (t : Table) (name : String) : Nat × Table :=
  match t.places.lookup name with
  | some i => (i, t)
  | none => (t.families.length, { t with
      families := t.families ++ [{ name }]
      places := (name, t.families.length) :: t.places })

/-- Change the family at a place. -/
def update? (t : Table) (i : Nat) (f : Family → Family) : Option Table :=
  (t.families[i]?).map fun family =>
    { t with families := t.families.set i (f family), current := some i }

/-- The place that a sample goes to. -/
def home? (t : Table) (sample : String) : Option (Nat × Table) :=
  match t.current with
  | none => some (t.place sample)
  | some i =>
    (t.families[i]?).map fun family => if family.owns sample then (i, t) else t.place sample

def add? (t : Table) : Line → Option Table
  | .nothing => some t
  | .help name text =>
    let (i, t) := t.place name
    t.update? i fun f => { f with help := some text }
  | .kind name kind =>
    let (i, t) := t.place name
    t.update? i fun f => { f with kind }
  | .sample s => do
    let (i, t) ← t.home? s.name
    t.update? i fun f => { f with samples := f.samples ++ [s] }

end Table

def lines (n : Nat) (t : Table) : List (List Char) → Attempt Fault Table
  | [] => return t
  | l :: ls => do
    let said ← (line l).adapt (⟨n, ·⟩)
    lines (n + 1) (← t.add? said) ls

/-! ### Bodies -/

/-- The first bytes, as many as the body has to have. -/
def firstBytes? (count : Nat) (body : Text.Bytes) : Option Text.Bytes :=
  if count ≤ body.length then some (body.take count) else none

def fail {α : Type} (reason : String) (body : Text.Bytes) : Attempt DecodeError α := do
  let kept ← firstBytes? (min body.length DecodeError.previewLength) body
  throw ⟨.prometheus, reason, String.ofList (Text.Utf8.decodeLossy kept)⟩

/-- The families of a body. -/
def read (body : Text.Bytes) : Attempt DecodeError (List Family) :=
  match Text.Utf8.decode body with
  | .error fault => fail fault.message body
  | .ok text => do
    match ← (lines 1 {} (Text.lines text)).run with
    | .error fault => fail fault.message body
    | .ok t => return t.families

end MetricRelay.Exposition.ByOffset
