import MetricRelay.Document
import MetricRelay.Exposition.Line
/-!
Whole bodies of the exposition format. Families stand in order of first appearance and have distinct
names. A sample goes to the family that the line before belongs to if that family owns it, otherwise
to the family of its own name.
-/
namespace MetricRelay.Exposition

/-- Change the family `name`, started at the end when there is none. -/
def withFamily (name : String) (f : Family → Family) : List Family → List Family
  | [] => [f { name }]
  | g :: rest => if g.name = name then f g :: rest else g :: withFamily name f rest

/-- The families read so far and the name of the one that the last line belongs to. -/
structure Reading where
  families : List Family := []
  current : Option String := none

namespace Reading

/-- The name of the family that a sample goes to. -/
def home (r : Reading) (sample : String) : String :=
  match r.current with
  | none => sample
  | some name => if Family.owns { name } sample then name else sample

def update (r : Reading) (name : String) (f : Family → Family) : Reading :=
  ⟨withFamily name f r.families, some name⟩

def add (r : Reading) : Line → Reading
  | .nothing => r
  | .help name text => r.update name fun f => { f with help := some text }
  | .kind name kind => r.update name fun f => { f with kind }
  | .sample s => r.update (r.home s.name) fun f => { f with samples := f.samples ++ [s] }

end Reading

/-- A bad line and its number, from one. -/
structure Fault where
  line : Nat
  fault : LineFault
  deriving DecidableEq, Repr

def Fault.message (f : Fault) : String := s!"line {Number.text f.line}: {f.fault.message}"

/-- Read the lines from number `n` on; the first bad one ends the reading. -/
def readLines (n : Nat) (r : Reading) : List (List Char) → Except Fault Reading
  | [] => .ok r
  | l :: ls =>
    match readLine l with
    | .error fault => .error ⟨n, fault⟩
    | .ok line => readLines (n + 1) (r.add line) ls

def readText (text : List Char) : Except Fault (List Family) :=
  (readLines 1 {} (Text.lines text)).map (·.families)

/-- The families of a body. -/
def read (body : Text.Bytes) : Except DecodeError (List Family) :=
  let failed (reason : String) := Except.error (DecodeError.ofBody .prometheus reason body)
  match Text.Utf8.decode body with
  | .error fault => failed fault.message
  | .ok text =>
    match readText text with
    | .error fault => failed fault.message
    | .ok families => .ok families

end MetricRelay.Exposition
