import MetricRelay.Json.Value
import MetricRelay.Keyed
import MetricRelay.Text.Lines
/-!
Decoded documents and the descent of slash-separated paths in them. The keys of a map are distinct
and stand in order. A path without segments names the whole document.
-/
namespace MetricRelay

inductive Node where
  | null
  | bool (b : Bool)
  | number (x : Float)
  | string (s : String)
  | sequence (items : List Node)
  | map (entries : List (String × Node))

inductive PathError where
  | notFound (path segment : String)
  | typeMismatch (path expected found : String)
  deriving DecidableEq, Repr

def PathError.message : PathError → String
  | .notFound path segment => s!"path '{path}' not found (missing segment '{segment}')"
  | .typeMismatch path expected found => s!"path '{path}' expected {expected}, found {found}"

namespace Node

def kind : Node → String
  | .null => "null"
  | .bool _ => "bool"
  | .number _ => "number"
  | .string _ => "string"
  | .sequence _ => "sequence"
  | .map _ => "map"

mutual

/-- A JSON value as a document; of repeated keys the last one counts. -/
def ofJson : Json → Node
  | .null => .null
  | .bool b => .bool b
  | .number n => .number n.toFloat
  | .string s => .string s
  | .array items => .sequence (ofItems items)
  | .object members => .map (Keyed.ofList (ofMembers members))

def ofItems : List Json → List Node
  | [] => []
  | j :: js => ofJson j :: ofItems js

def ofMembers : List (String × Json) → List (String × Node)
  | [] => []
  | (k, j) :: js => (k, ofJson j) :: ofMembers js

end

/-- The non-empty parts of a path between its slashes. -/
def segments (path : String) : List String :=
  ((Text.splitOn '/' path.toList).filter (!·.isEmpty)).map String.ofList

/-- The largest index that a segment can spell. -/
def maxIndex : Nat := Number.maxU64

/-- One step down: a key of a map, or a position in a sequence. -/
def child (path : String) (node : Node) (segment : String) : Except PathError Node :=
  match node with
  | .map entries =>
    match Keyed.get? segment entries with
    | some child => .ok child
    | none => .error (.notFound path segment)
  | .sequence items =>
    match Number.readUnsigned? maxIndex segment.toList with
    | none => .error (.typeMismatch path "map" "sequence")
    | some i =>
      match items[i]? with
      | some item => .ok item
      | none => .error (.notFound path segment)
  | leaf => .error (.typeMismatch path "container" leaf.kind)

/-- Descend the segments of `path` one at a time. -/
def lookup (node : Node) (path : String) : Except PathError Node :=
  (segments path).foldlM (child path) node

/-- The number of a leaf; booleans count as 1 and 0. -/
def number? (path : String) : Node → Except PathError Float
  | .number x => .ok x
  | .bool b => .ok (if b then 1.0 else 0.0)
  | node => .error (.typeMismatch path "number" node.kind)

def string? (path : String) : Node → Except PathError String
  | .string s => .ok s
  | node => .error (.typeMismatch path "string" node.kind)

def sequence? (path : String) : Node → Except PathError (List Node)
  | .sequence items => .ok items
  | node => .error (.typeMismatch path "sequence" node.kind)

end Node
end MetricRelay
