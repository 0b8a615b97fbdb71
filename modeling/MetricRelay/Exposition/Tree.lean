import MetricRelay.Exposition.Reader
/-!
Families as a document, so that paths can descend in them:
`/<family>/type`, `/<family>/help`, `/<family>/samples/<i>/name`, `…/value`, `…/labels/<label>`.
Of repeated labels the last one counts.
-/
namespace MetricRelay

namespace Exposition

def sampleNode (s : Sample) : Node :=
  .map [
    ("labels", .map (Keyed.ofList (s.labels.map fun l => (l.name, .string l.value)))),
    ("name", .string s.name),
    ("value", .number s.value)]

def familyNode (f : Family) : Node :=
  let help := match f.help with
    | none => []
    | some help => [("help", Node.string help)]
  .map (help ++ [
    ("samples", .sequence (f.samples.map sampleNode)),
    ("type", .string f.kind.text)])

def tree (families : List Family) : Node :=
  .map (Keyed.ofList (families.map fun f => (f.name, familyNode f)))

end Exposition

/-- Read a body as a document. -/
def Dialect.decode (dialect : Dialect) (body : Text.Bytes) : Except DecodeError Node :=
  match dialect with
  | .json => Node.ofJsonBody body
  | .prometheus => (Exposition.read body).map Exposition.tree

end MetricRelay
