import MetricRelay.Exposition.Reader
import MetricRelay.SelfMetrics
/-!
Forwarded bodies. Every sample is stamped with the identity of the service it came from; a label
that already has such a name is kept under `exported_<name>`, and so is a family with the name of
one of the exporter's own gauges.
-/
namespace MetricRelay

def exportedName (name : String) : String := "exported_" ++ name

namespace Exposition

/-- Put `label` on a sample, as its only label of that name. -/
def stamp (s : Sample) (label : Label) : Sample :=
  let kept := s.labels.map fun l =>
    if l.name = label.name then { l with name := exportedName l.name } else l
  { s with labels := kept ++ [label] }

/-- Put the labels on every sample, one after the other. -/
def stampAll (labels : List Label) (families : List Family) : List Family :=
  families.map fun f => { f with samples := f.samples.map fun s => labels.foldl stamp s }

/-- The name of a sample after its family moved; a name that does not start with that of the family
stays. -/
def movedName (family sample : String) : String :=
  if family.toList.isPrefixOf sample.toList then
    exportedName family ++ String.ofList (sample.toList.drop family.length)
  else sample

/-- Move a family out of the way of the exporter's own gauges. -/
def moveReserved (f : Family) : Family :=
  if SelfMetrics.reservedNames.contains f.name then
    { f with
      name := exportedName f.name
      samples := f.samples.map fun s => { s with name := movedName f.name s.name } }
  else f

end Exposition

/-- The identity that every sample of a service carries. -/
structure Identity where
  job : String
  hostPort : String
  deriving DecidableEq, Repr

def Identity.labels (i : Identity) : List Label := [⟨"job", i.job⟩, ⟨"instance", i.hostPort⟩]

open Exposition in
/-- Read a forwarded body and stamp it with the identity of its service. -/
def relabel (identity : Identity) (body : Text.Bytes) : Except DecodeError (List Family) :=
  (read body).map fun families => stampAll identity.labels (families.map moveReserved)

end MetricRelay
