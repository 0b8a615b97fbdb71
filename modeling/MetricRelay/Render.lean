import MetricRelay.Shape
/-!
The families that a metric of a service is written as: its values, and a companion that tells
whether they were scraped. Every sample starts with the identity of the service.
-/
namespace MetricRelay.Render

open Catalog (Metric)

def bucketLabel (bound : Float) : Label := ⟨"le", Number.valueText bound⟩

def rowSample (m : Metric) (identity : Identity) (row : Row) : Sample where
  name := m.name
  labels := identity.labels ++ (m.labels.zip row.labels).map fun (l, v) => ⟨l.name, v⟩
  value := row.value

def bucketSample (m : Metric) (identity : Identity) (le : Label) (count : Nat) : Sample where
  name := m.name ++ "_bucket"
  labels := identity.labels ++ [le]
  value := Float.ofNat count

def aggregateSamples (m : Metric) (identity : Identity) (a : Aggregate) : List Sample :=
  a.buckets.map (fun b => bucketSample m identity (bucketLabel b.bound) b.count)
    ++ [ bucketSample m identity ⟨"le", "+Inf"⟩ a.count,
      { name := m.name ++ "_sum", labels := identity.labels, value := a.sum },
      { name := m.name ++ "_count", labels := identity.labels, value := Float.ofNat a.count }]

def samples (m : Metric) (identity : Identity) : Shaped → List Sample
  | .scalar value => [{ name := m.name, labels := identity.labels, value }]
  | .vector rows => rows.map (rowSample m identity)
  | .histogram a => aggregateSamples m identity a

/-- The values of a metric. -/
def valueFamily (m : Metric) (identity : Identity) (value : Shaped) : Family where
  name := m.name
  help := some m.help
  kind := m.type.kind
  samples := samples m identity value

def upName (metric : String) : String := metric ++ "_up"

/-- Whether the metric was scraped: one sample, 1 or 0. -/
def upFamily (m : Metric) (identity : Identity) (up : Bool) : Family where
  name := upName m.name
  help := some s!"1 if {m.name} was scraped successfully, 0 otherwise"
  kind := .gauge
  samples := [{
    name := upName m.name
    labels := identity.labels
    value := if up then 1.0 else 0.0 }]

end MetricRelay.Render
