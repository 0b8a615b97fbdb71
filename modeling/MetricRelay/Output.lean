import MetricRelay.Exposition.Family
import MetricRelay.Keyed
/-!
The families of a scrape in order of their names. Families of one name become one: the first gives
help and kind, all give their samples.
-/
namespace MetricRelay

structure Output where
  byName : List (String × Family) := []

namespace Output

def add (out : Output) (family : Family) : Output :=
  ⟨Keyed.adjust family.name
    (fun
      | none => family
      | some first => { first with samples := first.samples ++ family.samples })
    out.byName⟩

def extend (out : Output) (families : List Family) : Output := families.foldl add out

def families (out : Output) : List Family := out.byName.map (·.2)

end Output
end MetricRelay
