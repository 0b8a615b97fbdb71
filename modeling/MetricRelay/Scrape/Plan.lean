import MetricRelay.Catalog
/-!
What a scrape does: one task for each metric that an api resource feeds, and one for each forwarder.
-/
namespace MetricRelay

inductive ScrapeTask where
  | metric (service : ServiceId) (resource : ResourceId) (metric : MetricId)
  | forward (service : ServiceId) (resource : ResourceId)
  deriving DecidableEq, Repr

namespace ScrapeTask

def service : ScrapeTask → ServiceId
  | .metric service _ _ | .forward service _ => service

def resource : ScrapeTask → ResourceId
  | .metric _ resource _ | .forward _ resource => resource

end ScrapeTask

namespace Catalog

def tasksOf (service : ServiceId) (r : Resource) : List ScrapeTask :=
  match r.kind with
  | .forwarder => [.forward service r.id]
  | .api => r.metrics.map (.metric service r.id ·)

/-- The tasks of a scrape, service by service in the order of the configuration. -/
def plan (c : Catalog) : List ScrapeTask :=
  c.services.flatMap fun s => (s.resources.filterMap c.resource?).flatMap (tasksOf s.id)

end Catalog
end MetricRelay
