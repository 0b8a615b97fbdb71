import MetricRelay.Exposition.Tree
import MetricRelay.Fetch.Call
import MetricRelay.Fetch.Talk
import MetricRelay.Relabel
import MetricRelay.Scrape.Compose
import MetricRelay.SingleFlight
/-!
The state of one scrape: what has been loaded for it so far, its gauges, and whether it is over. Two
resources of one location share what is loaded from there.
-/
namespace MetricRelay

structure Snapshot where
  /-- When the scrape started, in milliseconds. -/
  started : Nat
  /-- The scrape is over, and nobody needs its tasks any more. -/
  cancelled : Bool := false
  documents : SingleFlight (Except FetchError Node) := {}
  expositions : SingleFlight (Except FetchError (List Family)) := {}
  metrics : SelfMetrics := {}

namespace Snapshot

/-- A scrape that begins. -/
def fresh (seriesKey : SelfMetrics.Key) (started : Nat) : Snapshot where
  started
  metrics := { key := seriesKey }

/-- How many loads the scrape has started. -/
def fetches (s : Snapshot) : Nat := s.documents.loads + s.expositions.loads

/-- One of the two kinds of things that a scrape loads and shares by location. -/
structure Shelf (ν : Type) where
  flight : Snapshot → SingleFlight (Except FetchError ν)
  withFlight : SingleFlight (Except FetchError ν) → Snapshot → Snapshot
  /-- What a body is made into. -/
  decode : Catalog.Service → Catalog.Resource → Text.Bytes → Except DecodeError ν
  /-- The gauges that a load sets. -/
  measure : SelfMetrics → SelfMetrics.Origin → SelfMetrics.Timing → SelfMetrics

/-- The documents of api resources. -/
def documentShelf : Shelf Node where
  flight s := s.documents
  withFlight f s := { s with documents := f }
  decode _ r body := r.decoder.decode body
  measure := SelfMetrics.dataSource

/-- The families of forwarders, with the identity of their service. -/
def expositionShelf : Shelf (List Family) where
  flight s := s.expositions
  withFlight f s := { s with expositions := f }
  decode service _ body := relabel service.identity body
  measure := SelfMetrics.forwarder

namespace Shelf

variable {ν : Type}

def decodeAnswer (shelf : Shelf ν) (s : Catalog.Service) (r : Catalog.Resource) (answer : Answer) :
    Except FetchError ν :=
  answer.bind fun body => (shelf.decode s r body).mapError .decode

/-- Note the times of a load; decoding takes none. -/
def note (shelf : Shelf ν) (s : Catalog.Service) (r : Catalog.Resource) (began ended : Nat)
    (snapshot : Snapshot) : Snapshot :=
  let elapsed := Nanoseconds.ofMilliseconds (ended - began)
  let origin := { s.origin with source := some r.url }
  { snapshot with metrics := shelf.measure snapshot.metrics origin ⟨elapsed, elapsed⟩ }

end Shelf
end Snapshot
end MetricRelay
