import MetricRelay.Main
import MetricRelay.Pool.Errand
import MetricRelay.SingleFlight.Timed
import MetricRelay.Proofs.Catalog.Indexed
import MetricRelay.Proofs.Number.ReadBack
import MetricRelay.Proofs.Exposition.Line
import MetricRelay.Proofs.Exposition.RoundTrip
import MetricRelay.Proofs.Catalog.Plan
import MetricRelay.Proofs.EventLoop
import MetricRelay.Proofs.Keyed
import MetricRelay.Proofs.Output
import MetricRelay.Proofs.SingleFlight
import MetricRelay.Proofs.Fetch.Talk
import MetricRelay.Proofs.Fetch.Course
import MetricRelay.Proofs.Fetch.Turns
import MetricRelay.Proofs.Scrape.Account
import MetricRelay.Proofs.Scrape.Race
import MetricRelay.Proofs.Catalog.Scopes
import MetricRelay.Proofs.Relabel
import MetricRelay.Proofs.Scrape.Duel
import MetricRelay.Proofs.Catalog.Location
import MetricRelay.Proofs.Scrape.Identity
import MetricRelay.Proofs.Scrape.Document
import MetricRelay.Proofs.Scrape.Run
import MetricRelay.Proofs.Pool.Account
import MetricRelay.Proofs.SingleFlight.OneLoad
import MetricRelay.Proofs.Token.Traffic
import MetricRelay.Proofs.Exposition.Forwarded
import MetricRelay.Proofs.Exposition.Declared
import MetricRelay.Proofs.Catalog.Metrics
import MetricRelay.Proofs.Render
import MetricRelay.Proofs.Shape
import MetricRelay.Proofs.Series
import MetricRelay.Proofs.SelfMetrics
import MetricRelay.Proofs.Scrape.Reached
import MetricRelay.Proofs.Scrape.Declared
import MetricRelay.Proofs.Scrape.Series
import MetricRelay.Proofs.Scrape.Newest
import MetricRelay.Proofs.Number.Packing
import MetricRelay.Proofs.Number.Scientific
import MetricRelay.Proofs.Number.Shortest
import MetricRelay.Proofs.Number.ReadBack
import MetricRelay.Proofs.Number.Order
import MetricRelay.Proofs.Number.Nearest
import MetricRelay.Proofs.Number.Growth
import MetricRelay.Proofs.Config.Valid
import MetricRelay.Proofs.Config.Rules
import MetricRelay.Proofs.Catalog.Complete
import MetricRelay.Proofs.Text.Utf8
import MetricRelay.Proofs.Exposition.Samples
import MetricRelay.Proofs.Scrape.Reread
import MetricRelay.Proofs.Scrape.Isolation
import MetricRelay.Proofs.Exposition.PassedOn
import MetricRelay.Proofs.Exposition.LabelNames
import MetricRelay.Proofs.Exposition.Apart
import MetricRelay.Proofs.Scrape.Counted
import MetricRelay.Proofs.Exposition.Reserved
import MetricRelay.Proofs.Exposition.Gathered
import MetricRelay.Proofs.Exposition.Spacing
import MetricRelay.Proofs.Scrape.LabelNames
import MetricRelay.Proofs.Catalog.Bounds
import MetricRelay.Proofs.Histogram
import MetricRelay.Proofs.Shape.Layouts
import MetricRelay.Proofs.Scrape.Kinds
import MetricRelay.Proofs.Node.Descent
import MetricRelay.Proofs.Node.Joined
import MetricRelay.Proofs.Exposition.Tree
import MetricRelay.Proofs.Scrape.Fitting
import MetricRelay.Proofs.ByteSize
import MetricRelay.Proofs.Url
import MetricRelay.Proofs.Fetch.Disk
import MetricRelay.Proofs.Token.Served
import MetricRelay.Proofs.Token.Turns
import MetricRelay.Proofs.Config.Loading
import MetricRelay.Proofs.Config.Listed
import MetricRelay.Proofs.Catalog.Checked
import MetricRelay.Proofs.Output.Deliveries
import MetricRelay.Proofs.Exposition.ByPlace
