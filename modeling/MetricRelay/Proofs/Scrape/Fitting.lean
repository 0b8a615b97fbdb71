import MetricRelay.Proofs.Catalog.Bounds
import MetricRelay.Proofs.Scrape.Kinds
import MetricRelay.Proofs.Scrape.LabelNames
import MetricRelay.Proofs.Scrape.Overlap
import MetricRelay.Proofs.Shape.Fitting

/-!
# Values that a scrape remembers and shows

The rules of a configuration give bounds to every histogram. So whatever has
happened to an exporter, each value that it remembers or shows fits the metric, a
row is written with every label of the metric in order, and no report blames a
histogram for a lack of buckets. Scrapes that overlap share their latest good
values, and these fit as well at every moment.
-/

namespace MetricRelay

open Catalog (Metric)

/-! ### Rows as they are written -/

namespace Render

/-- A sample of a row: the identity, then every label of the metric with its text. -/
structure PrintsRow (m : Metric) (i : Identity) (row : Row) (s : Sample) : Prop where
  names : s.labels.map (·.name) = ["job", "instance"] ++ m.labels.map (·.name)
  texts : s.labels.map (·.value) = [i.job, i.hostPort] ++ row.labels
  value : s.value = row.value

theorem texts_rowLabels {m : Metric} {row : Row} (h : row.labels.length = m.labels.length) :
    (rowLabels m row).map (·.value) = row.labels := by
  have hsecond : (m.labels.zip row.labels).map Prod.snd = row.labels :=
    List.map_snd_zip (Nat.le_of_eq h)
  rw [rowLabels, List.map_map]
  exact hsecond

theorem printsRow {m : Metric} {row : Row} (h : row.labels.length = m.labels.length)
    (i : Identity) : PrintsRow m i row (rowSample m i row) := by
  have hlabels : (rowSample m i row).labels = i.labels ++ rowLabels m row := rfl
  refine ⟨?_, ?_, rfl⟩
  · rw [hlabels, List.map_append, names_rowLabels h]
    rfl
  · rw [hlabels, List.map_append, texts_rowLabels h]
    rfl

/-- Rows that fit are written one by one. -/
theorem prints_rows {m : Metric} {rows : List Row} (h : m.Admits (.vector rows)) (i : Identity) :
    List.Forall₂ (PrintsRow m i) rows (valueFamily m i (.vector rows)).samples := by
  cases h with
  | vector form arity sign =>
    refine List.forall₂_map_right_iff.mpr (List.forall₂_same.mpr fun row hrow => ?_)
    exact printsRow (arity row hrow) i

end Render

/-! ### Reports -/

def Catalog.Bounded (c : Catalog) : Prop := ∀ m ∈ c.metrics, m.form = .histogram → m.bounds ≠ []

theorem Catalog.Metric.type_of_form {m : Metric} (h : m.form = .histogram) :
    m.type = .histogram := by
  rw [form] at h
  split at h
  · assumption
  · split at h <;> cases h

theorem Config.bounded_catalog {check : Url.Check} {c : Config} (hvalid : c.problems check = []) :
    c.catalog.Bounded := by
  intro m hm hform
  obtain ⟨service, entry, hrules, heq⟩ := exists_entry hvalid hm
  have htype := m.type_of_form hform
  rw [heq] at htype ⊢
  obtain ⟨-, -, -, htyped⟩ := Metric.problems_eq_nil_iff.mp hrules
  obtain ⟨-, hfaults⟩ := (Metric.typeProblems_of_histogram htype).mp htyped
  cases hgiven : entry.histogram with
  | none =>
    rw [hgiven] at hfaults
    cases hfaults
  | some h =>
    rw [hgiven] at hfaults
    obtain ⟨spec, hspec, hne, -⟩ := bounds_of_faults hfaults
    have hbuckets : entry.histogram.bind Catalog.bucketSpec = some spec := by
      rw [hgiven]
      exact hspec
    change ((entry.histogram.bind Catalog.bucketSpec).map BucketSpec.bounds).getD [] ≠ []
    rw [hbuckets]
    exact hne

/-- What a catalog with bounds makes of a document fits. -/
theorem Catalog.Bounded.admits {c : Catalog} (h : c.Bounded) {id : MetricId} {value : Shaped}
    (hvalue : c.Shapes id value) : ∃ m, c.metric? id = some m ∧ m.Admits value := by
  obtain ⟨m, doc, hm, hshape⟩ := hvalue
  exact ⟨m, hm, (sound_shape (h m (mem_of_metric? hm)) doc).of_ok hshape⟩

/-- A report that concludes from a document or from a forwarded body does not blame buckets. -/
theorem Race.Explained.not_blames {c : Catalog} (hbounded : c.Bounded)
    {A : Catalog.Service → Catalog.Resource → Answer → Prop} {r : TaskReport}
    (h : Race.Explained c A r) {error : ShapeError} (hresult : r.result = .error (.shape error)) :
    ¬ error.BlamesBuckets := by
  obtain ⟨task, finished, result⟩ := r
  obtain ⟨s, resource, -, hexplained⟩ := h
  cases task with
  | metric service resource id =>
    obtain ⟨m, value, hm, -, hown⟩ := hexplained
    have hconcluded := hown.symm.trans hresult
    cases value with
    | error e => cases hconcluded
    | ok doc =>
      have hsound := sound_shape (hbounded m (Catalog.mem_of_metric? hm)) doc
      exact hsound.of_error (shape_error_of_concludeMetric hconcluded)
  | forward service resource =>
    obtain ⟨value, -, hown⟩ := hexplained
    have hconcluded := hown.symm.trans hresult
    cases value with
    | error e => cases hconcluded
    | ok families => cases hconcluded

namespace Exporter

variable {catalog : Catalog} {check : Url.Check} {c : Config} {e : Exporter}

theorem Consistent.not_blames (hindexed : catalog.Indexed) (hbounded : catalog.Bounded)
    (h : Consistent catalog e) {report : TaskReport} (hreport : report ∈ e.reports)
    {error : ShapeError} (hresult : report.result = .error (.shape error)) :
    ¬ error.BlamesBuckets := by
  have hown : e.catalog.Indexed := h.catalog.symm ▸ hindexed
  have hbounds : e.catalog.Bounded := h.catalog.symm ▸ hbounded
  rcases reports_explained hown h.orderly report hreport with hexplained | hlate | hclosed
  · exact hexplained.not_blames hbounds hresult
  · rw [hlate] at hresult
    cases hresult
  · rw [hclosed] at hresult
    cases hresult

/-! ### Values -/

theorem Consistent.admits (hbounded : catalog.Bounded) (h : Consistent catalog e) {id : MetricId}
    {value : Shaped} (hvalue : e.lastGood.get? id = some value) :
    ∃ m, catalog.metric? id = some m ∧ m.Admits value :=
  hbounded.admits (h.remembered id value hvalue).2

/-- A family that a scrape shows for a metric of a service: the value that is remembered of it then,
which fits, or the companion. -/
inductive ShowsFitting (m : Metric) (s : Catalog.Service) (values : LastGood) : Family → Prop
  | value {value : Shaped} (remembered : values.get? m.id = some value)
      (fits : m.Admits value)
      (rows : ∀ rows, value = .vector rows → List.Forall₂ (Render.PrintsRow m s.identity) rows
        (Render.valueFamily m s.identity value).samples) :
      ShowsFitting m s values (Render.valueFamily m s.identity value)
  | companion (up : Bool) : ShowsFitting m s values (Render.upFamily m s.identity up)

theorem Consistent.showsFitting (hindexed : catalog.Indexed)
    (hplan : (catalog.plan.filterMap ScrapeTask.metric?).Nodup) (hbounded : catalog.Bounded)
    (h : Consistent catalog e) (hafter : Consistent catalog e.scrape.2) :
    ∀ f ∈ e.shapedFamilies, ∃ m ∈ catalog.plannedMetrics, ∃ s,
      catalog.service? m.service = some s ∧ ShowsFitting m s e.scrape.2.lastGood f := by
  obtain ⟨fates, -, hreports, hadds, -⟩ := h.adds hindexed hplan
  intro f hf
  rw [shapedFamilies_eq hreports] at hf
  obtain ⟨x, hx, hf⟩ := List.mem_flatMap.mp hf
  obtain ⟨m, hm, s, hown⟩ := hadds x hx
  rw [hown.families, Render.families, List.mem_append, Option.mem_toList, List.mem_singleton,
    Option.map_eq_some_iff] at hf
  refine ⟨m, hm, s, h.catalog ▸ hown.service, ?_⟩
  rcases hf with ⟨value, hvalue, rfl⟩ | rfl
  · have hmetric := h.catalog ▸ hown.indexed
    obtain ⟨own, hget, hadmits⟩ := hafter.admits hbounded hvalue
    obtain rfl := Option.some.inj (hmetric.symm.trans hget)
    refine .value hvalue hadmits ?_
    rintro rows rfl
    exact Render.prints_rows hadmits s.identity
  · exact .companion _

structure Fitting (c : Catalog) (e : Exporter) : Prop where
  remembered : ∀ id value, e.lastGood.get? id = some value →
    ∃ m, c.metric? id = some m ∧ m.Admits value
  written : e.scrape.1.body = Exposition.text e.gauges.families ++
    Exposition.text (Output.extend {} e.addedFamilies).families
  added : ∀ f ∈ e.addedFamilies, f ∈ e.shapedFamilies ∨ f ∈ e.forwardedFamilies
  shown : ∀ f ∈ e.shapedFamilies, ∃ m ∈ c.plannedMetrics, ∃ s, c.service? m.service = some s ∧
    ShowsFitting m s e.scrape.2.lastGood f
  shaped : ∀ m ∈ c.metrics, ∀ doc name, shape m doc ≠ .error (.noBuckets name)
  reported : ∀ report ∈ e.reports, ∀ name, report.result ≠ .error (.shape (.noBuckets name))

theorem fitting_of_reached (hvalid : c.problems check = []) (h : Reached c.catalog e) :
    Fitting c.catalog e := by
  have hindexed := Catalog.build_indexed c.definitions
  have hplan := Config.nodup_plan hvalid
  have hbounded := Config.bounded_catalog hvalid
  have hconsistent := h.consistent hindexed hplan
  have hafter := h.scrape.consistent hindexed hplan
  constructor
  · exact fun id value => hconsistent.admits hbounded
  · obtain ⟨fates, -, hreports, -, houtput, -⟩ := hconsistent.shows hindexed hplan
    rw [scrape_body, houtput, addedFamilies_eq hreports, hconsistent.catalog]
  · exact fun f => mem_addedFamilies.mp
  · exact hconsistent.showsFitting hindexed hplan hbounded hafter
  · intro m hm doc name hfails
    exact (sound_shape (hbounded m hm) doc).of_error hfails trivial
  · intro report hreport name hfails
    exact hconsistent.not_blames hindexed hbounded hreport hfails trivial

end Exporter

/-! ### Scrapes that overlap -/

namespace Overlap

/-- An event that concerns a value of a metric. -/
inductive Event.Tells (id : MetricId) (value : Shaped) : Event → Prop
  | shaped : Tells id value (.shaped id value)
  | shown (time : ℕ) : Tells id value (.shown id time value)
  | fallback : Tells id value (.fallback id (some value))

variable {catalog : Catalog} {s : Overlap} {id : MetricId} {value : Shaped}

theorem Sound.shapes_of_shown (h : Sound catalog s) {time : ℕ}
    (hshown : .shown id time value ∈ s.history) : catalog.Shapes id value :=
  h.sourced id value (List.mem_of_getElem? (h.shown id time value hshown))

/-- What was recorded last at some moment was shaped before. -/
theorem Sound.shapes_of_latest (h : Sound catalog s) {history : List Event}
    (hwithin : history <+: s.history) (hlatest : latest? (recordings id history) = some value) :
    catalog.Shapes id value := by
  obtain ⟨⟨time, own⟩, hlast, rfl⟩ := Option.map_eq_some_iff.mp hlatest
  have hshown := mem_recordings.mp (List.mem_of_getLast? hlast)
  exact h.shapes_of_shown (hwithin.subset hshown)

theorem Sound.shapes_of_tells (h : Sound catalog s) {event : Event} (hmem : event ∈ s.history)
    (htells : event.Tells id value) : catalog.Shapes id value := by
  cases htells with
  | shaped => exact h.sourced id value hmem
  | shown time => exact h.shapes_of_shown hmem
  | fallback =>
    obtain ⟨before, after, hsplit⟩ := List.append_of_mem hmem
    have hlatest := h.told id (some value) before after hsplit
    exact h.shapes_of_latest (hsplit ▸ List.prefix_append ..) hlatest.symm

/-- Scrapes of which every value fits its metric, whether it is remembered or shown. -/
structure Fitting (c : Catalog) (s : Overlap) : Prop where
  held : ∀ id value, s.lastGood.get? id = some value → ∃ m, c.metric? id = some m ∧ m.Admits value
  told : ∀ event ∈ s.history, ∀ id value, event.Tells id value →
    ∃ m, c.metric? id = some m ∧ m.Admits value

theorem fitting_of_reached (hindexed : catalog.Indexed) (hbounded : catalog.Bounded)
    (h : Reached catalog s) : Fitting catalog s := by
  have hsound := h.sound hindexed
  constructor
  · intro id value hvalue
    rw [hsound.held] at hvalue
    exact hbounded.admits (hsound.shapes_of_latest (List.prefix_refl _) hvalue)
  · exact fun event hmem id value htells => hbounded.admits (hsound.shapes_of_tells hmem htells)

end Overlap

namespace Exporter

variable {check : Url.Check} {c : Config}

/-- Whatever has happened to an exporter of a valid configuration, the values that it remembers and
those that its next scrape shows fit, and no metric fails for a lack of buckets; and so do all
values of scrapes that overlap. -/
theorem values_fit (hvalid : c.problems check = []) :
    (∀ e, Reached c.catalog e → Fitting c.catalog e) ∧
      ∀ s, Overlap.Reached c.catalog s → s.Fitting c.catalog := by
  have hindexed := Catalog.build_indexed c.definitions
  have hbounded := Config.bounded_catalog hvalid
  exact ⟨fun e => fitting_of_reached hvalid, fun s => Overlap.fitting_of_reached hindexed hbounded⟩

def traffic : Config where
  settings := ⟨.default, .default, .default⟩
  definitions := [{
    service := ⟨"node", .file, "", 0, "/srv", none⟩
    metrics := [
      ⟨"sent", .counter, "", ⟨"jsonpath", "/sent"⟩, [⟨"peer", ⟨"jsonpath", "/peer"⟩⟩], none,
        some "/peers"⟩,
      ⟨"times", .histogram, "", ⟨"jsonpath", "/times"⟩, [], some ⟨some [1, 2], none⟩, none⟩]
    resources := [⟨"stats", "stats.json", "GET", .api, .json, ["sent", "times"], none⟩] }]

def withTraffic : Exporter :=
  let content := Text.Utf8.ascii
    ("\x7b\"peers\": [\x7b\"peer\": \"a\", \"sent\": 3\x7d], " ++
      "\"times\": [1, 2, 5]\x7d").toList
  .start {} traffic.catalog
    { workingDirectory := "/"
      kind := fun _ => .ok (.file content.length)
      read := fun _ => .ok content } {}

/-- After a scrape both values are remembered: one row, and two buckets with three more samples. -/
theorem values_fit_traffic : traffic.problems Url.hosted = [] ∧
    Reached traffic.catalog withTraffic.scrape.2 ∧
    ∃ sent times, withTraffic.scrape.2.lastGood.get? ⟨0⟩ = some sent ∧ sent.sampleCount = 1 ∧
      withTraffic.scrape.2.lastGood.get? ⟨1⟩ = some times ∧ times.sampleCount = 5 ∧
      (∃ m, traffic.catalog.metric? ⟨0⟩ = some m ∧ m.Admits sent) ∧
      ∃ m, traffic.catalog.metric? ⟨1⟩ = some m ∧ m.Admits times := by
  have hvalid : traffic.problems Url.hosted = [] := by decide +kernel
  have hreached : Reached traffic.catalog withTraffic.scrape.2 := .scrape (.start ..)
  have hfitting := (values_fit hvalid).1 _ hreached
  have hsent : (withTraffic.scrape.2.lastGood.get? ⟨0⟩).map (·.sampleCount) = some 1 := by
    decide +kernel
  have htimes : (withTraffic.scrape.2.lastGood.get? ⟨1⟩).map (·.sampleCount) = some 5 := by
    decide +kernel
  obtain ⟨sent, hsent, hone⟩ := Option.map_eq_some_iff.mp hsent
  obtain ⟨times, htimes, hfive⟩ := Option.map_eq_some_iff.mp htimes
  exact ⟨hvalid, hreached, sent, times, hsent, hone, htimes, hfive,
    hfitting.remembered _ _ hsent, hfitting.remembered _ _ htimes⟩

end Exporter
end MetricRelay
