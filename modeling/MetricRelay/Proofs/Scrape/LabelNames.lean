import MetricRelay.Proofs.Exposition.LabelNames
import MetricRelay.Proofs.Scrape.Series

/-!
# Label names of scraped metrics

A sample of a metric carries the labels of the identity, and then those that its
part asks for: a row every declared label of the metric, a bucket its bound. The
rules keep the declared labels apart from those of the identity, but not from each
other. A metric that declares a name twice repeats it on every row.
-/

namespace MetricRelay

open Config (Ruled reservedLabels)
open Exposition (labelNames)

/-! ### Names by parts -/

namespace Render

open Catalog (Metric)

/-- The names of the labels after those of the identity. -/
def Role.labelNames (m : Metric) : Role → List String
  | .value => m.labels.map (·.name)
  | .bucket => ["le"]
  | .companion | .sum | .count => []

variable {m : Metric}

/-- A row with a value for each label has all names. -/
theorem names_rowLabels {row : Row} (h : row.labels.length = m.labels.length) :
    (rowLabels m row).map (·.name) = m.labels.map (·.name) := by
  have hfirst : (m.labels.zip row.labels).map Prod.fst = m.labels :=
    List.map_fst_zip (Nat.le_of_eq h.symm)
  calc (rowLabels m row).map (·.name)
    _ = ((m.labels.zip row.labels).map Prod.fst).map (·.name) := by
      rw [rowLabels, List.map_map, List.map_map]
      rfl
    _ = m.labels.map (·.name) := by rw [hfirst]

theorem labels_of_scalar (h : m.form = .scalar) : m.labels = [] := by
  rw [Metric.form] at h
  split at h
  · cases h
  · split at h
    · next hempty => exact List.isEmpty_iff.mp hempty
    · cases h

/-- The part that a sample plays settles the names of its labels. -/
theorem names_of_mark {value : Option Shaped}
    (h : ∀ v, value = some v → ∃ doc, shape m doc = .ok v) {k : Mark} (hk : k ∈ allMarks m value) :
    k.labels.map (·.name) = k.role.labelNames m := by
  by_cases hrole : k.role = .value
  · rw [hrole]
    rcases of_value_mark hk hrole with ⟨x, hvalue, hlabels⟩ | ⟨rows, row, hvalue, hrow, hlabels⟩
    · obtain ⟨doc, hdoc⟩ := h _ hvalue
      obtain ⟨-, hform, -⟩ | ⟨rows, -, -, heq⟩ | ⟨a, -, -, heq⟩ := shape_cases hdoc
      · rw [hlabels, Role.labelNames, labels_of_scalar hform]
        rfl
      · cases heq
      · cases heq
    · obtain ⟨doc, hdoc⟩ := h _ hvalue
      rw [hlabels, Role.labelNames]
      exact names_rowLabels ((rows_of_shape hdoc).2 row hrow)
  · rcases of_other_mark hk hrole with rfl | ⟨a, -, rfl | rfl | ⟨text, -, rfl⟩⟩
    · rfl
    · rfl
    · rfl
    · rfl

/-- Only the declared labels may repeat a name. -/
theorem nodup_labelNames_iff (h : Ruled m) (role : Role) :
    (reservedLabels ++ role.labelNames m).Nodup ↔ (role.labelNames m).Nodup := by
  have hreserved : reservedLabels.Nodup := by decide
  have hfree : ∀ name ∈ reservedLabels, name ∉ role.labelNames m := by
    intro name hname hmem
    cases role with
    | value =>
      obtain ⟨l, hl, rfl⟩ := List.mem_map.mp hmem
      exact (h.labels l hl).2 hname
    | bucket =>
      obtain rfl := List.mem_singleton.mp hmem
      revert hname
      decide
    | companion | sum | count => cases hmem
  rw [List.nodup_append]
  constructor
  · exact fun hall => hall.2.1
  · refine fun hown => ⟨hreserved, hown, ?_⟩
    rintro name hname other hother rfl
    exact hfree name hname hother

end Render

/-! ### Names of a scrape -/

namespace Exporter

open Render (Role allMarks)

variable {catalog : Catalog} {e : Exporter} {check : Url.Check} {c : Config}

/-- The samples of a scrape are those that the marks of the planned metrics stand for. -/
theorem Consistent.mem_shapedSamples (hindexed : catalog.Indexed)
    (hplan : (catalog.plan.filterMap ScrapeTask.metric?).Nodup) (h : Consistent catalog e) :
    (∀ sample ∈ e.shapedSamples, ∃ m ∈ catalog.plannedMetrics, ∃ i : Identity,
      ∃ k ∈ allMarks m (e.scrape.2.lastGood.get? m.id),
        sample.name = m.name ++ k.role.suffix ∧ sample.labels = i.labels ++ k.labels) ∧
    ∀ m ∈ catalog.plannedMetrics, ∀ k ∈ allMarks m (e.scrape.2.lastGood.get? m.id),
      ∃ sample ∈ e.shapedSamples, ∃ i : Identity, sample.labels = i.labels ++ k.labels := by
  obtain ⟨fates, -, hreports, hadds, hplanned⟩ := h.adds hindexed hplan
  rw [shapedSamples_eq hreports]
  constructor
  · intro sample hsample
    obtain ⟨x, hx, hsample⟩ := List.mem_flatMap.mp hsample
    obtain ⟨m, hm, s, hown⟩ := hadds x hx
    rw [hown.families] at hsample
    have haddress := List.mem_map_of_mem (f := Render.address) hsample
    rw [Render.addresses_families] at haddress
    obtain ⟨k, hk, heq⟩ := List.mem_map.mp haddress
    exact ⟨m, hm, s.identity, k, hk, (Prod.mk.inj heq).1.symm, (Prod.mk.inj heq).2.symm⟩
  · intro m hm k hk
    obtain ⟨x, hx, s, hown⟩ := hplanned m hm
    have haddress := List.mem_map_of_mem
      (f := fun k : Render.Mark => (m.name ++ k.role.suffix, s.identity.labels ++ k.labels)) hk
    rw [← Render.addresses_families m s.identity _ x.2.isDone, ← hown.families] at haddress
    obtain ⟨sample, hsample, heq⟩ := List.mem_map.mp haddress
    exact ⟨sample, List.mem_flatMap.mpr ⟨x, hx, hsample⟩, s.identity, (Prod.mk.inj heq).2⟩

/-- Every metric of which rows are shown declares different label names. -/
def RowNamesDiffer (c : Catalog) (values : LastGood) : Prop :=
  ∀ m ∈ c.plannedMetrics, ∀ rows, values.get? m.id = some (.vector rows) → rows ≠ [] →
    (m.labels.map (·.name)).Nodup

theorem labelNames_append (i : Identity) {sample : Sample} {labels : List Label}
    (h : sample.labels = i.labels ++ labels) :
    labelNames sample = reservedLabels ++ labels.map (·.name) := by
  rw [labelNames, h, List.map_append]
  rfl

/-- The labels of every sample that a metric adds to a scrape have the names `job` and `instance`,
and then those that its part asks for. They are different exactly if every metric of which rows are
shown declares different names. -/
theorem label_names_differ_iff (hvalid : c.problems check = []) (h : Reached c.catalog e) :
    (∀ sample ∈ e.shapedSamples, ∃ m ∈ c.catalog.plannedMetrics, ∃ role : Role,
      sample.name = m.name ++ role.suffix ∧
        labelNames sample = ["job", "instance"] ++ role.labelNames m) ∧
    ((∀ sample ∈ e.shapedSamples, (labelNames sample).Nodup) ↔
      RowNamesDiffer c.catalog e.scrape.2.lastGood) := by
  have hindexed := Catalog.build_indexed c.definitions
  have hplan := Config.nodup_plan hvalid
  have hafter := h.scrape.consistent hindexed hplan
  obtain ⟨hmarked, hsampled⟩ := (h.consistent hindexed hplan).mem_shapedSamples hindexed hplan
  have hnames : ∀ m ∈ c.catalog.plannedMetrics,
      ∀ k ∈ allMarks m (e.scrape.2.lastGood.get? m.id),
        k.labels.map (·.name) = k.role.labelNames m := fun m hm k hk =>
    Render.names_of_mark (fun v hv => hafter.shape_of_planned hindexed hm hv) hk
  refine ⟨?_, ?_, ?_⟩
  · intro sample hsample
    obtain ⟨m, hm, i, k, hk, hname, hlabels⟩ := hmarked sample hsample
    refine ⟨m, hm, k.role, hname, ?_⟩
    rw [labelNames_append i hlabels, hnames m hm k hk]
    rfl
  · intro hdiffer m hm rows hvalue hne
    obtain ⟨row, hrow⟩ := List.exists_mem_of_ne_nil rows hne
    have hk : ⟨.value, Render.rowLabels m row⟩ ∈ allMarks m (e.scrape.2.lastGood.get? m.id) := by
      rw [hvalue, allMarks]
      exact List.mem_append_left _ (List.mem_map_of_mem hrow)
    obtain ⟨sample, hsample, i, hlabels⟩ := hsampled m hm _ hk
    have hnodup := hdiffer sample hsample
    rw [labelNames_append i hlabels, hnames m hm _ hk] at hnodup
    exact (Render.nodup_labelNames_iff (ruled_of_planned hvalid hm).2 .value).mp hnodup
  · intro hdiffer sample hsample
    obtain ⟨m, hm, i, k, hk, -, hlabels⟩ := hmarked sample hsample
    rw [labelNames_append i hlabels, hnames m hm k hk,
      Render.nodup_labelNames_iff (ruled_of_planned hvalid hm).2]
    cases hrole : k.role with
    | value =>
      rcases Render.of_value_mark hk hrole with
        ⟨-, -, hlabels⟩ | ⟨rows, row, hvalue, hrow, -⟩
      · have hnone := hnames m hm k hk
        rw [hrole, hlabels] at hnone
        rw [← hnone]
        exact List.nodup_nil
      · exact hdiffer m hm rows hvalue (List.ne_nil_of_mem hrow)
    | bucket => exact List.nodup_singleton _
    | companion | sum | count => exact List.nodup_nil

def twoLabels (name : String) : Config where
  settings := ⟨.default, .default, .default⟩
  definitions := [{
    service := ⟨"disk", .file, "", 0, "/srv", none⟩
    metrics := [⟨"free", .gauge, "", ⟨"jsonpath", "/free"⟩,
      [⟨"zone", ⟨"jsonpath", "/zone"⟩⟩, ⟨name, ⟨"jsonpath", "/disk"⟩⟩], none, some "/"⟩]
    resources := [⟨"stats", "stats.json", "GET", .api, .json, ["free"], none⟩] }]

def withTwoLabels (name : String) : Exporter :=
  let content := Text.Utf8.ascii
    "[\x7b\"disk\": \"a\", \"free\": 1, \"zone\": \"z\"\x7d]".toList
  .start {} (twoLabels name).catalog
    { workingDirectory := "/"
      kind := fun _ => .ok (.file content.length)
      read := fun _ => .ok content } {}

theorem label_names_differ_disk : (twoLabels "disk").problems Url.hosted = [] ∧
    Reached (twoLabels "disk").catalog (withTwoLabels "disk") ∧
    (∀ sample ∈ (withTwoLabels "disk").shapedSamples, (labelNames sample).Nodup) ∧
    ["job", "instance", "zone", "disk"] ∈ (withTwoLabels "disk").shapedSamples.map labelNames := by
  have hvalid : (twoLabels "disk").problems Url.hosted = [] := by decide
  have hreached : Reached (twoLabels "disk").catalog (withTwoLabels "disk") := .start ..
  have hdeclared : ∀ m ∈ (twoLabels "disk").catalog.plannedMetrics,
      (m.labels.map (·.name)).Nodup := by decide
  refine ⟨hvalid, hreached, ?_, by decide +kernel⟩
  exact (label_names_differ_iff hvalid hreached).2.mpr fun m hm _ _ _ => hdeclared m hm

/-- A label that is declared twice is valid, and stands twice on the row. -/
theorem not_label_names_differ_zone : (twoLabels "zone").problems Url.hosted = [] ∧
    Reached (twoLabels "zone").catalog (withTwoLabels "zone") ∧
    ["job", "instance", "zone", "zone"] ∈ (withTwoLabels "zone").shapedSamples.map labelNames ∧
    ¬ ∀ sample ∈ (withTwoLabels "zone").shapedSamples, (labelNames sample).Nodup := by
  have hrow : ["job", "instance", "zone", "zone"] ∈
      (withTwoLabels "zone").shapedSamples.map labelNames := by decide +kernel
  refine ⟨by decide, .start .., hrow, ?_⟩
  intro hall
  obtain ⟨sample, hsample, hnames⟩ := List.mem_map.mp hrow
  have hnodup := hall sample hsample
  rw [hnames] at hnodup
  exact absurd hnodup (by decide)

end Exporter
end MetricRelay
