import MetricRelay.Proofs.Scrape.Declared
import MetricRelay.Proofs.Series

/-!
# The series of a scrape

The metrics of a scrape add their values and companions to its output. As long as
no vector has two rows with the same label values, two of these samples belong to
one series exactly if a metric does not keep its own samples apart, or if one
metric intrudes on another of its service.
-/

namespace MetricRelay

open MetricRelay.Composition (contribution shown fedMetrics)
open Render (Intrudes KeepsApart DistinctRows)

def Catalog.plannedMetrics (c : Catalog) : List Catalog.Metric :=
  (c.plan.filterMap ScrapeTask.metric?).filterMap c.metric?

def TaskReport.fate (r : TaskReport) : Fate :=
  match r.result with
  | .ok value => .done r.finished value
  | .error error => .failed r.finished error

/-- What a task adds depends on its report only. -/
theorem contribution_fate {catalog : Catalog} {before : LastGood} (task : ScrapeTask)
    (fate : Fate) : contribution catalog before (task, (fate.report task).fate) =
      contribution catalog before (task, fate) := by
  cases task with
  | metric service resource id => cases fate <;> rfl
  | forward service resource => cases fate <;> rfl

namespace Exporter

/-- The samples that the metrics of a scrape add to its output, values and companions. -/
def shapedSamples (e : Exporter) : List Sample :=
  (e.reports.filter (·.task.metric?.isSome)).flatMap fun r =>
    (contribution e.catalog e.lastGood (r.task, r.fate)).flatMap (·.samples)

def shapedFamilies (e : Exporter) : List Family :=
  (e.reports.filter (·.task.metric?.isSome)).flatMap fun r =>
    contribution e.catalog e.lastGood (r.task, r.fate)

variable {catalog : Catalog} {e : Exporter}

def metricFates (fates : Fates) : Fates := fates.ordered.filter (·.1.metric?.isSome)

theorem shapedFamilies_eq {fates : Fates} (hreports : e.reports = fates.reports) :
    e.shapedFamilies = (metricFates fates).flatMap (contribution e.catalog e.lastGood) := by
  rw [shapedFamilies, hreports, Fates.reports, List.filter_map, List.flatMap_map, metricFates]
  have hfilter : fates.ordered.filter
      ((fun r : TaskReport => r.task.metric?.isSome) ∘ fun x => x.2.report x.1) =
        fates.ordered.filter (·.1.metric?.isSome) := by
    refine List.filter_congr fun x _ => ?_
    simp
  change (fates.ordered.filter _).flatMap _ = _
  rw [hfilter]
  refine List.flatMap_congr fun x _ => ?_
  rw [Fate.report_task, contribution_fate]

theorem shapedSamples_families (e : Exporter) :
    e.shapedSamples = e.shapedFamilies.flatMap (·.samples) := by
  rw [shapedSamples, shapedFamilies, List.flatMap_assoc]

theorem shapedSamples_eq {fates : Fates} (hreports : e.reports = fates.reports) :
    e.shapedSamples = (metricFates fates).flatMap fun x =>
      (contribution e.catalog e.lastGood x).flatMap (·.samples) := by
  rw [shapedSamples_families, shapedFamilies_eq hreports, List.flatMap_assoc]

theorem nodup_metricFates {fates : Fates} (h : (fedMetrics fates).Nodup) :
    (metricFates fates).Nodup ∧ ∀ x ∈ metricFates fates, ∀ y ∈ metricFates fates,
      x.1.metric? = y.1.metric? → x = y := by
  have hmap : (metricFates fates).map (·.1.metric?) = (fedMetrics fates.ordered).map some := by
    rw [metricFates, fedMetrics]
    induction fates.ordered with
    | nil => rfl
    | cons x rest ih =>
      cases hx : x.1.metric? with
      | none => simp [hx, ih]
      | some id => simp [hx, ih]
  have hnodup : ((metricFates fates).map (·.1.metric?)).Nodup := by
    rw [hmap]
    exact ((fates.ordered_perm.filterMap _).nodup_iff.mpr h).map fun _ _ => Option.some.inj
  exact ⟨List.Nodup.of_map _ hnodup, fun x hx y hy heq => List.inj_on_of_nodup_map hnodup hx hy heq⟩

/-- A fate of a scrape, with the metric that it feeds, its service and what it adds. -/
structure Adds (e : Exporter) (x : ScrapeTask × Fate) (m : Catalog.Metric) (s : Catalog.Service) :
    Prop where
  metric : x.1.metric? = some m.id
  indexed : e.catalog.metric? m.id = some m
  service : e.catalog.service? m.service = some s
  families : contribution e.catalog e.lastGood x =
    Render.families m s.identity (e.scrape.2.lastGood.get? m.id) x.2.isDone

theorem Adds.unique {x : ScrapeTask × Fate} {m m' : Catalog.Metric} {s s' : Catalog.Service}
    (h : Adds e x m s) (h' : Adds e x m' s') : m = m' := by
  have hid : m.id = m'.id := Option.some.inj (h.metric.symm.trans h'.metric)
  have hindexed := h.indexed
  rw [hid, h'.indexed] at hindexed
  exact (Option.some.inj hindexed).symm

/-- The fates of a scrape, and the planned metrics that they feed. -/
theorem Consistent.adds (hindexed : catalog.Indexed)
    (hplan : (catalog.plan.filterMap ScrapeTask.metric?).Nodup) (h : Consistent catalog e) :
    ∃ fates, Settled catalog fates ∧ e.reports = fates.reports ∧
      (∀ x ∈ metricFates fates, ∃ m ∈ catalog.plannedMetrics, ∃ s, Adds e x m s) ∧
      ∀ m ∈ catalog.plannedMetrics, ∃ x ∈ metricFates fates, ∃ s, Adds e x m s := by
  obtain ⟨fates, hsettled, hreports, -, -, hshown⟩ := h.shows hindexed hplan
  have hadds : ∀ x ∈ metricFates fates, ∃ m ∈ catalog.plannedMetrics, ∃ s, Adds e x m s := by
    rintro ⟨task, fate⟩ hx
    obtain ⟨hmem, hmetric⟩ := List.mem_filter.mp hx
    have hmem := fates.ordered_perm.mem_iff.mp hmem
    have htask : task ∈ catalog.plan := by
      rw [← hsettled.tasks]
      exact List.mem_map.mpr ⟨_, hmem, rfl⟩
    obtain ⟨s, r, hp⟩ := hindexed.planned htask
    cases task with
    | forward service resource => cases hmetric
    | metric service resource id =>
      obtain ⟨m, hm, hservice⟩ :=
        hindexed.fed r (Catalog.mem_of_resource? hp.resource) id hp.metric.2
      obtain rfl : m.id = id := hindexed.metric_at _ m hm
      refine ⟨m, List.mem_filterMap.mpr ⟨m.id, List.mem_filterMap.mpr ⟨_, htask, rfl⟩, hm⟩, s, rfl,
        h.catalog ▸ hm, ?_, ?_⟩
      · rw [h.catalog, hservice]
        exact hp.owner
      · rw [h.catalog, hshown _ _ _ _ hmem]
        exact Composition.contribution_metric hm hp.service _ _ _
  refine ⟨fates, hsettled, hreports, hadds, ?_⟩
  intro m hm
  obtain ⟨id, hid, hget⟩ := List.mem_filterMap.mp hm
  obtain rfl : m.id = id := hindexed.metric_at _ m hget
  rw [← hsettled.tasks, List.filterMap_map] at hid
  obtain ⟨x, hx, hfed⟩ := List.mem_filterMap.mp hid
  have hfed : x.1.metric? = some m.id := hfed
  have hx : x ∈ metricFates fates :=
    List.mem_filter.mpr ⟨fates.ordered_perm.mem_iff.mpr hx, by rw [hfed]; rfl⟩
  obtain ⟨m', -, s, hown⟩ := hadds x hx
  obtain rfl : m' = m := by
    have hids : m'.id = m.id := Option.some.inj (hown.metric.symm.trans hfed)
    have hget' := hown.indexed
    rw [h.catalog, hids, hget] at hget'
    exact (Option.some.inj hget').symm
  exact ⟨x, hx, s, hown⟩

/-- The values that a scrape shows are told apart within each metric, and no metric intrudes on
another one of its service. -/
structure SeriesApart (c : Catalog) (values : LastGood) : Prop where
  own : ∀ m ∈ c.plannedMetrics, ∀ value, values.get? m.id = some value → KeepsApart m value
  others : ∀ m ∈ c.plannedMetrics, ∀ m' ∈ c.plannedMetrics, m.service = m'.service →
    ¬ Intrudes m (values.get? m.id) m' (values.get? m'.id)

variable {check : Url.Check} {c : Config}

theorem ruled_of_planned (hvalid : c.problems check = []) {m : Catalog.Metric}
    (hm : m ∈ c.catalog.plannedMetrics) : m ∈ c.catalog.metrics ∧ Config.Ruled m := by
  obtain ⟨id, -, hget⟩ := List.mem_filterMap.mp hm
  have hmem := Catalog.mem_of_metric? hget
  exact ⟨hmem, Config.metric_ruled hvalid hmem⟩

/-- Two services of a valid configuration with one identity are one service. -/
theorem Adds.service_eq (hvalid : c.problems check = []) (hcatalog : e.catalog = c.catalog)
    {x x' : ScrapeTask × Fate} {m m' : Catalog.Metric} {s s' : Catalog.Service}
    (h : Adds e x m s) (h' : Adds e x' m' s') (hidentity : s.identity = s'.identity) :
    m.service = m'.service := by
  have hindexed := Catalog.build_indexed c.definitions
  have hs := hcatalog ▸ h.service
  have hs' := hcatalog ▸ h'.service
  have hname : s.name = s'.name := congrArg Identity.job hidentity
  obtain rfl := Config.service_eq_of_name hvalid (List.mem_of_getElem? hs)
    (List.mem_of_getElem? hs') hname
  exact (hindexed.id_of_service? hs).symm.trans (hindexed.id_of_service? hs')

/-- No vector that a scrape shows has two rows with the same label values. -/
def RowsDiffer (c : Catalog) (values : LastGood) : Prop :=
  ∀ m ∈ c.plannedMetrics, ∀ value, values.get? m.id = some value → DistinctRows value

instance (c : Catalog) (values : LastGood) : Decidable (RowsDiffer c values) :=
  decidable_of_iff
    (∀ m ∈ c.plannedMetrics,
      (values.get? m.id).all (fun value => decide (DistinctRows value)) = true)
    (by simp [RowsDiffer, Option.all_eq_true])

/-- Where no two samples are of one series, no metric intrudes on another one. -/
theorem Consistent.not_intrudes_of_distinct (hvalid : c.problems check = [])
    (h : Consistent c.catalog e) (hdistinct : DistinctSeries e.shapedSamples)
    {m m' : Catalog.Metric} (hm : m ∈ c.catalog.plannedMetrics)
    (hm' : m' ∈ c.catalog.plannedMetrics) (hservice : m.service = m'.service) :
    ¬ Intrudes m (e.scrape.2.lastGood.get? m.id) m' (e.scrape.2.lastGood.get? m'.id) := by
  intro hintrudes
  obtain ⟨fates, -, hreports, -, hplanned⟩ :=
    h.adds (Catalog.build_indexed c.definitions) (Config.nodup_plan hvalid)
  rw [shapedSamples_eq hreports, DistinctSeries, List.pairwise_flatMap] at hdistinct
  obtain ⟨x, hx, s, hadds⟩ := hplanned m hm
  obtain ⟨x', hx', s', hadds'⟩ := hplanned m' hm'
  have hne : x ≠ x' := by
    rintro rfl
    exact hintrudes.name_ne (congrArg Catalog.Metric.name (hadds.unique hadds'))
  obtain rfl : s = s' := by
    have hs := hadds.service
    rw [hservice, hadds'.service] at hs
    exact (Option.some.inj hs).symm
  obtain ⟨sample, hsample, sample', hsample', hsame⟩ :=
    (Render.exists_same_iff (ruled_of_planned hvalid hm).2 (ruled_of_planned hvalid hm').2
      s.identity s.identity _ _ x.2.isDone x'.2.isDone).mpr ⟨rfl, hintrudes.meets⟩
  rw [← hadds.families] at hsample
  rw [← hadds'.families] at hsample'
  have hsymm : Std.Symm fun x y : ScrapeTask × Fate =>
      ∀ s ∈ (contribution e.catalog e.lastGood x).flatMap (·.samples),
        ∀ s' ∈ (contribution e.catalog e.lastGood y).flatMap (·.samples), ¬ s.SameSeries s' :=
    ⟨fun x y hxy s hs s' hs' hsame =>
      hxy s' hs' s hs ⟨hsame.1.symm, fun l => (hsame.2 l).symm⟩⟩
  exact hdistinct.2.forall hx hx' hne sample hsample sample' hsample' hsame

/-- Where no two samples are of one series, the values are told apart. -/
theorem Consistent.apart_of_distinct (hvalid : c.problems check = []) (h : Consistent c.catalog e)
    (hrows : RowsDiffer c.catalog e.scrape.2.lastGood)
    (hdistinct : DistinctSeries e.shapedSamples) : SeriesApart c.catalog e.scrape.2.lastGood := by
  refine ⟨?_, fun m hm m' hm' => h.not_intrudes_of_distinct hvalid hdistinct hm hm'⟩
  obtain ⟨fates, -, hreports, -, hplanned⟩ :=
    h.adds (Catalog.build_indexed c.definitions) (Config.nodup_plan hvalid)
  rw [shapedSamples_eq hreports, DistinctSeries, List.pairwise_flatMap] at hdistinct
  intro m hm
  obtain ⟨x, hx, s, hadds⟩ := hplanned m hm
  have hsamples := hdistinct.1 x hx
  rw [hadds.families] at hsamples
  rw [← Render.pairwise_allMarks (hrows m hm)]
  exact (Render.distinct_families_iff (ruled_of_planned hvalid hm).2 _ _ _).mp hsamples

/-- Where the values are told apart, no two samples are of one series. -/
theorem Consistent.distinct_of_apart (hvalid : c.problems check = []) (h : Consistent c.catalog e)
    (hafter : Consistent c.catalog e.scrape.2)
    (hrows : RowsDiffer c.catalog e.scrape.2.lastGood)
    (hapart : SeriesApart c.catalog e.scrape.2.lastGood) : DistinctSeries e.shapedSamples := by
  have hplan := Config.nodup_plan hvalid
  obtain ⟨fates, hsettled, hreports, hadds, -⟩ :=
    h.adds (Catalog.build_indexed c.definitions) hplan
  obtain ⟨hnodup, hunique⟩ := nodup_metricFates (hsettled.nodup hplan)
  have hlabelled : ∀ m, c.catalog.metric? m.id = some m →
      Render.Labelled m (e.scrape.2.lastGood.get? m.id) := by
    intro m hm rows hvalue
    obtain ⟨-, own, doc, hown, hshape⟩ := hafter.remembered m.id _ hvalue
    obtain rfl := Option.some.inj (hm.symm.trans hown)
    exact Render.labelled_of_shape hshape rows rfl
  rw [shapedSamples_eq hreports, DistinctSeries, List.pairwise_flatMap]
  constructor
  · intro x hx
    obtain ⟨m, hm, s, hown⟩ := hadds x hx
    rw [hown.families]
    refine (Render.distinct_families_iff (ruled_of_planned hvalid hm).2 _ _ _).mpr ?_
    exact (Render.pairwise_allMarks (hrows m hm)).mpr (hapart.own m hm)
  · refine hnodup.pairwise_of_forall_ne ?_
    intro x hx x' hx' hne sample hsample sample' hsample' hsame
    obtain ⟨m, hm, s, hown⟩ := hadds x hx
    obtain ⟨m', hm', s', hown'⟩ := hadds x' hx'
    rw [hown.families] at hsample
    rw [hown'.families] at hsample'
    obtain ⟨hmem, hruled⟩ := ruled_of_planned hvalid hm
    obtain ⟨hmem', hruled'⟩ := ruled_of_planned hvalid hm'
    obtain ⟨hidentity, hmeet⟩ := (Render.exists_same_iff hruled hruled' _ _ _ _ _ _).mp
      ⟨sample, hsample, sample', hsample', hsame⟩
    have hservice := hown.service_eq hvalid h.catalog hown' hidentity
    have hname : m.name ≠ m'.name := by
      intro heq
      obtain rfl := Config.metric_eq_of_name hvalid hmem hmem' hservice heq
      exact hne (hunique x hx x' hx' (hown.metric.trans hown'.metric.symm))
    have hindexed := h.catalog ▸ hown.indexed
    have hindexed' := h.catalog ▸ hown'.indexed
    rcases (Render.exists_meets_iff hname (hlabelled m hindexed) (hlabelled m' hindexed')).mp hmeet
      with hintrudes | hintrudes
    · exact hapart.others m hm m' hm' hservice hintrudes
    · exact hapart.others m' hm' m hm hservice.symm hintrudes

/-- A scrape of a valid configuration in which no vector has two rows with the same label values
writes no two samples of one series exactly if the values that it shows are told apart. -/
theorem distinct_series_iff (hvalid : c.problems check = []) (h : Reached c.catalog e)
    (hrows : RowsDiffer c.catalog e.scrape.2.lastGood) :
    DistinctSeries e.shapedSamples ↔ SeriesApart c.catalog e.scrape.2.lastGood := by
  have hindexed := Catalog.build_indexed c.definitions
  have hplan := Config.nodup_plan hvalid
  have hconsistent := h.consistent hindexed hplan
  have hafter := h.scrape.consistent hindexed hplan
  exact ⟨hconsistent.apart_of_distinct hvalid hrows,
    hconsistent.distinct_of_apart hvalid hafter hrows⟩

theorem Consistent.shape_of_planned (hindexed : catalog.Indexed) (h : Consistent catalog e)
    {m : Catalog.Metric} (hm : m ∈ catalog.plannedMetrics) {value : Shaped}
    (hvalue : e.lastGood.get? m.id = some value) : ∃ doc, shape m doc = .ok value := by
  obtain ⟨id, -, hget⟩ := List.mem_filterMap.mp hm
  obtain rfl : m.id = id := hindexed.metric_at _ m hget
  obtain ⟨-, own, doc, hown, hdoc⟩ := h.remembered m.id value hvalue
  obtain rfl := Option.some.inj (hget.symm.trans hown)
  exact ⟨doc, hdoc⟩

/-- A metric without labels that bears the name of a companion has the series of the companion as
soon as it has a value. -/
theorem Consistent.not_distinct_of_companion (hvalid : c.problems check = [])
    (h : Consistent c.catalog e) (hafter : Consistent c.catalog e.scrape.2) {m m' : Catalog.Metric}
    (hm : m ∈ c.catalog.plannedMetrics) (hm' : m' ∈ c.catalog.plannedMetrics)
    (hservice : m.service = m'.service) (hname : m'.name = Render.upName m.name)
    (hform : m'.form = .scalar) (hvalue : (e.scrape.2.lastGood.get? m'.id).isSome) :
    ¬ DistinctSeries e.shapedSamples := by
  obtain ⟨value, hvalue⟩ := Option.isSome_iff_exists.mp hvalue
  obtain ⟨doc, hdoc⟩ :=
    hafter.shape_of_planned (Catalog.build_indexed c.definitions) hm' hvalue
  obtain ⟨x, -, -, rfl⟩ | ⟨rows, hvector, -, -⟩ | ⟨a, hhistogram, -, -⟩ := shape_cases hdoc
  · intro hdistinct
    exact h.not_intrudes_of_distinct hvalid hdistinct hm hm' hservice (.companion x hvalue hname)
  · rw [hform] at hvector
    cases hvector
  · rw [hform] at hhistogram
    cases hhistogram

/-- A catalog of which every metric tells its samples apart, and none has a longer name of another
one of its service. -/
structure Unambiguous (c : Catalog) : Prop where
  own : ∀ m ∈ c.plannedMetrics, Render.Unambiguous m
  others : ∀ m ∈ c.plannedMetrics, ∀ m' ∈ c.plannedMetrics, m.service = m'.service →
    m'.name ∉ Render.longerNames m

/-- What such a catalog shows is told apart whatever the documents say. -/
theorem Unambiguous.seriesApart (hindexed : catalog.Indexed) (h : Unambiguous catalog)
    (he : Consistent catalog e) : SeriesApart catalog e.lastGood := by
  constructor
  · intro m hm value hvalue
    obtain ⟨doc, hdoc⟩ := he.shape_of_planned hindexed hm hvalue
    exact (h.own m hm).keepsApart hdoc
  · intro m hm m' hm' hservice hintrudes
    refine h.others m hm m' hm' hservice (hintrudes.mem_longerNames ?_)
    intro a hvalue
    obtain ⟨doc, hdoc⟩ := he.shape_of_planned hindexed hm hvalue
    exact (buckets_of_shape hdoc).1

def vectorAndGauge (name : String) : Config where
  settings := ⟨.default, .default, .default⟩
  definitions := [{
    service := ⟨"disk", .file, "", 0, "/srv", none⟩
    metrics := [
      ⟨"free", .gauge, "", ⟨"jsonpath", "/free"⟩, [⟨"disk", ⟨"jsonpath", "/disk"⟩⟩], none,
        some "/disks"⟩,
      ⟨name, .gauge, "", ⟨"jsonpath", "/count"⟩, [], none, none⟩]
    resources := [⟨"stats", "stats.json", "GET", .api, .json, ["free", name], none⟩] }]

def withVectorAndGauge (name : String) : Exporter :=
  let content := Text.Utf8.ascii
    ("\x7b\"count\": 2, \"disks\": [\x7b\"disk\": \"a\", \"free\": 1\x7d, " ++
      "\x7b\"disk\": \"b\", \"free\": 1\x7d]\x7d").toList
  .start {} (vectorAndGauge name).catalog
    { workingDirectory := "/"
      kind := fun _ => .ok (.file content.length)
      read := fun _ => .ok content } {}

theorem unambiguous_count : Unambiguous (vectorAndGauge "count").catalog := by
  have hown : ∀ m ∈ (vectorAndGauge "count").catalog.plannedMetrics,
      (m.labels.map (·.name)).Nodup ∧ m.buckets.isNone = true := by decide
  have hothers : ∀ m ∈ (vectorAndGauge "count").catalog.plannedMetrics,
      ∀ m' ∈ (vectorAndGauge "count").catalog.plannedMetrics,
      m'.name ∉ Render.longerNames m := by decide
  refine ⟨fun m hm => ⟨(hown m hm).1, ?_⟩, fun m hm m' hm' _ => hothers m hm m' hm'⟩
  rw [Option.isNone_iff_eq_none.mp (hown m hm).2]
  exact List.nodup_singleton _

/-- A gauge with a name of its own is kept apart from the vector. -/
theorem distinct_series_count : (vectorAndGauge "count").problems Url.hosted = [] ∧
    RowsDiffer (vectorAndGauge "count").catalog (withVectorAndGauge "count").scrape.2.lastGood ∧
    DistinctSeries (withVectorAndGauge "count").shapedSamples := by
  have hvalid : (vectorAndGauge "count").problems Url.hosted = [] := by decide
  have hrows : RowsDiffer (vectorAndGauge "count").catalog
      (withVectorAndGauge "count").scrape.2.lastGood := by decide +kernel
  have hreached : Reached (vectorAndGauge "count").catalog (withVectorAndGauge "count") := .start ..
  refine ⟨hvalid, hrows, (distinct_series_iff hvalid hreached hrows).mpr ?_⟩
  have hindexed := Catalog.build_indexed (vectorAndGauge "count").definitions
  exact unambiguous_count.seriesApart hindexed
    (hreached.scrape.consistent hindexed (Config.nodup_plan hvalid))

/-- A gauge with the name of the vector's companion is valid, and has its series. -/
theorem not_distinct_series_freeUp : (vectorAndGauge "free_up").problems Url.hosted = [] ∧
    RowsDiffer (vectorAndGauge "free_up").catalog (withVectorAndGauge "free_up").scrape.2.lastGood ∧
    ¬ DistinctSeries (withVectorAndGauge "free_up").shapedSamples := by
  have hvalid : (vectorAndGauge "free_up").problems Url.hosted = [] := by decide
  have hrows : RowsDiffer (vectorAndGauge "free_up").catalog
      (withVectorAndGauge "free_up").scrape.2.lastGood := by decide +kernel
  refine ⟨hvalid, hrows, ?_⟩
  have hreached : Reached (vectorAndGauge "free_up").catalog (withVectorAndGauge "free_up") :=
    .start ..
  have hindexed := Catalog.build_indexed (vectorAndGauge "free_up").definitions
  have hplan := Config.nodup_plan hvalid
  have hconsistent := hreached.consistent hindexed hplan
  have hafter := hreached.scrape.consistent hindexed hplan
  have hvalue : ((withVectorAndGauge "free_up").scrape.2.lastGood.get? ⟨1⟩).isSome := by
    decide +kernel
  have hfree : (vectorAndGauge "free_up").catalog.plannedMetrics[0] ∈
      (vectorAndGauge "free_up").catalog.plannedMetrics := List.getElem_mem _
  have hgauge : (vectorAndGauge "free_up").catalog.plannedMetrics[1] ∈
      (vectorAndGauge "free_up").catalog.plannedMetrics := List.getElem_mem _
  exact hconsistent.not_distinct_of_companion hvalid hafter hfree hgauge rfl rfl rfl hvalue

end Exporter
end MetricRelay
