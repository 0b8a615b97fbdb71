import MetricRelay.Proofs.Scrape.Series

/-!
# The kinds of scraped families

Families of one name become one, and the first of them gives the kind. The rules of a
configuration see that metrics of one name are of one type. They do not look at
companions: a metric that bears the name of a companion is merged with it, and
agrees with it only if it is a gauge.
-/

namespace MetricRelay

open MetricRelay.Composition (contribution)

theorem MetricType.kind_eq_gauge {t : MetricType} : t.kind = .gauge ↔ t = .gauge := by
  cases t <;> decide

namespace Exporter

def addedFamilies (e : Exporter) : List Family :=
  e.reports.flatMap fun r => contribution e.catalog e.lastGood (r.task, r.fate)

def forwardedFamilies (e : Exporter) : List Family :=
  (e.reports.filter (·.task.metric?.isNone)).flatMap fun r =>
    contribution e.catalog e.lastGood (r.task, r.fate)

/-- A family that is added is of a metric, or was forwarded. -/
theorem mem_addedFamilies {e : Exporter} {f : Family} :
    f ∈ e.addedFamilies ↔ f ∈ e.shapedFamilies ∨ f ∈ e.forwardedFamilies := by
  simp only [addedFamilies, shapedFamilies, forwardedFamilies, List.mem_flatMap, List.mem_filter]
  constructor
  · rintro ⟨r, hr, hf⟩
    cases hfed : r.task.metric? with
    | some id => exact Or.inl ⟨r, ⟨hr, by rw [hfed]; rfl⟩, hf⟩
    | none => exact Or.inr ⟨r, ⟨hr, by rw [hfed]; rfl⟩, hf⟩
  · rintro (⟨r, ⟨hr, -⟩, hf⟩ | ⟨r, ⟨hr, -⟩, hf⟩)
    · exact ⟨r, hr, hf⟩
    · exact ⟨r, hr, hf⟩

end Exporter

def KindsAgree (families : List Family) : Prop :=
  ∀ f ∈ families, ∀ g ∈ families, f.name = g.name → f.kind = g.kind

/-- A metric that has a value and bears the name of a companion is a gauge. -/
def GaugesOnCompanions (c : Catalog) (values : LastGood) : Prop :=
  ∀ m ∈ c.plannedMetrics, ∀ m' ∈ c.plannedMetrics, m'.name = Render.upName m.name →
    (values.get? m'.id).isSome → m'.type = .gauge

namespace Exporter

variable {catalog : Catalog} {check : Url.Check} {c : Config} {e : Exporter}

theorem addedFamilies_eq {fates : Fates} (hreports : e.reports = fates.reports) :
    e.addedFamilies = fates.ordered.flatMap (contribution e.catalog e.lastGood) := by
  rw [addedFamilies, hreports, Fates.reports, List.flatMap_map]
  refine List.flatMap_congr fun x _ => ?_
  rw [Fate.report_task, contribution_fate]

/-- The shaped families of a scrape by name and kind: those of the metrics with a value, and the
companions. -/
theorem Consistent.exists_shapedFamily (hindexed : catalog.Indexed)
    (hplan : (catalog.plan.filterMap ScrapeTask.metric?).Nodup) (h : Consistent catalog e)
    (name : String) (kind : MetricKind) :
    (∃ f ∈ e.shapedFamilies, f.name = name ∧ f.kind = kind) ↔
      ∃ m ∈ catalog.plannedMetrics,
        ((e.scrape.2.lastGood.get? m.id).isSome ∧ m.name = name ∧ m.type.kind = kind) ∨
          (Render.upName m.name = name ∧ .gauge = kind) := by
  obtain ⟨fates, -, hreports, hadds, hplanned⟩ := h.adds hindexed hplan
  simp only [shapedFamilies_eq hreports, List.mem_flatMap]
  constructor
  · rintro ⟨f, ⟨x, hx, hf⟩, rfl, rfl⟩
    obtain ⟨m, hm, s, hown⟩ := hadds x hx
    refine ⟨m, hm, ?_⟩
    rw [hown.families, Render.families, List.mem_append, Option.mem_toList, List.mem_singleton,
      Option.map_eq_some_iff] at hf
    rcases hf with ⟨value, hvalue, rfl⟩ | rfl
    · exact Or.inl ⟨Option.isSome_iff_exists.mpr ⟨value, hvalue⟩, rfl, rfl⟩
    · exact Or.inr ⟨rfl, rfl⟩
  · rintro ⟨m, hm, hheading⟩
    obtain ⟨x, hx, s, hown⟩ := hplanned m hm
    rcases hheading with ⟨hvalue, hname, hkind⟩ | ⟨hname, hkind⟩
    · obtain ⟨value, hvalue⟩ := Option.isSome_iff_exists.mp hvalue
      refine ⟨Render.valueFamily m s.identity value, ⟨x, hx, ?_⟩, hname, hkind⟩
      rw [hown.families, Render.families, hvalue]
      exact List.mem_cons_self
    · refine ⟨Render.upFamily m s.identity x.2.isDone, ⟨x, hx, ?_⟩, hname, hkind⟩
      rw [hown.families, Render.families]
      exact List.mem_append_right _ (List.mem_singleton.mpr rfl)

/-- Shaped families of one name are of one kind exactly if what bears the name of a companion is a
gauge. -/
theorem Consistent.kindsAgree_iff (hvalid : c.problems check = []) (h : Consistent c.catalog e) :
    KindsAgree e.shapedFamilies ↔ GaugesOnCompanions c.catalog e.scrape.2.lastGood := by
  have hshaped := h.exists_shapedFamily (Catalog.build_indexed c.definitions)
    (Config.nodup_plan hvalid)
  constructor
  · intro hagree m hm m' hm' hname hvalue
    obtain ⟨f, hf, hfname, hfkind⟩ :=
      (hshaped m'.name m'.type.kind).mpr ⟨m', hm', Or.inl ⟨hvalue, rfl, rfl⟩⟩
    obtain ⟨g, hg, hgname, hgkind⟩ :=
      (hshaped (Render.upName m.name) .gauge).mpr ⟨m, hm, Or.inr ⟨rfl, rfl⟩⟩
    have hsame := hagree f hf g hg (hfname.trans (hname.trans hgname.symm))
    rw [hfkind, hgkind] at hsame
    exact MetricType.kind_eq_gauge.mp hsame
  · intro hgauges f hf g hg hname
    obtain ⟨m, hm, hown⟩ := (hshaped f.name f.kind).mp ⟨f, hf, rfl, rfl⟩
    obtain ⟨m', hm', hown'⟩ := (hshaped g.name g.kind).mp ⟨g, hg, rfl, rfl⟩
    rcases hown with ⟨hvalue, hfname, hfkind⟩ | ⟨hfname, hfkind⟩ <;>
      rcases hown' with ⟨hvalue', hgname, hgkind⟩ | ⟨hgname, hgkind⟩
    · -- Two values: the rules see to it.
      have hmetrics := hfname.trans (hname.trans hgname.symm)
      rw [← hfkind, ← hgkind, Config.type_eq_of_name hvalid (ruled_of_planned hvalid hm).1
        (ruled_of_planned hvalid hm').1 hmetrics]
    · have htype := hgauges m' hm' m hm (hfname.trans (hname.trans hgname.symm)) hvalue
      rw [← hfkind, ← hgkind, htype]
      rfl
    · have htype := hgauges m hm m' hm' (hgname.trans (hname.symm.trans hfname.symm)) hvalue'
      rw [← hfkind, ← hgkind, htype]
      rfl
    · exact hfkind.symm.trans hgkind

/-- Every shaped family is part of a family of its own kind in the output. -/
def PrintsOwnKinds (e : Exporter) : Prop :=
  ∀ f ∈ e.shapedFamilies, ∀ g ∈ e.composition.output.families, g.name = f.name → g.kind = f.kind

/-- A forwarded family that comes first under the name of a shaped one is of its kind. -/
def ForwardsYield (e : Exporter) : Prop :=
  ∀ f ∈ e.shapedFamilies, ∀ first ∈ e.forwardedFamilies,
    e.addedFamilies.find? (·.name = f.name) = some first → first.kind = f.kind

/-- The output has the names of the families that were added, each with the kind of the first. -/
theorem Consistent.output_kinds (hindexed : catalog.Indexed)
    (hplan : (catalog.plan.filterMap ScrapeTask.metric?).Nodup) (h : Consistent catalog e) :
    (∀ f ∈ e.addedFamilies, ∃ g ∈ e.composition.output.families, g.name = f.name) ∧
      ∀ g ∈ e.composition.output.families, ∃ first,
        e.addedFamilies.find? (·.name = g.name) = some first ∧ first.kind = g.kind := by
  obtain ⟨fates, -, hreports, -, houtput, -⟩ := h.shows hindexed hplan
  rw [← h.catalog, ← addedFamilies_eq hreports] at houtput
  have hkept := Output.wellKept_empty.extend e.addedFamilies
  rw [houtput]
  constructor
  · intro f hf
    exact List.mem_map.mp ((Output.mem_names_extend f.name e.addedFamilies).mpr ⟨f, hf, rfl⟩)
  · intro g hg
    have hkind := hkept.kind?_of_mem hg
    rw [Output.wellKept_empty.kind?_extend] at hkind
    exact Option.map_eq_some_iff.mp hkind

/-- Shaped families are printed under their own kinds exactly if they agree among each other and no
forwarded family comes before them with another kind. -/
theorem Consistent.printsOwnKinds_iff (hindexed : catalog.Indexed)
    (hplan : (catalog.plan.filterMap ScrapeTask.metric?).Nodup) (h : Consistent catalog e) :
    e.PrintsOwnKinds ↔ KindsAgree e.shapedFamilies ∧ e.ForwardsYield := by
  obtain ⟨hnames, hkinds⟩ := h.output_kinds hindexed hplan
  constructor
  · intro hprints
    constructor
    · intro f hf g hg hname
      obtain ⟨merged, hmerged, hmname⟩ := hnames f (mem_addedFamilies.mpr (Or.inl hf))
      rw [← hprints f hf merged hmerged hmname,
        hprints g hg merged hmerged (hmname.trans hname)]
    · intro f hf first _ hfirst
      obtain ⟨merged, hmerged, hmname⟩ := hnames f (mem_addedFamilies.mpr (Or.inl hf))
      obtain ⟨own, hown, hkind⟩ := hkinds merged hmerged
      rw [hmname, hfirst] at hown
      rw [Option.some.inj hown, hkind]
      exact hprints f hf merged hmerged hmname
  · rintro ⟨hagree, hyield⟩ f hf merged hmerged hmname
    obtain ⟨first, hfirst, hkind⟩ := hkinds merged hmerged
    rw [hmname] at hfirst
    have hname : first.name = f.name := by simpa using List.find?_some hfirst
    rw [← hkind]
    rcases mem_addedFamilies.mp (List.mem_of_find?_eq_some hfirst) with hshaped | hforwarded
    · exact hagree first hshaped f hf hname
    · exact hyield f hf first hforwarded hfirst

/-- The shaped families that a scrape of a valid configuration merges agree in kind exactly if
every metric with a value that bears the name of a companion is a gauge; they are printed under
their own kinds exactly if, moreover, no forwarded family comes first with another one. -/
theorem kinds_agree_iff (hvalid : c.problems check = []) (h : Reached c.catalog e) :
    (KindsAgree e.shapedFamilies ↔ GaugesOnCompanions c.catalog e.scrape.2.lastGood) ∧
      (e.PrintsOwnKinds ↔
        GaugesOnCompanions c.catalog e.scrape.2.lastGood ∧ e.ForwardsYield) := by
  have hindexed := Catalog.build_indexed c.definitions
  have hplan := Config.nodup_plan hvalid
  have hconsistent := h.consistent hindexed hplan
  have hagree := hconsistent.kindsAgree_iff hvalid
  exact ⟨hagree, by rw [hconsistent.printsOwnKinds_iff hindexed hplan, hagree]⟩

def loadAndUp (type : MetricType) : Config where
  settings := ⟨.default, .default, .default⟩
  definitions := [{
      service := ⟨"disk", .file, "", 0, "/srv/disk", none⟩
      metrics := [⟨"load", .gauge, "", ⟨"jsonpath", "/value"⟩, [], none, none⟩]
      resources := [⟨"stats", "stats.json", "GET", .api, .json, ["load"], none⟩] }, {
      service := ⟨"tape", .file, "", 0, "/srv/tape", none⟩
      metrics := [⟨"load_up", type, "", ⟨"jsonpath", "/value"⟩, [], none, none⟩]
      resources := [⟨"stats", "stats.json", "GET", .api, .json, ["load_up"], none⟩] }]

def withLoadAndUp (type : MetricType) : Exporter :=
  let content := Text.Utf8.ascii "\x7b\"value\": 1\x7d".toList
  .start {} (loadAndUp type).catalog
    { workingDirectory := "/"
      kind := fun _ => .ok (.file content.length)
      read := fun _ => .ok content } {}

/-- A gauge agrees with the companion. -/
theorem kinds_agree_gaugeUp : (loadAndUp .gauge).problems Url.hosted = [] ∧
    KindsAgree (withLoadAndUp .gauge).shapedFamilies ∧
    (withLoadAndUp .gauge).PrintsOwnKinds := by
  have hvalid : (loadAndUp .gauge).problems Url.hosted = [] := by decide
  obtain ⟨hagree, hprints⟩ := kinds_agree_iff hvalid (e := withLoadAndUp .gauge) (.start ..)
  have hgauges : GaugesOnCompanions (loadAndUp .gauge).catalog
      (withLoadAndUp .gauge).scrape.2.lastGood := by
    have htypes : ∀ m ∈ (loadAndUp .gauge).catalog.plannedMetrics, m.type = .gauge := by decide
    exact fun _ _ m' hm' _ _ => htypes m' hm'
  have hnone : (withLoadAndUp .gauge).forwardedFamilies = [] :=
    List.length_eq_zero_iff.mp (by decide +kernel)
  refine ⟨hvalid, hagree.mpr hgauges, hprints.mpr ⟨hgauges, ?_⟩⟩
  intro f _ first hfirst
  rw [hnone] at hfirst
  cases hfirst

/-- A counter with the name of a companion is valid, and printed as a gauge. -/
theorem not_kinds_agree_counterUp : (loadAndUp .counter).problems Url.hosted = [] ∧
    ¬ KindsAgree (withLoadAndUp .counter).shapedFamilies ∧
    ¬ (withLoadAndUp .counter).PrintsOwnKinds := by
  have hvalid : (loadAndUp .counter).problems Url.hosted = [] := by decide
  have hindexed := Catalog.build_indexed (loadAndUp .counter).definitions
  have hplan := Config.nodup_plan hvalid
  have hreached : Reached (loadAndUp .counter).catalog (withLoadAndUp .counter) := .start ..
  have hconsistent := hreached.consistent hindexed hplan
  have hdiffer : ¬ KindsAgree (withLoadAndUp .counter).shapedFamilies := by
    rw [hconsistent.kindsAgree_iff hvalid]
    intro hgauges
    have hvalue : ((withLoadAndUp .counter).scrape.2.lastGood.get? ⟨1⟩).isSome := by
      decide +kernel
    have htype := hgauges _ (List.mem_cons_self) _ (List.mem_cons_of_mem _ List.mem_cons_self)
      rfl hvalue
    cases htype
  refine ⟨hvalid, hdiffer, fun hprints => hdiffer ?_⟩
  exact ((hconsistent.printsOwnKinds_iff hindexed hplan).mp hprints).1

end Exporter
end MetricRelay
