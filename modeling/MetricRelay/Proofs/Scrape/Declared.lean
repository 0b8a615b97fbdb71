import MetricRelay.Proofs.Output
import MetricRelay.Proofs.Scrape.Reached
import MetricRelay.Proofs.SelfMetrics

/-!
# The families that a scrape declares

The body of a scrape is made of the gauges of the exporter and of an output that
holds every name once. A name comes twice exactly if a metric with a value bears
the name of one of the gauges that the scrape shows.
-/

namespace MetricRelay

open MetricRelay.Composition (contribution shown)
open Exposition (Printable declared)

/-- A family that a task adds is one of a metric, or was relabelled. -/
theorem mem_contribution {catalog : Catalog} {before : LastGood} {x : ScrapeTask × Fate}
    (hsourced : (x.2.report x.1).Sourced catalog) {f : Family}
    (hf : f ∈ contribution catalog before x) :
    (∃ service resource id m s, x.1 = .metric service resource id ∧ catalog.metric? id = some m ∧
      catalog.service? service = some s ∧
      ((∃ value, shown before id x.2 = some value ∧ f = Render.valueFamily m s.identity value) ∨
        f = Render.upFamily m s.identity x.2.isDone)) ∨
    ∃ identity body families, relabel identity body = .ok families ∧ f ∈ families := by
  obtain ⟨task, fate⟩ := x
  cases task with
  | metric service resource id =>
    cases hm : catalog.metric? id with
    | none => simp [contribution, hm] at hf
    | some m =>
      cases hs : catalog.service? service with
      | none => simp [contribution, hm, hs] at hf
      | some s =>
        refine Or.inl ⟨service, resource, id, m, s, rfl, hm, hs, ?_⟩
        rw [Composition.contribution_metric hm hs, List.mem_append, Option.mem_toList,
          Option.map_eq_some_iff, List.mem_singleton] at hf
        rcases hf with ⟨value, hvalue, rfl⟩ | hup
        · exact Or.inl ⟨value, hvalue, rfl⟩
        · exact Or.inr hup
  | forward service resource =>
    cases fate with
    | done finished found =>
      cases found with
      | shaped value => cases hf
      | families families =>
        obtain ⟨identity, body, hrelabel⟩ := hsourced
        exact Or.inr ⟨identity, body, families, hrelabel, hf⟩
    | failed | crowdedOut | refused | late | dropped => cases hf

variable {check : Url.Check} {c : Config}

/-- Whatever a scrape of a valid configuration adds can be printed. -/
theorem printable_contribution (hvalid : c.problems check = []) {before : LastGood}
    {x : ScrapeTask × Fate} (hsourced : (x.2.report x.1).Sourced c.catalog) :
    ∀ f ∈ contribution c.catalog before x, Printable f := by
  intro f hf
  rcases mem_contribution hsourced hf with
    ⟨_, _, _, m, s, -, hm, -, hfamily⟩ | ⟨_, _, families, hrelabel, hmem⟩
  · have hruled := Config.metric_ruled hvalid (Catalog.mem_of_metric? hm)
    rcases hfamily with ⟨value, -, rfl⟩ | rfl
    · exact Render.printable_valueFamily s.identity hruled value
    · exact Render.printable_upFamily s.identity hruled x.2.isDone
  · exact (Exposition.legible_of_relabel hrelabel f hmem).printable

open SelfMetrics in
/-- Measuring a service sets the two gauges of services. -/
theorem Composition.measure_ne_nil (c : Composition) (started : Nat) (m : SelfMetrics)
    (s : Catalog.Service) : (c.measure started m s).series .scrapeDuration ≠ [] ∧
      (c.measure started m s).series .samplesScraped ≠ [] :=
  ⟨set_ne_nil (set_self_ne_nil m .scrapeDuration s.origin _) _ _ _, set_self_ne_nil _ _ _ _⟩

namespace Exporter

def composition (e : Exporter) : Composition :=
  Composition.ofReports e.catalog e.lastGood e.reports

def finalSnapshot (e : Exporter) : Snapshot :=
  (e.scrape.2.world.snapshots[e.world.snapshots.length]?).getD (.fresh e.world.seriesKey e.now)

def gauges (e : Exporter) : SelfMetrics :=
  e.catalog.services.foldl (e.composition.measure e.now) e.finalSnapshot.metrics

theorem scrape_body (e : Exporter) : e.scrape.1.body =
    Exposition.text e.gauges.families ++ Exposition.text e.composition.output.families := by
  obtain ⟨submissions, l, hsubmitted⟩ : ∃ submissions l, e.submitted = (submissions, l) :=
    ⟨_, _, rfl⟩
  obtain ⟨reports, l', hcollected⟩ : ∃ reports l', e.collected = (reports, l') := ⟨_, _, rfl⟩
  rw [gauges, finalSnapshot, composition, Exporter.reports, hcollected, hsubmitted]
  rw [collected, hsubmitted] at hcollected
  rw [submitted, opened] at hsubmitted
  rw [scrape]
  simp only [hsubmitted, hcollected]
  rfl

/-- As soon as there is a service, the two gauges of services have series. -/
theorem gauges_ne_nil {e : Exporter} (h : e.catalog.services ≠ []) :
    e.gauges.series .scrapeDuration ≠ [] ∧ e.gauges.series .samplesScraped ≠ [] := by
  rw [gauges, ← List.dropLast_append_getLast h, List.foldl_append]
  exact Composition.measure_ne_nil _ _ _ _

variable {catalog : Catalog} {e : Exporter}

/-- What a scrape adds to its output, and which values it shows. -/
theorem Consistent.shows (hindexed : catalog.Indexed)
    (hplan : (catalog.plan.filterMap ScrapeTask.metric?).Nodup) (h : Consistent catalog e) :
    ∃ fates, Settled catalog fates ∧ e.reports = fates.reports ∧
      (∀ x ∈ fates, (x.2.report x.1).Sourced catalog) ∧
      e.composition.output =
        Output.extend {} (fates.ordered.flatMap (contribution catalog e.lastGood)) ∧
      ∀ service resource id fate, (.metric service resource id, fate) ∈ fates →
        e.scrape.2.lastGood.get? id = shown e.lastGood id fate := by
  obtain ⟨fates, hsettled, hreports, hsourced⟩ := h.settles hindexed
  have haccounts := ofReports_accounts hindexed hplan hsettled e.lastGood
  refine ⟨fates, hsettled, hreports, hsourced, ?_, ?_⟩
  · rw [composition, h.catalog, hreports]
    exact haccounts.output
  · intro service resource id fate hmem
    obtain ⟨-, hlast, -⟩ := e.scrape_eq
    rw [hlast, h.catalog, hreports]
    exact haccounts.recorded service resource id fate hmem

/-- The families of a scrape's output: those of the metrics, and others that are not named as a
gauge. -/
theorem Consistent.mem_names (hindexed : catalog.Indexed)
    (hplan : (catalog.plan.filterMap ScrapeTask.metric?).Nodup) (h : Consistent catalog e)
    (hafter : Consistent catalog e.scrape.2) (g : SelfMetrics.Gauge) :
    g.name ∈ e.composition.output.families.map (·.name) ↔
      ∃ m ∈ catalog.metrics, (e.scrape.2.lastGood.get? m.id).isSome ∧ m.name = g.name := by
  obtain ⟨fates, hsettled, -, hsourced, houtput, hshown⟩ := h.shows hindexed hplan
  rw [houtput, Output.mem_names_extend]
  constructor
  · rintro ⟨f, hf, hname⟩
    obtain ⟨x, hx, hmem⟩ := List.mem_flatMap.mp hf
    have hx := fates.ordered_perm.mem_iff.mp hx
    rcases mem_contribution (hsourced x hx) hmem with
      ⟨service, resource, id, m, s, htask, hm, -, hfamily⟩ | ⟨_, _, families, hrelabel, hin⟩
    · rcases hfamily with ⟨value, hvalue, rfl⟩ | rfl
      · refine ⟨m, Catalog.mem_of_metric? hm, ?_, hname⟩
        obtain ⟨task, fate⟩ := x
        subst htask
        rw [hindexed.metric_at _ m hm, hshown service resource id fate hx, hvalue]
        rfl
      · exact absurd hname (SelfMetrics.upName_ne m.name g)
    · refine absurd ?_ (SelfMetrics.name_of_relabel hrelabel f hin)
      exact (SelfMetrics.reserved_iff _).mpr ⟨g, hname.symm⟩
  · rintro ⟨m, hm, hvalue, hname⟩
    obtain ⟨value, hvalue⟩ := Option.isSome_iff_exists.mp hvalue
    obtain ⟨task, htask, hfed⟩ := List.mem_filterMap.mp (hafter.remembered m.id value hvalue).1
    cases task with
    | forward service resource => cases hfed
    | metric service resource id =>
      obtain rfl := Option.some.inj hfed
      rw [← hsettled.tasks] at htask
      obtain ⟨⟨own, fate⟩, hx, rfl⟩ := List.mem_map.mp htask
      obtain ⟨⟨m', hm'⟩, s, hs⟩ := hsettled.known hindexed _ hx
      obtain rfl : m = m' := by
        obtain ⟨i, hi⟩ := List.mem_iff_getElem?.mp hm
        rw [hindexed.metric_at i m hi] at hm'
        exact Option.some.inj (hi.symm.trans hm')
      rw [hshown service resource m.id fate hx] at hvalue
      refine ⟨Render.valueFamily m s.identity value, List.mem_flatMap.mpr
        ⟨_, fates.ordered_perm.mem_iff.mpr hx, ?_⟩, hname⟩
      rw [Composition.contribution_metric hm' hs, hvalue]
      exact List.mem_cons_self

/-- The whole output of a scrape can be printed. -/
theorem Consistent.printable_output (hvalid : c.problems check = [])
    (h : Consistent c.catalog e) : ∀ f ∈ e.composition.output.families, Printable f := by
  obtain ⟨fates, -, -, hsourced, houtput, -⟩ :=
    h.shows (Catalog.build_indexed c.definitions) (Config.nodup_plan hvalid)
  have hcontributions : ∀ f ∈ fates.ordered.flatMap (contribution c.catalog e.lastGood),
      Printable f := by
    intro f hf
    obtain ⟨x, hx, hmem⟩ := List.mem_flatMap.mp hf
    exact printable_contribution hvalid (hsourced x (fates.ordered_perm.mem_iff.mp hx)) f hmem
  intro f hf
  obtain ⟨entry, hentry, rfl⟩ := List.mem_map.mp hf
  rw [houtput] at hentry
  refine Output.forall_extend (P := Printable) ?_ hcontributions (by simp) entry hentry
  intro f g hf hg
  refine ⟨hf.name_ne, hf.name, fun s hs => ?_⟩
  rcases List.mem_append.mp hs with hown | hother
  · exact hf.samples s hown
  · exact hg.samples s hother

/-- The families of a scrape, those of the gauges first. -/
theorem Consistent.printable_families (hvalid : c.problems check = [])
    (h : Consistent c.catalog e) :
    ∀ f ∈ e.gauges.families ++ e.composition.output.families, Printable f := by
  intro f hf
  rcases List.mem_append.mp hf with hgauge | hfamily
  · exact e.gauges.printable_families f hgauge
  · exact h.printable_output hvalid f hfamily

/-- The body of a scrape declares its gauges and then its output. -/
theorem Consistent.declared_body (hvalid : c.problems check = [])
    (h : Consistent c.catalog e) : declared e.scrape.1.body =
      e.gauges.families.map (·.name) ++ e.composition.output.families.map (·.name) := by
  rw [scrape_body, ← Exposition.text_append,
    Exposition.declared_text (h.printable_families hvalid), List.map_append]

/-- Neither the gauges nor the output have a name twice, so only the two together can. -/
theorem Consistent.nodup_declared_iff (hvalid : c.problems check = [])
    (h : Consistent c.catalog e) : (declared e.scrape.1.body).Nodup ↔
      ∀ g : SelfMetrics.Gauge, e.gauges.series g ≠ [] →
        g.name ∉ e.composition.output.families.map (·.name) := by
  have hkept : e.composition.output.WellKept := by
    obtain ⟨_, -, -, -, houtput, -⟩ :=
      h.shows (Catalog.build_indexed c.definitions) (Config.nodup_plan hvalid)
    rw [houtput]
    exact Output.wellKept_empty.extend _
  rw [h.declared_body hvalid, List.nodup_append]
  constructor
  · rintro ⟨-, -, hapart⟩ g hseries hmem
    exact hapart g.name ((e.gauges.mem_names_families _).mpr ⟨g, hseries, rfl⟩) g.name hmem rfl
  · intro hapart
    refine ⟨e.gauges.nodup_names_families, hkept.nodup, ?_⟩
    rintro name hgauge _ hfamily rfl
    obtain ⟨g, hseries, rfl⟩ := (e.gauges.mem_names_families _).mp hgauge
    exact hapart g hseries hfamily

/-- A scrape of a valid configuration declares no family twice exactly if no metric that has a
value bears the name of a gauge that has a series. -/
theorem declares_once_iff (hvalid : c.problems check = []) (h : Reached c.catalog e) :
    (declared e.scrape.1.body).Nodup ↔
      ∀ m ∈ c.catalog.metrics, (e.scrape.2.lastGood.get? m.id).isSome →
        ∀ g : SelfMetrics.Gauge, e.gauges.series g ≠ [] → m.name ≠ g.name := by
  have hindexed := Catalog.build_indexed c.definitions
  have hplan := Config.nodup_plan hvalid
  have hnames := (h.consistent hindexed hplan).mem_names hindexed hplan
    (h.scrape.consistent hindexed hplan)
  rw [(h.consistent hindexed hplan).nodup_declared_iff hvalid]
  constructor
  · intro hapart m hm hvalue g hseries hname
    exact hapart g hseries ((hnames g).mpr ⟨m, hm, hvalue, hname⟩)
  · intro hapart g hseries hmem
    obtain ⟨m, hm, hvalue, hname⟩ := (hnames g).mp hmem
    exact hapart m hm hvalue g hseries hname

def oneGauge (name : String) : Config where
  settings := ⟨.default, .default, .default⟩
  definitions := [{
    service := ⟨"disk", .file, "", 0, "/srv", none⟩
    metrics := [⟨name, .gauge, "", ⟨"jsonpath", "/value"⟩, [], none, none⟩]
    resources := [⟨"stats", "stats.json", "GET", .api, .json, [name], none⟩] }]

def withOneGauge (name : String) : Exporter :=
  let content := Text.Utf8.ascii "\x7b\"value\": 1\x7d".toList
  .start {} (oneGauge name).catalog
    { workingDirectory := "/"
      kind := fun _ => .ok (.file content.length)
      read := fun _ => .ok content } {}

/-- A gauge with a name of its own is declared once. -/
theorem declares_once_load : (oneGauge "load").problems Url.hosted = [] ∧
    (declared (withOneGauge "load").scrape.1.body).Nodup := by
  have hvalid : (oneGauge "load").problems Url.hosted = [] := by decide
  refine ⟨hvalid, (declares_once_iff hvalid (.start ..)).mpr ?_⟩
  have hfree : ∀ m ∈ (oneGauge "load").catalog.metrics, m.name ∉ SelfMetrics.reservedNames := by
    decide
  intro m hm _ g _ hname
  exact hfree m hm ((SelfMetrics.reserved_iff _).mpr ⟨g, hname.symm⟩)

/-- A gauge with the name of one of the exporter's own is valid, and declared twice. -/
theorem not_declares_once_scrapeDuration :
    (oneGauge "scrape_duration_seconds").problems Url.hosted = [] ∧
    ¬ (declared (withOneGauge "scrape_duration_seconds").scrape.1.body).Nodup := by
  have hvalid : (oneGauge "scrape_duration_seconds").problems Url.hosted = [] := by decide
  refine ⟨hvalid, ?_⟩
  have hindexed := Catalog.build_indexed (oneGauge "scrape_duration_seconds").definitions
  have hplan := Config.nodup_plan hvalid
  have hreached : Reached (oneGauge "scrape_duration_seconds").catalog
    (withOneGauge "scrape_duration_seconds") := .start ..
  have hvalue : ((withOneGauge "scrape_duration_seconds").scrape.2.lastGood.get? ⟨0⟩).isSome := by
    decide +kernel
  have hgauge := (gauges_ne_nil (e := withOneGauge "scrape_duration_seconds") (by decide)).1
  rw [(hreached.consistent hindexed hplan).nodup_declared_iff hvalid]
  intro hapart
  refine hapart .scrapeDuration hgauge ?_
  refine ((hreached.consistent hindexed hplan).mem_names hindexed hplan
    (hreached.scrape.consistent hindexed hplan) .scrapeDuration).mpr ?_
  exact ⟨_, List.mem_singleton.mpr rfl, hvalue, rfl⟩

end Exporter
end MetricRelay
