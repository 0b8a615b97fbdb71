import MetricRelay.Proofs.Catalog.Complete
import MetricRelay.Proofs.Scrape.Tally

/-!
# What the gauge of the samples tells

Every scrape sets this gauge once for each service. The gauge keeps one series for each
key, and services of one key share it: however the keys are made, it tells of every
service what its tasks have brought exactly if no two services have one key.
-/

namespace MetricRelay

open MetricRelay.Composition (contribution given standIn brought)
open MetricRelay.SelfMetrics (Key Series keys setSeries)

/-- The gauge of the samples tells of the service that there are `n` of them, and nothing else. -/
def SelfMetrics.Tells (gauges : SelfMetrics) (s : Catalog.Service) (n : Nat) : Prop :=
  (∃ sample ∈ (gauges.family .samplesScraped).samples, sample.labels = s.origin.labels) ∧
    ∀ sample ∈ (gauges.family .samplesScraped).samples, sample.labels = s.origin.labels →
      sample.value = Float.ofNat n

namespace Composition

def seriesOf (c : Composition) (s : Catalog.Service) : Series :=
  ⟨s.origin, Float.ofNat ((get s.id c.samples).getD 0)⟩

def tallied (c : Composition) (key : Key) (services : List Catalog.Service)
    (series : List Series) : List Series :=
  services.foldl (fun series s => setSeries key s.origin (c.seriesOf s).value series) series

variable (c : Composition) (key : Key) (services : List Catalog.Service)

theorem series_measured (started : Nat) (m : SelfMetrics) :
    (services.foldl (c.measure started) m).series .samplesScraped =
      c.tallied m.key services (m.series .samplesScraped) := by
  induction services generalizing m with
  | nil => rfl
  | cons s rest ih => exact ih (c.measure started m s)

theorem key_measured (started : Nat) (m : SelfMetrics) :
    (services.foldl (c.measure started) m).key = m.key := by
  induction services generalizing m with
  | nil => rfl
  | cons s rest ih => exact ih (c.measure started m s)

theorem nodup_tallied {series : List Series} (h : (keys key series).Nodup) :
    (keys key (c.tallied key services series)).Nodup := by
  induction services generalizing series with
  | nil => exact h
  | cons s rest ih => exact ih (SelfMetrics.nodup_setSeries key s.origin _ h)

/-- Services of keys of their own get series of their own. -/
theorem tallied_of_apart {series : List Series}
    (h : (keys key series ++ services.map fun s => key s.origin.values).Nodup) :
    c.tallied key services series = series ++ services.map c.seriesOf := by
  induction services generalizing series with
  | nil => exact (List.append_nil series).symm
  | cons s rest ih =>
    have hnew : key s.origin.values ∉ keys key series := fun hmem =>
      List.disjoint_of_nodup_append h hmem List.mem_cons_self
    have hfirst : setSeries key s.origin (c.seriesOf s).value series = series ++ [c.seriesOf s] :=
      SelfMetrics.setSeries_of_new key _ hnew
    have hrest : (keys key (series ++ [c.seriesOf s]) ++
        rest.map fun s => key s.origin.values).Nodup := by
      rw [keys, List.map_append, List.append_assoc]
      exact h
    change c.tallied key rest (setSeries key s.origin (c.seriesOf s).value series) = _
    rw [hfirst, ih hrest, List.append_assoc]
    rfl

variable {services}

/-- After a scrape the gauge tells of all services exactly if they have keys of their own. -/
theorem tells_all_iff (hservices : services.Nodup)
    (hnames : ∀ s ∈ services, ∀ s' ∈ services, s.name = s'.name → s = s') (started : Nat)
    {m : SelfMetrics} (hm : m.series .samplesScraped = []) :
    (∀ s ∈ services, (services.foldl (c.measure started) m).Tells s
        ((get s.id c.samples).getD 0)) ↔
      (services.map fun s => m.key s.origin.values).Nodup := by
  have hseries := c.series_measured services started m
  rw [hm] at hseries
  constructor
  · intro htells
    have hown : ∀ s ∈ services, ∃ x ∈ c.tallied m.key services [], x.origin = s.origin := by
      intro s hs
      obtain ⟨sample, hsample, hlabels⟩ := (htells s hs).1
      obtain ⟨x, hx, rfl⟩ := SelfMetrics.mem_samples_family.mp hsample
      exact ⟨x, hseries ▸ hx, SelfMetrics.labels_injective hlabels⟩
    refine hservices.map_on fun s hs s' hs' hkey => ?_
    obtain ⟨x, hx, hxs⟩ := hown s hs
    obtain ⟨x', hx', hxs'⟩ := hown s' hs'
    have hkept : (keys m.key (c.tallied m.key services [])).Nodup :=
      c.nodup_tallied m.key services (List.nodup_nil : (keys m.key []).Nodup)
    have hsame : x = x' := List.inj_on_of_nodup_map hkept hx hx' (by rw [hxs, hxs', hkey])
    have horigin : s.origin = s'.origin := by rw [← hxs, ← hxs', hsame]
    exact hnames s hs s' hs' (congrArg SelfMetrics.Origin.job horigin)
  · intro hnodup s hs
    have hall : c.tallied m.key services [] = [] ++ services.map c.seriesOf :=
      c.tallied_of_apart m.key services hnodup
    rw [hall, List.nil_append] at hseries
    constructor
    · refine ⟨_, SelfMetrics.mem_samples_family.mpr ⟨c.seriesOf s, ?_, rfl⟩, rfl⟩
      rw [hseries]
      exact List.mem_map_of_mem hs
    · intro sample hsample hlabels
      obtain ⟨x, hx, rfl⟩ := SelfMetrics.mem_samples_family.mp hsample
      rw [hseries] at hx
      obtain ⟨s', hs', rfl⟩ := List.mem_map.mp hx
      have horigin : s'.origin = s.origin := SelfMetrics.labels_injective hlabels
      obtain rfl := hnames s' hs' s hs (congrArg SelfMetrics.Origin.job horigin)
      rfl

end Composition

/-! ### The gauges of a scrape -/

namespace ScrapeJob

/-- What the tasks of a scrape leave alone of its gauges. -/
def untouched (s : Snapshot) : List Series × Key :=
  (s.metrics.series .samplesScraped, s.metrics.key)

theorem documentShelf_uncounted : Snapshot.documentShelf.Lawful untouched where
  flight_withFlight _ _ := rfl
  flight_note _ _ _ _ _ := rfl
  rest_withFlight _ _ := rfl
  rest_note _ _ _ _ _ := rfl

theorem expositionShelf_uncounted : Snapshot.expositionShelf.Lawful untouched where
  flight_withFlight _ _ := rfl
  flight_note _ _ _ _ _ := rfl
  rest_withFlight _ _ := rfl
  rest_note _ _ _ _ _ := rfl

theorem snapshot_of_scene? {j : ScrapeJob} {w : World} {scene : Scene}
    (h : j.scene? w = some scene) : w.snapshots[j.snapshot]? = some scene.snapshot := by
  obtain ⟨resource, -, h⟩ := Option.bind_eq_some_iff.mp h
  obtain ⟨service, -, h⟩ := Option.bind_eq_some_iff.mp h
  obtain ⟨snapshot, hsnapshot, h⟩ := Option.bind_eq_some_iff.mp h
  obtain rfl := Option.some.inj h
  exact hsnapshot

/-- A turn leaves the gauge of the samples alone. -/
theorem behave_uncounted (now caller : Nat) (j : ScrapeJob) (w : World) :
    (behave now caller j w).shared.snapshots = w.snapshots ∨
      ∃ before after, w.snapshots[j.snapshot]? = some before ∧
        (behave now caller j w).shared.snapshots = w.snapshots.set j.snapshot after ∧
        untouched after = untouched before := by
  cases hscene : j.scene? w with
  | none =>
    rw [behave, hscene]
    exact Or.inl rfl
  | some scene =>
    have hbefore := snapshot_of_scene? hscene
    cases htask : j.task with
    | forward service resource =>
      rw [behave_forward hscene htask]
      obtain ⟨after, hsnapshots, hgauge, -⟩ := turnAt_stays expositionShelf_uncounted
      exact Or.inr ⟨scene.snapshot, after, hbefore, hsnapshots, hgauge⟩
    | metric service resource id =>
      cases hm : w.catalog.metric? id with
      | none =>
        rw [behave, hscene]
        simp only [htask, hm]
        exact Or.inl trivial
      | some m =>
        rw [behave_metric hscene htask hm]
        obtain ⟨after, hsnapshots, hgauge, -⟩ := turnAt_stays documentShelf_uncounted
        exact Or.inr ⟨scene.snapshot, after, hbefore, hsnapshots, hgauge⟩

end ScrapeJob

namespace Exporter

/-- Nothing has set the gauge of the samples of this scrape, whose series have these keys. -/
def Uncounted (number : Nat) (key : Key) (w : World) (_ : List (Task Activity Finding)) : Prop :=
  ∀ s, w.snapshots[number]? = some s → ScrapeJob.untouched s = ([], key)

theorem Uncounted.turn {number : Nat} {key : Key} {w : World}
    {tasks : List (Task Activity Finding)} (h : Uncounted number key w tasks) (now me : Nat)
    (a : Activity) (tasks' : List (Task Activity Finding)) :
    Uncounted number key (Activity.behave now me a w).shared tasks' := by
  cases a with
  | task job =>
    intro s hs
    have hturn : (Activity.behave now me (.task job) w).shared.snapshots =
      (ScrapeJob.behave now me job w).shared.snapshots := rfl
    rw [hturn] at hs
    rcases ScrapeJob.behave_uncounted now me job w with
      hsame | ⟨before, after, hbefore, hset, hgauge⟩
    · rw [hsame] at hs
      exact h s hs
    · rw [hset] at hs
      rcases Race.getElem?_set_cases hs with old | ⟨rfl, rfl⟩
      · exact h s old
      · rw [hgauge]
        exact h before hbefore
  | token scope talk => exact h
  | fetch r talk =>
    have hturn : (Activity.behave now me (.fetch r talk) w).shared.snapshots = w.snapshots := by
      change (Activity.behaveFetch r now me talk w).shared.snapshots = _
      rw [Activity.behaveFetch]
      split <;> rfl
    intro s hs
    rw [hturn] at hs
    exact h s hs

theorem uncounted_kept (number : Nat) (key : Key) :
    EventLoop.Kept Activity.behave (Uncounted number key) where
  turn now _ h := h.turn now _ _ _
  lose _ h := h

/-- The tasks of a scrape leave the gauge of its samples to its end. -/
theorem finalSnapshot_uncounted (e : Exporter) :
    ScrapeJob.untouched e.finalSnapshot = ([], e.world.seriesKey) := by
  have hopened : Uncounted e.world.snapshots.length e.world.seriesKey e.opened.world
      e.opened.loop.tasks := by
    intro s hs
    have hfirst : e.opened.world.snapshots[e.world.snapshots.length]? =
      some (.fresh e.world.seriesKey e.now) := List.getElem?_concat_length
    obtain rfl := Option.some.inj (hfirst.symm.trans hs)
    rfl
  have hkept := uncounted_kept e.world.snapshots.length e.world.seriesKey
  have hsubmitted := submitAll_kept hkept e.world.snapshots.length (e.now + e.timeout)
    (fun _ _ _ h => h) e.opened.catalog.plan hopened
  have hcollected := collectAll_kept (e.now + e.timeout) hkept
    (e.submitted.1.filterMap Except.toOption) hsubmitted
  obtain ⟨hshared, -⟩ := e.scrape_eq
  rw [finalSnapshot, world, hshared, cancel, List.getElem?_modify_eq]
  cases hlast : e.collected.2.shared.snapshots[e.world.snapshots.length]? with
  | none => rfl
  | some s => exact hcollected s hlast

end Exporter

/-! ### Sums -/

/-- The samples of a scrape add up, in its counts, in its output and, as far as services have
keys of their own, in its gauge. -/
structure AddsUp (catalog : Catalog) (before : LastGood) (fates : Fates) (c : Composition)
    (gauges : SelfMetrics) : Prop where
  counted : ∀ s ∈ catalog.services,
    (Composition.get s.id c.samples).getD 0 = (given catalog fates s.id).length
  kept : (c.output.families.flatMap (·.samples)).Perm
    ((fates.flatMap (contribution catalog before)).flatMap (·.samples))
  total : (c.output.families.flatMap (·.samples)).length =
    (catalog.services.map fun s => (given catalog fates s.id).length).sum +
      (catalog.plan.filterMap ScrapeTask.metric?).length +
        ((fates.filterMap (standIn before)).map Shaped.sampleCount).sum
  told : (∀ s ∈ catalog.services, gauges.Tells s (given catalog fates s.id).length) ↔
    (catalog.services.map fun s => gauges.key s.origin.values).Nodup

theorem Catalog.Indexed.nodup_ids {c : Catalog} (h : c.Indexed) :
    (c.services.map (·.id)).Nodup := by
  rw [Catalog.numbered h.service_at]
  exact List.nodup_range.map fun i j heq => ServiceId.mk.inj heq

theorem Settled.served {catalog : Catalog} {fates : Fates} (h : Settled catalog fates)
    (hindexed : catalog.Indexed) :
    ∀ x ∈ fates, x.1.service ∈ catalog.services.map (·.id) := by
  intro x hx
  have htask : x.1 ∈ catalog.plan := h.tasks ▸ List.mem_map_of_mem hx
  obtain ⟨s, r, hplanned⟩ := hindexed.planned htask
  rw [← hindexed.id_of_service? hplanned.service]
  exact List.mem_map_of_mem (List.mem_of_getElem? hplanned.service)

/-- Whatever the fates are, the samples of their reports add up. -/
theorem ofReports_addsUp {check : Url.Check} {config : Config}
    (hvalid : config.problems check = []) {fates : Fates} (h : Settled config.catalog fates)
    (before : LastGood) (started : Nat) {m : SelfMetrics} (hm : m.series .samplesScraped = []) :
    AddsUp config.catalog before fates
      (Composition.ofReports config.catalog before fates.reports)
      (config.catalog.services.foldl ((Composition.ofReports config.catalog before
        fates.reports).measure started) m) := by
  have hindexed := Catalog.build_indexed config.definitions
  have hplan := Config.nodup_plan hvalid
  have hperm := fates.ordered_perm
  have hknown := h.known hindexed
  have hcounted : ∀ k, (Composition.get k (Composition.ofReports config.catalog before
      fates.reports).samples).getD 0 = (given config.catalog fates k).length := by
    intro k
    have hcount := Composition.count_foldl_add
      (fun x hx => hknown x (hperm.mem_iff.mp hx)) (fun x hx => h.fits x (hperm.mem_iff.mp hx)) k
      { lastGood := before }
    have hgiven :=
      ((hperm.filter (·.1.service = k)).flatMap_right (brought config.catalog)).length_eq
    exact (hcount.trans (Nat.zero_add _)).trans hgiven
  have hkept : ((Composition.ofReports config.catalog before
      fates.reports).output.families.flatMap (·.samples)).Perm
        ((fates.flatMap (contribution config.catalog before)).flatMap (·.samples)) := by
    rw [(ofReports_accounts hindexed hplan h before).output]
    exact (Output.samples_extend _).trans
      ((hperm.flatMap_right (contribution config.catalog before)).flatMap_right _)
  refine ⟨fun s _ => hcounted s.id, hkept, ?_, ?_⟩
  · have hfed : Composition.fedMetrics fates =
        config.catalog.plan.filterMap ScrapeTask.metric? := by
      rw [← h.tasks, List.filterMap_map]
      rfl
    have hsum : ((config.catalog.services.map (·.id)).map fun k =>
        (given config.catalog fates k).length).sum =
          (fates.flatMap (brought config.catalog)).length :=
      Composition.sum_given hindexed.nodup_ids (h.served hindexed)
    rw [List.map_map] at hsum
    rw [hkept.length_eq, Composition.length_contributions before hknown h.fits, hfed, ← hsum]
    rfl
  · have htells := Composition.tells_all_iff
      (Composition.ofReports config.catalog before fates.reports) (hindexed.nodup_ids.of_map _)
      (fun s hs s' hs' => Config.service_eq_of_name hvalid hs hs') started hm
    simp only [hcounted] at htells
    rw [Composition.key_measured]
    exact htells

/-- For every configuration without problems: whatever becomes of the tasks of a scrape, whatever
the latest good values are and however gauges find their series, the samples of the scrape add up;
and the scrapes of an exporter, in whatever state it is, are of this kind. -/
theorem samples_add_up {check : Url.Check} {config : Config} (hvalid : config.problems check = []) :
    (∀ before fates, Settled config.catalog fates →
      ∀ started (m : SelfMetrics), m.series .samplesScraped = [] →
        AddsUp config.catalog before fates
          (Composition.ofReports config.catalog before fates.reports)
          (config.catalog.services.foldl ((Composition.ofReports config.catalog before
            fates.reports).measure started) m)) ∧
    ∀ e : Exporter, e.catalog = config.catalog →
      ∃ fates, Settled config.catalog fates ∧ e.Joins fates ∧ e.reports = fates.reports ∧
        AddsUp config.catalog e.lastGood fates e.composition e.gauges ∧
        e.gauges.key = e.world.seriesKey ∧
        e.scrape.1.body = Exposition.text e.gauges.families ++
          Exposition.text e.composition.output.families := by
  refine ⟨fun before fates h started m hm => ofReports_addsUp hvalid h before started hm, ?_⟩
  intro e hcatalog
  obtain ⟨fates, hsettled, hreports, hjoins, -⟩ := e.reports_settle
  rw [hcatalog] at hsettled
  obtain ⟨hseries, hkey⟩ := Prod.mk.inj e.finalSnapshot_uncounted
  refine ⟨fates, hsettled, hjoins, hreports, ?_, (Composition.key_measured _ _ _ _).trans hkey,
    e.scrape_body⟩
  rw [Exporter.gauges, Exporter.composition, hcatalog, hreports]
  exact ofReports_addsUp hvalid hsettled e.lastGood e.now hseries

/-- A size is read and another one is forwarded, and of the rows the first ones are late. -/
def storeFates : Fates := [
  (.forward ⟨0⟩ ⟨0⟩, .done 3 (.families [{
    name := "size"
    samples := [⟨"size", [⟨"disk", "a"⟩], 1.0, none⟩, ⟨"size", [⟨"disk", "b"⟩], 2.0, none⟩] }])),
  (.metric ⟨0⟩ ⟨1⟩ ⟨1⟩, .done 5 (.shaped (.scalar 3.0))),
  (.metric ⟨0⟩ ⟨1⟩ ⟨0⟩, .late 10000),
  (.metric ⟨1⟩ ⟨2⟩ ⟨3⟩, .done 5 (.shaped (.scalar 4.0))),
  (.metric ⟨1⟩ ⟨3⟩ ⟨2⟩, .late 10000)]

theorem storeFates_settled : Settled twoStores.catalog storeFates := by
  refine ⟨by decide +kernel, ?_⟩
  intro x hx
  simp only [storeFates, List.mem_cons, List.not_mem_nil, or_false] at hx
  rcases hx with rfl | rfl | rfl | rfl | rfl <;> trivial

/-- Three samples and one, four companions, and the one that stands in for the late rows. -/
theorem samples_add_up_stores : twoStores.problems Url.hosted = [] ∧
    (∀ s ∈ twoStores.catalog.services,
      (twoStores.catalog.services.foldl ((Composition.ofReports twoStores.catalog
        (LastGood.record {} ⟨0⟩ (.scalar 5.0)) storeFates.reports).measure 0) {}).Tells s
          (if s.id = ⟨0⟩ then 3 else 1)) ∧
    ((Composition.ofReports twoStores.catalog (LastGood.record {} ⟨0⟩ (.scalar 5.0))
      storeFates.reports).output.families.flatMap (·.samples)).length = (3 + 1) + 4 + 1 ∧
    ∃ fates, Settled twoStores.catalog fates ∧
      AddsUp twoStores.catalog {} fates
        (Exporter.start {} twoStores.catalog (FileTree.access {} "/") {}).composition
        (Exporter.start {} twoStores.catalog (FileTree.access {} "/") {}).gauges := by
  have hvalid : twoStores.problems Url.hosted = [] := by decide +kernel
  obtain ⟨hall, hscrapes⟩ := samples_add_up hvalid
  have hsums := hall (LastGood.record {} ⟨0⟩ (.scalar 5.0)) storeFates storeFates_settled 0 {} rfl
  have hgiven : ∀ s ∈ twoStores.catalog.services,
      (given twoStores.catalog storeFates s.id).length = if s.id = ⟨0⟩ then 3 else 1 := by
    decide +kernel
  have htold := hsums.told.mpr (by decide +kernel)
  obtain ⟨fates, hsettled, -, -, hscrape, -⟩ :=
    hscrapes (Exporter.start {} twoStores.catalog (FileTree.access {} "/") {}) rfl
  refine ⟨hvalid, fun s hs => hgiven s hs ▸ htold s hs, ?_, fates, hsettled, hscrape⟩
  rw [hsums.total]
  decide +kernel

/-- Two services of which name and address run together to the same text. -/
def joinedNodes : Config where
  settings := ⟨.default, .default, .default⟩
  definitions := [node "node" "10.0.0.1", node "node1" "0.0.0.1"]
where
  node (name host : String) : Config.Definition := {
    service := ⟨name, .http, host, 9000, "", none⟩
    metrics := [⟨"load", .gauge, "", ⟨"jsonpath", "/load"⟩, [], none, none⟩]
    resources := [⟨"stats", "/stats", "GET", .api, .json, ["load"], none⟩] }

def joinedFates : Fates := [
  (.metric ⟨0⟩ ⟨0⟩ ⟨0⟩, .done 5 (.shaped (.scalar 1.0))),
  (.metric ⟨1⟩ ⟨1⟩ ⟨1⟩, .late 10000)]

/-- The two have one hash, and one series cannot tell of both. -/
theorem not_tells_joinedNodes : joinedNodes.problems Url.hosted = [] ∧
    Settled joinedNodes.catalog joinedFates ∧
    ¬∀ s ∈ joinedNodes.catalog.services,
      (joinedNodes.catalog.services.foldl ((Composition.ofReports joinedNodes.catalog {}
        joinedFates.reports).measure 0) {}).Tells s
          (given joinedNodes.catalog joinedFates s.id).length := by
  have hvalid : joinedNodes.problems Url.hosted = [] := by decide +kernel
  have hsettled : Settled joinedNodes.catalog joinedFates := by
    refine ⟨by decide +kernel, ?_⟩
    intro x hx
    simp only [joinedFates, List.mem_cons, List.not_mem_nil, or_false] at hx
    rcases hx with rfl | rfl <;> trivial
  refine ⟨hvalid, hsettled, fun htells => ?_⟩
  have hshared : ¬(joinedNodes.catalog.services.map fun s =>
      SelfMetrics.hashed s.origin.values).Nodup := by
    decide +kernel
  exact hshared ((ofReports_addsUp hvalid hsettled {} 0 rfl).told.mp htells)

end MetricRelay
