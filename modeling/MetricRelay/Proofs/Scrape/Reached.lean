import MetricRelay.Proofs.Scrape.Identity

/-!
# What an exporter can come to

The owner of an exporter asks for one thing after another, and the sources
answer what they like. Whatever has happened, a latest good value is the value
that its metric has in some document, and a report of the next scrape tells
what was made of a document or of a forwarded body.
-/

namespace MetricRelay

/-- The metric has this value in some document. -/
def Catalog.Shapes (c : Catalog) (id : MetricId) (value : Shaped) : Prop :=
  ∃ m doc, c.metric? id = some m ∧ shape m doc = .ok value

/-- A report of success tells what was made of a document or of a forwarded body. -/
def TaskReport.Sourced (c : Catalog) (r : TaskReport) : Prop :=
  match r.task, r.result with
  | .metric _ _ id, .ok (.shaped value) => c.Shapes id value
  | .forward .., .ok (.families families) => ∃ identity body, relabel identity body = .ok families
  | _, _ => True

/-- The fresh value of a metric is sourced. -/
theorem Fate.shapes_of_sourced {c : Catalog} {service : ServiceId} {resource : ResourceId}
    {id : MetricId} {fate : Fate} {value : Shaped}
    (h : (fate.report (.metric service resource id)).Sourced c)
    (hfresh : fate.shaped? = some value) : c.Shapes id value := by
  cases fate with
  | done finished found =>
    cases found with
    | shaped value =>
      cases hfresh
      exact h
    | families families => cases hfresh
  | failed | crowdedOut | refused | late | dropped => cases hfresh

theorem shape_of_concludeMetric {m : Catalog.Metric} {doc : Node} {value : Shaped}
    (h : ScrapeJob.concludeMetric m doc = .ok (.shaped value)) : shape m doc = .ok value := by
  rw [ScrapeJob.concludeMetric] at h
  split at h
  · next v hshape =>
    cases h
    exact hshape
  · cases h

theorem shape_error_of_concludeMetric {m : Catalog.Metric} {doc : Node} {error : ShapeError}
    (h : ScrapeJob.concludeMetric m doc = .error (.shape error)) : shape m doc = .error error := by
  rw [ScrapeJob.concludeMetric] at h
  split at h
  · cases h
  · next e hshape =>
    cases h
    exact hshape

theorem Race.Explained.sourced {c : Catalog}
    {A : Catalog.Service → Catalog.Resource → Answer → Prop} {r : TaskReport}
    (h : Race.Explained c A r) : r.Sourced c := by
  obtain ⟨task, finished, result⟩ := r
  obtain ⟨s, resource, -, hresult⟩ := h
  cases task with
  | metric service id metric =>
    obtain ⟨m, value, hm, -, hresult⟩ := hresult
    cases result with
    | error e => trivial
    | ok found =>
      cases found with
      | families families => trivial
      | shaped v =>
        obtain ⟨doc, hdoc⟩ := ScrapeJob.bind_ok (Eq.symm hresult)
        exact ⟨m, doc, hm, shape_of_concludeMetric hdoc⟩
  | forward service id =>
    obtain ⟨value, ⟨_, loader, loaded, answer, -, -, -, -, rfl⟩, hresult⟩ := hresult
    cases result with
    | error e => trivial
    | ok found =>
      cases found with
      | shaped v => trivial
      | families families =>
        obtain ⟨body, hbody⟩ := Race.relabel_of_concluded answer hresult
        exact ⟨_, body, hbody⟩

namespace Exporter

/-- Every report of a scrape concludes from some result, or was made up by the join. -/
theorem reports_explained {e : Exporter} (hindexed : e.catalog.Indexed) (horderly : e.IsOrderly) :
    ∀ report ∈ e.reports, Race.Explained e.catalog (fun _ _ _ => True) report ∨
      report.result = .error .timeout ∨ report.result = .error .poolClosed := by
  have hupheld : Upheld (e.setting fun _ _ => True) fun _ => True :=
    ⟨fun _ _ _ _ _ => trivial, fun _ _ _ => trivial⟩
  intro report hreport
  rcases e.reports_told hindexed horderly hupheld trivial report hreport with
    ⟨race, hrace, hgiven⟩ | hmade
  · exact Or.inl ((hrace.sound hindexed (Race.honest_trivial _)).reports report hgiven)
  · exact Or.inr hmade

/-- Every report of a scrape tells what was made of a document or of a forwarded body. -/
theorem reports_sourced {e : Exporter} (hindexed : e.catalog.Indexed) (horderly : e.IsOrderly) :
    ∀ report ∈ e.reports, report.Sourced e.catalog := by
  have herror : ∀ {report : TaskReport} {error : ScrapeError},
      report.result = .error error → report.Sourced e.catalog := by
    intro report error herror
    rw [TaskReport.Sourced, herror]
    cases report.task <;> trivial
  intro report hreport
  rcases reports_explained hindexed horderly report hreport with hexplained | hlate | hclosed
  · exact hexplained.sourced
  · exact herror hlate
  · exact herror hclosed

/-! ### Reached exporters -/

/-- The exporters of an index that its owner can come to: by scrapes, by waiting, by single
requests that are started and waited for, and by stopping the pool, while the sources and the
tokens may change in any way. -/
inductive Reached (catalog : Catalog) : Exporter → Prop
  | start (setup : ExporterSetup) (files : FileAccess Id) (network : Network) :
      Reached catalog (.start setup catalog files network)
  | scrape {e : Exporter} (h : Reached catalog e) : Reached catalog e.scrape.2
  | sleep {e : Exporter} (milliseconds : Nat) (h : Reached catalog e) :
      Reached catalog (e.sleep milliseconds)
  | shutDown {e : Exporter} (h : Reached catalog e) : Reached catalog e.shutDown
  | spawn {e : Exporter} {a : Activity} (ha : ∀ job, a ≠ .task job) (h : Reached catalog e) :
      Reached catalog (e.spawn a).2
  | await {e : Exporter} (number : Nat) (h : Reached catalog e) :
      Reached catalog (e.await number).2
  | changeSupply {e : Exporter} (f : Supply → Supply) (h : Reached catalog e) :
      Reached catalog (e.changeSupply f)
  | takeFailures {e : Exporter} (h : Reached catalog e) : Reached catalog e.takeFailures.2

/-- What holds of every exporter of an index. -/
structure Consistent (c : Catalog) (e : Exporter) : Prop where
  catalog : e.catalog = c
  orderly : e.IsOrderly
  remembered : ∀ id value, e.lastGood.get? id = some value →
    id ∈ c.plan.filterMap ScrapeTask.metric? ∧ c.Shapes id value

variable {catalog : Catalog} {e : Exporter}

/-- The index stays, and no job outlives the list of the scrapes. -/
def Steadfast (catalog : Catalog) (w : World) (tasks : List (Task Activity Finding)) : Prop :=
  w.catalog = catalog ∧ Orderly w tasks

theorem steadfast_kept (catalog : Catalog) :
    EventLoop.Kept Activity.behave (Steadfast catalog) where
  turn := by
    rintro w tasks i a now hlive ⟨hcatalog, horderly⟩
    exact ⟨(behave_catalog now i a w).trans hcatalog, orderly_kept.turn now hlive horderly⟩
  lose := by
    rintro w tasks i ⟨hcatalog, horderly⟩
    exact ⟨hcatalog, orderly_kept.lose i horderly⟩

theorem Consistent.steadfast (h : Consistent catalog e) :
    Steadfast catalog e.loop.shared e.loop.tasks :=
  ⟨h.catalog, h.orderly⟩

/-- The latest good values change by scrapes only. -/
theorem Consistent.withLoop (h : Consistent catalog e)
    {loop : EventLoop World Activity Finding} (hloop : Steadfast catalog loop.shared loop.tasks) :
    Consistent catalog { e with loop } :=
  ⟨hloop.1, hloop.2, h.remembered⟩

theorem Consistent.await (h : Consistent catalog e) (number : Nat) :
    Consistent catalog (e.await number).2 := by
  have hloop := (steadfast_kept catalog).await none number h.steadfast
  rw [Exporter.await]
  split
  · next finding loop hawait =>
    rw [hawait] at hloop
    exact h.withLoop hloop
  · next outcome loop hother hawait =>
    rw [hawait] at hloop
    exact h.withLoop hloop

theorem Consistent.spawn (h : Consistent catalog e) {a : Activity} (ha : ∀ job, a ≠ .task job) :
    Consistent catalog (e.spawn a).2 := by
  refine h.withLoop ⟨h.catalog, ?_⟩
  intro i job hjob
  rcases Catalog.getElem?_append_cases hjob with old | ⟨j, -, new⟩
  · exact h.orderly i job old
  · cases j with
    | zero => exact absurd (Task.live.inj (Option.some.inj new)) (ha job)
    | succ j => simp at new

variable (hindexed : catalog.Indexed) (hplan : (catalog.plan.filterMap ScrapeTask.metric?).Nodup)
include hindexed

/-- The fates of the next scrape and what they tell. -/
theorem Consistent.settles (h : Consistent catalog e) : ∃ fates, Settled catalog fates ∧
    e.reports = fates.reports ∧ ∀ x ∈ fates, (x.2.report x.1).Sourced catalog := by
  obtain ⟨fates, hsettled, hreports, -⟩ := e.reports_settle
  have hsourced := reports_sourced (h.catalog.symm ▸ hindexed) h.orderly
  rw [h.catalog] at hsettled hsourced
  refine ⟨fates, hsettled, hreports, ?_⟩
  intro x hx
  apply hsourced
  rw [hreports]
  exact List.mem_map.mpr ⟨x, fates.ordered_perm.mem_iff.mpr hx, rfl⟩

include hplan

theorem Consistent.scrape (h : Consistent catalog e) : Consistent catalog e.scrape.2 := by
  obtain ⟨fates, hsettled, hreports, hsourced⟩ := h.settles hindexed
  obtain ⟨hshared, hlast, -⟩ := e.scrape_eq
  obtain ⟨-, -, -, -, hcatalog⟩ := e.reports_settle
  rw [h.catalog, hreports] at hlast
  have haccounts := ofReports_accounts hindexed hplan hsettled e.lastGood
  rw [← hlast] at haccounts
  refine ⟨?_, h.orderly.scrape, ?_⟩
  · exact ((congrArg World.catalog hshared).trans hcatalog).trans h.catalog
  · intro id value hvalue
    by_cases hfed : ∃ service resource fate, (.metric service resource id, fate) ∈ fates
    · obtain ⟨service, resource, fate, hmem⟩ := hfed
      rw [haccounts.recorded service resource id fate hmem] at hvalue
      cases hfresh : fate.shaped? with
      | none =>
        rw [hfresh, Option.none_or] at hvalue
        exact h.remembered id value hvalue
      | some fresh =>
        rw [hfresh, Option.some_or] at hvalue
        obtain rfl := Option.some.inj hvalue
        refine ⟨?_, Fate.shapes_of_sourced (hsourced _ hmem) hfresh⟩
        rw [← hsettled.tasks, List.filterMap_map]
        exact List.mem_filterMap.mpr ⟨_, hmem, rfl⟩
    · have hother := haccounts.others id fun service resource fate hmem =>
        hfed ⟨service, resource, fate, hmem⟩
      rw [hother] at hvalue
      exact h.remembered id value hvalue

/-- The invariant of reached exporters. -/
theorem Reached.consistent (h : Reached catalog e) : Consistent catalog e := by
  induction h with
  | start setup files network =>
    exact ⟨rfl, start_isOrderly setup catalog files network, by rintro id value ⟨⟩⟩
  | scrape _ ih => exact ih.scrape hindexed hplan
  | sleep milliseconds _ ih =>
    exact ih.withLoop ((steadfast_kept catalog).wait _ _ _ ih.steadfast)
  | shutDown _ ih => exact ih.withLoop ((steadfast_kept catalog).wait _ _ _ ih.steadfast)
  | spawn ha _ ih => exact ih.spawn ha
  | await number _ ih => exact ih.await number
  | changeSupply f _ ih => exact ⟨ih.catalog, ih.orderly, ih.remembered⟩
  | takeFailures _ ih => exact ⟨ih.catalog, ih.orderly, ih.remembered⟩

end Exporter
end MetricRelay
