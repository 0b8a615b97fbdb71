import Mathlib.Data.List.Flatten
import MetricRelay.Proofs.Catalog.Indexed
import MetricRelay.Proofs.Config.Rules

/-!
# The tasks of a scrape

Every planned task names a service, one of its resources and, for a metric, one
of its metrics, all in the catalog. When the configuration has no problems, no
metric is planned twice.
-/

namespace MetricRelay

def ScrapeTask.metric? : ScrapeTask → Option MetricId
  | .metric _ _ id => some id
  | .forward .. => none

namespace Catalog

/-- A task with the service and the resource that it names. -/
structure Planned (c : Catalog) (task : ScrapeTask) (s : Service) (r : Resource) : Prop where
  service : c.service? task.service = some s
  resource : c.resource? task.resource = some r
  owner : c.service? r.service = some s
  listed : task ∈ tasksOf s.id r

theorem Indexed.service?_id {c : Catalog} (h : c.Indexed) {s : Service} (hs : s ∈ c.services) :
    c.service? s.id = some s := by
  obtain ⟨i, hi⟩ := List.mem_iff_getElem?.mp hs
  rw [h.service_at i s hi]
  exact hi

theorem Indexed.id_of_service? {c : Catalog} (h : c.Indexed) {id : ServiceId} {s : Service}
    (hs : c.service? id = some s) : s.id = id :=
  h.service_at id.index s hs

theorem Indexed.id_of_resource? {c : Catalog} (h : c.Indexed) {id : ResourceId} {r : Resource}
    (hr : c.resource? id = some r) : r.id = id :=
  h.resource_at id.index r hr

theorem mem_of_resource? {c : Catalog} {id : ResourceId} {r : Resource}
    (hr : c.resource? id = some r) : r ∈ c.resources :=
  List.mem_of_getElem? hr

theorem mem_tasksOf {service : ServiceId} {r : Resource} {task : ScrapeTask}
    (h : task ∈ tasksOf service r) :
    (r.kind = .forwarder ∧ task = .forward service r.id) ∨
      (r.kind = .api ∧ ∃ id ∈ r.metrics, task = .metric service r.id id) := by
  cases hkind : r.kind with
  | forwarder =>
    rw [tasksOf, hkind] at h
    exact Or.inl ⟨rfl, List.mem_singleton.mp h⟩
  | api =>
    rw [tasksOf, hkind] at h
    obtain ⟨id, hid, rfl⟩ := List.mem_map.mp h
    exact Or.inr ⟨rfl, id, hid, rfl⟩

theorem service_of_mem_tasksOf {service : ServiceId} {r : Resource} {task : ScrapeTask}
    (h : task ∈ tasksOf service r) : task.service = service ∧ task.resource = r.id := by
  rcases mem_tasksOf h with ⟨-, rfl⟩ | ⟨-, id, -, rfl⟩
  · exact ⟨rfl, rfl⟩
  · exact ⟨rfl, rfl⟩

theorem Indexed.planned {c : Catalog} (h : c.Indexed) {task : ScrapeTask} (ht : task ∈ c.plan) :
    ∃ s r, c.Planned task s r := by
  obtain ⟨s, hs, hin⟩ := List.mem_flatMap.mp ht
  obtain ⟨r, hr, htask⟩ := List.mem_flatMap.mp hin
  obtain ⟨id, hid, hget⟩ := List.mem_filterMap.mp hr
  obtain ⟨r', hr', hown⟩ := h.listed s hs id hid
  obtain rfl : r = r' := Option.some.inj (hget.symm.trans hr')
  obtain ⟨hservice, hresource⟩ := service_of_mem_tasksOf htask
  refine ⟨s, r, ?_, ?_, ?_, htask⟩
  · rw [hservice]
    exact h.service?_id hs
  · rw [hresource, h.id_of_resource? hget]
    exact hget
  · rw [hown]
    exact h.service?_id hs

theorem Planned.unique {c : Catalog} {task : ScrapeTask} {s s' : Service} {r r' : Resource}
    (h : c.Planned task s r) (h' : c.Planned task s' r') : s = s' ∧ r = r' :=
  ⟨Option.some.inj (h.service.symm.trans h'.service),
    Option.some.inj (h.resource.symm.trans h'.resource)⟩

theorem Planned.forward {c : Catalog} {service : ServiceId} {resource : ResourceId} {s : Service}
    {r : Resource} (h : c.Planned (.forward service resource) s r) : r.kind = .forwarder := by
  rcases mem_tasksOf h.listed with ⟨hkind, -⟩ | ⟨-, id, -, heq⟩
  · exact hkind
  · cases heq

theorem Planned.metric {c : Catalog} {service : ServiceId} {resource : ResourceId} {id : MetricId}
    {s : Service} {r : Resource} (h : c.Planned (.metric service resource id) s r) :
    r.kind = .api ∧ id ∈ r.metrics := by
  rcases mem_tasksOf h.listed with ⟨-, heq⟩ | ⟨hkind, id', hid, heq⟩
  · cases heq
  · cases heq
    exact ⟨hkind, hid⟩

/-- The tasks of every resource are planned. -/
theorem Indexed.mem_plan {c : Catalog} (h : c.Indexed) {r : Resource} (hr : r ∈ c.resources) :
    ∃ s, c.service? r.service = some s ∧ s.id = r.service ∧
      ∀ task ∈ tasksOf r.service r, task ∈ c.plan ∧ c.Planned task s r := by
  obtain ⟨s, hs, hlisted⟩ := h.owner r hr
  have hid := h.id_of_service? hs
  have hget : c.resource? r.id = some r := by
    obtain ⟨i, hi⟩ := List.mem_iff_getElem?.mp hr
    rw [h.resource_at i r hi]
    exact hi
  refine ⟨s, hs, hid, ?_⟩
  intro task htask
  obtain ⟨hservice, hresource⟩ := service_of_mem_tasksOf htask
  rw [← hid] at htask
  constructor
  · refine List.mem_flatMap.mpr ⟨s, List.mem_of_getElem? hs, ?_⟩
    exact List.mem_flatMap.mpr ⟨r, List.mem_filterMap.mpr ⟨r.id, hlisted, hget⟩, htask⟩
  · exact ⟨hservice ▸ hs, hresource ▸ hget, hs, htask⟩

/-- The metric of a planned task is in the catalog. -/
theorem Indexed.planned_metric {c : Catalog} (h : c.Indexed) {service : ServiceId}
    {resource : ResourceId} {id : MetricId} {s : Service} {r : Resource}
    (hp : c.Planned (.metric service resource id) s r) : ∃ m, c.metric? id = some m := by
  obtain ⟨m, hm, -⟩ := h.fed r (mem_of_resource? hp.resource) id hp.metric.2
  exact ⟨m, hm⟩

/-! ### No metric is planned twice -/

/-- The metrics that the tasks of a resource feed. -/
theorem filterMap_tasksOf (service : ServiceId) (r : Resource) :
    ((tasksOf service r).filterMap ScrapeTask.metric?).Sublist r.metrics := by
  cases hkind : r.kind with
  | forwarder =>
    rw [tasksOf, hkind]
    exact List.nil_sublist _
  | api =>
    have hall : (tasksOf service r).filterMap ScrapeTask.metric? = r.metrics := by
      rw [tasksOf, hkind]
      simp [List.filterMap_map, Function.comp_def, ScrapeTask.metric?]
    rw [hall]

theorem resource?_of_mem_appended {c : Catalog} {d : Config.Definition} {r : Resource}
    (h : r ∈ c.appendedResources d) : (c.append d).resource? r.id = some r := by
  obtain ⟨i, hi⟩ := List.mem_iff_getElem?.mp h
  rw [(appendedResources_at hi).1, resource?_appended]
  exact hi

theorem plan_append {c : Catalog} (h : c.Indexed) (d : Config.Definition) :
    (c.append d).plan =
      c.plan ++ (c.appendedResources d).flatMap (tasksOf ⟨c.services.length⟩) := by
  have hold : ∀ s ∈ c.services, s.resources.filterMap (c.append d).resource? =
      s.resources.filterMap c.resource? := by
    intro s hs
    apply List.filterMap_congr
    intro id hid
    obtain ⟨r, hr, -⟩ := h.listed s hs id hid
    rw [hr, resource?_append hr]
  have hnew : (c.appendedService d).resources.filterMap (c.append d).resource? =
      c.appendedResources d := by
    rw [appendedService_resources, List.filterMap_map]
    have hsome : (c.appendedResources d).filterMap ((c.append d).resource? ∘ (·.id)) =
        (c.appendedResources d).filterMap some :=
      List.filterMap_congr fun r hr => resource?_of_mem_appended hr
    rw [hsome, List.filterMap_some]
  have hservices : (c.append d).services = c.services ++ [c.appendedService d] := rfl
  rw [plan, hservices, List.flatMap_append, List.flatMap_singleton, hnew]
  congr 1
  exact List.flatMap_congr fun s hs => by rw [hold s hs]

/-- The metrics that a new service plans are all new. -/
theorem le_of_mem_appended {c : Catalog} {d : Config.Definition} {id : MetricId}
    (h : id ∈ (c.appendedResources d).flatMap (·.metrics)) : c.metrics.length ≤ id.index := by
  obtain ⟨r, hr, hid⟩ := List.mem_flatMap.mp h
  obtain ⟨i, m, -, rfl⟩ := mem_metrics_appended hr hid
  exact Nat.le_add_right _ _

theorem lt_of_mem_plan {c : Catalog} (h : c.Indexed) {id : MetricId}
    (hid : id ∈ c.plan.filterMap ScrapeTask.metric?) : id.index < c.metrics.length := by
  obtain ⟨task, htask, heq⟩ := List.mem_filterMap.mp hid
  obtain ⟨s, r, hp⟩ := h.planned htask
  cases task with
  | forward service resource => cases heq
  | metric service resource id' =>
    obtain rfl : id' = id := Option.some.inj heq
    obtain ⟨m, hm⟩ := h.planned_metric hp
    exact (List.getElem?_eq_some_iff.mp hm).1

theorem metrics_appended (c : Catalog) (d : Config.Definition) :
    (c.appendedResources d).flatMap (·.metrics) =
      d.fed.filterMap fun name => ((c.appendedMetrics d).find? (·.name == name)).map (·.id) := by
  have hmap : (c.appendedResources d).map (·.metrics) = d.resources.map fun r =>
      r.metrics.filterMap fun name =>
        ((c.appendedMetrics d).find? (·.name == name)).map (·.id) := by
    apply List.ext_getElem?
    intro i
    rw [List.getElem?_map, appendedResources, List.getElem?_mapIdx, List.getElem?_map,
      Option.map_map]
    rfl
  rw [List.flatMap_def, hmap, ← List.flatMap_def, Config.Definition.fed, List.filterMap_flatMap]

/-- Two names never stand for one metric. -/
theorem name_of_appended {c : Catalog} {d : Config.Definition} {name name' : String}
    {id : MetricId}
    (h : ((c.appendedMetrics d).find? (·.name == name)).map (·.id) = some id)
    (h' : ((c.appendedMetrics d).find? (·.name == name')).map (·.id) = some id) :
    name = name' := by
  obtain ⟨m, hm, hid⟩ := Option.map_eq_some_iff.mp h
  obtain ⟨m', hm', hid'⟩ := Option.map_eq_some_iff.mp h'
  obtain ⟨i, hi⟩ := List.mem_iff_getElem?.mp (List.mem_of_find?_eq_some hm)
  obtain ⟨j, hj⟩ := List.mem_iff_getElem?.mp (List.mem_of_find?_eq_some hm')
  have hname : m.name = name := by simpa using List.find?_some hm
  have hname' : m'.name = name' := by simpa using List.find?_some hm'
  rw [(appendedMetrics_at hi).1] at hid
  rw [(appendedMetrics_at hj).1, ← hid, MetricId.mk.injEq] at hid'
  obtain rfl : j = i := by omega
  obtain rfl : m = m' := Option.some.inj (hi.symm.trans hj)
  exact hname.symm.trans hname'

theorem nodup_metrics_appended (c : Catalog) {d : Config.Definition} (h : d.fed.Nodup) :
    ((c.appendedResources d).flatMap (·.metrics)).Nodup := by
  rw [metrics_appended]
  refine h.filterMap ?_
  intro name name' id hid hid'
  exact name_of_appended (Option.mem_def.mp hid) (Option.mem_def.mp hid')

theorem nodup_plan_append {c : Catalog} (h : c.Indexed)
    (hplan : (c.plan.filterMap ScrapeTask.metric?).Nodup) {d : Config.Definition}
    (hfed : d.fed.Nodup) : ((c.append d).plan.filterMap ScrapeTask.metric?).Nodup := by
  have hsub : (((c.appendedResources d).flatMap (tasksOf ⟨c.services.length⟩)).filterMap
      ScrapeTask.metric?).Sublist ((c.appendedResources d).flatMap (·.metrics)) := by
    rw [List.filterMap_flatMap]
    exact List.Sublist.flatMap_right _ fun r _ => filterMap_tasksOf _ r
  rw [plan_append h, List.filterMap_append]
  refine List.nodup_append.mpr ⟨hplan, hsub.nodup (nodup_metrics_appended c hfed), ?_⟩
  intro id hold id' hnew heq
  have hlt := lt_of_mem_plan h hold
  have hle := le_of_mem_appended (hsub.subset hnew)
  rw [heq] at hlt
  omega

theorem nodup_plan_foldl {c : Catalog} (h : c.Indexed)
    (hplan : (c.plan.filterMap ScrapeTask.metric?).Nodup) {ds : List Config.Definition}
    (hfed : ∀ d ∈ ds, d.fed.Nodup) :
    ((ds.foldl Catalog.append c).plan.filterMap ScrapeTask.metric?).Nodup := by
  induction ds generalizing c with
  | nil => exact hplan
  | cons d ds ih =>
    exact ih (h.append d) (nodup_plan_append h hplan (hfed d (by simp)))
      fun d' hd' => hfed d' (List.mem_cons_of_mem d hd')

end Catalog

/-! ### What the rules promise -/

open Config

theorem Config.definition_problems {check : Url.Check} {c : Config} (h : c.problems check = []) :
    ∀ d ∈ c.definitions, d.problems check = [] := by
  rw [problems, List.append_eq_nil_iff, List.append_eq_nil_iff] at h
  exact (definitionProblems_eq_nil.mp h.1.2).2

abbrev Config.catalog (c : Config) : Catalog := Catalog.build c.definitions

/-- A configuration without problems plans every metric at most once. -/
theorem Config.nodup_plan {check : Url.Check} {c : Config} (h : c.problems check = []) :
    (c.catalog.plan.filterMap ScrapeTask.metric?).Nodup := by
  refine Catalog.nodup_plan_foldl Catalog.indexed_empty List.nodup_nil ?_
  intro d hd
  exact (Definition.problems_eq_nil_iff.mp (definition_problems h d hd)).2.2.1

/-- The names of the services come from the definitions. -/
theorem Catalog.names_foldl (c : Catalog) (ds : List Config.Definition) :
    (ds.foldl Catalog.append c).services.map (·.name) =
      c.services.map (·.name) ++ ds.map (·.service.name) := by
  induction ds generalizing c with
  | nil => exact (List.append_nil _).symm
  | cons d ds ih =>
    rw [List.foldl_cons, ih, append_eq, List.map_append, List.append_assoc]
    rfl

/-- In a configuration without problems a name stands for one service. -/
theorem Config.service_eq_of_name {check : Url.Check} {c : Config} (h : c.problems check = [])
    {s s' : Catalog.Service} (hs : s ∈ c.catalog.services) (hs' : s' ∈ c.catalog.services)
    (hname : s.name = s'.name) : s = s' := by
  have hnodup : (c.catalog.services.map (·.name)).Nodup := by
    rw [problems, List.append_eq_nil_iff, List.append_eq_nil_iff] at h
    have hnames := Catalog.names_foldl {} c.definitions
    rw [List.map_nil, List.nil_append] at hnames
    exact hnames ▸ fresh_empty.mp (definitionProblems_eq_nil.mp h.1.2).1
  exact List.inj_on_of_nodup_map hnodup hs hs' hname

end MetricRelay
