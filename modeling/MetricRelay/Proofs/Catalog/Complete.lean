import MetricRelay.Proofs.Catalog.Metrics

/-!
# Nothing is lost and nothing is doubled

A catalog holds what the definitions declare, in their order: a service for each
definition, a resource for each entry of its file, a metric for each metric, and
in each resource one handle for each name that the entry lists. The plan is then
the list of tasks that the definitions ask for, counted from the definitions
alone.
-/

namespace MetricRelay

namespace Config

/-- The tasks that a definition asks for, with so many services, resources and
metrics before it. -/
def Definition.requests (services resources metrics : ℕ) (d : Definition) : List ScrapeTask :=
  (d.resources.mapIdx fun i r =>
    match r.kind with
    | .forwarder => [ScrapeTask.forward ⟨services⟩ ⟨resources + i⟩]
    | .api => r.metrics.map fun name =>
        .metric ⟨services⟩ ⟨resources + i⟩ ⟨metrics + d.metricNames.idxOf name⟩).flatten

/-- One task for each metric name that an api resource lists and one for each
forwarder, definition by definition. -/
def requests (services resources metrics : ℕ) : List Definition → List ScrapeTask
  | [] => []
  | d :: ds => d.requests services resources metrics ++
      requests (services + 1) (resources + d.resources.length) (metrics + d.metrics.length) ds

/-- Every name that a resource lists stands for one metric of the definition. -/
structure Definition.Resolved (d : Definition) : Prop where
  distinct : d.metricNames.Nodup
  declared : ∀ r ∈ d.resources, ∀ name ∈ r.metrics, name ∈ d.metricNames

theorem Definition.resolved {check : Url.Check} {d : Definition} (h : d.problems check = []) :
    d.Resolved := by
  obtain ⟨-, ⟨hdistinct, -⟩, -, hresources⟩ := problems_eq_nil_iff.mp h
  exact ⟨hdistinct, fun r hr => (hresources r hr).declared⟩

end Config

/-! ### Lists that match entry by entry -/

theorem forall₂_mapIdx {α β : Type} {R : α → β → Prop} {l : List α} {f : ℕ → α → β}
    (h : ∀ i a, l[i]? = some a → R a (f i a)) : List.Forall₂ R l (l.mapIdx f) := by
  induction l generalizing f with
  | nil => exact .nil
  | cons a l ih =>
    rw [List.mapIdx_cons]
    exact .cons (h 0 a rfl) (ih fun i b hb => h (i + 1) b hb)

theorem forall₂_filterMap {α β : Type} {R : α → β → Prop} {l : List α} {f : α → Option β}
    (h : ∀ a ∈ l, ∃ b, f a = some b ∧ R a b) : List.Forall₂ R l (l.filterMap f) := by
  induction l with
  | nil => exact .nil
  | cons a l ih =>
    obtain ⟨b, hb, hR⟩ := h a List.mem_cons_self
    rw [List.filterMap_cons_some hb]
    exact .cons hR (ih fun a' ha' => h a' (List.mem_cons_of_mem a ha'))

namespace Catalog

open Config (Definition)

variable {c : Catalog} {d : Definition}

/-! ### What a definition becomes -/

/-- A handle stands for the metric of that name in a service. -/
def Feeds (c : Catalog) (owner : ServiceId) (name : String) (id : MetricId) : Prop :=
  ∃ m, c.metric? id = some m ∧ m.service = owner ∧ m.name = name

/-- A resource is what an entry of a file of resources became. -/
structure Keeps (c : Catalog) (owner : ServiceId) (entry : Config.Resource) (r : Resource) :
    Prop where
  service : r.service = owner
  name : r.name = entry.name
  uri : r.uri = entry.uri
  kind : r.kind = entry.kind
  metrics : List.Forall₂ (c.Feeds owner) entry.metrics r.metrics

/-- A service holds all that its definition declares, in order. -/
structure Holds (c : Catalog) (d : Definition) (s : Service) : Prop where
  name : s.name = d.service.name
  metrics : List.Forall₂ (fun entry m => m = metric m.id s.id entry) d.metrics
    (c.metrics.filter (·.service = s.id))
  resources : List.Forall₂ (fun entry id => ∃ r, c.resource? id = some r ∧ c.Keeps s.id entry r)
    d.resources s.resources

/-- A listed name is found, and its handle is its place among the metrics. -/
theorem find?_appendedMetrics (h : d.metricNames.Nodup) {name : String}
    (hname : name ∈ d.metricNames) : ∃ m,
      (c.appendedMetrics d).find? (·.name == name) = some m ∧ m.name = name ∧
        m.id = ⟨c.metrics.length + d.metricNames.idxOf name⟩ := by
  have hat : ∀ i : ℕ, ((c.appendedMetrics d)[i]?).map (·.name) = d.metricNames[i]? := by
    intro i
    rw [appendedMetrics, List.getElem?_mapIdx, Definition.metricNames, List.getElem?_map,
      Option.map_map]
    rfl
  obtain ⟨k, hk⟩ := List.mem_iff_getElem?.mp hname
  rw [← hat, Option.map_eq_some_iff] at hk
  obtain ⟨other, hother, hothername⟩ := hk
  have hsome : ((c.appendedMetrics d).find? (·.name == name)).isSome :=
    List.find?_isSome.mpr ⟨other, List.mem_of_getElem? hother, beq_iff_eq.mpr hothername⟩
  obtain ⟨m, hm⟩ := Option.isSome_iff_exists.mp hsome
  have hmname : m.name = name := by simpa using List.find?_some hm
  obtain ⟨i, hi⟩ := List.mem_iff_getElem?.mp (List.mem_of_find?_eq_some hm)
  have hplace : d.metricNames[i]? = some name := by
    rw [← hat, hi, ← hmname]
    rfl
  refine ⟨m, hm, hmname, ?_⟩
  obtain ⟨hlt, hget⟩ := List.getElem?_eq_some_iff.mp hplace
  rw [(appendedMetrics_at hi).1, ← hget, h.idxOf_getElem]

theorem feeds_appended (h : d.Resolved) {r : Config.Resource} (hr : r ∈ d.resources) :
    List.Forall₂ ((c.append d).Feeds ⟨c.services.length⟩) r.metrics (r.metrics.filterMap
      fun name => ((c.appendedMetrics d).find? (·.name == name)).map (·.id)) := by
  refine forall₂_filterMap fun name hname => ?_
  obtain ⟨m, hm, hmname, -⟩ := find?_appendedMetrics h.distinct (h.declared r hr name hname)
  obtain ⟨i, hi⟩ := List.mem_iff_getElem?.mp (List.mem_of_find?_eq_some hm)
  obtain ⟨hid, hservice⟩ := appendedMetrics_at hi
  refine ⟨m.id, by rw [hm]; rfl, m, ?_, hservice, hmname⟩
  rw [hid, metric?_appended]
  exact hi

theorem filter_appendedMetrics (hnamed : c.Named) : (c.append d).metrics.filter
    (·.service = ⟨c.services.length⟩) = c.appendedMetrics d := by
  have hold : c.metrics.filter (·.service = ⟨c.services.length⟩) = [] := by
    refine List.filter_eq_nil_iff.mpr fun m hm => ?_
    have hlt := hnamed.service_lt m hm
    simp only [decide_eq_true_eq]
    intro heq
    rw [heq] at hlt
    exact Nat.lt_irrefl _ hlt
  have hnew : (c.appendedMetrics d).filter (·.service = ⟨c.services.length⟩) =
      c.appendedMetrics d := by
    refine List.filter_eq_self.mpr fun m hm => ?_
    obtain ⟨i, hi⟩ := List.mem_iff_getElem?.mp hm
    exact decide_eq_true (appendedMetrics_at hi).2
  rw [append_eq, List.filter_append, hold, hnew, List.nil_append]

/-- The service of a new definition holds what the definition declares. -/
theorem holds_appended (hnamed : c.Named) (h : d.Resolved) :
    (c.append d).Holds d (c.appendedService d) where
  name := rfl
  metrics := by
    change List.Forall₂ _ d.metrics ((c.append d).metrics.filter (·.service = ⟨c.services.length⟩))
    rw [filter_appendedMetrics hnamed]
    exact forall₂_mapIdx fun _ _ _ => rfl
  resources := by
    refine forall₂_mapIdx fun i entry hentry => ?_
    refine ⟨resource ⟨c.resources.length + i⟩ (c.appendedService d) (c.appendedMetrics d) entry, ?_,
      rfl, rfl, rfl, rfl, feeds_appended h (List.mem_of_getElem? hentry)⟩
    rw [resource?_appended, appendedResources, List.getElem?_mapIdx, hentry]
    rfl

/-! ### What was there before -/

theorem Feeds.append {owner : ServiceId} {name : String} {id : MetricId}
    (h : c.Feeds owner name id) : (c.append d).Feeds owner name id := by
  obtain ⟨m, hm, howner, hname⟩ := h
  exact ⟨m, metric?_append hm, howner, hname⟩

theorem Keeps.append {owner : ServiceId} {entry : Config.Resource} {r : Resource}
    (h : c.Keeps owner entry r) : (c.append d).Keeps owner entry r :=
  { h with metrics := h.metrics.imp fun _ _ hfeeds => hfeeds.append }

/-- A service keeps what it holds when another definition comes after it. -/
theorem Holds.append {d' : Definition} {s : Service} (h : c.Holds d' s) (hindexed : c.Indexed)
    (hs : s ∈ c.services) : (c.append d).Holds d' s where
  name := h.name
  metrics := by
    have hlt : s.id.index < c.services.length :=
      (List.getElem?_eq_some_iff.mp (hindexed.service?_id hs)).1
    have hnone : (c.appendedMetrics d).filter (·.service = s.id) = [] := by
      refine List.filter_eq_nil_iff.mpr fun m hm => ?_
      obtain ⟨i, hi⟩ := List.mem_iff_getElem?.mp hm
      rw [(appendedMetrics_at hi).2, decide_eq_true_eq]
      rintro heq
      rw [← heq] at hlt
      exact Nat.lt_irrefl _ hlt
    rw [append_eq, List.filter_append, hnone, List.append_nil]
    exact h.metrics
  resources := h.resources.imp fun _ _ ⟨r, hr, hkeeps⟩ => ⟨r, resource?_append hr, hkeeps.append⟩

/-- Every service holds what its definition declares. -/
theorem forall₂_holds_foldl {done ds : List Definition} (hindexed : c.Indexed) (hnamed : c.Named)
    (hdone : List.Forall₂ c.Holds done c.services) (h : ∀ d ∈ ds, d.Resolved) :
    List.Forall₂ (ds.foldl Catalog.append c).Holds (done ++ ds)
      (ds.foldl Catalog.append c).services := by
  induction ds generalizing c done with
  | nil => rwa [List.append_nil]
  | cons d ds ih =>
    have hd := h d List.mem_cons_self
    obtain ⟨hlength, hpairs⟩ := List.forall₂_iff_zip.mp hdone
    have hold : List.Forall₂ (c.append d).Holds done c.services :=
      List.forall₂_iff_zip.mpr ⟨hlength, fun hpair =>
        (hpairs hpair).append hindexed (List.of_mem_zip hpair).2⟩
    have hnext : List.Forall₂ (c.append d).Holds (done ++ [d]) (c.append d).services :=
      List.rel_append hold (.cons (holds_appended hnamed hd) .nil)
    have hrest := ih (hindexed.append d) (hnamed.append hd.distinct) hnext
      fun d' hd' => h d' (List.mem_cons_of_mem d hd')
    rwa [List.append_assoc] at hrest

/-! ### The plan of a definition -/

theorem metrics_appended_eq_map (h : d.metricNames.Nodup) {names : List String}
    (hnames : ∀ name ∈ names, name ∈ d.metricNames) : (names.filterMap fun name =>
      ((c.appendedMetrics d).find? (·.name == name)).map (·.id)) =
        names.map fun name => ⟨c.metrics.length + d.metricNames.idxOf name⟩ := by
  rw [← List.filterMap_eq_map]
  refine List.filterMap_congr fun name hname => ?_
  obtain ⟨m, hm, -, hid⟩ := find?_appendedMetrics h (hnames name hname)
  rw [hm, Option.map_some, hid]
  rfl

/-- The tasks of the new resources are those that the definition asks for. -/
theorem tasks_appended (h : d.Resolved) :
    (c.appendedResources d).flatMap (tasksOf ⟨c.services.length⟩) =
      d.requests c.services.length c.resources.length c.metrics.length := by
  rw [appendedResources, List.flatMap_def, Definition.requests]
  congr 1
  apply List.ext_getElem?
  intro i
  rw [List.getElem?_map, List.getElem?_mapIdx, List.getElem?_mapIdx]
  cases hentry : d.resources[i]? with
  | none => rfl
  | some r =>
    have hlisted := metrics_appended_eq_map (c := c) h.distinct
      (h.declared r (List.mem_of_getElem? hentry))
    cases hkind : r.kind with
    | forwarder => simp [tasksOf, resource, hkind]
    | api => simp [tasksOf, resource, hkind, hlisted, Function.comp_def, appendedService]

theorem length_services_append : (c.append d).services.length = c.services.length + 1 :=
  List.length_append

theorem length_resources_append :
    (c.append d).resources.length = c.resources.length + d.resources.length := by
  rw [append_eq, List.length_append, appendedResources, List.length_mapIdx]

theorem length_metrics_append :
    (c.append d).metrics.length = c.metrics.length + d.metrics.length := by
  rw [append_eq, List.length_append, appendedMetrics, List.length_mapIdx]

theorem plan_foldl {ds : List Definition} (hindexed : c.Indexed) (h : ∀ d ∈ ds, d.Resolved) :
    (ds.foldl Catalog.append c).plan = c.plan ++
      Config.requests c.services.length c.resources.length c.metrics.length ds := by
  induction ds generalizing c with
  | nil => exact (List.append_nil _).symm
  | cons d ds ih =>
    rw [List.foldl_cons, ih (hindexed.append d) fun d' hd' => h d' (List.mem_cons_of_mem d hd'),
      plan_append hindexed, tasks_appended (h d List.mem_cons_self), length_services_append,
      length_resources_append, length_metrics_append, List.append_assoc, Config.requests]

/-! ### Every handle once -/

theorem listed_foldl {ds : List Definition}
    (h : c.services.flatMap (·.resources) = c.resources.map (·.id)) :
    (ds.foldl Catalog.append c).services.flatMap (·.resources) =
      (ds.foldl Catalog.append c).resources.map (·.id) := by
  induction ds generalizing c with
  | nil => exact h
  | cons d ds ih =>
    refine ih ?_
    rw [append_eq, List.flatMap_append, List.flatMap_singleton, h, appendedService_resources,
      List.map_append]

/-- Entries that say their own positions are numbered from the start. -/
theorem numbered {α ι : Type} {l : List α} {id : α → ι} {mk : ℕ → ι}
    (h : ∀ i a, l[i]? = some a → id a = mk i) : l.map id = (List.range l.length).map mk := by
  refine List.ext_getElem (by simp) fun i hi _ => ?_
  rw [List.getElem_map, List.getElem_map, List.getElem_range]
  exact h i _ (List.getElem?_eq_getElem (by simpa using hi))

theorem lengths_foldl (ds : List Definition) :
    (ds.foldl Catalog.append c).services.length = c.services.length + ds.length ∧
      (ds.foldl Catalog.append c).resources.length =
        c.resources.length + (ds.flatMap (·.resources)).length ∧
      (ds.foldl Catalog.append c).metrics.length =
        c.metrics.length + (ds.flatMap (·.metrics)).length := by
  induction ds generalizing c with
  | nil => exact ⟨rfl, rfl, rfl⟩
  | cons d ds ih =>
    obtain ⟨hservices, hresources, hmetrics⟩ := ih (c := c.append d)
    rw [length_services_append] at hservices
    rw [length_resources_append] at hresources
    rw [length_metrics_append] at hmetrics
    simp only [List.foldl_cons, List.flatMap_cons, List.length_append, List.length_cons]
    omega

theorem lengths_build (ds : List Definition) : (build ds).services.length = ds.length ∧
    (build ds).resources.length = (ds.flatMap (·.resources)).length ∧
      (build ds).metrics.length = (ds.flatMap (·.metrics)).length := by
  simpa [build] using lengths_foldl (c := {}) ds

theorem listed_build (ds : List Definition) :
    (build ds).services.flatMap (·.resources) = (build ds).resources.map (·.id) :=
  listed_foldl rfl

/-! ### No task twice -/

def forwarded? : ScrapeTask → Option ResourceId
  | .forward _ id => some id
  | .metric .. => none

theorem forwarded_tasksOf (service : ServiceId) (r : Resource) :
    ((tasksOf service r).filterMap forwarded?).Sublist [r.id] := by
  cases hkind : r.kind with
  | forwarder => simp [tasksOf, hkind, forwarded?]
  | api => simp [tasksOf, hkind, forwarded?, List.filterMap_map, Function.comp_def]

theorem Indexed.ids_listed (h : c.Indexed) {s : Service} (hs : s ∈ c.services) :
    (s.resources.filterMap c.resource?).map (·.id) = s.resources := by
  have hsome : s.resources.filterMap (fun id => (c.resource? id).map (·.id)) =
      s.resources.filterMap some := by
    refine List.filterMap_congr fun id hid => ?_
    obtain ⟨r, hr, -⟩ := h.listed s hs id hid
    rw [hr, Option.map_some, h.id_of_resource? hr]
  rw [List.map_filterMap, hsome, List.filterMap_some]

/-- No resource is forwarded twice. -/
theorem Indexed.forwarded_sublist (h : c.Indexed) :
    (c.plan.filterMap forwarded?).Sublist (c.services.flatMap (·.resources)) := by
  rw [plan, List.filterMap_flatMap]
  refine List.Sublist.flatMap_right _ fun s hs => ?_
  have hids : (s.resources.filterMap c.resource?).flatMap (fun r => [r.id]) = s.resources := by
    rw [← List.map_eq_flatMap, h.ids_listed hs]
  have htasks := List.Sublist.flatMap_right (s.resources.filterMap c.resource?) fun r _ =>
    forwarded_tasksOf s.id r
  rwa [hids, ← List.filterMap_flatMap] at htasks

theorem nodup_plan_of (hmetrics : (c.plan.filterMap ScrapeTask.metric?).Nodup)
    (hforwarded : (c.plan.filterMap forwarded?).Nodup) : c.plan.Nodup := by
  refine List.nodup_iff_sublist.mpr fun task htwice => ?_
  cases task with
  | metric service resource id =>
    exact List.nodup_iff_sublist.mp hmetrics id (htwice.filterMap ScrapeTask.metric?)
  | forward service resource =>
    exact List.nodup_iff_sublist.mp hforwarded resource (htwice.filterMap forwarded?)

/-! ### The whole catalog -/

/-- A catalog with its plan is complete for a list of definitions. -/
structure Complete (c : Catalog) (ds : List Definition) : Prop where
  service_ids : c.services.map (·.id) = (List.range ds.length).map ServiceId.mk
  resource_ids : c.resources.map (·.id) =
    (List.range (ds.flatMap (·.resources)).length).map ResourceId.mk
  metric_ids : c.metrics.map (·.id) = (List.range (ds.flatMap (·.metrics)).length).map MetricId.mk
  /-- Over all services every resource is listed once, in order. -/
  listed : c.services.flatMap (·.resources) = c.resources.map (·.id)
  services : List.Forall₂ c.Holds ds c.services
  resource_service_lt : ∀ r ∈ c.resources, r.service.index < c.services.length
  metric_service_lt : ∀ m ∈ c.metrics, m.service.index < c.services.length
  listed_lt : ∀ s ∈ c.services, ∀ id ∈ s.resources, id.index < c.resources.length
  fed_lt : ∀ r ∈ c.resources, ∀ id ∈ r.metrics, id.index < c.metrics.length
  plan : c.plan = Config.requests 0 0 0 ds
  tasks_distinct : c.plan.Nodup
  metrics_distinct : (c.plan.filterMap ScrapeTask.metric?).Nodup

end Catalog

/-- The catalog of a configuration without problems loses nothing and doubles
nothing, and neither does its plan. -/
theorem Config.catalog_complete {check : Url.Check} {c : Config} (h : c.problems check = []) :
    c.catalog.Complete c.definitions := by
  have hresolved : ∀ d ∈ c.definitions, d.Resolved := fun d hd =>
    Definition.resolved (definition_problems h d hd)
  have hindexed := Catalog.build_indexed c.definitions
  have hnamed := Catalog.named_foldl Catalog.named_empty fun d hd => (hresolved d hd).distinct
  obtain ⟨hservices, hresources, hmetrics⟩ := Catalog.lengths_build c.definitions
  have hlisted := Catalog.listed_build c.definitions
  have hforwarded : (c.catalog.plan.filterMap Catalog.forwarded?).Nodup := by
    refine hindexed.forwarded_sublist.nodup ?_
    rw [hlisted, Catalog.numbered hindexed.resource_at]
    exact List.nodup_range.map fun i j heq => (ResourceId.mk.inj heq)
  exact {
    service_ids := hservices ▸ Catalog.numbered hindexed.service_at
    resource_ids := hresources ▸ Catalog.numbered hindexed.resource_at
    metric_ids := hmetrics ▸ Catalog.numbered hindexed.metric_at
    listed := hlisted
    services := Catalog.forall₂_holds_foldl Catalog.indexed_empty Catalog.named_empty .nil hresolved
    resource_service_lt := fun r hr => by
      obtain ⟨s, hs, -⟩ := hindexed.owner r hr
      exact (List.getElem?_eq_some_iff.mp hs).1
    metric_service_lt := hnamed.service_lt
    listed_lt := fun s hs id hid => by
      obtain ⟨r, hr, -⟩ := hindexed.listed s hs id hid
      exact (List.getElem?_eq_some_iff.mp hr).1
    fed_lt := fun r hr id hid => by
      obtain ⟨m, hm, -⟩ := hindexed.fed r hr id hid
      exact (List.getElem?_eq_some_iff.mp hm).1
    plan := Catalog.plan_foldl Catalog.indexed_empty hresolved
    tasks_distinct := Catalog.nodup_plan_of (nodup_plan h) hforwarded
    metrics_distinct := nodup_plan h }

def twoStores : Config where
  settings := ⟨.default, .default, .default⟩
  definitions := [
    { service := ⟨"north", .http, "north", 8080, "", none⟩
      metrics := [gauge "rows", gauge "size"]
      resources := [⟨"own", "metrics", "GET", .forwarder, .json, [], none⟩,
        ⟨"stats", "stats", "GET", .api, .json, ["size", "rows"], none⟩] },
    { service := ⟨"south", .file, "", 0, "/srv", none⟩
      metrics := [gauge "size", gauge "rows"]
      resources := [⟨"rows", "rows.json", "GET", .api, .json, ["rows"], none⟩,
        ⟨"size", "size.json", "GET", .api, .json, ["size"], none⟩] }]
where
  gauge (name : String) : Config.Metric :=
    ⟨name, .gauge, "", ⟨"jsonpath", "/" ++ name⟩, [], none, none⟩

/-- The tasks of the second service count on from those of the first. -/
theorem complete_twoStores : twoStores.problems Url.hosted = [] ∧
    twoStores.catalog.Complete twoStores.definitions ∧
      twoStores.catalog.plan = [.forward ⟨0⟩ ⟨0⟩, .metric ⟨0⟩ ⟨1⟩ ⟨1⟩, .metric ⟨0⟩ ⟨1⟩ ⟨0⟩,
        .metric ⟨1⟩ ⟨2⟩ ⟨3⟩, .metric ⟨1⟩ ⟨3⟩ ⟨2⟩] := by
  have hvalid : twoStores.problems Url.hosted = [] := by decide +kernel
  have hcomplete := Config.catalog_complete hvalid
  exact ⟨hvalid, hcomplete, hcomplete.plan.trans (by decide)⟩

end MetricRelay
