import Mathlib.Data.List.Basic
import Mathlib.Data.List.Nodup
import MetricRelay.Scrape.Plan

/-!
# The handles of a built catalog

Building appends one service after another. Every handle is the position of
what it names, and a stored handle names something of the same service, so
the task list of a scrape never points outside the catalog.
-/

namespace MetricRelay.Catalog

/-- Every handle is a position, and every stored handle stays within its service. -/
structure Indexed (c : Catalog) : Prop where
  service_at : ∀ (i : Nat) (s : Service), c.services[i]? = some s → s.id = ⟨i⟩
  resource_at : ∀ (i : Nat) (r : Resource), c.resources[i]? = some r → r.id = ⟨i⟩
  metric_at : ∀ (i : Nat) (m : Metric), c.metrics[i]? = some m → m.id = ⟨i⟩
  owner : ∀ r ∈ c.resources, ∃ s, c.service? r.service = some s ∧ r.id ∈ s.resources
  listed : ∀ s ∈ c.services, ∀ id ∈ s.resources,
    ∃ r, c.resource? id = some r ∧ r.service = s.id
  fed : ∀ r ∈ c.resources, ∀ id ∈ r.metrics,
    ∃ m, c.metric? id = some m ∧ m.service = r.service
  located : ∀ r ∈ c.resources, ∀ s, c.service? r.service = some s → r.url = Url.join s.baseUrl r.uri

def appendedService (c : Catalog) (d : Config.Definition) : Service where
  id := ⟨c.services.length⟩
  name := d.service.name
  protocol := d.service.protocol
  host := d.service.host
  port := d.service.port
  basePath := d.service.basePath
  auth := d.service.auth.map authTable
  resources := d.resources.mapIdx fun i _ => ⟨c.resources.length + i⟩

def appendedMetrics (c : Catalog) (d : Config.Definition) : List Metric :=
  d.metrics.mapIdx fun i m => metric ⟨c.metrics.length + i⟩ ⟨c.services.length⟩ m

def appendedResources (c : Catalog) (d : Config.Definition) : List Resource :=
  d.resources.mapIdx fun i r =>
    resource ⟨c.resources.length + i⟩ (c.appendedService d) (c.appendedMetrics d) r

theorem append_eq (c : Catalog) (d : Config.Definition) : c.append d =
    { services := c.services ++ [c.appendedService d]
      resources := c.resources ++ c.appendedResources d
      metrics := c.metrics ++ c.appendedMetrics d } := rfl

/-! ### What was there stays where it was -/

theorem service?_append {c : Catalog} {d : Config.Definition} {id : ServiceId} {s : Service}
    (h : c.service? id = some s) : (c.append d).service? id = some s := by
  have hlt : id.index < c.services.length := (List.getElem?_eq_some_iff.mp h).1
  simpa only [service?, append_eq, List.getElem?_append_left hlt] using h

theorem resource?_append {c : Catalog} {d : Config.Definition} {id : ResourceId} {r : Resource}
    (h : c.resource? id = some r) : (c.append d).resource? id = some r := by
  have hlt : id.index < c.resources.length := (List.getElem?_eq_some_iff.mp h).1
  simpa only [resource?, append_eq, List.getElem?_append_left hlt] using h

theorem metric?_append {c : Catalog} {d : Config.Definition} {id : MetricId} {m : Metric}
    (h : c.metric? id = some m) : (c.append d).metric? id = some m := by
  have hlt : id.index < c.metrics.length := (List.getElem?_eq_some_iff.mp h).1
  simpa only [metric?, append_eq, List.getElem?_append_left hlt] using h

/-! ### What is new stands at the end -/

theorem service?_appended (c : Catalog) (d : Config.Definition) :
    (c.append d).service? ⟨c.services.length⟩ = some (c.appendedService d) := by
  simp [service?, append_eq]

theorem resource?_appended (c : Catalog) (d : Config.Definition) (i : Nat) :
    (c.append d).resource? ⟨c.resources.length + i⟩ = (c.appendedResources d)[i]? := by
  simp only [resource?, append_eq]
  rw [List.getElem?_append_right (by omega), Nat.add_sub_cancel_left]

theorem metric?_appended (c : Catalog) (d : Config.Definition) (i : Nat) :
    (c.append d).metric? ⟨c.metrics.length + i⟩ = (c.appendedMetrics d)[i]? := by
  simp only [metric?, append_eq]
  rw [List.getElem?_append_right (by omega), Nat.add_sub_cancel_left]

theorem appendedMetrics_at {c : Catalog} {d : Config.Definition} {i : Nat} {m : Metric}
    (h : (c.appendedMetrics d)[i]? = some m) :
    m.id = ⟨c.metrics.length + i⟩ ∧ m.service = ⟨c.services.length⟩ := by
  rw [appendedMetrics, List.getElem?_mapIdx, Option.map_eq_some_iff] at h
  obtain ⟨entry, -, rfl⟩ := h
  exact ⟨rfl, rfl⟩

theorem appendedResources_at {c : Catalog} {d : Config.Definition} {i : Nat} {r : Resource}
    (h : (c.appendedResources d)[i]? = some r) :
    r.id = ⟨c.resources.length + i⟩ ∧ r.service = ⟨c.services.length⟩ := by
  rw [appendedResources, List.getElem?_mapIdx, Option.map_eq_some_iff] at h
  obtain ⟨entry, -, rfl⟩ := h
  exact ⟨rfl, rfl⟩

theorem appendedResources_url {c : Catalog} {d : Config.Definition} {r : Resource}
    (hr : r ∈ c.appendedResources d) : r.url = Url.join (c.appendedService d).baseUrl r.uri := by
  obtain ⟨i, hi⟩ := List.mem_iff_getElem?.mp hr
  rw [appendedResources, List.getElem?_mapIdx, Option.map_eq_some_iff] at hi
  obtain ⟨entry, -, rfl⟩ := hi
  rfl

theorem appendedService_resources (c : Catalog) (d : Config.Definition) :
    (c.appendedService d).resources = (c.appendedResources d).map (·.id) := by
  apply List.ext_getElem?
  intro i
  change (d.resources.mapIdx fun i _ => (⟨c.resources.length + i⟩ : ResourceId))[i]? = _
  rw [List.getElem?_map, appendedResources, List.getElem?_mapIdx, List.getElem?_mapIdx,
    Option.map_map]
  rfl

/-- A handle that a new resource lists is that of a new metric. -/
theorem mem_metrics_appended {c : Catalog} {d : Config.Definition} {r : Resource}
    (hr : r ∈ c.appendedResources d) {id : MetricId} (hid : id ∈ r.metrics) :
    ∃ i m, (c.appendedMetrics d)[i]? = some m ∧ id = ⟨c.metrics.length + i⟩ := by
  obtain ⟨j, hj⟩ := List.mem_iff_getElem?.mp hr
  rw [appendedResources, List.getElem?_mapIdx, Option.map_eq_some_iff] at hj
  obtain ⟨entry, -, rfl⟩ := hj
  obtain ⟨name, -, hfind⟩ := List.mem_filterMap.mp hid
  obtain ⟨m, hm, rfl⟩ := Option.map_eq_some_iff.mp hfind
  obtain ⟨i, hi⟩ := List.mem_iff_getElem?.mp (List.mem_of_find?_eq_some hm)
  exact ⟨i, m, hi, (appendedMetrics_at hi).1⟩

/-! ### The invariant -/

theorem indexed_empty : Indexed {} where
  service_at := by intro i s h; simp at h
  resource_at := by intro i r h; simp at h
  metric_at := by intro i m h; simp at h
  owner := by intro r h; simp at h
  listed := by intro s h; simp at h
  fed := by intro r h; simp at h
  located := by intro r h; simp at h

theorem getElem?_append_cases {α : Type} {xs ys : List α} {i : Nat} {a : α}
    (h : (xs ++ ys)[i]? = some a) :
    xs[i]? = some a ∨ ∃ j, i = xs.length + j ∧ ys[j]? = some a := by
  by_cases hlt : i < xs.length
  · exact Or.inl (by rwa [List.getElem?_append_left hlt] at h)
  · refine Or.inr ⟨i - xs.length, by omega, ?_⟩
    rwa [List.getElem?_append_right (by omega)] at h

theorem Indexed.append {c : Catalog} (h : c.Indexed) (d : Config.Definition) :
    (c.append d).Indexed where
  service_at := by
    intro i s hs
    rcases getElem?_append_cases hs with old | ⟨j, rfl, new⟩
    · exact h.service_at i s old
    · obtain ⟨rfl, rfl⟩ : j = 0 ∧ s = c.appendedService d := by
        cases j with
        | zero => exact ⟨rfl, (Option.some.inj new).symm⟩
        | succ j => simp at new
      rfl
  resource_at := by
    intro i r hr
    rcases getElem?_append_cases hr with old | ⟨j, rfl, new⟩
    · exact h.resource_at i r old
    · exact (appendedResources_at new).1
  metric_at := by
    intro i m hm
    rcases getElem?_append_cases hm with old | ⟨j, rfl, new⟩
    · exact h.metric_at i m old
    · exact (appendedMetrics_at new).1
  owner := by
    intro r hr
    rcases List.mem_append.mp hr with old | new
    · obtain ⟨s, hs, hlisted⟩ := h.owner r old
      exact ⟨s, service?_append hs, hlisted⟩
    · obtain ⟨j, hj⟩ := List.mem_iff_getElem?.mp new
      rw [(appendedResources_at hj).2]
      refine ⟨_, service?_appended c d, ?_⟩
      rw [appendedService_resources]
      exact List.mem_map.mpr ⟨r, new, rfl⟩
  listed := by
    intro s hs id hid
    rcases List.mem_append.mp hs with old | new
    · obtain ⟨r, hr, hown⟩ := h.listed s old id hid
      exact ⟨r, resource?_append hr, hown⟩
    · have hs : s = c.appendedService d := List.mem_singleton.mp new
      subst hs
      rw [appendedService_resources] at hid
      obtain ⟨r, hr, rfl⟩ := List.mem_map.mp hid
      obtain ⟨i, hi⟩ := List.mem_iff_getElem?.mp hr
      refine ⟨r, ?_, (appendedResources_at hi).2⟩
      rw [(appendedResources_at hi).1, resource?_appended]
      exact hi
  fed := by
    intro r hr id hid
    rcases List.mem_append.mp hr with old | new
    · obtain ⟨m, hm, hown⟩ := h.fed r old id hid
      exact ⟨m, metric?_append hm, hown⟩
    · obtain ⟨i, m, hm, rfl⟩ := mem_metrics_appended new hid
      obtain ⟨j, hj⟩ := List.mem_iff_getElem?.mp new
      refine ⟨m, (metric?_appended c d i).trans hm, ?_⟩
      rw [(appendedMetrics_at hm).2, (appendedResources_at hj).2]
  located := by
    intro r hr s hs
    rcases List.mem_append.mp hr with old | new
    · obtain ⟨owner, howner, -⟩ := h.owner r old
      obtain rfl := Option.some.inj ((service?_append howner).symm.trans hs)
      exact h.located r old owner howner
    · obtain ⟨j, hj⟩ := List.mem_iff_getElem?.mp new
      rw [(appendedResources_at hj).2, service?_appended] at hs
      obtain rfl := Option.some.inj hs
      exact appendedResources_url new

theorem foldl_append_indexed {c : Catalog} (h : c.Indexed) (ds : List Config.Definition) :
    (ds.foldl Catalog.append c).Indexed := by
  induction ds generalizing c with
  | nil => exact h
  | cons d ds ih => exact ih (h.append d)

theorem build_indexed (ds : List Config.Definition) : (build ds).Indexed :=
  foldl_append_indexed indexed_empty ds

end MetricRelay.Catalog
