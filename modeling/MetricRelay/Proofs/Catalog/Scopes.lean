import MetricRelay.Proofs.Catalog.Indexed

/-!
# The scopes of a catalog

A scope is listed once for all resources that need it, so an exporter with one
slot for each listed scope has a slot for every resource.
-/

namespace MetricRelay

namespace Catalog

/-- Add a scope unless it is listed. -/
def addScope (acc : List ScopeEntry) (e : ScopeEntry) : List ScopeEntry :=
  if acc.any (·.scope == e.scope) then acc else acc ++ [e]

theorem mem_addScope {acc : List ScopeEntry} {e : ScopeEntry} (e' : ScopeEntry) (h : e' ∈ acc) :
    e' ∈ addScope acc e := by
  rw [addScope]
  split
  · exact h
  · exact List.mem_append_left _ h

theorem exists_addScope (acc : List ScopeEntry) (e : ScopeEntry) :
    ∃ e' ∈ addScope acc e, e'.scope = e.scope := by
  rw [addScope]
  split
  · next hany => simpa using hany
  · exact ⟨e, by simp, rfl⟩

theorem mem_foldl_addScope {acc : List ScopeEntry} {e : ScopeEntry} (h : e ∈ acc)
    (es : List ScopeEntry) : e ∈ es.foldl addScope acc := by
  induction es generalizing acc with
  | nil => exact h
  | cons e' es ih => exact ih (mem_addScope e h)

theorem exists_foldl_addScope {acc es : List ScopeEntry} {e : ScopeEntry} (h : e ∈ es) :
    ∃ e' ∈ es.foldl addScope acc, e'.scope = e.scope := by
  induction es generalizing acc with
  | nil => cases h
  | cons first es ih =>
    rcases List.mem_cons.mp h with rfl | htail
    · obtain ⟨e', he', hscope⟩ := exists_addScope acc e
      exact ⟨e', mem_foldl_addScope he' es, hscope⟩
    · exact ih htail

theorem mem_of_mem_foldl_addScope {acc es : List ScopeEntry} {e : ScopeEntry}
    (h : e ∈ es.foldl addScope acc) (hacc : e ∉ acc) : e ∈ es := by
  induction es generalizing acc with
  | nil => exact absurd h hacc
  | cons first es ih =>
    by_cases heq : e = first
    · exact heq ▸ List.mem_cons_self
    · refine List.mem_cons_of_mem _ (ih h fun hmem => ?_)
      rw [addScope] at hmem
      split at hmem
      · exact hacc hmem
      · exact (List.mem_append.mp hmem).elim hacc fun hlast => heq (List.mem_singleton.mp hlast)

theorem nodup_foldl_addScope {acc : List ScopeEntry} (h : (acc.map (·.scope)).Nodup)
    (es : List ScopeEntry) : ((es.foldl addScope acc).map (·.scope)).Nodup := by
  induction es generalizing acc with
  | nil => exact h
  | cons e es ih =>
    refine ih ?_
    rw [addScope]
    split
    · exact h
    · next hnew =>
      rw [List.map_append, List.map_singleton, (List.perm_append_singleton ..).nodup_iff]
      refine List.nodup_cons.mpr ⟨fun hmem => hnew ?_, h⟩
      obtain ⟨e', he', hscope⟩ := List.mem_map.mp hmem
      exact List.any_eq_true.mpr ⟨e', he', beq_iff_eq.mpr hscope⟩

theorem scopes_eq (c : Catalog) :
    c.scopes = (c.resources.filterMap fun r => c.scopeEntry? r.id).foldl addScope [] := rfl

/-- A scope belongs to the service of the resource that needs it. -/
theorem service_of_authFor? {c : Catalog} {id : ResourceId} {scope : AuthScope}
    {table : AuthTable} (h : c.authFor? id = some (scope, table)) :
    ∃ r s, c.resource? id = some r ∧ c.service? r.service = some s ∧ scope.service = s.id := by
  rw [authFor?] at h
  obtain ⟨r, hr, h⟩ := Option.bind_eq_some_iff.mp h
  obtain ⟨s, hs, h⟩ := Option.bind_eq_some_iff.mp h
  refine ⟨r, s, hr, hs, ?_⟩
  split at h
  · cases h
  · cases h
    rfl
  · split at h
    · cases h
    · obtain ⟨t, -, hpair⟩ := Option.map_eq_some_iff.mp h
      cases hpair
      rfl

/-- Every scope that a resource needs is listed. -/
theorem Indexed.exists_scope {c : Catalog} (h : c.Indexed) {id : ResourceId} {scope : AuthScope}
    {table : AuthTable} (hauth : c.authFor? id = some (scope, table)) :
    ∃ e ∈ c.scopes, e.scope = scope := by
  obtain ⟨r, s, hr, hs, hscope⟩ := service_of_authFor? hauth
  have hid : c.service? scope.service = some s := by
    rw [hscope, h.service_at r.service.index s hs]
    exact hs
  have hentry : c.scopeEntry? r.id = some ⟨scope, table, Url.join s.baseUrl table.endpoint⟩ := by
    have hr' : r.id = id := h.resource_at id.index r hr
    simp [ scopeEntry?, hr', hauth, hid]
  have hmem : (⟨scope, table, Url.join s.baseUrl table.endpoint⟩ : ScopeEntry) ∈
      c.resources.filterMap fun r => c.scopeEntry? r.id :=
    List.mem_filterMap.mpr ⟨r, List.mem_of_getElem? hr, hentry⟩
  rw [scopes_eq]
  exact exists_foldl_addScope hmem

/-! ### Without auth -/

/-- No service and no resource has an auth table. -/
structure Unlocked (c : Catalog) : Prop where
  services : ∀ s ∈ c.services, s.auth = none
  resources : ∀ r ∈ c.resources, ∀ table, r.auth ≠ .own table

theorem Unlocked.authFor? {c : Catalog} (h : c.Unlocked) (id : ResourceId) :
    c.authFor? id = none := by
  cases hauth : c.authFor? id with
  | none => rfl
  | some need =>
    obtain ⟨r, hr, hneed⟩ := Option.bind_eq_some_iff.mp hauth
    obtain ⟨s, hs, hneed⟩ := Option.bind_eq_some_iff.mp hneed
    split at hneed
    · cases hneed
    · next table hown => exact absurd hown (h.resources r (List.mem_of_getElem? hr) table)
    · split at hneed
      · cases hneed
      · rw [h.services s (List.mem_of_getElem? hs)] at hneed
        cases hneed

theorem Unlocked.append {c : Catalog} (h : c.Unlocked) {d : Config.Definition}
    (hservice : d.service.auth = none)
    (hresources : ∀ r ∈ d.resources, ∀ table, r.auth ≠ some (.own table)) :
    (c.append d).Unlocked where
  services := by
    intro s hs
    rcases List.mem_append.mp hs with old | new
    · exact h.services s old
    · obtain rfl := List.mem_singleton.mp new
      rw [hservice]
      rfl
  resources := by
    intro r hr table hown
    rcases List.mem_append.mp hr with old | new
    · exact h.resources r old table hown
    · obtain ⟨i, hi, rfl⟩ := List.mem_mapIdx.mp new
      have hrule : authRule d.resources[i].auth = .own table := hown
      unfold authRule at hrule
      split at hrule
      · cases hrule
      · cases hrule
      · cases hrule
      · next own hchoice => exact hresources _ (List.getElem_mem hi) own hchoice

theorem unlocked_foldl {c : Catalog} (h : c.Unlocked) {ds : List Config.Definition}
    (hds : ∀ d ∈ ds, d.service.auth = none ∧
      ∀ r ∈ d.resources, ∀ table, r.auth ≠ some (.own table)) :
    (ds.foldl Catalog.append c).Unlocked := by
  induction ds generalizing c with
  | nil => exact h
  | cons d ds ih =>
    obtain ⟨hservice, hresources⟩ := hds d (by simp)
    exact ih (h.append hservice hresources) fun d' hd' => hds d' (List.mem_cons_of_mem d hd')

end Catalog

def Config.WithoutAuth (c : Config) : Prop :=
  ∀ d ∈ c.definitions, d.service.auth = none ∧
    ∀ r ∈ d.resources, ∀ table, r.auth ≠ some (.own table)

theorem Config.WithoutAuth.unlocked {c : Config} (h : c.WithoutAuth) :
    (Catalog.build c.definitions).Unlocked := by
  refine Catalog.unlocked_foldl ⟨?_, ?_⟩ h
  · exact fun s hs => absurd hs List.not_mem_nil
  · exact fun r hr => absurd hr List.not_mem_nil

end MetricRelay
