import MetricRelay.Fetch.Call
import MetricRelay.Proofs.Catalog.Plan
import MetricRelay.Proofs.Catalog.Scopes

/-!
# The auth of a resource

Which resources are fetched without a token, and where the token of every other
one comes from: its own table, or the table of its service. A scope that is
listed has one table and one location, those of each resource that needs it.
-/

namespace MetricRelay

namespace Catalog

/-- A resource of a catalog with its service. -/
structure Aim (c : Catalog) where
  resource : Resource
  service : Service
  listed : c.resource? resource.id = some resource
  owner : c.service? resource.service = some service

namespace Aim

variable {c : Catalog} {a b : c.Aim}

inductive Unguarded (a : c.Aim) : Prop
  | file (protocol : a.service.protocol = .file)
  | disabled (auth : a.resource.auth = .disabled)
  | forwarder (kind : a.resource.kind = .forwarder) (auth : a.resource.auth = .inherited)
  | bare (auth : a.resource.auth = .inherited) (none : a.service.auth = none)

/-- The table that a resource has or inherits, with its scope and the location of its tokens. -/
inductive Tabled (a : c.Aim) : ScopeEntry → Prop
  | own (table : AuthTable) (auth : a.resource.auth = .own table) :
      Tabled a
        ⟨⟨a.service.id, some a.resource.id⟩, table, Url.join a.service.baseUrl table.endpoint⟩
  | inherited (table : AuthTable) (kind : a.resource.kind = .api)
      (auth : a.resource.auth = .inherited) (shared : a.service.auth = some table) :
      Tabled a ⟨⟨a.service.id, none⟩, table, Url.join a.service.baseUrl table.endpoint⟩

/-- A resource whose requests carry a token from a source. -/
structure Guarded (a : c.Aim) (source : ScopeEntry) : Prop where
  http : a.service.protocol.isHttp
  tabled : a.Tabled source

theorem Tabled.authFor? {source : ScopeEntry} (h : a.Tabled source) :
    c.authFor? a.resource.id = some (source.scope, source.table) := by
  cases h with
  | own table auth => simp [Catalog.authFor?, a.listed, a.owner, auth]
  | inherited table kind auth shared =>
    simp [Catalog.authFor?, a.listed, a.owner, auth, kind, shared]

/-- A resource without a table is one that wants none, or that has none to inherit. -/
theorem tabled_or_not (a : c.Aim) : (∃ source, a.Tabled source) ∨
    (a.resource.auth = .disabled ∨ a.resource.auth = .inherited ∧
      (a.resource.kind = .forwarder ∨ a.service.auth = none)) := by
  cases hauth : a.resource.auth with
  | disabled => exact Or.inr (Or.inl rfl)
  | own table => exact Or.inl ⟨_, .own table hauth⟩
  | inherited =>
    cases hkind : a.resource.kind with
    | forwarder => exact Or.inr (Or.inr ⟨rfl, Or.inl rfl⟩)
    | api =>
      cases hshared : a.service.auth with
      | none => exact Or.inr (Or.inr ⟨rfl, Or.inr rfl⟩)
      | some table => exact Or.inl ⟨_, .inherited table hkind hauth hshared⟩

theorem authFor?_of_disabled (h : a.resource.auth = .disabled) :
    c.authFor? a.resource.id = none := by
  simp [Catalog.authFor?, a.listed, a.owner, h]

theorem authFor?_of_inherited (h : a.resource.auth = .inherited)
    (hnone : a.resource.kind = .forwarder ∨ a.service.auth = none) :
    c.authFor? a.resource.id = none := by
  rcases hnone with hkind | hshared
  · simp [Catalog.authFor?, a.listed, a.owner, h, hkind]
  · cases hkind : a.resource.kind <;>
      simp [Catalog.authFor?, a.listed, a.owner, h, hkind, hshared]

/-- What a resource needs is the same as what any other one of its scope needs. -/
theorem Tabled.eq_of_scope (hindexed : c.Indexed) {source other : ScopeEntry}
    (h : a.Tabled source) (h' : b.Tabled other) (hscope : source.scope = other.scope) :
    source = other := by
  have hservice : a.service.id = b.service.id → a.service = b.service := by
    intro hid
    have ha := hindexed.service?_id (List.mem_of_getElem? a.owner)
    have hb := hindexed.service?_id (List.mem_of_getElem? b.owner)
    exact Option.some.inj (ha.symm.trans (hid ▸ hb))
  cases h with
  | own table auth =>
    cases h' with
    | own table' auth' =>
      simp only [AuthScope.mk.injEq, Option.some.injEq] at hscope
      have hresource : a.resource = b.resource :=
        Option.some.inj (a.listed.symm.trans (hscope.2 ▸ b.listed))
      cases auth.symm.trans (hresource ▸ auth')
      rw [hscope.1, hscope.2, hservice hscope.1]
    | inherited table' kind auth' shared =>
      cases congrArg AuthScope.resource hscope
  | inherited table kind auth shared =>
    cases h' with
    | own table' auth' => cases congrArg AuthScope.resource hscope
    | inherited table' kind' auth' shared' =>
      have hsame := hservice (congrArg AuthScope.service hscope)
      cases shared.symm.trans (hsame ▸ shared')
      rw [hsame]

end Aim

theorem Aim.Tabled.scopeEntry? {c : Catalog} (h : c.Indexed) {a : c.Aim} {source : ScopeEntry}
    (htabled : a.Tabled source) : c.scopeEntry? a.resource.id = some source := by
  have hservice := h.service?_id (List.mem_of_getElem? a.owner)
  have hauth := htabled.authFor?
  cases htabled <;> simp [Catalog.scopeEntry?, hauth, hservice]

/-- Auth that applies to a resource is a table that it has or inherits. -/
theorem Indexed.exists_aim {c : Catalog} (h : c.Indexed) {id : ResourceId} {scope : AuthScope}
    {table : AuthTable} (hauth : c.authFor? id = some (scope, table)) :
    ∃ a : c.Aim, a.resource.id = id ∧
      a.Tabled ⟨scope, table, Url.join a.service.baseUrl table.endpoint⟩ := by
  obtain ⟨r, s, hr, hs, -⟩ := service_of_authFor? hauth
  have hid : r.id = id := h.resource_at id.index r hr
  let a : c.Aim := ⟨r, s, hid ▸ hr, hs⟩
  have hneed : c.authFor? a.resource.id = some (scope, table) := hid ▸ hauth
  refine ⟨a, hid, ?_⟩
  obtain ⟨source, htabled⟩ | hdisabled | ⟨hinherited, hnone⟩ := a.tabled_or_not
  · cases htabled.authFor?.symm.trans hneed
    cases htabled with
    | own table auth => exact .own table auth
    | inherited table kind auth shared => exact .inherited table kind auth shared
  · cases (Aim.authFor?_of_disabled hdisabled).symm.trans hneed
  · cases (Aim.authFor?_of_inherited hinherited hnone).symm.trans hneed

/-- A listed scope is what some resource needs. -/
theorem Indexed.exists_tabled {c : Catalog} (h : c.Indexed) {e : ScopeEntry} (he : e ∈ c.scopes) :
    ∃ a : c.Aim, a.Tabled e := by
  rw [scopes_eq] at he
  obtain ⟨r, -, hentry⟩ :=
    List.mem_filterMap.mp (mem_of_mem_foldl_addScope he List.not_mem_nil)
  obtain ⟨⟨scope, table⟩, hauth, -⟩ := Option.bind_eq_some_iff.mp hentry
  obtain ⟨a, hid, htabled⟩ := h.exists_aim hauth
  have hsame := htabled.scopeEntry? h
  rw [hid] at hsame
  cases hsame.symm.trans hentry
  exact ⟨a, htabled⟩

theorem nodup_scopes (c : Catalog) : (c.scopes.map (·.scope)).Nodup := by
  rw [scopes_eq]
  exact nodup_foldl_addScope (by simp) _

namespace Aim

variable {c : Catalog} {a : c.Aim} {source : ScopeEntry}

/-- The table of a resource is listed. -/
theorem Tabled.mem_scopes (h : c.Indexed) (htabled : a.Tabled source) : source ∈ c.scopes := by
  obtain ⟨e, he, hscope⟩ := h.exists_scope htabled.authFor?
  obtain ⟨b, hb⟩ := h.exists_tabled he
  exact hb.eq_of_scope h htabled hscope ▸ he

def plan (policy : RefreshPolicy) (a : c.Aim) : FetchPlan :=
  .ofResource c policy a.service a.resource

def request (a : c.Aim) : Request := { method := a.resource.method, url := a.resource.url }

theorem plan_auth_of_unguarded (policy : RefreshPolicy) (h : a.Unguarded) :
    (a.plan policy).auth = none := by
  have hnone : c.authFor? a.resource.id = none → (a.plan policy).auth = none := by
    intro hlookup
    simp [plan, FetchPlan.ofResource, hlookup]
  cases h with
  | file protocol => simp [plan, FetchPlan.ofResource, protocol, Protocol.isHttp]
  | disabled auth => exact hnone (authFor?_of_disabled auth)
  | forwarder kind auth => exact hnone (authFor?_of_inherited auth (Or.inl kind))
  | bare auth shared => exact hnone (authFor?_of_inherited auth (Or.inr shared))

theorem plan_auth_of_guarded (policy : RefreshPolicy) (h : a.Guarded source) :
    (a.plan policy).auth = some (source.scope, source.table.headerName) := by
  simp [plan, FetchPlan.ofResource, h.http, h.tabled.authFor?]

theorem exists_guarded (h : ¬ a.Unguarded) : ∃ source, a.Guarded source := by
  have hhttp : a.service.protocol.isHttp := by
    cases hprotocol : a.service.protocol with
    | file => exact absurd (.file hprotocol) h
    | _ => rfl
  obtain ⟨source, htabled⟩ | hdisabled | ⟨hinherited, hkind | hnone⟩ := a.tabled_or_not
  · exact ⟨source, hhttp, htabled⟩
  · exact absurd (.disabled hdisabled) h
  · exact absurd (.forwarder hkind hinherited) h
  · exact absurd (.bare hinherited hnone) h

end Aim

end Catalog

end MetricRelay
