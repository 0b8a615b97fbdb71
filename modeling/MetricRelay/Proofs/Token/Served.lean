import Mathlib.Logic.Relation
import MetricRelay.Proofs.Catalog.Auth
import MetricRelay.Proofs.Catalog.Location
import MetricRelay.Proofs.Token.Slots

/-!
# The slot of every scope

The slots are made from the scopes that a catalog lists, and looked up by the
scopes of its resources. Whatever the callers do meanwhile, each of these
lookups finds a slot, with the table and the location that its resource needs.
-/

namespace MetricRelay

namespace Token.Slots

/-- What one move of a caller makes of the slots. -/
inductive Change (slots : Slots) : Slots → Prop
  | ask (scope : AuthScope) (caller : Nat) (call : TokenCall) :
      Change slots ((TokenCall.dialogue scope).resume caller slots call).slots
  | receive (scope : AuthScope) (caller : Nat) (answer : Answer) (call : TokenCall) :
      Change slots ((TokenCall.dialogue scope).receive caller answer slots call).slots
  | fetch (plan : FetchPlan) (caller : Nat) (call : FetchCall) :
      Change slots ((FetchCall.dialogue plan).resume caller slots call).slots
  | fetched (plan : FetchPlan) (caller : Nat) (answer : Answer) (call : FetchCall) :
      Change slots ((FetchCall.dialogue plan).receive caller answer slots call).slots
  | invalidate (scope : AuthScope) (stale : String) : Change slots (slots.invalidate scope stale)
  | abandon (caller : Nat) : Change slots (slots.abandon caller).2

variable {slots slots' : Slots} {plan : FetchPlan} {attempt : Attempt} {caller : Nat}

theorem sources_invalidate (hapart : slots.Apart) (scope : AuthScope) (stale : String) :
    (slots.invalidate scope stale).sources = slots.sources := by
  rw [Slots.invalidate]
  split
  · next slot hslot => exact sources_put hapart hslot (slot.invalidate_source stale)
  · rfl

theorem sources_seek (hapart : slots.Apart) :
    (FetchCall.seek plan attempt caller slots).slots.sources = slots.sources := by
  rw [FetchCall.seek]
  split
  · rfl
  split
  · rfl
  · next slot hslot => exact sources_put hapart hslot (slot.ask_source caller)

/-- The slot that a fetch needs is that of its scope. -/
theorem slot?_of_slotOf? {header : String} {slot : Slot}
    (h : FetchCall.slotOf? plan slots = some (header, slot)) :
    ∃ scope, slots.slot? scope = some slot := by
  obtain ⟨⟨scope, _⟩, -, hfound⟩ := Option.bind_eq_some_iff.mp h
  obtain ⟨found, hslot, hsame⟩ := Option.map_eq_some_iff.mp hfound
  cases hsame
  exact ⟨scope, hslot⟩

theorem sources_resume (hapart : slots.Apart) (call : FetchCall) :
    ((FetchCall.dialogue plan).resume caller slots call).slots.sources = slots.sources := by
  cases call with
  | fresh => exact sources_seek hapart
  | inLine attempt =>
    change (FetchCall.resume plan caller slots (.inLine attempt)).slots.sources = _
    rw [FetchCall.resume]
    split
    · rfl
    · next header slot hslot =>
      obtain ⟨scope, hfound⟩ := slot?_of_slotOf? hslot
      exact sources_put hapart hfound (slot.resume_source caller)
  | obtaining attempt => rfl
  | sent attempt token => rfl
  | sentPlain => rfl

theorem sources_receive (hapart : slots.Apart) (answer : Answer) (call : FetchCall) :
    ((FetchCall.dialogue plan).receive caller answer slots call).slots.sources =
      slots.sources := by
  cases call with
  | obtaining attempt =>
    change (FetchCall.obtained plan attempt answer slots).slots.sources = _
    rw [FetchCall.obtained]
    split
    · rfl
    · next header slot hslot =>
      obtain ⟨scope, hfound⟩ := slot?_of_slotOf? hslot
      exact sources_put hapart hfound (slot.settle_source _)
  | sent attempt token =>
    change (FetchCall.answered plan attempt token caller answer slots).slots.sources = _
    unfold FetchCall.answered
    split
    · next scope _ _ =>
      split
      · have hkept := sources_invalidate hapart scope token
        exact (sources_seek (apart_of_sources hapart hkept)).trans hkept
      · rfl
    · rfl
  | fresh => rfl
  | inLine attempt => rfl
  | sentPlain => rfl

/-- No move adds a slot, takes one away or moves one to another source. -/
theorem Change.sources (h : Change slots slots') (hapart : slots.Apart) :
    slots'.sources = slots.sources := by
  cases h with
  | ask scope caller call =>
    simp only [TokenCall.dialogue]
    split
    · rfl
    · next slot hslot =>
      cases call with
      | fresh => exact sources_put hapart hslot (slot.ask_source caller)
      | inLine => exact sources_put hapart hslot (slot.resume_source caller)
      | obtaining => rfl
  | receive scope caller answer call =>
    simp only [TokenCall.dialogue]
    split
    · rfl
    · next slot hslot => exact sources_put hapart hslot (slot.settle_source _)
  | fetch plan caller call => exact sources_resume hapart call
  | fetched plan caller answer call => exact sources_receive hapart answer call
  | invalidate scope stale => exact sources_invalidate hapart scope stale
  | abandon caller => exact sources_abandon slots caller

def Served : Slots → Slots → Prop := Relation.ReflTransGen Change

theorem Served.sources (h : Served slots slots') (hapart : slots.Apart) :
    slots'.sources = slots.sources := by
  induction h with
  | refl => rfl
  | tail _ hchange ih => exact (hchange.sources (apart_of_sources hapart ih)).trans ih

theorem exists_slot?_of_source (hapart : slots.Apart) {source : Catalog.ScopeEntry}
    (h : source ∈ slots.sources) :
    ∃ slot, slots.slot? source.scope = some slot ∧ slot.source = source := by
  obtain ⟨slot, hslot, rfl⟩ := List.mem_map.mp h
  exact ⟨slot, slot?_of_mem hapart hslot, rfl⟩

/-- Whoever asks for the token of a scope is never told that there is no slot, and no fetch ends
while it looks for one. -/
structure Open (slots : Slots) (scope : AuthScope) : Prop where
  ask : ∀ caller call missing,
    ((TokenCall.dialogue scope).resume caller slots call).move ≠ .done (.error (noSlot missing))
  receive : ∀ caller answer call missing,
    ((TokenCall.dialogue scope).receive caller answer slots call).move ≠
      .done (.error (noSlot missing))
  seek : ∀ (plan : FetchPlan) header attempt caller result, plan.auth = some (scope, header) →
    (FetchCall.seek plan attempt caller slots).move ≠ .done result

theorem open_of_slot? {scope : AuthScope} {slot : Slot} (h : slots.slot? scope = some slot)
    (hurl : slot.source.url ≠ "") : slots.Open scope where
  ask caller call missing := by
    simp only [TokenCall.dialogue, h]
    cases call with
    | fresh => cases (slot.ask caller).1 <;> simp [TokenCall.follow]
    | inLine => cases (slot.resume caller).1 <;> simp [TokenCall.follow]
    | obtaining => simp
  receive caller answer call missing := by
    simp only [TokenCall.dialogue, h]
    intro hmove
    obtain ⟨reason, hreason⟩ := auth_of_read (Move.done.inj hmove)
    exact hurl (FetchError.auth.inj hreason).1.symm
  seek plan header attempt caller result hauth := by
    simp only [FetchCall.seek, hauth, h]
    cases (slot.ask caller).1 <;> simp [FetchCall.follow, FetchCall.sendData]

end Token.Slots

namespace Catalog

def Inherits (c : Catalog) (id : ResourceId) (service : ServiceId) : Prop :=
  ∃ r, c.resource? id = some r ∧ r.service = service ∧ r.auth = .inherited

namespace Aim

variable {c : Catalog} {a b : c.Aim} {source other : ScopeEntry}

theorem service_id (h : c.Indexed) (a : c.Aim) : a.service.id = a.resource.service :=
  h.service_at a.resource.service.index a.service a.owner

theorem inherits_iff {service : ServiceId} :
    c.Inherits a.resource.id service ↔
      a.resource.service = service ∧ a.resource.auth = .inherited := by
  constructor
  · rintro ⟨r, hr, hservice, hauth⟩
    cases a.listed.symm.trans hr
    exact ⟨hservice, hauth⟩
  · rintro ⟨hservice, hauth⟩
    exact ⟨_, a.listed, hservice, hauth⟩

/-- Two resources have one scope only if they inherit it. -/
theorem Tabled.scope_eq_iff (h : c.Indexed) (ha : a.Tabled source) (hb : b.Tabled other)
    (hne : a.resource.id ≠ b.resource.id) : source.scope = other.scope ↔
      ∃ service, c.Inherits a.resource.id service ∧ c.Inherits b.resource.id service := by
  simp only [inherits_iff]
  constructor
  · intro hscope
    cases ha with
    | own table auth =>
      cases hb with
      | own table' auth' => exact absurd (Option.some.inj (AuthScope.mk.inj hscope).2) hne
      | inherited table' kind auth' shared => cases congrArg AuthScope.resource hscope
    | inherited table kind auth shared =>
      cases hb with
      | own table' auth' => cases congrArg AuthScope.resource hscope
      | inherited table' kind' auth' shared' =>
        have hid := congrArg AuthScope.service hscope
        rw [service_id h, service_id h] at hid
        exact ⟨_, ⟨hid, auth⟩, rfl, auth'⟩
  · rintro ⟨service, ⟨hservice, hauth⟩, hservice', hauth'⟩
    cases ha with
    | own table auth => cases auth.symm.trans hauth
    | inherited table kind auth shared =>
      cases hb with
      | own table' auth' => cases auth'.symm.trans hauth'
      | inherited table' kind' auth' shared' =>
        rw [service_id h, service_id h, hservice, hservice']

/-- There is a location to ask for the token. -/
theorem Tabled.url_ne (h : a.Tabled source) : source.url ≠ "" := by
  obtain ⟨path, hurl⟩ : ∃ path, source.url = Url.join a.service.baseUrl path := by
    cases h <;> exact ⟨_, rfl⟩
  have hfirst := Url.head?_join a.service.head?_baseUrl
    (by cases a.service.protocol <;> rfl) path
  rw [← hurl] at hfirst
  intro hempty
  rw [hempty] at hfirst
  cases hfirst

end Aim

open Token in
/-- Every scope has one slot from the start on, with the table and the location that each resource
of the scope needs. -/
theorem scopes_served (ds : List Config.Definition) {slots : Slots}
    (h : Slots.Served (.ofCatalog (build ds)) slots) :
    ((build ds).scopes.map (·.scope)).Nodup ∧ slots.sources = (build ds).scopes ∧
    (∀ id scope table, (build ds).authFor? id = some (scope, table) →
      slots.Open scope ∧
      ∃ r s slot, (build ds).resource? id = some r ∧ (build ds).service? r.service = some s ∧
        slots.slot? scope = some slot ∧
        slot.source = ⟨scope, table, Url.join s.baseUrl table.endpoint⟩) ∧
    ∀ id id' scope scope' table table', id ≠ id' →
      (build ds).authFor? id = some (scope, table) →
      (build ds).authFor? id' = some (scope', table') →
      ((∃ slot, slots.slot? scope = some slot ∧ slots.slot? scope' = some slot) ↔
        ∃ service, (build ds).Inherits id service ∧ (build ds).Inherits id' service) := by
  have hindexed := build_indexed ds
  have hstart : (Slots.ofCatalog (build ds)).Apart := by
    rw [Slots.Apart, Slots.sources_ofCatalog]
    exact nodup_scopes _
  have hsources : slots.sources = (build ds).scopes :=
    (h.sources hstart).trans (Slots.sources_ofCatalog _)
  have hapart : slots.Apart := Slots.apart_of_sources hstart (h.sources hstart)
  have hfound : ∀ {a : (build ds).Aim} {source : ScopeEntry}, a.Tabled source →
      ∃ slot, slots.slot? source.scope = some slot ∧ slot.source = source := fun htabled =>
    Slots.exists_slot?_of_source hapart (hsources ▸ htabled.mem_scopes hindexed)
  refine ⟨nodup_scopes _, hsources, ?_, ?_⟩
  · intro id scope table hauth
    obtain ⟨a, rfl, htabled⟩ := hindexed.exists_aim hauth
    obtain ⟨slot, hslot, hsource⟩ := hfound htabled
    refine ⟨Slots.open_of_slot? hslot ?_, _, _, slot, a.listed, a.owner, hslot, hsource⟩
    rw [hsource]
    exact htabled.url_ne
  · intro id id' scope scope' table table' hne hauth hauth'
    obtain ⟨a, rfl, ha⟩ := hindexed.exists_aim hauth
    obtain ⟨b, rfl, hb⟩ := hindexed.exists_aim hauth'
    rw [← ha.scope_eq_iff hindexed hb hne]
    constructor
    · rintro ⟨slot, hslot, hslot'⟩
      exact (Slots.scope_of_slot? hslot).symm.trans (Slots.scope_of_slot? hslot')
    · intro hscope
      obtain ⟨slot, hslot, -⟩ := hfound ha
      exact ⟨slot, hslot, (congrArg slots.slot? hscope).symm.trans hslot⟩

def sharingDefinition : Config.Definition where
  service := ⟨"node", .http, "node", 80, "", some ⟨"X-CSRF-Token", "/csrf", "/t"⟩⟩
  metrics := []
  resources := [⟨"stats", "/stats", "GET", .api, .json, [], none⟩,
    ⟨"disks", "/disks", "GET", .api, .json, [], some .inherit⟩,
    ⟨"users", "/users", "GET", .api, .json, [], some (.own ⟨"X-Token", "login", "/t"⟩)⟩]

open Token in
theorem scopes_served_sharing :
    ∃ slots, Slots.Served (.ofCatalog (build [sharingDefinition])) slots ∧
      (∃ slot, slots.slot? ⟨⟨0⟩, none⟩ = some slot ∧ slot.holder = some 5 ∧
        slot.source.url = "http://node:80/csrf") ∧
      slots.Open ⟨⟨0⟩, none⟩ ∧
      ¬ ∃ slot, slots.slot? ⟨⟨0⟩, none⟩ = some slot ∧ slots.slot? ⟨⟨0⟩, some ⟨2⟩⟩ = some slot := by
  let c := build [sharingDefinition]
  have hserved : Slots.Served (.ofCatalog c)
      ((TokenCall.dialogue ⟨⟨0⟩, none⟩).resume 5 (.ofCatalog c) .fresh).slots :=
    .single (.ask _ _ _)
  obtain ⟨-, -, hfound, hshared⟩ := scopes_served _ hserved
  refine ⟨_, hserved, ⟨_, rfl, rfl, rfl⟩, (hfound ⟨1⟩ _ _ rfl).1, fun hslot => ?_⟩
  obtain ⟨service, -, r, hr, -, hauth⟩ :=
    (hshared ⟨0⟩ ⟨2⟩ _ _ _ _ (by decide) rfl rfl).mp hslot
  cases hr
  cases hauth

end Catalog

end MetricRelay
