import MetricRelay.Proofs.Catalog.Scopes
import MetricRelay.Proofs.Scrape.Race

/-!
# Two tasks of one location

When all tasks of a scrape are submitted and two of them share a location, the
one that takes its turn first decides what the other one gets. The worlds here
serve one location at once and have every token at hand.
-/

namespace MetricRelay

open Catalog (Service Resource Planned)

/-! ### Worlds for a location -/

/-- An exporter has one token slot for each scope of its catalog. -/
def World.Furnished (w : World) : Prop := w.supply.slots.map (·.source) = w.catalog.scopes

def Sources.serving (url : String) (response : Response) (content : Text.Bytes) : Sources where
  network := { queues := [(url, [⟨response, 0⟩])] }
  files := {
    workingDirectory := "/"
    kind := fun _ => .ok (.file content.length)
    read := fun _ => .ok content }
  fileLimit := content.length

theorem Sources.send_serving_web {url : String} (response : Response) (content : Text.Bytes)
    {protocol : Protocol} (hprotocol : protocol.isHttp = true) {r : Request} (hr : r.url = url) :
    ((serving url response content).send protocol r).1 = ⟨response.answer url, 0⟩ := by
  subst hr
  cases protocol with
  | file => cases hprotocol
  | http => simp [send, serving, Network.request, Network.queue]
  | https => simp [send, serving, Network.request, Network.queue]

theorem Sources.send_serving_file (url : String) (response : Response) (content : Text.Bytes)
    (r : Request) :
    ((serving url response content).send .file r).1 = ⟨.ok content, 0⟩ := by
  simp [send, serving, Disk.fetch, Disk.size]

def World.serving (c : Catalog) (url : String) (response : Response) (content : Text.Bytes) :
    World where
  catalog := c
  policy := .auth
  supply := {
    sources := .serving url response content
    slots := c.scopes.map fun source => { source, current := some "token" } }

theorem World.serving_furnished (c : Catalog) (url : String) (response : Response)
    (content : Text.Bytes) : (serving c url response content).Furnished := by
  simp [Furnished, serving, Function.comp_def]

/-- The slot of a scope that a resource needs. -/
theorem World.serving_slot {c : Catalog} (h : c.Indexed) {id : ResourceId} {scope : AuthScope}
    {table : AuthTable} (hauth : c.authFor? id = some (scope, table)) (url : String)
    (response : Response) (content : Text.Bytes) :
    ∃ slot, (serving c url response content).supply.slots.slot? scope = some slot ∧
      slot.current = some "token" := by
  obtain ⟨e, he, hscope⟩ := h.exists_scope hauth
  cases hslot : (serving c url response content).supply.slots.slot? scope with
  | none =>
    have hmiss := List.find?_eq_none.mp hslot _ (List.mem_map.mpr ⟨e, he, rfl⟩)
    simp [hscope] at hmiss
  | some slot =>
    obtain ⟨source, -, rfl⟩ := List.mem_map.mp (List.mem_of_find?_eq_some hslot)
    exact ⟨_, rfl, rfl⟩

/-- Where the location has a body, every resource there is fetched in one turn. -/
theorem World.serving_turn {c : Catalog} (h : c.Indexed) (s : Service) (r : Resource)
    (content : Text.Bytes) (now caller : Nat) :
    (Talk.turn (FetchCall.dialogue (FetchPlan.ofResource c .auth s r)) now caller
      (serving c r.url (.body content) content).supply
        { protocol := s.protocol, state := .fresh }).pause = .done (.ok content) := by
  have hsend : ∀ request : Request, request.url = r.url →
      ((serving c r.url (.body content) content).supply.sources.send s.protocol request).1 =
        ⟨.ok content, 0⟩ := by
    intro request hurl
    cases hprotocol : s.protocol with
    | file => exact Sources.send_serving_file ..
    | http => exact Sources.send_serving_web _ _ rfl hurl
    | https => exact Sources.send_serving_web _ _ rfl hurl
  cases hauth : (FetchPlan.ofResource c .auth s r).auth with
  | none =>
    have hreply := hsend (FetchPlan.ofResource c .auth s r).request rfl
    rw [FetchCall.turn_plain hauth (by rw [hreply]), hreply]
  | some need =>
    obtain ⟨scope, header⟩ := need
    have htable : ∃ table, c.authFor? r.id = some (scope, table) := by
      rw [FetchPlan.ofResource] at hauth
      dsimp only at hauth
      split at hauth
      · obtain ⟨⟨scope', table⟩, hfor, hpair⟩ := Option.map_eq_some_iff.mp hauth
        cases hpair
        exact ⟨table, hfor⟩
      · cases hauth
    obtain ⟨table, htable⟩ := htable
    obtain ⟨slot, hslot, htoken⟩ := serving_slot h htable r.url (.body content) content
    exact FetchCall.turn_token hauth hslot htoken (hsend _ rfl)

/-! ### The second task gets what the first one loads -/

namespace Race

variable {g : Setting} {ν ω : Type}

def fresh (g : Setting) (task : ScrapeTask) : Task ScrapeJob TaskReport :=
  .live { snapshot := g.number, task }

theorem submit_all (g : Setting) (snapshot : Snapshot) (waiting : List ScrapeTask)
    (jobs : List (Task ScrapeJob TaskReport)) :
    Relation.ReflTransGen (Step g) { snapshot, waiting, jobs }
      { snapshot, waiting := [], jobs := jobs ++ waiting.map (fresh g) } := by
  induction waiting generalizing jobs with
  | nil =>
    rw [List.map_nil, List.append_nil]
  | cons task rest ih =>
    have hsubmit : Step g { snapshot, waiting := task :: rest, jobs }
        { snapshot, waiting := rest, jobs := jobs ++ [fresh g task] } := .submit rfl
    have hrest := ih (jobs ++ [fresh g task])
    rw [List.append_assoc, List.singleton_append] at hrest
    exact .head hsubmit hrest

/-- A task turns at this shelf, and concludes in this way from what it holds. -/
def TurnsAt (c : Catalog) (shelf : Snapshot.Shelf ν)
    (conclude : ν → Except ScrapeError TaskValue) (task : ScrapeTask) : Prop :=
  ∀ (now caller : Nat) (job : ScrapeJob) (w : World) (scene : ScrapeJob.Scene),
    w.catalog = c → job.task = task → job.scene? w = some scene →
      ScrapeJob.behave now caller job w = job.turnAt now caller shelf conclude scene w

theorem turnsAt_forward (c : Catalog) (service : ServiceId) (resource : ResourceId) :
    TurnsAt c Snapshot.expositionShelf (fun fs => .ok (.families fs))
      (.forward service resource) :=
  fun _ _ _ _ _ _ htask hscene => ScrapeJob.behave_forward hscene htask

theorem turnsAt_metric {c : Catalog} {id : MetricId} {m : Catalog.Metric}
    (hm : c.metric? id = some m) (service : ServiceId) (resource : ResourceId) :
    TurnsAt c Snapshot.documentShelf (ScrapeJob.concludeMetric m)
      (.metric service resource id) :=
  fun _ _ _ _ _ hcatalog htask hscene =>
    ScrapeJob.behave_metric hscene htask (hcatalog ▸ hm)

def Setting.stage (g : Setting) (w : World) (snapshot : Snapshot) : World :=
  { w with snapshots := List.replicate (g.number + 1) snapshot }

/-- A planned task and the world in which it takes its first turn, whatever the scrapes are. -/
structure Entrant (g : Setting) (task : ScrapeTask) (s : Service) (r : Resource) (w : World) :
    Prop where
  mem_plan : task ∈ g.catalog.plan
  planned : g.catalog.Planned task s r
  catalog : w.catalog = g.catalog
  rule : ∀ job snapshots, job.task = task → g.rule job { w with snapshots }

theorem Entrant.scene {task : ScrapeTask} {s : Service} {r : Resource} {w : World}
    (h : Entrant g task s r w) (snapshot : Snapshot) :
    ScrapeJob.scene? { snapshot := g.number, task }
      (g.stage w snapshot) = some ⟨s, r, snapshot⟩ :=
  scene?_planned h.catalog h.planned (by simp [Setting.stage])

/-- The first turn of an entrant is a step. -/
theorem Entrant.step {task : ScrapeTask} {s : Service} {r : Resource} {w : World}
    (h : Entrant g task s r w) (race : Race) {i : Nat}
    (hjob : race.jobs[i]? = some (fresh g task)) {shelf : Snapshot.Shelf ν}
    {conclude : ν → Except ScrapeError TaskValue} (hturns : TurnsAt g.catalog shelf conclude task)
    {t : ScrapeJob.JobTurn}
    (ht : ScrapeJob.turnAt { snapshot := g.number, task } 0 (g.first + i) shelf conclude
      ⟨s, r, race.snapshot⟩ (g.stage w race.snapshot) = t)
    {after : Snapshot}
    (hafter : t.shared.snapshots = (g.stage w race.snapshot).snapshots.set g.number after) :
    Step g race { race with snapshot := after, jobs := race.jobs.set i t.stop.task } := by
  have hbehave := hturns 0 (g.first + i) { snapshot := g.number, task } (g.stage w race.snapshot)
    _ h.catalog rfl (h.scene race.snapshot)
  rw [ht] at hbehave
  rw [← hbehave]
  refine Step.turn 0 hjob h.catalog ?_ (h.rule _ _ rfl) ?_
  · exact List.getElem?_replicate_of_lt (Nat.lt_succ_self _)
  · rw [hbehave, hafter]
    exact List.getElem?_set_self (by simp [Setting.stage])

/-- Of two tasks of one location the second one ends with what the first one has loaded. -/
theorem overtaken {shelf : Snapshot.Shelf ν} {rest : Snapshot → Bool × ω}
    (hshelf : shelf.Lawful rest) (hcancelled : ∀ s, (rest s).1 = s.cancelled)
    {first second : ScrapeTask} {s₁ s₂ : Service} {r₁ r₂ : Resource} {w₁ w₂ : World}
    (h₁ : Entrant g first s₁ r₁ w₁) (h₂ : Entrant g second s₂ r₂ w₂) (hne : first ≠ second)
    (hurl : r₁.url = r₂.url) {conclude₁ conclude₂ : ν → Except ScrapeError TaskValue}
    (hturns₁ : TurnsAt g.catalog shelf conclude₁ first)
    (hturns₂ : TurnsAt g.catalog shelf conclude₂ second)
    (hempty : ∀ began, (shelf.flight { started := began }).cell? r₁.url = none) {answer : Answer}
    (hdone : ∀ now caller, (Talk.turn (FetchCall.dialogue
        (FetchPlan.ofResource g.catalog w₁.policy s₁ r₁)) now caller w₁.supply
          { protocol := s₁.protocol, state := .fresh }).pause = .done answer) :
    ∃ race, Reachable g race ∧ race.Reports ⟨second, 0,
      ((shelf.decodeAnswer s₁ r₁ answer).mapError .fetch).bind conclude₂⟩ := by
  obtain ⟨i, hi⟩ := List.mem_iff_getElem?.mp h₁.mem_plan
  obtain ⟨j, hj⟩ := List.mem_iff_getElem?.mp h₂.mem_plan
  have hij : i ≠ j := by
    rintro rfl
    exact hne (Option.some.inj (hi.symm.trans hj))
  let submitted : Race :=
    { snapshot := { started := 0 }, waiting := [], jobs := g.catalog.plan.map (fresh g) }
  have hsubmitted : Relation.ReflTransGen (Step g) (start g SelfMetrics.hashed 0) submitted :=
    submit_all g { started := 0 } g.catalog.plan []
  -- The first task loads.
  obtain ⟨loaded, hafter₁, hready, hrest, hstop₁⟩ := ScrapeJob.turnAt_load
    { snapshot := g.number, task := first } 0 (g.first + i) conclude₁
    ⟨s₁, r₁, submitted.snapshot⟩ (g.stage w₁ submitted.snapshot) hshelf rfl rfl (hempty 0)
    (h₁.catalog ▸ hdone 0 (g.first + i))
  have hjob₁ : submitted.jobs[i]? = some (fresh g first) := by
    rw [List.getElem?_map, hi]
    rfl
  have hstep₁ := h₁.step submitted hjob₁ hturns₁ rfl hafter₁
  rw [hstop₁] at hstep₁
  -- The second task takes what there is.
  have hopen : loaded.cancelled = false := by
    rw [← hcancelled, hrest, hcancelled]
  obtain ⟨taken, hafter₂, -, -, hstop₂⟩ := ScrapeJob.turnAt_take
    { snapshot := g.number, task := second } 0 (g.first + j) conclude₂ ⟨s₂, r₂, loaded⟩
    (g.stage w₂ loaded) hshelf rfl hopen (hurl ▸ hready)
  have hjob₂ : (submitted.jobs.set i (ScrapeJob.finish { snapshot := g.number, task := first } 0
      conclude₁ (shelf.decodeAnswer s₁ r₁ answer)).task)[j]? = some (fresh g second) := by
    rw [List.getElem?_set_ne hij, List.getElem?_map, hj]
    rfl
  have hstep₂ := h₂.step { submitted with snapshot := loaded, jobs := _ } hjob₂ hturns₂ rfl hafter₂
  rw [hstop₂] at hstep₂
  refine ⟨_, ⟨SelfMetrics.hashed, 0, (hsubmitted.tail hstep₁).tail hstep₂⟩, j, ?_⟩
  exact List.getElem?_set_self (List.getElem?_eq_some_iff.mp hjob₂).1

end Race
end MetricRelay
