import MetricRelay.Proofs.EventLoop
import MetricRelay.Proofs.Fetch.Talk
import MetricRelay.Proofs.SingleFlight
import MetricRelay.Scrape.Job

/-!
# One turn of a job

A turn touches the snapshot of its own scrape and nothing else of the scrapes.
A job ends with a result that then lies ready under its location, and the only
result that a turn can make ready is the one its own resource was answered.
-/

namespace MetricRelay

namespace Snapshot.Shelf

variable {ν ω : Type}

/-- A shelf is one flight of a snapshot; `rest` is a part of the snapshot that it leaves alone. -/
structure Lawful (shelf : Shelf ν) (rest : Snapshot → ω) : Prop where
  flight_withFlight : ∀ f s, shelf.flight (shelf.withFlight f s) = f
  flight_note : ∀ service r began ended s,
    shelf.flight (shelf.note service r began ended s) = shelf.flight s
  rest_withFlight : ∀ f s, rest (shelf.withFlight f s) = rest s
  rest_note : ∀ service r began ended s, rest (shelf.note service r began ended s) = rest s

end Snapshot.Shelf

namespace Snapshot

theorem documentShelf_lawful :
    documentShelf.Lawful fun s => (s.cancelled, s.expositions) where
  flight_withFlight _ _ := rfl
  flight_note _ _ _ _ _ := rfl
  rest_withFlight _ _ := rfl
  rest_note _ _ _ _ _ := rfl

theorem expositionShelf_lawful :
    expositionShelf.Lawful fun s => (s.cancelled, s.documents) where
  flight_withFlight _ _ := rfl
  flight_note _ _ _ _ _ := rfl
  rest_withFlight _ _ := rfl
  rest_note _ _ _ _ _ := rfl

end Snapshot

namespace ScrapeJob

variable {ν ω : Type}

/-- A job whose talk, if it is in the middle of one, has the property `T`. -/
def Loads (T : Talk FetchCall → Prop) (j : ScrapeJob) : Prop :=
  ∀ began talk, j.stage = .loading began talk → T talk

/-- What a turn at a shelf leaves: the snapshot `after`, in which a result is ready only if it was
before or if it is made of an answer with the property `A`. -/
structure Settles (j : ScrapeJob) (shelf : Snapshot.Shelf ν) (rest : Snapshot → ω)
    (conclude : ν → Except ScrapeError TaskValue) (scene : Scene) (w : World)
    (T : Talk FetchCall → Prop) (A : Answer → Prop) (t : JobTurn) (after : Snapshot) : Prop where
  snapshots : t.shared.snapshots = w.snapshots.set j.snapshot after
  catalog : t.shared.catalog = w.catalog
  rest : rest after = rest scene.snapshot
  ready : ∀ url value, (shelf.flight after).Ready url value →
    (shelf.flight scene.snapshot).Ready url value ∨ url = scene.resource.url ∧
      ∃ answer, A answer ∧ value = shelf.decodeAnswer scene.service scene.resource answer
  stop : t.stop.Ends (fun j' => j'.task = j.task ∧ j'.snapshot = j.snapshot ∧ j'.Loads T)
    fun r => r.task = j.task ∧ ∃ value, (shelf.flight after).Ready scene.resource.url value ∧
      r.result = (value.mapError .fetch).bind conclude

section

variable {j : ScrapeJob} {now caller : Nat} {shelf : Snapshot.Shelf ν} {rest : Snapshot → ω}
variable {conclude : ν → Except ScrapeError TaskValue} {scene : Scene} {w : World}
variable {T : Talk FetchCall → Prop} {A : Answer → Prop}

/-- The talks of a resource keep `T` and end with an answer that has `A`. -/
abbrev Converses (scene : Scene) (w : World) (now caller : Nat) (T : Talk FetchCall → Prop)
    (A : Answer → Prop) : Prop :=
  ∀ talk, T talk → (talk.turn (FetchCall.dialogue
    (FetchPlan.ofResource w.catalog w.policy scene.service scene.resource))
      now caller w.supply).pause.Ends T A

theorem load_settles (hshelf : shelf.Lawful rest) (htalk : Converses scene w now caller T A)
    {began : Nat} {talk : Talk FetchCall} (hT : T talk) :
    ∃ after, j.Settles shelf rest conclude scene w T A
      (j.load now caller shelf conclude scene w began talk) after := by
  have hends := htalk talk hT
  rw [load]
  dsimp only
  cases hpause : (talk.turn (FetchCall.dialogue (FetchPlan.ofResource w.catalog w.policy
      scene.service scene.resource)) now caller w.supply).pause with
  | wait next =>
    rw [hpause] at hends
    refine ⟨scene.snapshot, rfl, rfl, rfl, fun url value h => Or.inl h, rfl, rfl, ?_⟩
    intro b t heq
    cases heq
    exact hends
  | sleep time next =>
    rw [hpause] at hends
    refine ⟨scene.snapshot, rfl, rfl, rfl, fun url value h => Or.inl h, rfl, rfl, ?_⟩
    intro b t heq
    cases heq
    exact hends
  | done answer =>
    rw [hpause] at hends
    let value := shelf.decodeAnswer scene.service scene.resource answer
    let noted := shelf.note scene.service scene.resource began now scene.snapshot
    let flight := ((shelf.flight noted).complete scene.resource.url value).2
    have hready :
        (shelf.flight (shelf.withFlight flight noted)).Ready scene.resource.url value := by
      rw [hshelf.flight_withFlight]
      exact SingleFlight.complete_ready _ _ _
    refine ⟨shelf.withFlight flight noted, List.set_set _, rfl, ?_, ?_, rfl, value, hready, rfl⟩
    · exact (hshelf.rest_withFlight _ _).trans (hshelf.rest_note _ _ _ _ _)
    · intro url held hheld
      rw [hshelf.flight_withFlight] at hheld
      rcases SingleFlight.ready_of_complete hheld with old | ⟨hurl, hvalue⟩
      · rw [hshelf.flight_note] at old
        exact Or.inl old
      · exact Or.inr ⟨hurl, answer, hends, hvalue⟩

/-- Acting on an entry settles, as long as the flight that comes with the entry holds no new
results, and a result that is taken is ready in it. -/
theorem enter_settles (hshelf : shelf.Lawful rest) (htalk : Converses scene w now caller T A)
    (hfresh : T { protocol := scene.service.protocol, state := .fresh })
    {entry : SingleFlight.Entry (Except FetchError ν)}
    {flight : SingleFlight (Except FetchError ν)}
    (hold : ∀ url value, flight.Ready url value → (shelf.flight scene.snapshot).Ready url value)
    (htake : ∀ value, entry = .take value → flight.Ready scene.resource.url value) :
    ∃ after, j.Settles shelf rest conclude scene w T A
      (j.enter now caller shelf conclude scene w (entry, flight)) after := by
  have hready : ∀ url value,
      (shelf.flight (shelf.withFlight flight scene.snapshot)).Ready url value →
      (shelf.flight scene.snapshot).Ready url value := by
    intro url value h
    rw [hshelf.flight_withFlight] at h
    exact hold url value h
  have hrest := hshelf.rest_withFlight flight scene.snapshot
  unfold enter
  cases entry with
  | take value =>
    refine ⟨shelf.withFlight flight scene.snapshot, rfl, rfl, hrest,
      fun url held h => Or.inl (hready url held h), rfl, value, ?_, rfl⟩
    rw [hshelf.flight_withFlight]
    exact htake value rfl
  | wait =>
    refine ⟨shelf.withFlight flight scene.snapshot, rfl, rfl, hrest,
      fun url held h => Or.inl (hready url held h), rfl, rfl, ?_⟩
    intro began talk heq
    cases heq
  | load =>
    let entered : Scene := { scene with snapshot := shelf.withFlight flight scene.snapshot }
    have hentered : Converses entered w now caller T A := htalk
    obtain ⟨after, h⟩ : ∃ after, j.Settles shelf rest conclude entered w T A
        (j.load now caller shelf conclude entered w now
          { protocol := scene.service.protocol, state := .fresh }) after :=
      load_settles hshelf hentered hfresh
    refine ⟨after, h.snapshots, h.catalog, h.rest.trans hrest, ?_, h.stop⟩
    intro url value hvalue
    rcases h.ready url value hvalue with old | new
    · exact Or.inl (hready url value old)
    · exact Or.inr new

variable (j conclude) in
/-- A turn at a shelf settles as long as the scrape is not over. -/
theorem turnAt_settles (hshelf : shelf.Lawful rest) (htalk : Converses scene w now caller T A)
    (hfresh : T { protocol := scene.service.protocol, state := .fresh })
    (hopen : scene.snapshot.cancelled = false) (hloads : j.Loads T) :
    ∃ after, j.Settles shelf rest conclude scene w T A
      (j.turnAt now caller shelf conclude scene w) after := by
  rw [turnAt]
  rw [if_neg (by simp [hopen])]
  dsimp only
  split
  · exact enter_settles hshelf htalk hfresh (fun _ _ => SingleFlight.ready_of_enter)
      fun _ => SingleFlight.enter_take
  · exact enter_settles hshelf htalk hfresh (fun _ _ => SingleFlight.ready_of_resume)
      fun _ => SingleFlight.resume_take
  · next began talk hstage => exact load_settles hshelf htalk (hloads began talk hstage)

theorem converses_any :
    Converses scene w now caller (fun _ => True) fun _ => True := by
  intro talk _
  cases (talk.turn (FetchCall.dialogue (FetchPlan.ofResource w.catalog w.policy scene.service
    scene.resource)) now caller w.supply).pause <;> trivial

/-- A turn at a shelf, whether the scrape is over or not, stays within the scrape. -/
theorem turnAt_stays (hshelf : shelf.Lawful rest) :
    ∃ after, (j.turnAt now caller shelf conclude scene w).shared.snapshots =
        w.snapshots.set j.snapshot after ∧ rest after = rest scene.snapshot ∧
      (j.turnAt now caller shelf conclude scene w).shared.catalog = w.catalog ∧
      (j.turnAt now caller shelf conclude scene w).stop.Ends
        (fun j' => j'.task = j.task ∧ j'.snapshot = j.snapshot)
        fun r => r.task = j.task ∧ ∃ value : Except FetchError ν,
          r.result = (value.mapError .fetch).bind conclude := by
  by_cases hopen : scene.snapshot.cancelled = true
  · rw [turnAt]
    rw [if_pos hopen]
    exact ⟨_, rfl, hshelf.rest_withFlight _ _, rfl, rfl, .error .cancelled, rfl⟩
  · obtain ⟨after, h⟩ : ∃ after, j.Settles shelf rest conclude scene w (fun _ => True)
        (fun _ => True) (j.turnAt now caller shelf conclude scene w) after :=
      turnAt_settles j conclude hshelf converses_any trivial (by simpa using hopen)
        fun _ _ _ => trivial
    refine ⟨after, h.snapshots, h.rest, h.catalog,
      h.stop.imp (fun j' hj' => ⟨hj'.1, hj'.2.1⟩) ?_⟩
    rintro r ⟨htask, value, -, hresult⟩
    exact ⟨htask, value, hresult⟩

theorem load_sources {R : Sources → Prop}
    (hsend : ∀ s protocol r, R s → R (Sources.send s protocol r).2) (h : R w.supply.sources)
    (began : Nat) (talk : Talk FetchCall) :
    R (j.load now caller shelf conclude scene w began talk).shared.supply.sources := by
  have hturn := Talk.turn_sources hsend h now caller talk (d := FetchCall.dialogue
    (FetchPlan.ofResource w.catalog w.policy scene.service scene.resource))
  rw [load]
  dsimp only
  split <;> exact hturn

/-- A turn at a shelf does to the sources what its requests do. -/
theorem turnAt_sources {R : Sources → Prop}
    (hsend : ∀ s protocol r, R s → R (Sources.send s protocol r).2) (h : R w.supply.sources) :
    R (j.turnAt now caller shelf conclude scene w).shared.supply.sources := by
  have henter : ∀ entry, R (j.enter now caller shelf conclude scene w
      entry).shared.supply.sources := by
    rintro ⟨entry, flight⟩
    cases entry with
    | take value => exact h
    | wait => exact h
    | load => exact load_sources hsend h _ _
  rw [turnAt]
  split
  · exact h
  · dsimp only
    split
    · exact henter _
    · exact henter _
    · exact load_sources hsend h _ _

/-! ### First turns -/

variable (j now caller conclude scene w) in
/-- A job that comes when the result is ready ends with it and leaves it there. -/
theorem turnAt_take (hshelf : shelf.Lawful rest) (hfresh : j.stage = .fresh)
    (hopen : scene.snapshot.cancelled = false) {value : Except FetchError ν}
    (hready : (shelf.flight scene.snapshot).Ready scene.resource.url value) :
    ∃ after, (j.turnAt now caller shelf conclude scene w).shared.snapshots =
        w.snapshots.set j.snapshot after ∧
      shelf.flight after = shelf.flight scene.snapshot ∧ rest after = rest scene.snapshot ∧
      (j.turnAt now caller shelf conclude scene w).stop = j.finish now conclude value := by
  rw [turnAt]
  rw [if_neg (by simp [hopen]), hfresh]
  simp only [SingleFlight.enter_of_ready hready, enter]
  exact ⟨_, rfl, hshelf.flight_withFlight _ _, hshelf.rest_withFlight _ _, trivial⟩

variable (j now caller conclude scene w) in
/-- A job that comes first and is answered at once ends with what it has loaded. -/
theorem turnAt_load (hshelf : shelf.Lawful rest) (hfresh : j.stage = .fresh)
    (hopen : scene.snapshot.cancelled = false)
    (hnone : (shelf.flight scene.snapshot).cell? scene.resource.url = none) {answer : Answer}
    (hdone : (Talk.turn (FetchCall.dialogue (FetchPlan.ofResource w.catalog w.policy scene.service
      scene.resource)) now caller w.supply
        { protocol := scene.service.protocol, state := .fresh }).pause = .done answer) :
    ∃ after, (j.turnAt now caller shelf conclude scene w).shared.snapshots =
        w.snapshots.set j.snapshot after ∧
      (shelf.flight after).Ready scene.resource.url
        (shelf.decodeAnswer scene.service scene.resource answer) ∧
      rest after = rest scene.snapshot ∧
      (j.turnAt now caller shelf conclude scene w).stop =
        j.finish now conclude (shelf.decodeAnswer scene.service scene.resource answer) := by
  rw [turnAt]
  rw [if_neg (by simp [hopen]), hfresh]
  simp only [SingleFlight.enter_of_none hnone, enter, load, hdone]
  refine ⟨_, List.set_set _, ?_, ?_, trivial⟩
  · rw [hshelf.flight_withFlight]
    exact SingleFlight.complete_ready _ _ _
  · rw [hshelf.rest_withFlight, hshelf.rest_note, hshelf.rest_withFlight]

end

/-! ### The turn as a whole -/

variable {j : ScrapeJob} {now caller : Nat} {w : World}

theorem behave_forward {scene : Scene} {service : ServiceId} {resource : ResourceId}
    (hscene : j.scene? w = some scene) (htask : j.task = .forward service resource) :
    behave now caller j w =
      j.turnAt now caller Snapshot.expositionShelf (fun fs => .ok (.families fs)) scene w := by
  rw [behave, hscene]
  simp only [htask]

theorem behave_metric {scene : Scene} {service : ServiceId} {resource : ResourceId}
    {id : MetricId} {m : Catalog.Metric} (hscene : j.scene? w = some scene)
    (htask : j.task = .metric service resource id) (hm : w.catalog.metric? id = some m) :
    behave now caller j w =
      j.turnAt now caller Snapshot.documentShelf (concludeMetric m) scene w := by
  rw [behave, hscene]
  simp only [htask, hm]

end ScrapeJob

/-- The value of a task that succeeded is of the sort that the task asks for. -/
def TaskReport.Fits (r : TaskReport) : Prop :=
  match r.task, r.result with
  | .metric .., .ok (.families _) => False
  | .forward .., .ok (.shaped _) => False
  | _, _ => True

namespace ScrapeJob

variable {j : ScrapeJob} {now caller : Nat} {w : World}

theorem concludeMetric_shaped {m : Catalog.Metric} {doc : Node} {value : TaskValue}
    (h : concludeMetric m doc = .ok value) : ∃ v, value = .shaped v := by
  rw [concludeMetric] at h
  split at h
  · next v _ => exact ⟨v, (Except.ok.inj h).symm⟩
  · cases h

theorem bind_ok {ε α β : Type} {x : Except ε α} {f : α → Except ε β} {b : β}
    (h : x.bind f = .ok b) : ∃ a, f a = .ok b := by
  cases x with
  | error e => cases h
  | ok a => exact ⟨a, h⟩

theorem fits_metric {r : TaskReport} {service : ServiceId} {resource : ResourceId} {id : MetricId}
    (htask : r.task = .metric service resource id) {m : Catalog.Metric}
    {value : Except FetchError Node}
    (hresult : r.result = (value.mapError .fetch).bind (concludeMetric m)) : r.Fits := by
  rw [TaskReport.Fits, htask]
  cases hvalue : r.result with
  | error e => trivial
  | ok v =>
    obtain ⟨doc, hdoc⟩ := bind_ok (hresult.symm.trans hvalue)
    obtain ⟨shaped, rfl⟩ := concludeMetric_shaped hdoc
    trivial

theorem fits_forward {r : TaskReport} {service : ServiceId} {resource : ResourceId}
    (htask : r.task = .forward service resource) {value : Except FetchError (List Family)}
    (hresult : r.result = (value.mapError .fetch).bind fun fs => .ok (.families fs)) : r.Fits := by
  rw [TaskReport.Fits, htask]
  cases hvalue : r.result with
  | error e => trivial
  | ok v =>
    obtain ⟨fs, hfs⟩ := bind_ok (hresult.symm.trans hvalue)
    cases hfs
    trivial

/-- What any turn of a job does to the scrapes, and what it leaves of the job. -/
structure Stays (j : ScrapeJob) (w : World) (t : JobTurn) : Prop where
  snapshots : t.shared.snapshots = w.snapshots ∨
    ∃ after, t.shared.snapshots = w.snapshots.set j.snapshot after
  catalog : t.shared.catalog = w.catalog
  stop : t.stop.Ends (fun j' => j'.task = j.task ∧ j'.snapshot = j.snapshot)
    fun r => r.task = j.task ∧ r.Fits

theorem behave_sources {R : Sources → Prop}
    (hsend : ∀ s protocol r, R s → R (Sources.send s protocol r).2) (h : R w.supply.sources)
    (now caller : Nat) (j : ScrapeJob) : R (behave now caller j w).shared.supply.sources := by
  rw [behave]
  split
  · exact h
  · split
    · exact turnAt_sources hsend h
    · split
      · exact h
      · exact turnAt_sources hsend h

theorem behave_stays (now caller : Nat) (j : ScrapeJob) (w : World) :
    j.Stays w (behave now caller j w) := by
  cases hscene : j.scene? w with
  | none =>
    rw [behave, hscene]
    exact ⟨Or.inl rfl, rfl, trivial⟩
  | some scene =>
    cases htask : j.task with
    | forward service resource =>
      rw [behave_forward hscene htask]
      obtain ⟨after, hsnapshots, -, hcatalog, hstop⟩ := turnAt_stays Snapshot.expositionShelf_lawful
      refine ⟨Or.inr ⟨after, hsnapshots⟩, hcatalog, hstop.imp (fun j' hj' => hj') ?_⟩
      rintro r ⟨hr, value, hresult⟩
      exact ⟨hr, fits_forward (hr.trans htask) hresult⟩
    | metric service resource id =>
      cases hm : w.catalog.metric? id with
      | none =>
        rw [behave, hscene]
        simp only [htask, hm]
        exact ⟨Or.inl rfl, rfl, trivial⟩
      | some m =>
        rw [behave_metric hscene htask hm]
        obtain ⟨after, hsnapshots, -, hcatalog, hstop⟩ := turnAt_stays Snapshot.documentShelf_lawful
        refine ⟨Or.inr ⟨after, hsnapshots⟩, hcatalog, hstop.imp (fun j' hj' => hj') ?_⟩
        rintro r ⟨hr, value, hresult⟩
        exact ⟨hr, fits_metric (hr.trans htask) hresult⟩

end ScrapeJob
end MetricRelay
