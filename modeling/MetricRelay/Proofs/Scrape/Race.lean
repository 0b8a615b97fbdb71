import Mathlib.Logic.Relation
import MetricRelay.Proofs.Catalog.Plan
import MetricRelay.Proofs.Scrape.Turn

/-!
# A scrape as a race of its jobs

The planned tasks are submitted one after another, and the jobs take turns in
any order. Between two turns the rest of the world may change in any way; only
the snapshot of the scrape belongs to its jobs alone. Over every such run a
result that lies ready under a location was loaded by a planned task of that
location, though not always by the task that ends with it.
-/

namespace MetricRelay

structure Race where
  snapshot : Snapshot
  /-- The tasks that are not submitted yet. -/
  waiting : List ScrapeTask
  /-- The jobs so far, in the order in which they were submitted. -/
  jobs : List (Task ScrapeJob TaskReport) := []

namespace Race

open Catalog (Service Resource Planned)

structure Setting where
  catalog : Catalog
  /-- The number of the scrape. -/
  number : Nat
  /-- The number of the first job. -/
  first : Nat
  /-- The worlds in which a job takes its turns. -/
  rule : ScrapeJob → World → Prop

def start (g : Setting) (seriesKey : SelfMetrics.Key) (began : Nat) : Race where
  snapshot := .fresh seriesKey began
  waiting := g.catalog.plan

inductive Step (g : Setting) : Race → Race → Prop
  | submit {r : Race} {task : ScrapeTask} {rest : List ScrapeTask}
      (hwaiting : r.waiting = task :: rest) :
      Step g r { r with
        waiting := rest
        jobs := r.jobs ++ [.live { snapshot := g.number, task }] }
  /-- There was no room in time, or the pool is closed. -/
  | refuse {r : Race} {task : ScrapeTask} {rest : List ScrapeTask}
      (hwaiting : r.waiting = task :: rest) : Step g r { r with waiting := rest }
  /-- The pool drops a job. -/
  | lose {r : Race} (i : Nat) : Step g r { r with jobs := r.jobs.set i .lost }
  | turn {r : Race} {i : Nat} {job : ScrapeJob} {w : World} {after : Snapshot} (now : Nat)
      (hlive : r.jobs[i]? = some (.live job)) (hcatalog : w.catalog = g.catalog)
      (hsnapshot : w.snapshots[g.number]? = some r.snapshot) (hrule : g.rule job w)
      (hafter : (ScrapeJob.behave now (g.first + i) job w).shared.snapshots[g.number]? =
        some after) :
      Step g r { r with
        snapshot := after
        jobs := r.jobs.set i (ScrapeJob.behave now (g.first + i) job w).stop.task }

def Reachable (g : Setting) (r : Race) : Prop :=
  ∃ seriesKey began, Relation.ReflTransGen (Step g) (start g seriesKey began) r

def Reports (r : Race) (report : TaskReport) : Prop :=
  ∃ i : Nat, r.jobs[i]? = some (.finished report)

/-! ### Where results come from -/

variable {ν : Type}

/-- `value` was made of an answer to a planned task of this sort whose location is `url`. -/
def Loaded (c : Catalog) (sort : ScrapeTask → Prop) (A : Service → Resource → Answer → Prop)
    (shelf : Snapshot.Shelf ν) (url : String) (value : Except FetchError ν) : Prop :=
  ∃ task s r answer, sort task ∧ c.Planned task s r ∧ r.url = url ∧ A s r answer ∧
    value = shelf.decodeAnswer s r answer

def IsMetric (task : ScrapeTask) : Prop := task.metric?.isSome = true

def IsForward (task : ScrapeTask) : Prop := task.metric? = none

/-- A report concludes from a result that was loaded for the location of its own resource. -/
def Explained (c : Catalog) (A : Service → Resource → Answer → Prop) (report : TaskReport) : Prop :=
  ∃ s r, c.Planned report.task s r ∧
    match report.task with
    | .metric _ _ id => ∃ m value, c.metric? id = some m ∧
        Loaded c IsMetric A Snapshot.documentShelf r.url value ∧
        report.result = (value.mapError .fetch).bind (ScrapeJob.concludeMetric m)
    | .forward .. => ∃ value, Loaded c IsForward A Snapshot.expositionShelf r.url value ∧
        report.result = (value.mapError .fetch).bind fun fs => .ok (.families fs)

/-- The talks of a resource keep `T` and end with answers that have `A`, in every world that the
rule admits. -/
structure Honest (g : Setting) (T : Service → Resource → Talk FetchCall → Prop)
    (A : Service → Resource → Answer → Prop) : Prop where
  fresh : ∀ s r, T s r { protocol := s.protocol, state := .fresh }
  turn : ∀ {job : ScrapeJob} {w : World} {scene : ScrapeJob.Scene} (now caller : Nat),
    g.rule job w → w.catalog = g.catalog → job.scene? w = some scene →
      ScrapeJob.Converses scene w now caller (T scene.service scene.resource)
        (A scene.service scene.resource)

/-- Nothing is asked of the talks of a scrape. -/
theorem honest_trivial (g : Setting) : Honest g (fun _ _ _ => True) fun _ _ _ => True where
  fresh _ _ := trivial
  turn _ _ _ _ _ _ _ := Talk.Pause.ends_of_forall (fun _ => trivial) (fun _ => trivial) _

/-- The invariant of a race. -/
structure Sound (g : Setting) (T : Service → Resource → Talk FetchCall → Prop)
    (A : Service → Resource → Answer → Prop) (race : Race) : Prop where
  running : race.snapshot.cancelled = false
  waiting : ∀ task ∈ race.waiting, task ∈ g.catalog.plan
  live : ∀ (i : Nat) (job : ScrapeJob), race.jobs[i]? = some (.live job) →
    job.snapshot = g.number ∧ job.task ∈ g.catalog.plan ∧
      ∀ s r, g.catalog.Planned job.task s r → job.Loads (T s r)
  documents : ∀ url value, race.snapshot.documents.Ready url value →
    Loaded g.catalog IsMetric A Snapshot.documentShelf url value
  expositions : ∀ url value, race.snapshot.expositions.Ready url value →
    Loaded g.catalog IsForward A Snapshot.expositionShelf url value
  reports : ∀ report, race.Reports report → Explained g.catalog A report

variable {g : Setting} {T : Service → Resource → Talk FetchCall → Prop}
variable {A : Service → Resource → Answer → Prop}

theorem sound_start (seriesKey : SelfMetrics.Key) (began : Nat) :
    Sound g T A (start g seriesKey began) where
  running := rfl
  waiting := fun task h => h
  live := by
    intro i job h
    simp [start] at h
  documents := by
    intro url value h
    simp [start, Snapshot.fresh, SingleFlight.Ready, SingleFlight.cell?] at h
  expositions := by
    intro url value h
    simp [start, Snapshot.fresh, SingleFlight.Ready, SingleFlight.cell?] at h
  reports := by
    rintro report ⟨i, h⟩
    simp [start] at h

theorem scene?_planned {c : Catalog} {job : ScrapeJob} {w : World} {snapshot : Snapshot}
    {s : Service} {r : Resource} (hcatalog : w.catalog = c) (hp : c.Planned job.task s r)
    (hsnapshot : w.snapshots[job.snapshot]? = some snapshot) :
    job.scene? w = some ⟨s, r, snapshot⟩ := by
  subst hcatalog
  simp [ScrapeJob.scene?, hp.resource, hp.owner, hsnapshot]

/-- Setting one entry: what holds of the old entries and of the new one holds of all. -/
theorem getElem?_set_cases {α : Type} {xs : List α} {i j : Nat} {a b : α}
    (h : (xs.set i a)[j]? = some b) : xs[j]? = some b ∨ j = i ∧ b = a := by
  by_cases hij : i = j
  · subst hij
    rw [List.getElem?_set] at h
    split at h
    · split at h
      · exact Or.inr ⟨rfl, (Option.some.inj h).symm⟩
      · cases h
    · exact absurd rfl ‹_›
  · rw [List.getElem?_set_ne hij] at h
    exact Or.inl h

/-- What the turn of a job has to leave so that the invariant goes on. -/
structure Leaves (g : Setting) (T : Service → Resource → Talk FetchCall → Prop)
    (A : Service → Resource → Answer → Prop) (job : ScrapeJob) (before after : Snapshot)
    (stop : Stop ScrapeJob TaskReport) : Prop where
  cancelled : after.cancelled = before.cancelled
  documents : ∀ url value, after.documents.Ready url value →
    before.documents.Ready url value ∨ Loaded g.catalog IsMetric A Snapshot.documentShelf url value
  expositions : ∀ url value, after.expositions.Ready url value →
    before.expositions.Ready url value ∨
      Loaded g.catalog IsForward A Snapshot.expositionShelf url value
  stop : stop.Ends
    (fun next => next.task = job.task ∧ next.snapshot = job.snapshot ∧
      ∀ s r, g.catalog.Planned job.task s r → next.Loads (T s r))
    (Explained g.catalog A)

theorem Sound.turn {race : Race} (h : Sound g T A race) {i : Nat} {job : ScrapeJob}
    (hlive : race.jobs[i]? = some (.live job)) {after : Snapshot}
    {stop : Stop ScrapeJob TaskReport} (hleaves : Leaves g T A job race.snapshot after stop) :
    Sound g T A { race with snapshot := after, jobs := race.jobs.set i stop.task } where
  running := hleaves.cancelled.trans h.running
  waiting := h.waiting
  live := by
    intro j next hnext
    rcases getElem?_set_cases hnext with old | ⟨rfl, new⟩
    · exact h.live j next old
    · obtain ⟨hnumber, hplan, -⟩ := h.live j job hlive
      obtain ⟨htask, hsame, hloads⟩ := hleaves.stop.live new
      rw [htask, hsame]
      exact ⟨hnumber, hplan, hloads⟩
  documents := by
    intro url value hready
    rcases hleaves.documents url value hready with old | new
    · exact h.documents url value old
    · exact new
  expositions := by
    intro url value hready
    rcases hleaves.expositions url value hready with old | new
    · exact h.expositions url value old
    · exact new
  reports := by
    rintro report ⟨j, hreport⟩
    rcases getElem?_set_cases hreport with old | ⟨rfl, new⟩
    · exact h.reports report ⟨j, old⟩
    · exact hleaves.stop.finished new

/-- The snapshot after a turn is the one that the turn has put there. -/
theorem after_eq {snapshots : List Snapshot} {number : Nat} {before put after : Snapshot}
    (hbefore : snapshots[number]? = some before)
    (hafter : (snapshots.set number put)[number]? = some after) : after = put := by
  rw [List.getElem?_set_self (List.getElem?_eq_some_iff.mp hbefore).1] at hafter
  exact (Option.some.inj hafter).symm

/-- What is ready on a shelf after a turn was ready before or is loaded. -/
theorem loaded_of_settles {ω : Type} {shelf : Snapshot.Shelf ν} {rest : Snapshot → ω}
    {conclude : ν → Except ScrapeError TaskValue} {job : ScrapeJob} {w : World} {s : Service}
    {r : Resource} {before after : Snapshot} {t : ScrapeJob.JobTurn} {sort : ScrapeTask → Prop}
    (h : job.Settles shelf rest conclude ⟨s, r, before⟩ w (T s r) (A s r) t after)
    (hp : g.catalog.Planned job.task s r) (hsort : sort job.task) (url : String)
    (value : Except FetchError ν) (hready : (shelf.flight after).Ready url value) :
    (shelf.flight before).Ready url value ∨ Loaded g.catalog sort A shelf url value := by
  rcases h.ready url value hready with old | ⟨hurl, answer, hanswer, hmade⟩
  · exact Or.inl old
  · exact Or.inr ⟨job.task, s, r, answer, hsort, hp, hurl.symm, hanswer, hmade⟩

/-- A job keeps its task, its scrape and the property of its talk. -/
theorem keeps_of_settles {job next : ScrapeJob} {s : Service} {r : Resource}
    (hp : g.catalog.Planned job.task s r)
    (h : next.task = job.task ∧ next.snapshot = job.snapshot ∧ next.Loads (T s r)) :
    next.task = job.task ∧ next.snapshot = job.snapshot ∧
      ∀ s' r', g.catalog.Planned job.task s' r' → next.Loads (T s' r') := by
  refine ⟨h.1, h.2.1, ?_⟩
  intro s' r' hp'
  obtain ⟨rfl, rfl⟩ := hp.unique hp'
  exact h.2.2

/-- The step lemma for one job: its turn leaves what the invariant asks for. -/
theorem Sound.leaves (hindexed : g.catalog.Indexed) (hhonest : Honest g T A) {race : Race}
    (h : Sound g T A race) {i now caller : Nat} {job : ScrapeJob} {w : World} {after : Snapshot}
    (hlive : race.jobs[i]? = some (.live job)) (hcatalog : w.catalog = g.catalog)
    (hsnapshot : w.snapshots[g.number]? = some race.snapshot) (hrule : g.rule job w)
    (hafter : (ScrapeJob.behave now caller job w).shared.snapshots[g.number]? = some after) :
    Leaves g T A job race.snapshot after (ScrapeJob.behave now caller job w).stop := by
  obtain ⟨hnumber, hplan, hloads⟩ := h.live i job hlive
  obtain ⟨s, r, hp⟩ := hindexed.planned hplan
  have hscene : job.scene? w = some ⟨s, r, race.snapshot⟩ :=
    scene?_planned hcatalog hp (hnumber ▸ hsnapshot)
  have htalk := hhonest.turn now caller hrule hcatalog hscene
  cases htask : job.task with
  | forward service resource =>
    rw [ScrapeJob.behave_forward hscene htask] at hafter ⊢
    obtain ⟨put, hput⟩ := ScrapeJob.turnAt_settles job (fun fs => .ok (.families fs))
      Snapshot.expositionShelf_lawful htalk (hhonest.fresh s r) h.running (hloads s r hp)
    rw [hput.snapshots, hnumber] at hafter
    obtain rfl := after_eq hsnapshot hafter
    have hsort : IsForward job.task := by
      rw [htask]
      rfl
    have hready := loaded_of_settles hput hp hsort
    have hsame : after.documents = race.snapshot.documents := congrArg Prod.snd hput.rest
    refine ⟨congrArg Prod.fst hput.rest, ?_, hready,
      hput.stop.imp (fun next hnext => keeps_of_settles hp hnext) ?_⟩
    · intro url value hvalue
      rw [hsame] at hvalue
      exact Or.inl hvalue
    · rintro report ⟨hreport, value, hvalue, hresult⟩
      refine ⟨s, r, hreport ▸ hp, ?_⟩
      rw [hreport, htask]
      exact ⟨value, (hready _ _ hvalue).elim (h.expositions _ _) fun new => new, hresult⟩
  | metric service resource id =>
    obtain ⟨m, hm⟩ := hindexed.planned_metric (htask ▸ hp)
    rw [ScrapeJob.behave_metric hscene htask (hcatalog ▸ hm)] at hafter ⊢
    obtain ⟨put, hput⟩ := ScrapeJob.turnAt_settles job (ScrapeJob.concludeMetric m)
      Snapshot.documentShelf_lawful htalk (hhonest.fresh s r) h.running (hloads s r hp)
    rw [hput.snapshots, hnumber] at hafter
    obtain rfl := after_eq hsnapshot hafter
    have hsort : IsMetric job.task := by
      rw [htask]
      rfl
    have hready := loaded_of_settles hput hp hsort
    have hsame : after.expositions = race.snapshot.expositions := congrArg Prod.snd hput.rest
    refine ⟨congrArg Prod.fst hput.rest, hready, ?_,
      hput.stop.imp (fun next hnext => keeps_of_settles hp hnext) ?_⟩
    · intro url value hvalue
      rw [hsame] at hvalue
      exact Or.inl hvalue
    · rintro report ⟨hreport, value, hvalue, hresult⟩
      refine ⟨s, r, hreport ▸ hp, ?_⟩
      rw [hreport, htask]
      exact ⟨m, value, hm, (hready _ _ hvalue).elim (h.documents _ _) fun new => new, hresult⟩

/-- Every step keeps the invariant. -/
theorem Sound.step (hindexed : g.catalog.Indexed) (hhonest : Honest g T A) {race next : Race}
    (h : Sound g T A race) (hstep : Step g race next) : Sound g T A next := by
  cases hstep with
  | @submit task rest hwaiting =>
    have htask : task ∈ g.catalog.plan := h.waiting task (by simp [hwaiting])
    refine ⟨h.running, ?_, ?_, h.documents, h.expositions, ?_⟩
    · exact fun t ht => h.waiting t (by simp [hwaiting, ht])
    · intro i job hlive
      rcases Catalog.getElem?_append_cases hlive with old | ⟨j, -, new⟩
      · exact h.live i job old
      · cases j with
        | zero =>
          cases new
          refine ⟨rfl, htask, fun s r _ began talk hstage => ?_⟩
          cases hstage
        | succ j => simp at new
    · rintro report ⟨i, hreport⟩
      rcases Catalog.getElem?_append_cases hreport with old | ⟨j, -, new⟩
      · exact h.reports report ⟨i, old⟩
      · cases j with
        | zero => cases new
        | succ j => simp at new
  | @refuse task rest hwaiting =>
    exact ⟨h.running, fun t ht => h.waiting t (by simp [hwaiting, ht]), h.live, h.documents,
      h.expositions, h.reports⟩
  | lose i =>
    refine ⟨h.running, h.waiting, ?_, h.documents, h.expositions, ?_⟩
    · intro j job hlive
      rcases getElem?_set_cases hlive with old | ⟨-, new⟩
      · exact h.live j job old
      · cases new
    · rintro report ⟨j, hreport⟩
      rcases getElem?_set_cases hreport with old | ⟨-, new⟩
      · exact h.reports report ⟨j, old⟩
      · cases new
  | turn now hlive hcatalog hsnapshot hrule hafter =>
    exact h.turn hlive (h.leaves hindexed hhonest hlive hcatalog hsnapshot hrule hafter)

/-- Every run keeps the invariant. -/
theorem Reachable.sound (hindexed : g.catalog.Indexed) (hhonest : Honest g T A) {race : Race}
    (h : Reachable g race) : Sound g T A race := by
  obtain ⟨seriesKey, began, hrun⟩ := h
  induction hrun with
  | refl => exact sound_start seriesKey began
  | tail _ hstep ih => exact ih.step hindexed hhonest hstep

end Race
end MetricRelay
