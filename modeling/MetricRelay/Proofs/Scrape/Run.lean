import MetricRelay.Proofs.Scrape.Account
import MetricRelay.Proofs.Scrape.Race

/-!
# The scrapes of an exporter are races

Whatever the pool, the clock and the other activities of an exporter do, the
jobs of one of its scrapes run as some race does. So what holds of the reports
of every race holds of what a scrape puts together.
-/

namespace MetricRelay

open Race (Setting Reachable)

namespace Exporter

def asTask : Task ScrapeJob TaskReport → Task Activity Finding
  | .live job => .live (.task job)
  | .finished report => .finished (.report report)
  | .lost => .lost

theorem asTask_stop (t : ScrapeJob.JobTurn) :
    (t.map Activity.task Finding.report).stop.task = asTask t.stop.task := by
  obtain ⟨shared, woken, stop⟩ := t
  cases stop <;> rfl

/-- The jobs that are still under way belong to scrapes that have begun. -/
def Orderly (w : World) (tasks : List (Task Activity Finding)) : Prop :=
  ∀ (i : Nat) (job : ScrapeJob), tasks[i]? = some (.live (.task job)) →
    job.snapshot < w.snapshots.length

def IsOrderly (e : Exporter) : Prop := Orderly e.world e.loop.tasks

/-- A property of worlds that all activities keep, and that makes them worlds of the race. -/
structure Upheld (g : Setting) (Q : World → Prop) : Prop where
  kept : ∀ (now me : Nat) (a : Activity) (w : World), Q w → Q (Activity.behave now me a w).shared
  rule : ∀ (job : ScrapeJob) (w : World), Q w → g.rule job w

/-- The tasks from the first job of the scrape on are those of a race in which `rest` still waits,
and no task before them belongs to the scrape. -/
structure Follows (g : Setting) (Q : World → Prop) (rest : List ScrapeTask) (w : World)
    (tasks : List (Task Activity Finding)) (race : Race) : Prop where
  reachable : Reachable g race
  waiting : race.waiting = rest
  world : Q w
  catalog : w.catalog = g.catalog
  snapshot : w.snapshots[g.number]? = some race.snapshot
  before : g.first ≤ tasks.length
  others : ∀ (i : Nat) (job : ScrapeJob), i < g.first → tasks[i]? = some (.live (.task job)) →
    job.snapshot ≠ g.number
  jobs : tasks.drop g.first = race.jobs.map asTask

variable {g : Setting} {Q : World → Prop} {rest : List ScrapeTask} {w : World}
variable {tasks : List (Task Activity Finding)} {race : Race} {task : ScrapeTask}

/-- A task of the exporter that comes after the first job is a job of the race. -/
theorem Follows.job (h : Follows g Q rest w tasks race) {i : Nat} (hi : g.first ≤ i)
    {t : Task Activity Finding} (ht : tasks[i]? = some t) :
    ∃ job, race.jobs[i - g.first]? = some job ∧ t = asTask job := by
  have hdrop : (tasks.drop g.first)[i - g.first]? = some t := by
    rw [List.getElem?_drop, Nat.add_sub_cancel' hi]
    exact ht
  rw [h.jobs, List.getElem?_map, Option.map_eq_some_iff] at hdrop
  obtain ⟨job, hjob, rfl⟩ := hdrop
  exact ⟨job, hjob, rfl⟩

/-- What has been reported to the exporter has been reported in the race. -/
theorem Follows.reports (h : Follows g Q rest w tasks race) {i : Nat} (hi : g.first ≤ i)
    {report : TaskReport} (ht : tasks[i]? = some (.finished (.report report))) :
    race.Reports report := by
  obtain ⟨job, hjob, heq⟩ := h.job hi ht
  cases job with
  | live job => cases heq
  | finished found =>
    cases heq
    exact ⟨i - g.first, hjob⟩
  | lost => cases heq

/-- A task before the first job changes in some way. -/
theorem Follows.set_before (h : Follows g Q rest w tasks race) {i : Nat} (hi : i < g.first)
    {t : Task Activity Finding} (ht : ∀ job, t = .live (.task job) → job.snapshot ≠ g.number) :
    Follows g Q rest w (tasks.set i t) race :=
  { h with
    before := by
      rw [List.length_set]
      exact h.before
    others := by
      intro j job hj hjob
      rcases Race.getElem?_set_cases hjob with old | ⟨-, new⟩
      · exact h.others j job hj old
      · exact ht job new.symm
    jobs := by
      rw [List.drop_set, if_pos hi]
      exact h.jobs }

/-- One of the jobs changes, in the exporter and in the race. -/
theorem jobs_set (h : Follows g Q rest w tasks race) {i : Nat} (hi : g.first ≤ i)
    (t : Task ScrapeJob TaskReport) :
    (tasks.set i (asTask t)).drop g.first = (race.jobs.set (i - g.first) t).map asTask := by
  rw [List.drop_set, if_neg (Nat.not_lt.mpr hi), h.jobs, List.map_set]

theorem others_set (h : Follows g Q rest w tasks race) {i : Nat} (hi : g.first ≤ i)
    (t : Task Activity Finding) : ∀ (j : Nat) (job : ScrapeJob), j < g.first →
      (tasks.set i t)[j]? = some (.live (.task job)) → job.snapshot ≠ g.number := by
  intro j job hj hjob
  rw [List.getElem?_set_ne (by omega)] at hjob
  exact h.others j job hj hjob

/-- Only the turn of a job touches a snapshot, that of its own scrape, and only a job leaves a job
behind. -/
theorem behave_touches (now me : Nat) (a : Activity) (w : World) :
    ((Activity.behave now me a w).shared.snapshots = w.snapshots ∨
      ∃ job after, a = .task job ∧
        (Activity.behave now me a w).shared.snapshots = w.snapshots.set job.snapshot after) ∧
    ∀ next, (Activity.behave now me a w).stop.task = .live (.task next) →
      ∃ job, a = .task job ∧ next.snapshot = job.snapshot := by
  cases a with
  | task job =>
    have hstays := ScrapeJob.behave_stays now me job w
    constructor
    · rcases hstays.snapshots with hsame | ⟨after, hset⟩
      · exact Or.inl hsame
      · exact Or.inr ⟨job, after, rfl, hset⟩
    · intro next hnext
      change ((ScrapeJob.behave now me job w).map Activity.task Finding.report).stop.task = _
        at hnext
      rw [asTask_stop] at hnext
      cases hstop : (ScrapeJob.behave now me job w).stop.task with
      | live state =>
        rw [hstop] at hnext
        cases hnext
        exact ⟨job, rfl, (hstays.stop.live hstop.symm).2⟩
      | finished report =>
        rw [hstop] at hnext
        cases hnext
      | lost =>
        rw [hstop] at hnext
        cases hnext
  | fetch r talk =>
    constructor
    · refine Or.inl ?_
      change (Activity.behaveFetch r now me talk w).shared.snapshots = _
      rw [Activity.behaveFetch]
      split <;> rfl
    · intro next hnext
      change ((Activity.behaveFetch r now me talk w).map (Activity.fetch r)
        Finding.answer).stop.task = _ at hnext
      cases hstop : (Activity.behaveFetch r now me talk w).stop <;>
        simp [Turn.map, hstop, Stop.task] at hnext
  | token scope talk =>
    refine ⟨Or.inl rfl, fun next hnext => ?_⟩
    change ((Activity.turnOfTalk w (talk.turn (TokenCall.dialogue scope) now me w.supply)).map
      (Activity.token scope) Finding.token).stop.task = _ at hnext
    cases hstop : (Activity.turnOfTalk w (talk.turn (TokenCall.dialogue scope) now me
      w.supply)).stop <;> simp [Turn.map, hstop, Stop.task] at hnext

/-- A turn that is not one of the scrape leaves its snapshot alone. -/
theorem behave_other (number : Nat) {a : Activity}
    (hother : ∀ job, a = .task job → job.snapshot ≠ number) (now me : Nat) (w : World) :
    (Activity.behave now me a w).shared.snapshots[number]? = w.snapshots[number]? ∧
      ∀ next, (Activity.behave now me a w).stop.task = .live (.task next) →
        next.snapshot ≠ number := by
  obtain ⟨hsnapshots, hnext⟩ := behave_touches now me a w
  constructor
  · rcases hsnapshots with hsame | ⟨job, after, hjob, hset⟩
    · rw [hsame]
    · rw [hset, List.getElem?_set_ne (hother job hjob)]
  · intro next hlive
    obtain ⟨job, hjob, hsame⟩ := hnext next hlive
    exact hsame ▸ hother job hjob

/-- The jobs that a race has under way are jobs of its scrape. -/
theorem snapshot_of_live (hindexed : g.catalog.Indexed) (h : Reachable g race) {i : Nat}
    {job : ScrapeJob} (hjob : race.jobs[i]? = some (.live job)) : job.snapshot = g.number :=
  ((h.sound hindexed (Race.honest_trivial g)).live i job hjob).1

/-- A turn of the exporter is a step of the race, or none of its business. -/
theorem Follows.turn (hindexed : g.catalog.Indexed) (hupheld : Upheld g Q)
    (h : Follows g Q rest w tasks race) {i : Nat} {a : Activity} (now : Nat)
    (hlive : tasks[i]? = some (.live a)) :
    ∃ next, Follows g Q rest (Activity.behave now i a w).shared
      (tasks.set i (Activity.behave now i a w).stop.task) next := by
  have hcatalog := (behave_catalog now i a w).trans h.catalog
  have hworld := hupheld.kept now i a w h.world
  by_cases hi : i < g.first
  · have hother := behave_other g.number (fun job heq => h.others i job hi
      (heq ▸ hlive)) now i w
    have hset := h.set_before hi hother.2
    exact ⟨race, { hset with
      world := hworld
      catalog := hcatalog
      snapshot := hother.1.trans h.snapshot }⟩
  · have hle : g.first ≤ i := Nat.le_of_not_lt hi
    obtain ⟨job, hjob, heq⟩ := h.job hle hlive
    cases job with
    | finished report => cases heq
    | lost => cases heq
    | live job =>
      cases heq
      have hnumber := snapshot_of_live hindexed h.reachable hjob
      -- The turn leaves a snapshot where the one of the scrape was.
      obtain ⟨after, hafter⟩ : ∃ after,
          (ScrapeJob.behave now i job w).shared.snapshots[g.number]? = some after := by
        rcases (ScrapeJob.behave_stays now i job w).snapshots with hsame | ⟨after, hset⟩
        · exact ⟨race.snapshot, hsame ▸ h.snapshot⟩
        · refine ⟨after, ?_⟩
          rw [hset, hnumber]
          exact List.getElem?_set_self (List.getElem?_eq_some_iff.mp h.snapshot).1
      have hcaller : g.first + (i - g.first) = i := Nat.add_sub_cancel' hle
      have hstep : Race.Step g race { race with
          snapshot := after
          jobs := race.jobs.set (i - g.first) (ScrapeJob.behave now i job w).stop.task } := by
        have hturn := Race.Step.turn (g := g) now hjob h.catalog h.snapshot
          (hupheld.rule job w h.world) (hcaller.symm ▸ hafter)
        rwa [hcaller] at hturn
      obtain ⟨seriesKey, began, hrun⟩ := h.reachable
      have hstop : (Activity.behave now i (.task job) w).stop.task =
          asTask (ScrapeJob.behave now i job w).stop.task := asTask_stop _
      rw [hstop]
      exact ⟨_, {
        reachable := ⟨seriesKey, began, hrun.tail hstep⟩
        waiting := h.waiting
        world := hworld
        catalog := hcatalog
        snapshot := hafter
        before := by
          rw [List.length_set]
          exact h.before
        others := others_set h hle _
        jobs := jobs_set h hle _ }⟩

theorem Follows.lose (h : Follows g Q rest w tasks race) (i : Nat) :
    ∃ next, Follows g Q rest w (tasks.set i .lost) next := by
  by_cases hi : i < g.first
  · exact ⟨race, h.set_before hi fun job heq => by cases heq⟩
  · have hle : g.first ≤ i := Nat.le_of_not_lt hi
    obtain ⟨seriesKey, began, hrun⟩ := h.reachable
    have hstep : Race.Step g race { race with jobs := race.jobs.set (i - g.first) .lost } :=
      .lose (i - g.first)
    exact ⟨_, { h with
      reachable := ⟨seriesKey, began, hrun.tail hstep⟩
      waiting := h.waiting
      snapshot := h.snapshot
      before := by
        rw [List.length_set]
        exact h.before
      others := others_set h hle _
      jobs := jobs_set h hle .lost }⟩

/-- While the owner of the exporter waits, the race goes on. -/
theorem follows_kept (hindexed : g.catalog.Indexed) (hupheld : Upheld g Q)
    (rest : List ScrapeTask) :
    EventLoop.Kept Activity.behave fun w tasks => ∃ race, Follows g Q rest w tasks race where
  turn := by
    rintro w tasks i a now hlive ⟨race, h⟩
    exact h.turn hindexed hupheld now hlive
  lose := by
    rintro w tasks i ⟨race, h⟩
    exact h.lose i

/-! ### The loops of a scrape -/

theorem Follows.submit (h : Follows g Q (task :: rest) w tasks race) :
    ∃ next, Follows g Q rest w
      (tasks ++ [.live (.task { snapshot := g.number, task })]) next := by
  obtain ⟨seriesKey, began, hrun⟩ := h.reachable
  refine ⟨_, {
    reachable := ⟨seriesKey, began, hrun.tail (.submit h.waiting)⟩
    waiting := rfl
    world := h.world
    catalog := h.catalog
    snapshot := h.snapshot
    before := ?_
    others := ?_
    jobs := ?_ }⟩
  · rw [List.length_append]
    exact Nat.le_add_right_of_le h.before
  · intro i job hi hjob
    rw [List.getElem?_append_left (Nat.lt_of_lt_of_le hi h.before)] at hjob
    exact h.others i job hi hjob
  · rw [List.drop_append_of_le_length h.before, h.jobs, List.map_append]
    rfl

theorem Follows.refuse (h : Follows g Q (task :: rest) w tasks race) :
    ∃ next, Follows g Q rest w tasks next := by
  obtain ⟨seriesKey, began, hrun⟩ := h.reachable
  exact ⟨_, { h with
    reachable := ⟨seriesKey, began, hrun.tail (.refuse h.waiting)⟩
    waiting := rfl
    snapshot := h.snapshot
    jobs := h.jobs }⟩

/-- A report of the race, or one that the join has made up. -/
def Told (g : Setting) (report : TaskReport) : Prop :=
  (∃ race, Reachable g race ∧ race.Reports report) ∨
    report.result = .error .timeout ∨ report.result = .error .poolClosed

/-- A submission is refused with a report, or its job comes after the first one. -/
def Submission.Placed (g : Setting) : Submission → Prop
  | .ok (_, number) => g.first ≤ number
  | .error report => Told g report

variable (deadline : Nat)

theorem told_of_fate {fate : Fate} (h : fate.isUnsubmitted = true) (task : ScrapeTask) :
    Told g (fate.report task) := by
  cases fate with
  | done | failed | late | dropped => cases h
  | crowdedOut now => exact Or.inr (Or.inl rfl)
  | refused now => exact Or.inr (Or.inr rfl)

theorem submit_follows (hindexed : g.catalog.Indexed) (hupheld : Upheld g Q)
    {l : EventLoop World Activity Finding}
    (h : ∃ race, Follows g Q (task :: rest) l.shared l.tasks race) :
    (∃ race, Follows g Q rest (submit g.number deadline l task).2.shared
        (submit g.number deadline l task).2.tasks race) ∧
      (submit g.number deadline l task).1.Placed g := by
  obtain ⟨tasks, ⟨race, hrace⟩, ⟨hfirst, htasks⟩ | ⟨htasks, fate, hfate, hfirst⟩⟩ :=
    submit_kept (follows_kept hindexed hupheld (task :: rest)) g.number deadline h task
  · rw [hfirst, htasks]
    exact ⟨hrace.submit, hrace.before⟩
  · rw [hfirst, htasks]
    exact ⟨hrace.refuse, told_of_fate hfate task⟩

theorem submitAll_follows (hindexed : g.catalog.Indexed) (hupheld : Upheld g Q)
    (plan : List ScrapeTask) {l : EventLoop World Activity Finding}
    (h : ∃ race, Follows g Q plan l.shared l.tasks race) :
    (∃ race, Follows g Q [] (submitAll g.number deadline l plan).2.shared
        (submitAll g.number deadline l plan).2.tasks race) ∧
      ∀ s ∈ (submitAll g.number deadline l plan).1, s.Placed g := by
  induction plan generalizing l with
  | nil => exact ⟨h, fun s hs => absurd hs List.not_mem_nil⟩
  | cons task rest ih =>
    obtain ⟨hfirst, hplaced⟩ := submit_follows deadline hindexed hupheld h
    obtain ⟨hrest, hothers⟩ := ih hfirst
    refine ⟨hrest, ?_⟩
    intro s hs
    rcases List.mem_cons.mp hs with rfl | hs
    · exact hplaced
    · exact hothers s hs

theorem collect_follows (hindexed : g.catalog.Indexed) (hupheld : Upheld g Q)
    {l : EventLoop World Activity Finding} (h : ∃ race, Follows g Q [] l.shared l.tasks race)
    (task : ScrapeTask) {number : Nat} (hplaced : g.first ≤ number) :
    (∃ race, Follows g Q [] (collect deadline l task number).2.shared
        (collect deadline l task number).2.tasks race) ∧
      Told g (collect deadline l task number).1 := by
  obtain ⟨⟨race, hrace⟩, hreport | ⟨now, hlate | hdropped⟩⟩ :=
    collect_kept deadline (follows_kept hindexed hupheld []) h task number
  · exact ⟨⟨race, hrace⟩, Or.inl ⟨race, hrace.reachable, hrace.reports hplaced hreport⟩⟩
  · exact ⟨⟨race, hrace⟩, Or.inr (Or.inl (by rw [hlate]; rfl))⟩
  · exact ⟨⟨race, hrace⟩, Or.inr (Or.inr (by rw [hdropped]; rfl))⟩

theorem collectAll_follows (hindexed : g.catalog.Indexed) (hupheld : Upheld g Q)
    (jobs : List (ScrapeTask × Nat)) (hplaced : ∀ x ∈ jobs, g.first ≤ x.2)
    {l : EventLoop World Activity Finding} (h : ∃ race, Follows g Q [] l.shared l.tasks race) :
    ∀ report ∈ (collectAll deadline l jobs).1, Told g report := by
  induction jobs generalizing l with
  | nil => exact fun report hreport => absurd hreport List.not_mem_nil
  | cons x rest ih =>
    obtain ⟨hfirst, htold⟩ :=
      collect_follows deadline hindexed hupheld h x.1 (hplaced x (by simp))
    intro report hreport
    rcases List.mem_cons.mp hreport with rfl | hrest
    · exact htold
    · exact ih (fun y hy => hplaced y (List.mem_cons_of_mem x hy)) hfirst report hrest

def setting (e : Exporter) (rule : ScrapeJob → World → Prop) : Setting where
  catalog := e.catalog
  number := e.world.snapshots.length
  first := e.loop.tasks.length
  rule

/-- The first moment of a scrape. -/
theorem opened_follows (e : Exporter) (horderly : e.IsOrderly)
    {rule : ScrapeJob → World → Prop} (hworld : Q e.opened.world) :
    Follows (e.setting rule) Q e.catalog.plan e.opened.world e.opened.loop.tasks
      (Race.start (e.setting rule) e.world.seriesKey e.now) where
  reachable := ⟨e.world.seriesKey, e.now, .refl⟩
  waiting := rfl
  world := hworld
  catalog := rfl
  snapshot := List.getElem?_concat_length
  before := Nat.le_refl _
  others := fun i job _ hjob => Nat.ne_of_lt (horderly i job hjob)
  jobs := List.drop_length

/-- Every report of a scrape was given in some run of its race, or made up by the join. -/
theorem reports_told (e : Exporter) (hindexed : e.catalog.Indexed)
    (horderly : e.IsOrderly) {rule : ScrapeJob → World → Prop}
    (hupheld : Upheld (e.setting rule) Q) (hworld : Q e.opened.world) :
    ∀ report ∈ e.reports, Told (e.setting rule) report := by
  obtain ⟨hsubmitted, hplaced⟩ := submitAll_follows (e.now + e.timeout) hindexed hupheld
    e.catalog.plan ⟨_, opened_follows e horderly hworld⟩
  intro report hreport
  rcases List.mem_append.mp hreport with hrefused | hcollected
  · obtain ⟨s, hs, hsome⟩ := List.mem_filterMap.mp hrefused
    have hs := hplaced s hs
    cases s with
    | ok x => cases hsome
    | error own =>
      cases hsome
      exact hs
  · refine collectAll_follows (e.now + e.timeout) hindexed hupheld _ ?_ hsubmitted report hcollected
    intro x hx
    obtain ⟨s, hs, hsome⟩ := List.mem_filterMap.mp hx
    have hs := hplaced s hs
    cases s with
    | error own => cases hsome
    | ok own =>
      cases hsome
      exact hs

/-- The sources of an exporter change by requests only. -/
theorem behave_sources {R : Sources → Prop}
    (hsend : ∀ s protocol r, R s → R (Sources.send s protocol r).2) {w : World}
    (h : R w.supply.sources) (now me : Nat) (a : Activity) :
    R (Activity.behave now me a w).shared.supply.sources := by
  cases a with
  | task job => exact ScrapeJob.behave_sources hsend h now me job
  | token scope talk => exact Talk.turn_sources hsend h now me talk
  | fetch r talk =>
    change R (Activity.behaveFetch r now me talk w).shared.supply.sources
    rw [Activity.behaveFetch]
    split
    · exact Talk.turn_sources hsend h now me talk
    · exact h

/-! ### Scrapes one after another -/

/-- Every job under way is one of a scrape that has begun, and the scrape `number` has begun. -/
def Begun (number : Nat) (w : World) (tasks : List (Task Activity Finding)) : Prop :=
  number < w.snapshots.length ∧ Orderly w tasks

theorem length_snapshots (now me : Nat) (a : Activity) (w : World) :
    (Activity.behave now me a w).shared.snapshots.length = w.snapshots.length := by
  rcases (behave_touches now me a w).1 with hsame | ⟨job, after, -, hset⟩
  · rw [hsame]
  · rw [hset, List.length_set]

theorem orderly_kept : EventLoop.Kept Activity.behave Orderly where
  turn := by
    intro w tasks i a now hlive horderly j job hjob
    rw [length_snapshots]
    rcases Race.getElem?_set_cases hjob with old | ⟨-, new⟩
    · exact horderly j job old
    · obtain ⟨before, rfl, hsame⟩ := (behave_touches now i a w).2 job new.symm
      exact hsame ▸ horderly i before hlive
  lose := by
    intro w tasks i horderly j job hjob
    rcases Race.getElem?_set_cases hjob with old | ⟨-, new⟩
    · exact horderly j job old
    · cases new

theorem begun_kept (number : Nat) : EventLoop.Kept Activity.behave (Begun number) where
  turn := by
    rintro w tasks i a now hlive ⟨hbegun, horderly⟩
    refine ⟨?_, orderly_kept.turn now hlive horderly⟩
    rw [length_snapshots]
    exact hbegun
  lose := by
    rintro w tasks i ⟨hbegun, horderly⟩
    exact ⟨hbegun, orderly_kept.lose i horderly⟩

theorem Begun.submit {number : Nat} (h : Begun number w tasks) (task : ScrapeTask) :
    Begun number w (tasks ++ [.live (.task { snapshot := number, task })]) := by
  refine ⟨h.1, ?_⟩
  intro i job hjob
  rcases Catalog.getElem?_append_cases hjob with old | ⟨j, -, new⟩
  · exact h.2 i job old
  · obtain ⟨rfl, rfl⟩ : j = 0 ∧ job = { snapshot := number, task } := by
      cases j with
      | zero =>
        cases new
        exact ⟨rfl, rfl⟩
      | succ j => simp at new
    exact h.1

theorem start_isOrderly (setup : ExporterSetup) (catalog : Catalog) (files : FileAccess Id)
    (network : Network) : (start setup catalog files network).IsOrderly := by
  intro i job hjob
  simp [start, EventLoop.start] at hjob

theorem IsOrderly.scrape {e : Exporter} (h : e.IsOrderly) : e.scrape.2.IsOrderly := by
  have hopened : Begun e.world.snapshots.length e.opened.world e.opened.loop.tasks := by
    have hlength : e.opened.world.snapshots.length = e.world.snapshots.length + 1 :=
      List.length_append
    refine ⟨by omega, ?_⟩
    intro i job hjob
    have hbefore := h i job hjob
    omega
  have hsubmitted := submitAll_kept (begun_kept _) _ (e.now + e.timeout)
    (fun _ _ task hbegun => hbegun.submit task) e.catalog.plan hopened
  have hcollected := collectAll_kept (e.now + e.timeout) (begun_kept _)
    (e.submitted.1.filterMap Except.toOption) hsubmitted
  intro i job hjob
  obtain ⟨hshared, -⟩ := e.scrape_eq
  have hlength : e.scrape.2.world.snapshots.length =
      e.collected.2.shared.snapshots.length := by
    rw [world, hshared, cancel, List.length_modify]
  rw [hlength]
  exact hcollected.2 i job hjob

end Exporter
end MetricRelay
