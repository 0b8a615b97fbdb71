import MetricRelay.Proofs.Scrape.Document
import MetricRelay.Proofs.Scrape.Series

/-!
# One broken source

Where every location has one resource, a source reaches the tasks of its own
location only. Two scrapes that start from the same latest good values, and
whose sources differ at one location, give every other task the same result, in
whatever order the jobs take their turns. So the other tasks contribute the same
samples to both outputs, in the same order, and leave the same latest good
values.
-/

namespace MetricRelay

open Catalog (Service Resource Planned)
open MetricRelay.Composition (contribution)

/-- The world answers the request of a job as the upstream does, unless the request is for `url`. -/
def Upstream.AnswersApart (u : Upstream) (url : String) (job : ScrapeJob) (w : World) : Prop :=
  ∀ scene, job.scene? w = some scene → scene.resource.url ≠ url →
    (w.supply.sources.send scene.service.protocol
      { method := scene.resource.method, url := scene.resource.url }).1.answer =
        u.answer scene.service scene.resource

/-- The resource of the task is at another location. -/
def Catalog.isAway (c : Catalog) (url : String) (task : ScrapeTask) : Bool :=
  (c.resource? task.resource).all (·.url != url)

theorem Catalog.Planned.url_ne {c : Catalog} {url : String} {task : ScrapeTask} {s : Service}
    {r : Resource} (h : c.Planned task s r) (haway : c.isAway url task = true) : r.url ≠ url := by
  rw [isAway, h.resource] at haway
  simpa using haway

namespace Race

variable {c : Catalog} {number first : Nat} {u : Upstream} {url : String}

/-! ### One result for each task -/

def Setting.apartFrom (c : Catalog) (number first : Nat) (u : Upstream) (url : String) :
    Setting where
  catalog := c
  number
  first
  rule := u.AnswersApart url

/-- Without auth, a talk of a resource at another location ends with the answer of the upstream. -/
theorem honest_apart (hunlocked : c.Unlocked) :
    Honest (.apartFrom c number first u url)
      (fun s r talk => r.url ≠ url → FetchCall.Plain s.protocol (u.answer s r) talk)
      fun s r answer => r.url ≠ url → answer = u.answer s r where
  fresh s r _ := FetchCall.plain_fresh s.protocol (u.answer s r)
  turn := by
    intro job w scene now caller hanswers hcatalog hscene talk hplain
    have hcatalog : w.catalog = c := hcatalog
    rw [hcatalog]
    by_cases hurl : scene.resource.url = url
    · exact Talk.Pause.ends_of_forall (fun _ hne => absurd hurl hne)
        (fun _ hne => absurd hurl hne) _
    · exact (FetchCall.plain_turn (auth_ofResource hunlocked ..) (hanswers scene hscene hurl)
        (hplain hurl)).imp (fun _ h _ => h) fun _ h _ => h

/-- Where every location has one resource, what a task finds there was loaded for itself. -/
theorem Loaded.own {ν : Type} (hdistinct : (c.resources.map (·.url)).Nodup)
    {sort : ScrapeTask → Prop} {A : Service → Resource → Answer → Prop} {shelf : Snapshot.Shelf ν}
    {task : ScrapeTask} {s : Service} {r : Resource} {value : Except FetchError ν}
    (hp : c.Planned task s r) (h : Loaded c sort A shelf r.url value) :
    ∃ answer, A s r answer ∧ value = shelf.decodeAnswer s r answer := by
  obtain ⟨loader, s', r', answer, -, hp', hurl, hanswer, hvalue⟩ := h
  obtain rfl : r' = r := List.inj_on_of_nodup_map hdistinct
    (Catalog.mem_of_resource? hp'.resource) (Catalog.mem_of_resource? hp.resource) hurl
  obtain rfl : s' = s := Option.some.inj (hp'.owner.symm.trans hp.owner)
  exact ⟨answer, hanswer, hvalue⟩

/-- Two reports of one task have one result, if its resource is answered alike. -/
theorem Explained.result_eq (hdistinct : (c.resources.map (·.url)).Nodup)
    {A A' : Service → Resource → Answer → Prop} {report report' : TaskReport}
    (h : Explained c A report) (h' : Explained c A' report') (htask : report.task = report'.task)
    (halike : ∀ s r answer answer', c.Planned report.task s r → A s r answer → A' s r answer' →
      answer = answer') : report.result = report'.result := by
  obtain ⟨s, r, hp, hmade⟩ := h
  obtain ⟨s', r', hp', hmade'⟩ := h'
  obtain ⟨rfl, rfl⟩ := hp.unique (htask ▸ hp')
  rw [← htask] at hmade'
  cases hkind : report.task with
  | metric service resource id =>
    rw [hkind] at hmade hmade'
    obtain ⟨m, value, hm, hloaded, hresult⟩ := hmade
    obtain ⟨m', value', hm', hloaded', hresult'⟩ := hmade'
    obtain rfl := Option.some.inj (hm.symm.trans hm')
    obtain ⟨answer, hanswer, rfl⟩ := hloaded.own hdistinct hp
    obtain ⟨answer', hanswer', rfl⟩ := hloaded'.own hdistinct hp
    rw [hresult, hresult', halike s r answer answer' hp hanswer hanswer']
  | forward service resource =>
    rw [hkind] at hmade hmade'
    obtain ⟨value, hloaded, hresult⟩ := hmade
    obtain ⟨value', hloaded', hresult'⟩ := hmade'
    obtain ⟨answer, hanswer, rfl⟩ := hloaded.own hdistinct hp
    obtain ⟨answer', hanswer', rfl⟩ := hloaded'.own hdistinct hp
    rw [hresult, hresult', halike s r answer answer' hp hanswer hanswer']

theorem Explained.fits {A : Service → Resource → Answer → Prop} {report : TaskReport}
    (h : Explained c A report) : report.Fits := by
  obtain ⟨s, r, -, hmade⟩ := h
  cases htask : report.task with
  | metric service resource id =>
    rw [htask] at hmade
    obtain ⟨m, value, -, -, hresult⟩ := hmade
    exact ScrapeJob.fits_metric htask hresult
  | forward service resource =>
    rw [htask] at hmade
    obtain ⟨value, -, hresult⟩ := hmade
    exact ScrapeJob.fits_forward htask hresult

/-- The reports of a scrape all of whose tasks end in time: one for each planned task, in the order
of the plan, and each one given by a job, whatever the order in which the jobs took their turns. -/
structure Punctual (g : Setting) (reports : List TaskReport) : Prop where
  tasks : reports.map (·.task) = g.catalog.plan
  given : ∀ report ∈ reports, ∃ race, Reachable g race ∧ race.Reports report

variable {reports reports' : List TaskReport}

theorem Punctual.explained (hindexed : c.Indexed) (hunlocked : c.Unlocked)
    (h : Punctual (.apartFrom c number first u url) reports) :
    ∀ report ∈ reports, Explained c (fun s r answer => r.url ≠ url → answer = u.answer s r)
      report := by
  intro report hreport
  obtain ⟨race, hrace, hgiven⟩ := h.given report hreport
  exact (hrace.sound hindexed (honest_apart hunlocked)).reports report hgiven

end Race

/-! ### What the results add up to -/

def Fates.ofReports (reports : List TaskReport) : Fates := reports.map fun r => (r.task, r.fate)

theorem TaskReport.report_fate (r : TaskReport) : r.fate.report r.task = r := by
  obtain ⟨task, finished, result⟩ := r
  cases result <;> rfl

theorem TaskReport.fate_submitted (r : TaskReport) : r.fate.isUnsubmitted = false := by
  obtain ⟨task, finished, result⟩ := r
  cases result <;> rfl

theorem Fates.ordered_ofReports (reports : List TaskReport) :
    (ofReports reports).ordered = ofReports reports := by
  refine ordered_eq_self fun x hx => ?_
  obtain ⟨r, -, rfl⟩ := List.mem_map.mp hx
  exact r.fate_submitted

theorem Fates.reports_ofReports (reports : List TaskReport) :
    (ofReports reports).reports = reports := by
  rw [Fates.reports, ordered_ofReports, ofReports, List.map_map]
  exact (List.map_congr_left fun r _ => r.report_fate).trans (List.map_id _)

theorem settled_ofReports {catalog : Catalog} {reports : List TaskReport}
    (htasks : reports.map (·.task) = catalog.plan) (hfits : ∀ r ∈ reports, r.Fits) :
    Settled catalog (Fates.ofReports reports) where
  tasks := by
    rw [Fates.ofReports, List.map_map]
    exact htasks
  fits := by
    intro x hx
    obtain ⟨r, hr, rfl⟩ := List.mem_map.mp hx
    exact r.report_fate.symm ▸ hfits r hr

namespace Composition

/-- What the tasks contribute to the family of this name, each sample with its task. -/
def marked (catalog : Catalog) (before : LastGood) (name : String) (reports : List TaskReport) :
    List (ScrapeTask × Sample) :=
  reports.flatMap fun r =>
    (Family.samplesNamed name (contribution catalog before (r.task, r.fate))).map (r.task, ·)

variable {catalog : Catalog} {before : LastGood} {reports reports' : List TaskReport}

theorem map_marked (name : String) (reports : List TaskReport) :
    (marked catalog before name reports).map (·.2) =
      Family.samplesNamed name
        ((Fates.ofReports reports).flatMap (contribution catalog before)) := by
  simp [marked, Fates.ofReports, Family.samplesNamed, List.map_flatMap, List.flatMap_map,
    List.filter_flatMap, List.flatMap_assoc]

/-- When a task has ended does not matter for what it contributes. -/
theorem contribution_congr_result {r r' : TaskReport} (htask : r.task = r'.task)
    (hresult : r.result = r'.result) :
    contribution catalog before (r.task, r.fate) =
      contribution catalog before (r'.task, r'.fate) := by
  obtain ⟨task, finished, result⟩ := r
  obtain ⟨task', finished', result'⟩ := r'
  obtain rfl : task = task' := htask
  obtain rfl : result = result' := hresult
  cases result with
  | error e => cases task <;> rfl
  | ok value => cases task <;> cases value <;> rfl

theorem shaped?_congr_result {r r' : TaskReport} (hresult : r.result = r'.result) :
    r.fate.shaped? = r'.fate.shaped? := by
  rw [TaskReport.fate, TaskReport.fate, hresult]
  cases r'.result with
  | error e => rfl
  | ok value => cases value <;> rfl

theorem filter_marked_cons (select : ScrapeTask → Bool) (name : String) (r : TaskReport)
    (reports : List TaskReport) :
    (marked catalog before name (r :: reports)).filter (select ·.1) =
      (if select r.task then (Family.samplesNamed name
        (contribution catalog before (r.task, r.fate))).map (r.task, ·) else []) ++
        (marked catalog before name reports).filter (select ·.1) := by
  rw [marked, List.flatMap_cons, List.filter_append, ← marked, List.filter_map]
  congr 1
  cases hselect : select r.task <;> simp [Function.comp_def, hselect]

/-- Tasks with the same results contribute the same, in the same order. -/
theorem filter_marked_congr {select : ScrapeTask → Bool}
    (htasks : reports.map (·.task) = reports'.map (·.task))
    (hresults : ∀ r ∈ reports, ∀ r' ∈ reports', r.task = r'.task → select r.task = true →
      r.result = r'.result) (name : String) :
    (marked catalog before name reports).filter (select ·.1) =
      (marked catalog before name reports').filter (select ·.1) := by
  induction reports generalizing reports' with
  | nil =>
    obtain rfl := List.map_eq_nil_iff.mp htasks.symm
    rfl
  | cons r rest ih =>
    obtain ⟨r', rest', rfl, htask, hrest⟩ := List.map_eq_cons_iff.mp htasks.symm
    have hothers := ih hrest.symm fun s hs s' hs' =>
      hresults s (List.mem_cons_of_mem _ hs) s' (List.mem_cons_of_mem _ hs')
    rw [filter_marked_cons, filter_marked_cons, hothers, htask]
    congr 1
    split
    · next hselect =>
      have hresult := hresults r List.mem_cons_self r' List.mem_cons_self htask.symm hselect
      rw [contribution_congr_result htask.symm hresult, htask]
    · rfl

/-- What two scrapes that start from the same latest good values have in common when only the
source at `url` may tell them apart. -/
structure Isolated (catalog : Catalog) (url : String) (before : LastGood)
    (reports reports' : List TaskReport) : Prop where
  /-- The samples of both outputs are those that the tasks contribute. -/
  output : ∀ name, Family.samplesNamed name (ofReports catalog before reports).output.families =
    (marked catalog before name reports).map (·.2)
  output' : ∀ name, Family.samplesNamed name (ofReports catalog before reports').output.families =
    (marked catalog before name reports').map (·.2)
  /-- The tasks of other locations contribute the same samples, in the same order. -/
  marked : ∀ name, (marked catalog before name reports).filter (catalog.isAway url ·.1) =
    (marked catalog before name reports').filter (catalog.isAway url ·.1)
  lastGood : ∀ id,
    (∀ task ∈ catalog.plan, task.metric? = some id → catalog.isAway url task = true) →
    (ofReports catalog before reports).lastGood.get? id =
      (ofReports catalog before reports').lastGood.get? id

section

variable (hindexed : catalog.Indexed) (hplan : (catalog.plan.filterMap ScrapeTask.metric?).Nodup)
variable (hsettled : Settled catalog (Fates.ofReports reports))
include hindexed hplan hsettled

theorem accounts_ofReports (before : LastGood) :
    Accounts catalog before (ofReports catalog before reports).lastGood (Fates.ofReports reports)
      (ofReports catalog before reports).output
      (ofReports catalog before reports).failures.length := by
  have haccounts := ofReports_accounts hindexed hplan hsettled before
  rwa [Fates.reports_ofReports] at haccounts

theorem samplesNamed_ofReports (before : LastGood) (name : String) :
    Family.samplesNamed name (ofReports catalog before reports).output.families =
      (marked catalog before name reports).map (·.2) := by
  rw [(accounts_ofReports hindexed hplan hsettled before).output, Output.samplesNamed_extend,
    Fates.ordered_ofReports, map_marked]

theorem get?_ofReports {r : TaskReport} (hr : r ∈ reports) {id : MetricId}
    (hfed : r.task.metric? = some id) (before : LastGood) :
    (ofReports catalog before reports).lastGood.get? id =
      r.fate.shaped?.or (before.get? id) := by
  have hmem : (r.task, r.fate) ∈ Fates.ofReports reports := List.mem_map.mpr ⟨r, hr, rfl⟩
  cases htask : r.task with
  | forward service resource =>
    rw [htask] at hfed
    cases hfed
  | metric service resource own =>
    rw [htask] at hfed hmem
    cases hfed
    exact (accounts_ofReports hindexed hplan hsettled before).recorded _ _ _ _ hmem

theorem get?_ofReports_of_not_fed {id : MetricId}
    (hnot : ∀ task ∈ catalog.plan, task.metric? ≠ some id) (before : LastGood) :
    (ofReports catalog before reports).lastGood.get? id = before.get? id := by
  refine (accounts_ofReports hindexed hplan hsettled before).others id ?_
  intro service resource fate hmem
  refine hnot (.metric service resource id) ?_ rfl
  rw [← hsettled.tasks]
  exact List.mem_map.mpr ⟨_, hmem, rfl⟩

end

/-- Reports of the planned tasks that agree about the tasks of other locations. -/
theorem isolated_of_results {url : String} (hindexed : catalog.Indexed)
    (hplan : (catalog.plan.filterMap ScrapeTask.metric?).Nodup)
    (hsettled : Settled catalog (Fates.ofReports reports))
    (hsettled' : Settled catalog (Fates.ofReports reports'))
    (hresults : ∀ r ∈ reports, ∀ r' ∈ reports', r.task = r'.task →
      catalog.isAway url r.task = true → r.result = r'.result) (before : LastGood) :
    Isolated catalog url before reports reports' := by
  have htasks : reports.map (·.task) = catalog.plan := by
    rw [← hsettled.tasks, Fates.ofReports, List.map_map]
    rfl
  have htasks' : reports'.map (·.task) = catalog.plan := by
    rw [← hsettled'.tasks, Fates.ofReports, List.map_map]
    rfl
  refine ⟨samplesNamed_ofReports hindexed hplan hsettled before,
    samplesNamed_ofReports hindexed hplan hsettled' before,
    filter_marked_congr (htasks.trans htasks'.symm) hresults, ?_⟩
  intro id haway
  by_cases hfed : ∃ task ∈ catalog.plan, task.metric? = some id
  · -- The task that feeds the metric has the same result in both scrapes.
    obtain ⟨task, htask, hmetric⟩ := hfed
    obtain ⟨r, hr, rfl⟩ := List.mem_map.mp (htasks ▸ htask)
    obtain ⟨r', hr', hsame⟩ := List.mem_map.mp (htasks' ▸ htask)
    have hresult := hresults r hr r' hr' hsame.symm (haway _ htask hmetric)
    rw [get?_ofReports hindexed hplan hsettled hr hmetric before,
      get?_ofReports hindexed hplan hsettled' hr' (hsame ▸ hmetric) before,
      shaped?_congr_result hresult]
  · have hnot : ∀ task ∈ catalog.plan, task.metric? ≠ some id :=
      fun task htask hmetric => hfed ⟨task, htask, hmetric⟩
    rw [get?_ofReports_of_not_fed hindexed hplan hsettled hnot before,
      get?_ofReports_of_not_fed hindexed hplan hsettled' hnot before]

end Composition

/-! ### Two scrapes -/

namespace Race

variable {number number' first first' : Nat} {u : Upstream} {url : String}
variable {reports reports' : List TaskReport}

theorem Punctual.settled {catalog : Catalog} (hindexed : catalog.Indexed)
    (hunlocked : catalog.Unlocked)
    (h : Punctual (.apartFrom catalog number first u url) reports) :
    Settled catalog (Fates.ofReports reports) :=
  settled_ofReports h.tasks fun report hreport =>
    (h.explained hindexed hunlocked report hreport).fits

/-- Two punctual scrapes whose sources differ at one location. -/
theorem Punctual.isolated {catalog : Catalog} (hindexed : catalog.Indexed)
    (hunlocked : catalog.Unlocked) (hplan : (catalog.plan.filterMap ScrapeTask.metric?).Nodup)
    (hdistinct : (catalog.resources.map (·.url)).Nodup)
    (h : Punctual (.apartFrom catalog number first u url) reports)
    (h' : Punctual (.apartFrom catalog number' first' u url) reports') (before : LastGood) :
    Composition.Isolated catalog url before reports reports' := by
  refine Composition.isolated_of_results hindexed hplan (h.settled hindexed hunlocked)
    (h'.settled hindexed hunlocked) ?_ before
  intro r hr r' hr' htask haway
  refine (h.explained hindexed hunlocked r hr).result_eq hdistinct
    (h'.explained hindexed hunlocked r' hr') htask ?_
  intro s resource answer answer' hp hanswer hanswer'
  have hurl := hp.url_ne haway
  exact (hanswer hurl).trans (hanswer' hurl).symm

end Race

/-! ### Sources that never change -/

/-- No location but `url` has a second response in line. -/
def Network.SteadyApart (url : String) (n : Network) : Prop :=
  ∀ other, other ≠ url → (n.queue other).length ≤ 1

theorem Network.queue_request_of_ne {n : Network} {r : Request} {url : String} (h : url ≠ r.url) :
    (n.request r).2.queue url = n.queue url := by
  rw [request]
  dsimp only
  split
  · rfl
  · rfl
  · simp only [queue, setQueue, Keyed.find?_replace_of_ne h]

/-- Sources that differ in their logs, and in what they have at `url`. -/
structure Sources.AlikeApart (url : String) (s s' : Sources) : Prop where
  queue : ∀ other, other ≠ url → s'.network.queue other = s.network.queue other
  file : ∀ other, other ≠ url →
    Disk.fetch s'.files s'.fileLimit other = Disk.fetch s.files s.fileLimit other

theorem Sources.AlikeApart.send {url : String} {s s' : Sources}
    (hsteady : s.network.SteadyApart url) (h : s.AlikeApart url s') (protocol : Protocol)
    (r : Request) : s.AlikeApart url (s'.send protocol r).2 := by
  have hqueue : ∀ other, other ≠ url →
      (s'.network.request r).2.queue other = s.network.queue other := by
    intro other hother
    by_cases hsame : other = r.url
    · subst hsame
      have hshort : (s'.network.queue r.url).length ≤ 1 :=
        h.queue r.url hother ▸ hsteady r.url hother
      exact (Network.queue_congr (Network.request_queues hshort) _).trans (h.queue _ hother)
    · exact (Network.queue_request_of_ne hsame).trans (h.queue other hother)
  cases protocol with
  | file => exact h
  | http => exact ⟨hqueue, h.file⟩
  | https => exact ⟨hqueue, h.file⟩

theorem Sources.AlikeApart.answers {url : String} {s : Sources} {w : World}
    (h : s.AlikeApart url w.supply.sources) (job : ScrapeJob) :
    (Upstream.ofSources s).AnswersApart url job w := by
  intro scene _ hurl
  rw [Upstream.answer]
  cases hprotocol : scene.service.protocol with
  | file => exact h.file _ hurl
  | http => exact congrArg Reply.answer (Network.request_congr (h.queue _ hurl))
  | https => exact congrArg Reply.answer (Network.request_congr (h.queue _ hurl))

/-- The join has made the report up, since there was none in time. -/
def TaskReport.isMadeUp (r : TaskReport) : Bool :=
  match r.result with
  | .error .timeout | .error .poolClosed => true
  | _ => false

theorem Fate.submitted_of_report {fate : Fate} (task : ScrapeTask)
    (h : (fate.report task).isMadeUp = false) : fate.isUnsubmitted = false := by
  cases fate with
  | crowdedOut now => cases h
  | refused now => cases h
  | done | failed | late | dropped => rfl

namespace Exporter

variable {e e' : Exporter} {url : String}

def IsPunctual (e : Exporter) : Prop := ∀ r ∈ e.reports, r.isMadeUp = false

instance (e : Exporter) : Decidable e.IsPunctual :=
  inferInstanceAs (Decidable (∀ r ∈ e.reports, _))

theorem IsPunctual.tasks (h : e.IsPunctual) : e.reports.map (·.task) = e.catalog.plan := by
  obtain ⟨fates, hsettled, hreports, -⟩ := e.reports_settle
  have hordered : fates.ordered = fates := by
    refine Fates.ordered_eq_self fun x hx => Fate.submitted_of_report x.1 (h _ ?_)
    rw [hreports]
    exact List.mem_map.mpr ⟨x, fates.ordered_perm.mem_iff.mpr hx, rfl⟩
  rw [hreports, Fates.reports, hordered, List.map_map, ← hsettled.tasks]
  exact List.map_congr_left fun x _ => Fate.report_task x.1 x.2

/-- The reports of a scrape in time are punctual reports of its race. -/
theorem IsPunctual.punctual (h : e.IsPunctual) (hindexed : e.catalog.Indexed)
    (horderly : e.IsOrderly) {s : Sources} (hsteady : s.network.SteadyApart url)
    (halike : s.AlikeApart url e.world.supply.sources) :
    Race.Punctual (.apartFrom e.catalog e.world.snapshots.length e.loop.tasks.length
      (.ofSources s) url) e.reports where
  tasks := h.tasks
  given := by
    have hupheld : Upheld (e.setting ((Upstream.ofSources s).AnswersApart url))
        fun w => s.AlikeApart url w.supply.sources :=
      ⟨fun now me a _ hw => behave_sources (fun _ protocol r hs => hs.send hsteady protocol r) hw
        now me a, fun job _ hw => hw.answers job⟩
    intro report hreport
    rcases e.reports_told hindexed horderly hupheld halike report hreport with
      hgiven | hlate | hclosed
    · exact hgiven
    · have hnot := h report hreport
      rw [TaskReport.isMadeUp, hlate] at hnot
      cases hnot
    · have hnot := h report hreport
      rw [TaskReport.isMadeUp, hclosed] at hnot
      cases hnot

end Exporter

/-! ### A valid configuration -/

variable {check : Url.Check} {c : Config} {url : String}

/-- Of a valid configuration without auth whose resources all have locations of their own, two
scrapes from the same latest good values, with sources that may differ in what they answer at one
location, agree about everything that does not come from there. -/
theorem Race.isolated_apart {number number' first first' : Nat} {u : Upstream}
    {reports reports' : List TaskReport} (hvalid : c.problems check = []) (hopen : c.WithoutAuth)
    (hdistinct : (c.catalog.resources.map (·.url)).Nodup)
    (h : Punctual (.apartFrom c.catalog number first u url) reports)
    (h' : Punctual (.apartFrom c.catalog number' first' u url) reports') (before : LastGood) :
    Composition.Isolated c.catalog url before reports reports' :=
  h.isolated (Catalog.build_indexed c.definitions) hopen.unlocked (Config.nodup_plan hvalid)
    hdistinct h' before

namespace Exporter

def gaugeAndForwarder : Config where
  settings := ⟨.default, .default, .default⟩
  definitions := [{
    service := ⟨"app", .http, "127.0.0.1", 8080, "", none⟩
    metrics := [⟨"load", .gauge, "", ⟨"jsonpath", "/value"⟩, [], none, none⟩]
    resources := [
      ⟨"node", "/metrics", "GET", .forwarder, .prometheus, [], none⟩,
      ⟨"stats", "/stats", "GET", .api, .json, ["load"], none⟩] }]

def withForwarder (responses : List TimedResponse) : Exporter :=
  let stats := Text.Utf8.ascii "\x7b\"value\": 1\x7d".toList
  .start {} gaugeAndForwarder.catalog (FileTree.access {} "/") {
    queues := [
      ("http://127.0.0.1:8080/metrics", responses),
      ("http://127.0.0.1:8080/stats", [⟨.body stats, 0⟩])] }

theorem queue_withForwarder {other : String} (h : other ≠ "http://127.0.0.1:8080/metrics")
    (responses : List TimedResponse) :
    (withForwarder responses).world.supply.sources.network.queue other =
      (withForwarder []).world.supply.sources.network.queue other := by
  simp [withForwarder, start, world, EventLoop.start, Network.queue, List.find?_cons, Ne.symm h]

theorem withForwarder_steady (responses : List TimedResponse) :
    (withForwarder responses).world.supply.sources.network.SteadyApart
      "http://127.0.0.1:8080/metrics" := by
  intro other hother
  rw [queue_withForwarder hother]
  simp only [withForwarder, start, world, EventLoop.start, Network.queue, List.find?_cons]
  split
  · exact Nat.zero_le _
  · split <;> simp

def lateForwarder : Exporter := withForwarder [⟨.body (Text.Utf8.ascii "load 7\n".toList), 20⟩]

def brokenForwarder : Exporter := withForwarder []

/-- With and without the sample of the forwarder, the gauge shows the same. -/
theorem isolated_apart_forwarder :
    gaugeAndForwarder.problems Url.hosted = [] ∧ gaugeAndForwarder.WithoutAuth ∧
      (gaugeAndForwarder.catalog.resources.map (·.url)).Nodup ∧
      lateForwarder.IsPunctual ∧ brokenForwarder.IsPunctual ∧
      (Family.samplesNamed "load" lateForwarder.composition.output.families).length = 2 ∧
      (Family.samplesNamed "load" brokenForwarder.composition.output.families).length = 1 ∧
      Composition.Isolated gaugeAndForwarder.catalog "http://127.0.0.1:8080/metrics" {}
        lateForwarder.reports brokenForwarder.reports := by
  have hvalid : gaugeAndForwarder.problems Url.hosted = [] := by decide +kernel
  have hopen : gaugeAndForwarder.WithoutAuth := by
    simp [Config.WithoutAuth, gaugeAndForwarder]
  have hdistinct : (gaugeAndForwarder.catalog.resources.map (·.url)).Nodup := by decide +kernel
  have hlate : lateForwarder.IsPunctual := by decide +kernel
  have hbroken : brokenForwarder.IsPunctual := by decide +kernel
  have hindexed := Catalog.build_indexed gaugeAndForwarder.definitions
  refine ⟨hvalid, hopen, hdistinct, hlate, hbroken, by decide +kernel, by decide +kernel, ?_⟩
  exact Race.isolated_apart hvalid hopen hdistinct
    (hlate.punctual hindexed (start_isOrderly _ _ _ _) (withForwarder_steady _)
      ⟨fun _ _ => rfl, fun _ _ => rfl⟩)
    (hbroken.punctual hindexed (start_isOrderly _ _ _ _) (withForwarder_steady _)
      ⟨fun _ h => (queue_withForwarder h _).symm, fun _ _ => rfl⟩) {}

/-- In particular two exporters whose sources differ at one location scrape the same from
everywhere else, however many workers they have and whatever else they do. -/
theorem scrapes_isolated {e e' : Exporter} (hvalid : c.problems check = []) (hopen : c.WithoutAuth)
    (hdistinct : (c.catalog.resources.map (·.url)).Nodup) (hcatalog : e.catalog = c.catalog)
    (hcatalog' : e'.catalog = c.catalog) (hlast : e'.lastGood = e.lastGood)
    (horderly : e.IsOrderly) (horderly' : e'.IsOrderly) (hpunctual : e.IsPunctual)
    (hpunctual' : e'.IsPunctual) (hsteady : e.world.supply.sources.network.SteadyApart url)
    (halike : e.world.supply.sources.AlikeApart url e'.world.supply.sources) :
    Composition.Isolated c.catalog url e.lastGood e.reports e'.reports ∧
      ∀ id, (∀ task ∈ c.catalog.plan, task.metric? = some id →
          c.catalog.isAway url task = true) →
        e.scrape.2.lastGood.get? id = e'.scrape.2.lastGood.get? id := by
  have hindexed := Catalog.build_indexed c.definitions
  have hreports := hpunctual.punctual (hcatalog ▸ hindexed) horderly hsteady
    ⟨fun _ _ => rfl, fun _ _ => rfl⟩
  have hreports' := hpunctual'.punctual (hcatalog' ▸ hindexed) horderly' hsteady halike
  rw [hcatalog] at hreports
  rw [hcatalog'] at hreports'
  have hisolated := hreports.isolated hindexed hopen.unlocked (Config.nodup_plan hvalid) hdistinct
    hreports' e.lastGood
  refine ⟨hisolated, ?_⟩
  intro id haway
  obtain ⟨-, hlastGood, -⟩ := e.scrape_eq
  obtain ⟨-, hlastGood', -⟩ := e'.scrape_eq
  rw [hlastGood, hlastGood', hlast, hcatalog, hcatalog']
  exact hisolated.lastGood id haway

end Exporter
end MetricRelay
