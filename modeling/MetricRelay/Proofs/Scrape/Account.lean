import Mathlib.Logic.Function.Iterate
import MetricRelay.Proofs.Scrape.Join

/-!
# What a scrape accounts for

For a configuration without problems, every scrape of every exporter counts the
tasks that did not succeed, adds one companion sample for each planned metric,
and records the fresh values; over scrapes one after another a failing metric
shows the value of its latest successful scrape.
-/

namespace MetricRelay

open MetricRelay.Composition (shown contribution remember Known fedMetrics)

/-- What the output, the count of failures and the latest good values of a scrape owe to the fates
of its tasks. -/
structure Accounts (catalog : Catalog) (before after : LastGood) (fates : Fates)
    (output : Output) (failures : Nat) : Prop where
  failures : failures = fates.countP (!·.2.isDone)
  output : output = Output.extend {} (fates.ordered.flatMap (contribution catalog before))
  metric : ∀ service resource id fate, (.metric service resource id, fate) ∈ fates →
    ∃ m s up, catalog.metric? id = some m ∧ catalog.service? service = some s ∧
      fate.isDone = fate.shaped?.isSome ∧
      contribution catalog before (.metric service resource id, fate) =
        ((shown before id fate).map (Render.valueFamily m s.identity)).toList ++ [up] ∧
      up.name = m.name ++ "_up" ∧
      up.samples = [⟨m.name ++ "_up", [⟨"job", s.name⟩, ⟨"instance", s.hostPort⟩],
        if fate.isDone then 1.0 else 0.0, none⟩]
  recorded : ∀ service resource id fate, (.metric service resource id, fate) ∈ fates →
    after.get? id = fate.shaped?.or (before.get? id)
  others : ∀ id, (∀ service resource fate, (.metric service resource id, fate) ∉ fates) →
    after.get? id = before.get? id

/-- The fates of a scrape: one for each planned task, in order. -/
structure Settled (catalog : Catalog) (fates : Fates) : Prop where
  tasks : fates.map (·.1) = catalog.plan
  fits : ∀ x ∈ fates, (x.2.report x.1).Fits

theorem Settled.known {catalog : Catalog} {fates : Fates} (h : Settled catalog fates)
    (hindexed : catalog.Indexed) : ∀ x ∈ fates, Known catalog x.1 := by
  rintro ⟨task, fate⟩ hx
  have htask : task ∈ catalog.plan := by
    rw [← h.tasks]
    exact List.mem_map.mpr ⟨_, hx, rfl⟩
  obtain ⟨s, r, hp⟩ := hindexed.planned htask
  cases task with
  | forward service resource => trivial
  | metric service resource id => exact ⟨hindexed.planned_metric hp, s, hp.service⟩

theorem Settled.nodup {catalog : Catalog} {fates : Fates} (h : Settled catalog fates)
    (hplan : (catalog.plan.filterMap ScrapeTask.metric?).Nodup) : (fedMetrics fates).Nodup := by
  have heq : fedMetrics fates = catalog.plan.filterMap ScrapeTask.metric? := by
    rw [← h.tasks, List.filterMap_map]
    rfl
  rw [heq]
  exact hplan

/-- Whatever the fates are, putting their reports together accounts for them. -/
theorem ofReports_accounts {catalog : Catalog} (hindexed : catalog.Indexed)
    (hplan : (catalog.plan.filterMap ScrapeTask.metric?).Nodup) {fates : Fates}
    (h : Settled catalog fates) (before : LastGood) :
    Accounts catalog before (Composition.ofReports catalog before fates.reports).lastGood fates
      (Composition.ofReports catalog before fates.reports).output
      (Composition.ofReports catalog before fates.reports).failures.length := by
  have hperm := fates.ordered_perm
  have hnodup : (fedMetrics fates.ordered).Nodup :=
    (hperm.filterMap _).nodup_iff.mpr (h.nodup hplan)
  have hknown : ∀ x ∈ fates.ordered, Known catalog x.1 :=
    fun x hx => h.known hindexed x (hperm.mem_iff.mp hx)
  have hfits : ∀ x ∈ fates.ordered, (x.2.report x.1).Fits :=
    fun x hx => h.fits x (hperm.mem_iff.mp hx)
  obtain ⟨houtput, hfailures, hlast⟩ := Composition.foldl_add fates.ordered hknown hfits hnodup
    before { lastGood := before } fun _ _ => rfl
  refine ⟨?_, houtput, ?_, ?_, ?_⟩
  · rw [← hperm.countP_eq]
    exact hfailures.trans (Nat.zero_add _)
  · intro service resource id fate hmem
    obtain ⟨⟨m, hm⟩, s, hs⟩ := h.known hindexed _ hmem
    exact ⟨m, s, Render.upFamily m s.identity fate.isDone, hm, hs,
      Fate.isDone_eq_shaped? (h.fits _ hmem), Composition.contribution_metric hm hs _ _ _, rfl, rfl⟩
  · intro service resource id fate hmem
    have hget := Composition.get?_foldl_remember hnodup (hperm.mem_iff.mpr hmem) before
    rw [← hget]
    exact congrArg (·.get? id) hlast
  · intro id hother
    have habsent : id ∉ fedMetrics fates.ordered := by
      intro hid
      obtain ⟨⟨task, fate⟩, hx, htask⟩ := List.mem_filterMap.mp hid
      cases task with
      | forward service resource => cases htask
      | metric service resource own =>
        cases htask
        exact hother service resource fate (hperm.mem_iff.mp hx)
    rw [← Composition.get?_foldl_remember_of_not_mem habsent before]
    exact congrArg (·.get? id) hlast

namespace Exporter

/-- The exporter once a scrape has begun. -/
def opened (e : Exporter) : Exporter :=
  e.changeWorld fun w =>
    { w with snapshots := w.snapshots ++ [.fresh e.world.seriesKey e.now] }

/-- The first loop of a scrape. -/
def submitted (e : Exporter) : List Submission × EventLoop World Activity Finding :=
  submitAll e.world.snapshots.length (e.now + e.timeout) e.opened.loop e.opened.catalog.plan

/-- The second loop of a scrape. -/
def collected (e : Exporter) : List TaskReport × EventLoop World Activity Finding :=
  collectAll (e.now + e.timeout) e.submitted.2 (e.submitted.1.filterMap Except.toOption)

def reports (e : Exporter) : List TaskReport := refusals e.submitted.1 ++ e.collected.1

theorem scrape_eq (e : Exporter) :
    e.scrape.2.loop.shared = cancel e.world.snapshots.length e.collected.2.shared ∧
      e.scrape.2.lastGood = (Composition.ofReports e.catalog e.lastGood e.reports).lastGood ∧
      e.scrape.1.failures =
        (Composition.ofReports e.catalog e.lastGood e.reports).failures.length ∧
      (∃ metrics, e.scrape.1.body =
        (Composition.ofReports e.catalog e.lastGood e.reports).body e.catalog e.now metrics) ∧
      e.scrape.2.loop.tasks = e.collected.2.tasks := by
  have hcatalog : e.opened.catalog = e.catalog := rfl
  obtain ⟨submissions, l, hsubmitted⟩ : ∃ submissions l, e.submitted = (submissions, l) :=
    ⟨_, _, rfl⟩
  obtain ⟨reports, l', hcollected⟩ : ∃ reports l', e.collected = (reports, l') := ⟨_, _, rfl⟩
  rw [Exporter.reports, hcollected, hsubmitted]
  rw [collected, hsubmitted] at hcollected
  rw [submitted, opened] at hsubmitted
  rw [scrape]
  simp only [hsubmitted, hcollected]
  exact ⟨rfl, rfl, rfl, ⟨_, rfl⟩, rfl⟩

/-- A scrape joins its tasks in these fates: task after task is submitted, then job after job is
waited for, up to the deadline each time, and the scrape leaves the tasks as the last wait does. -/
inductive Joins (e : Exporter) (fates : Fates) : Prop
  | intro {xs : List (ScrapeTask × Standing)} {l l' : Loop}
    (henter : InTurn (Enters e.world.snapshots.length (e.now + e.timeout)) e.catalog.plan
      e.opened.loop xs l)
    (hleave : InTurn (Leaves (e.now + e.timeout)) xs l fates l')
    (htasks : e.scrape.2.loop.tasks = l'.tasks)
    (hworld : e.scrape.2.world = cancel e.world.snapshots.length l'.shared)

/-- No task runs out of time before the deadline. -/
theorem Joins.deadline_le {e : Exporter} {fates : Fates} (h : e.Joins fates)
    {x : ScrapeTask × Fate} (hx : x ∈ fates) {now : Nat} (hoverdue : x.2.overdue? = some now) :
    e.now + e.timeout ≤ now := by
  obtain ⟨henter, hleave, -, -⟩ := h
  obtain ⟨y, hy, before, after, hleaves⟩ := hleave.exists_of_mem hx
  cases hleaves with
  | done | failed | dropped => cases hoverdue
  | late h =>
    obtain rfl := Option.some.inj hoverdue
    cases h with
    | late hunder => exact hunder.deadline_le
  | @unsubmitted task l refusal time =>
    cases refusal with
    | closed => cases hoverdue
    | late =>
      obtain rfl := Option.some.inj hoverdue
      obtain ⟨planned, -, before, after, henters⟩ := henter.exists_of_mem hy
      cases henters with
      | refused h =>
        cases h with
        | late hopen hfull => exact hfull.deadline_le

/-- A scrape of an exporter that is shut down refuses every task at once. -/
theorem Joins.refused {e : Exporter} {fates : Fates} (h : e.Joins fates)
    (hclosed : e.loop.pool.closed = true) :
    fates = e.catalog.plan.map fun task => (task, .refused e.now) := by
  obtain @⟨xs, l, l', henter, hleave, -, -⟩ := h
  have hstandings : xs = e.catalog.plan.map fun task => (task, .refused .closed e.now) := by
    refine henter.eq_map (P := fun l => l.pool.closed = true ∧ l.now = e.now) ?_ ⟨hclosed, rfl⟩
    rintro task - l x l' ⟨hclosed, hnow⟩ henters
    cases henters with
    | refused h =>
      cases h with
      | closed => exact ⟨by rw [hnow], hclosed, hnow⟩
      | late hopen => cases hclosed.symm.trans hopen
    | job h =>
      cases h with
      | accepted hopen => cases hclosed.symm.trans hopen
  have hfates : fates = xs.map fun x => (x.1, .refused e.now) := by
    refine hleave.eq_map (P := fun _ => True) ?_ trivial
    intro x hx l y l' _ hleaves
    rw [hstandings] at hx
    obtain ⟨task, -, rfl⟩ := List.mem_map.mp hx
    cases hleaves with
    | unsubmitted => exact ⟨rfl, trivial⟩
  rw [hfates, hstandings, List.map_map]
  rfl

/-- The two loops report fates, one for each planned task. -/
theorem reports_settle (e : Exporter) : ∃ fates, Settled e.catalog fates ∧
    e.reports = fates.reports ∧ e.Joins fates ∧ e.collected.2.shared.catalog = e.catalog := by
  have hopened : Steady e.catalog [] e.opened.loop.shared e.opened.loop.tasks :=
    ⟨rfl, fun x hx => absurd hx List.not_mem_nil⟩
  have hsteady := submitAll_steady e.world.snapshots.length (e.now + e.timeout)
    e.opened.catalog.plan hopened
  obtain ⟨xs, henter, hsubmissions⟩ := submitAll_enters e.world.snapshots.length
    (e.now + e.timeout) e.opened.loop e.opened.catalog.plan
  change e.submitted.1 = xs.map Standing.submission at hsubmissions
  change Steady e.catalog (e.submitted.1.filterMap Except.toOption ++ []) e.submitted.2.shared
    e.submitted.2.tasks at hsteady
  obtain ⟨fates, hleave, hfits, hrefused, hcollected⟩ :=
    collectAll_leaves (e.now + e.timeout) xs hsteady
      (hsubmissions ▸ fun x hx => List.mem_append_left _ hx)
  have hjoined : e.collected = collectAll (e.now + e.timeout) e.submitted.2
      ((xs.map Standing.submission).filterMap Except.toOption) := by
    rw [collected, hsubmissions]
  rw [← hjoined] at hleave hcollected
  obtain ⟨hshared, -, -, -, htasks⟩ := e.scrape_eq
  have hplanned : xs.map Prod.fst = e.catalog.plan.map id :=
    InTurn.map_eq (fun _ _ _ _ h => h.task_eq) henter
  rw [List.map_id] at hplanned
  refine ⟨fates, ⟨(InTurn.map_eq (fun _ _ _ _ h => h.task_eq) hleave).trans hplanned, hfits⟩, ?_,
    .intro henter hleave htasks hshared, ?_⟩
  · rw [reports, Fates.reports, Fates.ordered, List.map_append, hsubmissions]
    exact (congrArg₂ (· ++ ·) hrefused hcollected).symm
  · exact (collectAll_kept (e.now + e.timeout) (steady_kept e.catalog _) _ hsteady).1

/-- A scrape puts together the reports of fates, one for each planned task. -/
theorem scrape_settles (e : Exporter) : ∃ fates, Settled e.catalog fates ∧ e.Joins fates ∧
    e.scrape.2.catalog = e.catalog ∧
    e.scrape.2.lastGood = (Composition.ofReports e.catalog e.lastGood fates.reports).lastGood ∧
    e.scrape.1.failures =
      (Composition.ofReports e.catalog e.lastGood fates.reports).failures.length ∧
    ∃ gauges, e.scrape.1.body = Exposition.text gauges ++ Exposition.text
      (Composition.ofReports e.catalog e.lastGood fates.reports).output.families := by
  obtain ⟨fates, hsettled, hreports, hjoins, hcatalog⟩ := e.reports_settle
  obtain ⟨hshared, hlast, hfailures, ⟨metrics, hbody⟩, -⟩ := e.scrape_eq
  rw [hreports] at hlast hfailures hbody
  refine ⟨fates, hsettled, hjoins, ?_, hlast, hfailures, _, hbody⟩
  exact (congrArg World.catalog hshared).trans hcatalog

end Exporter

/-! ### Scrapes one after another -/

/-- The latest good values before the scrape `n`. -/
def goods (catalog : Catalog) (before : LastGood) (fates : Nat → Fates) : Nat → LastGood
  | 0 => before
  | n + 1 =>
    (Composition.ofReports catalog (goods catalog before fates n) (fates n).reports).lastGood

def composed (catalog : Catalog) (before : LastGood) (fates : Nat → Fates) (n : Nat) :
    Composition :=
  Composition.ofReports catalog (goods catalog before fates n) (fates n).reports

/-- A metric that fails shows the value of its latest successful scrape, and without one the value
from the start. -/
def ShowsLatest (catalog : Catalog) (before : LastGood) (fates : Nat → Fates) (n : Nat) : Prop :=
  ∀ service resource id fate, (.metric service resource id, fate) ∈ fates n →
    fate.isDone = false →
      (∀ k earlier value, k < n → (.metric service resource id, earlier) ∈ fates k →
        earlier.shaped? = some value →
        (∀ j, k < j → j < n → ∀ other, (.metric service resource id, other) ∈ fates j →
          other.isDone = false) →
        shown (goods catalog before fates n) id fate = some value) ∧
      ((∀ j < n, ∀ other, (.metric service resource id, other) ∈ fates j →
          other.isDone = false) →
        shown (goods catalog before fates n) id fate = before.get? id)

variable {catalog : Catalog} {before : LastGood} {fates : Nat → Fates}

/-- A task that is settled once is settled in every scrape. -/
theorem Settled.transfer {now later : Fates} (h : Settled catalog now)
    (hlater : Settled catalog later) {task : ScrapeTask} {fate : Fate}
    (hmem : (task, fate) ∈ now) : ∃ other, (task, other) ∈ later := by
  have htask : task ∈ later.map (·.1) := by
    rw [hlater.tasks, ← h.tasks]
    exact List.mem_map.mpr ⟨_, hmem, rfl⟩
  obtain ⟨⟨own, other⟩, hother, rfl⟩ := List.mem_map.mp htask
  exact ⟨other, hother⟩

/-- Over scrapes in which a metric fails its latest good value stays. -/
theorem goods_of_failing (hindexed : catalog.Indexed)
    (hplan : (catalog.plan.filterMap ScrapeTask.metric?).Nodup)
    (hsettled : ∀ n, Settled catalog (fates n)) {service : ServiceId} {resource : ResourceId}
    {id : MetricId} {fate : Fate} {n : Nat} (hmem : (.metric service resource id, fate) ∈ fates n)
    (before : LastGood) (start count : Nat)
    (hfails : ∀ j, start ≤ j → j < start + count → ∀ other,
      (.metric service resource id, other) ∈ fates j → other.isDone = false) :
    (goods catalog before fates (start + count)).get? id =
      (goods catalog before fates start).get? id := by
  induction count with
  | zero => rfl
  | succ count ih =>
    have hearlier := ih fun j hj hlt => hfails j hj (by omega)
    obtain ⟨other, hother⟩ := (hsettled n).transfer (hsettled (start + count)) hmem
    have hdone := hfails (start + count) (by omega) (by omega) other hother
    have hnone : other.shaped? = none := by
      rw [Fate.isDone_eq_shaped? ((hsettled _).fits _ hother)] at hdone
      simpa using hdone
    have hrecorded := (ofReports_accounts hindexed hplan (hsettled (start + count))
      (goods catalog before fates (start + count))).recorded _ _ _ _ hother
    rw [hnone, Option.none_or] at hrecorded
    exact hrecorded.trans hearlier

theorem showsLatest (hindexed : catalog.Indexed)
    (hplan : (catalog.plan.filterMap ScrapeTask.metric?).Nodup)
    (hsettled : ∀ n, Settled catalog (fates n)) (n : Nat) :
    ShowsLatest catalog before fates n := by
  intro service resource id fate hmem hdone
  have hnone : fate.shaped? = none := by
    rw [Fate.isDone_eq_shaped? ((hsettled n).fits _ hmem)] at hdone
    simpa using hdone
  constructor
  · intro k earlier value hk hearlier hvalue hfails
    have hrecorded := (ofReports_accounts hindexed hplan (hsettled k)
      (goods catalog before fates k)).recorded _ _ _ _ hearlier
    have hkept := goods_of_failing hindexed hplan hsettled hmem before (k + 1) (n - (k + 1))
      fun j hj hlt => hfails j (by omega) (by omega)
    rw [show k + 1 + (n - (k + 1)) = n by omega] at hkept
    rw [shown, hnone, Option.none_or, hkept]
    rw [hvalue, Option.some_or] at hrecorded
    exact hrecorded
  · intro hfails
    have hkept := goods_of_failing hindexed hplan hsettled hmem before 0 n
      fun j _ hlt => hfails j (by omega)
    rw [Nat.zero_add] at hkept
    rw [shown, hnone, Option.none_or, hkept]
    rfl

/-- Exporters that stand for one exporter before each of its scrapes: between two scrapes anything
may happen that leaves the catalog and the latest good values as they are. -/
structure Successive (catalog : Catalog) (es : Nat → Exporter) : Prop where
  start : (es 0).catalog = catalog
  catalog : ∀ n, (es (n + 1)).catalog = (es n).scrape.2.catalog
  lastGood : ∀ n, (es (n + 1)).lastGood = (es n).scrape.2.lastGood

theorem Successive.catalog_eq {es : Nat → Exporter} (h : Successive catalog es) (n : Nat) :
    (es n).catalog = catalog := by
  induction n with
  | zero => exact h.start
  | succ n ih =>
    obtain ⟨-, -, -, hcatalog, -⟩ := (es n).scrape_settles
    exact (h.catalog n).trans (hcatalog.trans ih)

/-- Any exporter that scrapes again and again gives such a sequence. -/
theorem successive_iterate (e : Exporter) :
    Successive e.catalog fun n => (fun e : Exporter => e.scrape.2)^[n] e where
  start := rfl
  catalog n := by rw [Function.iterate_succ_apply']
  lastGood n := by rw [Function.iterate_succ_apply']

/-- What an exporter shows of its scrape `n`, when the fates of its tasks are these. -/
structure Displays (catalog : Catalog) (es : Nat → Exporter) (fates : Nat → Fates) (n : Nat) :
    Prop where
  lastGood : (es n).lastGood = goods catalog (es 0).lastGood fates n
  failures : (es n).scrape.1.failures =
    (composed catalog (es 0).lastGood fates n).failures.length
  body : ∃ gauges, (es n).scrape.1.body = Exposition.text gauges ++
    Exposition.text (composed catalog (es 0).lastGood fates n).output.families

theorem Successive.displays {es : Nat → Exporter} (h : Successive catalog es) :
    ∃ fates, ∀ n, Settled catalog (fates n) ∧ (es n).Joins (fates n) ∧
      Displays catalog es fates n := by
  have hall : ∀ n, ∃ own, Settled catalog own ∧ (es n).Joins own ∧
      (es n).scrape.2.lastGood =
        (Composition.ofReports catalog (es n).lastGood own.reports).lastGood ∧
      (es n).scrape.1.failures =
        (Composition.ofReports catalog (es n).lastGood own.reports).failures.length ∧
      ∃ gauges, (es n).scrape.1.body = Exposition.text gauges ++ Exposition.text
        (Composition.ofReports catalog (es n).lastGood own.reports).output.families := by
    intro n
    obtain ⟨own, hsettled, hjoins, -, hrest⟩ := (es n).scrape_settles
    rw [h.catalog_eq n] at hsettled hrest
    exact ⟨own, hsettled, hjoins, hrest⟩
  choose fates hsettled hjoins hlast hfailures hbody using hall
  have hgoods : ∀ n, (es n).lastGood = goods catalog (es 0).lastGood fates n := by
    intro n
    induction n with
    | zero => rfl
    | succ n ih =>
      rw [h.lastGood n, hlast n, ih]
      rfl
  refine ⟨fates, fun n => ⟨hsettled n, hjoins n, hgoods n, ?_, ?_⟩⟩
  · rw [composed, ← hgoods n]
    exact hfailures n
  · rw [composed, ← hgoods n]
    exact hbody n

/-- For every configuration without problems: whatever becomes of the tasks of its scrapes, each
scrape accounts for all of them and a failing metric shows its latest success; and the scrapes of
an exporter, in whatever state it is, are of this kind, with the fates that their submissions and
waits have come to. -/
theorem scrapes_account {check : Url.Check} {config : Config}
    (hvalid : config.problems check = []) :
    (∀ before fates, (∀ n, Settled config.catalog (fates n)) → ∀ n,
      Accounts config.catalog (goods config.catalog before fates n)
          (goods config.catalog before fates (n + 1)) (fates n)
          (composed config.catalog before fates n).output
          (composed config.catalog before fates n).failures.length ∧
        ShowsLatest config.catalog before fates n) ∧
    ∀ es, Successive config.catalog es →
      ∃ fates, ∀ n, Settled config.catalog (fates n) ∧ (es n).Joins (fates n) ∧
        Displays config.catalog es fates n := by
  have hindexed := Catalog.build_indexed config.definitions
  have hplan := Config.nodup_plan hvalid
  refine ⟨?_, fun es hes => hes.displays⟩
  intro before fates hsettled n
  exact ⟨ofReports_accounts hindexed hplan (hsettled n) _, showsLatest hindexed hplan hsettled n⟩

def gaugeConfig : Config where
  settings := ⟨.default, .default, .default⟩
  definitions := [{
    service := ⟨"disk", .file, "", 0, "/srv", none⟩
    metrics := [⟨"load", .gauge, "", ⟨"jsonpath", "/load"⟩, [], none, none⟩]
    resources := [⟨"stats", "stats.json", "GET", .api, .json, ["load"], none⟩] }]

/-- The gauge is read once, and late from then on. -/
def gaugeFates : Nat → Fates
  | 0 => [(.metric ⟨0⟩ ⟨0⟩ ⟨0⟩, .done 5 (.shaped (.scalar 1.0)))]
  | _ => [(.metric ⟨0⟩ ⟨0⟩ ⟨0⟩, .late 10000)]

theorem gaugeFates_settled (n : Nat) : Settled gaugeConfig.catalog (gaugeFates n) := by
  cases n with
  | zero =>
    refine ⟨by decide, ?_⟩
    intro x hx
    obtain rfl := List.mem_singleton.mp hx
    trivial
  | succ n =>
    refine ⟨rfl, ?_⟩
    intro x hx
    obtain rfl := List.mem_singleton.mp hx
    trivial

def closedExporter : Exporter :=
  (Exporter.start {} gaugeConfig.catalog (FileTree.access {} "/") {}).shutDown

/-- The second late scrape still shows the value of the first one, and an exporter that is shut down
refuses the task and displays that. -/
theorem scrapes_account_gauge :
    shown (goods gaugeConfig.catalog {} gaugeFates 2) ⟨0⟩ (.late 10000) = some (.scalar 1.0) ∧
      ∃ fates : Nat → Fates, fates 0 = [(.metric ⟨0⟩ ⟨0⟩ ⟨0⟩, .refused 0)] ∧
        ∀ n, Displays gaugeConfig.catalog
          (fun n => (fun e : Exporter => e.scrape.2)^[n] closedExporter) fates n := by
  have hvalid : gaugeConfig.problems Url.hosted = [] := by decide
  obtain ⟨hall, hdisplays⟩ := scrapes_account hvalid
  constructor
  · obtain ⟨-, hlatest⟩ := hall {} gaugeFates gaugeFates_settled 2
    refine (hlatest ⟨0⟩ ⟨0⟩ ⟨0⟩ (.late 10000) (by simp [gaugeFates]) rfl).1 0
      (.done 5 (.shaped (.scalar 1.0))) (.scalar 1.0) (by decide) (by simp [gaugeFates]) rfl ?_
    intro j hj hlt other hother
    obtain rfl : j = 1 := by omega
    obtain rfl : other = .late 10000 := by simpa [gaugeFates] using hother
    rfl
  · obtain ⟨fates, hfates⟩ := hdisplays _ (successive_iterate closedExporter)
    refine ⟨fates, ?_, fun n => (hfates n).2.2⟩
    exact (hfates 0).2.1.refused rfl

end MetricRelay
