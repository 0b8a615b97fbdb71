import MetricRelay.Proofs.Catalog.Plan
import MetricRelay.Proofs.Keyed
import MetricRelay.Proofs.Output
import MetricRelay.Proofs.Scrape.Turn
import MetricRelay.Scrape.Compose

/-!
# What becomes of the tasks of a scrape

A task comes to one of six ends. Whatever they are, putting the reports
together counts every task that did not succeed, gives every planned metric one
companion sample, and records exactly the fresh values.
-/

namespace MetricRelay

/-- How a task of a scrape ends; times are in milliseconds. -/
inductive Fate where
  | done (finished : Nat) (value : TaskValue)
  /-- The fetch failed, or the document has not the shape of the metric. -/
  | failed (finished : Nat) (error : ScrapeError)
  /-- The deadline passed before there was room for the job. -/
  | crowdedOut (now : Nat)
  /-- The pool was closed before the submit. -/
  | refused (now : Nat)
  /-- The deadline passed while the job was waited for. -/
  | late (now : Nat)
  /-- The pool was closed after the submit. -/
  | dropped (now : Nat)

namespace Fate

def isDone : Fate → Bool
  | .done .. => true
  | _ => false

def isUnsubmitted : Fate → Bool
  | .crowdedOut _ | .refused _ => true
  | _ => false

/-- What becomes of a task that is refused at this time. -/
def ofRefusal (now : Nat) : EventLoop.Refusal → Fate
  | .closed => .refused now
  | .late => .crowdedOut now

@[simp] theorem isUnsubmitted_ofRefusal (now : Nat) (refusal : EventLoop.Refusal) :
    (ofRefusal now refusal).isUnsubmitted = true := by
  cases refusal <;> rfl

@[simp] theorem isDone_ofRefusal (now : Nat) (refusal : EventLoop.Refusal) :
    (ofRefusal now refusal).isDone = false := by
  cases refusal <;> rfl

def overdue? : Fate → Option Nat
  | .crowdedOut now | .late now => some now
  | _ => none

def shaped? : Fate → Option Shaped
  | .done _ (.shaped value) => some value
  | _ => none

/-- The report that the join makes of a fate. -/
def report (task : ScrapeTask) : Fate → TaskReport
  | .done finished value => ⟨task, finished, .ok value⟩
  | .failed finished error => ⟨task, finished, .error error⟩
  | .crowdedOut now | .late now => ⟨task, now, .error .timeout⟩
  | .refused now | .dropped now => ⟨task, now, .error .poolClosed⟩

@[simp] theorem report_task (task : ScrapeTask) (fate : Fate) : (fate.report task).task = task := by
  cases fate <;> rfl

theorem report_of_not_done {fate : Fate} (h : fate.isDone = false) (task : ScrapeTask) :
    ∃ now error, fate.report task = ⟨task, now, .error error⟩ := by
  cases fate with
  | done finished value => cases h
  | failed finished error => exact ⟨finished, error, rfl⟩
  | crowdedOut now => exact ⟨now, _, rfl⟩
  | refused now => exact ⟨now, _, rfl⟩
  | late now => exact ⟨now, _, rfl⟩
  | dropped now => exact ⟨now, _, rfl⟩

theorem fits_of_not_done {fate : Fate} (h : fate.isDone = false) (task : ScrapeTask) :
    (fate.report task).Fits := by
  obtain ⟨now, error, hreport⟩ := report_of_not_done h task
  rw [hreport, TaskReport.Fits]
  cases task <;> trivial

/-- A metric that is done has a fresh value. -/
theorem isDone_eq_shaped? {service : ServiceId} {resource : ResourceId} {id : MetricId}
    {fate : Fate} (h : (fate.report (.metric service resource id)).Fits) :
    fate.isDone = fate.shaped?.isSome := by
  cases fate with
  | done finished value =>
    cases value with
    | shaped value => rfl
    | families fs => exact False.elim h
  | failed finished error => rfl
  | crowdedOut now => rfl
  | refused now => rfl
  | late now => rfl
  | dropped now => rfl

end Fate

/-- The tasks of a scrape, each with its fate. -/
abbrev Fates := List (ScrapeTask × Fate)

namespace Fates

/-- The order in which the reports are put together: the tasks that never became jobs come first. -/
def ordered (fates : Fates) : Fates :=
  fates.filter (·.2.isUnsubmitted) ++ fates.filter (!·.2.isUnsubmitted)

def reports (fates : Fates) : List TaskReport :=
  fates.ordered.map fun (task, fate) => fate.report task

theorem ordered_perm (fates : Fates) : fates.ordered.Perm fates :=
  List.filter_append_perm _ fates

theorem ordered_eq_self {fates : Fates} (h : ∀ x ∈ fates, x.2.isUnsubmitted = false) :
    fates.ordered = fates := by
  have hnone : fates.filter (·.2.isUnsubmitted) = [] :=
    List.filter_eq_nil_iff.mpr fun x hx => by simp [h x hx]
  have hall : fates.filter (!·.2.isUnsubmitted) = fates :=
    List.filter_eq_self.mpr fun x hx => by simp [h x hx]
  rw [ordered, hnone, hall, List.nil_append]

end Fates

/-! ### The latest good values -/

namespace LastGood

theorem get?_record (l : LastGood) (id : MetricId) (value : Shaped) :
    (l.record id value).get? id = some value := by
  rw [get?, record, Keyed.find?_replace, Option.map_some]

theorem get?_record_of_ne (l : LastGood) {id other : MetricId} (h : other ≠ id) (value : Shaped) :
    (l.record id value).get? other = l.get? other := by
  rw [get?, record, Keyed.find?_replace_of_ne h, get?]

end LastGood

namespace Composition

/-- The value that a metric shows: the fresh one, or else the latest good one. -/
def shown (before : LastGood) (id : MetricId) (fate : Fate) : Option Shaped :=
  fate.shaped?.or (before.get? id)

def contribution (catalog : Catalog) (before : LastGood) : ScrapeTask × Fate → List Family
  | (.metric service _ id, fate) =>
    match catalog.metric? id, catalog.service? service with
    | some m, some s =>
      ((shown before id fate).map (Render.valueFamily m s.identity)).toList
        ++ [Render.upFamily m s.identity fate.isDone]
    | _, _ => []
  | (.forward .., .done _ (.families fs)) => fs
  | (.forward .., _) => []

def remember (before : LastGood) : ScrapeTask × Fate → LastGood
  | (.metric _ _ id, fate) =>
    match fate.shaped? with
    | some value => before.record id value
    | none => before
  | (.forward .., _) => before

def Known (catalog : Catalog) : ScrapeTask → Prop
  | .metric service _ id =>
    (∃ m, catalog.metric? id = some m) ∧ ∃ s, catalog.service? service = some s
  | .forward .. => True

/-! ### One report -/

variable {catalog : Catalog}

theorem add_done (c : Composition) {service : ServiceId} {resource : ResourceId} {id : MetricId}
    {m : Catalog.Metric} {s : Catalog.Service} (hm : catalog.metric? id = some m)
    (hs : catalog.service? service = some s) (finished : Nat) (value : Shaped) :
    (add catalog c ⟨.metric service resource id, finished, .ok (.shaped value)⟩).output =
        c.output.extend [Render.valueFamily m s.identity value, Render.upFamily m s.identity true] ∧
      (add catalog c ⟨.metric service resource id, finished, .ok (.shaped value)⟩).lastGood =
        c.lastGood.record id value := by
  simp only [add, addResult, hm, hs]
  exact ⟨rfl, rfl⟩

theorem add_error (c : Composition) {service : ServiceId} {resource : ResourceId} {id : MetricId}
    {m : Catalog.Metric} {s : Catalog.Service} (hm : catalog.metric? id = some m)
    (hs : catalog.service? service = some s) (finished : Nat) (error : ScrapeError) :
    (add catalog c ⟨.metric service resource id, finished, .error error⟩).output =
        c.output.extend (((c.lastGood.get? id).map (Render.valueFamily m s.identity)).toList
          ++ [Render.upFamily m s.identity false]) ∧
      (add catalog c ⟨.metric service resource id, finished, .error error⟩).lastGood =
        c.lastGood := by
  simp only [add, addResult, hm, hs]
  exact ⟨rfl, rfl⟩

theorem addResult_failures (c : Composition) (r : TaskReport) :
    (addResult catalog c r).failures = c.failures := by
  rw [addResult]
  split
  · split
    · split <;> rfl
    · rfl
  · rfl
  · rfl

theorem add_failures (c : Composition) (task : ScrapeTask) (fate : Fate) :
    (add catalog c (fate.report task)).failures.length =
      c.failures.length + (if fate.isDone then 0 else 1) := by
  rw [add, addResult_failures, note]
  by_cases hdone : fate.isDone = true
  · cases fate with
    | done finished value => rfl
    | failed | crowdedOut | refused | late | dropped => cases hdone
  · obtain ⟨now, error, herror⟩ := Fate.report_of_not_done (by simpa using hdone) task
    simp [herror, hdone]

theorem contribution_metric {service : ServiceId} {id : MetricId} {m : Catalog.Metric}
    {s : Catalog.Service} (hm : catalog.metric? id = some m)
    (hs : catalog.service? service = some s) (before : LastGood) (resource : ResourceId)
    (fate : Fate) : contribution catalog before (.metric service resource id, fate) =
      ((shown before id fate).map (Render.valueFamily m s.identity)).toList
        ++ [Render.upFamily m s.identity fate.isDone] := by
  simp only [contribution, hm, hs]

/-- One report adds what its fate contributes, and remembers what is fresh. -/
theorem add_report (c : Composition) {task : ScrapeTask} {fate : Fate}
    (hknown : Known catalog task) (hfits : (fate.report task).Fits) :
    (add catalog c (fate.report task)).output =
        c.output.extend (contribution catalog c.lastGood (task, fate)) ∧
      (add catalog c (fate.report task)).lastGood = remember c.lastGood (task, fate) := by
  cases task with
  | metric service resource id =>
    obtain ⟨⟨m, hm⟩, s, hs⟩ := hknown
    rw [contribution_metric hm hs]
    by_cases hdone : fate.isDone = true
    · cases fate with
      | done finished value =>
        cases value with
        | shaped value => exact add_done c hm hs finished value
        | families fs => exact False.elim hfits
      | failed | crowdedOut | refused | late | dropped => cases hdone
    · have hfalse : fate.isDone = false := by simpa using hdone
      have hnone : fate.shaped? = none := by
        rw [Fate.isDone_eq_shaped? hfits] at hfalse
        simpa using hfalse
      obtain ⟨now, error, hreport⟩ :=
        Fate.report_of_not_done hfalse (.metric service resource id)
      rw [hreport, shown, hnone, hfalse, Option.none_or]
      simpa only [remember, hnone] using add_error c hm hs now error
  | forward service resource =>
    cases fate with
    | done finished value =>
      cases value with
      | shaped value => exact False.elim hfits
      | families fs => exact ⟨rfl, rfl⟩
    | failed | crowdedOut | refused | late | dropped => exact ⟨rfl, rfl⟩

/-! ### All reports -/

/-- What is remembered of a task concerns its own metric only. -/
theorem get?_remember_of_ne {before : LastGood} {task : ScrapeTask} {fate : Fate} {id : MetricId}
    (h : task.metric? ≠ some id) : (remember before (task, fate)).get? id = before.get? id := by
  cases task with
  | forward service resource => rfl
  | metric service resource own =>
    have hne : id ≠ own := by
      rintro rfl
      exact h rfl
    unfold remember
    dsimp only
    split
    · exact LastGood.get?_record_of_ne before hne _
    · rfl

theorem get?_remember (before : LastGood) (service : ServiceId) (resource : ResourceId)
    (id : MetricId) (fate : Fate) :
    (remember before (.metric service resource id, fate)).get? id =
      fate.shaped?.or (before.get? id) := by
  unfold remember
  dsimp only
  split
  · next value hvalue => rw [hvalue, LastGood.get?_record, Option.some_or]
  · next hvalue => rw [hvalue, Option.none_or]

/-- What a task contributes depends on the latest good value of its own metric only. -/
theorem contribution_congr {before before' : LastGood} {task : ScrapeTask} {fate : Fate}
    (h : ∀ id, task.metric? = some id → before.get? id = before'.get? id) :
    contribution catalog before (task, fate) = contribution catalog before' (task, fate) := by
  cases task with
  | forward service resource =>
    cases fate with
    | done finished value => cases value <;> rfl
    | failed | crowdedOut | refused | late | dropped => rfl
  | metric service resource id => simp only [contribution, shown, h id rfl]

def fedMetrics (fates : Fates) : List MetricId := fates.filterMap (·.1.metric?)

/-- The invariant of putting the reports together: as long as no metric comes twice, every task
meets the latest good value from before the scrape. -/
theorem foldl_add (fates : Fates) (hknown : ∀ x ∈ fates, Known catalog x.1)
    (hfits : ∀ x ∈ fates, (x.2.report x.1).Fits) (hnodup : (fedMetrics fates).Nodup)
    (before : LastGood) (c : Composition)
    (hsame : ∀ id ∈ fedMetrics fates, c.lastGood.get? id = before.get? id) :
    ((fates.map fun x => x.2.report x.1).foldl (add catalog) c).output =
        c.output.extend (fates.flatMap (contribution catalog before)) ∧
      ((fates.map fun x => x.2.report x.1).foldl (add catalog) c).failures.length =
        c.failures.length + fates.countP (!·.2.isDone) ∧
      ((fates.map fun x => x.2.report x.1).foldl (add catalog) c).lastGood =
        fates.foldl remember c.lastGood := by
  induction fates generalizing c with
  | nil => exact ⟨rfl, rfl, rfl⟩
  | cons x rest ih =>
    obtain ⟨task, fate⟩ := x
    obtain ⟨houtput, hlast⟩ := add_report c (hknown (task, fate) (by simp))
      (hfits (task, fate) (by simp))
    have hrest : ∀ id ∈ fedMetrics rest, task.metric? ≠ some id := by
      intro id hid heq
      have hhead : fedMetrics ((task, fate) :: rest) = id :: fedMetrics rest :=
        List.filterMap_cons_some heq
      rw [hhead, List.nodup_cons] at hnodup
      exact hnodup.1 hid
    have hsub : ∀ id ∈ fedMetrics rest, id ∈ fedMetrics ((task, fate) :: rest) := by
      intro id hid
      obtain ⟨y, hy, hid⟩ := List.mem_filterMap.mp hid
      exact List.mem_filterMap.mpr ⟨y, List.mem_cons_of_mem _ hy, hid⟩
    obtain ⟨ihoutput, ihfailures, ihlast⟩ := ih
      (fun y hy => hknown y (List.mem_cons_of_mem _ hy))
      (fun y hy => hfits y (List.mem_cons_of_mem _ hy))
      ((List.Sublist.filterMap _ (List.sublist_cons_self _ _)).nodup hnodup)
      (add catalog c (fate.report task))
      (by
        intro id hid
        rw [hlast, get?_remember_of_ne (hrest id hid)]
        exact hsame id (hsub id hid))
    have hown : contribution catalog c.lastGood (task, fate) =
        contribution catalog before (task, fate) := by
      apply contribution_congr
      intro id hid
      apply hsame
      exact List.mem_filterMap.mpr ⟨(task, fate), by simp, hid⟩
    refine ⟨?_, ?_, ?_⟩
    · rw [List.map_cons, List.foldl_cons, ihoutput, houtput, hown, List.flatMap_cons,
        Output.extend_append]
    · rw [List.map_cons, List.foldl_cons, ihfailures, add_failures, List.countP_cons]
      cases fate.isDone with
      | true => simp
      | false => simp; omega
    · rw [List.map_cons, List.foldl_cons, ihlast, hlast, List.foldl_cons]

theorem get?_foldl_remember_of_not_mem {fates : Fates} {id : MetricId}
    (h : id ∉ fedMetrics fates) (before : LastGood) :
    (fates.foldl remember before).get? id = before.get? id := by
  induction fates generalizing before with
  | nil => rfl
  | cons x rest ih =>
    obtain ⟨task, fate⟩ := x
    have hrest : id ∉ fedMetrics rest := by
      intro hmem
      obtain ⟨y, hy, hid⟩ := List.mem_filterMap.mp hmem
      exact h (List.mem_filterMap.mpr ⟨y, List.mem_cons_of_mem _ hy, hid⟩)
    have hne : task.metric? ≠ some id := fun heq =>
      h (List.mem_filterMap.mpr ⟨(task, fate), by simp, heq⟩)
    rw [List.foldl_cons, ih hrest, get?_remember_of_ne hne]

/-- After the scrape a metric has its fresh value, or else the one it had. -/
theorem get?_foldl_remember {fates : Fates} (hnodup : (fedMetrics fates).Nodup)
    {service : ServiceId} {resource : ResourceId} {id : MetricId} {fate : Fate}
    (hmem : (.metric service resource id, fate) ∈ fates) (before : LastGood) :
    (fates.foldl remember before).get? id = fate.shaped?.or (before.get? id) := by
  induction fates generalizing before with
  | nil => cases hmem
  | cons x rest ih =>
    rw [List.foldl_cons]
    rcases List.mem_cons.mp hmem with rfl | htail
    · have hhead : fedMetrics ((.metric service resource id, fate) :: rest) =
          id :: fedMetrics rest := List.filterMap_cons_some rfl
      rw [hhead, List.nodup_cons] at hnodup
      rw [get?_foldl_remember_of_not_mem hnodup.1, get?_remember]
    · have hrest : (fedMetrics rest).Nodup :=
        (List.Sublist.filterMap _ (List.sublist_cons_self _ _)).nodup hnodup
      have hid : id ∈ fedMetrics rest := List.mem_filterMap.mpr ⟨_, htail, rfl⟩
      have hne : x.1.metric? ≠ some id := by
        intro heq
        have hhead : fedMetrics (x :: rest) = id :: fedMetrics rest :=
          List.filterMap_cons_some heq
        rw [hhead, List.nodup_cons] at hnodup
        exact hnodup.1 hid
      rw [ih hrest htail]
      obtain ⟨task, own⟩ := x
      rw [get?_remember_of_ne hne]

end Composition
end MetricRelay
