import MetricRelay.Exporter
import MetricRelay.Proofs.EventLoop.Waiting
import MetricRelay.Proofs.Scrape.Fate

/-!
# The join of a scrape

Whatever the state of the exporter, the two loops of a scrape give every
planned task exactly one fate: the first submits the tasks, the second waits
for those that became jobs. A fate is what the submission and the wait have come
to, and each of them begins where the one before has ended.
-/

namespace MetricRelay

/-- One item after another: each one brings something, and changes a state for the next one. -/
inductive InTurn {ι κ ς : Type} (R : ι → ς → κ → ς → Prop) : List ι → ς → List κ → ς → Prop
  | nil {s : ς} : InTurn R [] s [] s
  | cons {a : ι} {as : List ι} {b : κ} {bs : List κ} {s t u : ς} (hfirst : R a s b t)
      (hrest : InTurn R as t bs u) : InTurn R (a :: as) s (b :: bs) u

theorem InTurn.map_eq {ι κ ς γ : Type} {R : ι → ς → κ → ς → Prop} {f : ι → γ} {g : κ → γ}
    (hR : ∀ a s b t, R a s b t → g b = f a) {as : List ι} {bs : List κ} {s t : ς}
    (h : InTurn R as s bs t) : bs.map g = as.map f := by
  induction h with
  | nil => rfl
  | cons hfirst _ ih => rw [List.map_cons, List.map_cons, hR _ _ _ _ hfirst, ih]

/-- A rule for every item gives a rule for the list. -/
theorem InTurn.eq_map {ι κ ς : Type} {R : ι → ς → κ → ς → Prop} {P : ς → Prop} {f : ι → κ}
    {as : List ι} {bs : List κ} {s t : ς} (h : InTurn R as s bs t)
    (hR : ∀ a ∈ as, ∀ {s b t}, P s → R a s b t → b = f a ∧ P t) (hs : P s) : bs = as.map f := by
  induction h with
  | nil => rfl
  | @cons a as b bs s t u hfirst _ ih =>
    obtain ⟨rfl, ht⟩ := hR a List.mem_cons_self hs hfirst
    rw [List.map_cons, ih (fun a ha => hR a (List.mem_cons_of_mem _ ha)) ht]

theorem InTurn.exists_of_mem {ι κ ς : Type} {R : ι → ς → κ → ς → Prop} {as : List ι}
    {bs : List κ} {s t : ς} (h : InTurn R as s bs t) {b : κ} (hb : b ∈ bs) :
    ∃ a ∈ as, ∃ before after, R a before b after := by
  induction h with
  | nil => cases hb
  | cons hfirst _ ih =>
    rcases List.mem_cons.mp hb with rfl | hlater
    · exact ⟨_, List.mem_cons_self, _, _, hfirst⟩
    · obtain ⟨a, ha, hrest⟩ := ih hlater
      exact ⟨a, List.mem_cons_of_mem _ ha, hrest⟩

namespace Exporter

abbrev Loop := EventLoop World Activity Finding

def IsJobOf (task : ScrapeTask) : Task Activity Finding → Prop
  | .live (.task job) => job.task = task
  | .finished (.report r) => r.task = task ∧ r.Fits
  | .lost => True
  | _ => False

def Runs (tasks : List (Task Activity Finding)) (task : ScrapeTask) (number : Nat) : Prop :=
  ∃ t, tasks[number]? = some t ∧ IsJobOf task t

/-- The catalog is the one of the index, and each job is that of its task. -/
def Steady (catalog : Catalog) (jobs : List (ScrapeTask × Nat)) (w : World)
    (tasks : List (Task Activity Finding)) : Prop :=
  w.catalog = catalog ∧ ∀ x ∈ jobs, Runs tasks x.1 x.2

theorem runs_set {tasks : List (Task Activity Finding)} {task : ScrapeTask} {number other : Nat}
    (h : Runs tasks task number) {t : Task Activity Finding}
    (ht : other = number → IsJobOf task t) : Runs (tasks.set other t) task number := by
  obtain ⟨old, hold, hjob⟩ := h
  by_cases hne : other = number
  · subst hne
    have hlt := (List.getElem?_eq_some_iff.mp hold).1
    exact ⟨t, List.getElem?_set_self hlt, ht rfl⟩
  · exact ⟨old, (List.getElem?_set_ne hne).trans hold, hjob⟩

theorem runs_append {tasks : List (Task Activity Finding)} {task : ScrapeTask} {number : Nat}
    (h : Runs tasks task number) (t : Task Activity Finding) :
    Runs (tasks ++ [t]) task number := by
  obtain ⟨old, hold, hjob⟩ := h
  have hlt := (List.getElem?_eq_some_iff.mp hold).1
  exact ⟨old, (List.getElem?_append_left hlt).trans hold, hjob⟩

/-! ### What a turn keeps -/

theorem behaveFetch_catalog (r : ResourceId) (now me : Nat) (talk : Talk FetchCall) (w : World) :
    (Activity.behaveFetch r now me talk w).shared.catalog = w.catalog := by
  rw [Activity.behaveFetch]
  split <;> rfl

theorem behave_catalog (now me : Nat) (a : Activity) (w : World) :
    (Activity.behave now me a w).shared.catalog = w.catalog := by
  cases a with
  | task job => exact (ScrapeJob.behave_stays now me job w).catalog
  | fetch r talk => exact behaveFetch_catalog r now me talk w
  | token scope talk => rfl

/-- A turn of a job leaves a job of the same task. -/
theorem isJobOf_turn {task : ScrapeTask} {a : Activity} (h : IsJobOf task (.live a))
    (now me : Nat) (w : World) : IsJobOf task (Activity.behave now me a w).stop.task := by
  cases a with
  | fetch r talk => exact False.elim h
  | token scope talk => exact False.elim h
  | task job =>
    have htask : job.task = task := h
    have hends : (Activity.behave now me (.task job) w).stop.Ends
        (fun a => IsJobOf task (.live a)) fun r => IsJobOf task (.finished r) := by
      apply Turn.map_ends
      refine (ScrapeJob.behave_stays now me job w).stop.imp ?_ ?_
      · exact fun j' hj' => hj'.1.trans htask
      · exact fun r hr => ⟨hr.1.trans htask, hr.2⟩
    exact hends.task trivial

theorem steady_kept (catalog : Catalog) (jobs : List (ScrapeTask × Nat)) :
    EventLoop.Kept Activity.behave (Steady catalog jobs) where
  turn := by
    rintro w tasks n a now hlive ⟨hcatalog, hjobs⟩
    refine ⟨(behave_catalog now n a w).trans hcatalog, ?_⟩
    intro x hx
    apply runs_set (hjobs x hx)
    rintro rfl
    obtain ⟨t, ht, hjob⟩ := hjobs x hx
    obtain rfl := Option.some.inj (ht.symm.trans hlive)
    exact isJobOf_turn hjob now x.2 w
  lose := by
    rintro w tasks n ⟨hcatalog, hjobs⟩
    exact ⟨hcatalog, fun x hx => runs_set (hjobs x hx) fun _ => trivial⟩

/-! ### The first loop -/

/-- Whatever outlives the turns of the tasks, a submission keeps it until the job is added. -/
theorem submit_kept {P : World → List (Task Activity Finding) → Prop}
    (hkept : EventLoop.Kept Activity.behave P) (snapshot deadline : Nat)
    {l : Loop} (h : P l.shared l.tasks) (task : ScrapeTask) :
    ∃ tasks, P (submit snapshot deadline l task).2.shared tasks ∧
      ((submit snapshot deadline l task).1 = .ok (task, tasks.length) ∧
          (submit snapshot deadline l task).2.tasks =
            tasks ++ [.live (.task { snapshot, task })] ∨
        (submit snapshot deadline l task).2.tasks = tasks ∧ ∃ fate : Fate,
          fate.isUnsubmitted = true ∧
            (submit snapshot deadline l task).1 = .error (fate.report task)) := by
  obtain ⟨tasks, hP, hsubmit⟩ := hkept.submit (some deadline) (.task { snapshot, task }) h
  rw [submit]
  cases hres : l.submit Activity.behave (some deadline) (.task { snapshot, task }) with
  | mk result next =>
    rw [hres] at hsubmit hP
    cases result with
    | ok number =>
      obtain ⟨rfl, htasks⟩ := hsubmit
      exact ⟨tasks, hP, Or.inl ⟨rfl, htasks⟩⟩
    | error refusal =>
      cases refusal with
      | closed => exact ⟨tasks, hP, Or.inr ⟨hsubmit, .refused next.now, rfl, rfl⟩⟩
      | late => exact ⟨tasks, hP, Or.inr ⟨hsubmit, .crowdedOut next.now, rfl, rfl⟩⟩

/-- The first loop keeps what outlives the turns of the tasks and the new jobs. -/
theorem submitAll_kept {P : World → List (Task Activity Finding) → Prop}
    (hkept : EventLoop.Kept Activity.behave P) (snapshot deadline : Nat)
    (hadd : ∀ w tasks task, P w tasks → P w (tasks ++ [.live (.task { snapshot, task })]))
    (plan : List ScrapeTask) {l : Loop} (h : P l.shared l.tasks) :
    P (submitAll snapshot deadline l plan).2.shared
      (submitAll snapshot deadline l plan).2.tasks := by
  induction plan generalizing l with
  | nil => exact h
  | cons task rest ih =>
    have hfirst : P (submit snapshot deadline l task).2.shared
        (submit snapshot deadline l task).2.tasks := by
      obtain ⟨tasks, hP, ⟨-, htasks⟩ | ⟨htasks, -⟩⟩ := submit_kept hkept snapshot deadline h task
      · rw [htasks]
        exact hadd _ tasks task hP
      · rw [htasks]
        exact hP
    exact ih hfirst

/-- Where a task stands once it was submitted. -/
inductive Standing where
  | refused (refusal : EventLoop.Refusal) (now : Nat)
  | job (number : Nat)

def Standing.submission : ScrapeTask × Standing → Submission
  | (task, .refused refusal now) => .error ((Fate.ofRefusal now refusal).report task)
  | (task, .job number) => .ok (task, number)

inductive Enters (snapshot deadline : Nat) : ScrapeTask → Loop → ScrapeTask × Standing → Loop → Prop
  | refused {task : ScrapeTask} {l l' : Loop} {refusal : EventLoop.Refusal}
      (h : EventLoop.Submits Activity.behave deadline (.task { snapshot, task }) l
        (.error refusal) l') :
      Enters snapshot deadline task l (task, .refused refusal l'.now) l'
  | job {task : ScrapeTask} {l l' : Loop} {number : Nat}
      (h : EventLoop.Submits Activity.behave deadline (.task { snapshot, task }) l
        (.ok number) l') :
      Enters snapshot deadline task l (task, .job number) l'

theorem Enters.task_eq {snapshot deadline : Nat} {task : ScrapeTask} {l l' : Loop}
    {x : ScrapeTask × Standing} (h : Enters snapshot deadline task l x l') : x.1 = task := by
  cases h <;> rfl

theorem submit_enters (snapshot deadline : Nat) (l : Loop) (task : ScrapeTask) :
    ∃ x, Enters snapshot deadline task l x (submit snapshot deadline l task).2 ∧
      (submit snapshot deadline l task).1 = Standing.submission x := by
  have hsubmits := EventLoop.submit_submits Activity.behave deadline l (.task { snapshot, task })
  rw [submit]
  cases hres : l.submit Activity.behave (some deadline) (.task { snapshot, task }) with
  | mk result next =>
    rw [hres] at hsubmits
    cases result with
    | ok number => exact ⟨_, .job hsubmits, rfl⟩
    | error refusal =>
      cases refusal with
      | closed => exact ⟨_, .refused hsubmits, rfl⟩
      | late => exact ⟨_, .refused hsubmits, rfl⟩

theorem submitAll_enters (snapshot deadline : Nat) (l : Loop) (plan : List ScrapeTask) :
    ∃ xs, InTurn (Enters snapshot deadline) plan l xs (submitAll snapshot deadline l plan).2 ∧
      (submitAll snapshot deadline l plan).1 = xs.map Standing.submission := by
  induction plan generalizing l with
  | nil => exact ⟨[], .nil, rfl⟩
  | cons task rest ih =>
    obtain ⟨x, henters, hfirst⟩ := submit_enters snapshot deadline l task
    obtain ⟨xs, hrest, hothers⟩ := ih (submit snapshot deadline l task).2
    exact ⟨x :: xs, .cons henters hrest, congrArg₂ List.cons hfirst hothers⟩

variable {catalog : Catalog} {jobs : List (ScrapeTask × Nat)} (snapshot deadline : Nat)

theorem submit_steady {l : Loop} (h : Steady catalog jobs l.shared l.tasks) (task : ScrapeTask) :
    Steady catalog (((submit snapshot deadline l task).1.toOption).toList ++ jobs)
        (submit snapshot deadline l task).2.shared (submit snapshot deadline l task).2.tasks := by
  obtain ⟨tasks, hsteady, ⟨hfirst, htasks⟩ | ⟨htasks, fate, hfate, hfirst⟩⟩ :=
    submit_kept (steady_kept catalog jobs) snapshot deadline h task
  · rw [hfirst, htasks]
    refine ⟨hsteady.1, ?_⟩
    intro x hx
    rcases List.mem_cons.mp hx with rfl | hx
    · exact ⟨_, List.getElem?_concat_length, rfl⟩
    · exact runs_append (hsteady.2 x hx) _
  · rw [hfirst, htasks]
    exact hsteady

theorem Steady.mono {w : World} {tasks : List (Task Activity Finding)}
    {jobs' : List (ScrapeTask × Nat)} (h : Steady catalog jobs w tasks)
    (hsub : ∀ x ∈ jobs', x ∈ jobs) : Steady catalog jobs' w tasks :=
  ⟨h.1, fun x hx => h.2 x (hsub x hx)⟩

theorem submitAll_steady (plan : List ScrapeTask) {l : Loop}
    (h : Steady catalog jobs l.shared l.tasks) :
    Steady catalog ((submitAll snapshot deadline l plan).1.filterMap Except.toOption ++ jobs)
      (submitAll snapshot deadline l plan).2.shared
      (submitAll snapshot deadline l plan).2.tasks := by
  induction plan generalizing l jobs with
  | nil => exact h
  | cons task rest ih =>
    apply (ih (submit_steady snapshot deadline h task)).mono
    intro x hx
    rcases List.mem_append.mp hx with hnew | hold
    · obtain ⟨s, hs, hsome⟩ := List.mem_filterMap.mp hnew
      rcases List.mem_cons.mp hs with rfl | hs
      · exact List.mem_append_right _
          (List.mem_append_left _ (Option.mem_toList.mpr (Option.mem_def.mpr hsome)))
      · exact List.mem_append_left _ (List.mem_filterMap.mpr ⟨s, hs, hsome⟩)
    · exact List.mem_append_right _ (List.mem_append_right _ hold)

/-! ### The second loop -/

/-- The report that is waited for is the one that the job ended with, or there is none in time. -/
theorem collect_kept {P : World → List (Task Activity Finding) → Prop}
    (hkept : EventLoop.Kept Activity.behave P) {l : Loop}
    (h : P l.shared l.tasks) (task : ScrapeTask) (number : Nat) :
    P (collect deadline l task number).2.shared (collect deadline l task number).2.tasks ∧
      ((collect deadline l task number).2.tasks[number]? =
          some (.finished (.report (collect deadline l task number).1)) ∨
        ∃ now, (collect deadline l task number).1 = Fate.report task (.late now) ∨
          (collect deadline l task number).1 = Fate.report task (.dropped now)) := by
  have hawait := hkept.await (some deadline) number h
  rw [collect]
  cases hres : l.await Activity.behave (some deadline) number with
  | mk outcome next =>
    rw [hres] at hawait
    cases outcome with
    | result finding =>
      have hfinished := EventLoop.await_result (congrArg Prod.fst hres)
      rw [hres] at hfinished
      cases finding with
      | report r => exact ⟨hawait, Or.inl hfinished⟩
      | answer answer => exact ⟨hawait, Or.inr ⟨next.now, Or.inr rfl⟩⟩
      | token result => exact ⟨hawait, Or.inr ⟨next.now, Or.inr rfl⟩⟩
    | lost => exact ⟨hawait, Or.inr ⟨next.now, Or.inr rfl⟩⟩
    | late => exact ⟨hawait, Or.inr ⟨next.now, Or.inl rfl⟩⟩

theorem collectAll_kept {P : World → List (Task Activity Finding) → Prop}
    (hkept : EventLoop.Kept Activity.behave P) (jobs : List (ScrapeTask × Nat))
    {l : Loop} (h : P l.shared l.tasks) :
    P (collectAll deadline l jobs).2.shared (collectAll deadline l jobs).2.tasks := by
  induction jobs generalizing l with
  | nil => exact h
  | cons x rest ih => exact ih (collect_kept deadline hkept h x.1 x.2).1

inductive Leaves (deadline : Nat) :
    ScrapeTask × Standing → Loop → ScrapeTask × Fate → Loop → Prop
  | unsubmitted {task : ScrapeTask} {l : Loop} {refusal : EventLoop.Refusal} {now : Nat} :
    Leaves deadline (task, .refused refusal now) l (task, .ofRefusal now refusal) l
  | done {task : ScrapeTask} {l l' : Loop} {number finished : Nat} {value : TaskValue}
      (h : EventLoop.Awaits Activity.behave deadline number l
        (.result (.report ⟨task, finished, .ok value⟩)) l') :
      Leaves deadline (task, .job number) l (task, .done finished value) l'
  | failed {task : ScrapeTask} {l l' : Loop} {number finished : Nat} {error : ScrapeError}
      (h : EventLoop.Awaits Activity.behave deadline number l
        (.result (.report ⟨task, finished, .error error⟩)) l') :
      Leaves deadline (task, .job number) l (task, .failed finished error) l'
  | dropped {task : ScrapeTask} {l l' : Loop} {number : Nat}
      (h : EventLoop.Awaits Activity.behave deadline number l .lost l') :
      Leaves deadline (task, .job number) l (task, .dropped l'.now) l'
  | late {task : ScrapeTask} {l l' : Loop} {number : Nat}
      (h : EventLoop.Awaits Activity.behave deadline number l .late l') :
      Leaves deadline (task, .job number) l (task, .late l'.now) l'

theorem Leaves.task_eq {deadline : Nat} {x : ScrapeTask × Standing} {y : ScrapeTask × Fate}
    {l l' : Loop} (h : Leaves deadline x l y l') : y.1 = x.1 := by
  cases h <;> rfl

/-- A job that is waited for leaves as the report says that comes of it. -/
theorem collect_leaves {l : Loop} (h : Steady catalog jobs l.shared l.tasks) {task : ScrapeTask}
    {number : Nat} (hjob : (task, number) ∈ jobs) :
    ∃ fate, Leaves deadline (task, .job number) l (task, fate)
        (collect deadline l task number).2 ∧
      (collect deadline l task number).1 = fate.report task ∧ (fate.report task).Fits ∧
      fate.isUnsubmitted = false := by
  have hsteady := (steady_kept catalog jobs).await (some deadline) number h
  have hawaits := EventLoop.await_awaits Activity.behave deadline number l
  rw [collect]
  cases hres : l.await Activity.behave (some deadline) number with
  | mk outcome next =>
    rw [hres] at hsteady hawaits
    cases outcome with
    | lost => exact ⟨.dropped next.now, .dropped hawaits, rfl, Fate.fits_of_not_done rfl task, rfl⟩
    | late => exact ⟨.late next.now, .late hawaits, rfl, Fate.fits_of_not_done rfl task, rfl⟩
    | result finding =>
      have hover : next.tasks[number]? = some (.finished finding) := by
        cases hawaits with
        | result _ htask => exact htask
      obtain ⟨t, ht, hof⟩ := hsteady.2 _ hjob
      obtain rfl := Option.some.inj (ht.symm.trans hover)
      cases finding with
      | answer answer => exact False.elim hof
      | token result => exact False.elim hof
      | report r =>
        obtain ⟨own, finished, result⟩ := r
        obtain ⟨rfl, hfits⟩ := hof
        cases result with
        | ok value => exact ⟨.done finished value, .done hawaits, rfl, hfits, rfl⟩
        | error error => exact ⟨.failed finished error, .failed hawaits, rfl, hfits, rfl⟩

def refusals (submissions : List Submission) : List TaskReport :=
  submissions.filterMap fun
    | .error report => some report
    | .ok _ => none

/-- The second loop settles every submission, and what it reports are the fates of the jobs. -/
theorem collectAll_leaves (xs : List (ScrapeTask × Standing)) {l : Loop}
    (h : Steady catalog jobs l.shared l.tasks)
    (hsub : ∀ x ∈ (xs.map Standing.submission).filterMap Except.toOption, x ∈ jobs) :
    ∃ fates : Fates,
      InTurn (Leaves deadline) xs l fates (collectAll deadline l
        ((xs.map Standing.submission).filterMap Except.toOption)).2 ∧
      (∀ x ∈ fates, (x.2.report x.1).Fits) ∧
      ((fates.filter (·.2.isUnsubmitted)).map fun x => x.2.report x.1) =
        refusals (xs.map Standing.submission) ∧
      ((fates.filter (!·.2.isUnsubmitted)).map fun x => x.2.report x.1) =
        (collectAll deadline l ((xs.map Standing.submission).filterMap Except.toOption)).1 := by
  induction xs generalizing l with
  | nil => exact ⟨[], .nil, fun x hx => absurd hx List.not_mem_nil, rfl, rfl⟩
  | cons x rest ih =>
    obtain ⟨task, standing⟩ := x
    cases standing with
    | refused refusal now =>
      obtain ⟨fates, hleaves, hfits, hrefused, hcollected⟩ := ih h hsub
      refine ⟨(task, .ofRefusal now refusal) :: fates, .cons .unsubmitted hleaves, ?_, ?_, ?_⟩
      · refine List.forall_mem_cons.mpr ⟨Fate.fits_of_not_done ?_ task, hfits⟩
        exact Fate.isDone_ofRefusal now refusal
      · rw [List.filter_cons_of_pos (by simp), List.map_cons, hrefused]
        rfl
      · rw [List.filter_cons_of_neg (by simp), hcollected]
        rfl
    | job number =>
      have hjob : (task, number) ∈ jobs := hsub _ List.mem_cons_self
      obtain ⟨fate, hfirst, hreport, hfit, hsubmitted⟩ := collect_leaves deadline h hjob
      have hnext := (collect_kept deadline (steady_kept catalog jobs) h task number).1
      obtain ⟨fates, hleaves, hfits, hrefused, hcollected⟩ :=
        ih hnext fun y hy => hsub y (List.mem_cons_of_mem _ hy)
      refine ⟨(task, fate) :: fates, .cons hfirst hleaves,
        List.forall_mem_cons.mpr ⟨hfit, hfits⟩, ?_, ?_⟩
      · rw [List.filter_cons_of_neg (by simp [hsubmitted]), hrefused]
        rfl
      · rw [List.filter_cons_of_pos (by simp [hsubmitted]), List.map_cons, hcollected]
        exact congrArg (· :: _) hreport.symm

end Exporter
end MetricRelay
