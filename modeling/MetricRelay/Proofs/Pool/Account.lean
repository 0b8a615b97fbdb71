import MetricRelay.Proofs.Pool.Shift

/-!
# Every job and every worker in one place

Three invariants of a pool at work: which workers are idle, where each accepted
job is, and in which order jobs go to the workers. Main result: what a pool of
workers keeps to along every run, and that no accepted job is left behind when
it has stopped.
-/

namespace MetricRelay.Pool

variable {workers : Nat} {p : Pool} {s s' : Shift} {job worker : Nat}

/-! ### Workers -/

/-- The workers listed as idle are those that listen, and those that stopped while they did. -/
structure Staffed (workers : Nat) (p : Pool) : Prop where
  size : p.size = workers
  crew : p.stations.length = workers
  nodup : p.idle.Nodup
  listed : ∀ w ∈ p.idle,
    p.station? w = some .listening ∨ p.closed ∧ p.station? w = some .stopped
  listens : ∀ w, p.station? w = some .listening → w ∈ p.idle
  unstopped : ¬ p.closed → p.dispatching ∧ ∀ w, p.station? w ≠ some .stopped

namespace Staffed

theorem start (h : 1 ≤ workers) : Staffed workers (.start workers) where
  size := Nat.max_eq_left h
  crew := (List.length_replicate ..).trans (Nat.max_eq_left h)
  nodup := List.nodup_nil
  listed := by
    intro w hw
    cases hw
  listens := by
    intro w hw
    cases List.eq_of_mem_replicate (List.mem_of_getElem? hw)
  unstopped := by
    intro _
    refine ⟨rfl, fun w hw => ?_⟩
    cases List.eq_of_mem_replicate (List.mem_of_getElem? hw)

theorem lt_of_station (h : Staffed workers p) {station : Station}
    (hstation : p.station? worker = some station) : worker < workers :=
  h.crew ▸ (List.getElem?_eq_some_iff.mp hstation).1

theorem lt_of_idle (h : Staffed workers p) (hidle : worker ∈ p.idle) : worker < workers := by
  rcases h.listed worker hidle with hstation | ⟨-, hstation⟩
  · exact h.lt_of_station hstation
  · exact h.lt_of_station hstation

theorem not_mem_idle (h : Staffed workers p) {station : Station}
    (hstation : p.station? worker = some station) (hlistening : station ≠ .listening)
    (hstopped : station ≠ .stopped) : worker ∉ p.idle := by
  intro hmem
  rcases h.listed worker hmem with hother | ⟨-, hother⟩
  · exact hlistening (Option.some.inj (hstation.symm.trans hother))
  · exact hstopped (Option.some.inj (hstation.symm.trans hother))

/-- One worker moves. The list stays right if it is right about that worker, and the same as before
about the others. -/
theorem move (h : Staffed workers p) {old new : Station} {held : Option Nat} {idle : List Nat}
    (hold : p.station? worker = some old) (hnodup : idle.Nodup)
    (hothers : ∀ w, w ≠ worker → (w ∈ idle ↔ w ∈ p.idle))
    (hlisted : worker ∈ idle → new = .listening ∨ p.closed ∧ new = .stopped)
    (hlistens : new = .listening → worker ∈ idle) (hstopped : new = .stopped → p.closed) :
    Staffed workers { p.setStation worker new with held, idle } where
  size := h.size
  crew := (List.length_set ..).trans h.crew
  nodup := hnodup
  listed := by
    intro w hw
    change (p.setStation worker new).station? w = _ ∨
      _ ∧ (p.setStation worker new).station? w = _
    rw [station?_setStation hold]
    split
    · next heq => exact (hlisted (heq ▸ hw)).imp (congrArg some) (And.imp_right (congrArg some))
    · next hother => exact h.listed w ((hothers w hother).mp hw)
  listens := by
    intro w hw
    change (p.setStation worker new).station? w = _ at hw
    rw [station?_setStation hold] at hw
    split at hw
    · next heq => exact heq ▸ hlistens (Option.some.inj hw)
    · next hother => exact (hothers w hother).mpr (h.listens w hw)
  unstopped := by
    intro hopen
    refine ⟨(h.unstopped hopen).1, fun w hw => ?_⟩
    change (p.setStation worker new).station? w = _ at hw
    rw [station?_setStation hold] at hw
    split at hw
    · exact hopen (hstopped (Option.some.inj hw))
    · exact (h.unstopped hopen).2 w hw

/-- A worker that is at work goes on with its work. -/
theorem work (h : Staffed workers p) {old new : Station} (hold : p.station? worker = some old)
    (hbusy : old ≠ .listening ∧ old ≠ .stopped) (hnew : new ≠ .listening ∧ new ≠ .stopped) :
    Staffed workers (p.setStation worker new) :=
  h.move hold h.nodup (fun _ _ => Iff.rfl)
    (fun hidle => absurd hidle (h.not_mem_idle hold hbusy.1 hbusy.2))
    (fun heq => absurd heq hnew.1) (fun heq => absurd heq hnew.2)

theorem announce (h : Staffed workers p) (hold : p.station? worker = some .announcing) :
    Staffed workers { p.setStation worker .listening with idle := p.idle ++ [worker] } := by
  have hnew := h.not_mem_idle hold (by rintro ⟨⟩) (by rintro ⟨⟩)
  refine h.move hold ?_ (fun w hw => ?_) (fun _ => Or.inl rfl) (fun _ => ?_) (by rintro ⟨⟩)
  · exact (List.perm_append_singleton ..).nodup_iff.mpr (List.nodup_cons.mpr ⟨hnew, h.nodup⟩)
  · simp [hw]
  · exact List.mem_append_right _ List.mem_cons_self

/-- The first idle worker gets a job. -/
theorem hand (h : Staffed workers p) {rest : List Nat} (hidle : p.idle = worker :: rest)
    (hold : p.station? worker = some .listening) (job : Nat) :
    Staffed workers { p.setStation worker (.handed job) with held := none, idle := rest } := by
  obtain ⟨hfirst, hrest⟩ := List.nodup_cons.mp (hidle ▸ h.nodup)
  refine h.move hold hrest (fun w hw => ?_) (fun hmem => absurd hmem hfirst) (by rintro ⟨⟩)
    (by rintro ⟨⟩)
  simp [hidle, hw]

/-- A worker stops that does not run a job. -/
theorem stop (h : Staffed workers p) {old : Station} (hold : p.station? worker = some old)
    (hclosed : p.closed) : Staffed workers (p.setStation worker .stopped) :=
  h.move hold h.nodup (fun _ _ => Iff.rfl) (fun _ => Or.inr ⟨hclosed, rfl⟩) (by rintro ⟨⟩)
    (fun _ => hclosed)

/-- The first idle worker is struck off the list after it has stopped. -/
theorem bounce (h : Staffed workers p) {rest : List Nat} (hidle : p.idle = worker :: rest)
    (hgone : p.station? worker = some .stopped) :
    Staffed workers { p with held := none, idle := rest } where
  size := h.size
  crew := h.crew
  nodup := (List.nodup_cons.mp (hidle ▸ h.nodup)).2
  listed := fun w hw => h.listed w (hidle ▸ List.mem_cons_of_mem _ hw)
  listens := by
    intro w hw
    have hmem := h.listens w hw
    rw [hidle, List.mem_cons] at hmem
    refine hmem.resolve_left ?_
    rintro rfl
    cases hgone.symm.trans hw
  unstopped := h.unstopped

/-- Only in a closed pool may a worker stop, and not while it runs a job. -/
theorem of_mayStop (h : Staffed workers s.pool) (hmay : s.MayStop worker) :
    s.pool.closed ∧ ∃ old, s.pool.station? worker = some old ∧ old.runs? = none := by
  obtain ⟨hclosed, hstation | ⟨job, hstation⟩⟩ | ⟨hgone, hstation⟩ := hmay
  · exact ⟨hclosed, _, hstation, rfl⟩
  · exact ⟨hclosed, _, hstation, rfl⟩
  · by_cases hclosed : s.pool.closed
    · exact ⟨hclosed, _, hstation, rfl⟩
    · exact absurd (h.unstopped hclosed).1 hgone

theorem step (h : Staffed workers s.pool) (hstep : Step s s') : Staffed workers s'.pool := by
  cases hstep with
  | submit job fresh dispatching word =>
    rw [submit?_some word]
    exact ⟨h.size, h.crew, h.nodup, h.listed, h.listens, h.unstopped⟩
  | take word =>
    obtain ⟨-, -, job, rest, -, rfl⟩ := take?_some word
    exact ⟨h.size, h.crew, h.nodup, h.listed, h.listens, h.unstopped⟩
  | pick dispatching held idle => exact h
  | hand picked held word =>
    obtain ⟨-, hstation, job, rest, -, hidle, rfl⟩ := hand?_some word
    exact h.hand hidle hstation job
  | bounce picked held idle gone => exact h.bounce idle gone
  | announce worker dispatching word =>
    obtain ⟨hstation, rfl⟩ := announce?_some word
    exact h.announce hstation
  | receive worker word =>
    obtain ⟨hstation, rfl⟩ := receive?_some word
    exact h.work hstation ⟨by rintro ⟨⟩, by rintro ⟨⟩⟩ ⟨by rintro ⟨⟩, by rintro ⟨⟩⟩
  | finish ending ran word =>
    obtain ⟨hstation, rfl⟩ := finish?_some word
    exact h.work hstation ⟨by rintro ⟨⟩, by rintro ⟨⟩⟩ ⟨by rintro ⟨⟩, by rintro ⟨⟩⟩
  | close =>
    refine ⟨h.size, h.crew, h.nodup, fun w hw => ?_, h.listens, fun hopen => absurd rfl hopen⟩
    exact (h.listed w hw).imp_right fun hstop => ⟨rfl, hstop.2⟩
  | stopDispatcher closed dispatching unpicked =>
    exact ⟨h.size, h.crew, h.nodup, h.listed, h.listens, fun hopen => absurd closed hopen⟩
  | stopWorker worker may =>
    obtain ⟨hclosed, old, hstation, -⟩ := h.of_mayStop may
    rw [stopWorker_eq hstation]
    exact h.stop hstation hclosed

/-- There is room on the list for a worker that is about to say that it is idle. -/
theorem announce?_isSome (h : Staffed workers p) (hstation : p.station? worker = some .announcing) :
    (p.announce? worker).isSome := by
  have hnew := h.not_mem_idle hstation (by rintro ⟨⟩) (by rintro ⟨⟩)
  have hall : worker :: p.idle ⊆ List.range workers := by
    intro w hw
    rw [List.mem_range]
    rcases List.mem_cons.mp hw with rfl | hw
    · exact h.lt_of_station hstation
    · exact h.lt_of_idle hw
  have hlength := (List.subperm_of_subset (List.nodup_cons.mpr ⟨hnew, h.nodup⟩) hall).length_le
  rw [List.length_cons, List.length_range, ← h.size] at hlength
  rw [announce?, if_pos ⟨hstation, hlength⟩]
  rfl

end Staffed

/-! ### Jobs -/

theorem count_jobs (s : Shift) (job : Nat) :
    s.jobs.count job = s.pool.queue.count job + s.pool.held.toList.count job +
      (s.pool.inboxes.count job + s.pool.running.count job) +
      (s.ended.map Prod.fst).count job := by
  simp only [Shift.jobs, List.count_append]
  omega

/-- Every accepted job is in one place, and only a closed pool drops a job. -/
structure Accounted (s : Shift) : Prop where
  nodup : s.accepted.Nodup
  places : s.jobs.Perm s.accepted
  kept : ¬ s.pool.closed → ∀ e ∈ s.ended, e.2 ≠ .dropped
  halted : ¬ s.pool.dispatching → s.pool.queue = [] ∧ s.pool.held = none
  ready : s.picked → s.pool.dispatching ∧ s.pool.held ≠ none ∧ s.pool.idle ≠ []

namespace Accounted

theorem start : Accounted { pool := .start workers } where
  nodup := List.nodup_nil
  places := by
    have hinbox : Station.inbox? .announcing = none := rfl
    have hruns : Station.runs? .announcing = none := rfl
    simp [Shift.jobs, Pool.start, inboxes, running, List.filterMap_replicate_of_none hinbox,
      List.filterMap_replicate_of_none hruns]
  kept := by
    intro _ e he
    cases he
  halted := fun hgone => absurd rfl hgone
  ready := by rintro ⟨⟩

/-- While no worker moves, what goes in at one place comes out at another. -/
theorem places_of_stations (h : Accounted s) (hstations : s'.pool.stations = s.pool.stations)
    (hjob : ∀ job, s'.pool.queue.count job + s'.pool.held.toList.count job +
        (s'.ended.map Prod.fst).count job + s.accepted.count job =
      s.pool.queue.count job + s.pool.held.toList.count job +
        (s.ended.map Prod.fst).count job + s'.accepted.count job) :
    s'.jobs.Perm s'.accepted := by
  refine List.perm_iff_count.mpr fun job => ?_
  have hplaces := h.places.count_eq job
  have hmoved := hjob job
  simp only [count_jobs, inboxes, running, hstations] at hplaces ⊢
  omega

/-- When a worker moves, its old job and its new one enter the balance. -/
theorem places_of_setStation (h : Accounted s) {old new : Station}
    (hold : s.pool.station? worker = some old)
    (hstations : s'.pool.stations = (s.pool.setStation worker new).stations)
    (hjob : ∀ job, s'.pool.queue.count job + s'.pool.held.toList.count job +
        (s'.ended.map Prod.fst).count job +
        (new.inbox?.toList.count job + new.runs?.toList.count job) =
      s.pool.queue.count job + s.pool.held.toList.count job + (s.ended.map Prod.fst).count job +
        (old.inbox?.toList.count job + old.runs?.toList.count job))
    (haccepted : s'.accepted = s.accepted) : s'.jobs.Perm s'.accepted := by
  rw [haccepted]
  refine List.perm_iff_count.mpr fun job => ?_
  have hplaces := h.places.count_eq job
  have hset := count_setStation hold new job
  have hmoved := hjob job
  simp only [count_jobs, inboxes, running, hstations] at hplaces hset ⊢
  omega

theorem step (h : Accounted s) (hstaffed : Staffed workers s.pool) (hstep : Step s s') :
    Accounted s' := by
  cases hstep with
  | submit job fresh dispatching word =>
    rw [submit?_some word]
    refine ⟨?_, h.places_of_stations rfl fun other => ?_, h.kept,
      fun hgone => absurd dispatching hgone, h.ready⟩
    · exact (List.perm_append_singleton ..).nodup_iff.mpr (List.nodup_cons.mpr ⟨fresh, h.nodup⟩)
    · simp only [List.count_append]
      omega
  | take word =>
    obtain ⟨hdispatching, hheld, job, rest, hqueue, rfl⟩ := take?_some word
    refine ⟨h.nodup, h.places_of_stations rfl fun other => ?_, h.kept,
      fun hgone => absurd hdispatching hgone, fun hpicked => absurd hheld (h.ready hpicked).2.1⟩
    simp only [hqueue, hheld, List.count_cons, Option.toList_some, Option.toList_none,
      List.count_nil]
    omega
  | pick dispatching held idle =>
    exact ⟨h.nodup, h.places, h.kept, h.halted, fun _ => ⟨dispatching, held, idle⟩⟩
  | @hand pool job worker picked held word =>
    obtain ⟨hdispatching, hstation, job, rest, hheld, hidle, rfl⟩ := hand?_some word
    refine ⟨h.nodup, h.places_of_setStation hstation rfl (fun other => ?_) rfl, h.kept,
      fun hgone => absurd hdispatching hgone, by rintro ⟨⟩⟩
    simp only [hheld, setStation, Station.inbox?, Station.runs?, Option.toList_some,
      Option.toList_none, List.count_nil]
    omega
  | @bounce job worker rest picked held idle gone =>
    have hdispatching := (h.ready picked).1
    refine ⟨h.nodup, h.places_of_stations rfl fun other => ?_,
      fun hopen => absurd gone ((hstaffed.unstopped hopen).2 worker),
      fun hgone => absurd hdispatching hgone, by rintro ⟨⟩⟩
    simp only [Shift.drop, held, List.map_append, List.map_cons, List.map_nil, List.count_append,
      Option.toList_some, Option.toList_none, List.count_nil]
    omega
  | announce worker dispatching word =>
    obtain ⟨hstation, rfl⟩ := announce?_some word
    exact ⟨h.nodup, h.places_of_setStation hstation rfl (fun _ => rfl) rfl, h.kept,
      fun hgone => absurd dispatching hgone,
      fun hpicked => ⟨dispatching, (h.ready hpicked).2.1, by simp⟩⟩
  | receive worker word =>
    obtain ⟨hstation, rfl⟩ := receive?_some word
    refine ⟨h.nodup, h.places_of_setStation hstation rfl (fun other => ?_) rfl, h.kept, h.halted,
      h.ready⟩
    exact congrArg _ (Nat.add_comm ..)
  | @finish pool job worker ending ran word =>
    obtain ⟨hstation, rfl⟩ := finish?_some word
    refine ⟨h.nodup, h.places_of_setStation hstation rfl (fun other => ?_) rfl,
      fun hopen e he => ?_, h.halted, h.ready⟩
    · simp only [setStation, List.map_append, List.map_cons, List.map_nil, List.count_append,
        Station.inbox?, Station.runs?, Option.toList_some, Option.toList_none, List.count_nil]
      omega
    · rcases List.mem_append.mp he with he | he
      · exact h.kept hopen e he
      · rwa [List.mem_singleton.mp he]
  | close => exact ⟨h.nodup, h.places, fun hopen => absurd rfl hopen, h.halted, h.ready⟩
  | stopDispatcher closed dispatching unpicked =>
    refine ⟨h.nodup, h.places_of_stations rfl fun other => ?_, fun hopen => absurd closed hopen,
      fun _ => ⟨rfl, rfl⟩, fun hpicked => absurd hpicked unpicked⟩
    simp only [Shift.drop, stopDispatcher, List.map_append, List.map_map, List.count_append,
      Function.comp_def, List.map_id', Option.toList_none, List.count_nil]
    omega
  | stopWorker worker may =>
    obtain ⟨hclosed, old, hstation, hruns⟩ := hstaffed.of_mayStop may
    rw [stopWorker_eq hstation]
    refine ⟨h.nodup, h.places_of_setStation hstation rfl (fun other => ?_) rfl,
      fun hopen => absurd hclosed hopen, h.halted, h.ready⟩
    obtain ⟨hinbox', hruns'⟩ : Station.inbox? .stopped = none ∧ Station.runs? .stopped = none :=
      ⟨rfl, rfl⟩
    simp only [Shift.drop, setStation, hruns, hinbox', hruns', List.map_append, List.map_map,
      List.count_append, Function.comp_def, List.map_id', Option.toList_none, List.count_nil]
    omega

end Accounted

/-! ### Order -/

/-- Jobs go to the workers as they came. Only a closed pool leaves one out. -/
structure InOrder (s : Shift) : Prop where
  within : (s.handed.map Prod.fst ++ s.pool.held.toList ++ s.pool.queue).Sublist s.accepted
  complete : ¬ s.pool.closed →
    s.handed.map Prod.fst ++ s.pool.held.toList ++ s.pool.queue = s.accepted

namespace InOrder

theorem step (h : InOrder s) (hstaffed : Staffed workers s.pool) (hstep : Step s s') :
    InOrder s' := by
  cases hstep with
  | submit job fresh dispatching word =>
    rw [submit?_some word]
    constructor
    · simpa using h.within.append_right [job]
    · intro hopen
      simpa using congrArg (· ++ [job]) (h.complete hopen)
  | take word =>
    obtain ⟨-, hheld, job, rest, hqueue, rfl⟩ := take?_some word
    have hsame : s.handed.map Prod.fst ++ s.pool.held.toList ++ s.pool.queue =
        s.handed.map Prod.fst ++ [job] ++ rest := by simp [hheld, hqueue]
    exact ⟨hsame ▸ h.within, fun hopen => hsame ▸ h.complete hopen⟩
  | pick dispatching held idle => exact ⟨h.within, h.complete⟩
  | @hand pool job worker picked held word =>
    obtain ⟨-, -, job', rest, hheld, -, rfl⟩ := hand?_some word
    have hsame : s.handed.map Prod.fst ++ s.pool.held.toList ++ s.pool.queue =
        (s.handed ++ [(job, worker)]).map Prod.fst ++ [] ++ s.pool.queue := by simp [held]
    exact ⟨hsame ▸ h.within, fun hopen => hsame ▸ h.complete hopen⟩
  | @bounce job worker rest picked held idle gone =>
    refine ⟨.trans ?_ h.within, fun hopen => absurd gone ((hstaffed.unstopped hopen).2 worker)⟩
    simp [Shift.drop, held]
  | announce worker dispatching word =>
    obtain ⟨-, rfl⟩ := announce?_some word
    exact ⟨h.within, h.complete⟩
  | receive worker word =>
    obtain ⟨-, rfl⟩ := receive?_some word
    exact ⟨h.within, h.complete⟩
  | finish ending ran word =>
    obtain ⟨-, rfl⟩ := finish?_some word
    exact ⟨h.within, h.complete⟩
  | close => exact ⟨h.within, fun hopen => absurd rfl hopen⟩
  | stopDispatcher closed dispatching unpicked =>
    refine ⟨.trans ?_ h.within, fun hopen => absurd closed hopen⟩
    simp [Shift.drop, stopDispatcher]
  | stopWorker worker may =>
    obtain ⟨hclosed, old, hstation, -⟩ := hstaffed.of_mayStop may
    rw [stopWorker_eq hstation]
    exact ⟨h.within, fun hopen => absurd hclosed hopen⟩

end InOrder

/-! ### Whole runs -/

namespace Reached

theorem invariants (h : Reached workers s) (hworkers : 1 ≤ workers) :
    Staffed workers s.pool ∧ Accounted s ∧ InOrder s := by
  induction h with
  | start => exact ⟨.start hworkers, .start, ⟨.slnil, fun _ => rfl⟩⟩
  | step _ hstep ih =>
    obtain ⟨hstaffed, haccounted, horder⟩ := ih
    exact ⟨hstaffed.step hstep, haccounted.step hstaffed hstep, horder.step hstaffed hstep⟩

end Reached

/-- While a pool is open, a worker is idle, or about to say so, or has a job. -/
theorem Staffed.whereabouts (h : Staffed workers p) (hopen : ¬ p.closed) (hlt : worker < workers) :
    worker ∈ p.idle ∧ p.station? worker = some .listening ∨
    worker ∉ p.idle ∧ (p.station? worker = some .announcing ∨
      ∃ job, p.station? worker = some (.handed job) ∨ p.station? worker = some (.running job)) := by
  obtain ⟨station, hstation⟩ : ∃ station, p.station? worker = some station :=
    ⟨_, List.getElem?_eq_getElem (h.crew ▸ hlt)⟩
  cases station with
  | listening => exact Or.inl ⟨h.listens worker hstation, hstation⟩
  | announcing =>
    exact Or.inr ⟨h.not_mem_idle hstation (by rintro ⟨⟩) (by rintro ⟨⟩), Or.inl hstation⟩
  | handed job =>
    exact Or.inr ⟨h.not_mem_idle hstation (by rintro ⟨⟩) (by rintro ⟨⟩),
      Or.inr ⟨job, Or.inl hstation⟩⟩
  | running job =>
    exact Or.inr ⟨h.not_mem_idle hstation (by rintro ⟨⟩) (by rintro ⟨⟩),
      Or.inr ⟨job, Or.inr hstation⟩⟩
  | stopped => exact absurd hstation ((h.unstopped hopen).2 worker)

/-- The inbox of the worker that was picked is empty, or nobody reads it any more. -/
theorem Accounted.picked_ready (h : Accounted s) (hstaffed : Staffed workers s.pool)
    (hpicked : s.picked) : ∃ job w rest, s.pool.held = some job ∧ s.pool.idle = w :: rest ∧
      (s.pool.hand?.isSome ∨ s.pool.station? w = some .stopped) := by
  obtain ⟨hdispatching, hheld, hidle⟩ := h.ready hpicked
  obtain ⟨job, hheld⟩ := Option.ne_none_iff_exists'.mp hheld
  obtain ⟨w, rest, hidle⟩ := List.exists_cons_of_ne_nil hidle
  refine ⟨job, w, rest, hheld, hidle, ?_⟩
  rcases hstaffed.listed w (hidle ▸ List.mem_cons_self) with hstation | ⟨-, hstation⟩
  · left
    simp [hand?, hheld, hidle, hdispatching, hstation]
  · exact Or.inr hstation

/-- When nobody is at work any more, every accepted job has come to an end. -/
theorem Accounted.ended_of_stopped (h : Accounted s) (hstopped : s.pool.isStopped) :
    (s.ended.map Prod.fst).Perm s.accepted := by
  rw [isStopped, Bool.and_eq_true, Bool.not_eq_true', List.all_eq_true] at hstopped
  obtain ⟨hgone, hall⟩ := hstopped
  obtain ⟨hqueue, hheld⟩ := h.halted (by simp [hgone])
  have hinboxes : s.pool.inboxes = [] := List.filterMap_eq_nil_iff.mpr fun station hmem => by
    rw [eq_of_beq (hall station hmem)]
    rfl
  have hrunning : s.pool.running = [] := List.filterMap_eq_nil_iff.mpr fun station hmem => by
    rw [eq_of_beq (hall station hmem)]
    rfl
  simpa [Shift.jobs, hqueue, hheld, hinboxes, hrunning] using h.places

/-- No job is lost, doubled or overtaken and no worker is lost: at most as many jobs run as there
are workers, jobs go to the workers once and as they were accepted, in an open pool every job and
every worker is in one place, nobody waits to list an idle worker or to fill an inbox, and a pool
that has stopped leaves no job without an end. -/
theorem Reached.accounts (h : Reached workers s) (hworkers : 1 ≤ workers) :
    (s.pool.running.length = s.pool.busy ∧ s.pool.busy ≤ workers) ∧
    (s.accepted.Nodup ∧ (s.handed.map Prod.fst).Sublist s.accepted) ∧
    (¬ s.pool.closed →
      s.handed.map Prod.fst ++ s.pool.held.toList ++ s.pool.queue = s.accepted ∧
      s.jobs.Perm s.accepted ∧ (∀ e ∈ s.ended, e.2 ≠ .dropped) ∧
      s.pool.idle.Nodup ∧ ∀ w, w < workers →
        w ∈ s.pool.idle ∧ s.pool.station? w = some .listening ∨
        w ∉ s.pool.idle ∧ (s.pool.station? w = some .announcing ∨ ∃ job,
          s.pool.station? w = some (.handed job) ∨ s.pool.station? w = some (.running job))) ∧
    (∀ w, s.pool.station? w = some .announcing → (s.pool.announce? w).isSome) ∧
    (s.picked → ∃ job w rest, s.pool.held = some job ∧ s.pool.idle = w :: rest ∧
      (s.pool.hand?.isSome ∨ s.pool.station? w = some .stopped)) ∧
    (s.pool.isStopped → (s.ended.map Prod.fst).Perm s.accepted) := by
  obtain ⟨hstaffed, haccounted, horder⟩ := h.invariants hworkers
  refine ⟨⟨running_length s.pool, ?_⟩, ⟨haccounted.nodup, ?_⟩, fun hopen => ?_,
    fun w => hstaffed.announce?_isSome, haccounted.picked_ready hstaffed,
    haccounted.ended_of_stopped⟩
  · exact hstaffed.crew ▸ List.countP_le_length
  · refine .trans ?_ horder.within
    simp only [List.append_assoc, List.sublist_append_left]
  · exact ⟨horder.complete hopen, haccounted.places, haccounted.kept hopen, hstaffed.nodup,
      fun w => hstaffed.whereabouts hopen⟩

/-! ### A worker that stops under the dispatcher's hand -/

def lone (station : Station) (queue : List Nat) (held : Option Nat) (idle : List Nat) : Pool :=
  { size := 1, queue, held, idle, stations := [station] }

def panicked (pool : Pool) (accepted : List Nat) : Shift :=
  { pool, accepted, handed := [(0, 0)], ended := [(0, .panicked)] }

theorem reached_panicked : Reached 1 (panicked (lone .announcing [1] none []) [0, 1]) := by
  have h₁ : Reached 1 { pool := lone .announcing [0] none [], accepted := [0] } :=
    Reached.start.step (.submit 0 (by decide) rfl rfl)
  have h₂ : Reached 1 { pool := lone .announcing [] (some 0) [], accepted := [0] } :=
    h₁.step (.take rfl)
  have h₃ : Reached 1 { pool := lone .listening [] (some 0) [0], accepted := [0] } :=
    h₂.step (.announce 0 rfl rfl)
  have h₄ : Reached 1
      { pool := lone .listening [] (some 0) [0], picked := true, accepted := [0] } :=
    h₃.step (.pick rfl (by decide) (by decide))
  have h₅ : Reached 1
      { pool := lone (.handed 0) [] none [], accepted := [0], handed := [(0, 0)] } :=
    h₄.step (.hand rfl rfl rfl)
  have h₆ : Reached 1
      { pool := lone (.running 0) [] none [], accepted := [0], handed := [(0, 0)] } :=
    h₅.step (.receive 0 rfl)
  have h₇ : Reached 1
      { pool := lone (.running 0) [1] none [], accepted := [0, 1], handed := [(0, 0)] } :=
    h₆.step (.submit 1 (by decide) rfl rfl)
  exact h₇.step (.finish .panicked (by decide) rfl)

/-- Then the pool is closed, and the worker stops after it was picked for job 1. Job 2 is in the
queue when the dispatcher stops. -/
theorem reached_bounced : Reached 1
    { pool := { lone .stopped [] none [] with dispatching := false, closed := true }
      accepted := [0, 1, 2]
      handed := [(0, 0)]
      ended := [(0, .panicked), (1, .dropped), (2, .dropped)] } := by
  have h₁ : Reached 1 (panicked (lone .announcing [] (some 1) []) [0, 1]) :=
    reached_panicked.step (.take rfl)
  have h₂ : Reached 1 (panicked (lone .listening [] (some 1) [0]) [0, 1]) :=
    h₁.step (.announce 0 rfl rfl)
  have h₃ := h₂.step (.pick rfl (by decide) (by decide))
  have h₄ : Reached 1 { panicked (lone .listening [2] (some 1) [0]) [0, 1, 2] with
      picked := true } := h₃.step (.submit 2 (by decide) rfl rfl)
  have h₅ : Reached 1 { panicked { lone .stopped [2] (some 1) [0] with closed := true } [0, 1, 2]
      with picked := true } := (h₄.step .close).step (.stopWorker 0 (Or.inl ⟨rfl, Or.inl rfl⟩))
  exact (h₅.step (.bounce rfl rfl rfl rfl)).step (.stopDispatcher rfl rfl (by simp))

theorem accounts_bounced : ∃ s, Reached 1 s ∧ s.pool.isStopped ∧ s.accepted = [0, 1, 2] ∧
    s.handed.map Prod.fst = [0] ∧ (s.handed.map Prod.fst).Sublist s.accepted ∧
    (s.ended.map Prod.fst).Perm s.accepted := by
  obtain ⟨-, ⟨-, horder⟩, -, -, -, hended⟩ := Reached.accounts reached_bounced (Nat.le_refl 1)
  exact ⟨_, reached_bounced, rfl, rfl, rfl, horder, hended rfl⟩

end MetricRelay.Pool
