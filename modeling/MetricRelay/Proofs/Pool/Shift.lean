import Mathlib.Data.List.Count
import Mathlib.Data.List.Perm.Basic
import MetricRelay.Pool

/-!
# A pool at work

The dispatcher, the workers and those who submit jobs move side by side, and a
pool may be closed at any time. To fill an inbox the dispatcher makes two moves:
it picks the first idle worker, and then puts the job in, or drops it if that
worker has stopped in between. A shift is a pool together with a record of its
jobs.
-/

namespace MetricRelay

namespace Station

def inbox? : Station → Option Nat
  | .handed job => some job
  | _ => none

def runs? : Station → Option Nat
  | .running job => some job
  | _ => none

end Station

namespace Pool

def inboxes (p : Pool) : List Nat := p.stations.filterMap Station.inbox?

def running (p : Pool) : List Nat := p.stations.filterMap Station.runs?

/-- How a job ends for who waits for its result. -/
inductive Ending where
  /-- It has sent its result. -/
  | answered
  /-- It panicked, and the sender of its result was lost with it. -/
  | panicked
  /-- It never ran, and was dropped together with the sender of its result. -/
  | dropped
  deriving DecidableEq, Repr

structure Shift where
  pool : Pool
  /-- The dispatcher has picked the first idle worker for the job it holds. -/
  picked : Bool := false
  /-- All jobs that were accepted, in order. -/
  accepted : List Nat := []
  /-- The jobs that were put into inboxes, in order, and whose inboxes these were. -/
  handed : List (Nat × Nat) := []
  ended : List (Nat × Ending) := []

namespace Shift

/-- The jobs in the queue, with the dispatcher, in the inboxes, at work and at their ends. -/
def jobs (s : Shift) : List Nat :=
  s.pool.queue ++ s.pool.held.toList ++ s.pool.inboxes ++ s.pool.running ++ s.ended.map Prod.fst

/-- A worker may stop at a moment when it waits: for a job, once the pool is closed, or to say that
it is idle, once the dispatcher is gone. -/
def MayStop (s : Shift) (worker : Nat) : Prop :=
  s.pool.closed ∧
    (s.pool.station? worker = some .listening ∨
      ∃ job, s.pool.station? worker = some (.handed job)) ∨
  ¬ s.pool.dispatching ∧ s.pool.station? worker = some .announcing

def drop (s : Shift) : List Nat × Pool → Shift
  | (jobs, pool) => { s with pool, ended := s.ended ++ jobs.map (·, .dropped) }

end Shift

inductive Step : Shift → Shift → Prop
  /-- Room in the queue is taken also by who was let in before the pool was closed. -/
  | submit {s : Shift} {pool : Pool} (job : Nat) (fresh : job ∉ s.accepted)
      (dispatching : s.pool.dispatching) (word : s.pool.submit? job = some pool) :
      Step s { s with pool, accepted := s.accepted ++ [job] }
  | take {s : Shift} {pool : Pool} (word : s.pool.take? = some pool) : Step s { s with pool }
  | pick {s : Shift} (dispatching : s.pool.dispatching) (held : s.pool.held ≠ none)
      (idle : s.pool.idle ≠ []) : Step s { s with picked := true }
  | hand {s : Shift} {pool : Pool} {job worker : Nat} (picked : s.picked)
      (held : s.pool.held = some job) (word : s.pool.hand? = some (worker, pool)) :
      Step s { s with pool, picked := false, handed := s.handed ++ [(job, worker)] }
  | bounce {s : Shift} {job worker : Nat} {rest : List Nat} (picked : s.picked)
      (held : s.pool.held = some job) (idle : s.pool.idle = worker :: rest)
      (gone : s.pool.station? worker = some .stopped) :
      Step s { s.drop ([job], { s.pool with held := none, idle := rest }) with picked := false }
  | announce {s : Shift} {pool : Pool} (worker : Nat) (dispatching : s.pool.dispatching)
      (word : s.pool.announce? worker = some pool) : Step s { s with pool }
  | receive {s : Shift} {pool : Pool} {job : Nat} (worker : Nat)
      (word : s.pool.receive? worker = some (job, pool)) : Step s { s with pool }
  | finish {s : Shift} {pool : Pool} {job worker : Nat} (ending : Ending) (ran : ending ≠ .dropped)
      (word : s.pool.finish? job = some (worker, pool)) :
      Step s { s with pool, ended := s.ended ++ [(job, ending)] }
  | close {s : Shift} : Step s { s with pool := s.pool.close }
  | stopDispatcher {s : Shift} (closed : s.pool.closed) (dispatching : s.pool.dispatching)
      (unpicked : ¬ s.picked) : Step s (s.drop s.pool.stopDispatcher)
  | stopWorker {s : Shift} (worker : Nat) (may : s.MayStop worker) :
      Step s (s.drop (s.pool.stopWorker worker))

/-- What a pool of `workers` workers can come to. -/
inductive Reached (workers : Nat) : Shift → Prop
  | start : Reached workers { pool := .start workers }
  | step {s s' : Shift} : Reached workers s → Step s s' → Reached workers s'

/-! ### What each operation does -/

section Operations

variable {p p' : Pool} {job worker : Nat}

theorem submit?_some (h : p.submit? job = some p') : p' = { p with queue := p.queue ++ [job] } := by
  rw [submit?] at h
  split at h
  · exact (Option.some.inj h).symm
  · cases h

theorem take?_some (h : p.take? = some p') : p.dispatching ∧ p.held = none ∧
    ∃ job rest, p.queue = job :: rest ∧ p' = { p with queue := rest, held := some job } := by
  rw [take?] at h
  split at h
  · next hready =>
    split at h
    · cases h
    · next job rest hqueue =>
      exact ⟨hready.1, hready.2, job, rest, hqueue, (Option.some.inj h).symm⟩
  · cases h

theorem hand?_some (h : p.hand? = some (worker, p')) :
    p.dispatching ∧ p.station? worker = some .listening ∧
    ∃ job rest, p.held = some job ∧ p.idle = worker :: rest ∧
      p' = { p.setStation worker (.handed job) with held := none, idle := rest } := by
  rw [hand?] at h
  split at h
  · next job first rest hheld hidle =>
    split at h
    · next hready =>
      cases h
      exact ⟨hready.1, hready.2, job, rest, hheld, hidle, rfl⟩
    · cases h
  · cases h

theorem announce?_some (h : p.announce? worker = some p') :
    p.station? worker = some .announcing ∧
      p' = { p.setStation worker .listening with idle := p.idle ++ [worker] } := by
  rw [announce?] at h
  split at h
  · next hready => exact ⟨hready.1, (Option.some.inj h).symm⟩
  · cases h

theorem receive?_some (h : p.receive? worker = some (job, p')) :
    p.station? worker = some (.handed job) ∧ p' = p.setStation worker (.running job) := by
  rw [receive?] at h
  split at h
  · next hstation =>
    cases h
    exact ⟨hstation, rfl⟩
  · cases h

theorem finish?_some (h : p.finish? job = some (worker, p')) :
    p.station? worker = some (.running job) ∧ p' = p.setStation worker .announcing := by
  rw [finish?, Option.map_eq_some_iff] at h
  obtain ⟨runner, hrunner, heq⟩ := h
  cases heq
  refine ⟨?_, rfl⟩
  rw [runner?, List.idxOf?_eq_some_iff] at hrunner
  obtain ⟨hlt, hstation, -⟩ := hrunner
  rw [station?, List.getElem?_eq_getElem hlt, hstation]

/-- What a worker that stops drops is what its inbox holds. -/
theorem stopWorker_eq {station : Station} (h : p.station? worker = some station) :
    p.stopWorker worker = (station.inbox?.toList, p.setStation worker .stopped) := by
  rw [stopWorker, h]
  cases station <;> rfl

theorem station?_setStation {old : Station} (h : p.station? worker = some old) (new : Station)
    (other : Nat) : (p.setStation worker new).station? other =
      if other = worker then some new else p.station? other := by
  have hlt : worker < p.stations.length := (List.getElem?_eq_some_iff.mp h).1
  change (p.stations.set worker new)[other]? = _
  rw [List.getElem?_set]
  by_cases hother : other = worker
  · rw [if_pos hother.symm, if_pos hother, if_pos (hother ▸ hlt)]
  · rw [if_neg (Ne.symm hother), if_neg hother]
    rfl

theorem count_filterMap_set {l : List Station} {old : Station} (h : l[worker]? = some old)
    (new : Station) (f : Station → Option Nat) (job : Nat) :
    ((l.set worker new).filterMap f).count job + (f old).toList.count job =
      (l.filterMap f).count job + (f new).toList.count job := by
  obtain ⟨hlt, rfl⟩ := List.getElem?_eq_some_iff.mp h
  have hsplit (s : Station) (rest : List Station) :
      (s :: rest).filterMap f = (f s).toList ++ rest.filterMap f := by
    cases hs : f s <;> simp [hs]
  have hnew := ((List.set_perm_cons_eraseIdx hlt new).filterMap f).count_eq job
  have hold := ((List.getElem_cons_eraseIdx_perm hlt).filterMap f).count_eq job
  rw [hsplit, List.count_append] at hnew hold
  omega

/-- A worker that moves from one station to another leaves one job and takes up another. -/
theorem count_setStation {old : Station} (h : p.station? worker = some old) (new : Station)
    (job : Nat) :
    (p.setStation worker new).inboxes.count job + (p.setStation worker new).running.count job +
        (old.inbox?.toList.count job + old.runs?.toList.count job) =
      p.inboxes.count job + p.running.count job +
        (new.inbox?.toList.count job + new.runs?.toList.count job) := by
  have hinbox := count_filterMap_set h new Station.inbox? job
  have hruns := count_filterMap_set h new Station.runs? job
  change _ = p.inboxes.count job + _ at hinbox
  change _ = p.running.count job + _ at hruns
  simp only [inboxes, running, setStation] at *
  omega

theorem running_length (p : Pool) : p.running.length = p.busy := by
  rw [running, busy, List.length_filterMap_eq_countP]
  refine List.countP_congr fun s _ => ?_
  cases s <;> simp [Station.runs?]

/-- The dispatcher's move from the job to the inbox is the two moves in a row. -/
theorem hand_steps {s : Shift} (h : s.pool.hand? = some (worker, p')) :
    ∃ job, Step s { s with picked := true } ∧
      Step { s with picked := true }
        { s with pool := p', picked := false, handed := s.handed ++ [(job, worker)] } := by
  obtain ⟨hdispatching, -, job, rest, hheld, hidle, -⟩ := hand?_some h
  exact ⟨job, .pick hdispatching (by simp [hheld]) (by simp [hidle]), .hand rfl hheld h⟩

end Operations

end Pool
end MetricRelay
