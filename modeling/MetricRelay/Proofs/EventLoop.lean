import Mathlib.Data.List.Basic
import MetricRelay.EventLoop

/-!
# What a loop keeps

Whatever the pool does and in whatever order the tasks run, a loop changes its
tasks and what they share in two ways only: a task takes a turn, or a task is
lost. A property that these two keep holds as long as the owner of the loop
only waits.
-/

namespace MetricRelay

variable {σ τ α : Type}

namespace Stop

def task : Stop τ α → Task τ α
  | .wait state => .live state
  | .sleep _ state => .live state
  | .finished result => .finished result
  | .crashed => .lost

/-- What holds of the state or of the result that a turn ends with. -/
def Ends (P : τ → Prop) (Q : α → Prop) : Stop τ α → Prop
  | .wait state => P state
  | .sleep _ state => P state
  | .finished result => Q result
  | .crashed => True

theorem Ends.imp {P P' : τ → Prop} {Q Q' : α → Prop} {stop : Stop τ α} (h : stop.Ends P Q)
    (hP : ∀ state, P state → P' state) (hQ : ∀ result, Q result → Q' result) :
    stop.Ends P' Q' := by
  cases stop with
  | wait state => exact hP state h
  | sleep time state => exact hP state h
  | finished result => exact hQ result h
  | crashed => trivial

theorem Ends.live {P : τ → Prop} {Q : α → Prop} {stop : Stop τ α} {state : τ}
    (h : stop.Ends P Q) (htask : .live state = stop.task) : P state := by
  cases stop <;> cases htask <;> exact h

theorem Ends.finished {P : τ → Prop} {Q : α → Prop} {stop : Stop τ α} {result : α}
    (h : stop.Ends P Q) (htask : .finished result = stop.task) : Q result := by
  cases stop <;> cases htask
  exact h

/-- What holds of both ends of a turn, and of a lost task, holds of what the turn leaves. -/
theorem Ends.task {P : Task τ α → Prop} {stop : Stop τ α}
    (h : stop.Ends (fun state => P (.live state)) fun result => P (.finished result))
    (hlost : P .lost) : P stop.task := by
  cases stop with
  | wait state => exact h
  | sleep time state => exact h
  | finished result => exact h
  | crashed => exact hlost

end Stop

theorem Turn.map_ends {τ' α' : Type} {f : τ → τ'} {g : α → α'} {P : τ' → Prop} {Q : α' → Prop}
    {t : Turn σ τ α} (h : t.stop.Ends (fun state => P (f state)) fun result => Q (g result)) :
    (t.map f g).stop.Ends P Q := by
  obtain ⟨shared, woken, stop⟩ := t
  cases stop with
  | wait state => exact h
  | sleep time state => exact h
  | finished result => exact h
  | crashed => trivial

namespace EventLoop

/-- A property of the tasks and of what they share that outlives turns and losses. -/
structure Kept (behave : Behaviour σ τ α) (P : σ → List (Task τ α) → Prop) : Prop where
  turn : ∀ {shared : σ} {tasks : List (Task τ α)} {number : Nat} {state : τ} (now : Nat),
    tasks[number]? = some (.live state) → P shared tasks →
      P (behave now number state shared).shared
        (tasks.set number (behave now number state shared).stop.task)
  lose : ∀ {shared : σ} {tasks : List (Task τ α)} (number : Nat),
    P shared tasks → P shared (tasks.set number .lost)

namespace Kept

variable {behave : Behaviour σ τ α} {P : σ → List (Task τ α) → Prop}

theorem loseAll (h : Kept behave P) (numbers : List Nat) {l : EventLoop σ τ α}
    (hl : P l.shared l.tasks) : P (l.lose numbers).shared (l.lose numbers).tasks := by
  rw [EventLoop.lose]
  induction numbers generalizing l with
  | nil => exact hl
  | cons number rest ih => exact ih (h.lose number hl)

theorem retire_shared (l : EventLoop σ τ α) (number : Nat) (t : Task τ α) :
    (l.retire number t).shared = l.shared ∧
      (l.retire number t).tasks = l.tasks.set number t := by
  rw [EventLoop.retire]
  dsimp only
  split <;> exact ⟨rfl, rfl⟩

theorem runTask (h : Kept behave P) (number : Nat) {l : EventLoop σ τ α}
    (hl : P l.shared l.tasks) :
    P (l.runTask behave number).shared (l.runTask behave number).tasks := by
  rw [EventLoop.runTask]
  split
  · next state hstate =>
    have hturn := h.turn l.now hstate hl
    dsimp only
    split
    · next hstop =>
      rw [hstop] at hturn
      exact hturn
    · next hstop =>
      rw [hstop] at hturn
      exact hturn
    · next hstop =>
      rw [hstop] at hturn
      rw [(retire_shared _ number _).1, (retire_shared _ number _).2]
      exact hturn
    · next hstop =>
      rw [hstop] at hturn
      rw [(retire_shared _ number _).1, (retire_shared _ number _).2]
      exact hturn
  · exact hl

theorem runDispatcher (h : Kept behave P) (fuel : Nat) {l : EventLoop σ τ α}
    (hl : P l.shared l.tasks) :
    P (l.runDispatcher fuel).shared (l.runDispatcher fuel).tasks := by
  induction fuel generalizing l with
  | zero => exact hl
  | succ fuel ih =>
    rw [EventLoop.runDispatcher]
    split
    · exact h.loseAll _ hl
    · dsimp only
      split
      · exact hl
      · exact ih hl

theorem runWorker (h : Kept behave P) (worker : Nat) {l : EventLoop σ τ α}
    (hl : P l.shared l.tasks) :
    P (l.runWorker worker).shared (l.runWorker worker).tasks := by
  rw [EventLoop.runWorker]
  -- Whether the worker has been announced or not makes no difference to the tasks.
  cases l.pool.announce? worker
  all_goals
    dsimp only
    split
    · exact hl
    · exact hl
    · exact hl
    · split
      · exact h.loseAll _ hl
      · split
        · exact hl
        · exact hl

theorem run (h : Kept behave P) (runner : Runner) {l : EventLoop σ τ α}
    (hl : P l.shared l.tasks) : P (l.run behave runner).shared (l.run behave runner).tasks := by
  cases runner with
  | dispatcher => exact h.runDispatcher _ hl
  | worker index => exact h.runWorker index hl
  | task number => exact h.runTask number hl

theorem drain (h : Kept behave P) (fuel : Nat) {l : EventLoop σ τ α}
    (hl : P l.shared l.tasks) : P (l.drain behave fuel).shared (l.drain behave fuel).tasks := by
  induction fuel generalizing l with
  | zero => exact hl
  | succ fuel ih =>
    rw [EventLoop.drain]
    split
    · exact hl
    · next runner agenda _ =>
      have hnext : P ({ l with agenda } : EventLoop σ τ α).shared
        ({ l with agenda } : EventLoop σ τ α).tasks := hl
      exact ih (h.run runner hnext)

theorem wait (h : Kept behave P) (done : EventLoop σ τ α → Bool) (deadline : Option Nat)
    (fuel : Nat) {l : EventLoop σ τ α} (hl : P l.shared l.tasks) :
    P (l.wait behave done deadline fuel).2.shared (l.wait behave done deadline fuel).2.tasks := by
  induction fuel generalizing l with
  | zero => exact hl
  | succ fuel ih =>
    rw [EventLoop.wait]
    split
    · exact hl
    · split
      · exact hl
      · have hdrain := h.drain turnsPerTick hl
        dsimp only
        split
        · exact hdrain
        · split
          · exact hdrain
          · exact ih hdrain

/-- Submitting waits for room, and then at most adds the job at the end. -/
theorem submit (h : Kept behave P) (deadline : Option Nat) (state : τ) {l : EventLoop σ τ α}
    (hl : P l.shared l.tasks) :
    ∃ tasks, P (l.submit behave deadline state).2.shared tasks ∧
      match (l.submit behave deadline state).1 with
      | .error _ => (l.submit behave deadline state).2.tasks = tasks
      | .ok number => number = tasks.length ∧
          (l.submit behave deadline state).2.tasks = tasks ++ [.live state] := by
  rw [EventLoop.submit]
  split
  · exact ⟨l.tasks, hl, rfl⟩
  · have hwait := h.wait (·.pool.hasRoom) deadline (l.patience deadline) hl
    dsimp only
    split
    · exact ⟨_, hwait, rfl⟩
    · exact ⟨_, hwait, rfl, rfl⟩

theorem await (h : Kept behave P) (deadline : Option Nat) (number : Nat) {l : EventLoop σ τ α}
    (hl : P l.shared l.tasks) :
    P (l.await behave deadline number).2.shared (l.await behave deadline number).2.tasks := by
  have hwait := h.wait (isOver number) deadline (l.patience deadline) hl
  rw [EventLoop.await]
  dsimp only
  split <;> exact hwait

end Kept

/-- The owner learns of a task what it has come to. -/
theorem await_result {behave : Behaviour σ τ α} {deadline : Option Nat} {number : Nat}
    {l : EventLoop σ τ α} {result : α}
    (h : (l.await behave deadline number).1 = .result result) :
    (l.await behave deadline number).2.tasks[number]? = some (.finished result) := by
  rw [EventLoop.await] at h ⊢
  dsimp only at h ⊢
  split at h
  · next found htask =>
    obtain rfl := Outcome.result.inj h
    exact htask
  · cases h
  · cases h
  · cases h

end EventLoop
end MetricRelay
