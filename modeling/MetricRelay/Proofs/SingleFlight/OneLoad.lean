import Mathlib.Data.List.Induction
import MetricRelay.Fetch.Error
import MetricRelay.Proofs.SingleFlight.Traffic

/-!
# One load for each key

What the moves of a run of calls tell of where the calls stand, and what the
calls for one key do when no other key is asked for. Main result: for each key
one loader at a time runs and at most one ever completes, and its result is
what every call for that key returns.
-/

namespace MetricRelay.SingleFlight

variable {ν : Type}

/-! ### What the moves tell of the calls -/

section Moves

variable {key : Nat → String} {t t' : Traffic ν} {m : Move ν} {moves : List (Move ν)}

/-- Only the call that moves changes, which was still live, and only the cell of its key. -/
theorem Step.apart (h : Step key t m t') :
    (t.calls m.caller).Live ∧ (∀ c, c ≠ m.caller → t'.calls c = t.calls c) ∧
      ∀ k, k ≠ key m.caller → t'.flight.cell? k = t.flight.cell? k := by
  cases h with
  | openCell caller hstage =>
    exact ⟨Or.inl hstage, fun c hne => Function.update_of_ne hne .., fun _ _ => rfl⟩
  | look caller hword =>
    refine ⟨?_, fun c hne => Function.update_of_ne hne .., fun k hk => Traffic.look?_apart hword hk⟩
    rcases Traffic.look?_stage hword with hstage | hstage
    · exact Or.inr (Or.inl hstage)
    · exact Or.inr (Or.inr (Or.inl hstage))
  | finish caller value hstage =>
    exact ⟨Or.inr (Or.inr (Or.inr hstage)), fun c hne => Function.update_of_ne hne ..,
      fun k hk => complete_apart hk value⟩
  | drop caller hlive =>
    exact ⟨hlive, fun c hne => Function.update_of_ne hne .., fun k hk => Traffic.leave_apart hk⟩

theorem loads_complete (f : SingleFlight ν) (k : String) (value : ν) :
    (f.complete k value).2.loads = f.loads := by
  rw [complete]
  split <;> rfl

theorem loads_abandon (f : SingleFlight ν) (k : String) (caller : Nat) :
    (f.abandon k caller).2.loads = f.loads := by
  rw [abandon]
  split
  · split
    · split <;> rfl
    · rfl
  · rfl

theorem loads_step (h : Step key t m t') :
    t'.flight.loads = t.flight.loads + [m].countP Move.isLoad := by
  cases h with
  | openCell caller hstage => rfl
  | look caller hword =>
    obtain ⟨value, -, rfl, rfl⟩ | ⟨-, -, rfl, rfl⟩ | ⟨loader, line, -, -, rfl, rfl⟩ |
      ⟨line, -, -, rfl, rfl⟩ | ⟨-, rfl, rfl⟩ := Traffic.look?_cases hword <;> rfl
  | finish caller value hstage => exact loads_complete ..
  | drop caller hlive =>
    change (t.leave key caller).loads = _
    rw [Traffic.leave]
    split
    · exact loads_abandon ..
    · exact loads_abandon ..
    · rfl

/-- The moves so far, and where the calls stand. -/
structure Recorded (moves : List (Move ν)) (t : Traffic ν) : Prop where
  loads : t.flight.loads = moves.countP Move.isLoad
  started : ∀ c, .look c .load ∈ moves →
    t.calls c = .loading ∨ (∃ v, t.calls c = .loaded v) ∨ .drop c ∈ moves
  finished : ∀ c v, .finish c v ∈ moves ↔ t.calls c = .loaded v

namespace Recorded

/-- A load that is neither under way nor over was dropped. -/
theorem dropped (h : Recorded moves t) {c : Nat} (hload : .look c .load ∈ moves)
    (hidle : t.calls c ≠ .loading) (hpending : (t.calls c).result? = none) : .drop c ∈ moves := by
  rcases h.started c hload with hloading | ⟨v, hloaded⟩ | hdrop
  · exact absurd hloading hidle
  · rw [hloaded] at hpending
    cases hpending
  · exact hdrop

theorem step (h : Recorded moves t) (hstep : Step key t m t') : Recorded (moves ++ [m]) t' := by
  obtain ⟨hlive, hapart, -⟩ := hstep.apart
  refine ⟨?_, fun c hload => ?_, fun c v => ?_⟩
  · rw [loads_step hstep, h.loads, List.countP_append]
  · rw [List.mem_append, List.mem_singleton] at hload
    by_cases hc : c = m.caller
    · subst hc
      cases hstep with
      | openCell caller hstage =>
        have hold := h.dropped (hload.resolve_right (by rintro ⟨⟩)) (by simp [Move.caller, hstage])
          (by simp [Move.caller, hstage, Stage.result?])
        exact Or.inr (Or.inr (List.mem_append_left _ hold))
      | look caller hword =>
        rcases hload with hold | hnew
        · have hidle : t.calls caller ≠ .loading := by
            rcases Traffic.look?_stage hword with hstage | hstage <;> simp [hstage]
          have hdrop := h.dropped hold hidle (Traffic.result?_of_look? hword)
          exact Or.inr (Or.inr (List.mem_append_left _ hdrop))
        · cases hnew
          exact Or.inl (Function.update_self ..)
      | finish caller value hstage => exact Or.inr (Or.inl ⟨value, Function.update_self ..⟩)
      | drop caller hlive => exact Or.inr (Or.inr (by simp [Move.caller]))
    · rw [hapart c hc]
      rcases h.started c (hload.resolve_right (by rintro rfl; exact hc rfl)) with
        hloading | hloaded | hdrop
      · exact Or.inl hloading
      · exact Or.inr (Or.inl hloaded)
      · exact Or.inr (Or.inr (List.mem_append_left _ hdrop))
  · rw [List.mem_append, List.mem_singleton, h.finished]
    by_cases hc : c = m.caller
    · subst hc
      have hold : t.calls m.caller ≠ .loaded v := by
        rcases hlive with hstage | hstage | hstage | hstage <;> rw [hstage] <;> rintro ⟨⟩
      rw [or_iff_right hold]
      cases hstep with
      | openCell caller hstage => simp [Traffic.put, Move.caller]
      | @look found flight caller hword =>
        cases found <;> simp [Traffic.put, Move.caller, Entry.stage]
      | finish caller value hstage => simp [Traffic.put, Move.caller, eq_comm]
      | drop caller hlive => simp [Traffic.put, Move.caller]
    · rw [hapart c hc]
      exact or_iff_left (by rintro rfl; exact hc rfl)

end Recorded

/-! ### Whole runs -/

namespace Run

theorem orderly (h : Run key moves t) : t.Orderly key := by
  induction h with
  | start =>
    intro k c _
    exact ⟨by simp [Stage.Queued], rfl⟩
  | step _ hstep ih => exact ih.step hstep

theorem recorded (h : Run key moves t) : Recorded moves t := by
  induction h with
  | start => exact ⟨rfl, by simp, by simp⟩
  | step _ hstep ih => exact ih.step hstep

/-- The last move of a run. -/
theorem last (h : Run key (moves ++ [m]) t') : ∃ t, Run key moves t ∧ Step key t m t' := by
  generalize hall : moves ++ [m] = all at h
  cases h with
  | start => simp at hall
  | step hrun hstep =>
    obtain ⟨rfl, hlast⟩ := List.append_inj' hall rfl
    cases hlast
    exact ⟨_, hrun, hstep⟩

/-- The first moves of a run are a run. -/
theorem of_append {before : List (Move ν)} (after : List (Move ν))
    (h : Run key (before ++ after) t) : ∃ t₀, Run key before t₀ := by
  induction after using List.reverseRecOn generalizing t with
  | nil => exact ⟨t, by simpa using h⟩
  | append_singleton after m ih =>
    rw [← List.append_assoc] at h
    obtain ⟨t₁, hrun, -⟩ := h.last
    exact ih hrun

/-- Who returned, returned what the loader for its key has loaded. -/
theorem exists_finish (h : Run key moves t) {c : Nat} {v : ν}
    (hresult : (t.calls c).result? = some v) : ∃ a, key a = key c ∧ .finish a v ∈ moves := by
  have hfits := h.orderly (key c)
  cases hcell : t.flight.cell? (key c) with
  | none =>
    rw [hcell] at hfits
    rw [(hfits c rfl).2] at hresult
    cases hresult
  | some cell =>
    rw [hcell] at hfits
    cases cell with
    | loading loader line =>
      rw [Underway.pending hfits c rfl] at hresult
      cases hresult
    | ready value =>
      obtain rfl := Settled.returned hfits c v rfl hresult
      obtain ⟨a, ha, hloaded⟩ := Settled.loaded hfits
      exact ⟨a, ha, (h.recorded.finished a v).mpr hloaded⟩

/-- Nobody has returned for the key of a load that starts, and nobody loads for it. -/
theorem nobody_of_load (h : Run key moves t) {c : Nat} {flight : SingleFlight ν}
    (hlook : t.look? key c = some (.load, flight)) {a : Nat} (hkey : key a = key c) :
    t.calls a ≠ .loading ∧ (t.calls a).result? = none := by
  have hfits := h.orderly (key c)
  obtain ⟨value, -, hfound, -⟩ | ⟨-, hcell, -, -⟩ | ⟨loader, line, -, -, hfound, -⟩ |
    ⟨line, hstage, hcell, -, -⟩ | ⟨-, hfound, -⟩ := Traffic.look?_cases hlook
  · cases hfound
  · rw [hcell] at hfits
    exact ⟨fun hloading => (hfits a hkey).1 (Or.inr hloading), (hfits a hkey).2⟩
  · cases hfound
  · rw [hcell] at hfits
    refine ⟨fun hloading => ?_, Underway.pending hfits a hkey⟩
    obtain rfl := Underway.loads hfits a hkey hloading
    cases hstage.symm.trans hloading
  · cases hfound

/-- At most one loader for a key completes. -/
theorem finishes_le_one (h : Run key moves t) (k : String) :
    moves.countP (Move.finishes key k) ≤ 1 := by
  induction h with
  | start => simp
  | @step moves t t' m hrun hstep ih =>
    rw [List.countP_append]
    by_cases hfinishes : m.finishes key k = true
    · have hnone : moves.countP (Move.finishes key k) = 0 := by
        rw [List.countP_eq_zero]
        intro m' hm' hother
        cases hstep with
        | finish caller value hstage =>
          cases m' with
          | finish a v =>
            have hkey : key a = key caller :=
              (eq_of_beq hother).trans (eq_of_beq hfinishes).symm
            obtain ⟨line, -, hunder⟩ := hrun.orderly.cell_of_loading hstage
            have hpending := hunder.pending a hkey
            rw [(hrun.recorded.finished a v).mp hm'] at hpending
            cases hpending
          | _ => cases hother
        | _ => cases hfinishes
      simp [hnone, hfinishes]
    · rw [List.countP_singleton, if_neg hfinishes]
      exact ih

/-- A loader starts only if none has completed and all earlier ones were dropped. -/
theorem dropped_before (h : Run key moves t) {before after : List (Move ν)} {c : Nat}
    (hmoves : moves = before ++ .look c .load :: after) {a : Nat} (hkey : key a = key c) :
    (.look a .load ∈ before → .drop a ∈ before) ∧ ∀ v, .finish a v ∉ before := by
  have hall : moves = (before ++ [.look c .load]) ++ after := by simp [hmoves]
  obtain ⟨t₁, hrun⟩ := of_append after (hall ▸ h)
  obtain ⟨t₀, hbefore, hstep⟩ := hrun.last
  cases hstep with
  | look _ hword =>
    obtain ⟨hidle, hpending⟩ := hbefore.nobody_of_load hword hkey
    refine ⟨fun hload => hbefore.recorded.dropped hload hidle hpending, fun v hfinish => ?_⟩
    rw [(hbefore.recorded.finished a v).mp hfinish] at hpending
    cases hpending

/-- A call in line can go on, or one that it waits for can, or the load is under way. -/
theorem not_stuck (h : Run key moves t) {c : Nat} (hstage : t.calls c = .inLine) :
    ∃ a, key a = key c ∧ (t.calls a = .loading ∨
      ∃ found flight, t.look? key a = some (found, flight) ∧ found ≠ .wait) := by
  have hfits := h.orderly (key c)
  cases hcell : t.flight.cell? (key c) with
  | none =>
    rw [hcell] at hfits
    exact absurd (Or.inl hstage) (hfits c rfl).1
  | some cell =>
    rw [hcell] at hfits
    cases cell with
    | loading loader line =>
      obtain ⟨hkey, hqueued⟩ := (Underway.waits hfits loader).mp List.mem_cons_self
      refine ⟨loader, hkey, ?_⟩
      rcases hqueued with hline | hloading
      · refine Or.inr ⟨.load, t.flight.startLoad, ?_, by rintro ⟨⟩⟩
        simp [Traffic.look?, hline, resume, hkey, hcell]
      · exact Or.inl hloading
    | ready value =>
      refine ⟨c, rfl, Or.inr ⟨.take value, t.flight, ?_, by rintro ⟨⟩⟩⟩
      simp [Traffic.look?, hstage, resume, hcell]

end Run

/-! ### The calls for one key alone -/

/-- Two flights are the same under a key, and so are the calls for it. -/
structure Alike (key : Nat → String) (k : String) (t s : Traffic ν) : Prop where
  cell : s.flight.cell? k = t.flight.cell? k
  calls : ∀ c, key c = k → s.calls c = t.calls c

namespace Alike

variable {k : String} {s : Traffic ν}

theorem put (h : Alike key k t s) {f g : SingleFlight ν} (hcell : g.cell? k = f.cell? k)
    (caller : Nat) (stage : Stage ν) :
    Alike key k (t.put f caller stage) (s.put g caller stage) where
  cell := hcell
  calls := by
    intro c hc
    simp only [Traffic.put, Function.update_apply, h.calls c hc]

/-- A call for the key makes the same move in both. -/
theorem step (h : Alike key k t s) (hkey : key m.caller = k) (hstep : Step key t m t') :
    ∃ s', Step key s m s' ∧ Alike key k t' s' := by
  subst hkey
  have hstage := h.calls m.caller rfl
  cases hstep with
  | openCell caller hfresh =>
    exact ⟨_, .openCell caller (hstage.trans hfresh), h.put h.cell caller .opened⟩
  | look caller hword =>
    obtain ⟨flight', hsame, hcell⟩ := Traffic.look?_congr hstage h.cell hword
    exact ⟨_, .look caller hsame, h.put hcell caller _⟩
  | finish caller value hloading =>
    refine ⟨_, .finish caller value (hstage.trans hloading), h.put ?_ caller _⟩
    rw [complete_cell?, complete_cell?]
    exact (cell?_put ..).trans (cell?_put ..).symm
  | drop caller hlive =>
    exact ⟨_, .drop caller (hstage ▸ hlive), h.put (Traffic.leave_congr hstage h.cell) caller _⟩

/-- A call for another key changes nothing under this one. -/
theorem skip (h : Alike key k t s) (hkey : key m.caller ≠ k) (hstep : Step key t m t') :
    Alike key k t' s := by
  obtain ⟨-, hcalls, hcells⟩ := hstep.apart
  refine ⟨h.cell.trans (hcells k (Ne.symm hkey)).symm, fun c hc => ?_⟩
  refine (h.calls c hc).trans (hcalls c ?_).symm
  rintro rfl
  exact hkey hc

end Alike

namespace Run

/-- What happens under a key is what would happen if no other key were asked for. -/
theorem alone (h : Run key moves t) (k : String) :
    ∃ s, Run key (moves.filter fun m => key m.caller = k) s ∧ Alike key k t s := by
  induction h with
  | start => exact ⟨{}, .start, rfl, fun _ _ => rfl⟩
  | @step moves t t' m _ hstep ih =>
    obtain ⟨s, hrun, halike⟩ := ih
    by_cases hkey : key m.caller = k
    · obtain ⟨s', hsame, halike'⟩ := halike.step hkey hstep
      refine ⟨s', ?_, halike'⟩
      rw [List.filter_append, List.filter_singleton, decide_eq_true hkey]
      exact hrun.step hsame
    · refine ⟨s, ?_, halike.skip hkey hstep⟩
      rw [List.filter_append, List.filter_singleton, decide_eq_false hkey]
      simpa using hrun

/-- One load for each key: at most one loader at a time and at most one that completes, a new one
only after all before it were dropped, its result for all who ask for that key, and for nobody
else. -/
theorem one_load (h : Run key moves t) :
    (∀ a b, key a = key b → t.calls a = .loading → t.calls b = .loading → a = b) ∧
    (∀ k, moves.countP (Move.finishes key k) ≤ 1) ∧
    (∀ c v, (t.calls c).result? = some v → ∃ a, key a = key c ∧ .finish a v ∈ moves) ∧
    (∀ before c after, moves = before ++ .look c .load :: after → ∀ a, key a = key c →
      (.look a .load ∈ before → .drop a ∈ before) ∧ ∀ v, .finish a v ∉ before) ∧
    t.flight.loads = moves.countP Move.isLoad ∧
    (∀ k, ∃ s, Run key (moves.filter fun m => key m.caller = k) s ∧
      s.flight.cell? k = t.flight.cell? k ∧ ∀ c, key c = k → s.calls c = t.calls c) ∧
    (∀ c, t.calls c = .inLine → ∃ a, key a = key c ∧ (t.calls a = .loading ∨
      ∃ found flight, t.look? key a = some (found, flight) ∧ found ≠ .wait)) := by
  refine ⟨fun a b hkey ha hb => ?_, h.finishes_le_one, fun c v => h.exists_finish,
    fun before c after hmoves a => h.dropped_before hmoves, h.recorded.loads, fun k => ?_,
    fun c => h.not_stuck⟩
  · obtain ⟨line, -, hunder⟩ := h.orderly.cell_of_loading hb
    exact hunder.loads a hkey ha
  · obtain ⟨s, hrun, halike⟩ := h.alone k
    exact ⟨s, hrun, halike.cell, halike.calls⟩

end Run

end Moves

/-! ### A load that is handed over -/

def sharedKey (caller : Nat) : String := if caller < 3 then "a" else "b"

/-- Call 0 is dropped while call 1 is in line, and call 2 comes after call 1 has failed. -/
def handedMoves : List (Move (Except FetchError Nat)) :=
  [.openCell 0, .look 0 .load, .openCell 1, .look 1 .wait, .openCell 3, .look 3 .load, .drop 0,
    .look 1 .load, .finish 1 (.error .cancelled), .openCell 2, .look 2 (.take (.error .cancelled)),
    .finish 3 (.ok 7)]

theorem run_handedMoves : ∃ t, Run sharedKey handedMoves t ∧
    (t.calls 2).result? = some (.error .cancelled) := by
  have h₁ := (Run.start : Run sharedKey ([] : List (Move (Except FetchError Nat))) {}).step
    (.openCell 0 rfl)
  have h₂ := (h₁.step (.look 0 rfl)).step (.openCell 1 rfl)
  have h₃ := (h₂.step (.look 1 rfl)).step (.openCell 3 rfl)
  have h₄ := (h₃.step (.look 3 rfl)).step (.drop 0 (Or.inr (Or.inr (Or.inr rfl))))
  have h₅ := (h₄.step (.look 1 rfl)).step (.finish 1 (.error .cancelled) rfl)
  have h₆ := (h₅.step (.openCell 2 rfl)).step (.look 2 rfl)
  have h₇ := h₆.step (.finish 3 (Except.ok 7) rfl)
  exact ⟨_, h₇, rfl⟩

theorem one_load_handed : ∃ t, Run sharedKey handedMoves t ∧ t.flight.loads = 3 ∧
    (∃ a, sharedKey a = sharedKey 2 ∧ .finish a (.error .cancelled) ∈ handedMoves) ∧
    ∀ k, handedMoves.countP (Move.finishes sharedKey k) ≤ 1 := by
  obtain ⟨t, h, hresult⟩ := run_handedMoves
  obtain ⟨-, hone, hshared, -, hloads, -, -⟩ := Run.one_load h
  exact ⟨t, h, hloads, hshared 2 _ hresult, hone⟩

end MetricRelay.SingleFlight
