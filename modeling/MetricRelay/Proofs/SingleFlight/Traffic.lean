import Mathlib.Data.List.Basic
import MetricRelay.Proofs.Keyed
import MetricRelay.Proofs.SingleFlight

/-!
# Calls on one single flight

Any number of calls ask for results under any keys, side by side. A call may be
overtaken or dropped between any two of its moves: before it has the cell of
its key, before it looks into the cell, while it stands in line and while it
loads. A result stands for good or bad alike.
-/

namespace MetricRelay.SingleFlight

variable {ν : Type}

inductive Stage (ν : Type) where
  | fresh
  /-- It has the cell of its key and has not looked into it. -/
  | opened
  | inLine
  | loading
  /-- It returned what it had loaded. -/
  | loaded (value : ν)
  /-- It returned what another call had loaded. -/
  | took (value : ν)
  | dropped

namespace Stage

/-- A call has its place in a cell. -/
def Queued (stage : Stage ν) : Prop := stage = .inLine ∨ stage = .loading

/-- A call has neither returned nor been dropped. -/
def Live (stage : Stage ν) : Prop := stage = .fresh ∨ stage = .opened ∨ stage.Queued

def result? : Stage ν → Option ν
  | .loaded value => some value
  | .took value => some value
  | _ => none

end Stage

/-- Where the word of a cell brings a call. -/
def Entry.stage : Entry ν → Stage ν
  | .take value => .took value
  | .load => .loading
  | .wait => .inLine

structure Traffic (ν : Type) where
  flight : SingleFlight ν := {}
  calls : Nat → Stage ν := fun _ => .fresh

namespace Traffic

def put (t : Traffic ν) (flight : SingleFlight ν) (caller : Nat) (stage : Stage ν) : Traffic ν :=
  ⟨flight, Function.update t.calls caller stage⟩

/-- A call looks into the cell of its key, for the first time or from the line. -/
def look? (key : Nat → String) (t : Traffic ν) (caller : Nat) :
    Option (Entry ν × SingleFlight ν) :=
  match t.calls caller with
  | .opened => some (t.flight.enter (key caller) caller)
  | .inLine => some (t.flight.resume (key caller) caller)
  | _ => none

/-- What is left behind by a call that is dropped: its place in the cell goes to the next. -/
def leave (key : Nat → String) (t : Traffic ν) (caller : Nat) : SingleFlight ν :=
  match t.calls caller with
  | .inLine | .loading => (t.flight.abandon (key caller) caller).2
  | _ => t.flight

end Traffic

inductive Move (ν : Type) where
  | openCell (caller : Nat)
  | look (caller : Nat) (found : Entry ν)
  | finish (caller : Nat) (value : ν)
  | drop (caller : Nat)

namespace Move

def caller : Move ν → Nat
  | .openCell caller => caller
  | .look caller _ => caller
  | .finish caller _ => caller
  | .drop caller => caller

def isLoad : Move ν → Bool
  | .look _ .load => true
  | _ => false

def finishes (key : Nat → String) (k : String) : Move ν → Bool
  | .finish caller _ => key caller == k
  | _ => false

end Move

inductive Step (key : Nat → String) : Traffic ν → Move ν → Traffic ν → Prop
  | openCell {t : Traffic ν} (caller : Nat) (stage : t.calls caller = .fresh) :
      Step key t (.openCell caller) (t.put t.flight caller .opened)
  | look {t : Traffic ν} {found : Entry ν} {flight : SingleFlight ν} (caller : Nat)
      (word : t.look? key caller = some (found, flight)) :
      Step key t (.look caller found) (t.put flight caller found.stage)
  | finish {t : Traffic ν} (caller : Nat) (value : ν) (stage : t.calls caller = .loading) :
      Step key t (.finish caller value)
        (t.put (t.flight.complete (key caller) value).2 caller (.loaded value))
  | drop {t : Traffic ν} (caller : Nat) (live : (t.calls caller).Live) :
      Step key t (.drop caller) (t.put (t.leave key caller) caller .dropped)

/-- The moves of a run from the empty flight, and what they lead to. -/
inductive Run (key : Nat → String) : List (Move ν) → Traffic ν → Prop
  | start : Run key [] {}
  | step {moves : List (Move ν)} {t t' : Traffic ν} {m : Move ν} :
      Run key moves t → Step key t m t' → Run key (moves ++ [m]) t'

/-! ### One key apart from the others -/

section Apart

variable {f g : SingleFlight ν} {k other : String}

theorem enter_apart (caller : Nat) (h : other ≠ k) :
    (f.enter k caller).2.cell? other = f.cell? other := by
  rw [enter]
  split
  · exact cell?_put_of_ne f h _
  · exact cell?_put_of_ne f h _
  · rfl

theorem resume_cell? (caller : Nat) :
    (f.resume k caller).2.cell? other = f.cell? other := by
  rw [resume]
  split
  · rfl
  · split <;> rfl
  · rfl

theorem complete_cell? (value : ν) :
    (f.complete k value).2.cell? other = (f.put k (.ready value)).cell? other := by
  rw [complete]
  split <;> rfl

theorem complete_apart (h : other ≠ k) (value : ν) :
    (f.complete k value).2.cell? other = f.cell? other := by
  rw [complete_cell?, cell?_put_of_ne f h]

theorem abandon_apart (caller : Nat) (h : other ≠ k) :
    (f.abandon k caller).2.cell? other = f.cell? other := by
  rw [abandon]
  split
  · split
    · split
      · exact cell?_drop_of_ne f h
      · exact cell?_put_of_ne f h _
    · exact cell?_put_of_ne f h _
  · rfl

/-- What a cell tells a call, and what becomes of the cell, hangs on that cell alone. -/
theorem enter_congr (caller : Nat) (h : f.cell? k = g.cell? k) :
    (f.enter k caller).1 = (g.enter k caller).1 ∧
      (f.enter k caller).2.cell? k = (g.enter k caller).2.cell? k := by
  rw [enter, enter, h]
  cases hcell : g.cell? k with
  | none => exact ⟨rfl, by simp [cell?_put]⟩
  | some c =>
    cases c with
    | loading loader line => exact ⟨rfl, by simp [cell?_put]⟩
    | ready value => exact ⟨rfl, h⟩

theorem resume_congr (caller : Nat) (h : f.cell? k = g.cell? k) :
    (f.resume k caller).1 = (g.resume k caller).1 ∧
      (f.resume k caller).2.cell? k = (g.resume k caller).2.cell? k := by
  refine ⟨?_, (resume_cell? caller).trans (h.trans (resume_cell? caller).symm)⟩
  rw [resume, resume, h]
  split
  · rfl
  · split <;> rfl
  · rfl

theorem abandon_congr (caller : Nat) (h : f.cell? k = g.cell? k) :
    (f.abandon k caller).2.cell? k = (g.abandon k caller).2.cell? k := by
  rw [abandon, abandon, h]
  split
  · split
    · split
      · rw [cell?_drop, cell?_drop]
      · rw [cell?_put, cell?_put]
    · rw [cell?_put, cell?_put]
  · exact h

end Apart

/-! ### What a cell tells of the calls for its key -/

section Cells

variable {key : Nat → String} {calls : Nat → Stage ν} {k : String} {caller loader : Nat}
  {line : List Nat} {stage : Stage ν} {value : ν}

/-- The loader and the calls in line are the calls that wait, and nobody has returned yet. -/
structure Underway (key : Nat → String) (calls : Nat → Stage ν) (k : String) (loader : Nat)
    (line : List Nat) : Prop where
  nodup : (loader :: line).Nodup
  waits : ∀ c, c ∈ loader :: line ↔ key c = k ∧ (calls c).Queued
  loads : ∀ c, key c = k → calls c = .loading → c = loader
  pending : ∀ c, key c = k → (calls c).result? = none

/-- Some call has loaded the result, nobody loads any more, and whoever returned returned it. -/
structure Settled (key : Nat → String) (calls : Nat → Stage ν) (k : String) (value : ν) : Prop where
  loaded : ∃ c, key c = k ∧ calls c = .loaded value
  idle : ∀ c, key c = k → calls c ≠ .loading
  returned : ∀ c v, key c = k → (calls c).result? = some v → v = value

def Fits (key : Nat → String) (calls : Nat → Stage ν) (k : String) : Option (Cell ν) → Prop
  | none => ∀ c, key c = k → ¬ (calls c).Queued ∧ (calls c).result? = none
  | some (.loading loader line) => Underway key calls k loader line
  | some (.ready value) => Settled key calls k value

/-- Calls for other keys are none of the business of a cell. -/
theorem Fits.congr {calls' : Nat → Stage ν} {cell : Option (Cell ν)}
    (h : Fits key calls k cell) (hsame : ∀ c, key c = k → calls' c = calls c) :
    Fits key calls' k cell := by
  match cell, h with
  | none, h =>
    intro c hc
    rw [hsame c hc]
    exact h c hc
  | some (.loading loader line), h =>
    refine ⟨h.nodup, fun c => ?_, fun c hc => ?_, fun c hc => ?_⟩
    · rw [h.waits]
      exact and_congr_right fun hc => by rw [hsame c hc]
    · rw [hsame c hc]
      exact h.loads c hc
    · rw [hsame c hc]
      exact h.pending c hc
  | some (.ready value), h =>
    obtain ⟨a, ha, hloaded⟩ := h.loaded
    refine ⟨⟨a, ha, (hsame a ha).trans hloaded⟩, fun c hc => ?_, fun c v hc => ?_⟩
    · rw [hsame c hc]
      exact h.idle c hc
    · rw [hsame c hc]
      exact h.returned c v hc

/-- All but the call that moved are as a load under way has them, and so is that one now. -/
theorem underway_move (hkey : key caller = k) (hnodup : (loader :: line).Nodup)
    (hothers : ∀ c, c ≠ caller → (c ∈ loader :: line ↔ key c = k ∧ (calls c).Queued) ∧
      (key c = k → (calls c = .loading → c = loader) ∧ (calls c).result? = none))
    (hmoved : caller ∈ loader :: line ↔ stage.Queued) (hloads : stage = .loading → caller = loader)
    (hresult : stage.result? = none) :
    Underway key (Function.update calls caller stage) k loader line := by
  refine ⟨hnodup, fun c => ?_, fun c hc hloading => ?_, fun c hc => ?_⟩
  · obtain ⟨rfl, heq⟩ | ⟨hne, heq⟩ := Keyed.update_cases calls caller stage c
    · rw [heq, hmoved]
      exact ⟨fun hqueued => ⟨hkey, hqueued⟩, And.right⟩
    · rw [heq]
      exact (hothers c hne).1
  · obtain ⟨rfl, heq⟩ | ⟨hne, heq⟩ := Keyed.update_cases calls caller stage c
    · exact hloads (heq.symm.trans hloading)
    · exact ((hothers c hne).2 hc).1 (heq.symm.trans hloading)
  · obtain ⟨-, heq⟩ | ⟨hne, heq⟩ := Keyed.update_cases calls caller stage c
    · rwa [heq]
    · rw [heq]
      exact ((hothers c hne).2 hc).2

/-- The first call for a key loads. -/
theorem underway_first (h : Fits key calls k none) (hkey : key caller = k) :
    Underway key (Function.update calls caller .loading) k caller [] := by
  refine underway_move hkey (List.nodup_singleton caller) (fun c hne => ⟨?_, fun hc => ?_⟩)
    (by simp [Stage.Queued]) (fun _ => rfl) rfl
  · rw [List.mem_singleton]
    exact ⟨fun heq => absurd heq hne, fun hqueued => absurd hqueued.2 (h c hqueued.1).1⟩
  · exact ⟨fun hloading => absurd (Or.inr hloading) (h c hc).1, (h c hc).2⟩

namespace Underway

/-- A call gets in line. -/
theorem lineUp (h : Underway key calls k loader line) (hkey : key caller = k)
    (hold : ¬ (calls caller).Queued) :
    Underway key (Function.update calls caller .inLine) k loader (line ++ [caller]) := by
  have hmem : ∀ c, c ∈ loader :: (line ++ [caller]) ↔ c ∈ loader :: line ∨ c = caller := by
    intro c
    simp [or_assoc]
  have hnodup : (loader :: (line ++ [caller])).Nodup := by
    rw [← List.cons_append, List.nodup_append]
    refine ⟨h.nodup, List.nodup_singleton caller, fun a ha b hb hab => hold ?_⟩
    rw [← List.mem_singleton.mp hb, ← hab]
    exact ((h.waits a).mp ha).2
  refine underway_move hkey hnodup (fun c hne => ⟨?_, fun hc => ⟨h.loads c hc, h.pending c hc⟩⟩)
    ?_ (by rintro ⟨⟩) rfl
  · rw [hmem, ← h.waits]
    exact or_iff_left hne
  · exact iff_of_true ((hmem caller).mpr (Or.inr rfl)) (Or.inl rfl)

/-- The call whose turn it is to load starts to. -/
theorem begin (h : Underway key calls k loader line) :
    Underway key (Function.update calls loader .loading) k loader line :=
  underway_move ((h.waits loader).mp List.mem_cons_self).1 h.nodup
    (fun c _ => ⟨h.waits c, fun hc => ⟨h.loads c hc, h.pending c hc⟩⟩)
    (iff_of_true List.mem_cons_self (Or.inr rfl)) (fun _ => rfl) rfl

/-- The loader returns what it has loaded. -/
theorem settle (h : Underway key calls k loader line) (value : ν) :
    Settled key (Function.update calls loader (.loaded value)) k value := by
  have hkey : key loader = k := ((h.waits loader).mp List.mem_cons_self).1
  refine ⟨⟨loader, hkey, Function.update_self ..⟩, fun c hc hloads => ?_, fun c v hc hv => ?_⟩
  · obtain ⟨-, heq⟩ | ⟨hne, heq⟩ := Keyed.update_cases calls loader (.loaded value) c
    · cases heq.symm.trans hloads
    · exact hne (h.loads c hc (heq.symm.trans hloads))
  · obtain ⟨-, heq⟩ | ⟨-, heq⟩ := Keyed.update_cases calls loader (.loaded value) c
    · rw [heq] at hv
      exact (Option.some.inj hv).symm
    · rw [heq, h.pending c hc] at hv
      cases hv

/-- Without the call that is dropped the others wait on, behind the loader or behind who takes its
place. -/
theorem without (h : Underway key calls k loader line) (hkey : key caller = k) {next : Nat}
    {rest : List Nat} (hnodup : (next :: rest).Nodup)
    (hmem : ∀ c, c ∈ next :: rest ↔ c ∈ loader :: line ∧ c ≠ caller)
    (hnext : next = loader ∨ caller = loader) :
    Underway key (Function.update calls caller .dropped) k next rest := by
  refine underway_move hkey hnodup
    (fun c hne => ⟨?_, fun hc => ⟨fun hloading => ?_, h.pending c hc⟩⟩)
    ?_ (by rintro ⟨⟩) rfl
  · rw [hmem, ← h.waits]
    exact and_iff_left hne
  · have hloader := h.loads c hc hloading
    rcases hnext with rfl | rfl
    · exact hloader
    · exact absurd hloader hne
  · rw [hmem]
    exact iff_of_false (fun hboth => hboth.2 rfl) (by simp [Stage.Queued])

/-- When the loader is dropped, the first in line loads in its place; without a line the cell is
empty again. -/
theorem handOver (h : Underway key calls k loader line) :
    Fits key (Function.update calls loader .dropped) k
      (line.head?.map fun next => .loading next line.tail) := by
  have hkey : key loader = k := ((h.waits loader).mp List.mem_cons_self).1
  have hnodup := List.nodup_cons.mp h.nodup
  cases line with
  | nil =>
    intro c hc
    obtain ⟨-, heq⟩ | ⟨hne, heq⟩ := Keyed.update_cases calls loader .dropped c
    · rw [heq]
      exact ⟨by simp [Stage.Queued], rfl⟩
    · rw [heq]
      exact ⟨fun hother => hne (List.mem_singleton.mp ((h.waits c).mpr ⟨hc, hother⟩)),
        h.pending c hc⟩
  | cons next rest =>
    refine h.without hkey hnodup.2 (fun c => ?_) (Or.inr rfl)
    rw [List.mem_cons (b := loader)]
    exact ⟨fun hmem => ⟨Or.inr hmem, fun heq => hnodup.1 (heq ▸ hmem)⟩,
      fun hboth => hboth.1.resolve_left hboth.2⟩

/-- A call leaves the line. -/
theorem leaveLine (h : Underway key calls k loader line) (hkey : key caller = k)
    (hne : loader ≠ caller) :
    Underway key (Function.update calls caller .dropped) k loader (line.filter (· != caller)) := by
  refine h.without hkey (h.nodup.sublist (List.filter_sublist.cons_cons loader)) (fun c => ?_)
    (Or.inl rfl)
  simp only [List.mem_cons, List.mem_filter, bne_iff_ne]
  constructor
  · rintro (rfl | hmem)
    · exact ⟨Or.inl rfl, hne⟩
    · exact ⟨Or.inr hmem.1, hmem.2⟩
  · rintro ⟨rfl | hmem, hother⟩
    · exact Or.inl rfl
    · exact Or.inr ⟨hmem, hother⟩

theorem abandon (h : Underway key calls k loader line) (hkey : key caller = k)
    {f : SingleFlight ν} (hcell : f.cell? k = some (.loading loader line)) :
    Fits key (Function.update calls caller .dropped) k ((f.abandon k caller).2.cell? k) := by
  rw [SingleFlight.abandon, hcell]
  by_cases hloader : loader = caller
  · subst hloader
    have hover := h.handOver
    cases line with
    | nil =>
      simp only [if_true, cell?_drop]
      exact hover
    | cons next rest =>
      simp only [if_true, cell?_put]
      exact hover
  · simp only [if_neg hloader, cell?_put]
    exact h.leaveLine hkey hloader

end Underway

/-- A call that had not returned, and does not load, returns the settled result or none. -/
theorem Settled.move (h : Settled key calls k value) (hold : (calls caller).result? = none)
    (hnew : stage ≠ .loading) (hresult : ∀ v, stage.result? = some v → v = value) :
    Settled key (Function.update calls caller stage) k value := by
  obtain ⟨a, ha, hloaded⟩ := h.loaded
  have hne : a ≠ caller := by
    rintro rfl
    rw [hloaded] at hold
    cases hold
  refine ⟨⟨a, ha, (Function.update_of_ne hne ..).trans hloaded⟩, fun c hc => ?_,
    fun c v hc hv => ?_⟩
  · obtain ⟨-, heq⟩ | ⟨-, heq⟩ := Keyed.update_cases calls caller stage c
    · rwa [heq]
    · rw [heq]
      exact h.idle c hc
  · obtain ⟨-, heq⟩ | ⟨-, heq⟩ := Keyed.update_cases calls caller stage c
    · exact hresult v (heq ▸ hv)
    · exact h.returned c v hc (heq ▸ hv)

/-- A call that no cell knows goes on unknown. -/
theorem Fits.pass {cell : Option (Cell ν)} (h : Fits key calls k cell) (hkey : key caller = k)
    (hold : ¬ (calls caller).Queued) (hnone : (calls caller).result? = none)
    (hnew : ¬ stage.Queued) (hresult : stage.result? = none) :
    Fits key (Function.update calls caller stage) k cell := by
  match cell, h with
  | none, h =>
    intro c hc
    obtain ⟨-, heq⟩ | ⟨-, heq⟩ := Keyed.update_cases calls caller stage c
    · rw [heq]
      exact ⟨hnew, hresult⟩
    · rw [heq]
      exact h c hc
  | some (.loading loader line), h =>
    refine underway_move hkey h.nodup
      (fun c _ => ⟨h.waits c, fun hc => ⟨h.loads c hc, h.pending c hc⟩⟩)
      (iff_of_false (fun hmem => hold ((h.waits caller).mp hmem).2) hnew)
      (fun hloading => absurd (Or.inr hloading) hnew) hresult
  | some (.ready value), h =>
    refine Settled.move h hnone (fun hloading => hnew (Or.inr hloading)) fun v hv => ?_
    rw [hresult] at hv
    cases hv

end Cells

namespace Traffic

variable {key : Nat → String} {t t' : Traffic ν} {caller : Nat} {stage : Stage ν}
  {flight : SingleFlight ν} {found : Entry ν} {m : Move ν}

/-- Every cell tells the truth about the calls for its key. -/
def Orderly (key : Nat → String) (t : Traffic ν) : Prop :=
  ∀ k, Fits key t.calls k (t.flight.cell? k)

/-- What a look leads to: the first call for a key loads, a call gets in line, the first in line
takes over a load, another waits on, or the result is there. -/
theorem look?_cases (h : t.look? key caller = some (found, flight)) :
    (∃ value, t.flight.Ready (key caller) value ∧ found = .take value ∧ flight = t.flight) ∨
    (t.calls caller = .opened ∧ t.flight.cell? (key caller) = none ∧ found = .load ∧
      flight = (t.flight.put (key caller) (.loading caller [])).startLoad) ∨
    (∃ loader line, t.calls caller = .opened ∧
      t.flight.cell? (key caller) = some (.loading loader line) ∧ found = .wait ∧
      flight = t.flight.put (key caller) (.loading loader (line ++ [caller]))) ∨
    (∃ line, t.calls caller = .inLine ∧
      t.flight.cell? (key caller) = some (.loading caller line) ∧ found = .load ∧
      flight = t.flight.startLoad) ∨
    (t.calls caller = .inLine ∧ found = .wait ∧ flight = t.flight) := by
  rw [look?] at h
  split at h
  · next hstage =>
    rw [enter] at h
    split at h
    · next hcell =>
      cases h
      exact Or.inr (Or.inl ⟨hstage, hcell, rfl, rfl⟩)
    · next loader line hcell =>
      cases h
      exact Or.inr (Or.inr (Or.inl ⟨loader, line, hstage, hcell, rfl, rfl⟩))
    · next value hcell =>
      cases h
      exact Or.inl ⟨value, hcell, rfl, rfl⟩
  · next hstage =>
    rw [resume] at h
    split at h
    · next value hcell =>
      cases h
      exact Or.inl ⟨value, hcell, rfl, rfl⟩
    · next loader line hcell =>
      split at h
      · next heq =>
        subst heq
        cases h
        exact Or.inr (Or.inr (Or.inr (Or.inl ⟨line, hstage, hcell, rfl, rfl⟩)))
      · cases h
        exact Or.inr (Or.inr (Or.inr (Or.inr ⟨hstage, rfl, rfl⟩)))
    · cases h
      exact Or.inr (Or.inr (Or.inr (Or.inr ⟨hstage, rfl, rfl⟩)))
  · cases h

theorem look?_stage (h : t.look? key caller = some (found, flight)) :
    t.calls caller = .opened ∨ t.calls caller = .inLine := by
  rw [look?] at h
  split at h
  · next hstage => exact Or.inl hstage
  · next hstage => exact Or.inr hstage
  · cases h

/-- A call that looks has not returned. -/
theorem result?_of_look? (h : t.look? key caller = some (found, flight)) :
    (t.calls caller).result? = none := by
  rcases look?_stage h with hstage | hstage <;> rw [hstage] <;> rfl

/-- A look changes the cell of its own key only. -/
theorem look?_apart (h : t.look? key caller = some (found, flight)) {k : String}
    (hk : k ≠ key caller) : flight.cell? k = t.flight.cell? k := by
  rw [look?] at h
  split at h
  · rw [← enter_apart (f := t.flight) caller hk, Option.some.inj h]
  · rw [← resume_cell? (f := t.flight) (k := key caller) caller, Option.some.inj h]
  · cases h

/-- What a look finds, and what becomes of the cell, hangs on the call and on the cell alone. -/
theorem look?_congr {s : Traffic ν} (hstage : s.calls caller = t.calls caller)
    (hcell : s.flight.cell? (key caller) = t.flight.cell? (key caller))
    (h : t.look? key caller = some (found, flight)) :
    ∃ flight', s.look? key caller = some (found, flight') ∧
      flight'.cell? (key caller) = flight.cell? (key caller) := by
  rcases look?_stage h with hold | hold
  · have hboth := enter_congr caller hcell
    simp only [look?, hold, Option.some.injEq] at h
    rw [h] at hboth
    refine ⟨(s.flight.enter (key caller) caller).2, ?_, hboth.2⟩
    simp only [look?, hstage, hold]
    exact congrArg some (Prod.ext hboth.1 rfl)
  · have hboth := resume_congr caller hcell
    simp only [look?, hold, Option.some.injEq] at h
    rw [h] at hboth
    refine ⟨(s.flight.resume (key caller) caller).2, ?_, hboth.2⟩
    simp only [look?, hstage, hold]
    exact congrArg some (Prod.ext hboth.1 rfl)

theorem leave_apart {k : String} (hk : k ≠ key caller) :
    (t.leave key caller).cell? k = t.flight.cell? k := by
  rw [leave]
  split
  · exact abandon_apart caller hk
  · exact abandon_apart caller hk
  · rfl

theorem leave_congr {s : Traffic ν} (hstage : s.calls caller = t.calls caller)
    (hcell : s.flight.cell? (key caller) = t.flight.cell? (key caller)) :
    (s.leave key caller).cell? (key caller) = (t.leave key caller).cell? (key caller) := by
  rw [leave, leave, hstage]
  split
  · exact abandon_congr caller hcell
  · exact abandon_congr caller hcell
  · exact hcell

namespace Orderly

/-- A call that moves concerns the cell of its own key only. -/
theorem put (h : t.Orderly key)
    (hapart : ∀ k, k ≠ key caller → flight.cell? k = t.flight.cell? k)
    (hown : Fits key (Function.update t.calls caller stage) (key caller)
      (flight.cell? (key caller))) :
    (t.put flight caller stage).Orderly key := by
  intro k
  by_cases hk : k = key caller
  · subst hk
    exact hown
  · rw [Traffic.put, hapart k hk]
    refine (h k).congr fun c hc => Function.update_of_ne ?_ ..
    rintro rfl
    exact hk hc.symm

/-- The cell of a load is known by its loader. -/
theorem cell_of_loading (h : t.Orderly key) (hstage : t.calls caller = .loading) :
    ∃ line, t.flight.cell? (key caller) = some (.loading caller line) ∧
      Underway key t.calls (key caller) caller line := by
  have hfits := h (key caller)
  cases hcell : t.flight.cell? (key caller) with
  | none =>
    rw [hcell] at hfits
    exact absurd (Or.inr hstage) (hfits caller rfl).1
  | some cell =>
    rw [hcell] at hfits
    cases cell with
    | loading loader line =>
      have hunder : Underway key t.calls (key caller) loader line := hfits
      obtain rfl := hunder.loads caller rfl hstage
      exact ⟨line, rfl, hunder⟩
    | ready value => exact absurd hstage (Settled.idle hfits caller rfl)

theorem look (h : t.Orderly key) (hlook : t.look? key caller = some (found, flight)) :
    (t.put flight caller found.stage).Orderly key := by
  have hfits := h (key caller)
  have hresult := result?_of_look? hlook
  obtain ⟨value, hready, rfl, rfl⟩ | ⟨hstage, hcell, rfl, rfl⟩ |
    ⟨loader, line, hstage, hcell, rfl, rfl⟩ | ⟨line, hstage, hcell, rfl, rfl⟩ |
    ⟨hstage, rfl, rfl⟩ := look?_cases hlook
  · rw [show t.flight.cell? (key caller) = _ from hready] at hfits
    refine h.put (fun _ _ => rfl) ?_
    rw [show t.flight.cell? (key caller) = _ from hready]
    exact Settled.move hfits hresult (by rintro ⟨⟩) fun v hv => (Option.some.inj hv).symm
  · rw [hcell] at hfits
    refine h.put (fun k hk => look?_apart hlook hk) ?_
    rw [cell?_startLoad, cell?_put]
    exact underway_first hfits rfl
  · rw [hcell] at hfits
    refine h.put (fun k hk => look?_apart hlook hk) ?_
    rw [cell?_put]
    refine Underway.lineUp hfits rfl ?_
    simp [hstage, Stage.Queued]
  · rw [hcell] at hfits
    refine h.put (fun k _ => cell?_startLoad _ k) ?_
    rw [cell?_startLoad, hcell]
    exact Underway.begin hfits
  · have hsame : t.put t.flight caller (Entry.wait (ν := ν)).stage = t := by
      rw [Traffic.put, Entry.stage, ← hstage, Function.update_eq_self]
    rwa [hsame]

theorem finish (h : t.Orderly key) (hstage : t.calls caller = .loading) (value : ν) :
    (t.put (t.flight.complete (key caller) value).2 caller (.loaded value)).Orderly key := by
  obtain ⟨line, -, hunder⟩ := h.cell_of_loading hstage
  refine h.put (fun k hk => complete_apart hk value) ?_
  rw [complete_cell?, cell?_put]
  exact hunder.settle value

/-- A dropped call leaves the line, or passes the load on. -/
theorem drop (h : t.Orderly key) (hlive : (t.calls caller).Live) :
    (t.put (t.leave key caller) caller .dropped).Orderly key := by
  have hfits := h (key caller)
  have hresult : (t.calls caller).result? = none := by
    rcases hlive with hstage | hstage | hstage | hstage <;> rw [hstage] <;> rfl
  by_cases hqueued : (t.calls caller).Queued
  · have hleave : t.leave key caller = (t.flight.abandon (key caller) caller).2 := by
      rcases hqueued with hstage | hstage <;> rw [leave, hstage]
    refine h.put (fun k hk => leave_apart hk) ?_
    rw [hleave]
    cases hcell : t.flight.cell? (key caller) with
    | none =>
      rw [hcell] at hfits
      exact absurd hqueued (hfits caller rfl).1
    | some cell =>
      rw [hcell] at hfits
      cases cell with
      | loading loader line => exact Underway.abandon hfits rfl hcell
      | ready value =>
        rw [abandon, hcell]
        dsimp only
        rw [hcell]
        exact Settled.move hfits hresult (by rintro ⟨⟩) (by rintro v ⟨⟩)
  · have hleave : t.leave key caller = t.flight := by
      rcases hlive with hstage | hstage | hstage
      · rw [leave, hstage]
      · rw [leave, hstage]
      · exact absurd hstage hqueued
    rw [hleave]
    exact h.put (fun _ _ => rfl) (hfits.pass rfl hqueued hresult (by simp [Stage.Queued]) rfl)

theorem step (h : t.Orderly key) (hstep : Step key t m t') : t'.Orderly key := by
  cases hstep with
  | openCell caller hstage =>
    refine h.put (fun _ _ => rfl) ((h _).pass rfl ?_ ?_ ?_ rfl)
    · simp [hstage, Stage.Queued]
    · rw [hstage]
      rfl
    · simp [Stage.Queued]
  | look caller hword => exact h.look hword
  | finish caller value hstage => exact h.finish hstage value
  | drop caller hlive => exact h.drop hlive

end Orderly

end Traffic

end MetricRelay.SingleFlight
