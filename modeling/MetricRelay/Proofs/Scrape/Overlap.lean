import Mathlib.Data.List.Perm.Subperm
import Mathlib.Logic.Relation
import MetricRelay.Proofs.Scrape.Reached

/-!
# Scrapes that overlap

Any number of scrapes of one exporter share its latest good values. The values
of a scrape are shaped one by one while it gathers its reports, and recorded one
by one when it puts them together; between two of these moves any other scrape
may move. A task that ends later than that ends for nobody, and a scrape that is
dropped moves no more.
-/

namespace MetricRelay

namespace TaskReport

def fresh? (r : TaskReport) : Option (MetricId × Shaped) :=
  match r.task, r.result with
  | .metric _ _ id, .ok (.shaped value) => some (id, value)
  | _, _ => none

/-- A report that the scrape makes up when it does not wait for a task any more. -/
def GivenUp (r : TaskReport) : Prop := r.result = .error .timeout ∨ r.result = .error .poolClosed

variable {r : TaskReport} {id : MetricId} {value : Shaped}

theorem of_fresh? (h : r.fresh? = some (id, value)) :
    r.task.metric? = some id ∧ r.result = .ok (.shaped value) := by
  obtain ⟨task, finished, result⟩ := r
  cases task with
  | forward service resource => cases h
  | metric service resource own =>
    cases result with
    | error e => cases h
    | ok made =>
      cases made with
      | families families => cases h
      | shaped found =>
        cases h
        exact ⟨rfl, rfl⟩

theorem GivenUp.fresh? (h : r.GivenUp) : r.fresh? = none := by
  refine Option.eq_none_iff_forall_ne_some.mpr ?_
  rintro ⟨id, value⟩ hfresh
  have hresult := (of_fresh? hfresh).2
  obtain hlate | hclosed := h
  · cases hresult.symm.trans hlate
  · cases hresult.symm.trans hclosed

theorem Sourced.shapes {c : Catalog} (h : r.Sourced c) (hfresh : r.fresh? = some (id, value)) :
    c.Shapes id value := by
  obtain ⟨task, finished, result⟩ := r
  obtain ⟨htask, rfl⟩ := of_fresh? hfresh
  cases task with
  | forward service resource => cases htask
  | metric service resource own =>
    cases htask
    exact h

/-- What adding a report does to the latest good values. -/
theorem lastGood_add {c : Catalog} (hknown : Composition.Known c r.task) (hfits : r.Fits)
    (sum : Composition) : (Composition.add c sum r).lastGood =
      match r.fresh? with
      | some (id, value) => sum.lastGood.record id value
      | none => sum.lastGood := by
  obtain ⟨task, finished, result⟩ := r
  cases task with
  | forward service resource =>
    cases result with
    | error e => rfl
    | ok made =>
      cases made with
      | shaped found => exact hfits.elim
      | families families => rfl
  | metric service resource own =>
    obtain ⟨⟨m, hm⟩, s, hs⟩ := hknown
    cases result with
    | error e => exact (Composition.add_error sum hm hs finished e).2
    | ok made =>
      cases made with
      | shaped found => exact (Composition.add_done sum hm hs finished found).2
      | families families => exact hfits.elim

end TaskReport

namespace Overlap

/-- What concerns the latest good values. -/
inductive Event where
  | shaped (id : MetricId) (value : Shaped)
  /-- A fresh value is recorded, and shown as such; `time` is the number of the event that shaped
  it. -/
  | shown (id : MetricId) (time : Nat) (value : Shaped)
  /-- The latest good value is shown for a metric that failed. -/
  | fallback (id : MetricId) (value : Option Shaped)

structure Timed where
  report : TaskReport
  time : Nat

def Timed.task (x : Timed) : ScrapeTask := x.report.task

def Timed.metric? (x : Timed) : Option MetricId := x.task.metric?

/-- What happens when a task ends. -/
def shaping? (r : TaskReport) : Option Event := r.fresh?.map fun x => .shaped x.1 x.2

/-- What happens when a report is added to those before it. -/
def telling? (before : LastGood) (x : Timed) : Option Event :=
  match x.report.fresh? with
  | some (id, value) => some (.shown id x.time value)
  | none => x.metric?.map fun id => .fallback id (before.get? id)

theorem shaping?_some {r : TaskReport} {event : Event} (h : shaping? r = some event) :
    ∃ id value, r.fresh? = some (id, value) ∧ event = .shaped id value := by
  obtain ⟨⟨id, value⟩, hfresh, rfl⟩ := Option.map_eq_some_iff.mp h
  exact ⟨id, value, hfresh, rfl⟩

/-- A report with a fresh value shows it, and one without shows what there is. -/
theorem telling?_some {before : LastGood} {x : Timed} {event : Event}
    (h : telling? before x = some event) :
    (∃ id value, x.report.fresh? = some (id, value) ∧ event = .shown id x.time value) ∨
      ∃ id, event = .fallback id (before.get? id) := by
  rw [telling?] at h
  split at h
  · next id value hfresh => exact Or.inl ⟨id, value, hfresh, (Option.some.inj h).symm⟩
  · obtain ⟨id, -, rfl⟩ := Option.map_eq_some_iff.mp h
    exact Or.inr ⟨id, rfl⟩

def Event.families (m : Catalog.Metric) (s : Catalog.Service) : Event → List Family
  | .shaped .. => []
  | .shown _ _ value => [Render.valueFamily m s.identity value, Render.upFamily m s.identity true]
  | .fallback _ value =>
    (value.map (Render.valueFamily m s.identity)).toList ++ [Render.upFamily m s.identity false]

/-- The report of a metric adds to the output what its event tells. -/
theorem output_add {c : Catalog} {m : Catalog.Metric} {s : Catalog.Service} {x : Timed}
    {service : ServiceId} {resource : ResourceId} {id : MetricId}
    (htask : x.task = .metric service resource id) (hm : c.metric? id = some m)
    (hs : c.service? service = some s) (hfits : x.report.Fits) (sum : Composition) :
    ∃ event, telling? sum.lastGood x = some event ∧
      (Composition.add c sum x.report).output = sum.output.extend (event.families m s) := by
  obtain ⟨⟨task, finished, result⟩, time⟩ := x
  obtain rfl : task = .metric service resource id := htask
  cases result with
  | error e => exact ⟨_, rfl, (Composition.add_error sum hm hs finished e).1⟩
  | ok made =>
    cases made with
    | shaped value => exact ⟨_, rfl, (Composition.add_done sum hm hs finished value).1⟩
    | families families => exact hfits.elim

inductive Stage where
  | ahead
  /-- Some of its tasks have ended. -/
  | gathering (made : List Timed)
  /-- The reports that are left, and what the others add up to. -/
  | composing (reports : List Timed) (sum : Composition)

namespace Stage

/-- The reports of a scrape that may still be recorded. -/
def pending : Stage → List Timed
  | .ahead => []
  | .gathering made => made
  | .composing reports _ => reports

def Busy : Stage → Prop
  | .ahead | .composing [] _ => False
  | .gathering _ | .composing (_ :: _) _ => True

end Stage

/-- A scrape has one report for each planned task, in the order of the fates; what it did not wait
for counts as failed. -/
structure Gathers (c : Catalog) (made reports : List Timed) : Prop where
  settled : ∃ fates, Settled c fates ∧ reports.map (·.report) = fates.reports
  made : ∀ x ∈ reports, x ∈ made ∨ x.report.GivenUp

end Overlap

structure Overlap where
  lastGood : LastGood := {}
  scrapes : Nat → Overlap.Stage := fun _ => .ahead
  history : List Overlap.Event := []

namespace Overlap

def put (s : Overlap) (n : Nat) (stage : Stage) (lastGood : LastGood) (event? : Option Event) :
    Overlap where
  lastGood
  scrapes := Function.update s.scrapes n stage
  history := s.history ++ event?.toList

/-- What a scrape does next: it begins, one of its tasks ends, it waits no more, or it adds its next
report, with the latest good values that all scrapes share. -/
inductive Step (c : Catalog) : Overlap → Overlap → Prop
  | start {s : Overlap} (n : Nat) (stage : s.scrapes n = .ahead) :
      Step c s (s.put n (.gathering []) s.lastGood none)
  | finish {s : Overlap} {made : List Timed} (n : Nat) (report : TaskReport)
      (stage : s.scrapes n = .gathering made)
      (planned : (made.map Timed.task ++ [report.task]).Subperm c.plan)
      (fits : report.Fits) (sourced : report.Sourced c) :
      Step c s (s.put n (.gathering (made ++ [⟨report, s.history.length⟩])) s.lastGood
        (shaping? report))
  | compose {s : Overlap} {made : List Timed} (n : Nat) (reports : List Timed)
      (stage : s.scrapes n = .gathering made) (gathers : Gathers c made reports) :
      Step c s (s.put n (.composing reports { lastGood := s.lastGood }) s.lastGood none)
  | add {s : Overlap} {x : Timed} {rest : List Timed} {sum next : Composition} (n : Nat)
      (stage : s.scrapes n = .composing (x :: rest) sum)
      (sums : Composition.add c { sum with lastGood := s.lastGood } x.report = next) :
      Step c s (s.put n (.composing rest next) next.lastGood (telling? s.lastGood x))

/-- What can come of a state. -/
abbrev Leads (c : Catalog) : Overlap → Overlap → Prop := Relation.ReflTransGen (Step c)

def Reached (c : Catalog) (s : Overlap) : Prop := Leads c {} s

/-- Scrapes one after another: none begins while another one is under way. -/
inductive Serial (c : Catalog) : Overlap → Prop
  | start : Serial c {}
  | step {s t : Overlap} (h : Serial c s) (hstep : Step c s t)
      (turn : ∀ n, s.scrapes n = .ahead → (t.scrapes n).Busy → ∀ m, ¬ (s.scrapes m).Busy) :
      Serial c t

section Put

variable {s : Overlap} {n m : Nat} {stage : Stage} {lastGood : LastGood} {event? : Option Event}

theorem put_self : (s.put n stage lastGood event?).scrapes n = stage := Function.update_self ..

theorem put_of_ne (h : m ≠ n) : (s.put n stage lastGood event?).scrapes m = s.scrapes m :=
  Function.update_of_ne h ..

/-- A scrape is the one that moved, or is where it was. -/
theorem put_scrapes (s : Overlap) (n : Nat) (stage : Stage) (lastGood : LastGood)
    (event? : Option Event) (m : Nat) :
    (m = n ∧ (s.put n stage lastGood event?).scrapes m = stage) ∨
      (m ≠ n ∧ (s.put n stage lastGood event?).scrapes m = s.scrapes m) :=
  Keyed.update_cases s.scrapes n stage m

end Put

/-! ### The recordings of a metric -/

/-- When the value of a recording was shaped, and the value. -/
def Event.recording? (id : MetricId) : Event → Option (Nat × Shaped)
  | .shown other time value => if other = id then some (time, value) else none
  | _ => none

def recordings (id : MetricId) (history : List Event) : List (Nat × Shaped) :=
  history.filterMap (Event.recording? id)

def latest? (log : List (Nat × Shaped)) : Option Shaped := log.getLast?.map Prod.snd

section Recordings

variable {id : MetricId} {history : List Event} {event? : Option Event} {time : Nat}
  {value : Shaped}

theorem recording?_eq_some {event : Event} :
    event.recording? id = some (time, value) ↔ event = .shown id time value := by
  cases event with
  | shown other time' value' =>
    by_cases h : other = id <;> simp [Event.recording?, h]
  | _ => simp [Event.recording?]

theorem mem_recordings :
    (time, value) ∈ recordings id history ↔ .shown id time value ∈ history := by
  simp only [recordings, List.mem_filterMap, recording?_eq_some, exists_eq_right]

theorem recordings_append (id : MetricId) (history more : List Event) :
    recordings id (history ++ more) = recordings id history ++ recordings id more :=
  List.filterMap_append ..

/-- An event adds a recording of its own metric at most. -/
theorem recordings_concat (id : MetricId) (history : List Event) (event? : Option Event) :
    recordings id (history ++ event?.toList) =
      recordings id history ++ (event?.bind (Event.recording? id)).toList := by
  rw [recordings_append]
  cases event? with
  | none => rfl
  | some event => cases h : event.recording? id <;> simp [recordings, h]

theorem recording?_shaping (r : TaskReport) :
    (shaping? r).bind (Event.recording? id) = none := by
  rw [shaping?]
  cases r.fresh? <;> rfl

theorem recordings_shaping (id : MetricId) (history : List Event) (r : TaskReport) :
    recordings id (history ++ (shaping? r).toList) = recordings id history := by
  rw [recordings_concat, recording?_shaping, Option.toList_none, List.append_nil]

def Timed.recording? (id : MetricId) (x : Timed) : Option (Nat × Shaped) :=
  x.report.fresh?.bind fun made => if made.1 = id then some (x.time, made.2) else none

theorem recording?_telling (id : MetricId) (before : LastGood) (x : Timed) :
    (telling? before x).bind (Event.recording? id) = x.recording? id := by
  rw [telling?, Timed.recording?]
  cases x.report.fresh? with
  | none => cases x.metric? <;> rfl
  | some made => rfl

/-- Where an event stands in a history with one more at the end. -/
theorem eq_of_concat {event : Event} {before after : List Event}
    (h : history ++ event?.toList = before ++ event :: after) :
    (∃ rest, history = before ++ event :: rest) ∨ (event? = some event ∧ before = history) := by
  rcases List.eq_nil_or_concat after with rfl | ⟨rest, last, rfl⟩
  · cases event? with
    | none => exact Or.inl ⟨[], by simpa using h⟩
    | some new =>
      obtain ⟨hhistory, hevent⟩ := List.append_inj' h rfl
      cases hevent
      exact Or.inr ⟨rfl, hhistory.symm⟩
  · refine Or.inl ?_
    cases event? with
    | none => exact ⟨rest.concat last, by simpa using h⟩
    | some new =>
      have hsplit : history ++ [new] = (before ++ event :: rest) ++ [last] := by simpa using h
      exact ⟨rest, (List.append_inj' hsplit rfl).1⟩

end Recordings

/-! ### What holds in every state -/

/-- The latest good value of a metric is what was recorded last, and so is what a failed report
shows. -/
structure Sound (c : Catalog) (s : Overlap) : Prop where
  timed : ∀ n, ∀ x ∈ (s.scrapes n).pending, ∀ id value, x.report.fresh? = some (id, value) →
    s.history[x.time]? = some (.shaped id value)
  known : ∀ n reports sum, s.scrapes n = .composing reports sum → ∀ x ∈ reports,
    Composition.Known c x.report.task ∧ x.report.Fits
  sourced : ∀ id value, .shaped id value ∈ s.history → c.Shapes id value
  shown : ∀ id time value, .shown id time value ∈ s.history →
    s.history[time]? = some (.shaped id value)
  held : ∀ id, s.lastGood.get? id = latest? (recordings id s.history)
  told : ∀ id value before after, s.history = before ++ .fallback id value :: after →
    value = latest? (recordings id before)

namespace Sound

variable {c : Catalog} {s t : Overlap} {n : Nat} {stage : Stage} {lastGood : LastGood}
  {event? : Option Event}

/-- What has happened stays where it is. -/
theorem getElem?_grow {history : List Event} {i : Nat} {event : Event}
    (h : history[i]? = some event) (more : List Event) : (history ++ more)[i]? = some event :=
  (List.getElem?_append_left (List.getElem?_eq_some_iff.mp h).1).trans h

theorem put (h : Sound c s)
    (htimed : ∀ x ∈ stage.pending, ∀ id value, x.report.fresh? = some (id, value) →
      (s.history ++ event?.toList)[x.time]? = some (.shaped id value))
    (hknown : ∀ reports sum, stage = .composing reports sum → ∀ x ∈ reports,
      Composition.Known c x.report.task ∧ x.report.Fits)
    (hsourced : ∀ id value, event? = some (.shaped id value) → c.Shapes id value)
    (hshown : ∀ id time value, event? = some (.shown id time value) →
      s.history[time]? = some (.shaped id value))
    (hheld : ∀ id, lastGood.get? id = latest? (recordings id (s.history ++ event?.toList)))
    (htold : ∀ id value, event? = some (.fallback id value) →
      value = latest? (recordings id s.history)) :
    Sound c (s.put n stage lastGood event?) where
  timed := by
    intro m x hx id value hfresh
    obtain ⟨-, heq⟩ | ⟨-, heq⟩ := s.put_scrapes n stage lastGood event? m
    · exact htimed x (heq ▸ hx) id value hfresh
    · exact getElem?_grow (h.timed m x (heq ▸ hx) id value hfresh) _
  known := by
    intro m reports sum hstage
    obtain ⟨-, heq⟩ | ⟨-, heq⟩ := s.put_scrapes n stage lastGood event? m
    · exact hknown reports sum (heq.symm.trans hstage)
    · exact h.known m reports sum (heq.symm.trans hstage)
  sourced := by
    intro id value hmem
    rcases List.mem_append.mp hmem with hold | hnew
    · exact h.sourced id value hold
    · exact hsourced id value (Option.mem_toList.mp hnew)
  shown := by
    intro id time value hmem
    rcases List.mem_append.mp hmem with hold | hnew
    · exact getElem?_grow (h.shown id time value hold) _
    · exact getElem?_grow (hshown id time value (Option.mem_toList.mp hnew)) _
  held := hheld
  told := by
    intro id value before after hsplit
    rcases eq_of_concat hsplit with ⟨rest, hold⟩ | ⟨hnew, rfl⟩
    · exact h.told id value before rest hold
    · exact htold id value hnew

/-- A scrape moves on without touching the latest good values. -/
theorem move (h : Sound c s)
    (hpending : ∀ x ∈ stage.pending, x ∈ (s.scrapes n).pending ∨ x.report.fresh? = none)
    (hknown : ∀ reports sum, stage = .composing reports sum → ∀ x ∈ reports,
      Composition.Known c x.report.task ∧ x.report.Fits) :
    Sound c (s.put n stage s.lastGood none) := by
  refine h.put (fun x hx id value hfresh => ?_) hknown (by simp) (by simp) (fun id => ?_) (by simp)
  · rcases hpending x hx with hold | hstale
    · exact getElem?_grow (h.timed n x hold id value hfresh) _
    · cases hstale.symm.trans hfresh
  · rw [Option.toList_none, List.append_nil]
    exact h.held id

/-- The reports that a scrape puts together are those of planned tasks. -/
theorem known_of_gathers (hindexed : c.Indexed) {made reports : List Timed}
    (hgathers : Gathers c made reports) : ∀ x ∈ reports,
      Composition.Known c x.report.task ∧ x.report.Fits := by
  intro x hx
  obtain ⟨fates, hsettled, hreports⟩ := hgathers.settled
  have hmem : x.report ∈ fates.reports := hreports ▸ List.mem_map_of_mem hx
  obtain ⟨fate, hfate, heq⟩ := List.mem_map.mp hmem
  have hmem := fates.ordered_perm.mem_iff.mp hfate
  rw [← heq, Fate.report_task]
  exact ⟨hsettled.known hindexed _ hmem, hsettled.fits _ hmem⟩

theorem add (h : Sound c s) {x : Timed} {rest : List Timed} {sum : Composition}
    (hstage : s.scrapes n = .composing (x :: rest) sum) :
    Sound c (s.put n
      (.composing rest (Composition.add c { sum with lastGood := s.lastGood } x.report))
      (Composition.add c { sum with lastGood := s.lastGood } x.report).lastGood
      (telling? s.lastGood x)) := by
  have hknown := h.known n (x :: rest) sum hstage
  have hpending : x :: rest = (s.scrapes n).pending := by rw [hstage]; rfl
  obtain ⟨htask, hfits⟩ := hknown x List.mem_cons_self
  have hlast := TaskReport.lastGood_add htask hfits { sum with lastGood := s.lastGood }
  refine h.put (fun y hy id value hfresh => ?_) ?_ ?_ ?_ ?_ ?_
  · exact getElem?_grow (h.timed n y (hpending ▸ List.mem_cons_of_mem x hy) id value hfresh) _
  · rintro reports sum' ⟨⟩ y hy
    exact hknown y (List.mem_cons_of_mem x hy)
  · intro id value hevent
    obtain ⟨own, found, -, heq⟩ | ⟨own, heq⟩ := telling?_some hevent <;> cases heq
  · intro id time value hevent
    obtain ⟨own, found, hfresh, heq⟩ | ⟨own, heq⟩ := telling?_some hevent
    · cases heq
      exact h.timed n x (hpending ▸ List.mem_cons_self) id value hfresh
    · cases heq
  · intro id
    rw [hlast, recordings_concat, recording?_telling, Timed.recording?]
    cases hfresh : x.report.fresh? with
    | none => simpa using h.held id
    | some new =>
      obtain ⟨own, value⟩ := new
      by_cases hown : own = id
      · subst hown
        simp [LastGood.get?_record, latest?]
      · simpa [LastGood.get?_record_of_ne _ (Ne.symm hown), hown] using h.held id
  · intro id value hevent
    obtain ⟨own, found, -, heq⟩ | ⟨own, heq⟩ := telling?_some hevent
    · cases heq
    · cases heq
      exact h.held id

theorem step (hindexed : c.Indexed) (h : Sound c s) (hstep : Step c s t) : Sound c t := by
  cases hstep with
  | start n stage => exact h.move (by simp [Stage.pending]) (by simp)
  | @finish made n report stage planned fits sourced =>
    have hpending : made = (s.scrapes n).pending := by rw [stage]; rfl
    refine h.put (fun x hx id value hfresh => ?_) (by simp) (fun id value hevent => ?_) ?_ ?_ ?_
    · rcases List.mem_append.mp hx with hold | hnew
      · exact getElem?_grow (h.timed n x (hpending ▸ hold) id value hfresh) _
      · obtain rfl := List.mem_singleton.mp hnew
        have hevent : shaping? report = some (.shaped id value) := by rw [shaping?, hfresh]; rfl
        rw [hevent]
        exact List.getElem?_concat_length
    · obtain ⟨own, found, hfresh, heq⟩ := shaping?_some hevent
      cases heq
      exact sourced.shapes hfresh
    · intro id time value hevent
      obtain ⟨own, found, -, heq⟩ := shaping?_some hevent
      cases heq
    · intro id
      rw [recordings_shaping]
      exact h.held id
    · intro id value hevent
      obtain ⟨own, found, -, heq⟩ := shaping?_some hevent
      cases heq
  | @compose made n reports stage gathers =>
    refine h.move (fun x hx => ?_) ?_
    · rw [stage]
      exact (gathers.made x hx).imp_right TaskReport.GivenUp.fresh?
    · rintro reports sum ⟨⟩
      exact known_of_gathers hindexed gathers
  | add n stage sums =>
    subst sums
    exact h.add stage

end Sound

theorem Reached.sound {c : Catalog} (hindexed : c.Indexed) {s : Overlap} (h : Reached c s) :
    Sound c s := by
  induction h with
  | refl =>
    refine ⟨?_, ?_, ?_, ?_, ?_, ?_⟩
    · rintro n x ⟨⟩
    · rintro n reports sum ⟨⟩
    · rintro id value ⟨⟩
    · rintro id time value ⟨⟩
    · exact fun id => rfl
    · intro id value before after hsplit
      simp at hsplit
  | tail _ hstep ih => exact ih.step hindexed hstep

/-! ### Earlier moments -/

section Moments

variable {c : Catalog} {s t : Overlap} {id : MetricId}

/-- A step adds one event at most. -/
theorem Step.history (h : Step c s t) :
    ∃ event? : Option Event, t.history = s.history ++ event?.toList := by
  cases h with
  | start n stage => exact ⟨none, rfl⟩
  | finish n report stage planned fits sourced => exact ⟨shaping? report, rfl⟩
  | compose n reports stage gathers => exact ⟨none, rfl⟩
  | add n stage sums => exact ⟨_, rfl⟩

theorem Leads.history (h : Leads c s t) : s.history <+: t.history := by
  induction h with
  | refl => exact List.prefix_rfl
  | tail _ hstep ih =>
    obtain ⟨event?, heq⟩ := hstep.history
    exact ih.trans (heq ▸ List.prefix_append ..)

theorem Leads.recordings (h : Leads c s t) (id : MetricId) :
    recordings id s.history <+: recordings id t.history :=
  h.history.filterMap _

/-- There was a moment right after each recording. -/
theorem exists_moment (h : Reached c s) {before after : List (Nat × Shaped)} {r : Nat × Shaped}
    (hlog : recordings id s.history = before ++ r :: after) :
    ∃ t, Reached c t ∧ Leads c t s ∧ recordings id t.history = before ++ [r] := by
  induction h generalizing after with
  | refl => simp [Overlap.recordings] at hlog
  | @tail s s' hrun hstep ih =>
    obtain ⟨event?, hhistory⟩ := hstep.history
    have hstays : ∀ rest, Overlap.recordings id s.history = before ++ r :: rest →
        ∃ t, Reached c t ∧ Leads c t s' ∧ Overlap.recordings id t.history = before ++ [r] := by
      intro rest hold
      obtain ⟨t, hreached, hleads, heq⟩ := ih hold
      exact ⟨t, hreached, hleads.tail hstep, heq⟩
    rw [hhistory, recordings_concat] at hlog
    cases hnew : event?.bind (Event.recording? id) with
    | none => exact hstays after (by simpa [hnew] using hlog)
    | some new =>
      rw [hnew, Option.toList_some] at hlog
      rcases List.eq_nil_or_concat after with rfl | ⟨rest, last, rfl⟩
      · refine ⟨s', hrun.tail hstep, .refl, ?_⟩
        rw [hhistory, recordings_concat, hnew, Option.toList_some, hlog]
      · refine hstays rest ?_
        have hsplit : Overlap.recordings id s.history ++ [new] =
            (before ++ r :: rest) ++ [last] := by simpa using hlog
        exact (List.append_inj' hsplit rfl).1

end Moments

/-! ### A scrape left to itself -/

/-- A step of one scrape that has begun. -/
def Move (c : Catalog) (n : Nat) (s t : Overlap) : Prop :=
  Step c s t ∧ s.scrapes n ≠ .ahead ∧ ∀ m, m ≠ n → t.scrapes m = s.scrapes m

/-- What can come of a state when one scrape moves and the others stand still. -/
abbrev Works (c : Catalog) (n : Nat) : Overlap → Overlap → Prop := Relation.ReflTransGen (Move c n)

section Works

variable {c : Catalog} {s t : Overlap} {n : Nat}

theorem Works.leads (h : Works c n s t) : Leads c s t := by
  induction h with
  | refl => exact .refl
  | tail _ hmove ih => exact ih.tail hmove.1

theorem Works.others (h : Works c n s t) {m : Nat} (hne : m ≠ n) : t.scrapes m = s.scrapes m := by
  induction h with
  | refl => rfl
  | tail _ hmove ih => exact (hmove.2.2 m hne).trans ih

/-- No scrape begins while only one that has begun moves. -/
theorem Works.serial (h : Works c n s t) (hserial : Serial c s) : Serial c t := by
  induction h with
  | refl => exact hserial
  | tail _ hmove ih =>
    refine ih.step hmove.1 fun m hahead hbusy => ?_
    have hne : m ≠ n := by
      rintro rfl
      exact hmove.2.1 hahead
    rw [hmove.2.2 m hne, hahead] at hbusy
    exact hbusy.elim

theorem move_finish {made : List Timed} {report : TaskReport}
    (hstage : s.scrapes n = .gathering made)
    (hplanned : (made.map Timed.task ++ [report.task]).Subperm c.plan)
    (hfits : report.Fits) (hsourced : report.Sourced c) :
    Move c n s (s.put n (.gathering (made ++ [⟨report, s.history.length⟩])) s.lastGood
      (shaping? report)) :=
  ⟨.finish n report hstage hplanned hfits hsourced, by simp [hstage], fun _ => put_of_ne⟩

/-- A scrape can gather any reports that suit its plan. -/
theorem exists_gathered (reports : List TaskReport)
    (hgood : ∀ r ∈ reports, r.Fits ∧ r.Sourced c) {made : List Timed}
    (hstage : s.scrapes n = .gathering made)
    (hplanned : (made.map Timed.task ++ reports.map (·.task)).Subperm c.plan) :
    ∃ t, ∃ made' timed : List Timed, Works c n s t ∧ t.scrapes n = .gathering made' ∧
      t.lastGood = s.lastGood ∧ made ⊆ made' ∧ timed.map Timed.report = reports ∧
      ∀ x ∈ timed, x ∈ made' ∨ x.report.GivenUp := by
  induction reports generalizing s made with
  | nil => exact ⟨s, made, [], .refl, hstage, rfl, List.Subset.refl _, rfl, by simp⟩
  | cons r rest ih =>
    obtain ⟨hfits, hsourced⟩ := hgood r List.mem_cons_self
    have hothers : ∀ other ∈ rest, other.Fits ∧ other.Sourced c := fun other hother =>
      hgood other (List.mem_cons_of_mem r hother)
    by_cases hgiven : r.GivenUp
    · have hleft : (made.map Timed.task ++ rest.map (·.task)).Subperm c.plan :=
        ((List.sublist_cons_self ..).append_left _).subperm.trans hplanned
      obtain ⟨t, made', timed, hworks, ht, hlast, hmade, hreports, htimed⟩ :=
        ih hothers hstage hleft
      refine ⟨t, made', ⟨r, 0⟩ :: timed, hworks, ht, hlast, hmade,
        by rw [List.map_cons, hreports], ?_⟩
      intro x hx
      rcases List.mem_cons.mp hx with rfl | hx
      · exact Or.inr hgiven
      · exact htimed x hx
    · let x : Timed := ⟨r, s.history.length⟩
      have hnext : (made.map Timed.task ++ [r.task]).Subperm c.plan := by
        refine (List.Sublist.append_left ?_ _).subperm.trans hplanned
        exact List.singleton_sublist.mpr List.mem_cons_self
      have hmove := move_finish hstage hnext hfits hsourced
      have hleft : ((made ++ [x]).map Timed.task ++ rest.map (·.task)).Subperm c.plan := by
        simpa [x, Timed.task] using hplanned
      obtain ⟨t, made', timed, hworks, ht, hlast, hmade, hreports, htimed⟩ :=
        ih hothers put_self hleft
      refine ⟨t, made', x :: timed, .head hmove hworks, ht, hlast, ?_,
        by rw [List.map_cons, hreports], ?_⟩
      · exact fun y hy => hmade (List.mem_append_left _ hy)
      · intro y hy
        rcases List.mem_cons.mp hy with rfl | hy
        · exact Or.inl (hmade (by simp))
        · exact htimed y hy

/-- A scrape can put its reports together without a break. -/
theorem exists_added (reports : List Timed) {sum : Composition}
    (hstage : s.scrapes n = .composing reports sum) :
    ∃ t sum', Works c n s t ∧ t.scrapes n = .composing [] sum' ∧
      { sum' with lastGood := t.lastGood } =
        (reports.map Timed.report).foldl (Composition.add c) { sum with lastGood := s.lastGood } ∧
      ∀ id, recordings id t.history =
        recordings id s.history ++ reports.filterMap (Timed.recording? id) := by
  induction reports generalizing s sum with
  | nil => exact ⟨s, sum, .refl, hstage, rfl, fun id => (List.append_nil _).symm⟩
  | cons x rest ih =>
    have hmove : Move c n s _ := ⟨.add n hstage rfl, by simp [hstage], fun _ => put_of_ne⟩
    obtain ⟨t, sum', hworks, ht, hsum, hlog⟩ := ih (put_self (n := n))
    refine ⟨t, sum', .head hmove hworks, ht, hsum, fun id => ?_⟩
    rw [hlog, put, recordings_concat, recording?_telling]
    cases h : x.recording? id <;> simp [h]

/-- A scrape that has begun can come to any fates of its tasks. -/
theorem exists_composed {fates : Fates} (hsettled : Settled c fates)
    (hsourced : ∀ x ∈ fates, (x.2.report x.1).Sourced c) (hstage : s.scrapes n = .gathering []) :
    ∃ t sum, Works c n s t ∧ t.scrapes n = .composing [] sum ∧
      { sum with lastGood := t.lastGood } = Composition.ofReports c s.lastGood fates.reports := by
  have hgood : ∀ r ∈ fates.reports, r.Fits ∧ r.Sourced c := by
    intro r hr
    obtain ⟨x, hx, rfl⟩ := List.mem_map.mp hr
    have hmem := fates.ordered_perm.mem_iff.mp hx
    exact ⟨hsettled.fits x hmem, hsourced x hmem⟩
  have htasks : (fates.reports.map (·.task)).Perm c.plan := by
    have hordered : fates.reports.map (·.task) = fates.ordered.map (·.1) := by
      rw [Fates.reports, List.map_map]
      exact List.map_congr_left fun x _ => Fate.report_task x.1 x.2
    rw [hordered, ← hsettled.tasks]
    exact fates.ordered_perm.map _
  obtain ⟨t₁, made, timed, hgather, ht₁, hlast, -, hreports, htimed⟩ :=
    exists_gathered fates.reports hgood hstage htasks.subperm
  have hcompose : Move c n t₁ _ :=
    ⟨.compose n timed ht₁ ⟨⟨fates, hsettled, hreports⟩, htimed⟩, by simp [ht₁], fun _ => put_of_ne⟩
  obtain ⟨t, sum, hadd, ht, hsum, -⟩ := exists_added (c := c) timed (put_self (n := n))
  refine ⟨t, sum, (hgather.tail hcompose).trans hadd, ht, ?_⟩
  rw [hsum, hreports, Composition.ofReports, ← hlast]
  rfl

end Works

end Overlap
end MetricRelay
