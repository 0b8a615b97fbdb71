import Mathlib.Data.Set.Finite.Lemmas
import Mathlib.Tactic.Push
import MetricRelay.Proofs.Scrape.Overlap

/-!
# Old values in place of newer ones

A scrape that shaped its value earlier may be put together later. Main result:
the latest good value of a metric is the one that was recorded last. It has been
the newest one all along exactly if nothing was ever recorded after a newer
value that differs, which is so for scrapes one after another, and fails in some
run of overlapping scrapes for each metric that can have two values.
-/

namespace MetricRelay.Overlap

/-- A value of the recording that was shaped last. -/
def IsNewest (log : List (Nat × Shaped)) (value : Shaped) : Prop :=
  ∃ q ∈ log, q.2 = value ∧ ∀ p ∈ log, p.1 ≤ q.1

/-- The latest good value of a metric is the newest one that has been recorded, and so was each
value that was shown for the metric when it failed. -/
structure Latest (s : Overlap) (id : MetricId) : Prop where
  held : ∀ value, s.lastGood.get? id = some value → IsNewest (recordings id s.history) value
  fallback : ∀ value before after, s.history = before ++ .fallback id (some value) :: after →
    IsNewest (recordings id before) value

/-- Something is recorded after a newer value that differs. -/
def Relapses (log : List (Nat × Shaped)) : Prop :=
  ∃ before r after q, log = before ++ r :: after ∧ q ∈ before ∧ (∀ p ∈ before, p.1 ≤ q.1) ∧
    r.1 < q.1 ∧ r.2 ≠ q.2

section Logs

variable {log : List (Nat × Shaped)} {value : Shaped}

/-- What was recorded last is the newest unless there is a relapse. -/
theorem isNewest_latest (h : ¬ Relapses log) (hlatest : latest? log = some value) :
    IsNewest log value := by
  rcases List.eq_nil_or_concat' log with rfl | ⟨before, r, rfl⟩
  · cases hlatest
  · obtain rfl : r.2 = value := by simpa [latest?] using hlatest
    by_cases hnewest : ∀ p ∈ before, p.1 ≤ r.1
    · refine ⟨r, by simp, rfl, fun p hp => ?_⟩
      rcases List.mem_append.mp hp with hold | hlast
      · exact hnewest p hold
      · rw [List.mem_singleton.mp hlast]
    · push Not at hnewest
      obtain ⟨newer, hnewer, hlt⟩ := hnewest
      obtain ⟨q, hq, hmax⟩ := Set.exists_max_image { p | p ∈ before } Prod.fst
        (List.finite_toSet before) ⟨newer, hnewer⟩
      have hbehind : r.1 < q.1 := hlt.trans_le (hmax newer hnewer)
      refine ⟨q, List.mem_append_left _ hq, ?_, fun p hp => ?_⟩
      · by_contra hne
        exact h ⟨before, r, [], q, rfl, hq, hmax, hbehind, fun heq => hne heq.symm⟩
      · rcases List.mem_append.mp hp with hold | hlast
        · exact hmax p hold
        · rw [List.mem_singleton.mp hlast]
          exact hbehind.le

/-- Without a relapse up to some point there is none before it. -/
theorem Relapses.of_earlier {more : List (Nat × Shaped)} (h : Relapses log)
    (hwithin : log <+: more) : Relapses more := by
  obtain ⟨before, r, after, q, rfl, hq, hnewest, hlt, hne⟩ := h
  obtain ⟨rest, rfl⟩ := hwithin
  exact ⟨before, r, after ++ rest, q, by simp, hq, hnewest, hlt, hne⟩

/-- What is recorded in the order in which it was shaped never relapses. -/
theorem not_relapses_of_pairwise (h : log.Pairwise fun p q => p.1 ≤ q.1) : ¬ Relapses log := by
  rintro ⟨before, r, after, q, rfl, hq, -, hlt, -⟩
  have hle : q.1 ≤ r.1 := (List.pairwise_append.mp h).2.2 q hq r List.mem_cons_self
  omega

end Logs

variable {c : Catalog} {s t : Overlap} {id : MetricId}

/-! ### One run -/

/-- As long as nothing relapses, a metric shows its newest value. -/
theorem Reached.latest_of_not_relapses (hindexed : c.Indexed) (h : Reached c s)
    (hlog : ¬ Relapses (recordings id s.history)) : s.Latest id where
  held value hvalue := isNewest_latest hlog (((h.sound hindexed).held id).symm.trans hvalue)
  fallback value before after hsplit := by
    have htold := (h.sound hindexed).told id (some value) before after hsplit
    have hwithin : recordings id before <+: recordings id s.history := by
      rw [hsplit, recordings_append]
      exact List.prefix_append ..
    exact isNewest_latest (fun hearly => hlog (hearly.of_earlier hwithin)) htold.symm

/-- Right after a relapse the latest good value is not the newest. -/
theorem Reached.not_latest_of_relapses (hindexed : c.Indexed) (h : Reached c s)
    (hlog : Relapses (recordings id s.history)) :
    ∃ t, Reached c t ∧ Leads c t s ∧ ¬ t.Latest id := by
  obtain ⟨before, r, after, q, hsplit, hq, hnewest, hlt, hne⟩ := hlog
  obtain ⟨t, hreached, hleads, hmoment⟩ := exists_moment h hsplit
  refine ⟨t, hreached, hleads, fun hlatest => ?_⟩
  have hsound := hreached.sound hindexed
  have hheld : t.lastGood.get? id = some r.2 := by
    rw [hsound.held id, hmoment]
    simp [latest?]
  obtain ⟨p, hp, hvalue, hmax⟩ := hlatest.held r.2 hheld
  rw [hmoment] at hp hmax
  have hle : q.1 ≤ p.1 := hmax q (List.mem_append_left _ hq)
  rcases List.mem_append.mp hp with hold | hlast
  · -- A recording of the same age as the newest one before has the same value.
    have hsame : p.1 = q.1 := Nat.le_antisymm (hnewest p hold) hle
    have hin : ∀ x ∈ before, (x.1, x.2) ∈ recordings id t.history := fun x hx =>
      hmoment ▸ List.mem_append_left _ hx
    have hshaped := hsound.shown id _ _ (mem_recordings.mp (hin p hold))
    rw [hsame, hsound.shown id _ _ (mem_recordings.mp (hin q hq))] at hshaped
    injection hshaped with hevent
    injection hevent with _ hvalues
    exact hne (hvalue.symm.trans hvalues.symm)
  · obtain rfl := List.mem_singleton.mp hlast
    omega

/-- A metric has shown its newest value all along exactly if nothing has relapsed. -/
theorem Reached.latest_iff (hindexed : c.Indexed) (h : Reached c s) :
    (∀ t, Reached c t → Leads c t s → t.Latest id) ↔ ¬ Relapses (recordings id s.history) := by
  constructor
  · intro hlatest hlog
    obtain ⟨t, hreached, hleads, hnot⟩ := h.not_latest_of_relapses hindexed hlog
    exact hnot (hlatest t hreached hleads)
  · intro hlog t hreached hleads
    exact hreached.latest_of_not_relapses hindexed fun hearly =>
      hlog (hearly.of_earlier (hleads.recordings id))

/-! ### Scrapes one after another -/

/-- At most one scrape is under way, and what it has shaped is newer than anything recorded. -/
structure InOrder (c : Catalog) (s : Overlap) : Prop where
  one : ∀ m n, (s.scrapes m).Busy → (s.scrapes n).Busy → m = n
  nodup : ∀ n reports sum, s.scrapes n = .composing reports sum →
    (reports.filterMap Timed.metric?).Nodup
  newer : ∀ n, ∀ x ∈ (s.scrapes n).pending, ∀ id value, x.report.fresh? = some (id, value) →
    ∀ p ∈ recordings id s.history, p.1 < x.time
  sorted : ∀ id, (recordings id s.history).Pairwise fun p q => p.1 ≤ q.1

theorem Stage.pending_of_not_busy {stage : Stage} (h : ¬ stage.Busy) : stage.pending = [] := by
  cases stage with
  | ahead => rfl
  | gathering made => exact absurd trivial h
  | composing reports sum =>
    cases reports with
    | nil => rfl
    | cons x rest => exact absurd trivial h

/-- What a scrape puts together has no metric twice. -/
theorem Gathers.nodup (hplan : (c.plan.filterMap ScrapeTask.metric?).Nodup)
    {made reports : List Timed} (h : Gathers c made reports) :
    (reports.filterMap Timed.metric?).Nodup := by
  obtain ⟨fates, hsettled, hreports⟩ := h.settled
  have hmetrics : reports.filterMap Timed.metric? =
      Composition.fedMetrics fates.ordered := by
    have hreported : fates.reports.filterMap (·.task.metric?) =
        Composition.fedMetrics fates.ordered := by
      rw [Fates.reports, List.filterMap_map, Composition.fedMetrics]
      exact List.filterMap_congr fun x _ => congrArg ScrapeTask.metric? (Fate.report_task x.1 x.2)
    rw [← hreported, ← hreports, List.filterMap_map]
    rfl
  rw [hmetrics]
  exact (fates.ordered_perm.filterMap _).nodup_iff.mpr (hsettled.nodup hplan)

/-- No metric has two fresh values among the reports of a scrape. -/
theorem fresh?_ne_of_nodup {x y : Timed} {rest : List Timed} {value : Shaped}
    (hnodup : ((x :: rest).filterMap Timed.metric?).Nodup)
    (hfresh : x.report.fresh? = some (id, value)) (hy : y ∈ rest) (other : Shaped) :
    y.report.fresh? ≠ some (id, other) := by
  intro hsame
  have hhead : (x :: rest).filterMap Timed.metric? = id :: rest.filterMap Timed.metric? :=
    List.filterMap_cons_some (TaskReport.of_fresh? hfresh).1
  rw [hhead, List.nodup_cons] at hnodup
  exact hnodup.1 (List.mem_filterMap.mpr ⟨y, hy, (TaskReport.of_fresh? hsame).1⟩)

namespace InOrder

theorem idle_of_ne (h : InOrder c s) {n : Nat} (hbusy : (s.scrapes n).Busy) (m : Nat)
    (hne : m ≠ n) : ¬ (s.scrapes m).Busy := fun hother => hne (h.one m n hother hbusy)

theorem put (h : InOrder c s) {n : Nat} {stage : Stage} {lastGood : LastGood}
    {event? : Option Event} (hone : stage.Busy → ∀ m, m ≠ n → ¬ (s.scrapes m).Busy)
    (hnodup : ∀ reports sum, stage = .composing reports sum →
      (reports.filterMap Timed.metric?).Nodup)
    (hnewer : ∀ m, ∀ x ∈ ((s.put n stage lastGood event?).scrapes m).pending, ∀ id value,
      x.report.fresh? = some (id, value) →
        ∀ p ∈ recordings id (s.history ++ event?.toList), p.1 < x.time)
    (hsorted : ∀ id, (recordings id (s.history ++ event?.toList)).Pairwise fun p q => p.1 ≤ q.1) :
    InOrder c (s.put n stage lastGood event?) where
  one := by
    intro m k hm hk
    obtain ⟨rfl, hm'⟩ | ⟨hne, hm'⟩ := s.put_scrapes n stage lastGood event? m
    · obtain ⟨rfl, -⟩ | ⟨hne, hk'⟩ := s.put_scrapes m stage lastGood event? k
      · rfl
      · exact absurd (hk' ▸ hk) (hone (hm' ▸ hm) k hne)
    · obtain ⟨rfl, hk'⟩ | ⟨-, hk'⟩ := s.put_scrapes n stage lastGood event? k
      · exact absurd (hm' ▸ hm) (hone (hk' ▸ hk) m hne)
      · exact h.one m k (hm' ▸ hm) (hk' ▸ hk)
  nodup := by
    intro m reports sum hstage
    obtain ⟨-, heq⟩ | ⟨-, heq⟩ := s.put_scrapes n stage lastGood event? m
    · exact hnodup reports sum (heq.symm.trans hstage)
    · exact h.nodup m reports sum (heq.symm.trans hstage)
  newer := hnewer
  sorted := hsorted

/-- A scrape moves on and records nothing. -/
theorem move (h : InOrder c s) {n : Nat} {stage : Stage} {lastGood : LastGood}
    {event? : Option Event} (hevent : ∀ id, event?.bind (Event.recording? id) = none)
    (hone : ∀ m, m ≠ n → ¬ (s.scrapes m).Busy)
    (hnodup : ∀ reports sum, stage = .composing reports sum →
      (reports.filterMap Timed.metric?).Nodup)
    (hnewer : ∀ x ∈ stage.pending, ∀ id value, x.report.fresh? = some (id, value) →
      ∀ p ∈ recordings id s.history, p.1 < x.time) :
    InOrder c (s.put n stage lastGood event?) := by
  have hsame : ∀ id, recordings id (s.history ++ event?.toList) = recordings id s.history := by
    intro id
    rw [recordings_concat, hevent, Option.toList_none, List.append_nil]
  refine h.put (fun _ => hone) hnodup (fun m x hx id value hfresh => ?_) fun id => ?_
  · rw [hsame]
    obtain ⟨-, heq⟩ | ⟨-, heq⟩ := s.put_scrapes n stage lastGood event? m
    · exact hnewer x (heq ▸ hx) id value hfresh
    · exact h.newer m x (heq ▸ hx) id value hfresh
  · rw [hsame]
    exact h.sorted id

/-- The report that is recorded is newer than what was recorded before, and nothing that is left
concerns its metric. -/
theorem add (h : InOrder c s) {n : Nat} {x : Timed} {rest : List Timed} {sum next : Composition}
    {lastGood : LastGood} (hstage : s.scrapes n = .composing (x :: rest) sum) :
    InOrder c (s.put n (.composing rest next) lastGood (telling? s.lastGood x)) := by
  have hbusy : (s.scrapes n).Busy := by rw [hstage]; trivial
  have hpending : (s.scrapes n).pending = x :: rest := by rw [hstage]; rfl
  have hx : x ∈ (s.scrapes n).pending := hpending ▸ List.mem_cons_self
  have hnodup := h.nodup n (x :: rest) sum hstage
  have hothers := h.idle_of_ne hbusy
  have hrest : ∀ reports sum', Stage.composing rest next = .composing reports sum' →
      (reports.filterMap Timed.metric?).Nodup := by
    rintro reports sum' ⟨⟩
    exact (List.Sublist.filterMap _ (List.sublist_cons_self x rest)).nodup hnodup
  cases hfresh : x.report.fresh? with
  | none =>
    refine h.move (fun id => ?_) hothers hrest fun y hy => ?_
    · rw [recording?_telling, Timed.recording?, hfresh]
      rfl
    · exact h.newer n y (hpending ▸ List.mem_cons_of_mem x hy)
  | some new =>
    obtain ⟨own, value⟩ := new
    have hlog : ∀ id, recordings id (s.history ++ (telling? s.lastGood x).toList) =
        recordings id s.history ++ if own = id then [(x.time, value)] else [] := by
      intro id
      rw [recordings_concat, recording?_telling, Timed.recording?, hfresh]
      by_cases hid : own = id <;> simp [hid]
    refine h.put (fun _ => hothers) hrest (fun m y hy id found hmade => ?_) fun id => ?_
    · obtain ⟨rfl, heq⟩ | ⟨hne, heq⟩ :=
        s.put_scrapes n (.composing rest next) lastGood (telling? s.lastGood x) m
      · have hleft : y ∈ rest := by rw [heq] at hy; exact hy
        have hid : own ≠ id := fun hid =>
          fresh?_ne_of_nodup hnodup hfresh hleft found (hid ▸ hmade)
        rw [hlog, if_neg hid, List.append_nil]
        exact h.newer m y (hpending ▸ List.mem_cons_of_mem x hleft) id found hmade
      · rw [heq, Stage.pending_of_not_busy (hothers m hne)] at hy
        cases hy
    · rw [hlog]
      split
      · next hid =>
        refine List.pairwise_append.mpr ⟨h.sorted id, List.pairwise_singleton .., ?_⟩
        intro p hp q hq
        rw [List.mem_singleton.mp hq]
        exact (h.newer n x hx id value (hid ▸ hfresh) p hp).le
      · rw [List.append_nil]
        exact h.sorted id

theorem step (hplan : (c.plan.filterMap ScrapeTask.metric?).Nodup)
    (hsound : Sound c s) (h : InOrder c s) (hstep : Step c s t)
    (hturn : ∀ n, s.scrapes n = .ahead → (t.scrapes n).Busy → ∀ m, ¬ (s.scrapes m).Busy) :
    InOrder c t := by
  cases hstep with
  | start n stage =>
    have hidle := hturn n stage (by rw [put_self]; trivial)
    exact h.move (fun id => rfl) (fun m _ => hidle m) (by simp) (by simp [Stage.pending])
  | @finish made n report stage planned fits sourced =>
    have hbusy : (s.scrapes n).Busy := by rw [stage]; trivial
    refine h.move (fun id => recording?_shaping report) (h.idle_of_ne hbusy) (by simp)
      fun x hx => ?_
    rcases List.mem_append.mp hx with hold | hnew
    · exact h.newer n x (by rw [stage]; exact hold)
    · intro id value hfresh p hp
      obtain rfl := List.mem_singleton.mp hnew
      have hshaped := hsound.shown id p.1 p.2 (mem_recordings.mp hp)
      exact (List.getElem?_eq_some_iff.mp hshaped).1
  | @compose made n reports stage gathers =>
    have hbusy : (s.scrapes n).Busy := by rw [stage]; trivial
    refine h.move (fun id => rfl) (h.idle_of_ne hbusy) ?_ fun x hx id value hfresh => ?_
    · rintro own sum ⟨⟩
      exact gathers.nodup hplan
    · rcases gathers.made x hx with hmade | hgiven
      · exact h.newer n x (by rw [stage]; exact hmade) id value hfresh
      · cases hgiven.fresh?.symm.trans hfresh
  | add n stage sums => exact h.add stage

end InOrder

theorem Serial.reached (h : Serial c s) : Reached c s := by
  induction h with
  | start => exact .refl
  | step _ hstep _ ih => exact ih.tail hstep

theorem Serial.inOrder (hindexed : c.Indexed)
    (hplan : (c.plan.filterMap ScrapeTask.metric?).Nodup) (h : Serial c s) : InOrder c s := by
  induction h with
  | start =>
    refine ⟨?_, ?_, ?_, fun id => .nil⟩
    · rintro m n ⟨⟩
    · rintro n reports sum ⟨⟩
    · rintro n x ⟨⟩
  | step hserial hstep hturn ih =>
    exact ih.step hplan (hserial.reached.sound hindexed) hstep hturn

/-- Scrapes one after another record everything in the order in which it was shaped. -/
theorem Serial.not_relapses (hindexed : c.Indexed)
    (hplan : (c.plan.filterMap ScrapeTask.metric?).Nodup) (h : Serial c s) (id : MetricId) :
    ¬ Relapses (recordings id s.history) :=
  not_relapses_of_pairwise ((h.inOrder hindexed hplan).sorted id)

/-- What the scrape of an exporter makes of its latest good values, one more scrape does that
nobody overlaps with. -/
theorem exists_scrape {e : Exporter} (hindexed : c.Indexed) (he : Exporter.Consistent c e)
    (hlast : s.lastGood = e.lastGood) {n : Nat} (hstage : s.scrapes n = .ahead)
    (hidle : ∀ m, ¬ (s.scrapes m).Busy) (hserial : Serial c s) :
    ∃ t sum, Leads c s t ∧ Serial c t ∧ t.scrapes n = .composing [] sum ∧
      (∀ m, m ≠ n → t.scrapes m = s.scrapes m) ∧ t.lastGood = e.scrape.2.lastGood ∧
      e.scrape.1.failures = sum.failures.length ∧ ∃ gauges, e.scrape.1.body =
        Exposition.text gauges ++ Exposition.text sum.output.families := by
  obtain ⟨fates, hsettled, hreports, hsourced⟩ := he.settles hindexed
  obtain ⟨-, hscraped, hfailures, ⟨metrics, hbody⟩, -⟩ := e.scrape_eq
  rw [he.catalog, hreports] at hscraped hfailures hbody
  have hstart : Step c s (s.put n (.gathering []) s.lastGood none) := .start n hstage
  obtain ⟨t, sum, hworks, ht, hsum⟩ := exists_composed hsettled hsourced
    (s := s.put n (.gathering []) s.lastGood none) put_self
  have hsum : { sum with lastGood := t.lastGood } =
      Composition.ofReports c e.lastGood fates.reports := hlast ▸ hsum
  rw [← hsum] at hscraped hfailures hbody
  refine ⟨t, sum, .head hstart hworks.leads, ?_, ht, fun m hne => ?_, hscraped.symm, hfailures,
    _, hbody⟩
  · exact hworks.serial (hserial.step hstart fun m _ _ => hidle)
  · exact (hworks.others hne).trans (put_of_ne hne)

/-- Whatever the owner of an exporter asks for, its latest good values are those of scrapes one
after another. -/
theorem exists_serial {e : Exporter} (hindexed : c.Indexed)
    (hplan : (c.plan.filterMap ScrapeTask.metric?).Nodup) (h : Exporter.Reached c e) :
    ∃ s, Serial c s ∧ s.lastGood = e.lastGood ∧ (∀ m, ¬ (s.scrapes m).Busy) ∧
      ∃ n, ∀ m, n ≤ m → s.scrapes m = .ahead := by
  induction h with
  | start setup files network => exact ⟨{}, .start, rfl, fun m => id, 0, fun m _ => rfl⟩
  | @scrape e h ih =>
    obtain ⟨s, hserial, hlast, hidle, n, hahead⟩ := ih
    obtain ⟨t, sum, -, ht, hown, hothers, hscraped, -⟩ := exists_scrape hindexed
      (h.consistent hindexed hplan) hlast (hahead n le_rfl) hidle hserial
    refine ⟨t, ht, hscraped, fun m hbusy => ?_, n + 1, fun m hm => ?_⟩
    · by_cases hne : m = n
      · subst hne
        rw [hown] at hbusy
        exact hbusy
      · exact hidle m (hothers m hne ▸ hbusy)
    · rw [hothers m (by omega)]
      exact hahead m (by omega)
  | sleep milliseconds _ ih => exact ih
  | shutDown _ ih => exact ih
  | spawn ha _ ih => exact ih
  | @await e number _ ih =>
    have hsame : (e.await number).2.lastGood = e.lastGood := by
      rw [Exporter.await]
      split <;> rfl
    rw [hsame]
    exact ih
  | changeSupply f _ ih => exact ih
  | takeFailures _ ih => exact ih

/-- So an exporter whose scrapes do not overlap holds the newest value of each metric. -/
theorem exists_newest {e : Exporter} (hindexed : c.Indexed)
    (hplan : (c.plan.filterMap ScrapeTask.metric?).Nodup) (h : Exporter.Reached c e)
    {value : Shaped} (hvalue : e.lastGood.get? id = some value) :
    ∃ s, Serial c s ∧ s.lastGood = e.lastGood ∧ IsNewest (recordings id s.history) value := by
  obtain ⟨s, hserial, hlast, -⟩ := exists_serial hindexed hplan h
  have hlatest := hserial.reached.latest_of_not_relapses hindexed
    (hserial.not_relapses hindexed hplan id)
  exact ⟨s, hserial, hlast, hlatest.held value (hlast ▸ hvalue)⟩

/-! ### Two scrapes that overlap -/

/-- All tasks are late, but those that feed one metric. -/
def onlyMetric (c : Catalog) (id : MetricId) (value : Shaped) : Fates :=
  c.plan.map fun task =>
    (task, if task.metric? = some id then .done 0 (.shaped value) else .late 0)

section Overtaken

variable {value other : Shaped}

theorem settled_onlyMetric (c : Catalog) (id : MetricId) (value : Shaped) :
    Settled c (onlyMetric c id value) where
  tasks := by
    rw [onlyMetric, List.map_map]
    exact List.map_id _
  fits := by
    intro x hx
    obtain ⟨task, -, rfl⟩ := List.mem_map.mp hx
    by_cases hfed : task.metric? = some id
    · cases task with
      | forward service resource => cases hfed
      | metric service resource own => simp [hfed, Fate.report, TaskReport.Fits]
    · simp only [if_neg hfed]
      exact Fate.fits_of_not_done rfl task

/-- A report of such a scrape is late, or the one that brings the value. -/
theorem report_onlyMetric {r : TaskReport} (h : r ∈ (onlyMetric c id value).reports) :
    (r.task.metric? = some id ∧ r = ⟨r.task, 0, .ok (.shaped value)⟩) ∨ r.GivenUp := by
  obtain ⟨x, hx, rfl⟩ := List.mem_map.mp h
  obtain ⟨task, -, rfl⟩ := List.mem_map.mp ((Fates.ordered_perm _).mem_iff.mp hx)
  by_cases hfed : task.metric? = some id
  · simp only [if_pos hfed]
    exact Or.inl ⟨hfed, rfl⟩
  · simp only [if_neg hfed]
    exact Or.inr (Or.inl rfl)

/-- The only task that feeds a metric. -/
theorem eq_of_metric? {tasks : List ScrapeTask}
    (hnodup : (tasks.filterMap ScrapeTask.metric?).Nodup) {task task' : ScrapeTask}
    (hmem : task ∈ tasks) (hmem' : task' ∈ tasks) (hfed : task.metric? = some id)
    (hfed' : task'.metric? = some id) : task = task' := by
  have hapart : tasks.Pairwise fun a b => a.metric? = some id → b.metric? ≠ some id := by
    refine (List.pairwise_filterMap.mp hnodup).imp fun hne ha hb => ?_
    exact hne id ha id hb rfl
  by_contra hne
  obtain ⟨before, after, rfl⟩ := List.append_of_mem hmem
  rw [List.pairwise_append, List.pairwise_cons] at hapart
  obtain ⟨-, ⟨hafter, -⟩, hbefore⟩ := hapart
  rcases List.mem_append.mp hmem' with hin | hin
  · exact hbefore task' hin task List.mem_cons_self hfed' hfed
  · rcases List.mem_cons.mp hin with heq | hin
    · exact hne heq.symm
    · exact hafter task' hin hfed hfed'

def timedOnly (c : Catalog) (id : MetricId) (value : Shaped) (time : Nat) : List Timed :=
  (onlyMetric c id value).reports.map fun r => ⟨r, time⟩

variable {task : ScrapeTask}

theorem mem_timedOnly (htask : task ∈ c.plan) (hfed : task.metric? = some id) (value : Shaped)
    (time : Nat) :
    (⟨⟨task, 0, .ok (.shaped value)⟩, time⟩ : Timed) ∈ timedOnly c id value time := by
  refine List.mem_map_of_mem (List.mem_map.mpr ⟨(task, .done 0 (.shaped value)), ?_, rfl⟩)
  exact (Fates.ordered_perm _).mem_iff.mpr (List.mem_map.mpr ⟨task, htask, by rw [if_pos hfed]⟩)

theorem gathers_timedOnly (hplan : (c.plan.filterMap ScrapeTask.metric?).Nodup)
    (htask : task ∈ c.plan) (hfed : task.metric? = some id) (value : Shaped) (time : Nat) :
    Gathers c [⟨⟨task, 0, .ok (.shaped value)⟩, time⟩] (timedOnly c id value time) where
  settled := by
    refine ⟨_, settled_onlyMetric c id value, ?_⟩
    rw [timedOnly, List.map_map]
    exact List.map_id _
  made := by
    intro x hx
    obtain ⟨r, hr, rfl⟩ := List.mem_map.mp hx
    rcases report_onlyMetric hr with ⟨hown, heq⟩ | hgiven
    · have hmem : r.task ∈ c.plan := by
        obtain ⟨y, hy, rfl⟩ := List.mem_map.mp hr
        have hy := List.mem_map_of_mem (f := Prod.fst) ((Fates.ordered_perm _).mem_iff.mp hy)
        rw [(settled_onlyMetric c id value).tasks] at hy
        rwa [Fate.report_task]
      rw [eq_of_metric? hplan htask hmem hfed hown, ← heq]
      exact Or.inl List.mem_cons_self
    · exact Or.inr hgiven

/-- Such a scrape records its value and nothing else of the metric. -/
theorem recorded_timedOnly (htask : task ∈ c.plan) (hfed : task.metric? = some id) (value : Shaped)
    (time : Nat) : ∃ rest, (timedOnly c id value time).filterMap (Timed.recording? id) =
      rest ++ [(time, value)] ∧ ∀ p ∈ rest, p = (time, value) := by
  have hall : ∀ p ∈ (timedOnly c id value time).filterMap (Timed.recording? id),
      p = (time, value) := by
    intro p hp
    obtain ⟨x, hx, hrecorded⟩ := List.mem_filterMap.mp hp
    obtain ⟨r, hr, rfl⟩ := List.mem_map.mp hx
    rcases report_onlyMetric hr with ⟨hown, heq⟩ | hgiven
    · rw [Timed.recording?, heq] at hrecorded
      cases htask : r.task with
      | forward service resource =>
        rw [htask] at hown
        cases hown
      | metric service resource own =>
        rw [htask] at hown hrecorded
        cases hown
        simpa [TaskReport.fresh?] using hrecorded.symm
    · rw [Timed.recording?, hgiven.fresh?] at hrecorded
      cases hrecorded
  rcases List.eq_nil_or_concat' ((timedOnly c id value time).filterMap (Timed.recording? id)) with
    hnil | ⟨rest, last, hsplit⟩
  · have hmem : (time, value) ∈ (timedOnly c id value time).filterMap (Timed.recording? id) := by
      refine List.mem_filterMap.mpr ⟨_, mem_timedOnly htask hfed value time, ?_⟩
      cases task with
      | forward service resource => cases hfed
      | metric service resource own =>
        cases hfed
        simp [Timed.recording?, TaskReport.fresh?]
    rw [hnil] at hmem
    cases hmem
  · rw [hsplit] at hall
    refine ⟨rest, ?_, fun p hp => hall p (List.mem_append_left _ hp)⟩
    rw [hsplit, hall last (by simp)]

/-- A scrape that has shaped the metric records its value, whatever there was before. -/
theorem exists_recorded (hplan : (c.plan.filterMap ScrapeTask.metric?).Nodup)
    (htask : task ∈ c.plan) (hfed : task.metric? = some id) {n time : Nat}
    (hstage : s.scrapes n = .gathering [⟨⟨task, 0, .ok (.shaped value)⟩, time⟩]) :
    ∃ t rest, Leads c s t ∧ (∀ m, m ≠ n → t.scrapes m = s.scrapes m) ∧
      recordings id t.history = recordings id s.history ++ (rest ++ [(time, value)]) ∧
      ∀ p ∈ rest, p = (time, value) := by
  have hcompose : Step c s _ :=
    .compose n _ hstage (gathers_timedOnly hplan htask hfed value time)
  obtain ⟨t, sum, hworks, -, -, hlog⟩ := exists_added (c := c) (timedOnly c id value time)
    (put_self (n := n))
  obtain ⟨rest, hrest, hall⟩ := recorded_timedOnly htask hfed value time
  refine ⟨t, rest, .head hcompose hworks.leads, fun m hne => ?_, ?_, hall⟩
  · exact (hworks.others hne).trans (put_of_ne hne)
  · rw [hlog, hrest, put, Option.toList_none, List.append_nil]

/-- Two scrapes that have begun, one after the other, to shape a metric. -/
theorem exists_shaped (htask : task ∈ c.plan) (hfed : task.metric? = some id)
    (hvalue : c.Shapes id value) (hother : c.Shapes id other) :
    ∃ s, Reached c s ∧ s.history = [.shaped id value, .shaped id other] ∧
      s.scrapes 0 = .gathering [⟨⟨task, 0, .ok (.shaped value)⟩, 0⟩] ∧
      s.scrapes 1 = .gathering [⟨⟨task, 0, .ok (.shaped other)⟩, 1⟩] := by
  cases task with
  | forward service resource => cases hfed
  | metric service resource own =>
  cases hfed
  let report (v : Shaped) : TaskReport := ⟨.metric service resource id, 0, .ok (.shaped v)⟩
  have hplanned : (([] : List Timed).map Timed.task ++
      [ScrapeTask.metric service resource id]).Subperm c.plan :=
    List.singleton_subperm_iff.mpr htask
  have h₁ : Reached c _ := Relation.ReflTransGen.single (Step.start 0 rfl)
  have h₂ := h₁.tail (Step.start 1 rfl)
  have h₃ := h₂.tail (Step.finish 0 (report value) rfl hplanned trivial hvalue)
  exact ⟨_, h₃.tail (Step.finish 1 (report other) rfl hplanned trivial hother), rfl, rfl, rfl⟩

/-- Of two scrapes that overlap the first one to shape a metric can be put together last. Its value
stays, though it is older than the one that was there. -/
theorem exists_overtaken (hplan : (c.plan.filterMap ScrapeTask.metric?).Nodup)
    (htask : task ∈ c.plan) (hfed : task.metric? = some id) (hvalue : c.Shapes id value)
    (hother : c.Shapes id other) (hne : value ≠ other) :
    ∃ s, Reached c s ∧ Relapses (recordings id s.history) := by
  obtain ⟨s, hs, hhistory, hfirst, hsecond⟩ := exists_shaped htask hfed hvalue hother
  obtain ⟨t, newer, ht, hothers, hlog, hnewer⟩ := exists_recorded hplan htask hfed hsecond
  obtain ⟨u, older, hu, -, hlog', holder⟩ :=
    exists_recorded hplan htask hfed ((hothers 0 (by decide)).trans hfirst)
  refine ⟨u, (hs.trans ht).trans hu, ?_⟩
  rw [hlog', hlog, hhistory]
  -- The first value that is recorded after the newer ones is the relapse.
  obtain ⟨after, hsplit⟩ : ∃ after, older ++ [(0, value)] = (0, value) :: after := by
    cases older with
    | nil => exact ⟨[], rfl⟩
    | cons p rest =>
      refine ⟨rest ++ [(0, value)], ?_⟩
      rw [holder p List.mem_cons_self, List.cons_append]
  refine ⟨newer ++ [(1, other)], (0, value), after, (1, other), ?_, by simp, ?_, by simp, hne⟩
  · rw [hsplit]
    rfl
  · intro p hp
    rcases List.mem_append.mp hp with hin | hin
    · rw [hnewer p hin]
    · rw [List.mem_singleton.mp hin]

end Overtaken

/-! ### All runs -/

/-- For every configuration without problems and every state that overlapping scrapes come to: the
latest good value of a metric is the one that was recorded last. It and what failed reports showed
have been the newest all along exactly if nothing was recorded after a newer value that differs,
which scrapes one after another never do. In every run this is so exactly for the metrics that
cannot have two values. -/
theorem newest_iff {check : Url.Check} {config : Config} (hvalid : config.problems check = []) :
    (∀ s, Reached config.catalog s → ∀ id,
      s.lastGood.get? id = latest? (recordings id s.history) ∧
      ((∀ t, Reached config.catalog t → Leads config.catalog t s → t.Latest id) ↔
        ¬ Relapses (recordings id s.history))) ∧
    (∀ s, Serial config.catalog s → ∀ id, ¬ Relapses (recordings id s.history)) ∧
    ∀ id ∈ config.catalog.plan.filterMap ScrapeTask.metric?,
      (∀ s, Reached config.catalog s → s.Latest id) ↔
        ∀ value other, config.catalog.Shapes id value → config.catalog.Shapes id other →
          value = other := by
  have hindexed := Catalog.build_indexed config.definitions
  have hplan := Config.nodup_plan hvalid
  refine ⟨fun s hs id => ⟨(hs.sound hindexed).held id, hs.latest_iff hindexed⟩,
    fun s hs => hs.not_relapses hindexed hplan, fun id hid => ⟨?_, ?_⟩⟩
  · intro hlatest value other hvalue hother
    obtain ⟨task, htask, hfed⟩ := List.mem_filterMap.mp hid
    by_contra hne
    obtain ⟨s, hs, hlog⟩ := exists_overtaken hplan htask hfed hvalue hother hne
    obtain ⟨t, ht, -, hnot⟩ := hs.not_latest_of_relapses hindexed hlog
    exact hnot (hlatest t ht)
  · intro hone s hs
    refine hs.latest_of_not_relapses hindexed ?_
    rintro ⟨before, r, after, q, hsplit, hq, -, -, hne⟩
    have hshapes : ∀ p ∈ recordings id s.history, config.catalog.Shapes id p.2 := fun p hp =>
      (hs.sound hindexed).sourced id p.2 (List.mem_of_getElem?
        ((hs.sound hindexed).shown id p.1 p.2 (mem_recordings.mp hp)))
    exact hne (hone r.2 q.2 (hshapes r (by simp [hsplit])) (hshapes q (by simp [hsplit, hq])))

/-! ### A gauge that goes back -/

def gaugeTask : ScrapeTask := .metric ⟨0⟩ ⟨0⟩ ⟨0⟩

/-- The gauge can have any value. -/
theorem shapes_gauge (x : Float) : gaugeConfig.catalog.Shapes ⟨0⟩ (.scalar x) :=
  ⟨_, .map [("load", .number x)], rfl, rfl⟩

theorem planned_gauge :
    (([] : List Timed).map Timed.task ++ [gaugeTask]).Subperm gaugeConfig.catalog.plan :=
  List.singleton_subperm_iff.mpr (by decide)

theorem gathers_gauge {made : List Timed} (fate : Fate) {time : Nat}
    (hfits : (fate.report gaugeTask).Fits)
    (hmade : ⟨fate.report gaugeTask, time⟩ ∈ made ∨ (fate.report gaugeTask).GivenUp) :
    Gathers gaugeConfig.catalog made [⟨fate.report gaugeTask, time⟩] where
  settled := by
    refine ⟨[(gaugeTask, fate)], ⟨rfl, by simpa using hfits⟩, ?_⟩
    cases fate <;> rfl
  made := by simpa using hmade

/-- The first of two scrapes shapes 1, the second one shapes 2, and the second one is put together
first. -/
def overtaken : List Event :=
  [.shaped ⟨0⟩ (.scalar 1.0), .shaped ⟨0⟩ (.scalar 2.0), .shown ⟨0⟩ 1 (.scalar 2.0),
    .shown ⟨0⟩ 0 (.scalar 1.0)]

/-- In a third scrape the gauge is late. -/
theorem run_overtaken : ∃ s, Reached gaugeConfig.catalog s ∧
    s.lastGood.get? ⟨0⟩ = some (.scalar 1.0) ∧
    s.history = overtaken ++ [.fallback ⟨0⟩ (some (.scalar 1.0))] := by
  let fate (x : Float) : Fate := .done 0 (.shaped (.scalar x))
  have h₁ : Reached gaugeConfig.catalog _ := Relation.ReflTransGen.single (Step.start 0 rfl)
  have h₂ := h₁.tail (Step.start 1 rfl)
  have h₃ := h₂.tail (Step.finish 0 ((fate 1.0).report gaugeTask) rfl planned_gauge trivial
    (shapes_gauge 1.0))
  have h₄ := h₃.tail (Step.finish 1 ((fate 2.0).report gaugeTask) rfl planned_gauge trivial
    (shapes_gauge 2.0))
  have h₅ := h₄.tail (Step.compose 1 _ rfl
    (gathers_gauge (fate 2.0) trivial (.inl List.mem_cons_self)))
  have h₆ := (h₅.tail (Step.add 1 rfl rfl)).tail (Step.compose 0 _ rfl
    (gathers_gauge (fate 1.0) trivial (.inl List.mem_cons_self)))
  have h₇ := (h₆.tail (Step.add 0 rfl rfl)).tail (Step.start 2 rfl)
  have h₈ := h₇.tail (Step.compose 2 [⟨_, 0⟩] rfl
    (gathers_gauge (.late 0) trivial (.inr (.inl rfl))))
  exact ⟨_, h₈.tail (Step.add 2 rfl rfl), rfl, rfl⟩

theorem scalar_one_ne_two : Shaped.scalar 1.0 ≠ Shaped.scalar 2.0 := by
  intro h
  injection h with hvalue
  exact absurd hvalue (by decide)

/-- One after another no scrape takes the gauge back; overlapping ones can. -/
theorem newest_iff_gauge : gaugeConfig.problems Url.hosted = [] ∧
    (∃ s, Reached gaugeConfig.catalog s ∧
      latest? (recordings ⟨0⟩ s.history) = some (.scalar 1.0)) ∧
    (∀ s, Serial gaugeConfig.catalog s → ¬ Relapses (recordings ⟨0⟩ s.history)) ∧
    ∃ s, Reached gaugeConfig.catalog s ∧ ¬ s.Latest ⟨0⟩ := by
  have hvalid : gaugeConfig.problems Url.hosted = [] := by decide
  obtain ⟨hreached, hserial, hvalues⟩ := newest_iff hvalid
  refine ⟨hvalid, ?_, fun s hs => hserial s hs ⟨0⟩, ?_⟩
  · obtain ⟨s, hs, hheld, -⟩ := run_overtaken
    exact ⟨s, hs, ((hreached s hs ⟨0⟩).1).symm.trans hheld⟩
  · by_contra hall
    push Not at hall
    exact scalar_one_ne_two
      ((hvalues ⟨0⟩ (by decide)).mp hall _ _ (shapes_gauge 1.0) (shapes_gauge 2.0))

/-- The gauge fails and shows 1, though the newer value 2 was shown before. -/
theorem not_latest_overtaken : gaugeConfig.problems Url.hosted = [] ∧
    ∃ s, Reached gaugeConfig.catalog s ∧
    s.history = overtaken ++ [.fallback ⟨0⟩ (some (.scalar 1.0))] ∧
    recordings ⟨0⟩ overtaken = [(1, .scalar 2.0), (0, .scalar 1.0)] ∧ ¬ s.Latest ⟨0⟩ := by
  have hlog : recordings ⟨0⟩ overtaken = [(1, .scalar 2.0), (0, .scalar 1.0)] := rfl
  obtain ⟨s, hs, -, hhistory⟩ := run_overtaken
  refine ⟨by decide, s, hs, hhistory, hlog, fun hlatest => ?_⟩
  obtain ⟨q, hq, hvalue, hmax⟩ := hlatest.fallback (.scalar 1.0) overtaken [] hhistory
  rw [hlog] at hq hmax
  have hage : 1 ≤ q.1 := hmax (1, .scalar 2.0) List.mem_cons_self
  rcases List.mem_cons.mp hq with rfl | hq
  · exact scalar_one_ne_two hvalue.symm
  · obtain rfl := List.mem_singleton.mp hq
    omega

end MetricRelay.Overlap
