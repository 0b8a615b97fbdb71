import Mathlib.Algebra.BigOperators.Group.Finset.Piecewise
import MetricRelay.Proofs.Scrape.Declared

/-!
# What a scrape counts

The output of a scrape holds the samples that its successful tasks bring, one companion
for each planned metric, and the latest good values that stand in for failed metrics.
How many samples a service has brought is what the gauge of the samples is to tell of it.
-/

namespace MetricRelay

open MetricRelay.Composition (Known contribution shown)

namespace Composition

variable {catalog : Catalog}

/-- The samples that a task brings if it succeeds. -/
def brought (catalog : Catalog) : ScrapeTask × Fate → List Sample
  | (.metric service _ id, fate) =>
    match catalog.metric? id, catalog.service? service with
    | some m, some s => (fate.shaped?.map (Render.samples m s.identity)).getD []
    | _, _ => []
  | (.forward .., .done _ (.families fs)) => fs.flatMap (·.samples)
  | (.forward .., _) => []

/-- The samples that the successful tasks of a service bring. -/
def given (catalog : Catalog) (fates : Fates) (service : ServiceId) : List Sample :=
  (fates.filter (·.1.service = service)).flatMap (brought catalog)

/-- The latest good value that a failed metric shows. -/
def standIn (before : LastGood) : ScrapeTask × Fate → Option Shaped
  | (.metric _ _ id, fate) => if fate.isDone then none else before.get? id
  | (.forward .., _) => none

/-! ### Counting -/

theorem get_tally_self (k : ServiceId) (f : Option Nat → Nat) (entries : List (ServiceId × Nat)) :
    get k (tally k f entries) = some (f (get k entries)) := by
  rw [get, tally, Keyed.find?_replace]
  rfl

theorem get_tally_of_ne {k other : ServiceId} (h : other ≠ k) (f : Option Nat → Nat)
    (entries : List (ServiceId × Nat)) : get other (tally k f entries) = get other entries := by
  rw [get, tally, Keyed.find?_replace_of_ne h]
  rfl

theorem foldl_length_samples (fs : List Family) (n : Nat) :
    fs.foldl (fun n f => n + f.samples.length) n = n + (fs.flatMap (·.samples)).length := by
  induction fs generalizing n with
  | nil => rfl
  | cons f fs ih =>
    rw [List.foldl_cons, ih, List.flatMap_cons, List.length_append, Nat.add_assoc]

theorem brought_metric {service : ServiceId} {id : MetricId} {m : Catalog.Metric}
    {s : Catalog.Service} (hm : catalog.metric? id = some m)
    (hs : catalog.service? service = some s) (resource : ResourceId) (fate : Fate) :
    brought catalog (.metric service resource id, fate) =
      (fate.shaped?.map (Render.samples m s.identity)).getD [] := by
  simp only [brought, hm, hs]

theorem brought_of_not_done {task : ScrapeTask} {fate : Fate} (h : fate.isDone = false) :
    brought catalog (task, fate) = [] := by
  cases fate with
  | done finished value => cases h
  | failed | crowdedOut | refused | late | dropped =>
    cases task with
    | forward service resource => rfl
    | metric service resource id =>
      rw [brought]
      split <;> rfl

/-- One report adds to the count of its service as many samples as its task has brought. -/
theorem samples_add_report (c : Composition) {task : ScrapeTask} {fate : Fate}
    (hknown : Known catalog task) (hfits : (fate.report task).Fits) :
    (add catalog c (fate.report task)).samples =
      if fate.isDone then
        tally task.service (fun n => n.getD 0 + (brought catalog (task, fate)).length) c.samples
      else c.samples := by
  by_cases hdone : fate.isDone = true
  · rw [if_pos hdone]
    cases fate with
    | failed | crowdedOut | refused | late | dropped => cases hdone
    | done finished value =>
      cases task with
      | metric service resource id =>
        obtain ⟨⟨m, hm⟩, s, hs⟩ := hknown
        cases value with
        | families fs => exact False.elim hfits
        | shaped value =>
          have hcount : (brought catalog (.metric service resource id,
              .done finished (.shaped value))).length = value.sampleCount := by
            rw [brought_metric hm hs]
            exact Render.length_samples s.identity m value
          rw [hcount]
          simp only [Fate.report, add, addResult, hm, hs]
          rfl
      | forward service resource =>
        cases value with
        | shaped value => exact False.elim hfits
        | families fs =>
          have hcount : fs.foldl (fun n f => n + f.samples.length) 0 =
              (brought catalog (.forward service resource,
                .done finished (.families fs))).length :=
            (foldl_length_samples fs 0).trans (Nat.zero_add _)
          rw [← hcount]
          rfl
  · rw [if_neg hdone]
    obtain ⟨now, error, hreport⟩ := Fate.report_of_not_done (by simpa using hdone) task
    rw [hreport]
    cases task with
    | forward service resource => rfl
    | metric service resource id =>
      obtain ⟨⟨m, hm⟩, s, hs⟩ := hknown
      simp only [add, addResult, hm, hs]
      rfl

theorem given_cons (x : ScrapeTask × Fate) (rest : Fates) (k : ServiceId) :
    (given catalog (x :: rest) k).length =
      (if x.1.service = k then (brought catalog x).length else 0) +
        (given catalog rest k).length := by
  by_cases h : x.1.service = k
  · simp [given, h]
  · simp [given, h]

theorem count_add_report (c : Composition) {task : ScrapeTask} {fate : Fate}
    (hknown : Known catalog task) (hfits : (fate.report task).Fits) (k : ServiceId) :
    (get k (add catalog c (fate.report task)).samples).getD 0 = (get k c.samples).getD 0 +
      if task.service = k then (brought catalog (task, fate)).length else 0 := by
  rw [samples_add_report c hknown hfits]
  by_cases hdone : fate.isDone = true
  · rw [if_pos hdone]
    by_cases hk : task.service = k
    · subst hk
      rw [get_tally_self, if_pos rfl, Option.getD_some]
    · rw [get_tally_of_ne (Ne.symm hk), if_neg hk, Nat.add_zero]
  · have hnone : brought catalog (task, fate) = [] := brought_of_not_done (by simpa using hdone)
    rw [if_neg hdone, hnone, List.length_nil, ite_self, Nat.add_zero]

/-- The count of a service is that of the samples which its tasks have brought. -/
theorem count_foldl_add {fates : Fates} (hknown : ∀ x ∈ fates, Known catalog x.1)
    (hfits : ∀ x ∈ fates, (x.2.report x.1).Fits) (k : ServiceId) (c : Composition) :
    (get k ((fates.map fun x => x.2.report x.1).foldl (add catalog) c).samples).getD 0 =
      (get k c.samples).getD 0 + (given catalog fates k).length := by
  induction fates generalizing c with
  | nil => rfl
  | cons x rest ih =>
    have hfirst := count_add_report c (hknown x List.mem_cons_self) (hfits x List.mem_cons_self) k
    rw [List.map_cons, List.foldl_cons, ih (fun y hy => hknown y (List.mem_cons_of_mem x hy))
      (fun y hy => hfits y (List.mem_cons_of_mem x hy)), hfirst, given_cons, Nat.add_assoc]

/-! ### Totals -/

/-- A task adds to the output what it has brought, or what stands in for it, and the companion of
its metric. -/
theorem length_contribution {task : ScrapeTask} {fate : Fate} (before : LastGood)
    (hknown : Known catalog task) (hfits : (fate.report task).Fits) :
    ((contribution catalog before (task, fate)).flatMap (·.samples)).length =
      (brought catalog (task, fate)).length + task.metric?.toList.length +
        (((standIn before (task, fate)).toList.map Shaped.sampleCount).sum) := by
  cases task with
  | forward service resource =>
    cases fate with
    | done finished value =>
      cases value with
      | shaped value => exact False.elim hfits
      | families fs => rfl
    | failed | crowdedOut | refused | late | dropped => rfl
  | metric service resource id =>
    obtain ⟨⟨m, hm⟩, s, hs⟩ := hknown
    rw [contribution_metric hm hs, brought_metric hm hs, shown, standIn,
      Fate.isDone_eq_shaped? hfits, List.flatMap_append, List.length_append]
    have hup : ([Render.upFamily m s.identity fate.shaped?.isSome].flatMap (·.samples)).length =
      (ScrapeTask.metric? (.metric service resource id)).toList.length := rfl
    rw [hup]
    cases fate.shaped? with
    | some value => simp [Render.valueFamily]
    | none =>
      cases before.get? id with
      | some value =>
        simp [Render.valueFamily, Render.length_samples, Nat.add_comm]
      | none => simp

theorem length_contributions {fates : Fates} (before : LastGood)
    (hknown : ∀ x ∈ fates, Known catalog x.1) (hfits : ∀ x ∈ fates, (x.2.report x.1).Fits) :
    ((fates.flatMap (contribution catalog before)).flatMap (·.samples)).length =
      (fates.flatMap (brought catalog)).length + (fedMetrics fates).length +
        ((fates.filterMap (standIn before)).map Shaped.sampleCount).sum := by
  induction fates with
  | nil => rfl
  | cons x rest ih =>
    have hrest := ih (fun y hy => hknown y (List.mem_cons_of_mem x hy))
      fun y hy => hfits y (List.mem_cons_of_mem x hy)
    have hfirst := length_contribution before (hknown x List.mem_cons_self)
      (hfits x List.mem_cons_self)
    rw [Prod.mk.eta] at hfirst
    have hfed : (fedMetrics (x :: rest)).length =
        x.1.metric?.toList.length + (fedMetrics rest).length := by
      rw [fedMetrics, List.filterMap_cons]
      cases x.1.metric? with
      | none => exact (Nat.zero_add _).symm
      | some id => exact Nat.add_comm _ 1
    have hstands : (((x :: rest).filterMap (standIn before)).map Shaped.sampleCount).sum =
        ((standIn before x).toList.map Shaped.sampleCount).sum +
          ((rest.filterMap (standIn before)).map Shaped.sampleCount).sum := by
      rw [List.filterMap_cons]
      cases standIn before x with
      | none => exact (Nat.zero_add _).symm
      | some value => simp
    rw [List.flatMap_cons, List.flatMap_append, List.length_append, hfirst, hrest, hfed, hstands,
      List.flatMap_cons, List.length_append]
    omega

/-- Every task belongs to one service, so the services together bring what all tasks bring. -/
theorem sum_given {keys : List ServiceId} (hkeys : keys.Nodup) {fates : Fates}
    (h : ∀ x ∈ fates, x.1.service ∈ keys) :
    (keys.map fun k => (given catalog fates k).length).sum =
      (fates.flatMap (brought catalog)).length := by
  induction fates with
  | nil => simp [given]
  | cons x rest ih =>
    have hrest := ih fun y hy => h y (List.mem_cons_of_mem x hy)
    have hown : (keys.map fun k =>
        if x.1.service = k then (brought catalog x).length else 0).sum =
          (brought catalog x).length := by
      rw [← List.sum_toFinset _ hkeys, Finset.sum_ite_eq, if_pos]
      exact List.mem_toFinset.mpr (h x List.mem_cons_self)
    simp only [given_cons]
    rw [List.sum_map_add, hown, hrest, List.flatMap_cons, List.length_append]

end Composition
end MetricRelay
