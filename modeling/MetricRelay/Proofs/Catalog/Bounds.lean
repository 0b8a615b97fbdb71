import MetricRelay.Proofs.Catalog.Metrics
import MetricRelay.Proofs.Number.Growth

/-!
# Bounds of buckets

A valid configuration gives every histogram at least one bound. It does not keep
what is no number out of a list, nor infinity out of either form, and powers may
outgrow the doubles or start too small to grow. Where the ends of the bounds are
sound, the bounds between them are as well.
-/

namespace MetricRelay

namespace BucketSpec

open Number

structure Increasing (bounds : List Float) : Prop where
  finite : ∀ x ∈ bounds, x.isFinite = true
  pairwise : bounds.Pairwise (· < ·)

/-- The ends that the rules for buckets leave open. -/
def EndsSoundly : BucketSpec → Prop
  | .explicit bounds => (∀ x ∈ bounds, x.isNaN = false) ∧
      (∀ x ∈ bounds.head?, x.isFinite = true) ∧ ∀ x ∈ bounds.getLast?, x.isFinite = true
  | .exponential start factor count => (1 < count → start < start * factor) ∧
      ∀ x ∈ (powers factor count start).getLast?, x.isFinite = true

/-! ### Listed bounds -/

variable {bounds : List Float}

theorem increasing_of_ends (hnumbers : ∀ x ∈ bounds, x.isNaN = false)
    (hfirst : ∀ x ∈ bounds.head?, x.isFinite = true)
    (hlast : ∀ x ∈ bounds.getLast?, x.isFinite = true) (hsorted : bounds.Pairwise (· < ·)) :
    Increasing bounds := by
  refine ⟨?_, hsorted⟩
  intro x hx
  obtain ⟨before, after, rfl⟩ := List.append_of_mem hx
  rcases before with _ | ⟨a, before⟩
  · exact hfirst x rfl
  rcases List.eq_nil_or_concat after with rfl | ⟨after, b, rfl⟩
  · exact hlast x (by simp [List.getLast?_cons])
  have ha := hfirst a rfl
  have hb := hlast b (by simp [List.getLast?_cons])
  rw [List.pairwise_append] at hsorted
  obtain ⟨-, hlater, hacross⟩ := hsorted
  exact isFinite_of_between ha hb (hnumbers x hx) (hacross a List.mem_cons_self x (by simp))
    ((List.pairwise_cons.mp hlater).1 b (by simp))

/-! ### Powers -/

variable {x factor : Float} {n : ℕ}

theorem forall_isFinite_powers
    (h : ∀ y ∈ (powers factor n x).getLast?, y.isFinite = true) :
    ∀ y ∈ powers factor n x, y.isFinite = true := by
  induction n generalizing x with
  | zero => exact fun y hy => nomatch hy
  | succ n ih =>
    cases n with
    | zero => simpa [powers] using h
    | succ n =>
      have hrest := ih (x := x * factor) (by simpa [powers] using h)
      have hnext : (x * factor).isFinite = true := hrest _ List.mem_cons_self
      rw [powers, List.forall_mem_cons]
      exact ⟨(isFinite_of_mul hnext).1, hrest⟩

theorem pairwise_powers (hpos : 0 < x) (hfactor : 1 < factor) (hgrows : 1 < n → x < x * factor)
    (hfinite : ∀ y ∈ powers factor n x, y.isFinite = true) :
    (powers factor n x).Pairwise (· < ·) := by
  induction n generalizing x with
  | zero => exact List.Pairwise.nil
  | succ n ih =>
    cases n with
    | zero => exact List.pairwise_singleton _ x
    | succ n =>
      rw [powers, List.forall_mem_cons] at hfinite
      obtain ⟨hx, hrest⟩ := hfinite
      have hnext : (x * factor).isFinite = true := hrest _ List.mem_cons_self
      have hstep := hgrows (by omega)
      have hzero := isNaN_ofNat 0
      have hpos' := Number.lt_trans hzero (isNaN_of_isFinite hx) (isNaN_of_isFinite hnext) hpos
        hstep
      have hgrows' : 1 < n + 1 → x * factor < x * factor * factor := by
        intro hmore
        cases n with
        | zero => omega
        | succ n =>
          have hthird : (x * factor * factor).isFinite = true := hrest _ (by simp [powers])
          exact grows_on hpos hfactor hstep hthird
      have hsorted := ih hpos' hgrows' hrest
      rw [powers, List.pairwise_cons]
      refine ⟨?_, hsorted⟩
      rw [powers, List.forall_mem_cons]
      refine ⟨hstep, ?_⟩
      intro y hy
      exact Number.lt_trans (isNaN_of_isFinite hx) (isNaN_of_isFinite hnext)
        (isNaN_of_isFinite (hrest y (List.mem_cons_of_mem _ hy))) hstep
        ((List.pairwise_cons.mp hsorted).1 y hy)

/-- Of two powers or more each is finite, so start and factor are numbers and compare. -/
theorem increasing_powers_iff (hstart : ¬ x ≤ 0) (hfactor : ¬ factor ≤ 1) :
    Increasing (powers factor n x) ↔ (1 < n → x < x * factor) ∧
      ∀ y ∈ (powers factor n x).getLast?, y.isFinite = true := by
  rcases n with _ | _ | n
  · exact iff_of_true ⟨fun y hy => absurd hy List.not_mem_nil, List.Pairwise.nil⟩
      ⟨fun hmore => absurd hmore (by decide), fun y hy => nomatch hy⟩
  · constructor
    · rintro ⟨hfinite, -⟩
      exact ⟨fun hmore => absurd hmore (by decide),
        fun y hy => hfinite y (List.mem_of_mem_getLast? hy)⟩
    · rintro ⟨-, hlast⟩
      exact ⟨forall_isFinite_powers hlast, List.pairwise_singleton _ x⟩
  · constructor
    · rintro ⟨hfinite, hsorted⟩
      refine ⟨fun _ => ?_, fun y hy => hfinite y (List.mem_of_mem_getLast? hy)⟩
      exact (List.pairwise_cons.mp hsorted).1 _ List.mem_cons_self
    · rintro ⟨hgrows, hlast⟩
      have hfinite := forall_isFinite_powers hlast
      have hnext : (x * factor).isFinite = true := hfinite _ (by simp [powers])
      obtain ⟨hx, hf⟩ := isFinite_of_mul hnext
      have hpos := (lt_iff_not_le (isNaN_ofNat 0) (isNaN_of_isFinite hx)).mpr hstart
      have hone := (lt_iff_not_le (isNaN_ofNat 1) (isNaN_of_isFinite hf)).mpr hfactor
      exact ⟨hfinite, pairwise_powers hpos hone hgrows hfinite⟩

end BucketSpec

namespace Config

open Number BucketSpec

/-- Bounds that keep the rules are sound between sound ends. -/
theorem bounds_of_faults {h : Histogram} (hfaults : Histogram.faults (some h) = some []) :
    ∃ spec, Catalog.bucketSpec h = some spec ∧ spec.bounds ≠ [] ∧
      (Increasing spec.bounds ↔ spec.EndsSoundly) := by
  obtain ⟨listed, powers⟩ := h
  cases listed with
  | some bounds =>
    cases powers with
    | some e => cases bounds <;> simp [Histogram.faults] at hfaults
    | none =>
      have hne : bounds ≠ [] := by
        rintro rfl
        simp [Histogram.faults] at hfaults
      have hsorted : Histogram.disordered bounds = false := by
        cases bounds with
        | nil => exact absurd rfl hne
        | cons a rest => simpa [Histogram.faults] using hfaults
      refine ⟨.explicit bounds, rfl, hne, ?_, ?_⟩
      · intro hincreasing
        exact ⟨fun x hx => isNaN_of_isFinite (hincreasing.finite x hx),
          fun x hx => hincreasing.finite x (List.mem_of_mem_head? hx),
          fun x hx => hincreasing.finite x (List.mem_of_mem_getLast? hx)⟩
      · rintro ⟨hnumbers, hfirst, hlast⟩
        exact increasing_of_ends hnumbers hfirst hlast
          ((Histogram.disordered_eq_false hnumbers).mp hsorted)
  | none =>
    cases powers with
    | none => simp [Histogram.faults] at hfaults
    | some e =>
      obtain ⟨hstart, hfactor, hcount⟩ : ¬ e.start ≤ 0 ∧ ¬ e.factor ≤ 1 ∧ e.count ≠ 0 := by
        simpa [Histogram.faults] using hfaults
      obtain ⟨n, hn⟩ := Nat.exists_eq_succ_of_ne_zero hcount
      refine ⟨.exponential e.start e.factor e.count, rfl, ?_,
        increasing_powers_iff hstart hfactor⟩
      rw [BucketSpec.bounds, hn]
      exact List.cons_ne_nil _ _

variable {check : Url.Check} {c : Config}

/-- A histogram of a valid configuration has bounds, and they are finite and increase exactly where
their ends are sound. -/
theorem bounds_increase_iff (hvalid : c.problems check = []) {m : Catalog.Metric}
    (hm : m ∈ c.catalog.metrics) (htype : m.type = .histogram) :
    ∃ spec, m.buckets = some spec ∧ spec.bounds ≠ [] ∧
      (Increasing spec.bounds ↔ spec.EndsSoundly) := by
  rcases Catalog.mem_metrics_foldl hm with hnone | ⟨d, hd, entry, hentry, heq⟩
  · cases hnone
  · have hrules := (Definition.problems_eq_nil_iff.mp (definition_problems hvalid d hd)).2.1.2
    obtain ⟨-, -, -, htyped⟩ := Metric.problems_eq_nil_iff.mp (hrules entry hentry)
    rw [heq] at htype ⊢
    obtain ⟨-, hfaults⟩ := (Metric.typeProblems_of_histogram htype).mp htyped
    cases hgiven : entry.histogram with
    | none =>
      rw [hgiven] at hfaults
      cases hfaults
    | some h =>
      rw [hgiven] at hfaults
      obtain ⟨spec, hspec, hbounds⟩ := bounds_of_faults hfaults
      refine ⟨spec, ?_, hbounds⟩
      change entry.histogram.bind Catalog.bucketSpec = some spec
      rw [hgiven]
      exact hspec

def timings (h : Histogram) : Config where
  settings := ⟨.default, .default, .default⟩
  definitions := [{
    service := ⟨"shop", .file, "", 0, "/srv", none⟩
    metrics := [⟨"latency", .histogram, "", ⟨"jsonpath", "/times"⟩, [], some h, none⟩]
    resources := [⟨"stats", "stats.json", "GET", .api, .json, ["latency"], none⟩] }]

/-- Four doublings of one increase. -/
theorem bounds_increase_doubled : (timings ⟨none, some ⟨1, 2, 4⟩⟩).problems Url.hosted = [] ∧
    ∃ m ∈ (timings ⟨none, some ⟨1, 2, 4⟩⟩).catalog.metrics, m.type = .histogram ∧
      ∃ spec, m.buckets = some spec ∧ Increasing spec.bounds := by
  have hvalid : (timings ⟨none, some ⟨1, 2, 4⟩⟩).problems Url.hosted = [] := by decide +kernel
  refine ⟨hvalid, _, List.mem_singleton.mpr rfl, rfl, ?_⟩
  obtain ⟨spec, hspec, -, hbounds⟩ :=
    bounds_increase_iff hvalid (List.mem_singleton.mpr rfl) rfl
  refine ⟨spec, hspec, hbounds.mpr ?_⟩
  obtain rfl : BucketSpec.exponential 1 2 4 = spec := Option.some.inj hspec
  exact ⟨by decide +kernel, by decide +kernel⟩

/-- A factor that leaves the doubles behind is valid, and its last two bounds are infinite. -/
theorem not_bounds_increase_overflow :
    (timings ⟨none, some ⟨1, 1e200, 4⟩⟩).problems Url.hosted = [] ∧
    ∃ m ∈ (timings ⟨none, some ⟨1, 1e200, 4⟩⟩).catalog.metrics, m.type = .histogram ∧
      ∃ spec, m.buckets = some spec ∧ ¬ Increasing spec.bounds := by
  have hvalid : (timings ⟨none, some ⟨1, 1e200, 4⟩⟩).problems Url.hosted = [] := by decide +kernel
  refine ⟨hvalid, _, List.mem_singleton.mpr rfl, rfl, .exponential 1 1e200 4, rfl, ?_⟩
  intro hincreasing
  have hfinite := hincreasing.finite
  revert hfinite
  decide +kernel

end Config
end MetricRelay
