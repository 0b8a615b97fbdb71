import MetricRelay.Proofs.Catalog.Bounds
import MetricRelay.Render

/-!
# Histograms

A histogram is written as its buckets, a sum and a count. A bucket counts the values
up to its bound, so a larger bound never counts less, and what is no number is in the
infinite bucket only. Counts are put in order as whole numbers, and so are the
doubles that they become; the texts of the bounds read back as the bounds, and are
as different as these.
-/

namespace MetricRelay

open Catalog (Metric)

def Family.part (f : Family) (suffix : String) : List Sample :=
  f.samples.filter fun s => s.name == f.name ++ suffix

/-- The bound of a bucket, where the sample has one label for it. -/
def Sample.le? (s : Sample) : Option String :=
  match s.labels.filter fun l => l.name == "le" with
  | [l] => some l.value
  | _ => none

/-- A family in the form of a histogram: the texts of the bounds in order, the counts of the
buckets, and the count of all values. -/
structure Family.IsHistogram (f : Family) (texts : List String) (counts : List Float)
    (total : Float) : Prop where
  parts : ∀ s ∈ f.samples, s.name ∈ [f.name ++ "_bucket", f.name ++ "_sum", f.name ++ "_count"]
  labelled : (f.part "_bucket").map (·.le?) = texts.map some
  counted : (f.part "_bucket").map (·.value) = counts
  distinct : texts.Nodup
  increasing : ∃ bounds : List Float,
    texts.map (fun text => Number.read? text.toList) = bounds.map some ∧
      bounds.Pairwise (· < ·)
  cumulative : counts.Pairwise (· ≤ ·)
  infinite : texts.getLast? = some "+Inf"
  last : counts.getLast? = some total
  summed : (f.part "_sum").length = 1
  total : (f.part "_count").map (·.value) = [total]

/-! ### Bounds and their texts -/

section Bounds

open Number BucketSpec

variable {bounds : List Float}

def boundTexts (bounds : List Float) : List String := bounds.map valueText ++ ["+Inf"]

theorem boundTexts_eq (bounds : List Float) :
    boundTexts bounds = (bounds ++ [infinity]).map valueText := by
  have hinfinity : valueText infinity = "+Inf" := by decide +kernel
  rw [boundTexts, List.map_append, List.map_singleton, hinfinity]

theorem pairwise_infinity (h : Increasing bounds) : (bounds ++ [infinity]).Pairwise (· < ·) := by
  have hinfinity : infinity.isNaN = false := by decide +kernel
  rw [List.pairwise_append]
  refine ⟨h.pairwise, List.pairwise_singleton _ _, ?_⟩
  intro x hx y hy
  obtain rfl := List.mem_singleton.mp hy
  have hfinite := h.finite x hx
  exact (lt_iff_place (isNaN_of_isFinite hfinite) hinfinity).mpr (place_of_isFinite hfinite).2

theorem nodup_boundTexts (h : Increasing bounds) : (boundTexts bounds).Nodup := by
  rw [boundTexts_eq]
  exact List.Nodup.map valueText_injective ((pairwise_infinity h).imp ne_of_lt)

theorem read_boundTexts (bounds : List Float) :
    (boundTexts bounds).map (fun text => read? text.toList) =
      (bounds ++ [infinity]).map some := by
  rw [boundTexts_eq, List.map_map]
  exact List.map_congr_left fun x _ => read?_valueText x

end Bounds

/-! ### Counts -/

section Counts

open Number BucketSpec

variable {bounds values values' : List Float}

def boundCounts (bounds values : List Float) : List Nat :=
  bounds.map (fun bound => values.countP (· ≤ bound)) ++ [values.length]

/-- A larger bound counts no less, and none counts more than there are. -/
theorem pairwise_boundCounts (h : bounds.Pairwise (· < ·)) (values : List Float) :
    (boundCounts bounds values).Pairwise (· ≤ ·) := by
  rw [boundCounts, List.pairwise_append, List.pairwise_map]
  refine ⟨h.imp ?_, List.pairwise_singleton _ _, ?_⟩
  · intro b b' hlt
    refine List.countP_mono_left fun v _ hv => ?_
    exact decide_eq_true (le_of_le_of_lt (of_decide_eq_true hv) hlt)
  · intro count hcount total htotal
    obtain ⟨bound, -, rfl⟩ := List.mem_map.mp hcount
    obtain rfl := List.mem_singleton.mp htotal
    exact List.countP_le_length

theorem Aggregate.ofValues_perm (h : values.Perm values') :
    (ofValues bounds values').buckets = (ofValues bounds values).buckets := by
  refine List.map_congr_left fun bound _ => ?_
  rw [h.countP_eq]

def Bucket.add (b b' : Bucket) : Bucket := ⟨b.bound, b.count + b'.count⟩

theorem Aggregate.ofValues_append (bounds values more : List Float) :
    (ofValues bounds (values ++ more)).buckets =
      List.zipWith Bucket.add (ofValues bounds values).buckets (ofValues bounds more).buckets := by
  simp only [ofValues, List.zipWith_map_left, List.zipWith_map_right, List.zipWith_self,
    List.countP_append, Bucket.add]

end Counts

/-! ### The family -/

namespace Render

open BucketSpec

variable {m : Metric} {i : Identity} {bounds : List Float}

def bucketSamples (m : Metric) (i : Identity) (a : Aggregate) : List Sample :=
  a.buckets.map (fun b => bucketSample m i (bucketLabel b.bound) b.count)
    ++ [bucketSample m i ⟨"le", "+Inf"⟩ a.count]

theorem samples_histogram (m : Metric) (i : Identity) (a : Aggregate) :
    (valueFamily m i (.histogram a)).samples = bucketSamples m i a ++
      [{ name := m.name ++ "_sum", labels := i.labels, value := a.sum },
        { name := m.name ++ "_count", labels := i.labels, value := Float.ofNat a.count }] := by
  rw [bucketSamples, List.append_assoc]
  rfl

theorem name_bucketSamples {a : Aggregate} {s : Sample} (h : s ∈ bucketSamples m i a) :
    s.name = m.name ++ "_bucket" := by
  rcases List.mem_append.mp h with hbound | hlast
  · obtain ⟨b, -, rfl⟩ := List.mem_map.mp hbound
    rfl
  · obtain rfl := List.mem_singleton.mp hlast
    rfl

theorem part_histogram (m : Metric) (i : Identity) (a : Aggregate) (suffix : String) :
    (valueFamily m i (.histogram a)).part suffix =
      (if "_bucket" = suffix then bucketSamples m i a else []) ++
      (if "_sum" = suffix then [⟨m.name ++ "_sum", i.labels, a.sum, none⟩] else []) ++
      if "_count" = suffix then [⟨m.name ++ "_count", i.labels, Float.ofNat a.count, none⟩]
        else [] := by
  have hsame : ∀ own, (m.name ++ own == m.name ++ suffix) = decide (own = suffix) := by
    intro own
    rw [Bool.eq_iff_iff, beq_iff_eq, decide_eq_true_iff, String.append_right_inj]
  have hbuckets : (bucketSamples m i a).filter (fun s => s.name == m.name ++ suffix) =
      if "_bucket" = suffix then bucketSamples m i a else [] := by
    split
    · next heq =>
      refine List.filter_eq_self.mpr fun s hs => ?_
      rw [name_bucketSamples hs, hsame]
      exact decide_eq_true heq
    · next hne =>
      refine List.filter_eq_nil_iff.mpr fun s hs => ?_
      rw [name_bucketSamples hs, hsame]
      simpa using hne
  have hname : (valueFamily m i (.histogram a)).name = m.name := rfl
  rw [Family.part, hname, samples_histogram, List.filter_append, hbuckets, List.append_assoc]
  congr 1
  simp only [List.filter_cons, List.filter_nil, hsame, decide_eq_true_iff]
  split <;> split <;> rfl

theorem part_bucket (m : Metric) (i : Identity) (a : Aggregate) :
    (valueFamily m i (.histogram a)).part "_bucket" = bucketSamples m i a := by
  rw [part_histogram, if_pos rfl, if_neg (by decide), if_neg (by decide), List.append_nil,
    List.append_nil]

theorem part_sum (m : Metric) (i : Identity) (a : Aggregate) :
    (valueFamily m i (.histogram a)).part "_sum" = [⟨m.name ++ "_sum", i.labels, a.sum, none⟩] := by
  rw [part_histogram, if_neg (by decide), if_pos rfl, if_neg (by decide)]
  rfl

theorem part_count (m : Metric) (i : Identity) (a : Aggregate) :
    (valueFamily m i (.histogram a)).part "_count" =
      [⟨m.name ++ "_count", i.labels, Float.ofNat a.count, none⟩] := by
  rw [part_histogram, if_neg (by decide), if_neg (by decide), if_pos rfl]
  rfl

theorem le?_bucketSamples (m : Metric) (i : Identity) (bounds values : List Float) :
    (bucketSamples m i (.ofValues bounds values)).map (·.le?) = (boundTexts bounds).map some := by
  simp only [bucketSamples, Aggregate.ofValues, boundTexts, List.map_append, List.map_map]
  rfl

theorem values_bucketSamples (m : Metric) (i : Identity) (bounds values : List Float) :
    (bucketSamples m i (.ofValues bounds values)).map (·.value) =
      (boundCounts bounds values).map Float.ofNat := by
  simp only [bucketSamples, Aggregate.ofValues, boundCounts, List.map_append, List.map_map]
  rfl

/-- The buckets do not tell in which order the values came. -/
theorem bucketSamples_perm {values values' : List Float} (h : values.Perm values') :
    bucketSamples m i (.ofValues bounds values') = bucketSamples m i (.ofValues bounds values) := by
  have hlength : (Aggregate.ofValues bounds values').count =
      (Aggregate.ofValues bounds values).count := h.length_eq.symm
  rw [bucketSamples, bucketSamples, Aggregate.ofValues_perm h, hlength]

/-- The samples of a histogram bear one of three names. -/
theorem names_histogram {a : Aggregate} {s : Sample}
    (h : s ∈ (valueFamily m i (.histogram a)).samples) :
    s.name ∈ [m.name ++ "_bucket", m.name ++ "_sum", m.name ++ "_count"] := by
  rw [samples_histogram, List.mem_append] at h
  rcases h with hbucket | hrest
  · rw [name_bucketSamples hbucket]
    exact List.mem_cons_self
  · simp only [List.mem_cons, List.not_mem_nil, or_false] at hrest
    rcases hrest with rfl | rfl
    · simp
    · simp

/-- Values are written as a histogram of theirs: a bucket for each bound with the count of the
values up to it, and an infinite one with the count of all. The order of the values does not
matter to the buckets, and of two lists of values the buckets add up. -/
theorem isHistogram_ofValues (m : Metric) (i : Identity) (h : Increasing bounds)
    (values : List Float) :
    let family values := valueFamily m i (.histogram (.ofValues bounds values))
    (family values).IsHistogram (bounds.map Number.valueText ++ ["+Inf"])
        ((bounds.map fun bound => Float.ofNat (values.countP (· ≤ bound))) ++
          [Float.ofNat values.length])
        (Float.ofNat values.length) ∧
      (m.type = .histogram → (family values).kind = .histogram) ∧
      (∀ values', values.Perm values' →
        (family values').part "_bucket" = (family values).part "_bucket") ∧
      ∀ more, (Aggregate.ofValues bounds (values ++ more)).buckets = List.zipWith Bucket.add
        (Aggregate.ofValues bounds values).buckets (Aggregate.ofValues bounds more).buckets := by
  intro family
  have hcounts : (boundCounts bounds values).map Float.ofNat =
      (bounds.map fun bound => Float.ofNat (values.countP (· ≤ bound))) ++
        [Float.ofNat values.length] := by
    rw [boundCounts, List.map_append, List.map_map, List.map_singleton]
    rfl
  refine ⟨?_, ?_, ?_, fun more => Aggregate.ofValues_append bounds values more⟩
  · rw [← hcounts]
    constructor
    · exact fun s hs => names_histogram hs
    · rw [part_bucket, le?_bucketSamples, boundTexts]
    · rw [part_bucket, values_bucketSamples]
    · exact nodup_boundTexts h
    · exact ⟨_, read_boundTexts bounds, pairwise_infinity h⟩
    · exact List.Pairwise.map _ (fun _ _ => Number.ofNat_le_ofNat)
        (pairwise_boundCounts h.pairwise values)
    · exact List.getLast?_concat
    · rw [hcounts]
      exact List.getLast?_concat
    · rw [part_sum]
      rfl
    · rw [part_count]
      rfl
  · intro htype
    change m.type.kind = .histogram
    rw [htype]
    rfl
  · intro values' hperm
    rw [part_bucket, part_bucket, bucketSamples_perm hperm]

/-- What is no number is counted by the infinite bucket only. -/
theorem isHistogram_burn : Increasing [1, 2.5] ∧
    ∃ m ∈ (Config.timings ⟨some [1, 2.5], none⟩).catalog.metrics, m.type = .histogram ∧
      (valueFamily m ⟨"shop", "shop"⟩
        (.histogram (.ofValues [1, 2.5] [2, 0 / 0, 0.5, Number.infinity]))).IsHistogram
          ["1", "2.5", "+Inf"] [1, 2, 4] 4 := by
  have hbounds : Increasing [1, 2.5] := ⟨by decide +kernel, by decide +kernel⟩
  have htexts : [1, 2.5].map Number.valueText ++ ["+Inf"] = ["1", "2.5", "+Inf"] := by
    decide +kernel
  have hcounts : ([1, 2.5].map fun bound =>
      Float.ofNat ([2, 0 / 0, 0.5, Number.infinity].countP (· ≤ bound))) ++
        [Float.ofNat [2, 0 / 0, 0.5, Number.infinity].length] = [1, 2, 4] := by
    decide +kernel
  refine ⟨hbounds, _, List.mem_singleton.mpr rfl, rfl, ?_⟩
  rw [← htexts, ← hcounts]
  exact (isHistogram_ofValues _ _ hbounds [2, 0 / 0, 0.5, Number.infinity]).1

end Render
end MetricRelay
