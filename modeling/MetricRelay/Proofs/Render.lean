import MetricRelay.Proofs.Catalog.Metrics
import MetricRelay.Proofs.Exposition.Declared
import MetricRelay.Render

/-!
# What metrics are written as

A metric that keeps the rules is written on lines of its own, whatever its value
is: every sample has a plain name, and so has every label.
-/

namespace MetricRelay

open Config (PlainName Ruled)
open Exposition (Printable WritableLabel WritableSample)

theorem Config.PlainName.writableLabel {l : Label} (h : PlainName l.name.toList) :
    WritableLabel l where
  trimmed := Text.trim_of_trimmed h.solid.trimmed
  no_equals := h.not_mem (by decide)
  no_newline := h.not_mem (by decide)
  not_closing := fun hhead => h.not_mem (by decide) (List.mem_of_head? hhead)

theorem Config.PlainName.writableSample {s : Sample} (h : PlainName s.name.toList)
    (hlabels : ∀ l ∈ s.labels, PlainName l.name.toList) (htime : s.timestamp = none) :
    WritableSample s where
  name_ne := h.ne_nil
  name_solid := h.solid
  no_brace := h.not_mem (by decide)
  no_hash := fun hhead => h.not_mem (by decide) (List.mem_of_head? hhead)
  labels := fun l hl => (hlabels l hl).writableLabel
  timestamp := by
    intro t ht
    rw [htime] at ht
    cases ht

namespace Render

variable {m : Catalog.Metric} (i : Identity)

theorem plainName_identity : ∀ l ∈ i.labels, PlainName l.name.toList := by
  intro l hl
  have hnames : ∀ name ∈ ["job", "instance"], PlainName name.toList := by decide
  refine hnames l.name ?_
  simp only [Identity.labels, List.mem_cons, List.not_mem_nil, or_false] at hl
  rcases hl with rfl | rfl
  · simp
  · simp

/-- A name of the metric with a suffix is plain. -/
theorem plainName_suffixed (h : Ruled m) {suffix : String}
    (hsuffix : PlainName suffix.toList) : PlainName (m.name ++ suffix).toList := by
  rw [String.toList_append]
  exact h.name.append hsuffix

theorem writable_row (h : Ruled m) (row : Row) : WritableSample (rowSample m i row) := by
  refine h.name.writableSample (s := rowSample m i row) ?_ rfl
  intro l hl
  rcases List.mem_append.mp hl with hown | hrow
  · exact plainName_identity i l hown
  · obtain ⟨⟨spec, value⟩, hmem, rfl⟩ := List.mem_map.mp hrow
    exact (h.labels spec (List.of_mem_zip hmem).1).1

theorem writable_bucket (h : Ruled m) {le : Label} (hle : le.name = "le") (count : Nat) :
    WritableSample (bucketSample m i le count) := by
  have hname : PlainName (m.name ++ "_bucket").toList := plainName_suffixed h (by decide)
  refine hname.writableSample (s := bucketSample m i le count) ?_ rfl
  intro l hl
  rcases List.mem_append.mp hl with hown | hbound
  · exact plainName_identity i l hown
  · obtain rfl := List.mem_singleton.mp hbound
    rw [hle]
    decide

theorem writable_aggregate (h : Ruled m) (a : Aggregate) :
    ∀ s ∈ aggregateSamples m i a, WritableSample s := by
  intro s hs
  rw [aggregateSamples, List.mem_append] at hs
  rcases hs with hbucket | hrest
  · obtain ⟨b, -, rfl⟩ := List.mem_map.mp hbucket
    exact writable_bucket i h rfl b.count
  · simp only [List.mem_cons, List.not_mem_nil, or_false] at hrest
    rcases hrest with rfl | rfl | rfl
    · exact writable_bucket i h rfl a.count
    · exact (plainName_suffixed h (by decide)).writableSample (plainName_identity i) rfl
    · exact (plainName_suffixed h (by decide)).writableSample (plainName_identity i) rfl

theorem printable_valueFamily (h : Ruled m) (value : Shaped) :
    Printable (valueFamily m i value) := by
  refine ⟨h.name.ne_nil, h.name.solid, ?_⟩
  cases value with
  | scalar x =>
    intro s hs
    obtain rfl := List.mem_singleton.mp hs
    exact h.name.writableSample (plainName_identity i) rfl
  | vector rows =>
    intro s hs
    obtain ⟨row, -, rfl⟩ := List.mem_map.mp hs
    exact writable_row i h row
  | histogram a => exact writable_aggregate i h a

theorem printable_upFamily (h : Ruled m) (up : Bool) : Printable (upFamily m i up) := by
  have hname : PlainName (upName m.name).toList := plainName_suffixed h (by decide)
  refine ⟨hname.ne_nil, hname.solid, ?_⟩
  intro s hs
  obtain rfl := List.mem_singleton.mp hs
  exact hname.writableSample (plainName_identity i) rfl

/-- A value is written as as many samples as it counts. -/
theorem length_samples (m : Catalog.Metric) (value : Shaped) :
    (samples m i value).length = value.sampleCount := by
  cases value with
  | scalar x => rfl
  | vector rows => exact List.length_map _
  | histogram a => simp [samples, aggregateSamples, Shaped.sampleCount]

end Render
end MetricRelay
