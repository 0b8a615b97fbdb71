import MetricRelay.Proofs.Exposition.Forwarded
import MetricRelay.Proofs.Render

/-!
# The names of the gauges

The gauges of the exporter are written under distinct names, each as soon as it
has a series. No companion of a metric and no forwarded family bears one of
them; the rules do not keep a metric from doing so.
-/

namespace MetricRelay

namespace SelfMetrics

open Config (PlainName)
open Exposition (Printable WritableSample)

theorem Gauge.mem_all (g : Gauge) : g ∈ Gauge.all := by
  cases g <;> decide

theorem Gauge.plainName (g : Gauge) : PlainName g.name.toList := by
  have hall : ∀ x ∈ Gauge.all, PlainName x.name.toList := by decide
  exact hall g g.mem_all

theorem reserved_iff (name : String) : name ∈ reservedNames ↔ ∃ g : Gauge, g.name = name := by
  rw [reservedNames, List.mem_map]
  constructor
  · rintro ⟨g, -, hname⟩
    exact ⟨g, hname⟩
  · rintro ⟨g, hname⟩
    exact ⟨g, g.mem_all, hname⟩

/-- No gauge is named as the companion of a metric. -/
theorem upName_ne (metric : String) (g : Gauge) : Render.upName metric ≠ g.name := by
  intro h
  have hall : ∀ x ∈ Gauge.all, x.name.toList.getLast? ≠ some 'p' := by decide
  have hlast : (Render.upName metric).toList.getLast? = some 'p' := by
    rw [Render.upName, String.toList_append, List.getLast?_append_of_ne_nil _ (by decide)]
    rfl
  rw [h] at hlast
  exact hall g g.mem_all hlast

/-- No gauge is named as a family that has moved. -/
theorem exportedName_not_gauge (name : String) (g : Gauge) : exportedName name ≠ g.name := by
  intro h
  have hall : ∀ x ∈ Gauge.all, x.name.toList.head? ≠ some 'e' := by decide
  have hhead : (exportedName name).toList.head? = some 'e' := by
    rw [Exposition.toList_exportedName]
    rfl
  rw [h] at hhead
  exact hall g g.mem_all hhead

theorem exportedName_not_reserved (name : String) : exportedName name ∉ reservedNames := by
  intro h
  obtain ⟨g, hg⟩ := (reserved_iff _).mp h
  exact exportedName_not_gauge name g hg.symm

theorem name_moveReserved (f : Family) : (Exposition.moveReserved f).name ∉ reservedNames := by
  rw [Exposition.moveReserved]
  split
  · exact exportedName_not_reserved f.name
  · next hfree => simpa using hfree

/-- A forwarded family does not have the name of a gauge. -/
theorem name_of_relabel {i : Identity} {body : Text.Bytes} {families : List Family}
    (h : relabel i body = .ok families) : ∀ f ∈ families, f.name ∉ reservedNames := by
  obtain ⟨bare, -, rfl⟩ := of_relabel h
  intro f hf
  obtain ⟨moved, hmoved, rfl⟩ := List.mem_map.mp hf
  obtain ⟨old, -, rfl⟩ := List.mem_map.mp hmoved
  exact name_moveReserved old

/-! ### The families of the gauges -/

variable (m : SelfMetrics)

theorem printable_family (g : Gauge) : Printable (m.family g) := by
  refine ⟨g.plainName.ne_nil, g.plainName.solid, ?_⟩
  intro s hs
  obtain ⟨series, -, rfl⟩ := List.mem_map.mp hs
  refine g.plainName.writableSample ?_ rfl
  have hnames : ∀ name ∈ ["datasource", "instance", "job"], PlainName name.toList := by decide
  intro l hl
  have hmem : l.name ∈ ["datasource", "instance", "job"] := by
    rw [Origin.labels] at hl
    cases hsource : series.origin.source with
    | none =>
      rw [hsource] at hl
      simp only [List.nil_append, List.mem_cons, List.not_mem_nil, or_false] at hl
      rcases hl with rfl | rfl
      · simp
      · simp
    | some source =>
      rw [hsource] at hl
      simp only [List.cons_append, List.nil_append, List.mem_cons, List.not_mem_nil, or_false]
        at hl
      rcases hl with rfl | rfl | rfl
      · simp
      · simp
      · simp
  exact hnames l.name hmem

theorem printable_families : ∀ f ∈ m.families, Printable f := by
  intro f hf
  obtain ⟨g, -, rfl⟩ := List.mem_map.mp (List.mem_filter.mp hf).1
  exact m.printable_family g

theorem samples_family (g : Gauge) : (m.family g).samples.isEmpty = false ↔ m.series g ≠ [] := by
  rw [family, List.isEmpty_map, List.isEmpty_eq_false_iff, sorted, ne_eq, ne_eq,
    ← List.length_eq_zero_iff, List.length_mergeSort, List.length_eq_zero_iff]

/-- A gauge is written once it has a series. -/
theorem mem_names_families (name : String) :
    name ∈ m.families.map (·.name) ↔ ∃ g : Gauge, m.series g ≠ [] ∧ g.name = name := by
  constructor
  · intro h
    obtain ⟨f, hf, hname⟩ := List.mem_map.mp h
    obtain ⟨hmem, hsamples⟩ := List.mem_filter.mp hf
    obtain ⟨g, -, rfl⟩ := List.mem_map.mp hmem
    exact ⟨g, (m.samples_family g).mp (by simpa using hsamples), hname⟩
  · rintro ⟨g, hseries, hname⟩
    refine List.mem_map.mpr ⟨m.family g, List.mem_filter.mpr ⟨?_, ?_⟩, hname⟩
    · exact List.mem_map.mpr ⟨g, g.mem_all, rfl⟩
    · simpa using (m.samples_family g).mpr hseries

theorem nodup_names_families : (m.families.map (·.name)).Nodup := by
  have hall : (Gauge.all.map m.family).map (·.name) = reservedNames := by
    rw [List.map_map]
    rfl
  have hreserved : reservedNames.Nodup := by decide
  rw [← hall] at hreserved
  exact (List.filter_sublist.map _).nodup hreserved

/-! ### Series -/

section setSeries

variable (key : Key) (origin : Origin) (value : Float) (series : List Series)

theorem setSeries_ne_nil : setSeries key origin value series ≠ [] := by
  cases series with
  | nil => simp [setSeries]
  | cons s rest =>
    rw [setSeries]
    split <;> simp

def keys : List UInt64 := series.map fun s => key s.origin.values

variable {origin series} in
/-- Setting a series starts one if its key is not in use yet. -/
theorem setSeries_of_new (h : key origin.values ∉ keys key series) :
    setSeries key origin value series = series ++ [⟨origin, value⟩] := by
  induction series with
  | nil => rfl
  | cons s rest ih =>
    rw [keys, List.map_cons, List.mem_cons, not_or] at h
    rw [setSeries, if_neg (Ne.symm h.1), ih h.2, List.cons_append]

theorem keys_setSeries : keys key (setSeries key origin value series) =
    if key origin.values ∈ keys key series then keys key series
    else keys key series ++ [key origin.values] := by
  induction series with
  | nil => rfl
  | cons s rest ih =>
    by_cases hsame : key s.origin.values = key origin.values
    · simp [setSeries, keys, hsame]
    · have hcons : keys key (setSeries key origin value (s :: rest)) =
          key s.origin.values :: keys key (setSeries key origin value rest) := by
        rw [setSeries, if_neg hsame]
        rfl
      have hmem : key origin.values ∈ keys key (s :: rest) ↔
          key origin.values ∈ keys key rest := by
        rw [keys, List.map_cons, List.mem_cons, or_iff_right (Ne.symm hsame)]
        rfl
      rw [hcons, ih]
      simp only [hmem]
      split <;> rfl

variable {series} in
/-- No two series of a gauge have one key. -/
theorem nodup_setSeries (h : (keys key series).Nodup) :
    (keys key (setSeries key origin value series)).Nodup := by
  rw [keys_setSeries]
  split
  · exact h
  · next hnew =>
    rw [← List.concat_eq_append]
    exact h.concat hnew

end setSeries

/-- Whatever is set, a series that there was stays. -/
theorem set_ne_nil {m : SelfMetrics} {g : Gauge} (h : m.series g ≠ []) (gauge : Gauge)
    (origin : Origin) (value : Float) : (m.set gauge origin value).series g ≠ [] := by
  rw [set]
  dsimp only
  split
  · exact setSeries_ne_nil m.key origin value _
  · exact h

theorem set_self_ne_nil (m : SelfMetrics) (g : Gauge) (origin : Origin) (value : Float) :
    (m.set g origin value).series g ≠ [] := by
  rw [set]
  dsimp only
  rw [if_pos rfl]
  exact setSeries_ne_nil m.key origin value _

/-- The labels of a series say what it belongs to. -/
theorem labels_injective {o o' : Origin} (h : o.labels = o'.labels) : o = o' := by
  obtain ⟨job, hostPort, source⟩ := o
  obtain ⟨job', hostPort', source'⟩ := o'
  cases source <;> cases source' <;> simp_all [Origin.labels]

theorem mem_samples_family {m : SelfMetrics} {g : Gauge} {sample : Sample} :
    sample ∈ (m.family g).samples ↔
      ∃ s ∈ m.series g, sample = ⟨g.name, s.origin.labels, s.value, none⟩ := by
  rw [family, List.mem_map]
  constructor
  · rintro ⟨s, hs, rfl⟩
    exact ⟨s, List.mem_mergeSort.mp hs, rfl⟩
  · rintro ⟨s, hs, rfl⟩
    exact ⟨s, List.mem_mergeSort.mpr hs, rfl⟩

end SelfMetrics

end MetricRelay
