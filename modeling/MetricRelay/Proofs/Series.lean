import Mathlib.Data.List.Pairwise
import MetricRelay.Proofs.Catalog.Metrics
import MetricRelay.Proofs.Number.ReadBack
import MetricRelay.Proofs.Shape
import MetricRelay.Render

/-!
# The series of a metric

A metric is written under its own name and four longer ones. Its samples are told
apart by the part they play and by the labels after those of the identity. Two
metrics of a service meet only where the name of one is a longer name of the
other: a scalar at a companion, a sum or a count, and a vector at the buckets of a
histogram.
-/

namespace MetricRelay

/-- Two samples of one series: they have one name and one set of labels. -/
def Sample.SameSeries (s s' : Sample) : Prop :=
  s.name = s'.name ∧ ∀ l, l ∈ s.labels ↔ l ∈ s'.labels

def DistinctSeries (samples : List Sample) : Prop :=
  samples.Pairwise fun s s' => ¬ s.SameSeries s'

namespace Render

open Catalog (Metric)
open Config (Ruled reservedLabels)

/-- The part that a sample plays among those of its metric. -/
inductive Role where
  | value | companion | bucket | sum | count
  deriving DecidableEq

namespace Role

def suffix : Role → String
  | .value => ""
  | .companion => "_up"
  | .bucket => "_bucket"
  | .sum => "_sum"
  | .count => "_count"

def all : List Role := [.value, .companion, .bucket, .sum, .count]

theorem mem_all (r : Role) : r ∈ all := by
  cases r <;> decide

theorem suffix_injective {r r' : Role} (h : r.suffix = r'.suffix) : r = r' := by
  have hall : ∀ x ∈ all, ∀ y ∈ all, x.suffix = y.suffix → x = y := by decide
  exact hall r r.mem_all r' r'.mem_all h

/-- The end of a longer name shows the part. -/
theorem eq_of_ends {r r' : Role} (hr : r ≠ .value) (hr' : r' ≠ .value)
    (h : r.suffix.toList.reverse.take 2 = r'.suffix.toList.reverse.take 2) : r = r' := by
  have hall : ∀ x ∈ all, ∀ y ∈ all, x ≠ .value → y ≠ .value →
      x.suffix.toList.reverse.take 2 = y.suffix.toList.reverse.take 2 → x = y := by decide
  exact hall r r.mem_all r' r'.mem_all hr hr' h

theorem ends_append (name : String) {r : Role} (hr : r ≠ .value) :
    (name ++ r.suffix).toList.reverse.take 2 = r.suffix.toList.reverse.take 2 := by
  have hall : ∀ x ∈ all, x ≠ .value → 2 ≤ x.suffix.toList.reverse.length := by decide
  rw [String.toList_append, List.reverse_append,
    List.take_append_of_le_length (hall r r.mem_all hr)]

/-- Two names meet under different parts only where one of them stands alone. -/
theorem of_append_eq {a b : String} {r r' : Role} (h : a ++ r.suffix = b ++ r'.suffix) :
    (r = r' ∧ a = b) ∨ r = .value ∨ r' = .value := by
  by_cases hr : r = .value
  · exact Or.inr (Or.inl hr)
  · by_cases hr' : r' = .value
    · exact Or.inr (Or.inr hr')
    · have hends := ends_append a hr
      rw [h, ends_append b hr'] at hends
      obtain rfl := eq_of_ends hr' hr hends
      exact Or.inl ⟨rfl, (String.append_left_inj _).mp h⟩

end Role

/-- What tells a sample from the others of its service: the name of its metric apart, the part it
plays and the labels after those of the identity. -/
structure Mark where
  role : Role
  labels : List Label

/-- The labels of a row after those of the identity. -/
def rowLabels (m : Metric) (row : Row) : List Label :=
  (m.labels.zip row.labels).map fun (l, v) => ⟨l.name, v⟩

def bucketTexts (a : Aggregate) : List String :=
  a.buckets.map (fun b => Number.valueText b.bound) ++ ["+Inf"]

def marks (m : Metric) : Shaped → List Mark
  | .scalar _ => [⟨.value, []⟩]
  | .vector rows => rows.map fun row => ⟨.value, rowLabels m row⟩
  | .histogram a =>
    (bucketTexts a).map (fun text => ⟨.bucket, [⟨"le", text⟩]⟩) ++ [⟨.sum, []⟩, ⟨.count, []⟩]

def allMarks (m : Metric) (value : Option Shaped) : List Mark :=
  (value.map (marks m)).getD [] ++ [⟨.companion, []⟩]

def families (m : Metric) (i : Identity) (value : Option Shaped) (up : Bool) : List Family :=
  (value.map (valueFamily m i)).toList ++ [upFamily m i up]

def address (s : Sample) : String × List Label := (s.name, s.labels)

theorem addresses_marks (m : Metric) (i : Identity) (value : Shaped) :
    (samples m i value).map address =
      (marks m value).map fun k => (m.name ++ k.role.suffix, i.labels ++ k.labels) := by
  cases value with
  | scalar x => simp [samples, marks, address, Role.suffix]
  | vector rows =>
    rw [samples, marks, List.map_map, List.map_map]
    refine List.map_congr_left fun row _ => ?_
    simp [address, Role.suffix, rowSample, rowLabels]
  | histogram a =>
    simp [samples, marks, address, Role.suffix, aggregateSamples, bucketSample, bucketLabel,
      bucketTexts, Function.comp_def]

/-- Every sample has its mark. -/
theorem addresses_families (m : Metric) (i : Identity) (value : Option Shaped) (up : Bool) :
    ((families m i value up).flatMap (·.samples)).map address =
      (allMarks m value).map fun k => (m.name ++ k.role.suffix, i.labels ++ k.labels) := by
  cases value with
  | none => simp [families, allMarks, upFamily, upName, address, Role.suffix]
  | some v =>
    have hvalue := addresses_marks m i v
    simp only [families, allMarks, Option.map_some, Option.toList_some, List.singleton_append,
      List.flatMap_cons, List.flatMap_nil, List.append_nil, List.map_append, Option.getD_some]
    rw [valueFamily, hvalue]
    simp [upFamily, upName, address, Role.suffix]

/-! ### Labels after those of the identity -/

/-- No label has a name of the identity. -/
def Free (labels : List Label) : Prop := ∀ l ∈ labels, l.name ∉ reservedLabels

theorem name_identity {i : Identity} {l : Label} (h : l ∈ i.labels) : l.name ∈ reservedLabels := by
  simp only [Identity.labels, List.mem_cons, List.not_mem_nil, or_false] at h
  rcases h with rfl | rfl
  · simp [reservedLabels]
  · simp [reservedLabels]

/-- A set of labels says which identity it belongs to. -/
theorem same_labels_iff {i i' : Identity} {ls ls' : List Label} (h : Free ls) (h' : Free ls') :
    (∀ l, l ∈ i.labels ++ ls ↔ l ∈ i'.labels ++ ls') ↔ i = i' ∧ ∀ l, l ∈ ls ↔ l ∈ ls' := by
  constructor
  · intro hsame
    have hown : ∀ l ∈ i.labels, l ∈ i'.labels := by
      intro l hl
      rcases List.mem_append.mp ((hsame l).mp (List.mem_append_left _ hl)) with hin | hin
      · exact hin
      · exact absurd (name_identity hl) (h' l hin)
    have hjob := hown ⟨"job", i.job⟩ (by simp [Identity.labels])
    have hhost := hown ⟨"instance", i.hostPort⟩ (by simp [Identity.labels])
    refine ⟨?_, ?_⟩
    · cases i
      cases i'
      simp [Identity.labels] at hjob hhost
      simp [hjob, hhost]
    · intro l
      constructor
      · intro hl
        rcases List.mem_append.mp ((hsame l).mp (List.mem_append_right _ hl)) with hin | hin
        · exact absurd (name_identity hin) (h l hl)
        · exact hin
      · intro hl
        rcases List.mem_append.mp ((hsame l).mpr (List.mem_append_right _ hl)) with hin | hin
        · exact absurd (name_identity hin) (h' l hl)
        · exact hin
  · rintro ⟨rfl, hsame⟩ l
    rw [List.mem_append, List.mem_append, hsame]

theorem free_rowLabels {m : Metric} (h : Ruled m) (row : Row) : Free (rowLabels m row) := by
  intro l hl
  obtain ⟨⟨spec, value⟩, hmem, rfl⟩ := List.mem_map.mp hl
  exact (h.labels spec (List.of_mem_zip hmem).1).2

theorem free_of_mem_allMarks {m : Metric} (h : Ruled m) {value : Option Shaped} {k : Mark}
    (hk : k ∈ allMarks m value) : Free k.labels := by
  have hnone : Free [] := by rintro l ⟨⟩
  rw [allMarks, List.mem_append, List.mem_singleton] at hk
  rcases hk with hvalue | rfl
  · cases value with
    | none => cases hvalue
    | some v =>
      cases v with
      | scalar x =>
        obtain rfl := List.mem_singleton.mp hvalue
        exact hnone
      | vector rows =>
        obtain ⟨row, -, rfl⟩ := List.mem_map.mp hvalue
        exact free_rowLabels h row
      | histogram a =>
        rcases List.mem_append.mp hvalue with hbucket | htotal
        · obtain ⟨text, -, rfl⟩ := List.mem_map.mp hbucket
          intro l hl
          obtain rfl := List.mem_singleton.mp hl
          simp [reservedLabels]
        · simp only [List.mem_cons, List.not_mem_nil, or_false] at htotal
          rcases htotal with rfl | rfl
          · exact hnone
          · exact hnone
  · exact hnone

/-! ### The samples of one metric -/

def SameRow (m : Metric) (row row' : Row) : Prop :=
  ∀ l, l ∈ rowLabels m row ↔ l ∈ rowLabels m row'

/-- The samples of a value are told apart: different rows by their labels, and buckets by their
texts. -/
def KeepsApart (m : Metric) : Shaped → Prop
  | .scalar _ => True
  | .vector rows => ∀ row ∈ rows, ∀ row' ∈ rows, row.labels ≠ row'.labels → ¬ SameRow m row row'
  | .histogram a => (bucketTexts a).Nodup

def DistinctRows : Shaped → Prop
  | .vector rows => (rows.map (·.labels)).Nodup
  | _ => True

instance : DecidablePred DistinctRows
  | .vector rows => inferInstanceAs (Decidable (rows.map (·.labels)).Nodup)
  | .scalar _ => .isTrue trivial
  | .histogram _ => .isTrue trivial

/-- Two marks of one metric stand for one series. -/
def Mark.Same (k k' : Mark) : Prop := k.role = k'.role ∧ ∀ l, l ∈ k.labels ↔ l ∈ k'.labels

theorem pairwise_rows {m : Metric} {rows : List Row} (h : (rows.map (·.labels)).Nodup) :
    rows.Pairwise (fun row row' => ¬ SameRow m row row') ↔ KeepsApart m (.vector rows) := by
  have hdiffer : rows.Pairwise fun row row' => row.labels ≠ row'.labels := List.pairwise_map.mp h
  constructor
  · intro hapart row hrow row' hrow' hne
    have hsymm : Std.Symm fun row row' : Row => ¬ SameRow m row row' :=
      ⟨fun a b hab hba => hab fun l => (hba l).symm⟩
    exact hapart.forall hrow hrow' fun heq => hne (congrArg Row.labels heq)
  · intro hapart
    refine (List.Pairwise.and_mem.mp hdiffer).imp ?_
    rintro row row' ⟨hrow, hrow', hne⟩
    exact hapart row hrow row' hrow' hne

/-- No sample of a value is one of the companion. -/
theorem not_same_companion {m : Metric} {v : Shaped} {k : Mark} (hk : k ∈ marks m v) :
    ¬ k.Same ⟨.companion, []⟩ := by
  intro hsame
  cases v with
  | scalar x =>
    obtain rfl := List.mem_singleton.mp hk
    cases hsame.1
  | vector rows =>
    obtain ⟨row, -, rfl⟩ := List.mem_map.mp hk
    cases hsame.1
  | histogram a =>
    rcases List.mem_append.mp hk with hbucket | htotal
    · obtain ⟨text, -, rfl⟩ := List.mem_map.mp hbucket
      cases hsame.1
    · simp only [List.mem_cons, List.not_mem_nil, or_false] at htotal
      rcases htotal with rfl | rfl
      · cases hsame.1
      · cases hsame.1

theorem pairwise_marks {m : Metric} {v : Shaped} (hrows : DistinctRows v) :
    (marks m v).Pairwise (fun k k' => ¬ k.Same k') ↔ KeepsApart m v := by
  cases v with
  | scalar x => simp [marks, KeepsApart]
  | vector rows =>
    rw [← pairwise_rows hrows, marks, List.pairwise_map]
    simp [Mark.Same, SameRow]
  | histogram a =>
    rw [marks, List.pairwise_append, List.pairwise_map, KeepsApart, List.Nodup]
    constructor
    · rintro ⟨h, -⟩
      refine h.imp fun hapart heq => hapart ⟨rfl, fun l => by rw [heq]⟩
    · intro h
      refine ⟨?_, ?_, ?_⟩
      · refine h.imp fun hne hsame => hne ?_
        have hlabel := (hsame.2 _).mp List.mem_cons_self
        simpa using hlabel
      · simp [Mark.Same]
      · rintro k hk other hother ⟨hrole, -⟩
        obtain ⟨text, -, rfl⟩ := List.mem_map.mp hk
        simp only [List.mem_cons, List.not_mem_nil, or_false] at hother
        rcases hother with rfl | rfl
        · cases hrole
        · cases hrole

/-- A metric keeps its own samples apart if its value does. -/
theorem pairwise_allMarks {m : Metric} {value : Option Shaped}
    (hrows : ∀ v, value = some v → DistinctRows v) :
    (allMarks m value).Pairwise (fun k k' => ¬ k.Same k') ↔
      ∀ v, value = some v → KeepsApart m v := by
  cases value with
  | none => simp [allMarks]
  | some v =>
    simp only [Option.some.injEq, forall_eq']
    rw [allMarks, List.pairwise_append, ← pairwise_marks (hrows v rfl)]
    constructor
    · exact fun h => h.1
    · refine fun h => ⟨h, List.pairwise_singleton _ _, ?_⟩
      intro k hk other hother
      obtain rfl := List.mem_singleton.mp hother
      exact not_same_companion hk

/-! ### The samples of two metrics -/

/-- Two marks of two metrics of a service stand for one series. -/
def Meets (m : Metric) (k : Mark) (m' : Metric) (k' : Mark) : Prop :=
  m.name ++ k.role.suffix = m'.name ++ k'.role.suffix ∧ ∀ l, l ∈ k.labels ↔ l ∈ k'.labels

/-- The ways in which the second metric has a sample of a series of the first one. -/
inductive Intrudes (m : Metric) (value : Option Shaped) (m' : Metric) (value' : Option Shaped) :
    Prop
  /-- A scalar has the name of the companion. -/
  | companion (x : Float) (hvalue' : value' = some (.scalar x)) (hname : m'.name = upName m.name)
  /-- A scalar has the name of the sum or of the count of a histogram. -/
  | total (a : Aggregate) (x : Float) (hvalue : value = some (.histogram a))
      (hvalue' : value' = some (.scalar x))
      (hname : m'.name = m.name ++ "_sum" ∨ m'.name = m.name ++ "_count")
  /-- A row of a vector has the name and the label of a bucket. -/
  | bucket (a : Aggregate) (rows : List Row) (row : Row) (text : String)
      (hvalue : value = some (.histogram a)) (hvalue' : value' = some (.vector rows))
      (hname : m'.name = m.name ++ "_bucket") (hrow : row ∈ rows) (htext : text ∈ bucketTexts a)
      (hlabels : ∀ l, l ∈ rowLabels m' row ↔ l = ⟨"le", text⟩)

def Labelled (m : Metric) (value : Option Shaped) : Prop :=
  ∀ rows, value = some (.vector rows) → ∀ row ∈ rows, rowLabels m row ≠ []

/-- The samples under the name of the metric itself are those of a scalar or of rows. -/
theorem of_value_mark {m : Metric} {value : Option Shaped} {k : Mark} (hk : k ∈ allMarks m value)
    (hrole : k.role = .value) : (∃ x, value = some (.scalar x) ∧ k.labels = []) ∨
      ∃ rows row, value = some (.vector rows) ∧ row ∈ rows ∧ k.labels = rowLabels m row := by
  rw [allMarks, List.mem_append, List.mem_singleton] at hk
  rcases hk with hvalue | rfl
  · cases value with
    | none => cases hvalue
    | some v =>
      cases v with
      | scalar x =>
        obtain rfl := List.mem_singleton.mp hvalue
        exact Or.inl ⟨x, rfl, rfl⟩
      | vector rows =>
        obtain ⟨row, hrow, rfl⟩ := List.mem_map.mp hvalue
        exact Or.inr ⟨rows, row, rfl, hrow, rfl⟩
      | histogram a =>
        rcases List.mem_append.mp hvalue with hbucket | htotal
        · obtain ⟨text, -, rfl⟩ := List.mem_map.mp hbucket
          cases hrole
        · simp only [List.mem_cons, List.not_mem_nil, or_false] at htotal
          rcases htotal with rfl | rfl
          · cases hrole
          · cases hrole
  · cases hrole

/-- The samples under longer names are the companion and those of a histogram. -/
theorem of_other_mark {m : Metric} {value : Option Shaped} {k : Mark} (hk : k ∈ allMarks m value)
    (hrole : k.role ≠ .value) : k = ⟨.companion, []⟩ ∨ ∃ a, value = some (.histogram a) ∧
      (k = ⟨.sum, []⟩ ∨ k = ⟨.count, []⟩ ∨
        ∃ text ∈ bucketTexts a, k = ⟨.bucket, [⟨"le", text⟩]⟩) := by
  rw [allMarks, List.mem_append, List.mem_singleton] at hk
  rcases hk with hvalue | hcompanion
  · cases value with
    | none => cases hvalue
    | some v =>
      cases v with
      | scalar x =>
        obtain rfl := List.mem_singleton.mp hvalue
        exact absurd rfl hrole
      | vector rows =>
        obtain ⟨row, -, rfl⟩ := List.mem_map.mp hvalue
        exact absurd rfl hrole
      | histogram a =>
        refine Or.inr ⟨a, rfl, ?_⟩
        rcases List.mem_append.mp hvalue with hbucket | htotal
        · obtain ⟨text, htext, rfl⟩ := List.mem_map.mp hbucket
          exact Or.inr (Or.inr ⟨text, htext, rfl⟩)
        · simp only [List.mem_cons, List.not_mem_nil, or_false] at htotal
          rcases htotal with rfl | rfl
          · exact Or.inl rfl
          · exact Or.inr (Or.inl rfl)
  · exact Or.inl hcompanion

/-- A longer name of one metric met under the name of another. -/
theorem Intrudes.of_marks {m m' : Metric} {value value' : Option Shaped} {k k' : Mark}
    (hk : k ∈ allMarks m value) (hk' : k' ∈ allMarks m' value') (hrole : k.role ≠ .value)
    (hrole' : k'.role = .value) (hlabelled : Labelled m' value') (hmeet : Meets m k m' k') :
    Intrudes m value m' value' := by
  obtain ⟨hname, hsame⟩ := hmeet
  have hempty : Role.suffix .value = "" := rfl
  rw [hrole', hempty, String.append_empty] at hname
  rcases of_value_mark hk' hrole' with ⟨x, hvalue', hlabels'⟩ | ⟨rows, row, hvalue', hrow, hlabels'⟩
  · rw [hlabels'] at hsame
    rcases of_other_mark hk hrole with rfl | ⟨a, hvalue, rfl | rfl | ⟨text, -, rfl⟩⟩
    · exact .companion x hvalue' hname.symm
    · exact .total a x hvalue hvalue' (Or.inl hname.symm)
    · exact .total a x hvalue hvalue' (Or.inr hname.symm)
    · exact absurd ((hsame _).mp List.mem_cons_self) List.not_mem_nil
  · rw [hlabels'] at hsame
    obtain ⟨l, hl⟩ := List.exists_mem_of_ne_nil _ (hlabelled rows hvalue' row hrow)
    rcases of_other_mark hk hrole with rfl | ⟨a, hvalue, rfl | rfl | ⟨text, htext, rfl⟩⟩
    · exact absurd ((hsame l).mpr hl) List.not_mem_nil
    · exact absurd ((hsame l).mpr hl) List.not_mem_nil
    · exact absurd ((hsame l).mpr hl) List.not_mem_nil
    · refine .bucket a rows row text hvalue hvalue' hname.symm hrow htext fun l => ?_
      rw [← hsame, List.mem_singleton]

/-- Where one metric intrudes on another there are two marks that meet. -/
theorem Intrudes.meets {m m' : Metric} {value value' : Option Shaped}
    (h : Intrudes m value m' value') :
    ∃ k ∈ allMarks m value, ∃ k' ∈ allMarks m' value', Meets m k m' k' := by
  have hempty : ∀ name : String, name ++ Role.suffix .value = name := fun name =>
    String.append_empty
  cases h with
  | companion x hvalue' hname =>
    refine ⟨⟨.companion, []⟩, by simp [allMarks], ⟨.value, []⟩, ?_, ?_, fun _ => Iff.rfl⟩
    · simp [hvalue', allMarks, marks]
    · rw [hempty, hname]
      rfl
  | total a x hvalue hvalue' hname =>
    have hmark' : ⟨.value, []⟩ ∈ allMarks m' value' := by simp [hvalue', allMarks, marks]
    rcases hname with hname | hname
    · refine ⟨⟨.sum, []⟩, by simp [hvalue, allMarks, marks], _, hmark', ?_, fun _ => Iff.rfl⟩
      rw [hempty, hname]
      rfl
    · refine ⟨⟨.count, []⟩, by simp [hvalue, allMarks, marks], _, hmark', ?_, fun _ => Iff.rfl⟩
      rw [hempty, hname]
      rfl
  | bucket a rows row text hvalue hvalue' hname hrow htext hlabels =>
    refine ⟨⟨.bucket, [⟨"le", text⟩]⟩, ?_, ⟨.value, rowLabels m' row⟩, ?_, ?_, ?_⟩
    · simp [hvalue, allMarks, marks, htext]
    · simp only [hvalue', allMarks, marks, Option.map_some, Option.getD_some]
      exact List.mem_append_left _ (List.mem_map.mpr ⟨row, hrow, rfl⟩)
    · rw [hempty, hname]
      rfl
    · intro l
      rw [hlabels, List.mem_singleton]

/-- Two metrics of different names have a series in common exactly if one intrudes on the other. -/
theorem exists_meets_iff {m m' : Metric} {value value' : Option Shaped} (hne : m.name ≠ m'.name)
    (h : Labelled m value) (h' : Labelled m' value') :
    (∃ k ∈ allMarks m value, ∃ k' ∈ allMarks m' value', Meets m k m' k') ↔
      Intrudes m value m' value' ∨ Intrudes m' value' m value := by
  have hflip : ∀ {k k' : Mark}, Meets m k m' k' → Meets m' k' m k :=
    fun hmeet => ⟨hmeet.1.symm, fun l => (hmeet.2 l).symm⟩
  constructor
  · rintro ⟨k, hk, k', hk', hmeet⟩
    by_cases hrole : k.role = .value
    · by_cases hrole' : k'.role = .value
      · have hsame := hmeet.1
        rw [hrole, hrole'] at hsame
        exact absurd ((String.append_left_inj _).mp hsame) hne
      · exact Or.inr (.of_marks hk' hk hrole' hrole h (hflip hmeet))
    · rcases Role.of_append_eq hmeet.1 with ⟨-, hname⟩ | hvalue | hvalue'
      · exact absurd hname hne
      · exact absurd hvalue hrole
      · exact Or.inl (.of_marks hk hk' hrole hvalue' h' hmeet)
  · rintro (hintrudes | hintrudes)
    · exact hintrudes.meets
    · obtain ⟨k', hk', k, hk, hname, hsame⟩ := hintrudes.meets
      exact ⟨k, hk, k', hk', hname.symm, fun l => (hsame l).symm⟩

/-! ### Samples and marks -/

/-- The samples of one metric are distinct if its marks are. -/
theorem distinct_families_iff {m : Metric} (h : Ruled m) (i : Identity) (value : Option Shaped)
    (up : Bool) : DistinctSeries ((families m i value up).flatMap (·.samples)) ↔
      (allMarks m value).Pairwise fun k k' => ¬ k.Same k' := by
  have haddresses : DistinctSeries ((families m i value up).flatMap (·.samples)) ↔
      (((families m i value up).flatMap (·.samples)).map address).Pairwise
        fun p p' => ¬ (p.1 = p'.1 ∧ ∀ l, l ∈ p.2 ↔ l ∈ p'.2) := by
    rw [List.pairwise_map]
    rfl
  rw [haddresses, addresses_families, List.pairwise_map]
  apply List.Pairwise.iff_of_mem
  intro k k' hk hk'
  rw [same_labels_iff (free_of_mem_allMarks h hk) (free_of_mem_allMarks h hk'),
    String.append_right_inj, Mark.Same]
  constructor
  · exact fun hapart hsame => hapart ⟨congrArg Role.suffix hsame.1, rfl, hsame.2⟩
  · exact fun hapart hsame => hapart ⟨Role.suffix_injective hsame.1, hsame.2.2⟩

/-- Two metrics have a series in common if they belong to one identity and two of their marks
meet. -/
theorem exists_same_iff {m m' : Metric} (h : Ruled m) (h' : Ruled m') (i i' : Identity)
    (value value' : Option Shaped) (up up' : Bool) :
    (∃ s ∈ (families m i value up).flatMap (·.samples),
      ∃ s' ∈ (families m' i' value' up').flatMap (·.samples), s.SameSeries s') ↔
      i = i' ∧ ∃ k ∈ allMarks m value, ∃ k' ∈ allMarks m' value', Meets m k m' k' := by
  have haddresses : (∃ s ∈ (families m i value up).flatMap (·.samples),
      ∃ s' ∈ (families m' i' value' up').flatMap (·.samples), s.SameSeries s') ↔
      ∃ p ∈ ((families m i value up).flatMap (·.samples)).map address,
        ∃ p' ∈ ((families m' i' value' up').flatMap (·.samples)).map address,
          p.1 = p'.1 ∧ ∀ l, l ∈ p.2 ↔ l ∈ p'.2 := by
    simp only [List.mem_map, exists_exists_and_eq_and]
    rfl
  rw [haddresses, addresses_families, addresses_families]
  simp only [List.mem_map, exists_exists_and_eq_and]
  constructor
  · rintro ⟨k, hk, k', hk', hname, hsame⟩
    obtain ⟨hidentity, hsame⟩ := (same_labels_iff (free_of_mem_allMarks h hk)
      (free_of_mem_allMarks h' hk')).mp hsame
    exact ⟨hidentity, k, hk, k', hk', hname, hsame⟩
  · rintro ⟨hidentity, k, hk, k', hk', hname, hsame⟩
    exact ⟨k, hk, k', hk', hname, (same_labels_iff (free_of_mem_allMarks h hk)
      (free_of_mem_allMarks h' hk')).mpr ⟨hidentity, hsame⟩⟩

/-- One metric cannot intrude on itself. -/
theorem Intrudes.name_ne {m m' : Metric} {value value' : Option Shaped}
    (h : Intrudes m value m' value') : m.name ≠ m'.name := by
  have hlonger : ∀ suffix : String, suffix.length ≠ 0 → m.name ≠ m.name ++ suffix := by
    intro suffix hsuffix heq
    have hlength := congrArg String.length heq
    rw [String.length_append] at hlength
    omega
  cases h with
  | companion x hvalue' hname =>
    rw [hname]
    exact hlonger "_up" (by decide)
  | total a x hvalue hvalue' hname =>
    rcases hname with hname | hname
    · rw [hname]
      exact hlonger "_sum" (by decide)
    · rw [hname]
      exact hlonger "_count" (by decide)
  | bucket a rows row text hvalue hvalue' hname hrow htext hlabels =>
    rw [hname]
    exact hlonger "_bucket" (by decide)

/-- A value that a metric has in some document labels its rows. -/
theorem labelled_of_shape {m : Metric} {doc : Node} {value : Shaped}
    (h : shape m doc = .ok value) : Labelled m (some value) := by
  rintro rows heq row hrow
  obtain rfl := Option.some.inj heq
  obtain ⟨hne, hlength⟩ := rows_of_shape h
  have hrow := hlength row hrow
  intro hnil
  rw [rowLabels, List.map_eq_nil_iff, List.zip_eq_nil_iff] at hnil
  rcases hnil with hnone | hnone
  · exact hne hnone
  · rw [hnone] at hrow
    exact hne (List.length_eq_zero_iff.mp hrow.symm)

/-! ### Metrics that tell their samples apart whatever their values are -/

/-- Different rows have different labels if the labels have different names. -/
theorem eq_of_sameRow {m : Metric} (hlabels : (m.labels.map (·.name)).Nodup) {row row' : Row}
    (hlength : row.labels.length = m.labels.length)
    (hlength' : row'.labels.length = m.labels.length) (h : SameRow m row row') :
    row.labels = row'.labels := by
  refine List.ext_getElem (hlength.trans hlength'.symm) fun i hi hi' => ?_
  have hown : (⟨m.labels[i].name, row.labels[i]⟩ : Label) ∈ rowLabels m row :=
    List.mem_map.mpr ⟨(m.labels[i], row.labels[i]),
      List.mem_iff_getElem.mpr ⟨i, by simp; omega, by simp⟩, rfl⟩
  obtain ⟨⟨spec, value⟩, hmem, heq⟩ := List.mem_map.mp ((h _).mp hown)
  obtain ⟨j, hj, hpair⟩ := List.mem_iff_getElem.mp hmem
  rw [List.getElem_zip, Prod.mk.injEq] at hpair
  obtain ⟨rfl, rfl⟩ := hpair
  rw [List.length_zip] at hj
  obtain ⟨hname, hvalue⟩ := Label.mk.inj heq
  have hindex : j = i := by
    have hi : i < (m.labels.map (·.name)).length := by
      rw [List.length_map]
      exact hlength ▸ hi
    have hj : j < (m.labels.map (·.name)).length := by
      rw [List.length_map]
      exact Nat.lt_of_lt_of_le hj (Nat.min_le_left _ _)
    refine hlabels.getElem_inj_iff.mp (?_ : (m.labels.map (·.name))[j] = _[i])
    rw [List.getElem_map, List.getElem_map]
    exact hname
  subst hindex
  exact hvalue.symm

/-- The names other than its own that the samples of a metric have. -/
def longerNames (m : Metric) : List String :=
  upName m.name ::
    if m.form = .histogram then [m.name ++ "_bucket", m.name ++ "_sum", m.name ++ "_count"] else []

/-- A metric that tells its samples apart whatever its value is: its labels have different names,
and the bounds of its buckets are different and not infinite. -/
structure Unambiguous (m : Metric) : Prop where
  labels : (m.labels.map (·.name)).Nodup
  bounds : ((m.buckets.map BucketSpec.bounds).getD [] ++ [Number.infinity]).Nodup

theorem Unambiguous.keepsApart {m : Metric} (h : Unambiguous m) {doc : Node} {value : Shaped}
    (hvalue : shape m doc = .ok value) : KeepsApart m value := by
  cases value with
  | scalar x => trivial
  | vector rows =>
    obtain ⟨-, hlength⟩ := rows_of_shape hvalue
    intro row hrow row' hrow' hne hsame
    exact hne (eq_of_sameRow h.labels (hlength row hrow) (hlength row' hrow') hsame)
  | histogram a =>
    have hbounds := (buckets_of_shape hvalue).2
    have hinfinity : Number.valueText Number.infinity = "+Inf" := by decide +kernel
    have htexts : bucketTexts a = (a.buckets.map (·.bound) ++ [Number.infinity]).map
        Number.valueText := by
      rw [bucketTexts, List.map_append, List.map_map, List.map_singleton, hinfinity]
      rfl
    rw [KeepsApart, htexts, hbounds]
    exact h.bounds.map Number.valueText_injective

/-- Only a metric with a longer name of another one intrudes on it. -/
theorem Intrudes.mem_longerNames {m m' : Metric} {value value' : Option Shaped}
    (h : Intrudes m value m' value')
    (hform : ∀ a, value = some (.histogram a) → m.form = .histogram) :
    m'.name ∈ longerNames m := by
  cases h with
  | companion x hvalue' hname => simp [longerNames, hname]
  | total a x hvalue hvalue' hname =>
    rcases hname with hname | hname
    · simp [longerNames, hform a hvalue, hname]
    · simp [longerNames, hform a hvalue, hname]
  | bucket a rows row text hvalue hvalue' hname hrow htext hlabels =>
    simp [longerNames, hform a hvalue, hname]

end Render
end MetricRelay
