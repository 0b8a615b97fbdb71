import Mathlib.Data.List.Forall2
import MetricRelay.Shape

/-!
# What a value is made of

Every row of a vector has a value for each of its labels, and a vector has at
least one label. A histogram has the bounds of its metric.
-/

namespace MetricRelay

namespace Shape

variable {ε α β : Type}

theorem of_bind_ok {x : Except ε α} {f : α → Except ε β} {b : β} (h : x >>= f = .ok b) :
    ∃ a, x = .ok a ∧ f a = .ok b := by
  cases x with
  | error e => cases h
  | ok a => exact ⟨a, rfl, h⟩

/-- What a traversal that succeeds brings: one result for each element, in order. -/
theorem forall₂_of_mapM {f : α → Except ε β} {xs : List α} {ys : List β}
    (h : xs.mapM f = .ok ys) : List.Forall₂ (fun x y => f x = .ok y) xs ys := by
  induction xs generalizing ys with
  | nil =>
    cases h
    exact List.Forall₂.nil
  | cons x xs ih =>
    rw [List.mapM_cons] at h
    obtain ⟨y, hy, h⟩ := of_bind_ok h
    obtain ⟨rest, hrest, h⟩ := of_bind_ok h
    cases h
    exact List.Forall₂.cons hy (ih hrest)

theorem mapM_of_forall₂ {f : α → Except ε β} {xs : List α} {ys : List β}
    (h : List.Forall₂ (fun x y => f x = .ok y) xs ys) : xs.mapM f = .ok ys := by
  induction h with
  | nil => rfl
  | cons hx _ ih =>
    rw [List.mapM_cons, hx, ih]
    rfl

/-- What holds of every result of a step holds of all results of a traversal. -/
theorem forall_of_mapM {f : α → Except ε β} {P : β → Prop} (hf : ∀ x y, f x = .ok y → P y)
    {xs : List α} {ys : List β} (h : xs.mapM f = .ok ys) : ∀ y ∈ ys, P y := by
  have hall := forall₂_of_mapM h
  clear h
  induction hall with
  | nil => simp
  | cons hx _ ih => exact List.forall_mem_cons.mpr ⟨hf _ _ hx, ih⟩

open Catalog (Metric)

variable {m : Metric} {row : Row}

theorem length_recordRow {record : Node} (h : recordRow m record = .ok row) :
    row.labels.length = m.labels.length := by
  obtain ⟨value, -, h⟩ := of_bind_ok h
  obtain ⟨labels, hlabels, h⟩ := of_bind_ok h
  cases h
  exact (forall₂_of_mapM hlabels).length_eq.symm

theorem length_columnRow {columns : List Column} {i : Nat} {node : Node}
    (h : columnRow m columns i node = .ok row) : row.labels.length = columns.length := by
  obtain ⟨value, -, h⟩ := of_bind_ok h
  obtain ⟨_, -, h⟩ := of_bind_ok h
  obtain ⟨labels, hlabels, h⟩ := of_bind_ok h
  cases h
  exact (forall₂_of_mapM hlabels).length_eq.symm

theorem length_columnRows {columns : List Column} {i : Nat} {nodes : List Node} {rows : List Row}
    (h : columnRows m columns i nodes = .ok rows) :
    ∀ row ∈ rows, row.labels.length = columns.length := by
  induction nodes generalizing i rows with
  | nil =>
    cases h
    simp
  | cons node nodes ih =>
    obtain ⟨first, hfirst, h⟩ := of_bind_ok h
    obtain ⟨rest, hrest, h⟩ := of_bind_ok h
    cases h
    intro row hrow
    rcases List.mem_cons.mp hrow with rfl | htail
    · exact length_columnRow hfirst
    · exact ih hrest row htail

theorem length_vector {doc : Node} {rows : List Row} (h : vector m doc = .ok rows) :
    ∀ row ∈ rows, row.labels.length = m.labels.length := by
  obtain ⟨subtree, -, h⟩ := of_bind_ok h
  split at h
  · exact forall_of_mapM (fun _ _ => length_recordRow) h
  · obtain ⟨node, -, h⟩ := of_bind_ok h
    obtain ⟨values, -, h⟩ := of_bind_ok h
    obtain ⟨columns, hcolumns, h⟩ := of_bind_ok h
    intro row hrow
    rw [length_columnRows h row hrow]
    exact (forall₂_of_mapM hcolumns).length_eq.symm

theorem buckets_histogram {doc : Node} {a : Aggregate} (h : histogram m doc = .ok a) :
    a.buckets.map (·.bound) = (m.buckets.map BucketSpec.bounds).getD [] := by
  rw [histogram] at h
  dsimp only at h
  split at h
  · cases h
  · obtain ⟨node, -, h⟩ := of_bind_ok h
    obtain ⟨items, -, h⟩ := of_bind_ok h
    obtain ⟨values, -, h⟩ := of_bind_ok h
    cases h
    simp [Aggregate.ofValues, Function.comp_def]

theorem of_map_ok {x : Except ε α} {f : α → β} {b : β} (h : x.map f = .ok b) :
    ∃ a, x = .ok a ∧ f a = b := by
  cases x with
  | error e => cases h
  | ok a => exact ⟨a, rfl, Except.ok.inj h⟩

end Shape

/-- The value of a metric has the form of the metric. -/
theorem shape_cases {m : Catalog.Metric} {doc : Node} {value : Shaped}
    (h : shape m doc = .ok value) :
    (∃ x, m.form = .scalar ∧ Shape.scalar m doc = .ok x ∧ value = .scalar x) ∨
    (∃ rows, m.form = .vector ∧ Shape.vector m doc = .ok rows ∧ value = .vector rows) ∨
    ∃ a, m.form = .histogram ∧ Shape.histogram m doc = .ok a ∧ value = .histogram a := by
  rw [shape] at h
  split at h
  · next hform =>
    obtain ⟨x, hscalar, rfl⟩ := Shape.of_map_ok h
    exact Or.inl ⟨x, hform, hscalar, rfl⟩
  · next hform =>
    obtain ⟨rows, hvector, rfl⟩ := Shape.of_map_ok h
    exact Or.inr (Or.inl ⟨rows, hform, hvector, rfl⟩)
  · next hform =>
    obtain ⟨a, hhistogram, rfl⟩ := Shape.of_map_ok h
    exact Or.inr (Or.inr ⟨a, hform, hhistogram, rfl⟩)

/-- A metric that has rows has labels, and every row has a value for each of them. -/
theorem rows_of_shape {m : Catalog.Metric} {doc : Node} {rows : List Row}
    (h : shape m doc = .ok (.vector rows)) :
    m.labels ≠ [] ∧ ∀ row ∈ rows, row.labels.length = m.labels.length := by
  obtain ⟨x, -, -, heq⟩ | ⟨found, hform, hvector, heq⟩ | ⟨a, -, -, heq⟩ := shape_cases h
  · cases heq
  · obtain rfl := Shaped.vector.inj heq
    refine ⟨?_, Shape.length_vector hvector⟩
    intro hnil
    rw [Catalog.Metric.form, hnil] at hform
    split at hform
    · cases hform
    · cases hform
  · cases heq

/-- A metric that has buckets is a histogram, and has the bounds that were set for it. -/
theorem buckets_of_shape {m : Catalog.Metric} {doc : Node} {a : Aggregate}
    (h : shape m doc = .ok (.histogram a)) : m.form = .histogram ∧
      a.buckets.map (·.bound) = (m.buckets.map BucketSpec.bounds).getD [] := by
  obtain ⟨x, -, -, heq⟩ | ⟨rows, -, -, heq⟩ | ⟨found, hform, hhistogram, heq⟩ := shape_cases h
  · cases heq
  · cases heq
  · obtain rfl := Shaped.histogram.inj heq
    exact ⟨hform, Shape.buckets_histogram hhistogram⟩

end MetricRelay
