import MetricRelay.Proofs.Shape

/-!
# Values that fit their metrics

A value fits a metric if it has the form of the metric, a row has a text for each
label, a counter has no number below zero, and a histogram has a bucket for each
bound. Every value that a metric has in a document fits it; and as long as a
histogram has bounds, no document is blamed for a lack of buckets.
-/

namespace MetricRelay

open Catalog (Metric)

/-! ### What fits -/

namespace Catalog.Metric

def bounds (m : Metric) : List Float := (m.buckets.map BucketSpec.bounds).getD []

/-- A number that the metric can have: for a counter, one that is not below zero. -/
def Bears (m : Metric) (x : Float) : Prop := m.type = .counter → ¬ x < 0.0

inductive Admits (m : Metric) : Shaped → Prop
  | scalar {x : Float} (form : m.form = .scalar) (sign : m.Bears x) : m.Admits (.scalar x)
  | vector {rows : List Row} (form : m.form = .vector)
      (arity : ∀ row ∈ rows, row.labels.length = m.labels.length)
      (sign : ∀ row ∈ rows, m.Bears row.value) : m.Admits (.vector rows)
  | histogram {a : Aggregate} (form : m.form = .histogram)
      (bounds : a.buckets.map (·.bound) = m.bounds) : m.Admits (.histogram a)

end Catalog.Metric

def ShapeError.BlamesBuckets : ShapeError → Prop
  | .noBuckets _ => True
  | _ => False

namespace Shape

/-! ### Results and errors -/

section Ensured

variable {ε α β : Type} {P : ε → Prop} {Q : α → Prop} {R : β → Prop}

/-- An error has the one property, or else a result has the other one. -/
def Ensures (P : ε → Prop) (Q : α → Prop) : Except ε α → Prop
  | .error e => P e
  | .ok a => Q a

theorem Ensures.bind {x : Except ε α} {f : α → Except ε β} (hx : Ensures P Q x)
    (hf : ∀ a, Q a → Ensures P R (f a)) : Ensures P R (x >>= f) := by
  cases x with
  | error e => exact hx
  | ok a => exact hf a hx

theorem Ensures.map {x : Except ε α} {f : α → β} (hx : Ensures P Q x)
    (hf : ∀ a, Q a → R (f a)) : Ensures P R (x.map f) := by
  cases x with
  | error e => exact hx
  | ok a => exact hf a hx

theorem Ensures.mapM {f : α → Except ε β} (hf : ∀ a, Ensures P R (f a)) (xs : List α) :
    Ensures P (fun ys => ∀ y ∈ ys, R y) (xs.mapM f) := by
  induction xs with
  | nil => exact fun y hy => nomatch hy
  | cons x xs ih =>
    rw [List.mapM_cons]
    refine (hf x).bind fun y hy => ih.bind fun ys hys => ?_
    exact List.forall_mem_cons.mpr ⟨hy, hys⟩

/-- What is known of every result may be added. -/
theorem Ensures.and_of_ok {x : Except ε α} {Q' : α → Prop} (hx : Ensures P Q x)
    (h : ∀ a, x = .ok a → Q' a) : Ensures P (fun a => Q a ∧ Q' a) x := by
  cases x with
  | error e => exact hx
  | ok a => exact ⟨hx, h a rfl⟩

theorem Ensures.of_ok {x : Except ε α} {a : α} (hx : Ensures P Q x) (h : x = .ok a) : Q a := by
  rwa [h] at hx

theorem Ensures.of_error {x : Except ε α} {e : ε} (hx : Ensures P Q x) (h : x = .error e) :
    P e := by
  rwa [h] at hx

end Ensured

/-! ### Numbers and rows -/

variable {m : Metric}

/-- The errors apart from a lack of buckets, together with a property of the results. -/
abbrev Sound {α : Type} (Q : α → Prop) : Except ShapeError α → Prop :=
  Ensures (fun e => ¬ e.BlamesBuckets) Q

theorem sound_liftPath {α : Type} (x : Except PathError α) :
    Sound (fun _ => True) (liftPath x) := by
  cases x with
  | error e => exact not_false
  | ok a => trivial

theorem sound_checkCounter (m : Metric) (x : Float) :
    Sound (fun _ => m.Bears x) (checkCounter m x) := by
  rw [checkCounter]
  split
  · exact not_false
  · next hnot => exact fun htype hbelow => hnot ⟨htype, hbelow⟩

theorem sound_scalar (m : Metric) (doc : Node) : Sound m.Bears (scalar m doc) := by
  refine (sound_liftPath _).bind fun node _ => (sound_liftPath _).bind fun x _ => ?_
  exact (sound_checkCounter m x).bind fun _ hx => hx

theorem sound_recordRow (m : Metric) (record : Node) :
    Sound (fun row => m.Bears row.value) (recordRow m record) := by
  refine (sound_scalar m record).bind fun x hx => ?_
  exact (Ensures.mapM (fun l => sound_liftPath _) m.labels).bind fun _ _ => hx

theorem sound_column (m : Metric) (subtree : Node) (valueCount : ℕ) (l : Catalog.LabelSpec) :
    Sound (fun _ => True) (column m subtree valueCount l) := by
  refine (sound_liftPath _).bind fun node _ => (sound_liftPath _).bind fun items _ => ?_
  split
  · trivial
  · exact not_false

theorem sound_columnRow (m : Metric) (columns : List Column) (i : ℕ) (node : Node) :
    Sound (fun row => m.Bears row.value) (columnRow m columns i node) := by
  refine (sound_liftPath _).bind fun x _ => (sound_checkCounter m x).bind fun _ hx => ?_
  exact (Ensures.mapM (fun c => sound_liftPath _) columns).bind fun _ _ => hx

theorem sound_columnRows (m : Metric) (columns : List Column) (i : ℕ) (nodes : List Node) :
    Sound (fun rows => ∀ row ∈ rows, m.Bears row.value) (columnRows m columns i nodes) := by
  induction nodes generalizing i with
  | nil => exact fun row hrow => nomatch hrow
  | cons node nodes ih =>
    refine (sound_columnRow m columns i node).bind fun row hrow => ?_
    refine (ih (i + 1)).bind fun rows hrows => ?_
    exact List.forall_mem_cons.mpr ⟨hrow, hrows⟩

/-- Both layouts give rows of numbers that the metric bears. -/
theorem sound_vector (m : Metric) (doc : Node) :
    Sound (fun rows => ∀ row ∈ rows, m.Bears row.value) (vector m doc) := by
  refine (sound_liftPath _).bind fun subtree _ => ?_
  split
  · exact Ensures.mapM (sound_recordRow m) _
  · refine (sound_liftPath _).bind fun node _ => (sound_liftPath _).bind fun values _ => ?_
    exact (Ensures.mapM (sound_column m _ _) m.labels).bind fun columns _ =>
      sound_columnRows m columns 0 values

/-- A histogram with bounds does not lack buckets. -/
theorem sound_histogram (hbounds : m.bounds ≠ []) (doc : Node) :
    Sound (fun _ => True) (histogram m doc) := by
  rw [histogram]
  dsimp only
  split
  · next hempty => exact absurd (List.isEmpty_iff.mp hempty) hbounds
  · refine (sound_liftPath _).bind fun node _ => (sound_liftPath _).bind fun items _ => ?_
    exact (sound_liftPath _).bind fun values _ => trivial

end Shape

/-- A metric whose histogram has bounds makes a value that fits it of a document, or fails for
another reason than a lack of buckets. -/
theorem sound_shape {m : Metric} (hbounds : m.form = .histogram → m.bounds ≠ []) (doc : Node) :
    Shape.Sound m.Admits (shape m doc) := by
  rw [shape]
  split
  · next hform => exact (Shape.sound_scalar m doc).map fun x hx => .scalar hform hx
  · next hform =>
    refine ((Shape.sound_vector m doc).and_of_ok fun rows => Shape.length_vector).map ?_
    rintro rows ⟨hsign, harity⟩
    exact .vector hform harity hsign
  · next hform =>
    refine ((Shape.sound_histogram (hbounds hform) doc).and_of_ok
      fun a => Shape.buckets_histogram).map ?_
    rintro a ⟨-, hbuckets⟩
    exact .histogram hform hbuckets

end MetricRelay
