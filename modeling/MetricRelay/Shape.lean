import MetricRelay.Catalog
/-!
Values of metrics out of documents. A scalar is one numeric leaf; a vector is a sequence of
records or a map of parallel sequences; a histogram counts a sequence of numbers into cumulative
buckets.
-/
namespace MetricRelay

inductive ShapeError where
  | path (error : PathError)
  /-- A column of labels is not as long as the column of values. -/
  | unevenColumns (metric label : String) (labelCount : Nat) (path : String) (valueCount : Nat)
  | negativeCounter (metric : String) (value : Float)
  | noBuckets (metric : String)

def ShapeError.message : ShapeError → String
  | .path error => error.message
  | .unevenColumns metric label labelCount valuePath valueCount =>
    s!"metric '{metric}' shape mismatch: label '{label}' has {labelCount} elements "
      ++ s!"but '{valuePath}' has {valueCount}"
  | .negativeCounter metric value =>
    s!"counter '{metric}' got negative value {Number.plainText value}"
  | .noBuckets metric => s!"histogram '{metric}' has no buckets"

/-- A cumulative bucket: how many values are at most `bound`. -/
structure Bucket where
  bound : Float
  count : Nat

structure Aggregate where
  count : Nat
  sum : Float
  buckets : List Bucket

def Aggregate.ofValues (bounds values : List Float) : Aggregate where
  count := values.length
  sum := Number.sum values
  buckets := bounds.map fun bound => ⟨bound, values.countP (· ≤ bound)⟩

/-- One row of a vector: the label values in order of declaration, and the value. -/
structure Row where
  labels : List String
  value : Float

inductive Shaped where
  | scalar (value : Float)
  | vector (rows : List Row)
  | histogram (aggregate : Aggregate)

/-- How many samples a value is written as: a histogram has its buckets, the infinite one, the sum
and the count. -/
def Shaped.sampleCount : Shaped → Nat
  | .scalar _ => 1
  | .vector rows => rows.length
  | .histogram a => a.buckets.length + 3

namespace Shape

open Catalog (Metric LabelSpec)

def liftPath {α : Type} (result : Except PathError α) : Except ShapeError α :=
  result.mapError .path

/-- A counter never falls below zero. -/
def checkCounter (m : Metric) (value : Float) : Except ShapeError Unit :=
  if m.type = .counter ∧ value < 0.0 then .error (.negativeCounter m.name value) else .ok ()

def scalar (m : Metric) (doc : Node) : Except ShapeError Float := do
  let node ← liftPath (doc.lookup m.path)
  let value ← liftPath (node.number? m.path)
  checkCounter m value
  return value

/-- One row out of a record: the value first, then the labels in order. -/
def recordRow (m : Metric) (record : Node) : Except ShapeError Row := do
  let value ← scalar m record
  let labels ← m.labels.mapM fun l =>
    liftPath ((record.lookup l.path).bind (·.string? l.path))
  return ⟨labels, value⟩

/-- The path of the `i`-th element of the sequence at `path`. -/
def elementPath (path : String) (i : Nat) : String := path ++ "/" ++ Number.text i

/-- A column of labels, as long as the column of values. -/
structure Column where
  path : String
  items : List Node

def column (m : Metric) (subtree : Node) (valueCount : Nat) (l : LabelSpec) :
    Except ShapeError Column := do
  let node ← liftPath (subtree.lookup l.path)
  let items ← liftPath (node.sequence? l.path)
  if items.length = valueCount then return ⟨l.path, items⟩
  else throw (.unevenColumns m.name l.name items.length m.path valueCount)

/-- The `i`-th row of parallel columns. -/
def columnRow (m : Metric) (columns : List Column) (i : Nat) (node : Node) :
    Except ShapeError Row := do
  let value ← liftPath (node.number? (elementPath m.path i))
  checkCounter m value
  let labels ← columns.mapM fun c =>
    liftPath ((c.items.getD i .null).string? (elementPath c.path i))
  return ⟨labels, value⟩

/-- Rows numbered from `i` on. -/
def columnRows (m : Metric) (columns : List Column) : Nat → List Node → Except ShapeError (List Row)
  | _, [] => .ok []
  | i, node :: nodes => do
    let row ← columnRow m columns i node
    let rows ← columnRows m columns (i + 1) nodes
    return row :: rows

def ofColumns (m : Metric) (subtree : Node) : Except ShapeError (List Row) := do
  let node ← liftPath (subtree.lookup m.path)
  let values ← liftPath (node.sequence? m.path)
  let columns ← m.labels.mapM (column m subtree values.length)
  columnRows m columns 0 values

/-- The rows below the item path: the records of a sequence, or else parallel columns. -/
def vector (m : Metric) (doc : Node) : Except ShapeError (List Row) := do
  let subtree ← liftPath (doc.lookup (m.itemPath.getD "/"))
  match subtree with
  | .sequence records => records.mapM (recordRow m)
  | other => ofColumns m other

/-- The numbers of a sequence, numbered from `i` on. -/
def numbers (path : String) : Nat → List Node → Except PathError (List Float)
  | _, [] => .ok []
  | i, node :: nodes => do
    let x ← node.number? (elementPath path i)
    let xs ← numbers path (i + 1) nodes
    return x :: xs

def histogram (m : Metric) (doc : Node) : Except ShapeError Aggregate := do
  let bounds := (m.buckets.map BucketSpec.bounds).getD []
  if bounds.isEmpty then throw (.noBuckets m.name)
  let node ← liftPath (doc.lookup m.path)
  let items ← liftPath (node.sequence? m.path)
  let values ← liftPath (numbers m.path 0 items)
  return Aggregate.ofValues bounds values

end Shape

/-- The value of a metric in a document. -/
def shape (m : Catalog.Metric) (doc : Node) : Except ShapeError Shaped :=
  match m.form with
  | .scalar => (Shape.scalar m doc).map .scalar
  | .vector => (Shape.vector m doc).map .vector
  | .histogram => (Shape.histogram m doc).map .histogram

/-- The latest good value of each metric. -/
structure LastGood where
  values : List (MetricId × Shaped) := []

namespace LastGood

def get? (l : LastGood) (id : MetricId) : Option Shaped :=
  (l.values.find? (·.1 == id)).map (·.2)

def record (l : LastGood) (id : MetricId) (value : Shaped) : LastGood :=
  ⟨(id, value) :: l.values.filter (·.1 != id)⟩

end LastGood
end MetricRelay
