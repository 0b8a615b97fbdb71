import MetricRelay.Proofs.Node.Path
import MetricRelay.Proofs.Number.Written
import MetricRelay.Shape

/-!
# Joined paths

A path that is joined to another one leads on from where that one leads, and fails
with the error of the first of them that fails. So a record of a sequence can be read
from the whole document, and a node is reached by spelling its way.
-/

namespace MetricRelay

/-- The error at a place, seen from where the path `base` starts. -/
def PathError.below (base : String) : PathError → PathError
  | .notFound path segment => .notFound (base ++ "/" ++ path) segment
  | .typeMismatch path expected found => .typeMismatch (base ++ "/" ++ path) expected found

def ShapeError.below (base : String) : ShapeError → ShapeError
  | .path e => .path (e.below base)
  | e => e

def Catalog.Metric.below (base : String) (m : Metric) : Metric :=
  { m with
    path := base ++ "/" ++ m.path
    labels := m.labels.map fun l => { l with path := base ++ "/" ++ l.path } }

namespace Node

/-! ### Two paths -/

variable {node doc : Node} {path : String}

theorem lookup_join (node : Node) (p q : String) :
    node.lookup (p ++ "/" ++ q) =
      ((node.lookup p).bind (·.lookup q)).mapError (·.reportedAt (p ++ "/" ++ q)) := by
  rw [lookup_eq_follow, segments_join, follow_append, lookup_eq_follow,
    ← follow_reportedAt p (p ++ "/" ++ q) node (segments p)]
  cases follow p node (segments p) with
  | error e => rfl
  | ok next => exact (follow_reportedAt q _ next _).symm

/-- An error reports the path of the lookup. -/
theorem reportedAt_of_lookup {e : PathError} (h : node.lookup path = .error e) :
    e.reportedAt path = e := by
  have hsame := follow_reportedAt path path node (segments path)
  rw [← lookup_eq_follow, h] at hsame
  exact Except.error.inj hsame

theorem lookup_below {base : String} (h : doc.lookup base = .ok node) (path : String) :
    doc.lookup (base ++ "/" ++ path) = (node.lookup path).mapError (·.below base) := by
  rw [lookup_join, h]
  change (node.lookup path).mapError _ = _
  cases hfound : node.lookup path with
  | ok found => rfl
  | error e =>
    have hreported := reportedAt_of_lookup hfound
    rw [← hreported]
    cases e <;> rfl

/-! ### Positions -/

theorem isSegment_text (i : ℕ) : IsSegment (Number.text i) := by
  constructor
  · rw [Number.text, Ne, String.ofList_eq_empty_iff]
    exact Number.digitsOf_ne_nil i
  · rw [Number.text, String.toList_ofList]
    intro hmem
    have hdigit := Number.isDigit_of_mem_digitsOf hmem
    revert hdigit
    decide

/-- The text of a number is a position, if the number has 64 bits. -/
theorem child_text (path : String) (items : List Node) (i : ℕ) :
    child path (.sequence items) (Number.text i) =
      if i ≤ maxIndex then
        match items[i]? with
        | some item => .ok item
        | none => .error (.notFound path (Number.text i))
      else .error (.typeMismatch path "map" "sequence") := by
  have hread : Number.readUnsigned? maxIndex (Number.text i).toList =
      if i ≤ maxIndex then some i else none := by
    rw [Number.text, String.toList_ofList, Number.readUnsigned?_digitsOf]
  rw [child]
  by_cases hi : i ≤ maxIndex
  · have hposition : Number.readUnsigned? maxIndex (Number.text i).toList = some i :=
      hread.trans (if_pos hi)
    simp only [hposition]
    exact (if_pos hi).symm
  · have hnone : Number.readUnsigned? maxIndex (Number.text i).toList = none :=
      hread.trans (if_neg hi)
    simp only [hnone]
    exact (if_neg hi).symm

theorem child_position (path : String) (items : List Node) (i : UInt64) :
    child path (.sequence items) (Number.text i.toNat) =
      match items[i.toNat]? with
      | some item => .ok item
      | none => .error (.notFound path (Number.text i.toNat)) := by
  have hfits : i.toNat ≤ maxIndex := Nat.le_sub_one_of_lt i.toNat_lt
  rw [child_text, if_pos hfits]

/-- The records of a sequence are found at its positions. -/
theorem lookup_element {items : List Node} (h : doc.lookup path = .ok (.sequence items))
    {i : UInt64} {item : Node} (hitem : items[i.toNat]? = some item) :
    doc.lookup (Shape.elementPath path i.toNat) = .ok item := by
  rw [Shape.elementPath, lookup_below h, lookup_eq_follow,
    segments_of_isSegment (isSegment_text _), follow_singleton,
    child_position, hitem]
  rfl

end Node

/-! ### Rows of records -/

namespace Shape

variable {α β ε ε' : Type}

theorem mapError_bind (x : Except ε α) (f : α → Except ε β) (g : ε → ε') :
    (x >>= f).mapError g = x.mapError g >>= fun a => (f a).mapError g := by
  cases x <;> rfl

theorem mapM_mapError {f : α → Except ε β} (g : ε → ε') (xs : List α) :
    (xs.mapM f).mapError g = xs.mapM fun x => (f x).mapError g := by
  induction xs with
  | nil => rfl
  | cons x xs ih =>
    rw [List.mapM_cons, List.mapM_cons, mapError_bind, ← ih]
    simp only [mapError_bind]
    rfl

theorem liftPath_below (base : String) (x : Except PathError α) :
    liftPath (x.mapError (·.below base)) = (liftPath x).mapError (·.below base) := by
  cases x <;> rfl

open Catalog (Metric)

variable {m : Metric} {doc record : Node} {base : String}

theorem number?_below (base path : String) (node : Node) :
    node.number? (base ++ "/" ++ path) = (node.number? path).mapError (·.below base) := by
  cases node <;> rfl

theorem string?_below (base path : String) (node : Node) :
    node.string? (base ++ "/" ++ path) = (node.string? path).mapError (·.below base) := by
  cases node <;> rfl

theorem checkCounter_below (base : String) (m : Metric) (x : Float) :
    checkCounter (m.below base) x = (checkCounter m x).mapError (·.below base) := by
  rw [checkCounter, checkCounter]
  change (if m.type = .counter ∧ x < 0.0 then _ else _) = _
  split <;> rfl

theorem scalar_below (h : doc.lookup base = .ok record) (m : Metric) :
    scalar (m.below base) doc = (scalar m record).mapError (·.below base) := by
  have hpath : (m.below base).path = base ++ "/" ++ m.path := rfl
  simp only [scalar, hpath, Node.lookup_below h, number?_below, liftPath_below, checkCounter_below,
    mapError_bind]
  rfl

/-- The row of a record is read from the whole document by joined paths. -/
theorem recordRow_below (h : doc.lookup base = .ok record) (m : Metric) :
    recordRow (m.below base) doc = (recordRow m record).mapError (·.below base) := by
  have hlabels : (m.below base).labels.mapM
      (fun l => liftPath ((doc.lookup l.path).bind (·.string? l.path))) =
        (m.labels.mapM fun l => liftPath ((record.lookup l.path).bind (·.string? l.path))).mapError
          (·.below base) := by
    rw [mapM_mapError, Metric.below, List.mapM_map]
    congr 1
    funext l
    rw [← liftPath_below]
    change liftPath (doc.lookup (base ++ "/" ++ l.path) >>= (·.string? (base ++ "/" ++ l.path))) =
      liftPath ((record.lookup l.path >>= (·.string? l.path)).mapError (·.below base))
    simp only [mapError_bind, Node.lookup_below h, string?_below]
  rw [recordRow, hlabels, scalar_below h, recordRow]
  simp only [mapError_bind]
  rfl

end Shape

/-! ### Ways -/

namespace Node

/-- A step down: under a key, or to a position, which is a number of 64 bits. -/
inductive Branch where
  | key (k : String)
  | position (i : UInt64)

namespace Branch

def text : Branch → String
  | key k => k
  | position i => Number.text i.toNat

def Spelled : Branch → Prop
  | key k => IsSegment k
  | position _ => True

end Branch

/-- The node at the end of a way. -/
inductive At : Node → List Branch → Node → Prop
  | here (node : Node) : At node [] node
  | under {entries : List (String × Node)} {k : String} {child node : Node} {way : List Branch}
      (h : Keyed.get? k entries = some child) (hway : At child way node) :
      At (.map entries) (.key k :: way) node
  | among {items : List Node} {i : UInt64} {item node : Node} {way : List Branch}
      (h : items[i.toNat]? = some item) (hway : At item way node) :
      At (.sequence items) (.position i :: way) node

theorem At.lookup_spell {way : List Branch} (h : At doc way node)
    (hway : ∀ b ∈ way, b.Spelled) : doc.lookup (spell (way.map (·.text))) = .ok node := by
  have hsegments : ∀ s ∈ way.map (·.text), IsSegment s := by
    intro s hs
    obtain ⟨b, hb, rfl⟩ := List.mem_map.mp hs
    cases b with
    | key k => exact hway _ hb
    | position i => exact isSegment_text _
  rw [Node.lookup_spell hsegments]
  generalize spell (way.map (·.text)) = path
  clear hway hsegments
  induction h with
  | here node => rfl
  | @under entries k child _ _ h _ ih =>
    have hchild : Node.child path (.map entries) k = .ok child := by rw [Node.child, h]
    rw [List.map_cons, Branch.text, follow_cons_ok hchild]
    exact ih
  | @among items i item _ _ h _ ih =>
    have hchild : child path (.sequence items) (Number.text i.toNat) = .ok item := by
      rw [child_position, h]
    rw [List.map_cons, Branch.text, follow_cons_ok hchild]
    exact ih

/-- A joined path leads to where its second part leads from the end of the first one, and fails as
the first part that fails, up to the path that is reported. So the records below an item path are
read from the whole document by joined paths, and every node is reached by spelling a way to it. -/
theorem lookup_composes (doc : Node) :
    (∀ p q, doc.lookup (p ++ "/" ++ q) =
      ((doc.lookup p).bind (·.lookup q)).mapError (·.reportedAt (p ++ "/" ++ q))) ∧
    (∀ (m : Catalog.Metric) records, doc.lookup (m.itemPath.getD "/") = .ok (.sequence records) →
      Shape.vector m doc = records.mapM (Shape.recordRow m) ∧
      ∀ (i : UInt64) record, records[i.toNat]? = some record →
        let base := Shape.elementPath (m.itemPath.getD "/") i.toNat
        (∀ path, doc.lookup (base ++ "/" ++ path) = (record.lookup path).mapError (·.below base)) ∧
        Shape.recordRow (m.below base) doc = (Shape.recordRow m record).mapError (·.below base)) ∧
    ∀ way node, At doc way node → (∀ b ∈ way, b.Spelled) →
      doc.lookup (spell (way.map (·.text))) = .ok node := by
  refine ⟨lookup_join doc, fun m records hrecords => ⟨?_, fun i record hrecord => ?_⟩,
    fun way node h => h.lookup_spell⟩
  · rw [Shape.vector, hrecords]
    rfl
  · have hbase := lookup_element hrecords hrecord
    exact ⟨lookup_below hbase, Shape.recordRow_below hbase m⟩

def peers : Node := .map [("net", .map [("peers", .sequence [
  .map [("address", .string "a"), ("height", .number 7)], .map [("address", .string "b")]])])]

def peerHeights : Catalog.Metric where
  id := ⟨0⟩
  service := ⟨0⟩
  name := "height"
  type := .gauge
  description := ""
  dialect := "jsonpath"
  path := "/height"
  labels := [⟨"address", "jsonpath", "/address"⟩]
  buckets := none
  itemPath := some "/net/peers"

/-- The address of the second peer by its way, the height of a third one, and the row of the second
one as the whole document shows it. -/
theorem lookup_composes_peers :
    At peers [.key "net", .key "peers", .position 1, .key "address"] (.string "b") ∧
    peers.lookup "/net/peers/1/address" = .ok (.string "b") ∧
    peers.lookup ("net//peers/2/" ++ "/" ++ "height") =
      .error (.notFound "net//peers/2//height" "2") ∧
    Shape.recordRow (peerHeights.below "/net/peers/1") peers =
      .error (.path (.notFound "/net/peers/1//height" "height")) := by
  obtain ⟨hjoin, hrecords, hway⟩ := lookup_composes peers
  have hat : At peers [.key "net", .key "peers", .position 1, .key "address"] (.string "b") :=
    .under rfl (.under rfl (.among rfl (.under rfl (.here _))))
  have hspelled : ∀ b ∈ [Branch.key "net", .key "peers", .position 1, .key "address"],
      b.Spelled := by
    have hkey : ∀ k, k ≠ "" ∧ '/' ∉ k.toList → (Branch.key k).Spelled := fun k hk => ⟨hk.1, hk.2⟩
    simp only [List.forall_mem_cons]
    exact ⟨hkey _ (by decide), hkey _ (by decide), trivial, hkey _ (by decide),
      fun b hb => absurd hb List.not_mem_nil⟩
  obtain ⟨-, hrow⟩ := (hrecords peerHeights _ rfl).2 1 _ rfl
  exact ⟨hat, hway _ _ hat hspelled, (hjoin _ _).trans rfl, hrow.trans rfl⟩

end Node
end MetricRelay
