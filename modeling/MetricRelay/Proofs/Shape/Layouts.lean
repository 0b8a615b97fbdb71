import MetricRelay.Proofs.Keyed
import MetricRelay.Proofs.Shape

/-!
# Two layouts of a table

A table has rows of one number and some texts. A document holds it by rows, as a
sequence of records, or by columns, as a map of parallel sequences. Where the paths
of a metric are single keys, both layouts are read as the rows of the table in
order, or fail at the same row: the first one with a negative number, if the metric
is a counter.
-/

namespace MetricRelay

open Catalog (Metric)

/-! ### Tables -/

/-- A number of a table, or a switch that stands for one. -/
inductive NumericLeaf where
  | number (x : Float)
  | switch (b : Bool)

namespace NumericLeaf

def node : NumericLeaf → Node
  | number x => .number x
  | switch b => .bool b

def value : NumericLeaf → Float
  | number x => x
  | switch b => if b then 1.0 else 0.0

theorem number?_node (path : String) (l : NumericLeaf) : l.node.number? path = .ok l.value := by
  cases l <;> rfl

end NumericLeaf

/-- A row of a table with some number of texts. -/
structure Record (width : ℕ) where
  leaf : NumericLeaf
  labels : List String
  width_eq : labels.length = width

namespace Record

variable {width : ℕ}

def label (r : Record width) (j : ℕ) : String := r.labels.getD j ""

def row (r : Record width) : Row := ⟨r.labels, r.leaf.value⟩

end Record

namespace Shape

/-- What a metric makes of a table: its rows in order, or the first number below zero where the
metric is a counter. -/
def tableRows {width : ℕ} (m : Metric) (table : List (Record width)) :
    Except ShapeError (List Row) :=
  match table.find? fun r => m.type = .counter ∧ r.leaf.value < 0.0 with
  | some r => .error (.negativeCounter m.name r.leaf.value)
  | none => .ok (table.map (·.row))

def readRecord {width : ℕ} (m : Metric) (r : Record width) : Except ShapeError Row := do
  checkCounter m r.leaf.value
  return r.row

theorem tableRows_eq {width : ℕ} (m : Metric) (table : List (Record width)) :
    tableRows m table = table.mapM (readRecord m) := by
  induction table with
  | nil => rfl
  | cons r table ih =>
    rw [List.mapM_cons, ← ih, tableRows, List.find?_cons, readRecord, checkCounter]
    by_cases hbelow : m.type = .counter ∧ r.leaf.value < 0.0
    · rw [if_pos hbelow, decide_eq_true hbelow]
      rfl
    · rw [if_neg hbelow, decide_eq_false hbelow, tableRows]
      generalize table.find? _ = found
      cases found with
      | none => rfl
      | some _ => rfl

end Shape

/-! ### Layouts -/

/-- The key that a path of one segment names. -/
def Node.key (path : String) : String := (segments path).headD ""

def Catalog.Metric.paths (m : Metric) : List String := m.path :: m.labels.map (·.path)

/-- The paths of a metric are single keys and differ from each other. -/
structure Catalog.Metric.SingleKeys (m : Metric) : Prop where
  single : ∀ path ∈ m.paths, Node.segments path = [Node.key path]
  distinct : (m.paths.map Node.key).Nodup

namespace Shape

variable {m : Metric}

/-- A map with the number and the texts of a record, and perhaps more. -/
structure HoldsRecord (m : Metric) (r : Record m.labels.length) (entries : List (String × Node)) :
    Prop where
  leaf : Keyed.get? (Node.key m.path) entries = some r.leaf.node
  labels : List.Forall₂
    (fun l text => Keyed.get? (Node.key l.path) entries = some (.string text)) m.labels r.labels

/-- A map with the columns of a table, and perhaps more. -/
structure HoldsColumns (m : Metric) (table : List (Record m.labels.length))
    (entries : List (String × Node)) : Prop where
  leaves : Keyed.get? (Node.key m.path) entries = some (.sequence (table.map (·.leaf.node)))
  labels : ∀ j l, m.labels[j]? = some l →
    Keyed.get? (Node.key l.path) entries = some (.sequence (table.map fun r => .string (r.label j)))

def InRows (m : Metric) (table : List (Record m.labels.length)) (doc : Node) : Prop :=
  ∃ records, doc.lookup (m.itemPath.getD "/") = .ok (.sequence records) ∧
    List.Forall₂ (fun r node => ∃ entries, node = .map entries ∧ HoldsRecord m r entries)
      table records

def InColumns (m : Metric) (table : List (Record m.labels.length)) (doc : Node) : Prop :=
  ∃ entries, doc.lookup (m.itemPath.getD "/") = .ok (.map entries) ∧ HoldsColumns m table entries

theorem lookup_key {path : String} (hpath : Node.segments path = [Node.key path])
    {entries : List (String × Node)} {node : Node}
    (h : Keyed.get? (Node.key path) entries = some node) :
    (Node.map entries).lookup path = .ok node := by
  have hchild : Node.child path (.map entries) (Node.key path) = .ok node := by
    rw [Node.child, h]
  rw [Node.lookup, hpath, List.foldlM_cons, hchild]
  rfl

/-! ### Rows -/

theorem recordRow_eq (hkeys : m.SingleKeys) {r : Record m.labels.length}
    {entries : List (String × Node)} (h : HoldsRecord m r entries) :
    recordRow m (.map entries) = readRecord m r := by
  have hlabels : m.labels.mapM (fun l =>
      liftPath (((Node.map entries).lookup l.path).bind (·.string? l.path))) = .ok r.labels := by
    have hpaths : ∀ l ∈ m.labels, Node.segments l.path = [Node.key l.path] := fun l hl =>
      hkeys.single l.path (List.mem_cons_of_mem _ (List.mem_map_of_mem hl))
    refine mapM_of_forall₂ ((List.forall₂_and_left _ _).mpr ⟨hpaths, h.labels⟩ |>.imp ?_)
    rintro l text ⟨hpath, hheld⟩
    rw [lookup_key hpath hheld]
    rfl
  have hvalue : scalar m (.map entries) =
      (checkCounter m r.leaf.value).map fun _ => r.leaf.value := by
    rw [scalar, lookup_key (hkeys.single m.path List.mem_cons_self) h.leaf]
    change (liftPath (r.leaf.node.number? m.path) >>= fun value => _) = _
    rw [NumericLeaf.number?_node]
    change (checkCounter m r.leaf.value >>= fun _ => .ok r.leaf.value) = _
    cases checkCounter m r.leaf.value with
    | error _ => rfl
    | ok _ => rfl
  rw [recordRow, hvalue, hlabels, readRecord]
  cases checkCounter m r.leaf.value with
  | error _ => rfl
  | ok _ => rfl

theorem mapM_recordRow (hkeys : m.SingleKeys) {table : List (Record m.labels.length)}
    {records : List Node} (h : List.Forall₂ (fun r node =>
      ∃ entries, node = .map entries ∧ HoldsRecord m r entries) table records) :
    records.mapM (recordRow m) = table.mapM (readRecord m) := by
  induction h with
  | nil => rfl
  | cons hfirst _ ih =>
    obtain ⟨entries, rfl, hheld⟩ := hfirst
    rw [List.mapM_cons, List.mapM_cons, recordRow_eq hkeys hheld, ih]

theorem vector_of_inRows (hkeys : m.SingleKeys) {table : List (Record m.labels.length)}
    {doc : Node} (h : InRows m table doc) : vector m doc = tableRows m table := by
  obtain ⟨records, hlookup, hrecords⟩ := h
  rw [tableRows_eq, ← mapM_recordRow hkeys hrecords, vector, hlookup]
  rfl

/-! ### Columns -/

def labelColumns (m : Metric) (table : List (Record m.labels.length)) : List Column :=
  m.labels.mapIdx fun j l => ⟨l.path, table.map fun r => .string (r.label j)⟩

theorem mapM_column (hkeys : m.SingleKeys) {table : List (Record m.labels.length)}
    {entries : List (String × Node)} (h : HoldsColumns m table entries) :
    m.labels.mapM (column m (.map entries) table.length) = .ok (labelColumns m table) := by
  refine mapM_of_forall₂ (List.forall₂_of_length_eq_of_get (List.length_mapIdx ..).symm
    fun j hj hj' => ?_)
  have hpath := hkeys.single m.labels[j].path
    (List.mem_cons_of_mem _ (List.mem_map_of_mem (List.getElem_mem hj)))
  have hheld := h.labels j m.labels[j] (List.getElem?_eq_getElem hj)
  have hlength : (table.map fun r => Node.string (r.label j)).length = table.length :=
    List.length_map ..
  have hcolumn : (labelColumns m table).get ⟨j, hj'⟩ =
      ⟨m.labels[j].path, table.map fun r => .string (r.label j)⟩ := by
    simp [labelColumns]
  rw [hcolumn, List.get_eq_getElem, column, lookup_key hpath hheld]
  change (if (table.map fun r => Node.string (r.label j)).length = table.length then _ else _) = _
  rw [if_pos hlength]
  rfl

/-- The texts in a row of the columns. -/
theorem mapM_labelColumns {table : List (Record m.labels.length)} {i : ℕ}
    {r : Record m.labels.length} (hr : table[i]? = some r) :
    (labelColumns m table).mapM (fun c =>
      liftPath ((c.items.getD i .null).string? (elementPath c.path i))) = .ok r.labels := by
  apply mapM_of_forall₂
  have hlength : (labelColumns m table).length = r.labels.length := by
    rw [labelColumns, List.length_mapIdx, r.width_eq]
  refine List.forall₂_of_length_eq_of_get hlength fun j hj hj' => ?_
  have hitem : (((labelColumns m table).get ⟨j, hj⟩).items.getD i .null) =
      .string (r.labels.get ⟨j, hj'⟩) := by
    simp [labelColumns, hr, Record.label, List.getElem?_eq_getElem hj']
  rw [hitem]
  rfl

theorem columnRow_eq {table : List (Record m.labels.length)} {i : ℕ}
    {r : Record m.labels.length} (hr : table[i]? = some r) :
    columnRow m (labelColumns m table) i r.leaf.node = readRecord m r := by
  rw [columnRow, mapM_labelColumns hr, NumericLeaf.number?_node, readRecord]
  rfl

/-- The columns from some row on. -/
theorem columnRows_eq {table rest : List (Record m.labels.length)} {i : ℕ}
    (hrest : table.drop i = rest) :
    columnRows m (labelColumns m table) i (rest.map (·.leaf.node)) =
      rest.mapM (readRecord m) := by
  induction rest generalizing i with
  | nil => rfl
  | cons r rest ih =>
    have hr : table[i]? = some r := by
      rw [← List.head?_drop, hrest]
      rfl
    have hnext : table.drop (i + 1) = rest := by
      rw [← List.tail_drop, hrest]
      rfl
    rw [List.map_cons, columnRows, columnRow_eq hr, ih hnext, List.mapM_cons]

theorem vector_of_inColumns (hkeys : m.SingleKeys) {table : List (Record m.labels.length)}
    {doc : Node} (h : InColumns m table doc) : vector m doc = tableRows m table := by
  obtain ⟨entries, hlookup, hheld⟩ := h
  have hrows : columnRows m (labelColumns m table) 0 (table.map (·.leaf.node)) =
      table.mapM (readRecord m) := columnRows_eq List.drop_zero
  rw [tableRows_eq, ← hrows, vector, hlookup]
  change ofColumns m (.map entries) = _
  rw [ofColumns, lookup_key (hkeys.single m.path List.mem_cons_self) hheld.leaves]
  change (m.labels.mapM (column m (.map entries) (table.map (·.leaf.node)).length) >>=
    fun columns => columnRows m columns 0 (table.map (·.leaf.node))) = _
  rw [List.length_map, mapM_column hkeys hheld]
  rfl

/-! ### Every table has both layouts -/

def under (keys : List String) (node : Node) : Node :=
  keys.foldr (fun key inner => .map [(key, inner)]) node

theorem lookup_under (path : String) (node : Node) :
    (under (Node.segments path) node).lookup path = .ok node := by
  rw [Node.lookup]
  generalize Node.segments path = keys
  induction keys with
  | nil => rfl
  | cons key keys ih =>
    have hchild : Node.child path (under (key :: keys) node) key = .ok (under keys node) := by
      simp [under, Node.child, Keyed.get?_cons]
    rw [List.foldlM_cons, hchild]
    exact ih

def recordEntries (m : Metric) (r : Record m.labels.length) : List (String × Node) :=
  (Node.key m.path, r.leaf.node) ::
    (m.labels.zip r.labels).map fun (l, text) => (Node.key l.path, .string text)

theorem holdsRecord_entries (hkeys : m.SingleKeys) (r : Record m.labels.length) :
    HoldsRecord m r (Keyed.ofList (recordEntries m r)) := by
  have hnames : (recordEntries m r).map (·.1) = m.paths.map Node.key := by
    have hfirst : (m.labels.zip r.labels).map Prod.fst = m.labels :=
      List.map_fst_zip (Nat.le_of_eq r.width_eq.symm)
    rw [recordEntries, List.map_cons, List.map_map, Metric.paths, List.map_cons, List.map_map]
    conv_rhs => rw [← hfirst, List.map_map]
    rfl
  have hdistinct : ((recordEntries m r).map (·.1)).Nodup := hnames ▸ hkeys.distinct
  refine ⟨Keyed.get?_ofList hdistinct List.mem_cons_self, ?_⟩
  refine List.forall₂_iff_zip.mpr ⟨r.width_eq.symm, fun {l text} hmem => ?_⟩
  refine Keyed.get?_ofList hdistinct (List.mem_cons_of_mem _ ?_)
  exact List.mem_map.mpr ⟨(l, text), hmem, rfl⟩

def columnEntries (m : Metric) (table : List (Record m.labels.length)) : List (String × Node) :=
  (Node.key m.path, .sequence (table.map (·.leaf.node))) ::
    m.labels.mapIdx fun j l => (Node.key l.path, .sequence (table.map fun r => .string (r.label j)))

theorem holdsColumns_entries (hkeys : m.SingleKeys) (table : List (Record m.labels.length)) :
    HoldsColumns m table (Keyed.ofList (columnEntries m table)) := by
  have hnames : (columnEntries m table).map (·.1) = m.paths.map Node.key := by
    rw [columnEntries, List.map_cons, Metric.paths, List.map_cons, List.map_map]
    congr 1
    refine List.ext_getElem? fun j => ?_
    simp only [List.getElem?_map, List.getElem?_mapIdx, Option.map_map]
    rfl
  have hdistinct : ((columnEntries m table).map (·.1)).Nodup := hnames ▸ hkeys.distinct
  refine ⟨Keyed.get?_ofList hdistinct List.mem_cons_self, fun j l hl => ?_⟩
  refine Keyed.get?_ofList hdistinct (List.mem_cons_of_mem _ ?_)
  refine List.mem_of_getElem? (i := j) ?_
  rw [List.getElem?_mapIdx, hl]
  rfl

def rowDocument (m : Metric) (table : List (Record m.labels.length)) : Node :=
  under (Node.segments (m.itemPath.getD "/"))
    (.sequence (table.map fun r => .map (Keyed.ofList (recordEntries m r))))

theorem inRows_rowDocument (hkeys : m.SingleKeys) (table : List (Record m.labels.length)) :
    InRows m table (rowDocument m table) := by
  refine ⟨_, lookup_under _ _, ?_⟩
  exact List.forall₂_map_right_iff.mpr
    (List.forall₂_same.mpr fun r _ => ⟨_, rfl, holdsRecord_entries hkeys r⟩)

def columnDocument (m : Metric) (table : List (Record m.labels.length)) : Node :=
  under (Node.segments (m.itemPath.getD "/")) (.map (Keyed.ofList (columnEntries m table)))

theorem inColumns_columnDocument (hkeys : m.SingleKeys)
    (table : List (Record m.labels.length)) : InColumns m table (columnDocument m table) :=
  ⟨_, lookup_under _ _, holdsColumns_entries hkeys table⟩

/-- Every table has both layouts, and whatever documents hold it in these, the metric makes the
same of them: the rows of the table in order, or the first negative number as an error. -/
theorem vector_layouts_agree (hkeys : m.SingleKeys) (table : List (Record m.labels.length)) :
    InRows m table (rowDocument m table) ∧ InColumns m table (columnDocument m table) ∧
      ∀ rows columns, InRows m table rows → InColumns m table columns →
        vector m rows = vector m columns ∧ vector m rows = tableRows m table := by
  refine ⟨inRows_rowDocument hkeys table, inColumns_columnDocument hkeys table, ?_⟩
  intro rows columns hrows hcolumns
  rw [vector_of_inRows hkeys hrows, vector_of_inColumns hkeys hcolumns]
  exact ⟨rfl, rfl⟩

def heights : Metric where
  id := ⟨0⟩
  service := ⟨0⟩
  name := "height"
  type := .counter
  description := ""
  dialect := "jsonpath"
  path := "/height"
  labels := [⟨"address", "jsonpath", "/address"⟩]
  buckets := none
  itemPath := some "/net/peers"

/-- Both layouts fail at the second of three peers. -/
theorem vector_layouts_agree_heights : heights.SingleKeys ∧
    ∃ table : List (Record heights.labels.length), table.map (·.labels) = [["a"], ["b"], ["c"]] ∧
      ∃ rows columns, InRows heights table rows ∧ InColumns heights table columns ∧
        vector heights rows = .error (.negativeCounter "height" (-1)) ∧
        vector heights columns = .error (.negativeCounter "height" (-1)) := by
  have hkeys : heights.SingleKeys := ⟨by decide, by decide⟩
  let table : List (Record heights.labels.length) :=
    [⟨.switch true, ["a"], rfl⟩, ⟨.number (-1), ["b"], rfl⟩, ⟨.number (-2), ["c"], rfl⟩]
  have hfails : tableRows heights table = .error (.negativeCounter "height" (-1)) := by
    have hone : ¬ (1.0 : Float) < 0.0 := by decide +kernel
    have hbelow : (-1 : Float) < 0.0 := by decide +kernel
    simp [tableRows, table, heights, NumericLeaf.value, hone, hbelow]
  obtain ⟨hrows, hcolumns, hagree⟩ := vector_layouts_agree hkeys table
  obtain ⟨hsame, hread⟩ := hagree _ _ hrows hcolumns
  rw [hfails] at hread
  exact ⟨hkeys, table, rfl, _, _, hrows, hcolumns, hread, hsame ▸ hread⟩

end Shape
end MetricRelay
