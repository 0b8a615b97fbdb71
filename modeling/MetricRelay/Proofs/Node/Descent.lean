import MetricRelay.Proofs.Node.Path
import MetricRelay.Proofs.Number.Written

/-!
# The descent of a path

On a map every segment is a key. On a sequence a segment of digits is meant to be a
position, of whatever size, and any other one no position at all. A lookup reads
positions as machine numbers: it lets a plus sign stand before the digits, and takes
a number beyond 64 bits for no position. It does what is meant exactly as long as no
such segment comes to a sequence.
-/

namespace MetricRelay.Node

open Number (isDigit ofDigits readDigits? readUnsigned?)

/-! ### Numerals -/

/-- One or more decimal digits, and the number that they stand for. -/
structure Numeral (s : String) (i : ℕ) : Prop where
  ne_empty : s ≠ ""
  digits : ∀ c ∈ s.toList, isDigit c = true
  value : ofDigits 0 s.toList = i

/-- What a lookup takes for a position: a numeral of 64 bits, perhaps after a plus sign. -/
structure Index (s : String) (i : ℕ) : Prop where
  fits : i ≤ maxIndex
  numeral : Numeral s i ∨ ∃ t, s = "+" ++ t ∧ Numeral t i

/-- A segment that a lookup takes as a numeral if it is one, and for no position otherwise. -/
structure ReadsPlainly (s : String) : Prop where
  unsigned : ∀ t i, s = "+" ++ t → Numeral t i → maxIndex < i
  fits : ∀ i, Numeral s i → i ≤ maxIndex

theorem numeral_iff {s : String} {i : ℕ} : Numeral s i ↔ readDigits? s.toList = some i := by
  have hempty : s.toList.isEmpty = false ↔ s ≠ "" := by simp
  rw [readDigits?]
  constructor
  · rintro ⟨hne, hdigits, rfl⟩
    simp [hne, List.all_eq_true.mpr hdigits]
  · intro h
    split at h
    · next hread =>
      simp only [Bool.and_eq_true, Bool.not_eq_true', List.all_eq_true] at hread
      exact ⟨hempty.mp hread.1, hread.2, Option.some.inj h⟩
    · cases h

theorem index_iff {s : String} {i : ℕ} :
    Index s i ↔ readUnsigned? maxIndex s.toList = some i := by
  have hsign (ds : List Char) : s.toList = '+' :: ds ↔ s = "+" ++ String.ofList ds := by
    rw [← String.toList_inj]
    simp
  rw [Number.readUnsigned?_eq_some_iff]
  constructor
  · rintro ⟨hfits, hs | ⟨t, rfl, ht⟩⟩
    · exact ⟨hfits, Or.inl (numeral_iff.mp hs)⟩
    · exact ⟨hfits, Or.inr ⟨t.toList, by simp, numeral_iff.mp ht⟩⟩
  · rintro ⟨hfits, hs | ⟨ds, hs, hds⟩⟩
    · exact ⟨hfits, Or.inl (numeral_iff.mpr hs)⟩
    · refine ⟨hfits, Or.inr ⟨String.ofList ds, (hsign ds).mp hs, numeral_iff.mpr ?_⟩⟩
      rwa [String.toList_ofList]

theorem Numeral.not_signed {t : String} {i : ℕ} : ¬ Numeral ("+" ++ t) i := by
  intro h
  have hsign := h.digits '+' (by simp)
  exact absurd hsign (by decide)

theorem ReadsPlainly.index_iff {s : String} (h : ReadsPlainly s) {i : ℕ} :
    Index s i ↔ Numeral s i := by
  constructor
  · rintro ⟨hfits, hs | ⟨t, rfl, ht⟩⟩
    · exact hs
    · exact absurd (h.unsigned t i rfl ht) (Nat.not_lt.mpr hfits)
  · exact fun hs => ⟨h.fits i hs, Or.inl hs⟩

/-- It is enough that both readings agree on what is no position. -/
theorem readsPlainly_of_agree {s : String} (h : (∀ i, ¬ Index s i) ↔ ∀ i, ¬ Numeral s i) :
    ReadsPlainly s := by
  constructor
  · rintro t i rfl ht
    by_contra hfits
    exact h.mpr (fun _ => Numeral.not_signed) i ⟨Nat.not_lt.mp hfits, Or.inr ⟨t, rfl, ht⟩⟩
  · intro i hs
    by_contra hlarge
    refine h.mp (fun j hj => ?_) i hs
    rcases hj.numeral with hs' | ⟨t, rfl, -⟩
    · exact hlarge (hs.value.symm.trans hs'.value ▸ hj.fits)
    · exact hs.not_signed

/-- Positions are told by their segments. -/
def Decides (reads : String → ℕ → Prop) : Prop := ∀ s i j, reads s i → reads s j → i = j

theorem decides_numeral : Decides Numeral :=
  fun _ _ _ hi hj => hi.value.symm.trans hj.value

/-! ### Steps and descents -/

def IsLeaf : Node → Prop
  | .map _ | .sequence _ => False
  | _ => True

/-- What one segment leads to, where `reads` says which segments are positions. -/
inductive Step (reads : String → ℕ → Prop) (path : String) :
    Node → String → Except PathError Node → Prop
  | key {entries : List (String × Node)} {s : String} {child : Node}
      (h : Keyed.get? s entries = some child) : Step reads path (.map entries) s (.ok child)
  | missing {entries : List (String × Node)} {s : String} (h : Keyed.get? s entries = none) :
      Step reads path (.map entries) s (.error (.notFound path s))
  | item {items : List Node} {s : String} {i : ℕ} {item : Node} (hs : reads s i)
      (hitem : items[i]? = some item) : Step reads path (.sequence items) s (.ok item)
  | beyond {items : List Node} {s : String} {i : ℕ} (hs : reads s i) (hi : items.length ≤ i) :
      Step reads path (.sequence items) s (.error (.notFound path s))
  | named {items : List Node} {s : String} (hs : ∀ i, ¬ reads s i) :
      Step reads path (.sequence items) s (.error (.typeMismatch path "map" "sequence"))
  | leaf {node : Node} {s : String} (h : node.IsLeaf) :
      Step reads path node s (.error (.typeMismatch path "container" node.kind))

/-- What some segments lead to, one after another. -/
inductive Descends (reads : String → ℕ → Prop) (path : String) :
    Node → List String → Except PathError Node → Prop
  | here (node : Node) : Descends reads path node [] (.ok node)
  | stop {node : Node} {s : String} {rest : List String} {e : PathError}
      (h : Step reads path node s (.error e)) : Descends reads path node (s :: rest) (.error e)
  | down {node child : Node} {s : String} {rest : List String} {r : Except PathError Node}
      (h : Step reads path node s (.ok child)) (hrest : Descends reads path child rest r) :
      Descends reads path node (s :: rest) r

variable {reads reads' : String → ℕ → Prop} {path : String} {node : Node} {s : String}
variable {r r' : Except PathError Node}

theorem Step.congr (hreads : ∀ items, node = .sequence items → ∀ i, reads s i ↔ reads' s i)
    (h : Step reads path node s r) : Step reads' path node s r := by
  cases h with
  | key h => exact .key h
  | missing h => exact .missing h
  | item hs hitem => exact .item ((hreads _ rfl _).mp hs) hitem
  | beyond hs hi => exact .beyond ((hreads _ rfl _).mp hs) hi
  | named hs => exact .named fun i hi => hs i ((hreads _ rfl i).mpr hi)
  | leaf h => exact .leaf h

/-- On a sequence a map is missed exactly at a segment that is no position. -/
theorem Step.typeMismatch_iff {items : List Node} (h : Step reads path (.sequence items) s r) :
    r = .error (.typeMismatch path "map" "sequence") ↔ ∀ i, ¬ reads s i := by
  cases h with
  | item hs _ | beyond hs _ => exact iff_of_false (fun heq => by cases heq) fun hall => hall _ hs
  | named hs => exact iff_of_true rfl hs
  | leaf h => exact h.elim

theorem Step.unique (hreads : Decides reads) (h : Step reads path node s r)
    (h' : Step reads path node s r') : r = r' := by
  cases h with
  | key h =>
    cases h' with
    | key h' => rw [Option.some.inj (h.symm.trans h')]
    | missing h' => cases h.symm.trans h'
    | leaf h' => exact h'.elim
  | missing h =>
    cases h' with
    | key h' => cases h.symm.trans h'
    | missing _ => rfl
    | leaf h' => exact h'.elim
  | item hs hitem =>
    cases h' with
    | item hs' hitem' =>
      rw [hreads s _ _ hs hs', hitem'] at hitem
      rw [Option.some.inj hitem]
    | beyond hs' hi =>
      rw [hreads s _ _ hs hs', List.getElem?_eq_none hi] at hitem
      cases hitem
    | named hs' => exact (hs' _ hs).elim
    | leaf h' => exact h'.elim
  | beyond hs hi =>
    cases h' with
    | item hs' hitem =>
      rw [← hreads s _ _ hs hs', List.getElem?_eq_none hi] at hitem
      cases hitem
    | beyond _ _ => rfl
    | named hs' => exact (hs' _ hs).elim
    | leaf h' => exact h'.elim
  | named hs =>
    cases h' with
    | item hs' _ | beyond hs' _ => exact (hs _ hs').elim
    | named _ => rfl
    | leaf h' => exact h'.elim
  | leaf h =>
    cases h' with
    | leaf _ => rfl
    | key | missing | item | beyond | named => exact h.elim

/-- A lookup goes down by positions of 64 bits. -/
theorem step_child (path : String) (node : Node) (s : String) :
    Step Index path node s (child path node s) := by
  cases node with
  | map entries =>
    rw [child]
    split
    · next found hfound => exact .key hfound
    · next hnone => exact .missing hnone
  | sequence items =>
    rw [child]
    split
    · next hnone =>
      refine .named fun i hi => ?_
      rw [index_iff.mp hi] at hnone
      cases hnone
    · next i hread =>
      have hs := index_iff.mpr hread
      split
      · next item hitem => exact .item hs hitem
      · next hnone => exact .beyond hs (List.getElem?_eq_none_iff.mp hnone)
  | null | bool | number | string => exact .leaf trivial

/-- Which segments are positions decides whether a step is as it is meant. -/
theorem step_numeral_iff : Step Numeral path node s (child path node s) ↔
    ∀ items, node = .sequence items → ReadsPlainly s := by
  constructor
  · rintro hstep items rfl
    have hagree := (step_child path _ s).typeMismatch_iff.symm.trans hstep.typeMismatch_iff
    exact readsPlainly_of_agree hagree
  · intro hplain
    exact (step_child path node s).congr fun items hitems i => (hplain items hitems).index_iff

theorem descends_follow (path : String) (node : Node) (segs : List String) :
    Descends Index path node segs (follow path node segs) := by
  induction segs generalizing node with
  | nil => exact .here node
  | cons s segs ih =>
    have hstep := step_child path node s
    cases hchild : child path node s with
    | error e =>
      rw [follow_cons_error hchild]
      exact .stop (hchild ▸ hstep)
    | ok next =>
      rw [follow_cons_ok hchild]
      exact .down (hchild ▸ hstep) (ih next)

theorem descends_cons {rest : List String} (hreads : Decides reads) {next : Node}
    (hstep : Step reads path node s (.ok next)) :
    Descends reads path node (s :: rest) r ↔ Descends reads path next rest r := by
  constructor
  · intro h
    cases h with
    | stop h => cases hstep.unique hreads h
    | down h hrest => exact Except.ok.inj (hstep.unique hreads h) ▸ hrest
  · exact .down hstep

theorem descends_singleton : Descends reads path node [s] r ↔ Step reads path node s r := by
  constructor
  · intro h
    cases h with
    | stop h => exact h
    | down h hrest =>
      cases hrest
      exact h
  · intro h
    cases r with
    | error e => exact .stop h
    | ok next => exact .down h (.here next)

/-- What begins some segments descends as it is meant exactly if the segments that come to a
sequence read plainly. -/
theorem descends_numeral_iff (path : String) (node : Node) (segs : List String) :
    (∀ front, front <+: segs → Descends Numeral path node front (follow path node front)) ↔
      ∀ front s items, front ++ [s] <+: segs → follow path node front = .ok (.sequence items) →
        ReadsPlainly s := by
  induction segs generalizing node with
  | nil =>
    constructor
    · intro _ front s items hfront
      exact absurd (List.prefix_nil.mp hfront) (by simp)
    · intro _ front hfront
      rw [List.prefix_nil.mp hfront]
      exact .here node
  | cons s segs ih =>
    constructor
    · intro hall front t items hfront hmet
      have hstep : Step Numeral path node s (child path node s) := by
        have hone := descends_singleton.mp (hall [s] (List.prefix_append [s] segs))
        rwa [follow_singleton] at hone
      cases front with
      | nil =>
        obtain ⟨rfl, -⟩ := List.cons_prefix_cons.mp hfront
        exact step_numeral_iff.mp hstep items (Except.ok.inj hmet)
      | cons a front =>
        obtain ⟨rfl, hrest⟩ := List.cons_prefix_cons.mp hfront
        cases hchild : child path node a with
        | error e =>
          rw [follow_cons_error hchild] at hmet
          cases hmet
        | ok next =>
          rw [hchild] at hstep
          rw [follow_cons_ok hchild] at hmet
          refine (ih next).mp (fun further hfurther => ?_) front t items hrest hmet
          have hdown := hall (a :: further) (List.cons_prefix_cons.mpr ⟨rfl, hfurther⟩)
          rw [follow_cons_ok hchild] at hdown
          exact (descends_cons decides_numeral hstep).mp hdown
    · intro hplain front hfront
      cases front with
      | nil => exact .here node
      | cons a front =>
        obtain ⟨rfl, hrest⟩ := List.cons_prefix_cons.mp hfront
        have hstep : Step Numeral path node a (child path node a) :=
          step_numeral_iff.mpr fun items hitems =>
            hplain [] a items (List.prefix_append [a] segs) (congrArg Except.ok hitems)
        cases hchild : child path node a with
        | error e =>
          rw [follow_cons_error hchild]
          exact .stop (hchild ▸ hstep)
        | ok next =>
          rw [follow_cons_ok hchild]
          refine .down (hchild ▸ hstep) ((ih next).mpr (fun further t items hfurther hmet => ?_)
            front hrest)
          refine hplain (a :: further) t items (List.cons_prefix_cons.mpr ⟨rfl, hfurther⟩) ?_
          rw [follow_cons_ok hchild]
          exact hmet

/-! ### Starts of a path -/

/-- The error of a descent tells its path. -/
theorem Descends.reportedAt {segs : List String} (q : String)
    (h : Descends reads path node segs r) :
    Descends reads q node segs (r.mapError (·.reportedAt q)) := by
  induction h with
  | here node => exact .here node
  | stop h =>
    refine .stop ?_
    cases h with
    | missing h => exact .missing h
    | beyond hs hi => exact .beyond hs hi
    | named hs => exact .named hs
    | leaf h => exact .leaf h
  | down h _ ih =>
    refine .down ?_ ih
    cases h with
    | key h => exact .key h
    | item hs hitem => exact .item hs hitem

/-- A path spells its segments, and a lookup descends them, where a position is a numeral of 64
bits, perhaps after a plus sign. What starts like a path descends as it is meant, by plain
numerals of any size, exactly if every segment that comes to a sequence reads plainly. -/
theorem lookup_descends_iff (node : Node) (path : String) :
    (∀ segs, Spells path.toList segs ↔ segs = segments path) ∧
    Descends Index path node (segments path) (node.lookup path) ∧
    ((∀ start, segments start <+: segments path →
        Descends Numeral start node (segments start) (node.lookup start)) ↔
      ∀ start s items, segments start ++ [s] <+: segments path →
        node.lookup start = .ok (.sequence items) → ReadsPlainly s) := by
  -- Every front of the segments is a start of the path.
  have hspelled : ∀ front, front <+: segments path → segments (spell front) = front :=
    fun front hfront => segments_spell fun s hs => isSegment_of_mem (hfront.subset hs)
  refine ⟨fun segs => spells_iff, descends_follow _ _ _, ?_⟩
  constructor
  · intro hall start s items hnext hmet
    refine (descends_numeral_iff path node (segments path)).mp (fun front hfront => ?_)
      (segments start) s items hnext (follow_ok hmet path)
    have hdown := hall (spell front) ((hspelled front hfront).symm ▸ hfront)
    rw [lookup_eq_follow, hspelled front hfront] at hdown
    have hown := hdown.reportedAt path
    rwa [follow_reportedAt] at hown
  · intro hplain start hstart
    refine (descends_numeral_iff start node (segments start)).mpr
      (fun front s items hnext hmet => ?_) (segments start) (List.prefix_refl _)
    have hfront := (List.prefix_append front [s]).trans (hnext.trans hstart)
    refine hplain (spell front) s items ?_ ?_
    · rw [hspelled front hfront]
      exact hnext.trans hstart
    · rw [lookup_eq_follow, hspelled front hfront]
      exact follow_ok hmet _

def pair : Node := .sequence [.number 10, .number 20]

/-- One digit reads plainly. -/
theorem lookup_descends_second :
    Descends Numeral "/1" pair (segments "/1") (pair.lookup "/1") := by
  refine (lookup_descends_iff pair "/1").2.2.mpr (fun start s items hnext _ => ?_) "/1"
    (List.prefix_refl _)
  obtain rfl : s = "1" := by
    have hmem : s ∈ segments "/1" := hnext.subset (List.mem_append_right _ List.mem_cons_self)
    exact List.mem_singleton.mp hmem
  constructor
  · intro t i hs
    have hchars := congrArg String.toList hs
    simp at hchars
  · intro i hs
    rw [← hs.value]
    decide

/-- A plus sign is passed over, and a number of 65 bits is no position. -/
theorem not_lookup_descends_pair :
    pair.lookup "/+1" = .ok (.number 20) ∧
    ¬ Descends Numeral "/+1" pair (segments "/+1") (pair.lookup "/+1") ∧
    pair.lookup "/18446744073709551616" =
      .error (.typeMismatch "/18446744073709551616" "map" "sequence") ∧
    ¬ Descends Numeral "/18446744073709551616" pair (segments "/18446744073709551616")
      (pair.lookup "/18446744073709551616") := by
  have hsigned : pair.lookup "/+1" = .ok (.number 20) := rfl
  have hlarge : pair.lookup "/18446744073709551616" =
      .error (.typeMismatch "/18446744073709551616" "map" "sequence") := rfl
  refine ⟨hsigned, fun hdown => ?_, hlarge, fun hdown => ?_⟩
  · rw [hsigned] at hdown
    have hstep : Step Numeral "/+1" pair "+1" (.ok (.number 20)) := descends_singleton.mp hdown
    cases hstep with
    | item hs _ => exact Numeral.not_signed (t := "1") hs
  · rw [hlarge] at hdown
    have hstep : Step Numeral "/18446744073709551616" pair "18446744073709551616"
        (.error (.typeMismatch "/18446744073709551616" "map" "sequence")) :=
      descends_singleton.mp hdown
    exact hstep.typeMismatch_iff.mp rfl 18446744073709551616 (numeral_iff.mpr rfl)

end MetricRelay.Node
