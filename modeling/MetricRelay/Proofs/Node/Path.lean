import MetricRelay.Node
import MetricRelay.Proofs.Text.Cuts

/-!
# Paths and their segments

A path spells its segments: they stand in it in order, with at least one slash
between two of them and any number of slashes around. So the segments of two paths
come one after the other where a slash joins the paths, and every list of segments
is spelled by some path. What a path leads to depends on its segments only; an
error reports the path as well.
-/

namespace MetricRelay

def PathError.reportedAt (path : String) : PathError → PathError
  | .notFound _ segment => .notFound path segment
  | .typeMismatch _ expected found => .typeMismatch path expected found

namespace Node

open Text (splitOn)

/-- What counts as a segment: some text without a slash. -/
structure IsSegment (s : String) : Prop where
  ne_empty : s ≠ ""
  noSlash : '/' ∉ s.toList

instance (s : String) : Decidable (IsSegment s) :=
  decidable_of_iff (s ≠ "" ∧ '/' ∉ s.toList) ⟨fun h => ⟨h.1, h.2⟩, fun h => ⟨h.1, h.2⟩⟩

/-- A text spells segments if it has them in order, and otherwise slashes only, at least one of
them between two segments. -/
inductive Spells : List Char → List String → Prop
  | nothing : Spells [] []
  | slash {cs : List Char} {segs : List String} (h : Spells cs segs) : Spells ('/' :: cs) segs
  | segment {s : String} {cs : List Char} {segs : List String} (hs : IsSegment s)
      (hcs : ∀ c, cs.head? = some c → c = '/') (h : Spells cs segs) :
      Spells (s.toList ++ cs) (s :: segs)

/-- The path that has a slash before each segment, and no other ones. -/
def spell (segs : List String) : String := String.ofList (segs.flatMap ('/' :: ·.toList))

theorem Spells.eq_segments {cs : List Char} {segs : List String} (h : Spells cs segs) :
    segs = segments (String.ofList cs) := by
  induction h with
  | nothing => rfl
  | slash _ ih => simpa [segments, splitOn] using ih
  | @segment s cs segs hs hcs _ ih =>
    have hfirst : s.toList.isEmpty = false := by simpa using hs.ne_empty
    rw [ih]
    cases cs with
    | nil => simp [segments, Text.splitOn_of_not_mem hs.noSlash, splitOn, hfirst]
    | cons c cs =>
      obtain rfl := hcs c rfl
      simp [segments, Text.splitOn_append hs.noSlash, splitOn, hfirst]

/-- Every text spells something: a segment goes up to the next slash. -/
theorem exists_spells (cs : List Char) : ∃ segs, Spells cs segs := by
  induction hlength : cs.length using Nat.strongRecOn generalizing cs with
  | _ n ih =>
  cases cs with
  | nil => exact ⟨[], .nothing⟩
  | cons c cs =>
    by_cases hc : c = '/'
    · obtain ⟨segs, hsegs⟩ := ih cs.length (by simp [← hlength]) cs rfl
      exact ⟨segs, hc ▸ .slash hsegs⟩
    · let s := cs.takeWhile (· != '/')
      let rest := cs.dropWhile (· != '/')
      have hrest : rest.length ≤ cs.length := (List.dropWhile_suffix _).length_le
      obtain ⟨segs, hsegs⟩ := ih rest.length (by rw [← hlength, List.length_cons]; omega) rest rfl
      have hsegment : IsSegment (String.ofList (c :: s)) := by
        refine ⟨by simp, ?_⟩
        rw [String.toList_ofList, List.mem_cons, not_or]
        refine ⟨Ne.symm hc, fun hmem => ?_⟩
        have hall := List.all_eq_true.mp (List.all_takeWhile (p := (· != '/')) (l := cs)) _ hmem
        simp at hall
      have hstop : ∀ d, rest.head? = some d → d = '/' := by
        intro d hd
        have hnot := List.head?_dropWhile_not (· != '/') cs
        rw [hd] at hnot
        simpa using hnot
      have hspells := Spells.segment hsegment hstop hsegs
      rw [String.toList_ofList, List.cons_append, List.takeWhile_append_dropWhile] at hspells
      exact ⟨_, hspells⟩

/-- The segments of a path are those that it spells. -/
theorem spells_iff {path : String} {segs : List String} :
    Spells path.toList segs ↔ segs = segments path := by
  have hpath : String.ofList path.toList = path := String.ofList_toList
  constructor
  · intro h
    rw [h.eq_segments, hpath]
  · rintro rfl
    obtain ⟨segs, hsegs⟩ := exists_spells path.toList
    rwa [hsegs.eq_segments, hpath] at hsegs

theorem Spells.isSegment {cs : List Char} {segs : List String} (h : Spells cs segs) :
    ∀ s ∈ segs, IsSegment s := by
  induction h with
  | nothing => exact fun s hs => nomatch hs
  | slash _ ih => exact ih
  | segment hs _ _ ih => exact List.forall_mem_cons.mpr ⟨hs, ih⟩

theorem isSegment_of_mem {path s : String} (h : s ∈ segments path) : IsSegment s :=
  (spells_iff.mpr rfl).isSegment s h

theorem segments_of_isSegment {s : String} (h : IsSegment s) : segments s = [s] := by
  refine (spells_iff.mp ?_).symm
  have hspells := Spells.segment h (fun c hc => absurd hc (by simp)) .nothing
  rwa [List.append_nil] at hspells

theorem segments_spell {segs : List String} (h : ∀ s ∈ segs, IsSegment s) :
    segments (spell segs) = segs := by
  refine (spells_iff.mp ?_).symm
  rw [spell, String.toList_ofList]
  induction segs with
  | nil => exact .nothing
  | cons s segs ih =>
    obtain ⟨hs, hsegs⟩ := List.forall_mem_cons.mp h
    refine .slash (.segment hs ?_ (ih hsegs))
    intro c hc
    cases segs with
    | nil => cases hc
    | cons _ _ => exact (Option.some.inj hc).symm

/-- A slash between two paths joins their segments. -/
theorem segments_join (p q : String) : segments (p ++ "/" ++ q) = segments p ++ segments q := by
  have hjoined : (p ++ "/" ++ q).toList = p.toList ++ '/' :: q.toList := by simp
  rw [segments, hjoined, Text.splitOn_join, List.filter_append, List.map_append]
  rfl

/-! ### Following segments -/

/-- Where some segments lead from a node, as a part of the path that is reported. -/
def follow (path : String) (node : Node) (segs : List String) : Except PathError Node :=
  segs.foldlM (child path) node

theorem lookup_eq_follow (node : Node) (path : String) :
    node.lookup path = follow path node (segments path) := rfl

theorem lookup_spell {segs : List String} (h : ∀ s ∈ segs, IsSegment s) (node : Node) :
    node.lookup (spell segs) = follow (spell segs) node segs := by
  rw [lookup_eq_follow, segments_spell h]

variable {path s : String} {node next : Node} {rest : List String}

@[simp] theorem follow_nil (path : String) (node : Node) : follow path node [] = .ok node := rfl

theorem follow_cons_ok (h : child path node s = .ok next) :
    follow path node (s :: rest) = follow path next rest := by
  rw [follow, List.foldlM_cons, h]
  rfl

theorem follow_cons_error {e : PathError} (h : child path node s = .error e) :
    follow path node (s :: rest) = .error e := by
  rw [follow, List.foldlM_cons, h]
  rfl

theorem follow_singleton (path : String) (node : Node) (s : String) :
    follow path node [s] = child path node s := by
  rw [follow, List.foldlM_cons]
  exact bind_pure _

theorem follow_append (path : String) (node : Node) (front rest : List String) :
    follow path node (front ++ rest) =
      (follow path node front).bind (follow path · rest) :=
  List.foldlM_append ..

/-! ### Reported paths -/

theorem child_reportedAt (p q : String) (node : Node) (s : String) :
    (child p node s).mapError (·.reportedAt q) = child q node s := by
  cases node with
  | map entries =>
    rw [child, child]
    split <;> rfl
  | sequence items =>
    rw [child, child]
    split
    · rfl
    · split <;> rfl
  | null | bool | number | string => rfl

theorem follow_reportedAt (p q : String) (node : Node) (segs : List String) :
    (follow p node segs).mapError (·.reportedAt q) = follow q node segs := by
  induction segs generalizing node with
  | nil => rfl
  | cons s segs ih =>
    have hchild := child_reportedAt p q node s
    cases h : child p node s with
    | error e =>
      rw [h] at hchild
      rw [follow_cons_error h, follow_cons_error hchild.symm]
      rfl
    | ok next =>
      rw [h] at hchild
      rw [follow_cons_ok h, follow_cons_ok hchild.symm]
      exact ih next

/-- What is found does not depend on the path that is reported. -/
theorem follow_ok {p : String} {segs : List String} (h : follow p node segs = .ok next)
    (q : String) : follow q node segs = .ok next := by
  rw [← follow_reportedAt p q, h]
  rfl

end Node
end MetricRelay
