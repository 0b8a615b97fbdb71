import MetricRelay.Relabel

/-!
# Stamped samples

Stamping gives a sample exactly one label of the stamped name, because a label
that had this name before goes on under a longer one. The two labels of an
identity do not disturb each other.
-/

namespace MetricRelay

theorem exportedName_ne (name : String) : exportedName name ≠ name := by
  intro h
  have hlength := congrArg String.length h
  rw [exportedName, String.length_append] at hlength
  have hprefix : "exported_".length = 9 := rfl
  omega

namespace Exposition

def labelsOf (name : String) (s : Sample) : List Label := s.labels.filter (·.name == name)

theorem labelsOf_stamp (s : Sample) (label : Label) :
    labelsOf label.name (stamp s label) = [label] := by
  have hkept : (s.labels.map fun l =>
      if l.name = label.name then { l with name := exportedName l.name } else l).filter
        (·.name == label.name) = [] := by
    apply List.filter_eq_nil_iff.mpr
    intro l hl
    obtain ⟨old, -, rfl⟩ := List.mem_map.mp hl
    by_cases hname : old.name = label.name
    · simpa [hname] using exportedName_ne label.name
    · simp [hname]
  rw [labelsOf, stamp, List.filter_append, hkept]
  simp

/-- A stamp leaves the labels of other names alone, except that its own name moves to one of
them. -/
theorem labelsOf_stamp_of_ne (s : Sample) {label : Label} {name : String} (h : name ≠ label.name)
    (hmoved : exportedName label.name ≠ name) :
    labelsOf name (stamp s label) = labelsOf name s := by
  have hstamp : ([label].filter (·.name == name)) = [] := by
    simpa using Ne.symm h
  rw [labelsOf, stamp, List.filter_append, hstamp, List.append_nil, labelsOf]
  induction s.labels with
  | nil => rfl
  | cons l rest ih =>
    rw [List.map_cons]
    by_cases hname : l.name = label.name
    · have hother : l.name ≠ name := hname ▸ Ne.symm h
      rw [if_pos hname, List.filter_cons_of_neg (by simpa [hname] using hmoved),
        List.filter_cons_of_neg (by simpa using hother), ih]
    · rw [if_neg hname, List.filter_cons, List.filter_cons, ih]

end Exposition

open Exposition

/-- Relabelled families are read ones, some of them moved, with the stamps on all samples. -/
theorem of_relabel {i : Identity} {body : Text.Bytes} {families : List Family}
    (h : relabel i body = .ok families) :
    ∃ bare, read body = .ok bare ∧ families = stampAll i.labels (bare.map moveReserved) := by
  cases hread : read body with
  | error e =>
    rw [relabel, hread] at h
    cases h
  | ok bare =>
    rw [relabel, hread] at h
    exact ⟨bare, rfl, (Except.ok.inj h).symm⟩

/-- Every sample carries the two labels of the identity, and no others of their names. -/
def Identity.Marks (i : Identity) (families : List Family) : Prop :=
  ∀ f ∈ families, ∀ sample ∈ f.samples,
    labelsOf "job" sample = [⟨"job", i.job⟩] ∧
      labelsOf "instance" sample = [⟨"instance", i.hostPort⟩]

theorem Identity.marks_stampAll (i : Identity) (families : List Family) :
    i.Marks (stampAll i.labels families) := by
  intro f hf sample hsample
  obtain ⟨old, -, rfl⟩ := List.mem_map.mp hf
  obtain ⟨bare, -, rfl⟩ := List.mem_map.mp hsample
  change labelsOf "job" (stamp (stamp bare ⟨"job", i.job⟩) ⟨"instance", i.hostPort⟩) = _ ∧
    labelsOf "instance" (stamp (stamp bare ⟨"job", i.job⟩) ⟨"instance", i.hostPort⟩) = _
  constructor
  · have hmoved : exportedName "instance" ≠ "job" := by decide
    rw [labelsOf_stamp_of_ne _ (by simp) hmoved]
    exact labelsOf_stamp bare ⟨"job", i.job⟩
  · exact labelsOf_stamp _ ⟨"instance", i.hostPort⟩

/-- Relabelling marks what it reads. -/
theorem Identity.marks_of_relabel {i : Identity} {body : Text.Bytes} {families : List Family}
    (h : relabel i body = .ok families) : i.Marks families := by
  obtain ⟨bare, -, rfl⟩ := of_relabel h
  exact i.marks_stampAll _

/-- The mark of one job is not that of another, as soon as there is a sample. -/
theorem Identity.Marks.job_eq {i j : Identity} {families : List Family} (hi : i.Marks families)
    (hj : j.Marks families) {f : Family} (hf : f ∈ families) {sample : Sample}
    (hsample : sample ∈ f.samples) : i.job = j.job := by
  have heq := (hi f hf sample hsample).1.symm.trans (hj f hf sample hsample).1
  simpa using heq

def oneSample : Text.Bytes := [109, 32, 49, 10]

theorem read_oneSample :
    Exposition.read oneSample = .ok [{ name := "m", samples := [⟨"m", [], 1.0, none⟩] }] := by
  have hdecode : Text.Utf8.decode oneSample = .ok ['m', ' ', '1', '\n'] := by
    simp [oneSample, Text.Utf8.decode, Text.Utf8.decodeFrom, Text.Utf8.head]
    rfl
  have htext : readText ['m', ' ', '1', '\n'] =
      .ok [{ name := "m", samples := [⟨"m", [], 1.0, none⟩] }] := rfl
  simp only [Exposition.read, hdecode, htext]

theorem relabel_oneSample (i : Identity) : ∃ families, relabel i oneSample = .ok families ∧
    ∃ f ∈ families, ∃ sample, sample ∈ f.samples := by
  have hfree : moveReserved { name := "m", samples := [⟨"m", [], 1.0, none⟩] } =
      { name := "m", samples := [⟨"m", [], 1.0, none⟩] } := if_neg (by decide)
  rw [relabel, read_oneSample]
  refine ⟨_, rfl, _, List.mem_singleton.mpr rfl, ?_⟩
  rw [hfree]
  exact ⟨_, List.mem_singleton.mpr rfl⟩

end MetricRelay
