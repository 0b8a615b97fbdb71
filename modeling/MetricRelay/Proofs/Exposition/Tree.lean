import MetricRelay.Exposition.Tree
import MetricRelay.Proofs.Exposition.PassedOn
import MetricRelay.Proofs.Keyed
import MetricRelay.Proofs.Node.Joined

/-!
# Families as a document

The document of a body that is read shows its families: each one under its name, with
its kind, its help text if it has one, and its samples in order, each with its name,
its value and the last of its labels of each name. A number of 64 bits or less that
counts beyond the samples finds nothing there; a larger one is no position at all.
-/

namespace MetricRelay

def Sample.lastLabel? (s : Sample) (name : String) : Option String :=
  (s.labels.filter (·.name = name)).getLast?.map (·.value)

namespace Exposition

open Node (spell follow child maxIndex IsSegment lookup_spell)

/-- A sample that is found below some segments. -/
structure ShowsSample (doc : Node) (base : List String) (s : Sample) : Prop where
  name : doc.lookup (spell (base ++ ["name"])) = .ok (.string s.name)
  value : doc.lookup (spell (base ++ ["value"])) = .ok (.number s.value)
  label : ∀ l, IsSegment l → doc.lookup (spell (base ++ ["labels", l])) =
    match s.lastLabel? l with
    | some value => .ok (.string value)
    | none => .error (.notFound (spell (base ++ ["labels", l])) l)

/-- A family that is found under its name, with its samples at the positions from zero on. -/
structure ShowsFamily (doc : Node) (f : Family) : Prop where
  kind : doc.lookup (spell [f.name, "type"]) = .ok (.string f.kind.text)
  help : doc.lookup (spell [f.name, "help"]) =
    match f.help with
    | some help => .ok (.string help)
    | none => .error (.notFound (spell [f.name, "help"]) "help")
  sample : ∀ i ≤ maxIndex, ∀ s, f.samples[i]? = some s →
    ShowsSample doc [f.name, "samples", Number.text i] s
  beyond : ∀ i, f.samples.length ≤ i → ∀ rest, (∀ s ∈ rest, IsSegment s) →
    let path := spell ([f.name, "samples", Number.text i] ++ rest)
    doc.lookup path = .error (if i ≤ maxIndex then .notFound path (Number.text i)
      else .typeMismatch path "map" "sequence")

variable {path : String} {families : List Family} {f : Family} {s : Sample}

/-! ### Entries -/

theorem child_tree (hnodup : (families.map (·.name)).Nodup) (hf : f ∈ families) :
    child path (tree families) f.name = .ok (familyNode f) := by
  have hnames : (families.map fun f => (f.name, familyNode f)).map (·.1) =
      families.map (·.name) := by
    rw [List.map_map]
    rfl
  have hentry := List.mem_map_of_mem (f := fun f : Family => (f.name, familyNode f)) hf
  have hget := Keyed.get?_ofList (hnames ▸ hnodup) hentry
  rw [tree, child, hget]

theorem child_type : child path (familyNode f) "type" = .ok (.string f.kind.text) := by
  rw [familyNode, child]
  cases f.help <;> rfl

theorem child_help : child path (familyNode f) "help" =
    match f.help with
    | some help => .ok (.string help)
    | none => .error (.notFound path "help") := by
  rw [familyNode, child]
  cases f.help <;> rfl

theorem child_samples :
    child path (familyNode f) "samples" = .ok (.sequence (f.samples.map sampleNode)) := by
  rw [familyNode, child]
  cases f.help <;> rfl

/-- The entries of the labels of a sample. -/
theorem get?_labels (s : Sample) (l : String) :
    Keyed.get? l (Keyed.ofList (s.labels.map fun l => (l.name, Node.string l.value))) =
      (s.lastLabel? l).map .string := by
  rw [Keyed.get?_ofList_last, List.filter_map, List.getLast?_map, Sample.lastLabel?,
    Option.map_map, Option.map_map]
  rfl

/-! ### Addresses -/

/-- Where the address of a family leads, and what stands below it. -/
theorem follow_family (hnodup : (families.map (·.name)).Nodup) (hf : f ∈ families)
    (rest : List String) : follow path (tree families) (f.name :: rest) =
      follow path (familyNode f) rest :=
  Node.follow_cons_ok (child_tree hnodup hf)

theorem follow_samples (hnodup : (families.map (·.name)).Nodup) (hf : f ∈ families)
    (rest : List String) : follow path (tree families) (f.name :: "samples" :: rest) =
      follow path (.sequence (f.samples.map sampleNode)) rest := by
  rw [follow_family hnodup hf, Node.follow_cons_ok child_samples]

theorem follow_sample (hnodup : (families.map (·.name)).Nodup) (hf : f ∈ families) {i : ℕ}
    (hi : i ≤ maxIndex) (hs : f.samples[i]? = some s) (rest : List String) :
    follow path (tree families) (f.name :: "samples" :: Number.text i :: rest) =
      follow path (sampleNode s) rest := by
  have hchild : child path (.sequence (f.samples.map sampleNode)) (Number.text i) =
      .ok (sampleNode s) := by
    rw [Node.child_text, if_pos hi, List.getElem?_map, hs]
    rfl
  rw [follow_samples hnodup hf, Node.follow_cons_ok hchild]

theorem child_labels (l : String) :
    follow path (sampleNode s) ["labels", l] =
      match s.lastLabel? l with
      | some value => .ok (.string value)
      | none => .error (.notFound path l) := by
  have hlabels : child path (sampleNode s) "labels" =
      .ok (.map (Keyed.ofList (s.labels.map fun l => (l.name, .string l.value)))) := rfl
  rw [Node.follow_cons_ok hlabels, Node.follow_singleton, child, get?_labels]
  cases s.lastLabel? l <;> rfl

theorem showsSample (hnodup : (families.map (·.name)).Nodup) (hf : f ∈ families)
    (hname : IsSegment f.name) {i : ℕ} (hi : i ≤ maxIndex) (hs : f.samples[i]? = some s) :
    ShowsSample (tree families) [f.name, "samples", Number.text i] s := by
  have hbase (rest : List String) (hrest : ∀ s ∈ rest, IsSegment s) :
      (tree families).lookup (spell ([f.name, "samples", Number.text i] ++ rest)) =
        follow (spell ([f.name, "samples", Number.text i] ++ rest)) (sampleNode s) rest := by
    rw [lookup_spell]
    · exact follow_sample hnodup hf hi hs rest
    · simp only [List.cons_append, List.nil_append, List.forall_mem_cons]
      exact ⟨hname, by decide, Node.isSegment_text i, hrest⟩
  constructor
  · rw [hbase ["name"] (by decide)]
    rfl
  · rw [hbase ["value"] (by decide)]
    rfl
  · intro l hl
    have hrest : ∀ s ∈ ["labels", l], IsSegment s :=
      List.forall_mem_cons.mpr ⟨by decide, List.forall_mem_singleton.mpr hl⟩
    rw [hbase _ hrest, child_labels]

theorem showsFamily (hnodup : (families.map (·.name)).Nodup) (hf : f ∈ families)
    (hname : IsSegment f.name) : ShowsFamily (tree families) f := by
  have hfamily (key : String) (hkey : IsSegment key) :
      (tree families).lookup (spell [f.name, key]) =
        child (spell [f.name, key]) (familyNode f) key := by
    rw [lookup_spell, follow_family hnodup hf, Node.follow_singleton]
    exact List.forall_mem_cons.mpr ⟨hname, List.forall_mem_singleton.mpr hkey⟩
  constructor
  · rw [hfamily "type" (by decide), child_type]
  · rw [hfamily "help" (by decide), child_help]
  · exact fun i hi s hs => showsSample hnodup hf hname hi hs
  · intro i hi rest hrest path
    have hsegments : ∀ s ∈ [f.name, "samples", Number.text i] ++ rest, IsSegment s := by
      simp only [List.cons_append, List.nil_append, List.forall_mem_cons]
      exact ⟨hname, by decide, Node.isSegment_text i, hrest⟩
    have hnone : (f.samples.map sampleNode)[i]? = none := by
      rw [List.getElem?_eq_none_iff, List.length_map]
      exact hi
    have hchild : child path (.sequence (f.samples.map sampleNode)) (Number.text i) =
        .error (if i ≤ maxIndex then .notFound path (Number.text i)
          else .typeMismatch path "map" "sequence") := by
      rw [Node.child_text, hnone]
      split <;> rfl
    rw [lookup_spell hsegments]
    exact (follow_samples hnodup hf _).trans (Node.follow_cons_error hchild)

/-- The document of a body that is read shows all of its families whose names hold no slash. -/
theorem decode_shows {body : Text.Bytes} (h : read body = .ok families) :
    ∃ doc, Dialect.prometheus.decode body = .ok doc ∧
      ∀ f ∈ families, '/' ∉ f.name.toList → ShowsFamily doc f := by
  obtain ⟨hlegible, hnodup⟩ := legible_of_read h
  refine ⟨tree families, ?_, fun f hf hslash => ?_⟩
  · rw [Dialect.decode, h]
    rfl
  · exact showsFamily hnodup hf ⟨(hlegible f hf).name.1, hslash⟩

def twinZone : Family where
  name := "up"
  kind := .gauge
  samples := [⟨"up", [⟨"zone", "a"⟩, ⟨"zone", "b"⟩], 1.0, none⟩]

/-- The body `up{zone="a",zone="b"} 1`, with its kind. -/
def twinZoneBody : Text.Bytes := Text.Utf8.encode (text [twinZone])

theorem decode_shows_twinZone : read twinZoneBody = .ok [twinZone] ∧
    ∃ doc, Dialect.prometheus.decode twinZoneBody = .ok doc ∧
      doc.lookup "/up/type" = .ok (.string "gauge") ∧
      doc.lookup "/up/help" = .error (.notFound "/up/help" "help") ∧
      doc.lookup "/up/samples/0/labels/zone" = .ok (.string "b") ∧
      doc.lookup "/up/samples/1/value" = .error (.notFound "/up/samples/1/value" "1") := by
  have hread : read twinZoneBody = .ok [twinZone] :=
    read_plainFamilies (by decide : PlainFamilies [twinZone])
  obtain ⟨doc, hdecode, hshows⟩ := decode_shows hread
  have hfamily := hshows twinZone (List.mem_singleton.mpr rfl) (by decide)
  have hsample := hfamily.sample 0 (by decide) _ rfl
  exact ⟨hread, doc, hdecode, hfamily.kind, hfamily.help, hsample.label "zone" (by decide),
    hfamily.beyond 1 (by decide) ["value"] (by decide)⟩

/-- A number that counts far beyond the one sample is no position. -/
theorem not_decode_shows_twinZone : read twinZoneBody = .ok [twinZone] ∧
    twinZone.samples.length ≤ 18446744073709551616 ∧
    ∃ doc, Dialect.prometheus.decode twinZoneBody = .ok doc ∧
      doc.lookup "/up/samples/18446744073709551616" =
        .error (.typeMismatch "/up/samples/18446744073709551616" "map" "sequence") := by
  have hread : read twinZoneBody = .ok [twinZone] :=
    read_plainFamilies (by decide : PlainFamilies [twinZone])
  refine ⟨hread, by decide, tree [twinZone], ?_, rfl⟩
  rw [Dialect.decode, hread]
  rfl

end Exposition
end MetricRelay
