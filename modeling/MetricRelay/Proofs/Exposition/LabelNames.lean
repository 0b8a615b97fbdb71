import MetricRelay.Proofs.Exposition.PassedOn
import MetricRelay.Proofs.Exposition.Samples

/-!
# Label names of forwarded samples

Two labels of a sample are passed on under one name exactly if one of them has a
name of the identity and the other one the longer name that it is given. A row of
exporters makes such samples by itself: the second one lengthens the names that the
first one has stamped, and the third one stamps and lengthens once more.
-/

namespace MetricRelay

namespace Exposition

open Config (reservedLabels)

def labelNames (s : Sample) : List String := s.labels.map (·.name)

def allLabelNames (families : List Family) : List (List String) :=
  (families.flatMap (·.samples)).map labelNames

def DistinctLabels (families : List Family) : Prop :=
  ∀ f ∈ families, ∀ s ∈ f.samples, (labelNames s).Nodup

instance (families : List Family) : Decidable (DistinctLabels families) :=
  inferInstanceAs (Decidable (∀ f ∈ families, ∀ s ∈ f.samples, (labelNames s).Nodup))

def passedNames (names : List String) : List String :=
  names.map passedLabelName ++ reservedLabels

/-- A name of the identity stands beside the longer name that it would be given. -/
def Shadowed (names : List String) : Prop :=
  ∃ name ∈ reservedLabels, name ∈ names ∧ exportedName name ∈ names

theorem labelNames_passedSample (i : Identity) (family : String) (s : Sample) :
    labelNames (passedSample i family s) = passedNames (labelNames s) := by
  rw [labelNames, passedSample, List.map_append, List.map_map, passedNames, labelNames,
    List.map_map]
  rfl

/-! ### One exporter -/

theorem passedLabelName_exported {name : String} (h : name ∈ reservedLabels) :
    passedLabelName (exportedName name) = passedLabelName name := by
  rw [passedLabelName, passedLabelName, if_pos h, if_neg (exportedName_not_mem h)]

/-- Two names that are passed on as one are a name of the identity and its longer name. -/
theorem of_passedLabelName_eq {name other : String}
    (h : passedLabelName name = passedLabelName other) (hne : name ≠ other) :
    (name ∈ reservedLabels ∧ other = exportedName name) ∨
      (other ∈ reservedLabels ∧ name = exportedName other) := by
  rw [passedLabelName, passedLabelName] at h
  split at h
  · next hname =>
    split at h
    · exact absurd (exportedName_injective h) hne
    · exact Or.inl ⟨hname, h.symm⟩
  · split at h
    · next hother => exact Or.inr ⟨hother, h⟩
    · exact absurd h hne

/-- The names stay distinct exactly if none of them is shadowed. -/
theorem nodup_passedNames_iff {names : List String} :
    (passedNames names).Nodup ↔ names.Nodup ∧ ¬Shadowed names := by
  have hidentity : reservedLabels.Nodup := by decide
  have happart : ∀ name ∈ names.map passedLabelName, ∀ stamped ∈ reservedLabels,
      name ≠ stamped := by
    intro name hname stamped hstamped heq
    obtain ⟨old, -, rfl⟩ := List.mem_map.mp hname
    exact passedLabelName_not_mem old (heq ▸ hstamped)
  have hmap : (passedNames names).Nodup ↔ (names.map passedLabelName).Nodup := by
    rw [passedNames, List.nodup_append]
    exact ⟨fun h => h.1, fun h => ⟨h, hidentity, happart⟩⟩
  rw [hmap]
  constructor
  · intro h
    refine ⟨h.of_map _, ?_⟩
    rintro ⟨name, hname, hmem, hlonger⟩
    exact exportedName_ne name
      (List.inj_on_of_nodup_map h hlonger hmem (passedLabelName_exported hname))
  · rintro ⟨hnames, hfree⟩
    refine hnames.map_on fun name hname other hother heq => ?_
    by_contra hne
    rcases of_passedLabelName_eq heq hne with ⟨hidentity, rfl⟩ | ⟨hidentity, rfl⟩
    · exact hfree ⟨name, hidentity, hname, hother⟩
    · exact hfree ⟨other, hidentity, hother, hname⟩

/-! ### A row of exporters -/

/-- After one exporter the names of the identity are there, so that the next one meets its longer
names as soon as the first one has passed on or made one. -/
theorem shadowed_passedNames_iff {names : List String} :
    Shadowed (passedNames names) ↔ ∃ name ∈ names, name ∈ stampNames := by
  constructor
  · rintro ⟨name, hidentity, -, hmem⟩
    rcases List.mem_append.mp hmem with hkept | hnew
    · obtain ⟨old, hold, heq⟩ := List.mem_map.mp hkept
      refine ⟨old, hold, mem_stampNames_iff.mpr ?_⟩
      by_cases hname : old ∈ reservedLabels
      · exact Or.inl hname
      · rw [passedLabelName, if_neg hname] at heq
        exact Or.inr ⟨name, hidentity, heq.symm⟩
    · exact absurd hnew (exportedName_not_mem hidentity)
  · rintro ⟨name, hname, hmem⟩
    have hlonger : ∃ n ∈ reservedLabels, passedLabelName name = exportedName n := by
      rcases mem_stampNames_iff.mp hmem with hidentity | ⟨n, hidentity, rfl⟩
      · exact ⟨name, hidentity, if_pos hidentity⟩
      · exact ⟨n, hidentity, if_neg (exportedName_not_mem hidentity)⟩
    obtain ⟨n, hidentity, heq⟩ := hlonger
    exact ⟨n, hidentity, List.mem_append_right _ hidentity,
      List.mem_append_left _ (List.mem_map.mpr ⟨name, hname, heq⟩)⟩

/-- The label names that stay distinct when `n` exporters pass a sample on. -/
def Survives : ℕ → List String → Prop
  | 0, _ => True
  | 1, names => ¬Shadowed names
  | 2, names => ∀ name ∈ names, name ∉ stampNames
  | _ + 3, _ => False

theorem nodup_iterate_passedNames_iff {names : List String} (h : names.Nodup) (n : ℕ) :
    (passedNames^[n] names).Nodup ↔ Survives n names := by
  have htwice (ns : List String) : (passedNames (passedNames ns)).Nodup ↔
      ns.Nodup ∧ ∀ name ∈ ns, name ∉ stampNames := by
    have hshadow : Shadowed ns → ∃ name ∈ ns, name ∈ stampNames :=
      fun ⟨name, hidentity, hmem, _⟩ => ⟨name, hmem, mem_stampNames_iff.mpr (Or.inl hidentity)⟩
    rw [nodup_passedNames_iff, nodup_passedNames_iff, shadowed_passedNames_iff]
    constructor
    · rintro ⟨⟨hnames, -⟩, hfree⟩
      exact ⟨hnames, fun name hname hmem => hfree ⟨name, hname, hmem⟩⟩
    · rintro ⟨hnames, hfree⟩
      refine ⟨⟨hnames, fun hshadowed => ?_⟩, fun ⟨name, hname, hmem⟩ => hfree name hname hmem⟩
      obtain ⟨name, hname, hmem⟩ := hshadow hshadowed
      exact hfree name hname hmem
  match n with
  | 0 => exact iff_of_true h trivial
  | 1 => exact nodup_passedNames_iff.trans (and_iff_right h)
  | 2 => exact (htwice names).trans (and_iff_right h)
  | n + 3 =>
    -- The third exporter finds what the first one has stamped.
    rw [Function.iterate_succ_apply', Function.iterate_succ_apply', Function.iterate_succ_apply']
    refine iff_of_false (fun hnodup => ?_) id
    exact ((htwice _).mp hnodup).2 "job" (List.mem_append_right _ (by decide)) (by decide)

/-- What reaches the end of a row of exporters, each of which writes what it has relabelled for the
next one. -/
def forwarded : List Identity → Text.Bytes → Except DecodeError Text.Bytes
  | [], body => .ok body
  | i :: row, body => (relabel i body).bind fun families =>
    forwarded row (Text.Utf8.encode (text families))

/-- Relabelled families are read again once they are written, with all their samples. -/
theorem read_relabelled {i : Identity} {body : Text.Bytes} {families : List Family}
    (h : relabel i body = .ok families) :
    ∃ found, read (Text.Utf8.encode (text families)) = .ok found ∧
      (found.flatMap (·.samples)).Perm (families.flatMap (·.samples)) := by
  obtain ⟨found, hfound, hperm⟩ :=
    readText_samples fun f hf => (legible_of_relabel h f hf).printable
  exact ⟨found, by simp only [read, Text.Utf8.decode_encode, hfound], hperm⟩

theorem allLabelNames_passedFamilies (i : Identity) (families : List Family) :
    allLabelNames (families.map (passedFamily i)) = (allLabelNames families).map passedNames := by
  rw [allLabelNames, allLabelNames, List.flatMap_map, List.map_flatMap, List.map_flatMap,
    List.map_flatMap]
  refine List.flatMap_congr fun f _ => ?_
  rw [passedFamily, List.map_map, List.map_map]
  exact List.map_congr_left fun s _ => labelNames_passedSample i f.name s

/-- Every exporter of the row adds its part to the label names of every sample. -/
theorem allLabelNames_forwarded (row : List Identity) {body : Text.Bytes} {parsed : List Family}
    (h : read body = .ok parsed) :
    ∃ arrived found, forwarded row body = .ok arrived ∧ read arrived = .ok found ∧
      (allLabelNames found).Perm ((allLabelNames parsed).map passedNames^[row.length]) := by
  induction row generalizing body parsed with
  | nil => exact ⟨body, parsed, rfl, h, by simp⟩
  | cons i row ih =>
    have hrelabel := relabel_eq i h
    obtain ⟨found, hfound, hperm⟩ := read_relabelled hrelabel
    obtain ⟨arrived, last, harrived, hlast, hnames⟩ := ih hfound
    refine ⟨arrived, last, ?_, hlast, hnames.trans ?_⟩
    · rw [forwarded, hrelabel]
      exact harrived
    · have hfirst : (allLabelNames found).Perm ((allLabelNames parsed).map passedNames) :=
        allLabelNames_passedFamilies i parsed ▸ hperm.map labelNames
      have hrow := hfirst.map passedNames^[row.length]
      rwa [List.map_map] at hrow

theorem distinctLabels_iff_names {families : List Family} : DistinctLabels families ↔
    ∀ names ∈ allLabelNames families, names.Nodup := by
  rw [allLabelNames, List.forall_mem_map, List.forall_mem_flatMap]
  rfl

/-- A body with distinct label names that has passed through any number of exporters is passed on,
and its label names are distinct again exactly if they survive all of these exporters. -/
theorem distinctLabels_relabel_iff (service : Catalog.Service) (earlier : List Catalog.Service)
    {body : Text.Bytes} {parsed : List Family} (h : read body = .ok parsed)
    (hdistinct : DistinctLabels parsed) :
    ∃ arrived families, forwarded (earlier.map (·.identity)) body = .ok arrived ∧
      relabel service.identity arrived = .ok families ∧
      (DistinctLabels families ↔
        ∀ f ∈ parsed, ∀ s ∈ f.samples, Survives (earlier.length + 1) (labelNames s)) := by
  obtain ⟨arrived, found, harrived, hfound, hperm⟩ :=
    allLabelNames_forwarded (earlier.map (·.identity)) h
  rw [List.length_map] at hperm
  have hnames := hperm.map passedNames
  rw [List.map_map, ← Function.iterate_succ'] at hnames
  refine ⟨arrived, _, harrived, relabel_eq service.identity hfound, ?_⟩
  rw [distinctLabels_iff_names, allLabelNames_passedFamilies]
  calc (∀ names ∈ (allLabelNames found).map passedNames, names.Nodup)
      ↔ ∀ names ∈ (allLabelNames parsed).map passedNames^[earlier.length + 1], names.Nodup :=
        forall_congr' fun names => by rw [hnames.mem_iff]
    _ ↔ ∀ f ∈ parsed, ∀ s ∈ f.samples, (passedNames^[earlier.length + 1] (labelNames s)).Nodup := by
        rw [allLabelNames, List.map_map, List.forall_mem_map, List.forall_mem_flatMap]
        rfl
    _ ↔ ∀ f ∈ parsed, ∀ s ∈ f.samples, Survives (earlier.length + 1) (labelNames s) :=
        forall₂_congr fun f hf => forall₂_congr fun s hs =>
          nodup_iterate_passedNames_iff (hdistinct f hf s hs) _

def zonedFamilies : List Family :=
  [{ name := "up", samples := [⟨"up", [⟨"zone", "a"⟩], 1.0, none⟩] }]

/-- Two exporters pass it on with distinct label names, and the third one does not. -/
theorem distinctLabels_relabel_zoned :
    read (Text.Utf8.encode (text zonedFamilies)) = .ok zonedFamilies ∧
      DistinctLabels zonedFamilies ∧
      (∃ arrived families,
        forwarded [nodeService.identity] (Text.Utf8.encode (text zonedFamilies)) = .ok arrived ∧
          relabel nodeService.identity arrived = .ok families ∧ DistinctLabels families) ∧
      ∃ arrived families,
        forwarded [nodeService.identity, nodeService.identity]
            (Text.Utf8.encode (text zonedFamilies)) = .ok arrived ∧
          relabel nodeService.identity arrived = .ok families ∧ ¬DistinctLabels families := by
  have hread := read_plainFamilies (by decide : PlainFamilies zonedFamilies)
  have hdistinct : DistinctLabels zonedFamilies := by decide
  have htwo : ∀ f ∈ zonedFamilies, ∀ s ∈ f.samples, ∀ name ∈ labelNames s,
      name ∉ stampNames := by
    decide
  obtain ⟨arrived, families, harrived, hrelabel, htwo_iff⟩ :=
    distinctLabels_relabel_iff nodeService [nodeService] hread hdistinct
  obtain ⟨arrived', families', harrived', hrelabel', hthree_iff⟩ :=
    distinctLabels_relabel_iff nodeService [nodeService, nodeService] hread hdistinct
  refine ⟨hread, hdistinct, ⟨arrived, families, harrived, hrelabel, htwo_iff.mpr htwo⟩, arrived',
    families', harrived', hrelabel', fun hall => ?_⟩
  exact hthree_iff.mp hall _ List.mem_cons_self _ List.mem_cons_self

def shadowedFamilies : List Family :=
  [{ name := "m", samples := [⟨"m", [⟨"job", "a"⟩, ⟨"exported_job", "b"⟩], 1.0, none⟩] }]

/-- Both labels are passed on under the longer name. -/
theorem not_distinctLabels_relabel_shadowed :
    read (Text.Utf8.encode (text shadowedFamilies)) = .ok shadowedFamilies ∧
      DistinctLabels shadowedFamilies ∧
      ∃ families,
        relabel nodeService.identity (Text.Utf8.encode (text shadowedFamilies)) = .ok families ∧
          ¬DistinctLabels families := by
  have hread := read_plainFamilies (by decide : PlainFamilies shadowedFamilies)
  exact ⟨hread, by decide, _, relabel_eq nodeService.identity hread, by decide⟩

end Exposition
end MetricRelay
