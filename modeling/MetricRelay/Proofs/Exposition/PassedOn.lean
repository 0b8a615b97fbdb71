import MetricRelay.Proofs.Exposition.Forwarded
import MetricRelay.Proofs.Render
import MetricRelay.Proofs.Text.Utf8

/-!
# What relabelling does to a body

Relabelling passes a body on family by family and sample by sample. Values,
times, help texts and kinds stay. A sample keeps its labels in their order, those
of the identity under longer names, and the identity follows; a family of the
name of a gauge is moved with its samples. Every body that is read is passed on.
-/

namespace MetricRelay

namespace Exposition

open Config (PlainName reservedLabels)

def passedLabelName (name : String) : String :=
  if name ∈ reservedLabels then exportedName name else name

def passedLabel (l : Label) : Label := { l with name := passedLabelName l.name }

def passedName (family name : String) : String :=
  if family ∈ SelfMetrics.reservedNames then exportedName name else name

def passedSample (i : Identity) (family : String) (s : Sample) : Sample :=
  { s with
    name := passedName family s.name
    labels := s.labels.map passedLabel ++ [⟨"job", i.job⟩, ⟨"instance", i.hostPort⟩] }

def passedFamily (i : Identity) (f : Family) : Family :=
  { f with
    name := passedName f.name f.name
    samples := f.samples.map (passedSample i f.name) }

/-! ### Label names -/

/-- Stamps put the names of the identity and their longer names on labels. -/
theorem mem_stampNames_iff {name : String} : name ∈ stampNames ↔
    name ∈ reservedLabels ∨ ∃ n ∈ reservedLabels, exportedName n = name := by
  have hshape : stampNames = reservedLabels ++ reservedLabels.map exportedName := by decide
  rw [hshape, List.mem_append, List.mem_map]

theorem exportedName_not_mem {name : String} (h : name ∈ reservedLabels) :
    exportedName name ∉ reservedLabels := by
  have hall : ∀ n ∈ reservedLabels, exportedName n ∉ reservedLabels := by decide
  exact hall name h

/-- No label is passed on under a name of the identity. -/
theorem passedLabelName_not_mem (name : String) : passedLabelName name ∉ reservedLabels := by
  rw [passedLabelName]
  split
  · next h => exact exportedName_not_mem h
  · next h => exact h

/-! ### The stamps -/

/-- What a stamp makes of a label that was there before. -/
def keptLabel (name : String) (l : Label) : Label :=
  if l.name = name then { l with name := exportedName l.name } else l

theorem labels_stamp (s : Sample) (label : Label) :
    (stamp s label).labels = s.labels.map (keptLabel label.name) ++ [label] := rfl

theorem keptLabel_keptLabel (l : Label) :
    keptLabel "instance" (keptLabel "job" l) = passedLabel l := by
  obtain ⟨name, value⟩ := l
  by_cases hjob : name = "job"
  · subst hjob
    rfl
  · by_cases hinstance : name = "instance"
    · subst hinstance
      rfl
    · simp [keptLabel, passedLabel, passedLabelName, reservedLabels, hjob, hinstance]

/-- Both stamps of an identity together: the second one leaves the first one as it is. -/
theorem foldl_stamp (i : Identity) (s : Sample) : i.labels.foldl stamp s =
    { s with
      labels := s.labels.map passedLabel ++ [⟨"job", i.job⟩, ⟨"instance", i.hostPort⟩] } := by
  have hlabels : (stamp (stamp s ⟨"job", i.job⟩) ⟨"instance", i.hostPort⟩).labels =
      s.labels.map passedLabel ++ [⟨"job", i.job⟩, ⟨"instance", i.hostPort⟩] := by
    have hjob : keptLabel "instance" ⟨"job", i.job⟩ = ⟨"job", i.job⟩ := if_neg (by simp)
    rw [labels_stamp, labels_stamp, List.map_append, List.map_map, List.map_singleton, hjob,
      List.append_assoc, List.singleton_append]
    exact congrArg (· ++ _) (List.map_congr_left fun l _ => keptLabel_keptLabel l)
  exact congrArg (fun labels => { s with labels }) hlabels

/-! ### Moved families -/

/-- A family is moved with all the samples that it owns. -/
theorem moveReserved_eq {f : Family} (h : Legible f) : moveReserved f =
    { f with
      name := passedName f.name f.name
      samples := f.samples.map fun s => { s with name := passedName f.name s.name } } := by
  by_cases hreserved : f.name ∈ SelfMetrics.reservedNames
  · have hsamples : (f.samples.map fun s => { s with name := movedName f.name s.name }) =
        f.samples.map fun s => { s with name := exportedName s.name } :=
      List.map_congr_left fun s hs => by rw [(movedName_of_owns (h.owned s hs)).1]
    simp only [moveReserved, passedName, List.contains_iff_mem, hreserved, if_true, hsamples]
  · simp [moveReserved, passedName, hreserved]

/-- Relabelling passes on every family that is read. -/
theorem relabel_eq (i : Identity) {body : Text.Bytes} {parsed : List Family}
    (h : read body = .ok parsed) : relabel i body = .ok (parsed.map (passedFamily i)) := by
  rw [relabel, h]
  refine congrArg Except.ok (?_ : stampAll i.labels (parsed.map moveReserved) = _)
  rw [stampAll, List.map_map]
  refine List.map_congr_left fun f hf => ?_
  rw [Function.comp_apply, moveReserved_eq ((legible_of_read h).1 f hf), passedFamily, List.map_map]
  exact congrArg (fun samples => { f with name := passedName f.name f.name, samples })
    (List.map_congr_left fun s _ => foldl_stamp i _)

/-! ### Plain families -/

def PlainFamilies (families : List Family) : Prop :=
  (families.map (·.name)).Nodup ∧ ∀ f ∈ families, PlainName f.name.toList ∧ f.help = none ∧
    ∀ s ∈ f.samples, f.owns s.name = true ∧ PlainName s.name.toList ∧
      (∀ l ∈ s.labels, PlainName l.name.toList) ∧ s.timestamp = none

instance (families : List Family) : Decidable (PlainFamilies families) :=
  inferInstanceAs (Decidable (_ ∧ ∀ f ∈ families, _ ∧ _ ∧ ∀ s ∈ f.samples, _ ∧ _ ∧ _ ∧ _))

/-- The text of plain families is a body that is read as them. -/
theorem read_plainFamilies {families : List Family} (h : PlainFamilies families) :
    read (Text.Utf8.encode (text families)) = .ok families := by
  obtain ⟨hnodup, hplain⟩ := h
  have hlegible : ∀ f ∈ families, Legible f := by
    intro f hf
    obtain ⟨hname, hhelp, hsamples⟩ := hplain f hf
    refine ⟨⟨fun hempty => hname.ne_nil (by rw [hempty]; rfl), hname.solid⟩, ?_, ?_, ?_⟩
    · intro help hsome
      rw [hhelp] at hsome
      cases hsome
    · exact fun s hs => (hsamples s hs).1
    · intro s hs
      obtain ⟨-, hsample, hlabels, htime⟩ := hsamples s hs
      exact hsample.writableSample hlabels htime
  have hhelp : ∀ f ∈ families, ∀ help, f.help = some help → StartsPlain help.toList := by
    intro f hf help hsome
    rw [(hplain f hf).2.1] at hsome
    cases hsome
  have hread := (readText_text_iff hlegible).mpr ⟨hnodup, hhelp⟩
  simp only [read, Text.Utf8.decode_encode, hread]

/-! ### The identity -/

theorem label?_eq (s : Sample) (name : String) :
    s.label? name = (labelsOf name s).head?.map (·.value) := by
  rw [Sample.label?, labelsOf, List.head?_filter]

/-- No family is missed if every sample has the label. -/
theorem familiesMissing_eq_nil {name : String} {families : List Family}
    (h : ∀ f ∈ families, ∀ s ∈ f.samples, labelsOf name s ≠ []) :
    familiesMissing name families = [] := by
  rw [familiesMissing, List.map_eq_nil_iff, List.filter_eq_nil_iff]
  intro f hf hany
  obtain ⟨s, hs, hnone⟩ := List.any_eq_true.mp hany
  rw [label?_eq, Option.isNone_map, Option.isNone_iff_eq_none, List.head?_eq_none_iff] at hnone
  exact h f hf s hs hnone

/-- Whatever body is read, a service passes it on as it is, up to the moved families and to the
labels of the identity. Every sample has exactly one label of each of the two names, and no family
lacks one. -/
theorem relabel_passes_on (service : Catalog.Service) {body : Text.Bytes} {parsed : List Family}
    (h : read body = .ok parsed) :
    ∃ families, relabel service.identity body = .ok families ∧
      families = parsed.map (passedFamily service.identity) ∧
      (∀ f ∈ families, ∀ s ∈ f.samples,
        labelsOf "job" s = [⟨"job", service.name⟩] ∧
          labelsOf "instance" s =
            [⟨"instance", service.host ++ ":" ++ Number.text service.port⟩]) ∧
      familiesMissing "job" families = [] ∧ familiesMissing "instance" families = [] := by
  have hrelabel := relabel_eq service.identity h
  have hmarks := Identity.marks_of_relabel hrelabel
  refine ⟨_, hrelabel, rfl, hmarks, ?_, ?_⟩
  · apply familiesMissing_eq_nil
    intro f hf s hs
    simp [(hmarks f hf s hs).1]
  · apply familiesMissing_eq_nil
    intro f hf s hs
    simp [(hmarks f hf s hs).2]

def identifiedFamilies : List Family := [
  { name := "up"
    kind := .gauge
    samples := [⟨"up", [⟨"job", "a"⟩, ⟨"zone", "z"⟩, ⟨"job", "b"⟩, ⟨"instance", "c"⟩], 1.0,
      none⟩] },
  { name := "scrape_samples_scraped"
    samples := [⟨"scrape_samples_scraped_sum", [], 2.0, none⟩] }]

def nodeService : Catalog.Service where
  id := ⟨0⟩
  name := "node"
  protocol := .http
  host := "10.0.0.1"
  port := 9000
  basePath := ""
  auth := none
  resources := []

/-- The identity goes on under longer names, and the family of the gauge is moved. -/
theorem relabel_passes_on_identified :
    read (Text.Utf8.encode (text identifiedFamilies)) = .ok identifiedFamilies ∧
    ∃ families, relabel nodeService.identity (Text.Utf8.encode (text identifiedFamilies)) =
        .ok families ∧
      families = [
        { name := "up"
          kind := .gauge
          samples := [⟨"up", [⟨"exported_job", "a"⟩, ⟨"zone", "z"⟩, ⟨"exported_job", "b"⟩,
            ⟨"exported_instance", "c"⟩, ⟨"job", "node"⟩, ⟨"instance", "10.0.0.1:9000"⟩], 1.0,
            none⟩] },
        { name := "exported_scrape_samples_scraped"
          samples := [⟨"exported_scrape_samples_scraped_sum",
            [⟨"job", "node"⟩, ⟨"instance", "10.0.0.1:9000"⟩], 2.0, none⟩] }] ∧
      familiesMissing "job" families = [] ∧ familiesMissing "instance" families = [] := by
  have hread := read_plainFamilies (by decide : PlainFamilies identifiedFamilies)
  obtain ⟨families, hrelabel, rfl, -, hjob, hinstance⟩ := relabel_passes_on nodeService hread
  exact ⟨hread, _, hrelabel, rfl, hjob, hinstance⟩

end Exposition
end MetricRelay
