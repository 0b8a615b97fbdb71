import MetricRelay.Proofs.Exposition.PassedOn
import MetricRelay.Proofs.SelfMetrics

/-!
# Reserved names in a body that is passed on

Only families are told apart from the exporter's own gauges, by their names. That
is enough for the samples: no reserved name is the name of a family with a suffix,
so a sample of a reserved name stands in the family of this name, and moves with it.
-/

namespace MetricRelay.Exposition

open SelfMetrics (reservedNames)

/-! ### Owned names -/

theorem owns_iff {f : Family} {name : String} : f.owns name = true ↔
    name = f.name ∨ ∃ suffix ∈ Family.suffixes, name = f.name ++ suffix := by
  simp [Family.owns]

/-- No reserved name ends as the name of a sample in a family of another name. -/
theorem not_suffix_of_reserved {name suffix : String} (h : name ∈ reservedNames)
    (hsuffix : suffix ∈ Family.suffixes) : ¬suffix.toList <:+ name.toList := by
  have hall : ∀ n ∈ reservedNames, ∀ s ∈ Family.suffixes, ¬s.toList <:+ n.toList := by decide
  exact hall name h suffix hsuffix

/-- A sample of a reserved name can only be owned by the family of this name. -/
theorem name_eq_of_owns {f : Family} {name : String} (h : f.owns name = true)
    (hreserved : name ∈ reservedNames) : f.name = name := by
  rcases owns_iff.mp h with rfl | ⟨suffix, hsuffix, rfl⟩
  · rfl
  · refine absurd ?_ (not_suffix_of_reserved hreserved hsuffix)
    rw [String.toList_append]
    exact List.suffix_append f.name.toList suffix.toList

/-! ### Passed names -/

theorem passedName_of_mem {family : String} (h : family ∈ reservedNames) (name : String) :
    passedName family name = exportedName name := if_pos h

theorem passedName_of_not_mem {family : String} (h : family ∉ reservedNames) (name : String) :
    passedName family name = name := if_neg h

/-- A sample is passed on under no reserved name. -/
theorem passedName_not_reserved {f : Family} {name : String} (h : f.owns name = true) :
    passedName f.name name ∉ reservedNames := by
  by_cases hfamily : f.name ∈ reservedNames
  · rw [passedName_of_mem hfamily]
    exact SelfMetrics.exportedName_not_reserved name
  · rw [passedName_of_not_mem hfamily]
    intro hreserved
    exact hfamily (name_eq_of_owns h hreserved ▸ hreserved)

structure NamesPassed (old new : Family) : Prop where
  kept : old.name ∉ reservedNames →
    new.name = old.name ∧ new.samples.map (·.name) = old.samples.map (·.name)
  moved : old.name ∈ reservedNames → new.name = exportedName old.name ∧
    new.samples.map (·.name) = old.samples.map fun s => exportedName s.name

theorem namesPassed_passedFamily (i : Identity) (f : Family) :
    NamesPassed f (passedFamily i f) := by
  have hsamples : (passedFamily i f).samples.map (·.name) =
      f.samples.map fun s => passedName f.name s.name := List.map_map
  constructor
  · intro h
    rw [hsamples]
    exact ⟨passedName_of_not_mem h f.name,
      List.map_congr_left fun s _ => passedName_of_not_mem h s.name⟩
  · intro h
    rw [hsamples]
    exact ⟨passedName_of_mem h f.name, List.map_congr_left fun s _ => passedName_of_mem h s.name⟩

/-- In a relabelled body neither a family nor a sample has a reserved name, every family owns its
samples, and the names of the families that were not reserved are those of the body. -/
theorem relabel_reserves (service : Catalog.Service) {body : Text.Bytes} {families : List Family}
    (h : relabel service.identity body = .ok families) :
    (∀ f ∈ families, f.name ∉ reservedNames ∧
      ∀ s ∈ f.samples, s.name ∉ reservedNames ∧ f.owns s.name = true) ∧
    ∃ parsed, read body = .ok parsed ∧ List.Forall₂ NamesPassed parsed families := by
  obtain ⟨parsed, hread, -⟩ := of_relabel h
  have howned := legible_of_relabel h
  obtain rfl := Except.ok.inj ((relabel_eq service.identity hread).symm.trans h)
  refine ⟨?_, parsed, hread, ?_⟩
  · intro f hf
    refine ⟨SelfMetrics.name_of_relabel h f hf, fun s hs => ⟨?_, (howned f hf).owned s hs⟩⟩
    obtain ⟨old, hold, rfl⟩ := List.mem_map.mp hf
    obtain ⟨sample, hsample, rfl⟩ := List.mem_map.mp hs
    exact passedName_not_reserved (((legible_of_read hread).1 old hold).owned sample hsample)
  · rw [List.forall₂_map_right_iff, List.forall₂_same]
    exact fun f _ => namesPassed_passedFamily service.identity f

def reservedFamilies : List Family := [
  { name := "scrape_samples_scraped"
    samples := [⟨"scrape_samples_scraped", [], 1.0, none⟩,
      ⟨"scrape_samples_scraped_sum", [], 2.0, none⟩] },
  { name := "scrape_samples", samples := [⟨"scrape_samples_total", [], 3.0, none⟩] }]

theorem relabel_reserves_scraped : ∃ families,
    relabel nodeService.identity (Text.Utf8.encode (text reservedFamilies)) = .ok families ∧
      List.Forall₂ NamesPassed reservedFamilies families := by
  have hread := read_plainFamilies (by decide : PlainFamilies reservedFamilies)
  have hrelabel := relabel_eq nodeService.identity hread
  obtain ⟨-, parsed, hparsed, hpassed⟩ := relabel_reserves nodeService hrelabel
  obtain rfl := Except.ok.inj (hread.symm.trans hparsed)
  exact ⟨_, hrelabel, hpassed⟩

end MetricRelay.Exposition
