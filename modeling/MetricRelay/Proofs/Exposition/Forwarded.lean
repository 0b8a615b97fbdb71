import MetricRelay.Proofs.Exposition.Reread
import MetricRelay.Proofs.Relabel
import MetricRelay.Proofs.Text.Ascii

/-!
# Relabelled bodies read back

Stamps and moved names leave families legible, so a relabelled body reads back
from its text exactly if no help text starts with an escaped blank and no family
has moved to a name that was there before.
-/

namespace MetricRelay.Exposition

open Text (isBlank Solid)

theorem toList_exportedName (name : String) :
    (exportedName name).toList = "exported_".toList ++ name.toList := String.toList_append

theorem exportedName_injective {name other : String} (h : exportedName name = exportedName other) :
    name = other := by
  have hlist := congrArg String.toList h
  rw [toList_exportedName, toList_exportedName] at hlist
  exact String.toList_inj.mp (List.append_cancel_left hlist)

/-- A moved sample keeps what stands after the name of its family. -/
theorem movedName_append (family suffix : String) :
    movedName family (family ++ suffix) = exportedName family ++ suffix := by
  have hstarts : family.toList.isPrefixOf (family ++ suffix).toList = true := by
    rw [String.toList_append, List.isPrefixOf_iff_prefix]
    exact List.prefix_append ..
  rw [movedName, if_pos hstarts, String.toList_append, ← String.length_toList,
    List.drop_left, String.ofList_toList]

theorem movedName_of_owns {f : Family} {sample : String} (h : f.owns sample = true) :
    movedName f.name sample = exportedName sample ∧
      Family.owns { name := exportedName f.name } (exportedName sample) = true := by
  rw [Family.owns, Bool.or_eq_true, beq_iff_eq, List.any_eq_true] at h
  rcases h with rfl | ⟨suffix, hmem, heq⟩
  · have hmoved := movedName_append f.name ""
    rw [String.append_empty, String.append_empty] at hmoved
    exact ⟨hmoved, by simp [Family.owns]⟩
  · obtain rfl := beq_iff_eq.mp heq
    have hshape : exportedName (f.name ++ suffix) = exportedName f.name ++ suffix := by
      rw [exportedName, exportedName, String.append_assoc]
    refine ⟨(movedName_append f.name suffix).trans hshape.symm, ?_⟩
    rw [hshape, Family.owns, Bool.or_eq_true, List.any_eq_true]
    exact Or.inr ⟨suffix, hmem, beq_self_eq_true _⟩

theorem solid_exportedName {name : String} (h : Solid name.toList) :
    Solid (exportedName name).toList := by
  have hmark : Solid "exported_".toList := by decide
  rw [toList_exportedName]
  exact hmark.append h

theorem exportedName_ne_empty (name : String) : exportedName name ≠ "" := by
  intro h
  have hlist := congrArg String.toList h
  rw [toList_exportedName] at hlist
  cases hlist

theorem writable_exported {s : Sample} (h : WritableSample s) :
    WritableSample { s with name := exportedName s.name } where
  name_ne hnil := exportedName_ne_empty _ (String.toList_eq_nil_iff.mp hnil)
  name_solid := solid_exportedName h.name_solid
  no_brace := by
    have hmark : '\x7b' ∉ "exported_".toList := by decide
    rw [toList_exportedName, List.mem_append]
    exact fun hmem => hmem.elim hmark h.no_brace
  no_hash := by
    rw [toList_exportedName]
    exact fun hhead => by cases hhead
  labels := h.labels
  timestamp := h.timestamp

theorem Legible.moveReserved {f : Family} (h : Legible f) : Legible (moveReserved f) := by
  rw [Exposition.moveReserved]
  split
  · refine ⟨⟨exportedName_ne_empty _, solid_exportedName h.name.2⟩, h.help, ?_, ?_⟩
    · intro s hs
      obtain ⟨old, hold, rfl⟩ := List.mem_map.mp hs
      obtain ⟨hmoved, howned⟩ := movedName_of_owns (h.owned old hold)
      exact hmoved ▸ howned
    · intro s hs
      obtain ⟨old, hold, rfl⟩ := List.mem_map.mp hs
      rw [(movedName_of_owns (h.owned old hold)).1]
      exact writable_exported (h.samples old hold)
  · exact h

/-! ### Stamps -/

def stampNames : List String := ["job", "instance", "exported_job", "exported_instance"]

theorem writable_label {l : Label} (h : l.name ∈ stampNames) : WritableLabel l := by
  have hall : ∀ n ∈ stampNames, Text.trim n.toList = n.toList ∧ '=' ∉ n.toList ∧
      '\n' ∉ n.toList ∧ n.toList.head? ≠ some '\x7d' := by
    decide
  obtain ⟨htrim, hequals, hline, hclose⟩ := hall l.name h
  exact ⟨htrim, hequals, hline, hclose⟩

theorem WritableSample.stamp {s : Sample} (h : WritableSample s) {label : Label}
    (hname : label.name = "job" ∨ label.name = "instance") : WritableSample (stamp s label) where
  name_ne := h.name_ne
  name_solid := h.name_solid
  no_brace := h.no_brace
  no_hash := h.no_hash
  labels := by
    have hnames : label.name ∈ stampNames ∧ exportedName label.name ∈ stampNames := by
      rcases hname with hjob | hinstance
      · rw [hjob]
        decide
      · rw [hinstance]
        decide
    intro l hl
    rcases List.mem_append.mp hl with hkept | hnew
    · obtain ⟨old, hold, rfl⟩ := List.mem_map.mp hkept
      split
      · next hmoved =>
        apply writable_label
        rw [hmoved]
        exact hnames.2
      · exact h.labels old hold
    · obtain rfl := List.mem_singleton.mp hnew
      exact writable_label hnames.1
  timestamp := h.timestamp

theorem Legible.stampAll (i : Identity) {families : List Family}
    (h : ∀ f ∈ families, Legible f) : ∀ f ∈ stampAll i.labels families, Legible f := by
  intro f hf
  obtain ⟨old, hold, rfl⟩ := List.mem_map.mp hf
  have hold := h old hold
  refine ⟨hold.name, hold.help, ?_, ?_⟩
  · intro s hs
    obtain ⟨bare, hbare, rfl⟩ := List.mem_map.mp hs
    exact hold.owned bare hbare
  · intro s hs
    obtain ⟨bare, hbare, rfl⟩ := List.mem_map.mp hs
    exact ((hold.samples bare hbare).stamp (Or.inl rfl)).stamp (Or.inr rfl)

/-- Relabelled families are legible. -/
theorem legible_of_relabel {i : Identity} {body : Text.Bytes} {families : List Family}
    (h : relabel i body = .ok families) : ∀ f ∈ families, Legible f := by
  obtain ⟨bare, hread, rfl⟩ := of_relabel h
  apply Legible.stampAll
  intro f hf
  obtain ⟨old, hold, rfl⟩ := List.mem_map.mp hf
  exact ((legible_of_read hread).1 old hold).moveReserved

/-- A relabelled body reads back exactly if no two of its families have one name and none of its
help texts starts with a blank. -/
theorem relabel_reads_back_iff {i : Identity} {body : Text.Bytes} {families : List Family}
    (h : relabel i body = .ok families) :
    readText (text families).toList = .ok families ↔
      (families.map (·.name)).Nodup ∧
        ∀ f ∈ families, ∀ help, f.help = some help → StartsPlain help.toList :=
  readText_text_iff (legible_of_relabel h)

/-- A gauge that has to be renamed, and one with a kind and a help text. -/
def twoGauges : Text.Bytes :=
  Text.Utf8.ascii
    "scrape_samples_scraped 2\n# HELP up In C:\\\\dev\n# TYPE up gauge\nup 1\n".toList

theorem relabel_twoGauges : relabel ⟨"node", "localhost:0"⟩ twoGauges = .ok [
    { name := "exported_scrape_samples_scraped"
      samples := [⟨"exported_scrape_samples_scraped",
        [⟨"job", "node"⟩, ⟨"instance", "localhost:0"⟩], 2.0, none⟩] },
    { name := "up", help := some "In C:\\dev", kind := .gauge
      samples := [⟨"up", [⟨"job", "node"⟩, ⟨"instance", "localhost:0"⟩], 1.0, none⟩] }] := by
  have hdecode : Text.Utf8.decode twoGauges =
      .ok "scrape_samples_scraped 2\n# HELP up In C:\\\\dev\n# TYPE up gauge\nup 1\n".toList :=
    Text.Utf8.decode_ascii (by decide)
  have htext : readText
      "scrape_samples_scraped 2\n# HELP up In C:\\\\dev\n# TYPE up gauge\nup 1\n".toList = .ok [
        { name := "scrape_samples_scraped"
          samples := [⟨"scrape_samples_scraped", [], 2.0, none⟩] },
        { name := "up", help := some "In C:\\dev", kind := .gauge
          samples := [⟨"up", [], 1.0, none⟩] }] := rfl
  simp only [relabel, Exposition.read, hdecode, htext]
  rfl

theorem reads_back_twoGauges : ∃ families,
    relabel ⟨"node", "localhost:0"⟩ twoGauges = .ok families ∧
      readText (text families).toList = .ok families := by
  refine ⟨_, relabel_twoGauges, (relabel_reads_back_iff relabel_twoGauges).mpr ⟨by decide, ?_⟩⟩
  intro f hf help hhelp
  rcases List.mem_pair.mp hf with rfl | rfl
  · cases hhelp
  · cases hhelp
    rintro c ⟨⟩ hblank
    exact absurd hblank (by decide)

def blankHelp : Text.Bytes := Text.Utf8.ascii "# HELP a \\ b\n".toList

theorem relabel_blankHelp (i : Identity) :
    relabel i blankHelp = .ok [{ name := "a", help := some " b" }] := by
  have hdecode : Text.Utf8.decode blankHelp = .ok "# HELP a \\ b\n".toList :=
    Text.Utf8.decode_ascii (by decide)
  have htext : readText "# HELP a \\ b\n".toList =
      .ok [{ name := "a", help := some " b" }] := rfl
  simp only [relabel, Exposition.read, hdecode, htext]
  rfl

/-- The blank is gone after one more reading. -/
theorem not_reads_back_blankHelp : ∃ families,
    relabel ⟨"node", "localhost:0"⟩ blankHelp = .ok families ∧
      readText (text families).toList ≠ .ok families := by
  refine ⟨_, relabel_blankHelp _, ?_⟩
  have hread : readText (text [{ name := "a", help := some " b" }]).toList =
      .ok [{ name := "a", help := some "b" }] := rfl
  rw [hread]
  simp

/-- The samples of a gauge, as scraped from another exporter and as its own. -/
def chainedSamples : Text.Bytes :=
  Text.Utf8.ascii "exported_scrape_samples_scraped 1\nscrape_samples_scraped 2\n".toList

theorem relabel_chainedSamples (i : Identity) : ∃ families,
    relabel i chainedSamples = .ok families ∧ families.map (·.name) =
      ["exported_scrape_samples_scraped", "exported_scrape_samples_scraped"] := by
  have hdecode : Text.Utf8.decode chainedSamples =
      .ok "exported_scrape_samples_scraped 1\nscrape_samples_scraped 2\n".toList :=
    Text.Utf8.decode_ascii (by decide)
  have htext : readText "exported_scrape_samples_scraped 1\nscrape_samples_scraped 2\n".toList =
      .ok [
        { name := "exported_scrape_samples_scraped"
          samples := [⟨"exported_scrape_samples_scraped", [], 1.0, none⟩] },
        { name := "scrape_samples_scraped"
          samples := [⟨"scrape_samples_scraped", [], 2.0, none⟩] }] := rfl
  simp only [relabel, Exposition.read, hdecode, htext]
  exact ⟨_, rfl, rfl⟩

/-- The moved family joins the one it met. -/
theorem not_reads_back_chainedSamples : ∃ families,
    relabel ⟨"node", "localhost:0"⟩ chainedSamples = .ok families ∧
      readText (text families).toList ≠ .ok families := by
  obtain ⟨families, hread, hnames⟩ := relabel_chainedSamples ⟨"node", "localhost:0"⟩
  refine ⟨families, hread, fun hback => ?_⟩
  have hdistinct := (legible_of_readText hback).2
  rw [hnames] at hdistinct
  exact absurd hdistinct (by decide)

end MetricRelay.Exposition
