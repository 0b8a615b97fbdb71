import MetricRelay.Proofs.Exposition.PassedOn
import MetricRelay.Proofs.SelfMetrics
import MetricRelay.Proofs.Series

/-!
# Forwarded series stay apart

Relabelling gives longer names to the labels of an identity and to the families of
the gauges. It makes one series or one family of two exactly where one of them has
the longer name already. A body without such names keeps all its series and
families apart.
-/

namespace MetricRelay

namespace Exposition

open Config (reservedLabels)
open SelfMetrics (reservedNames)

/-- Two samples have the same labels once those of the identity have their longer names. -/
structure AlikeExported (s s' : Sample) : Prop where
  other : ∀ l : Label, l.name ∉ stampNames → (l ∈ s.labels ↔ l ∈ s'.labels)
  identity : ∀ name ∈ reservedLabels, ∀ value,
    (⟨name, value⟩ ∈ s.labels ∨ ⟨exportedName name, value⟩ ∈ s.labels ↔
      ⟨name, value⟩ ∈ s'.labels ∨ ⟨exportedName name, value⟩ ∈ s'.labels)

def placed (families : List Family) : List (String × Sample) :=
  families.flatMap fun f => f.samples.map fun s => (f.name, s)

/-- Two series that relabelling makes one: their labels differ in longer names only, or one is of a
gauge and the other one has the longer name of it. -/
inductive Merged (p q : String × Sample) : Prop where
  | labels (family : p.1 ∈ reservedNames ↔ q.1 ∈ reservedNames) (name : p.2.name = q.2.name)
      (differ : ¬∀ l, l ∈ p.2.labels ↔ l ∈ q.2.labels) (alike : AlikeExported p.2 q.2)
  | moved (gauge : p.1 ∈ reservedNames) (other : q.1 ∉ reservedNames)
      (name : q.2.name = exportedName p.2.name) (alike : AlikeExported p.2 q.2)

/-- Nothing in these families meets what it is renamed to. -/
structure Unmerged (fs : List Family) : Prop where
  families : ∀ f ∈ fs, f.name ∈ reservedNames → exportedName f.name ∉ fs.map (·.name)
  series : ∀ p ∈ placed fs, ∀ q ∈ placed fs, ¬Merged p q

/-! ### Labels -/

theorem passedLabel_of_mem {name value : String} (h : name ∈ reservedLabels) :
    passedLabel ⟨name, value⟩ = ⟨exportedName name, value⟩ :=
  congrArg (Label.mk · value) (if_pos h)

theorem passedLabel_of_not_mem {name value : String} (h : name ∉ reservedLabels) :
    passedLabel ⟨name, value⟩ = ⟨name, value⟩ :=
  congrArg (Label.mk · value) (if_neg h)

theorem not_reserved_of_passed {labels : List Label} {l : Label}
    (h : l ∈ labels.map passedLabel) : l.name ∉ reservedLabels := by
  obtain ⟨old, -, rfl⟩ := List.mem_map.mp h
  exact passedLabelName_not_mem old.name

/-- Labels of other names are passed on as they are. -/
theorem mem_passed_other {labels : List Label} {l : Label} (h : l.name ∉ stampNames) :
    l ∈ labels.map passedLabel ↔ l ∈ labels := by
  rw [mem_stampNames_iff, not_or] at h
  obtain ⟨hbare, hlonger⟩ := h
  constructor
  · intro hl
    obtain ⟨⟨name, value⟩, hold, rfl⟩ := List.mem_map.mp hl
    by_cases hname : name ∈ reservedLabels
    · rw [passedLabel_of_mem hname] at hlonger
      exact absurd ⟨name, hname, rfl⟩ hlonger
    · rwa [passedLabel_of_not_mem hname]
  · exact fun hl => List.mem_map.mpr ⟨l, hl, passedLabel_of_not_mem hbare⟩

/-- Under a longer name, a label of the identity and one that had this name are passed on. -/
theorem mem_passed_exported {labels : List Label} {name : String} (h : name ∈ reservedLabels)
    (value : String) : ⟨exportedName name, value⟩ ∈ labels.map passedLabel ↔
      ⟨name, value⟩ ∈ labels ∨ ⟨exportedName name, value⟩ ∈ labels := by
  constructor
  · intro hl
    obtain ⟨⟨old, oldValue⟩, hold, heq⟩ := List.mem_map.mp hl
    by_cases hname : old ∈ reservedLabels
    · rw [passedLabel_of_mem hname] at heq
      obtain ⟨hexported, rfl⟩ := Label.mk.inj heq
      obtain rfl := exportedName_injective hexported
      exact Or.inl hold
    · rw [passedLabel_of_not_mem hname] at heq
      exact Or.inr (heq ▸ hold)
  · rintro (hbare | hexported)
    · exact List.mem_map.mpr ⟨_, hbare, passedLabel_of_mem h⟩
    · exact List.mem_map.mpr ⟨_, hexported, passedLabel_of_not_mem (exportedName_not_mem h)⟩

theorem same_passedLabels_iff {s s' : Sample} :
    (∀ l, l ∈ s.labels.map passedLabel ↔ l ∈ s'.labels.map passedLabel) ↔ AlikeExported s s' := by
  constructor
  · intro h
    refine ⟨fun l hl => ?_, fun name hname value => ?_⟩
    · rw [← mem_passed_other hl, h, mem_passed_other hl]
    · rw [← mem_passed_exported hname, h, mem_passed_exported hname]
  · rintro ⟨hother, hidentity⟩ ⟨name, value⟩
    by_cases hname : name ∈ reservedLabels
    · have hnone (labels : List Label) : (⟨name, value⟩ : Label) ∉ labels.map passedLabel :=
        fun hmem => not_reserved_of_passed hmem hname
      exact iff_of_false (hnone _) (hnone _)
    · by_cases hstamp : name ∈ stampNames
      · obtain ⟨n, hn, rfl⟩ := (mem_stampNames_iff.mp hstamp).resolve_left hname
        rw [mem_passed_exported hn, hidentity n hn, mem_passed_exported hn]
      · rw [mem_passed_other hstamp, hother _ hstamp, mem_passed_other hstamp]

/-- The labels of one identity do not tell samples apart. -/
theorem same_labels_passedSample_iff {i : Identity} {family family' : String} {s s' : Sample} :
    (∀ l, l ∈ (passedSample i family s).labels ↔ l ∈ (passedSample i family' s').labels) ↔
      AlikeExported s s' := by
  have hown {l : Label} {labels : List Label} (h : l ∈ labels.map passedLabel) :
      l ∉ i.labels :=
    fun hmem => not_reserved_of_passed h (Render.name_identity hmem)
  rw [← same_passedLabels_iff]
  constructor
  · intro h l
    have hl : l ∈ s.labels.map passedLabel ++ i.labels ↔
        l ∈ s'.labels.map passedLabel ++ i.labels := h l
    rw [List.mem_append, List.mem_append] at hl
    exact ⟨fun hin => (hl.mp (Or.inl hin)).resolve_right (hown hin),
      fun hin => (hl.mpr (Or.inl hin)).resolve_right (hown hin)⟩
  · intro h l
    exact (List.mem_append.trans (or_congr_left (h l))).trans List.mem_append.symm

/-! ### Names -/

theorem passedName_eq_iff {family family' name name' : String} :
    passedName family name = passedName family' name' ↔
      ((family ∈ reservedNames ↔ family' ∈ reservedNames) ∧ name = name') ∨
        (family ∈ reservedNames ∧ family' ∉ reservedNames ∧ name' = exportedName name) ∨
          (family' ∈ reservedNames ∧ family ∉ reservedNames ∧ name = exportedName name') := by
  by_cases h : family ∈ reservedNames
  · by_cases h' : family' ∈ reservedNames
    · have hinj : exportedName name = exportedName name' ↔ name = name' :=
        ⟨exportedName_injective, congrArg exportedName⟩
      simp [passedName, h, h', hinj]
    · simp [passedName, h, h', eq_comm]
  · by_cases h' : family' ∈ reservedNames
    · simp [passedName, h, h']
    · simp [passedName, h, h']

/-- The families keep distinct names exactly if no family of a gauge moves to one that is there. -/
theorem nodup_passedFamilies_iff (i : Identity) {fs : List Family}
    (h : (fs.map (·.name)).Nodup) : ((fs.map (passedFamily i)).map (·.name)).Nodup ↔
      ∀ f ∈ fs, f.name ∈ reservedNames → exportedName f.name ∉ fs.map (·.name) := by
  have hnames : (fs.map (passedFamily i)).map (·.name) =
      (fs.map (·.name)).map fun name => passedName name name := by
    rw [List.map_map, List.map_map]
    rfl
  rw [hnames]
  constructor
  · intro hnodup f hf hreserved hmem
    have hpassed : passedName (exportedName f.name) (exportedName f.name) =
        passedName f.name f.name :=
      passedName_eq_iff.mpr
        (Or.inr (Or.inr ⟨hreserved, SelfMetrics.exportedName_not_reserved f.name, rfl⟩))
    exact exportedName_ne f.name
      (List.inj_on_of_nodup_map hnodup hmem (List.mem_map_of_mem hf) hpassed)
  · intro hfree
    have happart {name name' : String} (hname : name ∈ fs.map (·.name))
        (hname' : name' ∈ fs.map (·.name)) (hreserved : name ∈ reservedNames) :
        name' ≠ exportedName name := by
      obtain ⟨f, hf, rfl⟩ := List.mem_map.mp hname
      rintro rfl
      exact hfree f hf hreserved hname'
    refine h.map_on fun name hname name' hname' heq => ?_
    rcases passedName_eq_iff.mp heq with ⟨-, hsame⟩ | ⟨hreserved, -, hlonger⟩ |
      ⟨hreserved, -, hlonger⟩
    · exact hsame
    · exact absurd hlonger (happart hname hname' hreserved)
    · exact absurd hlonger (happart hname' hname hreserved)

/-! ### Series -/

theorem samples_passedFamilies (i : Identity) (fs : List Family) :
    (fs.map (passedFamily i)).flatMap (·.samples) =
      (placed fs).map fun p => passedSample i p.1 p.2 := by
  rw [List.flatMap_map, placed, List.map_flatMap]
  exact List.flatMap_congr fun f _ => by rw [List.map_map]; rfl

theorem AlikeExported.symm {s s' : Sample} (h : AlikeExported s s') : AlikeExported s' s :=
  ⟨fun l hl => (h.other l hl).symm, fun name hname value => (h.identity name hname value).symm⟩

/-- Samples that relabelling makes one series were one, or are merged. -/
theorem sameSeries_passed_iff {i : Identity} {p q : String × Sample}
    (hdistinct : ¬p.2.SameSeries q.2) :
    (passedSample i p.1 p.2).SameSeries (passedSample i q.1 q.2) ↔ Merged p q ∨ Merged q p := by
  rw [Sample.SameSeries, same_labels_passedSample_iff]
  constructor
  · rintro ⟨hname, halike⟩
    rcases passedName_eq_iff.mp hname with ⟨hfamily, hsame⟩ | ⟨hgauge, hother, hlonger⟩ |
      ⟨hgauge, hother, hlonger⟩
    · exact Or.inl (.labels hfamily hsame (fun hlabels => hdistinct ⟨hsame, hlabels⟩) halike)
    · exact Or.inl (.moved hgauge hother hlonger halike)
    · exact Or.inr (.moved hgauge hother hlonger halike.symm)
  · rintro ((⟨hfamily, hname, -, halike⟩ | ⟨hgauge, hother, hname, halike⟩) |
      (⟨hfamily, hname, -, halike⟩ | ⟨hgauge, hother, hname, halike⟩))
    · exact ⟨passedName_eq_iff.mpr (Or.inl ⟨hfamily, hname⟩), halike⟩
    · exact ⟨passedName_eq_iff.mpr (Or.inr (Or.inl ⟨hgauge, hother, hname⟩)), halike⟩
    · exact ⟨passedName_eq_iff.mpr (Or.inl ⟨hfamily.symm, hname.symm⟩), halike.symm⟩
    · exact ⟨passedName_eq_iff.mpr (Or.inr (Or.inr ⟨hgauge, hother, hname⟩)), halike.symm⟩

theorem not_merged_self (p : String × Sample) : ¬Merged p p := by
  rintro (⟨-, -, hdiffer, -⟩ | ⟨hgauge, hother, -, -⟩)
  · exact hdiffer fun _ => Iff.rfl
  · exact hother hgauge

/-- Distinct series stay distinct exactly if none of them are merged. -/
theorem distinctSeries_passed_iff (i : Identity) {fs : List Family}
    (h : DistinctSeries (fs.flatMap (·.samples))) :
    DistinctSeries ((fs.map (passedFamily i)).flatMap (·.samples)) ↔
      ∀ p ∈ placed fs, ∀ q ∈ placed fs, ¬Merged p q := by
  have hplaced : (placed fs).Pairwise fun p q => ¬p.2.SameSeries q.2 := by
    have hsamples : (placed fs).map (·.2) = fs.flatMap (·.samples) := by
      rw [placed, List.map_flatMap]
      exact List.flatMap_congr fun f _ => by rw [List.map_map]; exact List.map_id _
    rwa [DistinctSeries, ← hsamples, List.pairwise_map] at h
  have hmerged : DistinctSeries ((fs.map (passedFamily i)).flatMap (·.samples)) ↔
      (placed fs).Pairwise fun p q => ¬(Merged p q ∨ Merged q p) := by
    rw [samples_passedFamilies, DistinctSeries, List.pairwise_map]
    exact ⟨fun hpassed => (hplaced.and hpassed).imp fun ⟨hne, hnot⟩ =>
        mt (sameSeries_passed_iff hne).mpr hnot,
      fun hfree => (hplaced.and hfree).imp fun ⟨hne, hnot⟩ =>
        mt (sameSeries_passed_iff hne).mp hnot⟩
  rw [hmerged]
  constructor
  · intro hpairs p hp q hq hpq
    have : Std.Symm fun p q : String × Sample => ¬(Merged p q ∨ Merged q p) :=
      ⟨fun _ _ hnot => mt Or.symm hnot⟩
    have hself : ∀ p ∈ placed fs, ¬(Merged p p ∨ Merged p p) :=
      fun p _ => (or_self _).symm ▸ not_merged_self p
    exact hpairs.forall_of_forall hself hp hq (Or.inl hpq)
  · intro hfree
    exact List.pairwise_of_forall_mem_list fun p hp q hq =>
      not_or.mpr ⟨hfree p hp q hq, hfree q hq p hp⟩

/-- A body of distinct series is passed on, and its series and families stay apart exactly if
nothing in it meets what it is renamed to. -/
theorem relabel_keeps_apart_iff (service : Catalog.Service) {body : Text.Bytes}
    {parsed : List Family} (h : read body = .ok parsed)
    (hdistinct : DistinctSeries (parsed.flatMap (·.samples))) :
    ∃ families, relabel service.identity body = .ok families ∧
      (DistinctSeries (families.flatMap (·.samples)) ∧ (families.map (·.name)).Nodup ↔
        Unmerged parsed) := by
  refine ⟨_, relabel_eq service.identity h, ?_⟩
  rw [distinctSeries_passed_iff _ hdistinct, nodup_passedFamilies_iff _ (legible_of_read h).2]
  exact ⟨fun ⟨hseries, hfamilies⟩ => ⟨hfamilies, hseries⟩,
    fun ⟨hfamilies, hseries⟩ => ⟨hseries, hfamilies⟩⟩

/-! ### Bodies without longer names -/

def Exported (name : String) : Prop := "exported_".toList <+: name.toList

instance (name : String) : Decidable (Exported name) :=
  inferInstanceAs (Decidable ("exported_".toList <+: name.toList))

theorem exported_exportedName (name : String) : Exported (exportedName name) :=
  ⟨name.toList, (toList_exportedName name).symm⟩

/-- No family, sample or label has a longer name. -/
def Unexported (fs : List Family) : Prop :=
  ∀ f ∈ fs, ¬Exported f.name ∧
    ∀ s ∈ f.samples, ¬Exported s.name ∧ ∀ l ∈ s.labels, ¬Exported l.name

instance (fs : List Family) : Decidable (Unexported fs) :=
  inferInstanceAs (Decidable (∀ f ∈ fs, _ ∧ ∀ s ∈ f.samples, _ ∧ ∀ l ∈ s.labels, _))

/-- Without longer names, samples that are alike have the same labels. -/
theorem AlikeExported.same_labels {s s' : Sample} (halike : AlikeExported s s')
    (h : ∀ l ∈ s.labels, ¬Exported l.name) (h' : ∀ l ∈ s'.labels, ¬Exported l.name) :
    ∀ l, l ∈ s.labels ↔ l ∈ s'.labels := by
  rintro ⟨name, value⟩
  by_cases hstamp : name ∈ stampNames
  · rcases mem_stampNames_iff.mp hstamp with hname | ⟨n, -, rfl⟩
    · have hbare {labels : List Label} (hlabels : ∀ l ∈ labels, ¬Exported l.name) :
          ⟨name, value⟩ ∈ labels ∨ ⟨exportedName name, value⟩ ∈ labels ↔
            ⟨name, value⟩ ∈ labels :=
        or_iff_left fun hmem => hlabels _ hmem (exported_exportedName name)
      rw [← hbare h, halike.identity name hname value, hbare h']
    · have hnone {labels : List Label} (hlabels : ∀ l ∈ labels, ¬Exported l.name) :
          ⟨exportedName n, value⟩ ∉ labels :=
        fun hmem => hlabels _ hmem (exported_exportedName n)
      exact iff_of_false (hnone h) (hnone h')
  · exact halike.other _ hstamp

theorem unmerged_of_unexported {fs : List Family} (h : Unexported fs) : Unmerged fs := by
  have hplaced : ∀ p ∈ placed fs, ¬Exported p.2.name ∧ ∀ l ∈ p.2.labels, ¬Exported l.name := by
    intro p hp
    obtain ⟨f, hf, hmem⟩ := List.mem_flatMap.mp hp
    obtain ⟨s, hs, rfl⟩ := List.mem_map.mp hmem
    exact (h f hf).2 s hs
  constructor
  · intro f _ _ hmem
    obtain ⟨g, hg, hname⟩ := List.mem_map.mp hmem
    exact (h g hg).1 (hname ▸ exported_exportedName f.name)
  · rintro p hp q hq (⟨-, -, hdiffer, halike⟩ | ⟨-, -, hname, -⟩)
    · exact hdiffer (halike.same_labels (hplaced p hp).2 (hplaced q hq).2)
    · exact (hplaced q hq).1 (hname ▸ exported_exportedName p.2.name)

/-- Two jobs under one name, and a gauge of the exporter that scraped them. -/
def scrapedFamilies : List Family := [
  { name := "up"
    samples := [⟨"up", [⟨"job", "a"⟩], 1.0, none⟩, ⟨"up", [⟨"job", "b"⟩], 1.0, none⟩] },
  { name := "scrape_samples_scraped"
    samples := [⟨"scrape_samples_scraped", [⟨"job", "a"⟩], 2.0, none⟩] }]

theorem relabel_keeps_apart_scraped :
    read (Text.Utf8.encode (text scrapedFamilies)) = .ok scrapedFamilies ∧
      DistinctSeries (scrapedFamilies.flatMap (·.samples)) ∧
      ∃ families, relabel nodeService.identity (Text.Utf8.encode (text scrapedFamilies)) =
          .ok families ∧
        DistinctSeries (families.flatMap (·.samples)) ∧ (families.map (·.name)).Nodup := by
  have hread := read_plainFamilies (by decide : PlainFamilies scrapedFamilies)
  have hdistinct : DistinctSeries (scrapedFamilies.flatMap (·.samples)) := by
    have hjobs : ¬Sample.SameSeries ⟨"up", [⟨"job", "a"⟩], 1.0, none⟩
        ⟨"up", [⟨"job", "b"⟩], 1.0, none⟩ := fun hsame => by simpa using hsame.2 ⟨"job", "a"⟩
    refine .cons ?_ (.cons ?_ (List.pairwise_singleton ..))
    · simpa using ⟨hjobs, fun hsame : Sample.SameSeries _ _ => by simpa using hsame.1⟩
    · simpa using fun hsame : Sample.SameSeries _ _ => by simpa using hsame.1
  obtain ⟨families, hrelabel, hiff⟩ := relabel_keeps_apart_iff nodeService hread hdistinct
  exact ⟨hread, hdistinct, families, hrelabel,
    hiff.mpr (unmerged_of_unexported (by decide))⟩

def twinLabels : List Family :=
  [{ name := "m"
     samples := [⟨"m", [⟨"job", "a"⟩], 1.0, none⟩, ⟨"m", [⟨"exported_job", "a"⟩], 2.0, none⟩] }]

/-- They are passed on as one series. -/
theorem not_keeps_apart_twinLabels :
    read (Text.Utf8.encode (text twinLabels)) = .ok twinLabels ∧
      DistinctSeries (twinLabels.flatMap (·.samples)) ∧
      ∃ families, relabel nodeService.identity (Text.Utf8.encode (text twinLabels)) =
          .ok families ∧ ¬DistinctSeries (families.flatMap (·.samples)) := by
  have hread := read_plainFamilies (by decide : PlainFamilies twinLabels)
  have hdistinct : DistinctSeries (twinLabels.flatMap (·.samples)) := by
    refine List.pairwise_pair.mpr fun hsame => ?_
    simpa using hsame.2 ⟨"job", "a"⟩
  refine ⟨hread, hdistinct, _, relabel_eq nodeService.identity hread, fun hpassed => ?_⟩
  have hsame := List.rel_of_pairwise_cons hpassed List.mem_cons_self
  exact hsame ⟨rfl, fun l => Iff.rfl⟩

/-- The samples of a gauge, as scraped from another exporter and as its own. -/
def twinGauges : List Family := [
  { name := "exported_scrape_samples_scraped"
    samples := [⟨"exported_scrape_samples_scraped", [], 1.0, none⟩] },
  { name := "scrape_samples_scraped"
    samples := [⟨"scrape_samples_scraped", [], 2.0, none⟩] }]

/-- They are passed on as two families of one name and one series. -/
theorem not_keeps_apart_twinGauges :
    read (Text.Utf8.encode (text twinGauges)) = .ok twinGauges ∧
      DistinctSeries (twinGauges.flatMap (·.samples)) ∧
      ∃ families, relabel nodeService.identity (Text.Utf8.encode (text twinGauges)) =
          .ok families ∧ ¬(families.map (·.name)).Nodup ∧
        ¬DistinctSeries (families.flatMap (·.samples)) := by
  have hread := read_plainFamilies (by decide : PlainFamilies twinGauges)
  have hdistinct : DistinctSeries (twinGauges.flatMap (·.samples)) := by
    simp [twinGauges, DistinctSeries, Sample.SameSeries]
  refine ⟨hread, hdistinct, _, relabel_eq nodeService.identity hread, by decide,
    fun hpassed => ?_⟩
  have hsame := List.rel_of_pairwise_cons hpassed List.mem_cons_self
  exact hsame ⟨rfl, fun l => Iff.rfl⟩

end Exposition
end MetricRelay
