import Mathlib.Data.List.Nodup
import MetricRelay.Exposition.Reader
import MetricRelay.Proofs.Exposition.Line

/-!
# Written families read back

A family is written as its own block of lines: help, kind, samples. Whatever
was read before, reading the block appends the family, as long as its name is
new; so a list of families with distinct names is read back in its order.
-/

namespace MetricRelay.Exposition

open Text (isBlank Solid)

structure WritableFamily (f : Family) : Prop where
  name_ne : f.name ≠ ""
  name_solid : Solid f.name.toList
  help : ∀ help, f.help = some help → WritableHelp help.toList
  owned : ∀ s ∈ f.samples, f.owns s.name = true
  no_brace : ∀ s ∈ f.samples, '\x7b' ∉ s.name.toList
  no_hash : ∀ s ∈ f.samples, s.name.toList.head? ≠ some '#'
  labels : ∀ s ∈ f.samples, ∀ l ∈ s.labels, WritableLabel l
  timestamp : ∀ s ∈ f.samples, ∀ t, s.timestamp = some t →
    -(Number.maxI64 + 1 : Nat) ≤ t ∧ t ≤ Number.maxI64

/-- The name of an owned sample starts with that of its family and adds no blank. -/
theorem owns_solid {f : Family} {name : String} (h : f.owns name = true)
    (hsolid : Solid f.name.toList) (hne : f.name.toList ≠ []) :
    Solid name.toList ∧ name.toList ≠ [] := by
  rw [Family.owns, Bool.or_eq_true, beq_iff_eq, List.any_eq_true] at h
  rcases h with rfl | ⟨suffix, hmem, heq⟩
  · exact ⟨hsolid, hne⟩
  · have hsuffix : ∀ s ∈ Family.suffixes, Solid s.toList := by
      decide
    rw [beq_iff_eq.mp heq, String.toList_append]
    exact ⟨hsolid.append (hsuffix suffix hmem), by simp [hne]⟩

theorem WritableFamily.name_toList_ne {f : Family} (h : WritableFamily f) :
    f.name.toList ≠ [] := by
  intro hnil
  exact h.name_ne (String.toList_eq_nil_iff.mp hnil)

theorem WritableFamily.sample {f : Family} (h : WritableFamily f) {s : Sample}
    (hs : s ∈ f.samples) : WritableSample s where
  name_ne := (owns_solid (h.owned s hs) h.name_solid h.name_toList_ne).2
  name_solid := (owns_solid (h.owned s hs) h.name_solid h.name_toList_ne).1
  no_brace := h.no_brace s hs
  no_hash := h.no_hash s hs
  labels := h.labels s hs
  timestamp := h.timestamp s hs

/-! ### Every line stands alone -/

theorem isLine_of_trimmed {cs : List Char} (hline : '\n' ∉ cs)
    (hlast : ∀ c, cs.getLast? = some c → isBlank c = false) : Text.IsLine cs := by
  refine ⟨hline, ?_⟩
  intro hreturn
  exact absurd (hlast _ hreturn) (by decide)

theorem newline_not_mem_of_solid {cs : List Char} (h : Solid cs) : '\n' ∉ cs := by
  intro hmem
  exact absurd (h _ hmem) (by decide)

theorem newline_not_mem_writeLabel {l : Label} (h : WritableLabel l) : '\n' ∉ writeLabel l := by
  simp [writeLabel, h.no_newline, newline_not_mem_escapeValue]

theorem newline_not_mem_writeLabels {labels : List Label}
    (h : ∀ l ∈ labels, WritableLabel l) : '\n' ∉ writeLabels labels := by
  have hjoined : '\n' ∉ List.intercalate [','] (labels.map writeLabel) := by
    induction labels with
    | nil => simp
    | cons l ls ih =>
      have hl := newline_not_mem_writeLabel (h l (by simp))
      have hls := ih fun x hx => h x (List.mem_cons_of_mem l hx)
      cases ls with
      | nil => simpa using hl
      | cons m ms =>
        have hshape : List.intercalate [','] ((l :: m :: ms).map writeLabel) =
            writeLabel l ++ ',' :: List.intercalate [','] ((m :: ms).map writeLabel) := by
          simp [List.intercalate]
        rw [hshape, List.mem_append, List.mem_cons]
        rintro (hin | hsep | hin)
        · exact hl hin
        · exact absurd hsep (by decide)
        · exact hls hin
  rw [writeLabels]
  split
  · simp
  · simp [hjoined]

theorem isLine_writeSample {s : Sample} (h : WritableSample s) : Text.IsLine (writeSample s) := by
  refine isLine_of_trimmed ?_ fun c hc => writeSample_last hc
  have hname := newline_not_mem_of_solid h.name_solid
  have hlabels := newline_not_mem_writeLabels h.labels
  have hvalue := newline_not_mem_of_solid (Number.solid_valueText s.value)
  have htime : '\n' ∉ writeTimestamp s.timestamp := by
    cases s.timestamp with
    | none => simp [writeTimestamp]
    | some t =>
      have hsigned := newline_not_mem_of_solid (Number.solid_signedText t)
      simp [writeTimestamp, hsigned]
  simp [writeSample, hname, hlabels, hvalue, htime]

theorem isLine_writeKind {name : String} (kind : MetricKind) (h : Solid name.toList) :
    Text.IsLine (writeKind name kind) := by
  obtain ⟨hkind, hne⟩ := solid_kind kind
  have hshape : writeKind name kind = (typeMark ++ name.toList ++ [' ']) ++ kind.text.toList := by
    simp [writeKind]
  refine isLine_of_trimmed ?_ ?_
  · have hmark : '\n' ∉ typeMark := by decide
    simp [writeKind, hmark, newline_not_mem_of_solid h, newline_not_mem_of_solid hkind]
  · intro c hc
    rw [hshape] at hc
    exact Text.last_of_append hkind hne hc

theorem newline_not_mem_writeHelp {name : String} (h : Solid name.toList) (help : String) :
    '\n' ∉ writeHelp name help := by
  have hmark : '\n' ∉ helpMark := by decide
  simp [writeHelp, hmark, newline_not_mem_of_solid h, newline_not_mem_escapeHelp]

theorem isLine_writeHelp {name help : String} (h : Solid name.toList)
    (hhelp : EndsPlain help.toList) : Text.IsLine (writeHelp name help) := by
  constructor
  · exact newline_not_mem_writeHelp h help
  · intro hreturn
    have hshape : writeHelp name help =
        (helpMark ++ name.toList) ++ (' ' :: escapeHelp help.toList) := by
      simp [writeHelp]
    rw [hshape, List.getLast?_append_of_ne_nil _ (List.cons_ne_nil _ _),
      List.getLast?_cons] at hreturn
    cases hlast : (escapeHelp help.toList).getLast? with
    | none => simp [hlast] at hreturn
    | some c =>
      obtain rfl : c = '\r' := by simpa [hlast] using hreturn
      exact absurd (last_of_escapeHelp hhelp _ hlast) (by decide)

theorem isLine_of_mem_familyLines {f : Family} (hname : Solid f.name.toList)
    (hhelp : ∀ help, f.help = some help → EndsPlain help.toList)
    (hsamples : ∀ s ∈ f.samples, WritableSample s) : ∀ l ∈ familyLines f, Text.IsLine l := by
  intro l hl
  rw [familyLines, List.mem_append, List.mem_cons, List.mem_map] at hl
  rcases hl with htext | rfl | ⟨s, hs, rfl⟩
  · cases hown : f.help with
    | none => simp [hown] at htext
    | some help =>
      obtain rfl : l = writeHelp f.name help := by simpa [hown] using htext
      exact isLine_writeHelp hname (hhelp help hown)
  · exact isLine_writeKind f.kind hname
  · exact isLine_writeSample (hsamples s hs)

theorem isLine_familyLines {f : Family} (h : WritableFamily f) :
    ∀ l ∈ familyLines f, Text.IsLine l :=
  isLine_of_mem_familyLines h.name_solid (fun help hown => (h.help help hown).last)
    fun _ hs => h.sample hs

/-! ### Reading one block -/

theorem withFamily_new {name : String} {families : List Family}
    (h : name ∉ families.map (·.name)) (f : Family → Family) :
    withFamily name f families = families ++ [f { name }] := by
  induction families with
  | nil => rfl
  | cons g gs ih =>
    rw [List.map_cons, List.mem_cons, not_or] at h
    rw [withFamily, if_neg (Ne.symm h.1), ih h.2, List.cons_append]

theorem withFamily_last {families : List Family} {g : Family}
    (h : g.name ∉ families.map (·.name)) (f : Family → Family) :
    withFamily g.name f (families ++ [g]) = families ++ [f g] := by
  induction families with
  | nil => simp [withFamily]
  | cons x xs ih =>
    rw [List.map_cons, List.mem_cons, not_or] at h
    rw [List.cons_append, withFamily, if_neg (Ne.symm h.1), ih h.2, List.cons_append]

theorem readLines_cons {n : Nat} {r : Reading} {l : List Char} {line : Line}
    {ls : List (List Char)} (h : readLine l = .ok line) :
    readLines n r (l :: ls) = readLines (n + 1) (r.add line) ls := by
  rw [readLines, h]

theorem Reading.home_owned {families : List Family} {f : Family} {sample : String}
    (h : f.owns sample = true) : Reading.home ⟨families, some f.name⟩ sample = f.name := by
  have howns : Family.owns { name := f.name } sample = true := h
  rw [home]
  simp only [howns, if_true]

/-- The samples of a family follow it one after another. -/
theorem readLines_samples {f : Family} (h : WritableFamily f) {families : List Family}
    (hnew : f.name ∉ families.map (·.name)) (samples : List Sample)
    (hsub : ∀ s ∈ samples, s ∈ f.samples)
    (hvalues : ∀ s ∈ samples, Number.read? (Number.valueText s.value).toList = some s.value)
    (before : List Sample) (n : Nat) (rest : List (List Char)) :
    ∃ m, readLines n ⟨families ++ [{ f with samples := before }], some f.name⟩
        (samples.map writeSample ++ rest) =
      readLines m ⟨families ++ [{ f with samples := before ++ samples }], some f.name⟩ rest := by
  induction samples generalizing before n with
  | nil => exact ⟨n, by simp⟩
  | cons s ss ih =>
    have hs := hsub s (by simp)
    have hread := readLine_writeSample (h.sample hs) (hvalues s (by simp))
    have hlast := withFamily_last (g := { f with samples := before }) hnew
      fun g => { g with samples := g.samples ++ [s] }
    have hadd : Reading.add ⟨families ++ [{ f with samples := before }], some f.name⟩ (.sample s) =
        ⟨families ++ [{ f with samples := before ++ [s] }], some f.name⟩ := by
      rw [Reading.add, Reading.home_owned (h.owned s hs), Reading.update]
      exact congrArg (Reading.mk · _) hlast
    obtain ⟨m, hm⟩ := ih (fun x hx => hsub x (List.mem_cons_of_mem s hx))
      (fun x hx => hvalues x (List.mem_cons_of_mem s hx)) (before ++ [s]) (n + 1)
    refine ⟨m, ?_⟩
    rw [List.map_cons, List.cons_append, readLines_cons hread, hadd, hm, List.append_assoc,
      List.singleton_append]

/-- The lines before the samples start the family, whether it has a help text or not. -/
theorem readLines_heading {f : Family} (h : WritableFamily f) {families : List Family}
    (hnew : f.name ∉ families.map (·.name)) (current : Option String) (n : Nat)
    (rest : List (List Char)) :
    ∃ m, readLines n ⟨families, current⟩
        ((match f.help with
          | none => []
          | some help => [writeHelp f.name help]) ++ writeKind f.name f.kind :: rest) =
      readLines m ⟨families ++ [{ f with samples := [] }], some f.name⟩ rest := by
  have hkind := readLine_writeKind f.kind h.name_solid h.name_toList_ne
  cases hhelp : f.help with
  | none =>
    have hadd : Reading.add ⟨families, current⟩ (.kind f.name f.kind) =
        ⟨families ++ [{ f with samples := [] }], some f.name⟩ := by
      rw [Reading.add, Reading.update, withFamily_new hnew, hhelp]
    refine ⟨n + 1, ?_⟩
    rw [List.nil_append, readLines_cons hkind, hadd]
    rw [hhelp]
  | some help =>
    have hread := readLine_writeHelp h.name_solid h.name_toList_ne (h.help help hhelp)
    have hfirst : Reading.add ⟨families, current⟩ (.help f.name help) =
        ⟨families ++ [{ name := f.name, help := some help }], some f.name⟩ := by
      rw [Reading.add, Reading.update, withFamily_new hnew]
    have hlast := withFamily_last (g := { name := f.name, help := some help }) hnew
      fun g => { g with kind := f.kind }
    have hsecond : Reading.add ⟨families ++ [{ name := f.name, help := some help }], some f.name⟩
        (.kind f.name f.kind) = ⟨families ++ [{ f with samples := [] }], some f.name⟩ := by
      rw [Reading.add, Reading.update, hhelp]
      exact congrArg (Reading.mk · _) hlast
    refine ⟨n + 1 + 1, ?_⟩
    rw [List.singleton_append, readLines_cons hread, hfirst, readLines_cons hkind, hsecond]
    rw [hhelp]

theorem readLines_family {f : Family} (h : WritableFamily f) {families : List Family}
    (hnew : f.name ∉ families.map (·.name))
    (hvalues : ∀ s ∈ f.samples, Number.read? (Number.valueText s.value).toList = some s.value)
    (current : Option String) (n : Nat) (rest : List (List Char)) :
    ∃ m, readLines n ⟨families, current⟩ (familyLines f ++ rest) =
      readLines m ⟨families ++ [f], some f.name⟩ rest := by
  obtain ⟨k, hk⟩ := readLines_heading h hnew current n (f.samples.map writeSample ++ rest)
  obtain ⟨m, hm⟩ := readLines_samples h hnew f.samples (fun s hs => hs) hvalues [] k rest
  refine ⟨m, ?_⟩
  rw [familyLines, List.append_assoc, List.cons_append]
  exact hk.trans hm

theorem readLines_families {families : List Family} (h : ∀ f ∈ families, WritableFamily f)
    (hvalues : ∀ f ∈ families, ∀ s ∈ f.samples,
      Number.read? (Number.valueText s.value).toList = some s.value)
    {before : List Family} (hnew : ((before ++ families).map (·.name)).Nodup)
    (current : Option String) (n : Nat) :
    ∃ last, readLines n ⟨before, current⟩ (families.flatMap familyLines) =
      .ok ⟨before ++ families, last⟩ := by
  induction families generalizing before current n with
  | nil => exact ⟨current, by simp [readLines]⟩
  | cons f fs ih =>
    have hfresh : f.name ∉ before.map (·.name) := by
      rw [List.map_append, List.nodup_append] at hnew
      intro hmem
      exact hnew.2.2 _ hmem f.name (by simp) rfl
    obtain ⟨m, hm⟩ := readLines_family (h f (by simp)) hfresh (hvalues f (by simp)) current n
      (fs.flatMap familyLines)
    have hrest : ((before ++ [f] ++ fs).map (·.name)).Nodup := by simpa using hnew
    obtain ⟨last, hlast⟩ := ih (fun g hg => h g (List.mem_cons_of_mem f hg))
      (fun g hg => hvalues g (List.mem_cons_of_mem f hg)) hrest (some f.name) m
    refine ⟨last, ?_⟩
    rw [List.flatMap_cons, hm, hlast, List.append_assoc, List.singleton_append]

/-- Reading undoes writing: the same families in the same order, with every help text, kind,
label value, timestamp and value. -/
theorem readText_text (families : List Family)
    (hnames : (families.map (·.name)).Nodup) (h : ∀ f ∈ families, WritableFamily f)
    (hvalues : ∀ f ∈ families, ∀ s ∈ f.samples,
      Number.read? (Number.valueText s.value).toList = some s.value) :
    readText (text families).toList = .ok families := by
  have hlines : Text.lines (text families).toList = families.flatMap familyLines := by
    rw [text, String.toList_ofList, write, Text.lines_flatMap]
    intro l hl
    obtain ⟨f, hf, hmem⟩ := List.mem_flatMap.mp hl
    exact isLine_familyLines (h f hf) l hmem
  have hstart : (([] ++ families).map Family.name).Nodup := hnames
  obtain ⟨last, hread⟩ := readLines_families h hvalues hstart none 1
  rw [readText, hlines, hread]
  rfl

def escapedFamily : Family where
  name := "jobs"
  help := some "\nback\\slash \"quoted\"\n"
  kind := .counter
  samples := [
    { name := "jobs_total"
      labels := [⟨"path", "\"C:\\temp\"\r\n"⟩, ⟨"", "\x7d, #"⟩]
      value := 0.1
      timestamp := some (-9223372036854775808) },
    { name := "jobs", labels := [], value := 1.0 }]

theorem writable_escapedFamily : WritableFamily escapedFamily where
  name_ne := by decide
  name_solid := by
    decide
  help := by
    intro help hhelp
    obtain rfl := Option.some.inj hhelp
    constructor
    · intro c hc _
      exact (Option.some.inj hc).symm
    · intro c hc _
      exact (Option.some.inj hc).symm
  owned := by decide
  no_brace := by decide
  no_hash := by decide
  labels := by
    intro s hs l hl
    have hcases : l = ⟨"path", "\"C:\\temp\"\r\n"⟩ ∨ l = ⟨"", "\x7d, #"⟩ := by
      rcases List.mem_cons.mp hs with rfl | hs
      · simpa using hl
      · obtain rfl := List.mem_singleton.mp hs
        simp at hl
    rcases hcases with rfl | rfl
    · exact ⟨by decide, by decide, by decide, by decide⟩
    · exact ⟨by decide, by decide, by decide, by decide⟩
  timestamp := by
    intro s hs t ht
    rcases List.mem_cons.mp hs with rfl | hs
    · obtain rfl := Option.some.inj ht
      decide
    · obtain rfl := List.mem_singleton.mp hs
      cases ht

theorem readText_text_escapedFamily :
    readText (text [escapedFamily]).toList = .ok [escapedFamily] := by
  refine readText_text [escapedFamily] (by decide) ?_ ?_
  · intro f hf
    obtain rfl := List.mem_singleton.mp hf
    exact writable_escapedFamily
  · intro f hf
    obtain rfl := List.mem_singleton.mp hf
    decide +kernel

end MetricRelay.Exposition
