import MetricRelay.Proofs.Exposition.Declared
import MetricRelay.Proofs.Number.ReadBack

/-!
# The samples of a written text

Whatever stands in the help texts, a written text is read without a fault, and
the samples that are found are those that were written: every line is read as
what it was written from, a help text at most shortened, and a line adds its
sample to the families that were read before it.
-/

namespace MetricRelay.Exposition

open Text (isBlank Solid AtBlank trim trimEnd trimStart)

/-! ### Lines -/

/-- A carriage return at the end of a line is not read. -/
theorem readLine_unreturned (l : List Char) : readLine (Text.unreturned l) = readLine l := by
  rw [Text.unreturned]
  split
  · next hlast =>
    obtain ⟨ds, rfl⟩ := List.getLast?_eq_some_iff.mp hlast
    rw [List.dropLast_concat, readLine, readLine, Text.trim_append_blank (by decide)]
  · rfl

/-- Any help text leaves the name of its family to be read. -/
theorem readLine_writeHelp_some {name : String} (hname : Solid name.toList)
    (hne : name.toList ≠ []) (help : String) :
    ∃ heard, readLine (writeHelp name help) = .ok (.help name heard) := by
  have hshape : writeHelp name help =
      (helpMark ++ name.toList) ++ ' ' :: escapeHelp help.toList := by simp [writeHelp]
  have hhead : ∀ c, (writeHelp name help).head? = some c → isBlank c = false := by
    intro c hc
    have hfirst : (writeHelp name help).head? = some '#' := rfl
    obtain rfl : '#' = c := Option.some.inj (hfirst.symm.trans hc)
    decide
  have htrim : trim (writeHelp name help) = '#' :: (' ' :: ("HELP".toList ++
      ' ' :: (name.toList ++ trimEnd (' ' :: escapeHelp help.toList)))) := by
    rw [trim, Text.trimStart_of_head hhead, hshape,
      Text.trimEnd_append fun c hc => Text.last_of_append hname hne hc]
    rfl
  have hblank : AtBlank (trimEnd (' ' :: escapeHelp help.toList)) := by
    intro c hc
    obtain ⟨tail, htail⟩ := Text.trimEnd_starts (' ' :: escapeHelp help.toList)
    have hfirst : (' ' :: escapeHelp help.toList).head? = some c := by
      rw [← htail, List.head?_append, hc, Option.some_or]
    obtain rfl : ' ' = c := Option.some.inj hfirst
    exact Text.isBlank_space
  rw [readLine_comment htrim, readComment_written (Or.inl rfl) hname hne hblank, if_pos rfl]
  exact ⟨_, rfl⟩

def Line.sample? : Line → Option Sample
  | .sample s => some s
  | .nothing | .help .. | .kind .. => none

def sampleOn? (l : List Char) : Option Sample := (readLine l).toOption.bind Line.sample?

theorem sampleOn?_eq {l : List Char} {line : Line} (h : readLine l = .ok line) :
    sampleOn? l = line.sample? := by
  rw [sampleOn?, h]
  rfl

def Readable (l : List Char) : Prop := ∃ line, readLine l = .ok line

theorem Printable.readable {f : Family} (h : Printable f) : ∀ l ∈ familyLines f, Readable l := by
  intro l hl
  rw [familyLines, List.mem_append, List.mem_cons, List.mem_map] at hl
  rcases hl with htext | rfl | ⟨s, hs, rfl⟩
  · cases hown : f.help with
    | none => simp [hown] at htext
    | some help =>
      obtain rfl : l = writeHelp f.name help := by simpa [hown] using htext
      obtain ⟨heard, hheard⟩ := readLine_writeHelp_some h.name h.name_ne help
      exact ⟨_, hheard⟩
  · exact ⟨_, readLine_writeKind f.kind h.name h.name_ne⟩
  · exact ⟨_, readLine_writeSample (h.samples s hs) (Number.read?_valueText s.value)⟩

/-- The lines of a family give its samples, in order. -/
theorem Printable.samplesOn {f : Family} (h : Printable f) :
    (familyLines f).filterMap sampleOn? = f.samples := by
  have hkind : sampleOn? (writeKind f.name f.kind) = none :=
    sampleOn?_eq (readLine_writeKind f.kind h.name h.name_ne)
  have hsamples : (f.samples.map writeSample).filterMap sampleOn? = f.samples := by
    have hsome : f.samples.filterMap (sampleOn? ∘ writeSample) = f.samples.filterMap some :=
      List.filterMap_congr fun s hs =>
        sampleOn?_eq (readLine_writeSample (h.samples s hs) (Number.read?_valueText s.value))
    rw [List.filterMap_map, hsome, List.filterMap_some]
  rw [familyLines, List.filterMap_append, List.filterMap_cons_none hkind, hsamples]
  cases f.help with
  | none => rfl
  | some help =>
    obtain ⟨heard, hheard⟩ := readLine_writeHelp_some h.name h.name_ne help
    have hhelp : sampleOn? (writeHelp f.name help) = none := sampleOn?_eq hheard
    rw [List.filterMap_cons_none hhelp, List.filterMap_nil, List.nil_append]

/-! ### Readings -/

/-- A change of one family that adds samples at its end adds them to all. -/
theorem samples_withFamily {name : String} {f : Family → Family} {added : List Sample}
    (hf : ∀ g, (f g).samples = g.samples ++ added) (families : List Family) :
    ((withFamily name f families).flatMap (·.samples)).Perm
      (families.flatMap (·.samples) ++ added) := by
  induction families with
  | nil => simp [withFamily, hf]
  | cons g rest ih =>
    rw [withFamily]
    split
    · rw [List.flatMap_cons, List.flatMap_cons, hf, List.append_assoc, List.append_assoc]
      exact List.perm_append_comm.append_left g.samples
    · rw [List.flatMap_cons, List.flatMap_cons, List.append_assoc]
      exact ih.append_left g.samples

theorem Reading.samples_add (r : Reading) (line : Line) :
    ((r.add line).families.flatMap (·.samples)).Perm
      (r.families.flatMap (·.samples) ++ line.sample?.toList) := by
  cases line with
  | nothing => simp [Reading.add, Line.sample?]
  | help name help =>
    exact samples_withFamily (f := fun f => { f with help := some help })
      (fun _ => (List.append_nil _).symm) r.families
  | kind name kind =>
    exact samples_withFamily (f := fun f => { f with kind })
      (fun _ => (List.append_nil _).symm) r.families
  | sample s => exact samples_withFamily (fun _ => rfl) r.families

/-- Lines that can be read are all read, and their samples are found. -/
theorem readLines_samplesOn {ls : List (List Char)} (h : ∀ l ∈ ls, Readable l) (n : ℕ)
    (r : Reading) : ∃ last, readLines n r ls = .ok last ∧
      (last.families.flatMap (·.samples)).Perm
        (r.families.flatMap (·.samples) ++ ls.filterMap sampleOn?) := by
  induction ls generalizing n r with
  | nil => exact ⟨r, rfl, by simp⟩
  | cons l ls ih =>
    obtain ⟨line, hline⟩ := h l List.mem_cons_self
    obtain ⟨last, hlast, hperm⟩ := ih (fun l' hl' => h l' (List.mem_cons_of_mem l hl')) (n + 1)
      (r.add line)
    refine ⟨last, (readLines_cons hline).trans hlast, hperm.trans ?_⟩
    have hfirst : (l :: ls).filterMap sampleOn? =
        line.sample?.toList ++ ls.filterMap sampleOn? := by
      rw [List.filterMap_cons, sampleOn?_eq hline]
      cases line.sample? <;> rfl
    rw [hfirst, ← List.append_assoc]
    exact (r.samples_add line).append_right _

/-- Families that can be printed are read without a fault, and all their samples with them. -/
theorem readText_samples {families : List Family} (h : ∀ f ∈ families, Printable f) :
    ∃ found, readText (text families).toList = .ok found ∧
      (found.flatMap (·.samples)).Perm (families.flatMap (·.samples)) := by
  have hlines : Text.lines (text families).toList =
      (families.flatMap familyLines).map Text.unreturned := by
    rw [text, String.toList_ofList, write, Text.lines_flatMap_unreturned]
    intro l hl
    obtain ⟨f, hf, hmem⟩ := List.mem_flatMap.mp hl
    exact (h f hf).newline_not_mem l hmem
  have hreadable : ∀ l ∈ (families.flatMap familyLines).map Text.unreturned, Readable l := by
    intro l hl
    obtain ⟨written, hwritten, rfl⟩ := List.mem_map.mp hl
    obtain ⟨f, hf, hmem⟩ := List.mem_flatMap.mp hwritten
    obtain ⟨line, hline⟩ := (h f hf).readable written hmem
    exact ⟨line, (readLine_unreturned written).trans hline⟩
  have hsamples : ((families.flatMap familyLines).map Text.unreturned).filterMap sampleOn? =
      families.flatMap (·.samples) := by
    have hsame : sampleOn? ∘ Text.unreturned = sampleOn? := by
      funext l
      rw [Function.comp_apply, sampleOn?, sampleOn?, readLine_unreturned]
    rw [List.filterMap_map, hsame, List.filterMap_flatMap]
    exact List.flatMap_congr fun f hf => (h f hf).samplesOn
  obtain ⟨last, hlast, hperm⟩ := readLines_samplesOn hreadable 1 {}
  refine ⟨last.families, ?_, ?_⟩
  · rw [readText, hlines, hlast]
    rfl
  · rwa [hsamples] at hperm

end MetricRelay.Exposition
