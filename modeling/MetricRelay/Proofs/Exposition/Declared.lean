import MetricRelay.Proofs.Exposition.Legible

/-!
# The families that a text declares

Every family is declared on a `TYPE` line of its own. Names and label values
cannot put another one into the text, as long as they stand on one line and no
sample starts as a comment.
-/

namespace MetricRelay.Exposition

open Text (Solid)

def declaredOn? (line : List Char) : Option String :=
  if typeMark.isPrefixOf line then
    some (String.ofList (Text.word (line.drop typeMark.length)).1)
  else none

/-- The families that a text declares, one for each `TYPE` line. -/
def declared (text : String) : List String :=
  (Text.splitOn '\n' text.toList).filterMap declaredOn?

theorem declaredOn?_writeKind {name : String} (h : Solid name.toList) (kind : MetricKind) :
    declaredOn? (writeKind name kind) = some name := by
  have hmark : typeMark.isPrefixOf (writeKind name kind) = true := by
    rw [writeKind, List.append_assoc, List.isPrefixOf_iff_prefix]
    exact List.prefix_append ..
  have hblank : Text.AtBlank (' ' :: kind.text.toList) := by
    intro c hc
    obtain rfl : ' ' = c := by simpa using hc
    decide
  rw [declaredOn?, if_pos hmark, writeKind, List.append_assoc, List.drop_left,
    Text.word_append h hblank, String.ofList_toList]

theorem declaredOn?_writeSample {s : Sample} (h : WritableSample s) :
    declaredOn? (writeSample s) = none := by
  have hmark : typeMark = '#' :: " TYPE ".toList := rfl
  obtain ⟨c, cs, hname⟩ := List.exists_cons_of_ne_nil h.name_ne
  have hhash : c ≠ '#' := by
    rintro rfl
    exact h.no_hash (by rw [hname]; rfl)
  rw [declaredOn?, writeSample, hname, hmark, if_neg]
  simp [Ne.symm hhash]

structure Printable (f : Family) : Prop where
  name_ne : f.name.toList ≠ []
  name : Solid f.name.toList
  samples : ∀ s ∈ f.samples, WritableSample s

theorem Legible.printable {f : Family} (h : Legible f) : Printable f :=
  ⟨fun hnil => h.name.1 (String.toList_eq_nil_iff.mp hnil), h.name.2, h.samples⟩

theorem Printable.newline_not_mem {f : Family} (h : Printable f) :
    ∀ l ∈ familyLines f, '\n' ∉ l := by
  intro l hl
  rw [familyLines, List.mem_append, List.mem_cons, List.mem_map] at hl
  rcases hl with htext | rfl | ⟨s, hs, rfl⟩
  · cases hown : f.help with
    | none => simp [hown] at htext
    | some help =>
      obtain rfl : l = writeHelp f.name help := by simpa [hown] using htext
      exact newline_not_mem_writeHelp h.name help
  · exact (isLine_writeKind f.kind h.name).1
  · exact (isLine_writeSample (h.samples s hs)).1

/-- A family declares itself once, and nothing else. -/
theorem declared_familyLines {f : Family} (h : Printable f) :
    (familyLines f).filterMap declaredOn? = [f.name] := by
  have hsamples : (f.samples.map writeSample).filterMap declaredOn? = [] := by
    rw [List.filterMap_eq_nil_iff]
    intro l hl
    obtain ⟨s, hs, rfl⟩ := List.mem_map.mp hl
    exact declaredOn?_writeSample (h.samples s hs)
  rw [familyLines, List.filterMap_append, List.filterMap_cons,
    declaredOn?_writeKind h.name, hsamples]
  cases f.help with
  | none => rfl
  | some help => rfl

/-- A text declares the families that it was written from. -/
theorem declared_text {families : List Family} (h : ∀ f ∈ families, Printable f) :
    declared (text families) = families.map (·.name) := by
  have hlines : Text.splitOn '\n' (text families).toList =
      families.flatMap familyLines ++ [[]] := by
    rw [text, String.toList_ofList, write, Text.splitOn_flatMap]
    intro l hl
    obtain ⟨f, hf, hmem⟩ := List.mem_flatMap.mp hl
    exact (h f hf).newline_not_mem l hmem
  have hnames : (families.flatMap familyLines).filterMap declaredOn? = families.map (·.name) := by
    rw [List.filterMap_flatMap, ← List.flatMap_singleton' (families.map (·.name)), List.flatMap_map]
    exact List.flatMap_congr fun f hf => declared_familyLines (h f hf)
  rw [declared, hlines, List.filterMap_append, hnames]
  exact List.append_nil _

theorem text_append (fs gs : List Family) : text (fs ++ gs) = text fs ++ text gs := by
  rw [text, text, text, ← String.ofList_append, write, write, write, List.flatMap_append,
    List.flatMap_append]

end MetricRelay.Exposition
