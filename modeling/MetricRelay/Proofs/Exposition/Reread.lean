import MetricRelay.Proofs.Exposition.Legible
import MetricRelay.Proofs.Number.ReadBack

/-!
# Found families written and read once more

Of what the reader has found, reading the written form again loses the blanks at
the start of a help text and nothing else, as long as the names are distinct.
Two families of one name become one.
-/

namespace MetricRelay.Exposition

open Text (isBlank Solid AtBlank trim trimStart)

/-! ### Help texts that start with blanks -/

def isBareBlank (c : Char) : Bool := isBlank c && c != '\n'

/-- What is read of a written help text. -/
def heardText (help : List Char) : List Char := help.dropWhile isBareBlank

theorem startsPlain_iff {help : List Char} : StartsPlain help ↔ heardText help = help := by
  cases help with
  | nil => simp [StartsPlain, heardText]
  | cons c cs =>
    constructor
    · intro h
      have hbare : isBareBlank c = false := by
        cases hblank : isBlank c with
        | false => simp [isBareBlank, hblank]
        | true => simp [isBareBlank, h c rfl hblank]
      simp [heardText, hbare]
    · intro h d hd hblank
      obtain rfl : c = d := by simpa using hd
      by_contra hne
      have hbare : isBareBlank c = true := by simp [isBareBlank, hblank, hne]
      have hlength : (heardText (c :: cs)).length ≤ cs.length := by
        rw [heardText, List.dropWhile_cons_of_pos hbare]
        exact (List.dropWhile_suffix _).length_le
      rw [h, List.length_cons] at hlength
      omega

theorem startsPlain_heardText (help : List Char) : StartsPlain (heardText help) := by
  intro c hc hblank
  have hbare : isBareBlank c = false := Text.head_not_of_dropWhile hc
  rw [isBareBlank, hblank, Bool.true_and] at hbare
  simpa using hbare

theorem endsPlain_heardText {help : List Char} (h : EndsPlain help) :
    EndsPlain (heardText help) := by
  intro c hc
  apply h c
  obtain ⟨lead, hlead⟩ : heardText help <:+ help := List.dropWhile_suffix _
  have hne : heardText help ≠ [] := by
    intro hnil
    simp [hnil] at hc
  rw [← hlead, List.getLast?_append_of_ne_nil _ hne]
  exact hc

theorem writableHelp_heardText {help : List Char} (h : EndsPlain help) :
    WritableHelp (heardText help) :=
  ⟨startsPlain_heardText help, endsPlain_heardText h⟩

/-- Only the part that is heard is not blank. -/
theorem escapeHelp_lead (help : List Char) :
    escapeHelp help = help.takeWhile isBareBlank ++ escapeHelp (heardText help) := by
  induction help with
  | nil => rfl
  | cons c cs ih =>
    by_cases hbare : isBareBlank c = true
    · have hc : isBlank c = true ∧ c ≠ '\n' := by simpa [isBareBlank] using hbare
      have hslash : c ≠ '\\' := by
        rintro rfl
        exact absurd hc.1 (by decide)
      simp only [heardText, List.takeWhile_cons_of_pos hbare, List.dropWhile_cons_of_pos hbare,
        List.cons_append]
      rw [escapeHelp, if_neg hslash, if_neg hc.2, ih, heardText]
    · simp [heardText, List.takeWhile_cons_of_neg hbare, List.dropWhile_cons_of_neg hbare]

theorem trimStart_lead (help rest : List Char) :
    trimStart (help.takeWhile isBareBlank ++ rest) = trimStart rest := by
  have hall := List.all_takeWhile (p := isBareBlank) (l := help)
  rw [List.all_eq_true] at hall
  have hblank : ∀ c ∈ help.takeWhile isBareBlank, isBlank c = true := by
    intro c hc
    have hbare : isBlank c = true ∧ c ≠ '\n' := by simpa [isBareBlank] using hall c hc
    exact hbare.1
  rw [trimStart, List.dropWhile_append_of_pos hblank, trimStart]

/-- A written help text loses the blanks at its start. -/
theorem readLine_writeHelp_heard {name help : String} (hname : Solid name.toList)
    (hne : name.toList ≠ []) (hhelp : EndsPlain help.toList) :
    readLine (writeHelp name help) = .ok (.help name (String.ofList (heardText help.toList))) := by
  have hlast := last_of_escapeHelp hhelp
  by_cases hempty : escapeHelp help.toList = []
  · have hnil : help.toList = [] := by
      have hread := unescapeHelp_escapeHelp help.toList
      rw [hempty] at hread
      exact hread.symm
    have hwritable : WritableHelp help.toList := by
      rw [hnil]
      exact ⟨by simp, by simp⟩
    have hsame : String.ofList (heardText help.toList) = help := by
      rw [startsPlain_iff.mp hwritable.head, String.ofList_toList]
    rw [hsame]
    exact readLine_writeHelp hname hne hwritable
  · have hshape : writeHelp name help =
        '#' :: (' ' :: ("HELP".toList ++ ' ' :: (name.toList ++ ' ' :: escapeHelp help.toList))) :=
      rfl
    have htrim : trim (writeHelp name help) = writeHelp name help := by
      refine Text.trim_of_trimmed ⟨?_, ?_⟩
      · intro c hc
        obtain rfl : '#' = c := by simpa [hshape] using hc
        decide
      · intro c hc
        have hsplit : writeHelp name help =
            (helpMark ++ name.toList ++ [' ']) ++ escapeHelp help.toList := by
          simp [writeHelp]
        rw [hsplit, List.getLast?_append_of_ne_nil _ hempty] at hc
        exact hlast c hc
    have hblank : AtBlank (' ' :: escapeHelp help.toList) := by
      intro c hc
      obtain rfl : ' ' = c := by simpa using hc
      exact Text.isBlank_space
    have htext : trim (escapeHelp help.toList) = escapeHelp (heardText help.toList) := by
      have htrimmed := trimmed_escapeHelp (writableHelp_heardText hhelp)
      rw [escapeHelp_lead, trim, trimStart_lead, ← trim]
      exact Text.trim_of_trimmed htrimmed
    rw [readLine_comment (htrim.trans hshape), readComment_written (Or.inl rfl) hname hne hblank,
      if_pos rfl, List.drop_one, List.tail_cons, htext, unescapeHelp_escapeHelp]

/-! ### Families -/

def heard (f : Family) : Family :=
  { f with help := f.help.map fun help => String.ofList (heardText help.toList) }

theorem heard_eq_self_iff {f : Family} :
    heard f = f ↔ ∀ help, f.help = some help → StartsPlain help.toList := by
  obtain ⟨name, help, kind, samples⟩ := f
  cases help with
  | none => simp [heard]
  | some help =>
    simp only [heard, Option.map_some, Family.mk.injEq, Option.some.injEq, and_true, true_and,
      forall_eq']
    rw [startsPlain_iff]
    constructor
    · intro h
      have hlist := congrArg String.toList h
      rwa [String.toList_ofList] at hlist
    · intro h
      rw [h, String.ofList_toList]

theorem Legible.name_toList_ne {f : Family} (h : Legible f) : f.name.toList ≠ [] := by
  intro hnil
  exact h.name.1 (String.toList_eq_nil_iff.mp hnil)

theorem Legible.writable_heard {f : Family} (h : Legible f) : WritableFamily (heard f) where
  name_ne := h.name.1
  name_solid := h.name.2
  help help hhelp := by
    obtain ⟨own, hown, rfl⟩ := Option.map_eq_some_iff.mp hhelp
    rw [String.toList_ofList]
    exact writableHelp_heardText (h.help own hown)
  owned := h.owned
  no_brace s hs := (h.samples s hs).no_brace
  no_hash s hs := (h.samples s hs).no_hash
  labels s hs := (h.samples s hs).labels
  timestamp s hs := (h.samples s hs).timestamp

/-- A family and what is heard of it are written in lines that say the same. -/
theorem readLine_familyLines {f : Family} (h : Legible f) :
    (familyLines f).map readLine = (familyLines (heard f)).map readLine := by
  cases hhelp : f.help with
  | none => simp [familyLines, heard, hhelp]
  | some help =>
    have hwritten := readLine_writeHelp_heard h.name.2 h.name_toList_ne (h.help help hhelp)
    have hheard := readLine_writeHelp h.name.2 h.name_toList_ne
      (h.writable_heard.help (String.ofList (heardText help.toList)) (by simp [heard, hhelp]))
    simp [familyLines, heard, hhelp, hwritten, hheard]

theorem readLines_congr {ls ls' : List (List Char)} (h : ls.map readLine = ls'.map readLine)
    (n : Nat) (r : Reading) : readLines n r ls = readLines n r ls' := by
  induction ls generalizing ls' n r with
  | nil =>
    obtain rfl : ls' = [] := by simpa using h.symm
    rfl
  | cons l ls ih =>
    cases ls' with
    | nil => simp at h
    | cons l' ls' =>
      obtain ⟨hfirst, hrest⟩ := List.cons.inj h
      rw [readLines, readLines, hfirst]
      split
      · rfl
      · exact ih hrest _ _

/-- Written and read again, found families with distinct names are what is heard of them. -/
theorem readText_text_heard {families : List Family} (h : ∀ f ∈ families, Legible f)
    (hnames : (families.map (·.name)).Nodup) :
    readText (text families).toList = .ok (families.map heard) := by
  have hlines : Text.lines (text families).toList = families.flatMap familyLines := by
    rw [text, String.toList_ofList, write, Text.lines_flatMap]
    intro l hl
    obtain ⟨f, hf, hmem⟩ := List.mem_flatMap.mp hl
    have hf := h f hf
    exact isLine_of_mem_familyLines hf.name.2 hf.help hf.samples l hmem
  have hsame : (families.flatMap familyLines).map readLine =
      ((families.map heard).flatMap familyLines).map readLine := by
    rw [List.map_flatMap, List.map_flatMap, List.flatMap_map]
    exact List.flatMap_congr fun f hf => readLine_familyLines (h f hf)
  have hwritable : ∀ f ∈ families.map heard, WritableFamily f := by
    intro f hf
    obtain ⟨own, hown, rfl⟩ := List.mem_map.mp hf
    exact (h own hown).writable_heard
  have hread : ∀ f ∈ families.map heard, ∀ s ∈ f.samples,
      Number.read? (Number.valueText s.value).toList = some s.value :=
    fun _ _ s _ => Number.read?_valueText s.value
  have hstart : (([] ++ families.map heard).map Family.name).Nodup := by
    rw [List.nil_append, List.map_map]
    exact hnames
  obtain ⟨last, hlast⟩ := readLines_families hwritable hread hstart none 1
  rw [readText, hlines, readLines_congr hsame, hlast]
  rfl

/-- So found families survive exactly if their names are distinct and no help text starts with a
blank. -/
theorem readText_text_iff {families : List Family} (h : ∀ f ∈ families, Legible f) :
    readText (text families).toList = .ok families ↔
      (families.map (·.name)).Nodup ∧
        ∀ f ∈ families, ∀ help, f.help = some help → StartsPlain help.toList := by
  constructor
  · intro hread
    have hnames := (legible_of_readText hread).2
    rw [readText_text_heard h hnames] at hread
    have hsame : families.map heard = families.map id := by
      rw [List.map_id]
      exact Except.ok.inj hread
    exact ⟨hnames, fun f hf => heard_eq_self_iff.mp (List.map_inj_left.mp hsame f hf)⟩
  · rintro ⟨hnames, hhelp⟩
    rw [readText_text_heard h hnames]
    have hsame : families.map heard = families.map id :=
      List.map_inj_left.mpr fun f hf => heard_eq_self_iff.mpr (hhelp f hf)
    rw [hsame, List.map_id]

end MetricRelay.Exposition
