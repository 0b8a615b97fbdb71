import Mathlib.Data.List.Induction
import MetricRelay.Proofs.Exposition.Samples

/-!
# What a text is gathered into

Every line that says something belongs to one family: a comment to the one that it
names, a sample to the one of the line before if that one owns it, and otherwise to
the one of its own name. A text is read as these families in order of first
appearance, each with its samples in line order and with what its last comments say.
-/

namespace MetricRelay.Exposition

open Text (trim)

/-! ### Lines and their families -/

namespace Line

def help? : Line → Option String
  | .help _ text => some text
  | .nothing | .kind .. | .sample _ => none

def kind? : Line → Option MetricKind
  | .kind _ k => some k
  | .nothing | .help .. | .sample _ => none

def helpFor? (name : String) : Line → Option String
  | .help own text => if own = name then some text else none
  | .nothing | .kind .. | .sample _ => none

def kindFor? (name : String) : Line → Option MetricKind
  | .kind own k => if own = name then some k else none
  | .nothing | .help .. | .sample _ => none

/-- The family that a line belongs to, after a line of the family `current`. -/
def family? (current : Option String) : Line → Option String
  | .nothing => none
  | .help name _ => some name
  | .kind name _ => some name
  | .sample s => some (Reading.home { current } s.name)

def change : Line → Family → Family
  | .nothing => id
  | .help _ text => fun f => { f with help := some text }
  | .kind _ k => fun f => { f with kind := k }
  | .sample s => fun f => { f with samples := f.samples ++ [s] }

end Line

/-- The lines that belong to families, each with the name of its family. -/
def filed (current : Option String) : List Line → List (String × Line)
  | [] => []
  | line :: lines =>
    match line.family? current with
    | none => filed current lines
    | some name => (name, line) :: filed (some name) lines

variable {α : Type}

def about (name : String) (get : Line → Option α) (entry : String × Line) : Option α :=
  if entry.1 = name then get entry.2 else none

/-- The family that the lines filed under its name make. -/
def familyOf (entries : List (String × Line)) (name : String) : Family where
  name
  help := (entries.filterMap (about name Line.help?)).getLast?
  kind := (entries.filterMap (about name Line.kind?)).getLast?.getD .untyped
  samples := entries.filterMap (about name Line.sample?)

/-- The families of some filed lines, in order of first appearance. -/
def gathered (entries : List (String × Line)) : List Family :=
  (entries.map (·.1)).eraseDups.map (familyOf entries)

/-! ### One more line -/

theorem eraseDups_concat (names : List String) (name : String) :
    (names ++ [name]).eraseDups =
      if name ∈ names then names.eraseDups else names.eraseDups ++ [name] := by
  rw [List.eraseDups_append]
  by_cases h : name ∈ names
  · simp [List.removeAll, h]
  · simp [List.removeAll, h, List.eraseDups_cons]

theorem nodup_eraseDups (names : List String) : names.eraseDups.Nodup := by
  induction names using List.reverseRecOn with
  | nil => exact List.nodup_nil
  | append_singleton names name ih =>
    rw [eraseDups_concat]
    split
    · exact ih
    · next hnew =>
      rw [← List.concat_eq_append]
      exact ih.concat (mt List.mem_eraseDups.mp hnew)

/-- Changing a family in a list of families that are told apart by their names. -/
theorem withFamily_map {names : List String} (h : names.Nodup) {g : String → Family}
    (hg : ∀ n, (g n).name = n) (name : String) (f : Family → Family) :
    withFamily name f (names.map g) =
      if name ∈ names then names.map fun n => if n = name then f (g n) else g n
      else names.map g ++ [f { name }] := by
  by_cases hmem : name ∈ names
  · rw [if_pos hmem]
    induction names with
    | nil => cases hmem
    | cons n rest ih =>
      obtain ⟨hn, hrest⟩ := List.nodup_cons.mp h
      rw [List.map_cons, withFamily, List.map_cons, hg]
      by_cases hname : n = name
      · subst hname
        have hsame : (rest.map fun m => if m = n then f (g m) else g m) = rest.map g := by
          apply List.map_congr_left
          intro m hm
          have hne : m ≠ n := by
            rintro rfl
            exact hn hm
          exact if_neg hne
        rw [if_pos rfl, if_pos rfl, hsame]
      · have htail : name ∈ rest := (List.mem_cons.mp hmem).resolve_left (Ne.symm hname)
        rw [if_neg hname, if_neg hname, ih hrest htail]
  · have hnames : (names.map g).map (·.name) = names := by
      rw [List.map_map]
      exact (List.map_congr_left fun n _ => hg n).trans (List.map_id names)
    rw [if_neg hmem]
    apply withFamily_new
    rwa [hnames]

theorem familyOf_of_not_mem {entries : List (String × Line)} {name : String}
    (h : name ∉ entries.map (·.1)) : familyOf entries name = { name } := by
  have hnone {β : Type} (get : Line → Option β) : entries.filterMap (about name get) = [] := by
    apply List.filterMap_eq_nil_iff.mpr
    intro entry hentry
    apply if_neg
    rintro rfl
    exact h (List.mem_map_of_mem hentry)
  simp [familyOf, hnone]

theorem familyOf_concat (entries : List (String × Line)) (name : String) (line : Line)
    (other : String) : familyOf (entries ++ [(name, line)]) other =
      if other = name then line.change (familyOf entries other) else familyOf entries other := by
  by_cases h : other = name
  · subst h
    cases line <;>
      simp [familyOf, about, Line.change, Line.help?, Line.kind?, Line.sample?]
  · have hother {β : Type} (get : Line → Option β) : about other get (name, line) = none :=
      if_neg (Ne.symm h)
    simp [familyOf, hother, h]

/-- A line changes its family as one more entry does. -/
theorem withFamily_gathered (entries : List (String × Line)) (name : String) (line : Line) :
    withFamily name line.change (gathered entries) = gathered (entries ++ [(name, line)]) := by
  have hnames : (entries ++ [(name, line)]).map (·.1) = entries.map (·.1) ++ [name] := by simp
  rw [gathered, withFamily_map (nodup_eraseDups _) (fun _ => rfl), gathered, hnames,
    eraseDups_concat]
  simp only [List.mem_eraseDups]
  split
  · apply List.map_congr_left
    intro other _
    exact (familyOf_concat entries name line other).symm
  · next hnew =>
    rw [List.map_append, List.map_singleton, familyOf_concat, if_pos rfl,
      familyOf_of_not_mem hnew]
    congr 1
    apply List.map_congr_left
    intro other hother
    have hne : other ≠ name := by
      rintro rfl
      exact hnew (List.mem_eraseDups.mp hother)
    rw [familyOf_concat, if_neg hne]

namespace Reading

theorem add_of_none {r : Reading} {line : Line} (h : line.family? r.current = none) :
    r.add line = r := by
  cases line with
  | nothing => rfl
  | help | kind | sample => cases h

theorem add_of_some {r : Reading} {line : Line} {name : String}
    (h : line.family? r.current = some name) : r.add line = r.update name line.change := by
  cases line with
  | nothing => cases h
  | help own text =>
    obtain rfl := Option.some.inj h
    rfl
  | kind own kind =>
    obtain rfl := Option.some.inj h
    rfl
  | sample s =>
    obtain rfl := Option.some.inj h
    rfl

end Reading

/-! ### All lines -/

/-- Lines are read exactly if every one of them says something. -/
theorem readLines_iff {n : ℕ} {r last : Reading} {ls : List (List Char)} :
    readLines n r ls = .ok last ↔
      ∃ said : List Line, ls.map readLine = said.map .ok ∧ said.foldl Reading.add r = last := by
  induction ls generalizing n r with
  | nil => simp [readLines]
  | cons l ls ih =>
    cases hread : readLine l with
    | error fault =>
      rw [readLines, hread]
      constructor
      · rintro ⟨⟩
      · rintro ⟨said, hsaid, -⟩
        obtain ⟨line, rest, -, hline, -⟩ := List.map_eq_cons_iff.mp hsaid.symm
        rw [hread] at hline
        cases hline
    | ok line =>
      rw [readLines_cons hread, ih]
      constructor
      · rintro ⟨said, hsaid, hlast⟩
        exact ⟨line :: said, by simp [hread, hsaid], hlast⟩
      · rintro ⟨said, hsaid, hlast⟩
        obtain ⟨own, rest, rfl, hown, hrest⟩ := List.map_eq_cons_iff.mp hsaid.symm
        obtain rfl := Except.ok.inj (hown.trans hread)
        exact ⟨rest, hrest.symm, hlast⟩

/-- What is read further on is filed after what was filed before. -/
theorem foldl_add_gathered (entries : List (String × Line)) (said : List Line) {r : Reading}
    (h : r.families = gathered entries) :
    (said.foldl Reading.add r).families = gathered (entries ++ filed r.current said) := by
  induction said generalizing entries r with
  | nil => rw [filed, List.append_nil, List.foldl_nil, h]
  | cons line said ih =>
    rw [List.foldl_cons, filed]
    cases hfamily : line.family? r.current with
    | none =>
      rw [Reading.add_of_none hfamily]
      exact ih entries h
    | some name =>
      have hone : (r.add line).families = gathered (entries ++ [(name, line)]) := by
        rw [Reading.add_of_some hfamily, Reading.update, h, withFamily_gathered]
      have hcurrent : (r.add line).current = some name := by
        rw [Reading.add_of_some hfamily, Reading.update]
      rw [ih _ hone, hcurrent, List.append_assoc, List.singleton_append]

/-- A text is read exactly if every line of it is, and then gathered into its families. -/
theorem readText_iff {text : List Char} {families : List Family} :
    readText text = .ok families ↔
      ∃ said : List Line, (Text.lines text).map readLine = said.map .ok ∧
        families = gathered (filed none said) := by
  have hfold (said : List Line) :
      (said.foldl Reading.add {}).families = gathered (filed none said) :=
    foldl_add_gathered [] said (r := {}) rfl
  constructor
  · intro h
    cases hread : readLines 1 {} (Text.lines text) with
    | error fault =>
      rw [readText, hread] at h
      cases h
    | ok last =>
      rw [readText, hread] at h
      obtain rfl := Except.ok.inj h
      obtain ⟨said, hsaid, rfl⟩ := readLines_iff.mp hread
      exact ⟨said, hsaid, hfold said⟩
  · rintro ⟨said, hsaid, rfl⟩
    rw [readText, readLines_iff.mpr ⟨said, hsaid, rfl⟩, ← hfold]
    rfl

/-! ### Comments and samples -/

/-- A line of a family that speaks about no other one is filed under its name. -/
theorem filterMap_about {name : String} {get getFor : Line → Option α}
    (hnothing : getFor .nothing = none)
    (hown : ∀ current line own, Line.family? current line = some own →
      about name get (own, line) = getFor line)
    (current : Option String) (said : List Line) :
    (filed current said).filterMap (about name get) = said.filterMap getFor := by
  induction said generalizing current with
  | nil => rfl
  | cons line said ih =>
    rw [filed]
    cases hfamily : line.family? current with
    | none =>
      have hline : getFor line = none := by
        cases line with
        | nothing => exact hnothing
        | help | kind | sample => cases hfamily
      rw [List.filterMap_cons_none hline]
      exact ih current
    | some own =>
      rw [List.filterMap_cons, List.filterMap_cons, hown current line own hfamily, ih]

theorem help_filed (name : String) (current : Option String) (said : List Line) :
    (filed current said).filterMap (about name Line.help?) =
      said.filterMap (Line.helpFor? name) := by
  apply filterMap_about rfl
  intro current line own h
  cases line with
  | help =>
    obtain rfl := Option.some.inj h
    rfl
  | nothing | kind | sample => exact ite_self none

theorem kind_filed (name : String) (current : Option String) (said : List Line) :
    (filed current said).filterMap (about name Line.kind?) =
      said.filterMap (Line.kindFor? name) := by
  apply filterMap_about rfl
  intro current line own h
  cases line with
  | kind =>
    obtain rfl := Option.some.inj h
    rfl
  | nothing | help | sample => exact ite_self none

/-- The samples filed under a name stand in line order. -/
theorem samples_filed_sublist (name : String) (current : Option String) (said : List Line) :
    ((filed current said).filterMap (about name Line.sample?)).Sublist
      (said.filterMap Line.sample?) := by
  induction said generalizing current with
  | nil => exact List.Sublist.refl _
  | cons line said ih =>
    have hskip (next : Option String) :
        ((filed next said).filterMap (about name Line.sample?)).Sublist
          ((line :: said).filterMap Line.sample?) :=
      (ih next).trans ((List.sublist_cons_self line said).filterMap _)
    rw [filed]
    cases line.family? current with
    | none => exact hskip current
    | some own =>
      dsimp only
      by_cases hown : own = name
      · have hsame : about name Line.sample? (own, line) = line.sample? := if_pos hown
        cases hsample : line.sample? with
        | none =>
          rw [List.filterMap_cons_none (hsame.trans hsample)]
          exact hskip _
        | some s =>
          rw [List.filterMap_cons_some (hsame.trans hsample), List.filterMap_cons_some hsample]
          exact (ih _).cons_cons s
      · have hother : about name Line.sample? (own, line) = none := if_neg hown
        rw [List.filterMap_cons_none hother]
        exact hskip _

/-- A trimmed line that is neither empty nor a comment. -/
def isSampleLine (l : List Char) : Bool := l != [] && l.head? != some '#'

def sampleLines (text : List Char) : List (List Char) :=
  ((Text.lines text).map trim).filter isSampleLine

/-- A line says a sample exactly if it is no comment and not blank, and then the one that is read
from it. -/
theorem sample_of_readLine {raw : List Char} {line : Line} (h : readLine raw = .ok line) :
    if isSampleLine (trim raw) then ∃ s, readSample (trim raw) = .ok s ∧ line = .sample s
    else line.sample? = none := by
  rw [readLine] at h
  split at h
  · next hblank =>
    obtain rfl := Except.ok.inj h
    rw [hblank]
    rfl
  · next cs hcomment =>
    rw [hcomment]
    rw [readComment] at h
    dsimp only at h
    split at h
    · split at h
      · cases h
      · split at h
        · obtain rfl := Except.ok.inj h
          rfl
        · obtain rfl := Except.ok.inj h
          rfl
    · obtain rfl := Except.ok.inj h
      rfl
  · next hblank hcomment =>
    have hline : isSampleLine (trim raw) = true := by
      cases htrim : trim raw with
      | nil => exact absurd htrim hblank
      | cons c cs =>
        have hhash : c ≠ '#' := by
          rintro rfl
          exact hcomment cs htrim
        simp [isSampleLine, hhash]
    rw [if_pos hline]
    cases hread : readSample (trim raw) with
    | error fault =>
      rw [hread] at h
      cases h
    | ok s =>
      rw [hread] at h
      exact ⟨s, rfl, (Except.ok.inj h).symm⟩

/-- The samples of a text are read from its sample lines, one from each. -/
theorem readSample_sampleLines {ls : List (List Char)} {said : List Line}
    (h : ls.map readLine = said.map .ok) :
    ((ls.map trim).filter isSampleLine).map readSample =
      (said.filterMap Line.sample?).map .ok := by
  induction ls generalizing said with
  | nil =>
    obtain rfl : said = [] := by simpa using h.symm
    rfl
  | cons l ls ih =>
    cases said with
    | nil => simp at h
    | cons line said =>
      obtain ⟨hfirst, hrest⟩ := List.cons.inj h
      have hsample := sample_of_readLine hfirst
      rw [List.map_cons]
      by_cases hline : isSampleLine (trim l) = true
      · rw [if_pos hline] at hsample
        obtain ⟨s, hread, rfl⟩ := hsample
        rw [List.filter_cons_of_pos hline, List.map_cons, hread, ih hrest,
          List.filterMap_cons_some (show Line.sample? (.sample s) = some s from rfl),
          List.map_cons]
      · rw [if_neg hline] at hsample
        rw [List.filter_cons_of_neg hline, ih hrest, List.filterMap_cons_none hsample]

/-- All samples are gathered, each once. -/
theorem samples_gathered (said : List Line) :
    ((gathered (filed none said)).flatMap (·.samples)).Perm (said.filterMap Line.sample?) := by
  have hfold : ∀ (lines : List Line) (r : Reading),
      ((lines.foldl Reading.add r).families.flatMap (·.samples)).Perm
        (r.families.flatMap (·.samples) ++ lines.filterMap Line.sample?) := by
    intro lines
    induction lines with
    | nil => simp
    | cons line lines ih =>
      intro r
      have hfirst : (line :: lines).filterMap Line.sample? =
          line.sample?.toList ++ lines.filterMap Line.sample? := by
        rw [List.filterMap_cons]
        cases line.sample? <;> rfl
      rw [List.foldl_cons, hfirst, ← List.append_assoc]
      exact (ih _).trans ((r.samples_add line).append_right _)
  have hall := hfold said {}
  rwa [foldl_add_gathered [] said (r := {}) rfl] at hall

/-! ### The families of a text -/

/-- How the families of a text follow from what its lines say. -/
structure Gathers (text : List Char) (said : List Line) (read : List Sample)
    (families : List Family) : Prop where
  said_eq : (Text.lines text).map readLine = said.map .ok
  read_eq : (sampleLines text).map readSample = read.map .ok
  nodup : (families.map (·.name)).Nodup
  names : families.map (·.name) = ((filed none said).map (·.1)).eraseDups
  all : (families.flatMap (·.samples)).Perm read
  owned : ∀ f ∈ families, ∀ s ∈ f.samples, f.owns s.name = true
  filed : ∀ f ∈ families, f.samples = (filed none said).filterMap (about f.name Line.sample?)
  order : ∀ f ∈ families, f.samples.Sublist read
  help : ∀ f ∈ families, f.help = (said.filterMap (Line.helpFor? f.name)).getLast?
  kind : ∀ f ∈ families,
    f.kind = (said.filterMap (Line.kindFor? f.name)).getLast?.getD .untyped

/-- A text that is read is gathered into families: they stand in order of first appearance under
distinct names, and own their samples; these are read from the lines that are neither blank nor
comments, one from each, and stay in line order; help and kind are what the last comments say. -/
theorem readText_gathers {text : List Char} {families : List Family}
    (h : readText text = .ok families) : ∃ said samples, Gathers text said samples families := by
  obtain ⟨hlegible, hnodup⟩ := legible_of_readText h
  obtain ⟨said, hsaid, rfl⟩ := readText_iff.mp h
  have hfamily : ∀ f ∈ gathered (filed none said), f = familyOf (filed none said) f.name := by
    intro f hf
    obtain ⟨name, -, rfl⟩ := List.mem_map.mp hf
    rfl
  refine ⟨said, said.filterMap Line.sample?, ?_⟩
  constructor
  · exact hsaid
  · exact readSample_sampleLines hsaid
  · exact hnodup
  · rw [gathered, List.map_map]
    exact List.map_id _
  · exact samples_gathered said
  · exact fun f hf => (hlegible f hf).owned
  · intro f hf
    rw [hfamily f hf]
    rfl
  · intro f hf
    rw [hfamily f hf]
    exact samples_filed_sublist f.name none said
  · intro f hf
    rw [hfamily f hf]
    exact congrArg List.getLast? (help_filed f.name none said)
  · intro f hf
    rw [hfamily f hf]
    exact congrArg (·.getLast?.getD .untyped) (kind_filed f.name none said)

def scatteredText : List Char :=
  "a_sum 1\n# TYPE a summary\na_sum 2\nb 1\n# HELP a x\n# HELP a y\na 3\n".toList

/-- The first sample came before the family that would own it. -/
def scatteredFamilies : List Family := [
  { name := "a_sum", samples := [⟨"a_sum", [], 1.0, none⟩] },
  { name := "a"
    help := some "y"
    kind := .summary
    samples := [⟨"a_sum", [], 2.0, none⟩, ⟨"a", [], 3.0, none⟩] },
  { name := "b", samples := [⟨"b", [], 1.0, none⟩] }]

theorem readText_gathers_scattered : readText scatteredText = .ok scatteredFamilies ∧
    ∃ said samples, Gathers scatteredText said samples scatteredFamilies := by
  have hread : readText scatteredText = .ok scatteredFamilies := rfl
  exact ⟨hread, readText_gathers hread⟩

end MetricRelay.Exposition
