import Mathlib.Data.List.Basic
import MetricRelay.Text.Blank
import MetricRelay.Text.Lines

/-!
# Cutting a text where it was put together

What is written with separators is cut back into its parts: trimming keeps a
text without outer blanks, a word ends at the first blank, and lines come back
as they were when none of them holds a line end.
-/

namespace MetricRelay.Text

def Trimmed (cs : List Char) : Prop :=
  (∀ c, cs.head? = some c → isBlank c = false) ∧
    ∀ c, cs.getLast? = some c → isBlank c = false

def Solid (cs : List Char) : Prop := ∀ c ∈ cs, isBlank c = false

instance (cs : List Char) : Decidable (Solid cs) :=
  decidable_of_iff (cs.all (!isBlank ·) = true) (by simp [Solid])

theorem isBlank_space : isBlank ' ' = true := by decide

/-! ### Trimming -/

theorem trimStart_of_head {cs : List Char}
    (h : ∀ c, cs.head? = some c → isBlank c = false) : trimStart cs = cs := by
  cases cs with
  | nil => rfl
  | cons c cs => simp [trimStart, h c rfl]

theorem trimStart_blank_cons {c : Char} (h : isBlank c = true) (cs : List Char) :
    trimStart (c :: cs) = trimStart cs := by
  simp [trimStart, h]

theorem trimEnd_of_last {cs : List Char}
    (h : ∀ c, cs.getLast? = some c → isBlank c = false) : trimEnd cs = cs := by
  have hrev : cs.reverse.dropWhile isBlank = cs.reverse := by
    apply trimStart_of_head
    intro c hc
    rw [List.head?_reverse] at hc
    exact h c hc
  rw [trimEnd, dropEndWhile, hrev, List.reverse_reverse]

theorem trimEnd_append_blank {c : Char} (h : isBlank c = true) (cs : List Char) :
    trimEnd (cs ++ [c]) = trimEnd cs := by
  simp [trimEnd, dropEndWhile, h]

/-- Trimming stops at a character that is no blank. -/
theorem trimEnd_append {cs : List Char} (h : ∀ c, cs.getLast? = some c → isBlank c = false)
    (ds : List Char) : trimEnd (cs ++ ds) = cs ++ trimEnd ds := by
  have hrev : cs.reverse.dropWhile isBlank = cs.reverse :=
    trimStart_of_head fun c hc => h c (by rwa [List.head?_reverse] at hc)
  rw [trimEnd, trimEnd, dropEndWhile, dropEndWhile, List.reverse_append, List.dropWhile_append]
  split
  · next hnone => rw [List.isEmpty_iff.mp hnone, hrev, List.reverse_reverse]; simp
  · rw [List.reverse_append, List.reverse_reverse]

theorem trim_append_blank {c : Char} (h : isBlank c = true) (cs : List Char) :
    trim (cs ++ [c]) = trim cs := by
  rw [trim, trim, trimStart, trimStart, List.dropWhile_append]
  split
  · next hnone => rw [List.isEmpty_iff.mp hnone, List.dropWhile_cons_of_pos h, List.dropWhile_nil]
  · exact trimEnd_append_blank h _

theorem trim_of_trimmed {cs : List Char} (h : Trimmed cs) : trim cs = cs := by
  rw [trim, trimStart_of_head h.1, trimEnd_of_last h.2]

/-- A text that trimming leaves alone starts with no blank. -/
theorem trimStart_of_trim {cs : List Char} (h : trim cs = cs) : trimStart cs = cs := by
  have hle : cs.length ≤ (trimStart cs).length := by
    have hlen := length_dropEndWhile_le isBlank (trimStart cs)
    have hcs : (trim cs).length = cs.length := by rw [h]
    rw [trim, trimEnd] at hcs
    omega
  exact (List.dropWhile_suffix isBlank).eq_of_length_le hle

theorem head_not_blank_of_trim {cs : List Char} (h : trim cs = cs) {c : Char}
    (hc : cs.head? = some c) : isBlank c = false := by
  have hstart := trimStart_of_trim h
  cases cs with
  | nil => simp at hc
  | cons d cs =>
    obtain rfl : d = c := by simpa using hc
    by_contra hblank
    rw [trimStart_blank_cons (by simpa using hblank)] at hstart
    have hlen := length_trimStart_le cs
    rw [hstart, List.length_cons] at hlen
    omega

theorem Solid.trimmed {cs : List Char} (h : Solid cs) : Trimmed cs :=
  ⟨fun c hc => h c (List.mem_of_mem_head? hc), fun c hc => h c (List.mem_of_getLast? hc)⟩

theorem Solid.append {cs ds : List Char} (hc : Solid cs) (hd : Solid ds) : Solid (cs ++ ds) := by
  intro c hmem
  rcases List.mem_append.mp hmem with left | right
  · exact hc c left
  · exact hd c right

theorem Solid.cons {c : Char} {cs : List Char} (hc : isBlank c = false) (hcs : Solid cs) :
    Solid (c :: cs) := by
  intro d hmem
  rcases List.mem_cons.mp hmem with rfl | tail
  · exact hc
  · exact hcs d tail

theorem solid_nil : Solid [] := by
  intro c hc
  simp at hc

theorem last_of_append {cs ds : List Char} (h : Solid ds) (hne : ds ≠ []) {c : Char}
    (hc : (cs ++ ds).getLast? = some c) : isBlank c = false := by
  rw [List.getLast?_append_of_ne_nil cs hne] at hc
  exact h c (List.mem_of_getLast? hc)

/-! ### Words -/

/-- The text ends here, or a blank follows. -/
def AtBlank (cs : List Char) : Prop := ∀ c, cs.head? = some c → isBlank c = true

theorem takeWhile_append_stop {p : Char → Bool} {cs ds : List Char} (h : ∀ c ∈ cs, p c = true)
    (hd : ∀ c, ds.head? = some c → p c = false) :
    (cs ++ ds).takeWhile p = cs ∧ (cs ++ ds).dropWhile p = ds := by
  rw [List.takeWhile_append_of_pos h, List.dropWhile_append_of_pos h]
  cases ds with
  | nil => simp
  | cons d ds => simp [hd d rfl]

theorem word_append {cs ds : List Char} (h : Solid cs) (hd : AtBlank ds) :
    word (cs ++ ds) = (cs, ds) := by
  have hcs : ∀ c ∈ cs, (!isBlank c) = true := fun c hc => by simp [h c hc]
  have hds : ∀ c, ds.head? = some c → (!isBlank c) = false := fun c hc => by simp [hd c hc]
  have hcut := takeWhile_append_stop hcs hds
  rw [word, hcut.1, hcut.2]

theorem words_append {cs ds : List Char} (h : Solid cs) (hne : cs ≠ []) (hd : AtBlank ds) :
    words (cs ++ ds) = cs :: words ds := by
  induction cs with
  | nil => exact absurd rfl hne
  | cons c cs ih =>
    have hc := h c (by simp)
    have hcs : Solid cs := fun d hmem => h d (List.mem_cons_of_mem c hmem)
    cases cs with
    | nil =>
      cases ds with
      | nil => simp [words.eq_def, hc]
      | cons d ds =>
        have hsplit : words (c :: d :: ds) = [c] :: words (d :: ds) := by
          rw [words.eq_def]
          simp [hc, hd d rfl]
        exact hsplit
    | cons b cs =>
      have hb := hcs b (by simp)
      have htail : words (b :: (cs ++ ds)) = (b :: cs) :: words ds := ih hcs (by simp)
      rw [List.cons_append, List.cons_append, words.eq_def]
      simp [hc, hb, htail]

theorem words_blank_cons {c : Char} (h : isBlank c = true) (cs : List Char) :
    words (c :: cs) = words cs := by
  rw [words.eq_def]
  exact if_pos h

/-! ### Separators -/

theorem cutAt?_append {sep : Char} {cs : List Char} (h : sep ∉ cs) (ds : List Char) :
    cutAt? sep (cs ++ sep :: ds) = some (cs, ds) := by
  induction cs with
  | nil => simp [cutAt?]
  | cons c cs ih =>
    have hc : c ≠ sep := fun he => h (by simp [he])
    have hcs : sep ∉ cs := fun hmem => h (List.mem_cons_of_mem c hmem)
    simp [cutAt?, hc, ih hcs]

theorem splitOn_append {sep : Char} {cs : List Char} (h : sep ∉ cs) (rest : List Char) :
    splitOn sep (cs ++ sep :: rest) = cs :: splitOn sep rest := by
  induction cs with
  | nil => simp [splitOn]
  | cons c cs ih =>
    have hc : c ≠ sep := fun he => h (by simp [he])
    have hcs : sep ∉ cs := fun hmem => h (List.mem_cons_of_mem c hmem)
    rw [List.cons_append, splitOn, if_neg hc, ih hcs]

theorem splitOn_of_not_mem {sep : Char} {cs : List Char} (h : sep ∉ cs) :
    splitOn sep cs = [cs] := by
  induction cs with
  | nil => rfl
  | cons c cs ih =>
    have hc : c ≠ sep := fun he => h (by simp [he])
    have hcs : sep ∉ cs := fun hmem => h (List.mem_cons_of_mem c hmem)
    rw [splitOn, if_neg hc, ih hcs]

theorem splitOn_ne_nil (sep : Char) (cs : List Char) : splitOn sep cs ≠ [] := by
  cases cs with
  | nil => exact List.cons_ne_nil _ _
  | cons c cs =>
    rw [splitOn]
    split
    · exact List.cons_ne_nil _ _
    · split <;> exact List.cons_ne_nil _ _

/-- A separator between two texts keeps their parts apart. -/
theorem splitOn_join (sep : Char) (cs ds : List Char) :
    splitOn sep (cs ++ sep :: ds) = splitOn sep cs ++ splitOn sep ds := by
  induction cs with
  | nil => simp [splitOn]
  | cons c cs ih =>
    rw [List.cons_append, splitOn, splitOn, ih]
    split
    · rw [List.cons_append]
    · cases hparts : splitOn sep cs with
      | nil => exact absurd hparts (splitOn_ne_nil sep cs)
      | cons part parts => simp

theorem splitOn_flatMap {sep : Char} {parts : List (List Char)} (h : ∀ p ∈ parts, sep ∉ p) :
    splitOn sep (parts.flatMap (· ++ [sep])) = parts ++ [[]] := by
  induction parts with
  | nil => rfl
  | cons p ps ih =>
    have htail := ih fun q hq => h q (List.mem_cons_of_mem p hq)
    rw [List.flatMap_cons, List.append_assoc, List.singleton_append,
      splitOn_append (h p (by simp)), htail, List.cons_append]

/-- What can stand on a line of its own. -/
def IsLine (cs : List Char) : Prop := '\n' ∉ cs ∧ cs.getLast? ≠ some '\r'

theorem lines_append {cs : List Char} (h : IsLine cs) (rest : List Char) :
    lines (cs ++ '\n' :: rest) = cs :: lines rest := by
  induction cs with
  | nil => simp [lines]
  | cons c cs ih =>
    have hc : c ≠ '\n' := fun he => h.1 (by simp [he])
    cases cs with
    | nil =>
      have hret : c ≠ '\r' := fun he => h.2 (by simp [he])
      rw [List.singleton_append, lines]
      · simp [lines]
      · intro tail hcr
        exact absurd hcr hret
      · exact hc
    | cons d cs =>
      have hd : d ≠ '\n' := fun he => h.1 (by simp [he])
      have htail : IsLine (d :: cs) :=
        ⟨fun hmem => h.1 (List.mem_cons_of_mem c hmem), by simpa using h.2⟩
      have hlines := ih htail
      rw [List.cons_append] at hlines ⊢
      rw [lines]
      · rw [List.cons_append, hlines]
      · intro tail hcr heq
        exact hd (by simpa using (List.cons.inj heq).1)
      · exact hc

theorem lines_flatMap {ls : List (List Char)} (h : ∀ l ∈ ls, IsLine l) :
    lines (ls.flatMap (· ++ ['\n'])) = ls := by
  induction ls with
  | nil => rfl
  | cons l ls ih =>
    have htail := ih fun l' hl' => h l' (List.mem_cons_of_mem l hl')
    rw [List.flatMap_cons, List.append_assoc, List.singleton_append,
      lines_append (h l (by simp)), htail]

theorem lines_append_return {cs : List Char} (h : '\n' ∉ cs) (rest : List Char) :
    lines (cs ++ '\r' :: '\n' :: rest) = cs :: lines rest := by
  induction cs with
  | nil => simp [lines]
  | cons c cs ih =>
    have hc : c ≠ '\n' := fun he => h (by simp [he])
    have hcs : '\n' ∉ cs := fun hmem => h (List.mem_cons_of_mem c hmem)
    rw [List.cons_append, lines]
    · rw [ih hcs]
    · intro tail _ heq
      cases cs with
      | nil => exact absurd (List.cons.inj heq).1 (by decide)
      | cons d cs => exact hcs (by simp [(List.cons.inj heq).1])
    · exact hc

/-- A line as it is read: a carriage return at its end goes with the line feed. -/
def unreturned (cs : List Char) : List Char :=
  if cs.getLast? = some '\r' then cs.dropLast else cs

theorem unreturned_cases {cs : List Char} (h : '\n' ∉ cs) :
    IsLine cs ∧ unreturned cs = cs ∨ ∃ ds, cs = ds ++ ['\r'] ∧ unreturned cs = ds := by
  by_cases hlast : cs.getLast? = some '\r'
  · obtain ⟨ds, rfl⟩ := List.getLast?_eq_some_iff.mp hlast
    exact Or.inr ⟨ds, rfl, by simp [unreturned]⟩
  · exact Or.inl ⟨⟨h, hlast⟩, if_neg hlast⟩

/-- Lines of any text come back without their carriage returns. -/
theorem lines_flatMap_unreturned {ls : List (List Char)} (h : ∀ l ∈ ls, '\n' ∉ l) :
    lines (ls.flatMap (· ++ ['\n'])) = ls.map unreturned := by
  induction ls with
  | nil => rfl
  | cons l ls ih =>
    have htail := ih fun l' hl' => h l' (List.mem_cons_of_mem l hl')
    have hl := h l List.mem_cons_self
    rw [List.flatMap_cons, List.append_assoc, List.singleton_append, List.map_cons]
    rcases unreturned_cases hl with ⟨hline, hsame⟩ | ⟨ds, rfl, hcut⟩
    · rw [lines_append hline, htail, hsame]
    · have hds : '\n' ∉ ds := fun hmem => hl (List.mem_append_left _ hmem)
      rw [List.append_assoc, List.singleton_append, lines_append_return hds, htail, hcut]

end MetricRelay.Text
