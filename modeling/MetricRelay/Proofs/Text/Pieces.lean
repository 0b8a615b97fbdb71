import MetricRelay.Proofs.Text.Cuts

/-!
# What cuts leave

A cut keeps characters of the text in their order. A trimmed text has no blank
at either end, a word has none at all, and no line holds a line feed.
-/

namespace MetricRelay.Text

theorem head_not_of_dropWhile {p : Char → Bool} {cs : List Char} {c : Char}
    (h : (cs.dropWhile p).head? = some c) : p c = false := by
  have hstop := List.head?_dropWhile_not p cs
  rw [h] at hstop
  simpa using hstop

theorem trimEnd_starts (cs : List Char) : trimEnd cs <+: cs := by
  have hsuffix := List.reverse_prefix.mpr (List.dropWhile_suffix isBlank (l := cs.reverse))
  rwa [List.reverse_reverse] at hsuffix

theorem trim_within (cs : List Char) : trim cs <:+: cs :=
  (trimEnd_starts _).isInfix.trans (List.dropWhile_suffix isBlank).isInfix

theorem head?_of_trim {cs : List Char} {c : Char} (h : (trim cs).head? = some c) :
    (trimStart cs).head? = some c := by
  obtain ⟨tail, htail⟩ := trimEnd_starts (trimStart cs)
  rw [← htail, List.head?_append]
  change ((trim cs).head?.or tail.head?) = some c
  rw [h, Option.some_or]

theorem trimmed_trim (cs : List Char) : Trimmed (trim cs) := by
  constructor
  · intro c hc
    exact head_not_of_dropWhile (head?_of_trim hc)
  · intro c hc
    rw [trim, trimEnd, dropEndWhile, List.getLast?_reverse] at hc
    exact head_not_of_dropWhile hc

theorem trim_trim (cs : List Char) : trim (trim cs) = trim cs :=
  trim_of_trimmed (trimmed_trim cs)

theorem solid_word (cs : List Char) : Solid (word cs).1 := by
  intro c hc
  have hall := List.all_takeWhile (p := (!isBlank ·)) (l := cs)
  rw [List.all_eq_true] at hall
  simpa using hall c hc

theorem eq_of_cutAt? {sep : Char} {cs a b : List Char} (h : cutAt? sep cs = some (a, b)) :
    cs = a ++ sep :: b ∧ sep ∉ a := by
  induction cs generalizing a b with
  | nil => simp [cutAt?] at h
  | cons c cs ih =>
    by_cases hc : c = sep
    · obtain ⟨rfl, rfl⟩ : [] = a ∧ cs = b := by simpa [cutAt?, hc] using h
      simp [hc]
    · simp only [cutAt?, hc, if_false, Option.map_eq_some_iff, Prod.mk.injEq, Prod.exists] at h
      obtain ⟨a', b', htail, rfl, rfl⟩ := h
      obtain ⟨rfl, hnot⟩ := ih htail
      exact ⟨rfl, by simp [hnot, Ne.symm hc]⟩

theorem not_mem_of_cutAt? {sep : Char} {cs : List Char} (h : cutAt? sep cs = none) : sep ∉ cs := by
  induction cs with
  | nil => exact List.not_mem_nil
  | cons c cs ih =>
    by_cases hc : c = sep
    · simp [cutAt?, hc] at h
    · simp only [cutAt?, hc, if_false, Option.map_eq_none_iff] at h
      simpa [Ne.symm hc] using ih h

theorem newline_not_mem_of_mem_lines {cs l : List Char} (h : l ∈ lines cs) : '\n' ∉ l := by
  fun_induction lines cs generalizing l with
  | case1 => simp at h
  | case2 cs ih =>
    rcases List.mem_cons.mp h with rfl | htail
    · simp
    · exact ih htail
  | case3 cs ih =>
    rcases List.mem_cons.mp h with rfl | htail
    · simp
    · exact ih htail
  | case4 c cs _ hline hnil ih =>
    obtain rfl := List.mem_singleton.mp h
    simpa using Ne.symm hline
  | case5 c cs _ hline first rest heq ih =>
    rw [heq] at ih
    rcases List.mem_cons.mp h with rfl | htail
    · simp [ih List.mem_cons_self, Ne.symm hline]
    · exact ih (List.mem_cons_of_mem _ htail)

end MetricRelay.Text
