import Mathlib.Data.List.DropRight
import MetricRelay.Proofs.Text.Pieces
import MetricRelay.Url

/-!
# Slashes at the ends of a text

A text is cut once into slashes and what they surround: what is left of it ends,
or starts, with none, and nothing but slashes has gone.
-/

namespace MetricRelay.Url

variable {cs ds : List Char}

theorem isSlash_iff {c : Char} : isSlash c = true ↔ c = '/' := beq_iff_eq

theorem dropLeading_eq_nil_iff : dropLeading cs = [] ↔ ∀ c ∈ cs, c = '/' := by
  simp only [dropLeading, List.dropWhile_eq_nil_iff, isSlash_iff]

theorem dropTrailing_eq_nil_iff : dropTrailing cs = [] ↔ ∀ c ∈ cs, c = '/' := by
  have hnil := List.rdropWhile_eq_nil_iff (p := isSlash) (l := cs)
  simp only [isSlash_iff] at hnil
  exact hnil

theorem head?_dropLeading (cs : List Char) : (dropLeading cs).head? ≠ some '/' :=
  fun h => absurd (Text.head_not_of_dropWhile h) (by decide)

theorem getLast?_dropTrailing (cs : List Char) : (dropTrailing cs).getLast? ≠ some '/' := by
  rw [dropTrailing, Text.dropEndWhile, List.getLast?_reverse]
  exact head?_dropLeading cs.reverse

/-! ### Joined texts -/

theorem joinChars_of_slashes (h : dropLeading ds = []) : joinChars cs ds = cs := by
  rw [joinChars, h]

theorem joinChars_of_ne (h : dropLeading ds ≠ []) :
    joinChars cs ds = dropTrailing cs ++ '/' :: dropLeading ds := by
  rw [joinChars]
  split
  · next hnil => exact absurd hnil h
  · next c rest hcons => rw [hcons]

/-! ### What the slashes surround -/

/-- Slashes before a text that starts with none. -/
theorem dropLeading_append (h : cs.head? ≠ some '/') (n : ℕ) :
    dropLeading (List.replicate n '/' ++ cs) = cs := by
  rw [dropLeading, List.dropWhile_append_of_pos]
  · cases cs with
    | nil => rfl
    | cons c cs => exact List.dropWhile_cons_of_neg fun hc => h (isSlash_iff.mp hc ▸ rfl)
  · intro c hc
    exact isSlash_iff.mpr (List.eq_of_mem_replicate hc)

/-- Slashes behind a text that ends with none. -/
theorem dropTrailing_append (h : cs.getLast? ≠ some '/') (n : ℕ) :
    dropTrailing (cs ++ List.replicate n '/') = cs := by
  rw [← List.head?_reverse] at h
  rw [dropTrailing, Text.dropEndWhile, List.reverse_append, List.reverse_replicate]
  exact (congrArg List.reverse (dropLeading_append h n)).trans cs.reverse_reverse

theorem exists_leading (cs : List Char) : ∃ n, cs = List.replicate n '/' ++ dropLeading cs := by
  refine ⟨(cs.takeWhile isSlash).length, ?_⟩
  have hslashes : cs.takeWhile isSlash = List.replicate (cs.takeWhile isSlash).length '/' :=
    List.eq_replicate_of_mem fun c hc =>
      isSlash_iff.mp (List.all_eq_true.mp List.all_takeWhile c hc)
  rw [← hslashes]
  exact List.takeWhile_append_dropWhile.symm

theorem exists_trailing (cs : List Char) : ∃ n, cs = dropTrailing cs ++ List.replicate n '/' := by
  obtain ⟨n, hn⟩ := exists_leading cs.reverse
  refine ⟨n, ?_⟩
  have hcs := congrArg List.reverse hn
  rwa [List.reverse_reverse, List.reverse_append, List.reverse_replicate] at hcs

theorem dropLeading_self (h : cs.head? ≠ some '/') : dropLeading cs = cs := by
  simpa using dropLeading_append h 0

theorem dropTrailing_self (h : cs.getLast? ≠ some '/') : dropTrailing cs = cs := by
  simpa using dropTrailing_append h 0

theorem dropTrailing_dropLeading_ne (h : dropLeading cs ≠ []) :
    dropTrailing (dropLeading cs) ≠ [] := by
  intro hnil
  obtain ⟨c, rest, hcons⟩ := List.exists_cons_of_ne_nil h
  have hslash : c = '/' := dropTrailing_eq_nil_iff.mp hnil c (by simp [hcons])
  exact head?_dropLeading cs (by simp [hcons, hslash])

/-! ### Cuts inside a longer text -/

theorem dropTrailing_cons (c : Char) (cs : List Char) :
    dropTrailing (c :: cs) =
      if c = '/' ∧ dropTrailing cs = [] then [] else c :: dropTrailing cs := by
  have hsplit : dropTrailing (c :: cs) =
      if dropTrailing cs = [] then dropTrailing [c] else c :: dropTrailing cs := by
    simp only [dropTrailing, Text.dropEndWhile, List.reverse_cons, List.dropWhile_append,
      List.isEmpty_iff, List.reverse_eq_nil_iff]
    split <;> simp
  by_cases hc : c = '/'
  · subst hc
    rw [hsplit]
    split
    · next hnil => simpa [hnil] using dropTrailing_eq_nil_iff.mpr fun c => List.mem_singleton.mp
    · next hne => simp [hne]
  · have hkept : dropTrailing [c] = [c] := dropTrailing_self (by simpa using hc)
    rw [hsplit]
    split
    · next hnil => simpa [hc, hnil] using hkept
    · simp [hc]

/-- Where a text has a character besides slashes, its own end is all that is cut. -/
theorem dropTrailing_append_of_ne (h : dropTrailing ds ≠ []) (cs : List Char) :
    dropTrailing (cs ++ ds) = cs ++ dropTrailing ds := by
  induction cs with
  | nil => rfl
  | cons c cs ih => simp [dropTrailing_cons, ih, h]

theorem dropLeading_append_of_ne (h : dropLeading cs ≠ []) (ds : List Char) :
    dropLeading (cs ++ ds) = dropLeading cs ++ ds := by
  rw [dropLeading, List.dropWhile_append, if_neg (by simpa [dropLeading] using h)]
  rfl

/-- The two ends are cut independently. -/
theorem dropLeading_dropTrailing (cs : List Char) :
    dropLeading (dropTrailing cs) = dropTrailing (dropLeading cs) := by
  induction cs with
  | nil => rfl
  | cons c cs ih =>
    rw [dropTrailing_cons]
    by_cases hc : c = '/'
    · subst hc
      have hskip (tail : List Char) : dropLeading ('/' :: tail) = dropLeading tail := rfl
      by_cases hnil : dropTrailing cs = []
      · rw [if_pos ⟨rfl, hnil⟩, hskip, ← ih, hnil]
      · rw [if_neg (fun h => hnil h.2), hskip, hskip, ih]
    · have hkeep (tail : List Char) : dropLeading (c :: tail) = c :: tail :=
        List.dropWhile_cons_of_neg fun h => hc (isSlash_iff.mp h)
      rw [if_neg (fun h => hc h.1), hkeep, hkeep, dropTrailing_cons, if_neg (fun h => hc h.1)]

/-! ### Joining joined texts -/

/-- A text after a slash, cut at its end, is the text joined after its end was cut. -/
theorem dropTrailing_joined (h : cs.getLast? ≠ some '/') (ds : List Char) :
    dropTrailing (cs ++ '/' :: dropLeading ds) = joinChars cs (dropTrailing ds) := by
  by_cases hds : dropLeading ds = []
  · have hslashes : dropLeading (dropTrailing ds) = [] := by
      rw [dropLeading_dropTrailing, hds]
      rfl
    rw [joinChars_of_slashes hslashes, hds]
    exact dropTrailing_append h 1
  · have hname := dropTrailing_dropLeading_ne hds
    have hend : dropTrailing ('/' :: dropLeading ds) = '/' :: dropTrailing (dropLeading ds) := by
      rw [dropTrailing_cons, if_neg fun hnil => hname hnil.2]
    rw [joinChars_of_ne (by rwa [dropLeading_dropTrailing]), dropTrailing_self h,
      dropLeading_dropTrailing, dropTrailing_append_of_ne (by simp [hend]), hend]

theorem joinChars_assoc (cs ds es : List Char) :
    joinChars (joinChars cs ds) es = joinChars cs (joinChars ds es) := by
  by_cases hes : dropLeading es = []
  · rw [joinChars_of_slashes hes, joinChars_of_slashes hes]
  have hjoined : joinChars ds es = dropTrailing ds ++ '/' :: dropLeading es := joinChars_of_ne hes
  rw [joinChars_of_ne hes, hjoined]
  by_cases hds : dropLeading ds = []
  · -- The middle text has no name and leaves no trace.
    have hempty : dropTrailing ds = [] :=
      dropTrailing_eq_nil_iff.mpr (dropLeading_eq_nil_iff.mp hds)
    have htail : dropLeading ('/' :: dropLeading es) = dropLeading es :=
      dropLeading_self (head?_dropLeading es)
    rw [joinChars_of_slashes hds, hempty, List.nil_append, joinChars_of_ne (by rwa [htail]), htail]
  · have hname : dropLeading (dropTrailing ds) ≠ [] := by
      rw [dropLeading_dropTrailing]
      exact dropTrailing_dropLeading_ne hds
    have hlast := getLast?_dropTrailing cs
    have hmiddle : dropLeading (dropTrailing ds ++ '/' :: dropLeading es) =
        dropLeading (dropTrailing ds) ++ '/' :: dropLeading es :=
      dropLeading_append_of_ne hname _
    calc dropTrailing (joinChars cs ds) ++ '/' :: dropLeading es
        = joinChars (dropTrailing cs) (dropTrailing ds) ++ '/' :: dropLeading es := by
          rw [joinChars_of_ne hds, dropTrailing_joined hlast]
      _ = dropTrailing cs ++ '/' :: (dropLeading (dropTrailing ds) ++ '/' :: dropLeading es) := by
          rw [joinChars_of_ne hname, dropTrailing_self hlast, List.append_assoc, List.cons_append]
      _ = joinChars cs (dropTrailing ds ++ '/' :: dropLeading es) := by
          rw [← hmiddle, joinChars_of_ne (by simp [hmiddle])]

end MetricRelay.Url
