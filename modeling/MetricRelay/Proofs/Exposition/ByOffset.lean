import MetricRelay.Exposition.ByOffset
import MetricRelay.Proofs.Exposition.Layout
import MetricRelay.Proofs.Text.Offset

/-!
# Reading by offsets

Every cut that the reader makes is at a character that it found, so no reading breaks
off. What is read by offsets and places is what is read from the text itself.
-/

namespace MetricRelay.Exposition.ByOffset

open Text (byteLength offsetOf? startingAt? trimStart upTo? withOffsets)

theorem some_bind {ε α β : Type} (a : α) (f : α → Attempt ε β) :
    (liftM (some a) : Attempt ε α) >>= f = f a := rfl

theorem liftExcept_eq {ε α : Type} (x : Except ε α) : (liftExcept x : Attempt ε α) = some x := by
  cases x <;> rfl

theorem head?_ne_of_forall {c : Char} {cs : List Char} (h : ∀ rest, cs = c :: rest → False) :
    cs.head? ≠ some c := by
  intro hhead
  obtain ⟨rest, hrest⟩ := List.head?_eq_some_iff.mp hhead
  exact h rest hrest

/-! ### Labels -/

section Label

variable {cs name tail quoted : List Char} (hcut : Text.cutAt? '=' cs = some (name, tail))
include hcut

theorem takeLabel_of_closed {value rest : List Char} (hquoted : trimStart tail = '"' :: quoted)
    (htake : takeQuoted? quoted = some (value, rest)) :
    takeLabel cs = .ok (⟨String.ofList (Text.trim name), String.ofList value⟩, rest) := by
  simp only [takeLabel, hcut, hquoted, htake]

theorem takeLabel_of_unclosed (hquoted : trimStart tail = '"' :: quoted)
    (htake : takeQuoted? quoted = none) :
    takeLabel cs = .error (.labelNotClosed (String.ofList (Text.trim name))) := by
  simp only [takeLabel, hcut, hquoted, htake]

theorem takeLabel_of_unquoted (hquoted : (trimStart tail).head? ≠ some '"') :
    takeLabel cs = .error (.labelNotQuoted (String.ofList (Text.trim name))) := by
  simp only [takeLabel, hcut]
  split
  · next quoted hstart =>
    rw [hstart] at hquoted
    exact absurd rfl hquoted
  · rfl

end Label

theorem closing?_plain {c : Char} (hquote : c ≠ '"') (hslash : c ≠ '\\') (offset : ℕ)
    (more : List (ℕ × Char)) :
    closing? ((offset, c) :: more) = (closing? more).map fun (v, quote) => (c :: v, quote) := by
  simp [closing?, hslash]

/-- A value is closed by offsets where it is closed in the text, at the quote after its front. -/
theorem closing?_cases (cs : List Char) :
    (takeQuoted? cs = none ∧ ∀ start, closing? (withOffsets start cs) = none) ∨
      ∃ v front rest, cs = front ++ '"' :: rest ∧ takeQuoted? cs = some (v, rest) ∧
        ∀ start, closing? (withOffsets start cs) = some (v, start + byteLength front) := by
  fun_induction takeQuoted? cs with
  | case1 => exact Or.inl ⟨rfl, fun _ => rfl⟩
  | case2 cs => exact Or.inr ⟨[], [], cs, rfl, rfl, fun _ => rfl⟩
  | case3 => exact Or.inl ⟨rfl, fun _ => rfl⟩
  | case4 c cs ih =>
    rcases ih with ⟨hopen, htail⟩ | ⟨v, front, rest, rfl, htake, htail⟩
    · refine Or.inl ⟨by rw [hopen]; rfl, fun start => ?_⟩
      simp [withOffsets, closing?, htail]
    · refine Or.inr ⟨_, '\\' :: c :: front, rest, rfl, by rw [htake]; rfl, fun start => ?_⟩
      simp [withOffsets, closing?, htail, Text.byteLength_cons, Nat.add_assoc]
  | case5 c cs hquote hlast hslash ih =>
    -- What is neither a quote, nor a backslash before something, nor a last backslash is plain.
    have hplain : c ≠ '\\' := by
      intro hc
      cases cs with
      | nil => exact hlast hc rfl
      | cons d ds => exact hslash d ds hc rfl
    rcases ih with ⟨hopen, htail⟩ | ⟨v, front, rest, rfl, htake, htail⟩
    · refine Or.inl ⟨by rw [hopen]; rfl, fun start => ?_⟩
      rw [withOffsets, closing?_plain hquote hplain, htail]
      rfl
    · refine Or.inr ⟨_, c :: front, rest, rfl, by rw [htake]; rfl, fun start => ?_⟩
      rw [withOffsets, closing?_plain hquote hplain, htail, Text.byteLength_cons, ← Nat.add_assoc]
      rfl

theorem label_eq (cs : List Char) : label cs = some (takeLabel cs) := by
  rw [label]
  cases hcut : Text.cutAt? '=' cs with
  | none =>
    have hequals : offsetOf? (· == '=') cs = none := by
      apply Text.offsetOf?_eq_none
      intro c hc
      simpa using ne_of_mem_of_not_mem hc (Text.not_mem_of_cutAt? hcut)
    rw [hequals, takeLabel, hcut]
    rfl
  | some parts =>
    obtain ⟨name, tail⟩ := parts
    obtain ⟨rfl, hname⟩ := Text.eq_of_cutAt? hcut
    have hequals : offsetOf? (· == '=') (name ++ '=' :: tail) = some (byteLength name) := by
      apply Text.offsetOf?_append
      · intro c hc
        simpa using ne_of_mem_of_not_mem hc hname
      · rfl
    have hname : upTo? (byteLength name) (name ++ '=' :: tail) = some name :=
      Text.upTo?_append name ('=' :: tail)
    have htail : startingAt? (byteLength name + 1) (name ++ '=' :: tail) = some tail :=
      Text.startingAt?_next rfl name tail
    simp only [hequals, hname, htail]
    simp only [some_bind]
    split
    · next quoted hquoted =>
      rcases closing?_cases quoted with
        ⟨htake, hclosing⟩ | ⟨value, front, rest, rfl, htake, hclosing⟩
      · rw [takeLabel_of_unclosed hcut hquoted htake]
        simp only [hclosing]
        rfl
      · have hrest : startingAt? (0 + byteLength front + 1) (front ++ '"' :: rest) = some rest := by
          rw [Nat.zero_add]
          exact Text.startingAt?_next rfl front rest
        rw [takeLabel_of_closed hcut hquoted htake]
        simp only [hclosing, hrest]
        rfl
    · next hunquoted =>
      rw [takeLabel_of_unquoted hcut (head?_ne_of_forall hunquoted)]
      rfl

def step (cs : List Char) : Except LineFault Pass :=
  match trimStart cs with
  | '\x7d' :: rest => .ok (.closed rest)
  | cs => (takeLabel cs).bind fun (label, rest) => separated label rest

theorem step_of_open {cs : List Char} (hopen : (trimStart cs).head? ≠ some '\x7d') :
    step cs = (takeLabel (trimStart cs)).bind fun (label, rest) => separated label rest := by
  rw [step]
  split
  · next rest hclosed =>
    rw [hclosed] at hopen
    exact absurd rfl hopen
  · rfl

theorem pass_eq (cs : List Char) : pass cs = some (step cs) := by
  rw [pass]
  split
  · next rest hclosed =>
    rw [step, hclosed]
    rfl
  · next hopen =>
    rw [step_of_open (head?_ne_of_forall hopen), label_eq]
    cases takeLabel (trimStart cs) with
    | error fault => rfl
    | ok taken => exact liftExcept_eq _

theorem separated_of_other {label : Label} {cs : List Char}
    (hcomma : (trimStart cs).head? ≠ some ',') (hclosed : (trimStart cs).head? ≠ some '\x7d') :
    separated label cs = .error .labelNotSeparated := by
  rw [separated]
  split
  · next rest hrest =>
    rw [hrest] at hcomma
    exact absurd rfl hcomma
  · next rest hrest =>
    rw [hrest] at hclosed
    exact absurd rfl hclosed
  · rfl

theorem takeLabels_of_fault {cs : List Char} {fault : LineFault}
    (hopen : (trimStart cs).head? ≠ some '\x7d') (h : takeLabel (trimStart cs) = .error fault) :
    takeLabels cs = .error fault := by
  rw [takeLabels]
  split
  · next rest hclosed =>
    rw [hclosed] at hopen
    exact absurd rfl hopen
  · split
    · next other hother =>
      rw [h] at hother
      cases hother
      rfl
    · next label rest htake =>
      rw [h] at htake
      cases htake

/-- The labels of a text are those of its passes. -/
theorem takeLabels_eq (cs : List Char) : takeLabels cs =
    (step cs).bind fun
      | .closed rest => .ok ([], rest)
      | .found label rest => (takeLabels rest).map fun (labels, t) => (label :: labels, t) := by
  by_cases hopen : (trimStart cs).head? = some '\x7d'
  · obtain ⟨rest, hclosed⟩ := List.head?_eq_some_iff.mp hopen
    rw [takeLabels_close hclosed, step, hclosed]
    rfl
  · cases htake : takeLabel (trimStart cs) with
    | error fault =>
      rw [takeLabels_of_fault hopen htake, step_of_open hopen, htake]
      rfl
    | ok taken =>
      obtain ⟨label, rest⟩ := taken
      rw [takeLabels_of_takeLabel hopen htake, step_of_open hopen, htake]
      change _ = (separated label rest).bind _
      split
      · next more hcomma =>
        rw [separated, hcomma]
        rfl
      · next more hclosed =>
        -- The brace is left to a next pass, which closes on it; the other reader closes at once.
        rw [separated, hclosed]
        change _ = (takeLabels ('\x7d' :: more)).map _
        rw [takeLabels_close (trimStart_cons (by decide) more)]
        rfl
      · next hcomma hclosed =>
        rw [separated_of_other (head?_ne_of_forall hcomma) (head?_ne_of_forall hclosed)]
        rfl

/-! ### Progress -/

theorem suffix_of_takeLabel {cs rest : List Char} {label : Label}
    (h : takeLabel cs = .ok (label, rest)) : rest <:+ cs := by
  rw [takeLabel] at h
  split at h
  · cases h
  · next name tail hcut =>
    obtain ⟨rfl, -⟩ := Text.eq_of_cutAt? hcut
    dsimp only at h
    split at h
    · next quoted hquoted =>
      have htail : trimStart tail <:+ name ++ '=' :: tail :=
        (List.dropWhile_suffix _).trans ((List.suffix_cons ..).trans (List.suffix_append ..))
      rw [hquoted] at htail
      split at h
      · next value rest htake =>
        cases h
        exact (suffix_of_takeQuoted? htake).trans ((List.suffix_cons ..).trans htail)
      · cases h
    · cases h

theorem suffix_of_separated {label : Label} {cs : List Char} {p : Pass}
    (h : separated label cs = .ok p) : p.rest <:+ cs := by
  have hstart : trimStart cs <:+ cs := List.dropWhile_suffix _
  rw [separated] at h
  split at h
  · next rest hcomma =>
    cases h
    exact (List.suffix_cons ',' rest).trans (hcomma ▸ hstart)
  · next rest hclosed =>
    cases h
    exact hclosed ▸ hstart
  · cases h

/-- A pass that does not fail uses up at least one character. -/
theorem byteLength_of_step {cs : List Char} {p : Pass} (h : step cs = .ok p) :
    byteLength p.rest < byteLength cs := by
  have hstart : trimStart cs <:+ cs := List.dropWhile_suffix _
  have hlength := hstart.length_le
  rw [step] at h
  split at h
  · next rest hclosed =>
    cases h
    rw [hclosed] at hstart hlength
    exact Text.byteLength_lt_of_suffix ((List.suffix_cons ..).trans hstart) hlength
  · cases htake : takeLabel (trimStart cs) with
    | error fault =>
      rw [htake] at h
      cases h
    | ok taken =>
      rw [htake] at h
      have hafter := suffix_of_separated h
      have hrest := suffix_of_takeLabel htake
      have hless := length_of_takeLabel htake
      have hle := hafter.length_le
      exact Text.byteLength_lt_of_suffix (hafter.trans (hrest.trans hstart)) (by omega)

/-- The loop over labels gets on, for a pass leaves it less text than it had. -/
theorem labels_eq (cs : List Char) : labels cs = some (takeLabels cs) := by
  induction hn : byteLength cs using Nat.strongRecOn generalizing cs with
  | ind n ih =>
    rw [labels, pass_eq, takeLabels_eq]
    cases hstep : step cs with
    | error fault => rfl
    | ok p =>
      cases p with
      | closed rest => rfl
      | found label rest =>
        have hless : byteLength rest < byteLength cs := byteLength_of_step hstep
        have hmore := ih (byteLength rest) (hn ▸ hless) rest rfl
        change (if byteLength rest < byteLength cs then labels rest >>= _ else _) = _
        rw [if_pos hless, hmore]
        change _ = some ((takeLabels rest).map _)
        cases takeLabels rest <;> rfl

/-! ### Lines -/

theorem sample_eq (line : List Char) : sample line = some (readSample line) := by
  have hline : line.takeWhile (!isNameEnd ·) ++ line.dropWhile (!isNameEnd ·) = line :=
    List.takeWhile_append_dropWhile
  have hname : ∀ c ∈ line.takeWhile (!isNameEnd ·), isNameEnd c = false := by
    intro c hc
    simpa using List.all_eq_true.mp List.all_takeWhile c hc
  rw [sample, readSample]
  generalize line.takeWhile (!isNameEnd ·) = name at *
  cases hrest : line.dropWhile (!isNameEnd ·) with
  | nil =>
    rw [hrest, List.append_nil] at hline
    subst hline
    rw [Text.offsetOf?_eq_none hname]
    rfl
  | cons c rest =>
    have hc : isNameEnd c = true := by
      have hstop := Text.head_not_of_dropWhile (congrArg List.head? hrest)
      simpa using hstop
    rw [hrest] at hline
    subst hline
    have hfirst : c = '\x7b' → startingAt? 1 (c :: rest) = some rest := by
      rintro rfl
      exact Text.startingAt?_next rfl [] rest
    simp only [Text.offsetOf?_append hname hc, Text.upTo?_append, Text.startingAt?_append,
      some_bind]
    by_cases hempty : name.isEmpty = true
    · rw [if_pos hempty, if_pos hempty]
      rfl
    · by_cases hbrace : c = '\x7b'
      · rw [if_neg hempty, if_neg hempty, if_pos (by rw [hbrace]; rfl), if_pos hbrace,
          hfirst hbrace, some_bind, labels_eq]
        cases takeLabels rest with
        | error fault => rfl
        | ok taken => exact liftExcept_eq _
      · rw [if_neg hempty, if_neg hempty, if_neg (by simpa using hbrace), if_neg hbrace,
          liftExcept_eq]

theorem line_eq (raw : List Char) : line raw = some (readLine raw) := by
  rw [line]
  split
  · next hnothing =>
    rw [readLine, hnothing]
    rfl
  · next comment hcomment =>
    rw [readLine, hcomment]
    exact liftExcept_eq _
  · next hsaid hcomment =>
    rw [sample_eq, readLine_sample rfl hsaid (head?_ne_of_forall hcomment)]
    cases readSample (Text.trim raw) <;> rfl

end MetricRelay.Exposition.ByOffset
