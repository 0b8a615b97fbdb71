import Mathlib.Data.List.Forall2
import MetricRelay.Proofs.Text.Pieces

/-!
# Tokens and the blanks between them

A text is spread out as pieces, each a token after some blanks. Where the tokens
are words, the words of the text are these tokens, however wide the gaps between
them are; and every text that ends in no blank is spread out in this way.
-/

namespace MetricRelay.Text

def Blanks (cs : List Char) : Prop := ∀ c ∈ cs, isBlank c = true

instance (cs : List Char) : Decidable (Blanks cs) :=
  decidable_of_iff (cs.all isBlank = true) List.all_eq_true

theorem Blanks.append {cs ds : List Char} (hc : Blanks cs) (hd : Blanks ds) :
    Blanks (cs ++ ds) := by
  intro c hmem
  rcases List.mem_append.mp hmem with left | right
  · exact hc c left
  · exact hd c right

/-- A token, and what stands between it and the token before. -/
structure Piece where
  gap : List Char
  token : List Char

def spread (pieces : List Piece) : List Char := pieces.flatMap fun p => p.gap ++ p.token

@[simp]
theorem spread_nil : spread [] = [] := rfl

theorem spread_cons (p : Piece) (pieces : List Piece) :
    spread (p :: pieces) = p.gap ++ (p.token ++ spread pieces) := by
  rw [spread, List.flatMap_cons, List.append_assoc]
  rfl

theorem spread_append (ps qs : List Piece) : spread (ps ++ qs) = spread ps ++ spread qs :=
  List.flatMap_append

/-- The first token, and the pieces after it. -/
theorem exists_piece {pieces : List Piece} {token : List Char} {tokens : List (List Char)}
    (h : pieces.map (·.token) = token :: tokens) (hgaps : ∀ p ∈ pieces, Blanks p.gap) :
    ∃ gap rest, Blanks gap ∧ rest.map (·.token) = tokens ∧ (∀ p ∈ rest, Blanks p.gap) ∧
      spread pieces = gap ++ (token ++ spread rest) := by
  obtain ⟨p, rest, rfl, rfl, htokens⟩ := List.map_eq_cons_iff.mp h
  obtain ⟨hgap, hrest⟩ := List.forall_mem_cons.mp hgaps
  exact ⟨p.gap, rest, hgap, htokens, hrest, spread_cons p rest⟩

/-! ### Wider gaps -/

/-- The same token after the same gap, or after a longer one of spaces and tabs. -/
structure Piece.Wider (p q : Piece) : Prop where
  token : q.token = p.token
  gap : q.gap = p.gap ∨ (p.gap.length < q.gap.length ∧ ∀ c ∈ q.gap, c = ' ' ∨ c = '\t')

instance (p q : Piece) : Decidable (p.Wider q) :=
  decidable_of_iff (q.token = p.token ∧ (q.gap = p.gap ∨
      (p.gap.length < q.gap.length ∧ q.gap.all (fun c => c = ' ' ∨ c = '\t') = true)))
    (by
      simp only [List.all_eq_true, decide_eq_true_eq]
      exact ⟨fun h => ⟨h.1, h.2⟩, fun h => ⟨h.token, h.gap⟩⟩)

theorem Piece.Wider.blanks {p q : Piece} (h : p.Wider q) (hp : Blanks p.gap) : Blanks q.gap := by
  rcases h.gap with hsame | ⟨-, hblanks⟩
  · rw [hsame]
    exact hp
  · intro c hc
    rcases hblanks c hc with rfl | rfl
    · exact isBlank_space
    · decide

theorem Piece.Wider.gap_ne_nil {p q : Piece} (h : p.Wider q) (hp : p.gap ≠ []) : q.gap ≠ [] := by
  rcases h.gap with hsame | ⟨hlonger, -⟩
  · rwa [hsame]
  · exact List.ne_nil_of_length_pos (Nat.lt_of_le_of_lt (Nat.zero_le _) hlonger)

variable {α β : Type} {R : α → β → Prop}

instance decidableForall₂ [∀ a b, Decidable (R a b)] (as : List α) (bs : List β) :
    Decidable (List.Forall₂ R as bs) :=
  decidable_of_iff (as.length = bs.length ∧ ∀ x ∈ as.zip bs, R x.1 x.2)
    (by rw [List.forall₂_iff_zip, Prod.forall])

theorem exists_append_of_forall₂ {as bs : List α} {cs : List β}
    (h : List.Forall₂ R (as ++ bs) cs) :
    ∃ ds es, List.Forall₂ R as ds ∧ List.Forall₂ R bs es ∧ ds ++ es = cs := by
  induction as generalizing cs with
  | nil => exact ⟨[], cs, .nil, h, rfl⟩
  | cons a as ih =>
    obtain ⟨c, rest, hc, hrest, rfl⟩ := List.forall₂_cons_left_iff.mp h
    obtain ⟨ds, es, hds, hes, rfl⟩ := ih hrest
    exact ⟨c :: ds, es, .cons hc hds, hes, rfl⟩

/-- Wider gaps leave the tokens as they are. -/
theorem tokens_of_wider {ps qs : List Piece} (h : List.Forall₂ Piece.Wider ps qs) :
    qs.map (·.token) = ps.map (·.token) := by
  induction h with
  | nil => rfl
  | cons hp _ ih => rw [List.map_cons, List.map_cons, hp.token, ih]

theorem exists_wider {ps qs : List Piece} (h : List.Forall₂ Piece.Wider ps qs) :
    ∀ q ∈ qs, ∃ p ∈ ps, p.Wider q := by
  induction h with
  | nil => simp
  | @cons p q ps qs hp _ ih =>
    intro r hr
    rcases List.mem_cons.mp hr with rfl | htail
    · exact ⟨p, List.mem_cons_self, hp⟩
    · obtain ⟨old, hold, hwider⟩ := ih r htail
      exact ⟨old, List.mem_cons_of_mem p hold, hwider⟩

theorem head_of_wider {ps qs : List Piece} (h : List.Forall₂ Piece.Wider ps qs) {q : Piece}
    (hq : qs.head? = some q) : ∃ p, ps.head? = some p ∧ p.Wider q := by
  cases h with
  | nil => cases hq
  | @cons p q' ps qs hp _ =>
    obtain rfl := Option.some.inj hq
    exact ⟨p, rfl, hp⟩

/-! ### Blanks before a text -/

theorem trimStart_blanks_append {gap : List Char} (h : Blanks gap) (cs : List Char) :
    trimStart (gap ++ cs) = trimStart cs :=
  List.dropWhile_append_of_pos h

theorem trimStart_token {gap : List Char} (h : Blanks gap) {c : Char} (hc : isBlank c = false)
    (cs : List Char) : trimStart (gap ++ c :: cs) = c :: cs := by
  rw [trimStart_blanks_append h]
  exact trimStart_of_head (by simp [hc])

theorem trim_blanks_append {gap : List Char} (h : Blanks gap) (cs : List Char) :
    trim (gap ++ cs) = trim cs := by
  rw [trim, trim, trimStart_blanks_append h]

theorem trim_append_blanks {gap : List Char} (h : Blanks gap) (cs : List Char) :
    trim (cs ++ gap) = trim cs := by
  induction gap generalizing cs with
  | nil => rw [List.append_nil]
  | cons c gap ih =>
    obtain ⟨hc, hgap⟩ := List.forall_mem_cons.mp h
    rw [List.append_cons, ih hgap, trim_append_blank hc]

/-- A character that is no blank stops the trimming. -/
theorem trimStart_append_cons {c : Char} (h : isBlank c = false) (cs ds : List Char) :
    trimStart (cs ++ c :: ds) = trimStart cs ++ c :: ds := by
  have hstop : trimStart (c :: ds) = c :: ds := trimStart_of_head (by simp [h])
  rw [trimStart, trimStart, List.dropWhile_append]
  split
  · next hnone =>
    rw [List.isEmpty_iff.mp hnone, List.nil_append]
    exact hstop
  · rfl

theorem exists_gap (cs : List Char) : ∃ gap, Blanks gap ∧ gap ++ trimStart cs = cs := by
  refine ⟨cs.takeWhile isBlank, ?_, List.takeWhile_append_dropWhile⟩
  intro c hc
  have hall := List.all_takeWhile (p := isBlank) (l := cs)
  rw [List.all_eq_true] at hall
  exact hall c hc

theorem exists_trim (cs : List Char) :
    ∃ before after, Blanks before ∧ Blanks after ∧ before ++ (trim cs ++ after) = cs := by
  obtain ⟨before, hbefore, hcs⟩ := exists_gap cs
  obtain ⟨after, hafter, hends⟩ := exists_gap (trimStart cs).reverse
  refine ⟨before, after.reverse, hbefore, fun c hc => hafter c (List.mem_reverse.mp hc), ?_⟩
  have htrim : trim cs ++ after.reverse = trimStart cs := by
    rw [trim, trimEnd, dropEndWhile, ← List.reverse_append]
    exact List.reverse_eq_iff.mpr hends
  rw [htrim, hcs]

theorem words_blanks_append {gap : List Char} (h : Blanks gap) (cs : List Char) :
    words (gap ++ cs) = words cs := by
  induction gap with
  | nil => rfl
  | cons c gap ih =>
    obtain ⟨hc, hgap⟩ := List.forall_mem_cons.mp h
    rw [List.cons_append, words_blank_cons hc, ih hgap]

/-- A character that is no blank starts the first word. -/
theorem exists_words_cons {c : Char} (h : isBlank c = false) (cs : List Char) :
    ∃ w ws, words (c :: cs) = (c :: w) :: ws := by
  rw [words.eq_def]
  simp only [h, Bool.false_eq_true, if_false]
  split
  · exact ⟨[], [], rfl⟩
  · split
    · exact ⟨[], _, rfl⟩
    · split
      · exact ⟨[], [], rfl⟩
      · next w ws _ => exact ⟨w, ws, rfl⟩

theorem last_of_suffix {cs ds : List Char} (h : cs <:+ ds)
    (hds : ∀ c, ds.getLast? = some c → isBlank c = false) :
    ∀ c, cs.getLast? = some c → isBlank c = false := by
  intro c hc
  obtain ⟨before, rfl⟩ := h
  apply hds
  rw [List.getLast?_append, hc, Option.some_or]

/-! ### Words -/

/-- Pieces of which the tokens are words; the first one may stand without a gap. -/
structure Words (pieces : List Piece) : Prop where
  word : ∀ p ∈ pieces, Blanks p.gap ∧ p.token ≠ [] ∧ Solid p.token
  apart : ∀ p ∈ pieces.tail, p.gap ≠ []

instance (pieces : List Piece) : Decidable (Words pieces) :=
  decidable_of_iff ((∀ p ∈ pieces, Blanks p.gap ∧ p.token ≠ [] ∧ Solid p.token) ∧
    ∀ p ∈ pieces.tail, p.gap ≠ []) ⟨fun h => ⟨h.1, h.2⟩, fun h => ⟨h.word, h.apart⟩⟩

namespace Words

variable {p : Piece} {pieces : List Piece}

theorem tail (h : Words (p :: pieces)) : Words pieces where
  word := fun q hq => h.word q (List.mem_cons_of_mem p hq)
  apart := fun q hq => h.apart q (List.mem_of_mem_tail hq)

/-- After a word the text ends, or a blank follows. -/
theorem atBlank (h : Words (p :: pieces)) : AtBlank (spread pieces) := by
  intro c hc
  cases pieces with
  | nil => cases hc
  | cons q rest =>
    have hq : q ∈ (p :: q :: rest).tail := List.mem_cons_self
    have hgap := h.apart q hq
    rw [spread_cons, List.head?_append_of_ne_nil _ hgap] at hc
    exact (h.word q (List.mem_of_mem_tail hq)).1 c (List.mem_of_mem_head? hc)

theorem trimStart_spread (h : Words (p :: pieces)) :
    trimStart (spread (p :: pieces)) = p.token ++ spread pieces := by
  obtain ⟨hgap, hne, hsolid⟩ := h.word p List.mem_cons_self
  rw [spread_cons, trimStart_blanks_append hgap]
  apply trimStart_of_head
  intro c hc
  rw [List.head?_append_of_ne_nil _ hne] at hc
  exact hsolid c (List.mem_of_mem_head? hc)

/-- Where the text starts with a blank, the first word has a gap before it. -/
theorem apart_of_blank (h : Words pieces) {c : Char} {tail : List Char}
    (hshape : spread pieces = c :: tail) (hc : isBlank c = true) :
    ∀ p, pieces.head? = some p → p.gap ≠ [] := by
  intro p hp hgap
  obtain ⟨rest, rfl⟩ := List.head?_eq_some_iff.mp hp
  obtain ⟨-, hne, hsolid⟩ := h.word p List.mem_cons_self
  have hhead := congrArg List.head? hshape
  rw [spread_cons, hgap, List.nil_append, List.head?_append_of_ne_nil _ hne, List.head?_cons]
    at hhead
  rw [hsolid c (List.mem_of_mem_head? hhead)] at hc
  cases hc

/-- The words of the text are the tokens. -/
theorem words_spread (h : Words pieces) : words (spread pieces) = pieces.map (·.token) := by
  induction pieces with
  | nil => rfl
  | cons p pieces ih =>
    obtain ⟨hgap, hne, hsolid⟩ := h.word p List.mem_cons_self
    rw [spread_cons, words_blanks_append hgap, words_append hsolid hne h.atBlank, ih h.tail,
      List.map_cons]

theorem wider {qs : List Piece} (h : Words pieces) (hw : List.Forall₂ Piece.Wider pieces qs) :
    Words qs := by
  constructor
  · intro q hq
    obtain ⟨old, hold, hwider⟩ := exists_wider hw q hq
    obtain ⟨hgap, hword⟩ := h.word old hold
    rw [hwider.token]
    exact ⟨hwider.blanks hgap, hword⟩
  · intro q hq
    have htail := List.forall₂_drop 1 hw
    rw [List.drop_one, List.drop_one] at htail
    obtain ⟨old, hold, hwider⟩ := exists_wider htail q hq
    exact hwider.gap_ne_nil (h.apart old hold)

theorem cons (h : Words pieces) (hgap : Blanks p.gap) (hne : p.token ≠ []) (hsolid : Solid p.token)
    (hapart : ∀ q, pieces.head? = some q → q.gap ≠ []) : Words (p :: pieces) where
  word := List.forall_mem_cons.mpr ⟨⟨hgap, hne, hsolid⟩, h.word⟩
  apart := by
    cases pieces with
    | nil => exact h.apart
    | cons q rest => exact List.forall_mem_cons.mpr ⟨hapart q rfl, h.apart⟩

/-- Every text that ends in no blank is spread out in words. -/
theorem exists_spread {cs : List Char} (h : ∀ c, cs.getLast? = some c → isBlank c = false) :
    ∃ pieces, Words pieces ∧ spread pieces = cs := by
  -- One character more widens the first gap, lengthens the first word or makes a word of its own.
  induction cs with
  | nil => exact ⟨[], ⟨by simp, by simp⟩, rfl⟩
  | cons c cs ih =>
    obtain ⟨pieces, hwords, rfl⟩ := ih (last_of_suffix (List.suffix_cons c cs) h)
    cases pieces with
    | nil =>
      have hc : isBlank c = false := h c rfl
      refine ⟨[⟨[], [c]⟩], hwords.cons (by simp [Blanks]) (by simp) ?_ (by simp), rfl⟩
      exact solid_nil.cons hc
    | cons p rest =>
      obtain ⟨hgap, hne, hsolid⟩ := hwords.word p List.mem_cons_self
      have hapart : ∀ q, rest.head? = some q → q.gap ≠ [] := fun q hq =>
        hwords.apart q (List.mem_of_mem_head? hq)
      rw [spread_cons]
      by_cases hc : isBlank c = true
      · refine ⟨⟨c :: p.gap, p.token⟩ :: rest, ?_, by simp [spread_cons]⟩
        exact hwords.tail.cons (List.forall_mem_cons.mpr ⟨hc, hgap⟩) hne hsolid hapart
      · have hc : isBlank c = false := by simpa using hc
        by_cases hjoined : p.gap = []
        · refine ⟨⟨[], c :: p.token⟩ :: rest, ?_, by simp [spread_cons, hjoined]⟩
          exact hwords.tail.cons (by simp [Blanks]) (by simp) (hsolid.cons hc) hapart
        · refine ⟨⟨[], [c]⟩ :: p :: rest, ?_, by simp [spread_cons]⟩
          refine hwords.cons (by simp [Blanks]) (by simp) (solid_nil.cons hc) ?_
          rintro q ⟨⟩
          exact hjoined

end Words

end MetricRelay.Text
