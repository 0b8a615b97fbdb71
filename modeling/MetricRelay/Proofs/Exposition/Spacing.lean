import MetricRelay.Proofs.Exposition.Gathered
import MetricRelay.Proofs.Exposition.Layout

/-!
# Wider spacing

Where the gaps between the tokens of a text are widened, the text says what it said
before. It is read as the same families, unless a second blank stands between a
keyword and a name, or a blank before an opening brace: then it is not read at all.
-/

namespace MetricRelay.Exposition

open Text (isBlank Blanks Piece Words Solid Trimmed AtBlank spread trim)

/-! ### Lines -/

theorem readFields_wider {name : String} {labels : List Label} {fields wide : List Piece}
    (h : Words fields) (hw : List.Forall₂ Piece.Wider fields wide) :
    readFields name labels (spread wide) = readFields name labels (spread fields) := by
  apply readFields_congr
  rw [h.words_spread, (h.wider hw).words_spread, Text.tokens_of_wider hw]

/-- A widened line says the same. -/
theorem Says.widened {l wide : Layout} {said : Line} (h : Says l said) (hw : l.Widened wide) :
    Says wide said := by
  obtain ⟨first, rest⟩ := wide
  obtain ⟨rfl, hrest⟩ := hw
  cases h with
  | blank =>
    obtain rfl := List.forall₂_nil_left_iff.mp hrest
    exact .blank
  | comment hwords hplain =>
    refine .comment (hwords.wider hrest) fun q hq => ?_
    obtain ⟨p, hp, hpq⟩ := Text.head_of_wider hrest hq
    rw [hpq.token]
    exact hplain p hp
  | @header keyword name g₁ g₂ text hkeyword hsolid hne h₁ h₂ hapart htext =>
    obtain ⟨⟨g₁', _⟩, tail, hw₁, htail, rfl⟩ := List.forall₂_cons_left_iff.mp hrest
    obtain ⟨⟨g₂', _⟩, more, hw₂, hmore, rfl⟩ := List.forall₂_cons_left_iff.mp htail
    obtain rfl := hw₁.token
    obtain rfl := hw₂.token
    cases text with
    | none =>
      obtain rfl := List.forall₂_nil_left_iff.mp hmore
      exact .header hkeyword hsolid hne (hw₁.blanks h₁) (hw₂.blanks h₂) (hw₂.gap_ne_nil hapart)
        htext
    | some p =>
      obtain ⟨q, none, hpq, hnone, rfl⟩ := List.forall₂_cons_left_iff.mp hmore
      obtain rfl := List.forall₂_nil_left_iff.mp hnone
      obtain ⟨hgap, hgapne, htrimmed⟩ := htext p rfl
      have hwide : ∀ r, some q = some r → Blanks r.gap ∧ r.gap ≠ [] ∧ Trimmed r.token := by
        rintro _ ⟨⟩
        rw [hpq.token]
        exact ⟨hpq.blanks hgap, hpq.gap_ne_nil hgapne, htrimmed⟩
      have hwidened := Says.header hkeyword hsolid hne (hw₁.blanks h₁) (hw₂.blanks h₂)
        (hw₂.gap_ne_nil hapart) hwide
      rw [Option.map_some, hpq.token] at hwidened
      exact hwidened
  | plain hs hfields hapart hread =>
    refine .plain hs (hfields.wider hrest) (fun q hq => ?_) ?_
    · obtain ⟨p, hp, hpq⟩ := Text.head_of_wider hrest hq
      exact hpq.gap_ne_nil (hapart p hp)
    · rw [readFields_wider hfields hrest, hread]
  | @labelled s gap labels fields hs hgap hgaps hlabels hfields hread =>
    obtain ⟨⟨gap', _⟩, tail, hbrace, htail, rfl⟩ := List.forall₂_cons_left_iff.mp hrest
    obtain rfl := hbrace.token
    obtain ⟨labels', fields', hwlabels, hwfields, rfl⟩ := Text.exists_append_of_forall₂ htail
    refine .labelled hs (hbrace.blanks hgap) ?_ ?_ (hfields.wider hwfields) ?_
    · intro q hq
      obtain ⟨p, hp, hpq⟩ := Text.exists_wider hwlabels q hq
      exact hpq.blanks (hgaps p hp)
    · rwa [Text.tokens_of_wider hwlabels]
    · rw [readFields_wider hfields hwfields, hread]

/-! ### Texts -/

/-- The lines of a text are laid out in this way, up to the blanks around them. -/
def Spaced (text : List Char) (layouts : List Layout) : Prop :=
  (Text.lines text).map trim = layouts.map Layout.text

instance (text : List Char) (layouts : List Layout) : Decidable (Spaced text layouts) :=
  inferInstanceAs (Decidable (_ = _))

/-- A text that is laid out in tokens, and what these say. -/
structure LaidOut (text : List Char) (layouts : List Layout) (said : List Line) : Prop where
  spaced : Spaced text layouts
  lines : List.Forall₂ Says layouts said

theorem LaidOut.widened {text text' : List Char} {layouts wide : List Layout} {said : List Line}
    (h : LaidOut text layouts said) (hw : List.Forall₂ Layout.Widened layouts wide)
    (hspaced : Spaced text' wide) : LaidOut text' wide said := by
  refine ⟨hspaced, ?_⟩
  have hlines := h.lines
  clear h hspaced
  induction hw generalizing said with
  | nil => exact hlines
  | cons hl _ ih =>
    obtain ⟨line, rest, hline, hrest, rfl⟩ := List.forall₂_cons_left_iff.mp hlines
    exact .cons (hline.widened hl) (ih hrest)

theorem readLines_laidOut_iff {layouts : List Layout} {said : List Line}
    (h : List.Forall₂ Says layouts said) {raws : List (List Char)}
    (hraws : raws.map trim = layouts.map Layout.text) {other : List Line} :
    raws.map readLine = other.map .ok ↔ (∀ l ∈ layouts, l.Tight) ∧ other = said := by
  induction h generalizing raws other with
  | nil =>
    obtain rfl := List.map_eq_nil_iff.mp hraws
    simp [eq_comm]
  | cons hl _ ih =>
    obtain ⟨raw, raws, rfl, hraw, hraws⟩ := List.map_eq_cons_iff.mp hraws
    cases other with
    | nil => simp
    | cons line other =>
      rw [List.map_cons, List.map_cons, List.cons.injEq, hl.readLine_iff hraw, ih hraws,
        List.forall_mem_cons, List.cons.injEq]
      tauto

/-- A text is read exactly if all its lines are tightly laid out, and then gathered from what its
tokens say. -/
theorem LaidOut.readText_iff {text : List Char} {layouts : List Layout} {said : List Line}
    (h : LaidOut text layouts said) {found : List Family} : readText text = .ok found ↔
      (∀ l ∈ layouts, l.Tight) ∧ found = gathered (filed none said) := by
  rw [Exposition.readText_iff]
  constructor
  · rintro ⟨other, hother, rfl⟩
    obtain ⟨htight, rfl⟩ := (readLines_laidOut_iff h.lines h.spaced).mp hother
    exact ⟨htight, rfl⟩
  · rintro ⟨htight, rfl⟩
    exact ⟨said, (readLines_laidOut_iff h.lines h.spaced).mpr ⟨htight, rfl⟩, rfl⟩

theorem exists_layouts {raws : List (List Char)} {read : List Line}
    (h : raws.map readLine = read.map .ok) (hlines : ∀ raw ∈ raws, '\n' ∉ raw) :
    ∃ layouts said, raws.map trim = layouts.map Layout.text ∧ List.Forall₂ Says layouts said := by
  induction raws generalizing read with
  | nil => exact ⟨[], [], rfl, .nil⟩
  | cons raw raws ih =>
    obtain ⟨line, rest, rfl, hline, hrest⟩ := List.map_eq_cons_iff.mp h.symm
    obtain ⟨hfirst, hlines⟩ := List.forall_mem_cons.mp hlines
    obtain ⟨layouts, said, hspaced, hsaid⟩ := ih hrest.symm hlines
    obtain ⟨l, own, hown, hraw⟩ := exists_layout hline.symm hfirst
    exact ⟨l :: layouts, own :: said, by rw [List.map_cons, List.map_cons, hraw, hspaced],
      .cons hown hsaid⟩

theorem exists_laidOut {text : List Char} {families : List Family}
    (h : readText text = .ok families) : ∃ layouts said, LaidOut text layouts said := by
  obtain ⟨read, hread, -⟩ := Exposition.readText_iff.mp h
  obtain ⟨layouts, said, hspaced, hsaid⟩ :=
    exists_layouts hread fun _ => Text.newline_not_mem_of_mem_lines
  exact ⟨layouts, said, hspaced, hsaid⟩

/-- Every text that is read is laid out in tokens, tightly. Where the gaps between them are widened,
it is still read exactly if every line is still tightly laid out, and then as the same families. -/
theorem readText_widened {text : List Char} {families : List Family}
    (h : readText text = .ok families) :
    (∃ layouts said, LaidOut text layouts said ∧ ∀ l ∈ layouts, l.Tight) ∧
    ∀ layouts said wide text', LaidOut text layouts said →
      List.Forall₂ Layout.Widened layouts wide → Spaced text' wide →
      ∀ found, readText text' = .ok found ↔ (∀ l ∈ wide, l.Tight) ∧ found = families := by
  constructor
  · obtain ⟨layouts, said, hlaid⟩ := exists_laidOut h
    exact ⟨layouts, said, hlaid, (hlaid.readText_iff.mp h).1⟩
  · intro layouts said wide text' hlaid hw hspaced found
    obtain ⟨-, rfl⟩ := hlaid.readText_iff.mp h
    exact (hlaid.widened hw hspaced).readText_iff

/-- A gauge and a sample of it, with gaps before the name of the gauge, before the brace and before
the other tokens. -/
def gaugeLayouts (name brace gap : List Char) : List Layout := [
  ⟨['#'], [⟨gap, "TYPE".toList⟩, ⟨name, "a".toList⟩, ⟨' ' :: gap, "gauge".toList⟩]⟩,
  ⟨"a".toList, [⟨brace, ['\x7b']⟩, ⟨gap, "b".toList⟩, ⟨gap, ['=']⟩, ⟨gap, "\"c\"".toList⟩,
    ⟨gap, ['\x7d']⟩, ⟨' ' :: gap, "1".toList⟩, ⟨' ' :: gap, "2".toList⟩]⟩]

def gaugeText (name brace gap : List Char) : List Char :=
  (gaugeLayouts name brace gap).flatMap fun l => l.text ++ ['\n']

def gaugeFamilies : List Family :=
  [{ name := "a", kind := .gauge, samples := [⟨"a", [⟨"b", "c"⟩], 1.0, some 2⟩] }]

def gaugeLines : List Line :=
  [described "TYPE" "a" "gauge".toList, .sample ⟨"a", [⟨"b", "c"⟩], 1.0, some 2⟩]

theorem said_gaugeLayouts : List.Forall₂ Says (gaugeLayouts [' '] [] []) gaugeLines := by
  have hlabel : WritableLabel ⟨"b", "c"⟩ := ⟨by decide, by decide, by decide, by decide⟩
  have hsample : WritableSample ⟨"a", [⟨"b", "c"⟩], 1.0, some 2⟩ := by
    refine ⟨by decide, by decide, by decide, by decide, ?_, ?_⟩
    · intro l hl
      rwa [List.mem_singleton.mp hl]
    · rintro _ ⟨⟩
      decide
  refine .cons ?_ (.cons ?_ .nil)
  · have htext : ∀ p : Piece, some ⟨[' '], "gauge".toList⟩ = some p →
        Blanks p.gap ∧ p.gap ≠ [] ∧ Trimmed p.token := by
      rintro _ ⟨⟩
      exact ⟨by decide, by decide, Solid.trimmed (by decide)⟩
    exact .header (Or.inr rfl) (by decide) (by decide) (by decide) (by decide) (by decide) htext
  · have hgap : Blanks [] := by decide
    have hgaps : ∀ p ∈ [⟨[], "b".toList⟩, ⟨[], ['=']⟩, ⟨[], "\"c\"".toList⟩,
        (⟨[], ['\x7d']⟩ : Piece)], Blanks p.gap := by decide
    exact .labelled hsample hgap hgaps (.last hlabel rfl) (by decide) rfl

theorem tight_gaugeLayouts (gap : List Char) : ∀ l ∈ gaugeLayouts [' '] [] gap, l.Tight := by
  simp only [gaugeLayouts, List.forall_mem_cons, List.not_mem_nil, false_implies, implies_true,
    and_true]
  constructor
  · refine ⟨?_, fun _ _ hne => absurd rfl hne⟩
    rintro _ _ _ - ⟨⟩ -
    rfl
  · constructor
    · rintro _ _ _ ⟨⟩
    · rintro _ _ - ⟨⟩ -
      rfl

theorem laidOut_gaugeText :
    LaidOut (gaugeText [' '] [] []) (gaugeLayouts [' '] [] []) gaugeLines :=
  ⟨by decide, said_gaugeLayouts⟩

theorem readText_gaugeText : readText (gaugeText [' '] [] []) = .ok gaugeFamilies :=
  laidOut_gaugeText.readText_iff.mpr ⟨tight_gaugeLayouts [], rfl⟩

/-- Tabs and spaces before the tokens of both lines change nothing. -/
theorem readText_widened_gauge : readText (gaugeText [' '] [] []) = .ok gaugeFamilies ∧
    readText (gaugeText [' '] [] ['\t', ' ']) = .ok gaugeFamilies := by
  have hwide := (readText_widened readText_gaugeText).2 _ _ (gaugeLayouts [' '] [] ['\t', ' '])
    (gaugeText [' '] [] ['\t', ' ']) laidOut_gaugeText (by decide) (by decide)
  exact ⟨readText_gaugeText, (hwide gaugeFamilies).mpr ⟨tight_gaugeLayouts _, rfl⟩⟩

/-- A second blank before the name of the gauge, or a blank before the brace, spoils the text. -/
theorem not_readText_widened_gauge : readText (gaugeText [' '] [] []) = .ok gaugeFamilies ∧
    LaidOut (gaugeText [' '] [] []) (gaugeLayouts [' '] [] []) gaugeLines ∧
    ∀ gaps ∈ [([' ', ' '], []), ([' '], [' '])],
      List.Forall₂ Layout.Widened (gaugeLayouts [' '] [] []) (gaugeLayouts gaps.1 gaps.2 []) ∧
        Spaced (gaugeText gaps.1 gaps.2 []) (gaugeLayouts gaps.1 gaps.2 []) ∧
        ¬ ∃ found, readText (gaugeText gaps.1 gaps.2 []) = .ok found := by
  refine ⟨readText_gaugeText, laidOut_gaugeText, ?_⟩
  simp only [List.forall_mem_cons, List.not_mem_nil, false_implies, implies_true, and_true]
  refine ⟨⟨by decide, by decide, ?_⟩, by decide, by decide, ?_⟩
  · rintro ⟨found, hfound⟩
    have hlaid : LaidOut (gaugeText [' ', ' '] [] []) (gaugeLayouts [' ', ' '] [] []) gaugeLines :=
      laidOut_gaugeText.widened (by decide) (by decide)
    obtain ⟨htight, -⟩ := hlaid.readText_iff.mp hfound
    have hone := (htight _ List.mem_cons_self).name _ _ _ rfl rfl (Or.inr rfl)
    exact absurd hone (by decide)
  · rintro ⟨found, hfound⟩
    have hlaid : LaidOut (gaugeText [' '] [' '] []) (gaugeLayouts [' '] [' '] []) gaugeLines :=
      laidOut_gaugeText.widened (by decide) (by decide)
    obtain ⟨htight, -⟩ := hlaid.readText_iff.mp hfound
    have hsample := htight _ (List.mem_cons_of_mem _ List.mem_cons_self)
    have hnone := hsample.brace _ _ (by decide) rfl rfl
    exact absurd hnone (by decide)

end MetricRelay.Exposition
