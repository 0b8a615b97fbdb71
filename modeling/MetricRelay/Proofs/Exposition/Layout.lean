import MetricRelay.Proofs.Exposition.LabelTokens

/-!
# The tokens of a line

A line is laid out as its first token and the pieces after it. What it says depends
on the tokens alone, with two exceptions: the reader takes no second blank between a
keyword and a name, and no blank at all between a name and an opening brace. Every
line that is read has a layout.
-/

namespace MetricRelay.Exposition

open Text (isBlank Blanks Piece Words Solid Trimmed AtBlank spread trim trimStart)

/-- A line without the blanks around it: its first token, and the pieces after it. -/
structure Layout where
  first : List Char
  rest : List Piece

namespace Layout

def text (l : Layout) : List Char := l.first ++ spread l.rest

/-- The same tokens after the same gaps, or after longer ones of spaces and tabs. -/
structure Widened (l l' : Layout) : Prop where
  first : l'.first = l.first
  rest : List.Forall₂ Piece.Wider l.rest l'.rest

instance (l l' : Layout) : Decidable (l.Widened l') :=
  decidable_of_iff (l'.first = l.first ∧ List.Forall₂ Piece.Wider l.rest l'.rest)
    ⟨fun h => ⟨h.1, h.2⟩, fun h => ⟨h.first, h.rest⟩⟩

/-- One blank stands between a keyword and the name of a family, and none between the name of a
sample and an opening brace. -/
structure Tight (l : Layout) : Prop where
  name : ∀ keyword name rest, l.first = ['#'] → l.rest = keyword :: name :: rest →
    keyword.token = "HELP".toList ∨ keyword.token = "TYPE".toList → name.gap.length = 1
  brace : ∀ brace rest, l.first ≠ ['#'] → l.rest = brace :: rest → brace.token = ['\x7b'] →
    brace.gap = []

end Layout

/-- What the tokens of a line say. -/
inductive Says : Layout → Line → Prop
  | blank : Says ⟨[], []⟩ .nothing
  | comment {words : List Piece} (hwords : Words words)
      (hplain : ∀ p, words.head? = some p →
        p.token ≠ "HELP".toList ∧ p.token ≠ "TYPE".toList) :
      Says ⟨['#'], words⟩ .nothing
  | header {keyword name : String} {g₁ g₂ : List Char} {text : Option Piece}
      (hkeyword : keyword = "HELP" ∨ keyword = "TYPE") (hsolid : Solid name.toList)
      (hne : name.toList ≠ []) (h₁ : Blanks g₁) (h₂ : Blanks g₂) (hapart : g₂ ≠ [])
      (htext : ∀ p, text = some p → Blanks p.gap ∧ p.gap ≠ [] ∧ Trimmed p.token) :
      Says ⟨['#'], ⟨g₁, keyword.toList⟩ :: ⟨g₂, name.toList⟩ :: text.toList⟩
        (described keyword name ((text.map (·.token)).getD []))
  | plain {s : Sample} {fields : List Piece} (hs : WritableSample s) (hfields : Words fields)
      (hapart : ∀ p, fields.head? = some p → p.gap ≠ [])
      (hread : readFields s.name [] (spread fields) = .ok s) :
      Says ⟨s.name.toList, fields⟩ (.sample s)
  | labelled {s : Sample} {gap : List Char} {labels fields : List Piece} (hs : WritableSample s)
      (hgap : Blanks gap) (hgaps : ∀ p ∈ labels, Blanks p.gap)
      (hlabels : LabelTokens (labels.map (·.token)) s.labels) (hfields : Words fields)
      (hread : readFields s.name s.labels (spread fields) = .ok s) :
      Says ⟨s.name.toList, ⟨gap, ['\x7b']⟩ :: (labels ++ fields)⟩ (.sample s)

/-! ### Reading -/

theorem readFields_congr {name : String} {labels : List Label} {cs ds : List Char}
    (h : Text.words cs = Text.words ds) :
    readFields name labels cs = readFields name labels ds := by
  rw [readFields, readFields, h]

theorem readLine_sample {raw line : List Char} (h : trim raw = line) (hne : line ≠ [])
    (hhash : line.head? ≠ some '#') : readLine raw = (readSample line).map .sample := by
  rw [readLine, h]
  split
  · exact absurd rfl hne
  · simp at hhash
  · rfl

theorem WritableSample.readLine_eq {s : Sample} (h : WritableSample s) {raw tail : List Char}
    (hraw : trim raw = s.name.toList ++ tail) :
    readLine raw = (readSample (s.name.toList ++ tail)).map .sample := by
  apply readLine_sample hraw
  · simp [h.name_ne]
  · rw [List.head?_append_of_ne_nil _ h.name_ne]
    exact h.no_hash

/-- A blank after the name starts the fields. -/
theorem WritableSample.readLine_blank {s : Sample} (h : WritableSample s) {raw tail : List Char}
    {c : Char} (hc : isBlank c = true) (hraw : trim raw = s.name.toList ++ c :: tail) :
    readLine raw = (readFields s.name [] (c :: tail)).map .sample := by
  have hbrace : c ≠ '\x7b' := by
    rintro rfl
    exact absurd hc (by decide)
  rw [h.readLine_eq hraw, readSample_of_name h.name_ne h.not_nameEnd (by simp [isNameEnd, hc]),
    if_neg hbrace, String.ofList_toList]

theorem WritableSample.ne_hash {s : Sample} (h : WritableSample s) : s.name.toList ≠ ['#'] := by
  intro hname
  exact h.no_hash (by rw [hname, List.head?_cons])

/-- No number starts with a brace. -/
theorem read?_brace (cs : List Char) : Number.read? ('\x7b' :: cs) = none := by
  have hword : ∀ word : String, word.toList.head? ≠ some '\x7b' →
      String.ofList (('\x7b' :: cs).map Char.toLower) ≠ word := by
    rintro _ hne rfl
    exact hne (by rw [String.toList_ofList]; rfl)
  have hdecimal : Number.readDecimal? ('\x7b' :: cs) = none := rfl
  change Number.readMagnitude? ('\x7b' :: cs) = none
  rw [Number.readMagnitude?,
    if_neg (not_or.mpr ⟨hword "inf" (by decide), hword "infinity" (by decide)⟩),
    if_neg (hword "nan" (by decide)), hdecimal]

theorem readFields_brace (name : String) (labels : List Label) {gap : List Char}
    (h : Blanks gap) (cs : List Char) :
    ∃ fault, readFields name labels (gap ++ '\x7b' :: cs) = .error fault := by
  obtain ⟨w, ws, hwords⟩ := Text.exists_words_cons (c := '\x7b') (by decide) cs
  rw [readFields, Text.words_blanks_append h, hwords]
  simp only [read?_brace]
  exact ⟨_, rfl⟩

theorem readComment_words {words : List Piece} (h : Words words) (hplain : ∀ p,
    words.head? = some p → p.token ≠ "HELP".toList ∧ p.token ≠ "TYPE".toList) :
    readComment (spread words) = .ok .nothing := by
  cases words with
  | nil => rfl
  | cons p rest =>
    obtain ⟨hhelp, htype⟩ := hplain p rfl
    have hkeyword : ¬ (String.ofList p.token = "HELP" ∨ String.ofList p.token = "TYPE") := by
      rintro (heq | heq)
      · exact hhelp (String.ofList_inj.mp (heq.trans String.ofList_toList.symm))
      · exact htype (String.ofList_inj.mp (heq.trans String.ofList_toList.symm))
    rw [readComment, h.trimStart_spread,
      Text.word_append (h.word p List.mem_cons_self).2.2 h.atBlank]
    exact if_neg hkeyword

/-- What is left of the pieces after a name is their text. -/
theorem text_of_rest {text : Option Piece}
    (h : ∀ p, text = some p → Blanks p.gap ∧ p.gap ≠ [] ∧ Trimmed p.token) :
    AtBlank (spread text.toList) ∧
      trim ((spread text.toList).drop 1) = (text.map (·.token)).getD [] := by
  cases text with
  | none => exact ⟨by simp [AtBlank], rfl⟩
  | some p =>
    obtain ⟨hgap, hne, htrimmed⟩ := h p rfl
    cases hshape : p.gap with
    | nil => exact absurd hshape hne
    | cons c gap =>
      rw [hshape, Text.Blanks, List.forall_mem_cons] at hgap
      have hspread : spread (some p).toList = c :: (gap ++ p.token) := by
        simp [Text.spread_cons, hshape]
      rw [hspread]
      constructor
      · rintro d ⟨⟩
        exact hgap.1
      · rw [List.drop_one, List.tail_cons, Text.trim_blanks_append hgap.2,
          Text.trim_of_trimmed htrimmed]
        rfl

/-- A line that is tightly laid out is read as what its tokens say. -/
theorem Says.read_of_tight {l : Layout} {line : Line} (h : Says l line) (htight : l.Tight)
    {raw : List Char} (hraw : trim raw = l.text) : readLine raw = .ok line := by
  cases h with
  | blank =>
    rw [readLine, hraw]
    rfl
  | @comment words hwords hplain =>
    rw [readLine_comment hraw]
    exact readComment_words hwords hplain
  | @header keyword name g₁ g₂ text hkeyword hsolid hne h₁ h₂ hapart htext =>
    have hone : g₂.length = 1 := by
      refine htight.name _ _ _ rfl rfl ?_
      rcases hkeyword with rfl | rfl
      · exact Or.inl rfl
      · exact Or.inr rfl
    obtain ⟨c, rfl⟩ := List.length_eq_one_iff.mp hone
    obtain ⟨hblank, htoken⟩ := text_of_rest htext
    have hshape : trim raw = '#' :: (g₁ ++ (keyword.toList ++
        c :: (name.toList ++ spread text.toList))) := by
      rw [hraw, Layout.text, Text.spread_cons, Text.spread_cons]
      rfl
    rw [readLine_comment hshape, readComment_described h₁ hkeyword (h₂ c List.mem_cons_self)
      hsolid hne hblank, htoken]
  | @plain s fields hs hfields hapart hread =>
    cases fields with
    | nil => cases hread
    | cons p rest =>
      obtain ⟨c, gap, hgap⟩ := List.exists_cons_of_ne_nil (hapart p rfl)
      have hc : isBlank c = true := by
        apply (hfields.word p List.mem_cons_self).1
        rw [hgap]
        exact List.mem_cons_self
      have hshape : spread (p :: rest) = c :: (gap ++ (p.token ++ spread rest)) := by
        rw [Text.spread_cons, hgap, List.cons_append]
      rw [hshape] at hread
      rw [Layout.text, hshape] at hraw
      rw [hs.readLine_blank hc hraw, hread]
      rfl
  | @labelled s gap labels fields hs hgap hgaps hlabels hfields hread =>
    obtain rfl : gap = [] := htight.brace _ _ hs.ne_hash rfl rfl
    have hshape : spread (⟨[], ['\x7b']⟩ :: (labels ++ fields)) =
        '\x7b' :: (spread labels ++ spread fields) := by
      rw [Text.spread_cons, Text.spread_append]
      rfl
    rw [hs.readLine_eq hraw, hshape, readSample_of_name hs.name_ne hs.not_nameEnd rfl, if_pos rfl,
      hlabels.taken rfl hgaps, String.ofList_toList]
    simp only [hread, Except.map]

/-- A line that is not tightly laid out is not read. -/
theorem Says.fault_of_loose {l : Layout} {line : Line} (h : Says l line) (hloose : ¬ l.Tight)
    {raw : List Char} (hraw : trim raw = l.text) : ∃ fault, readLine raw = .error fault := by
  -- Only a header and a sample with labels can be loose; the other cases are tight by their words.
  cases h with
  | blank =>
    refine absurd ⟨?_, ?_⟩ hloose
    · rintro keyword name rest ⟨⟩
    · rintro brace rest - ⟨⟩
  | @comment words hwords hplain =>
    refine absurd ⟨?_, ?_⟩ hloose
    · rintro keyword name rest - rfl hkeyword
      obtain ⟨hhelp, htype⟩ := hplain keyword rfl
      exact absurd hkeyword (not_or.mpr ⟨hhelp, htype⟩)
    · exact fun _ _ hne => absurd rfl hne
  | @header keyword name g₁ g₂ text hkeyword hsolid hne h₁ h₂ hapart htext =>
    have hlong : g₂.length ≠ 1 := by
      intro hone
      refine hloose ⟨?_, fun _ _ hne => absurd rfl hne⟩
      rintro _ _ _ - ⟨⟩ -
      exact hone
    match g₂ with
    | [] => exact absurd rfl hapart
    | [c] => exact absurd rfl hlong
    | c :: d :: g =>
      simp only [Blanks, List.forall_mem_cons] at h₂
      obtain ⟨hc, hd, -⟩ := h₂
      have hshape : trim raw = '#' :: (g₁ ++ (keyword.toList ++
          c :: d :: (g ++ (name.toList ++ spread text.toList)))) := by
        rw [hraw, Layout.text, Text.spread_cons, Text.spread_cons]
        rfl
      rw [readLine_comment hshape, readComment_unnamed h₁ hkeyword]
      · exact ⟨_, rfl⟩
      · rintro _ ⟨⟩
        exact hc
      · rintro _ ⟨⟩
        exact hd
  | @plain s fields hs hfields hapart hread =>
    refine absurd ⟨fun _ _ _ hhash => absurd hhash hs.ne_hash, ?_⟩ hloose
    rintro brace rest - rfl hbrace
    obtain ⟨fault, hfault⟩ := readFields_brace s.name []
      (hfields.word brace List.mem_cons_self).1 (spread rest)
    rw [Text.spread_cons, hbrace, List.singleton_append, hfault] at hread
    cases hread
  | @labelled s gap labels fields hs hgap hgaps hlabels hfields hread =>
    have hne : gap ≠ [] := by
      intro hnil
      refine hloose ⟨fun _ _ _ hhash => absurd hhash hs.ne_hash, ?_⟩
      rintro _ _ - ⟨⟩ -
      exact hnil
    obtain ⟨fault, hfault⟩ := readFields_brace s.name [] hgap
      (spread (labels ++ fields))
    obtain ⟨c, g, rfl⟩ := List.exists_cons_of_ne_nil hne
    have hshape : trim raw = s.name.toList ++ c :: (g ++ '\x7b' :: spread (labels ++ fields)) := by
      rw [hraw, Layout.text, Text.spread_cons]
      rfl
    rw [List.cons_append] at hfault
    rw [hs.readLine_blank (hgap c List.mem_cons_self) hshape, hfault]
    exact ⟨_, rfl⟩

/-- A line is read exactly if it is tightly laid out, and then as what its tokens say. -/
theorem Says.readLine_iff {l : Layout} {said : Line} (h : Says l said) {raw : List Char}
    (hraw : trim raw = l.text) {line : Line} : readLine raw = .ok line ↔ l.Tight ∧ line = said := by
  by_cases htight : l.Tight
  · rw [h.read_of_tight htight hraw, Except.ok.injEq, eq_comm]
    exact (and_iff_right htight).symm
  · obtain ⟨fault, hfault⟩ := h.fault_of_loose htight hraw
    rw [hfault]
    constructor
    · rintro ⟨⟩
    · exact fun hread => absurd hread.1 htight

/-! ### Every line that is read -/

/-- The name of a sample that is read ends at a blank or at an opening brace. -/
theorem cases_of_readSample {line : List Char} {s : Sample} (h : readSample line = .ok s) :
    ∃ c tail, line = s.name.toList ++ c :: tail ∧
      ((isBlank c = true ∧ readFields s.name [] (c :: tail) = .ok s) ∨
        (c = '\x7b' ∧ ∃ rest, takeLabels tail = .ok (s.labels, rest) ∧
          readFields s.name s.labels rest = .ok s)) := by
  have hline := List.takeWhile_append_dropWhile (p := (!isNameEnd ·)) (l := line)
  unfold readSample at h
  dsimp only at h
  split at h
  · cases h
  · next c tail hdrop =>
    have hend : isNameEnd c = true := by
      have hhead : (line.dropWhile (!isNameEnd ·)).head? = some c := by rw [hdrop, List.head?_cons]
      simpa using Text.head_not_of_dropWhile hhead
    rw [hdrop] at hline
    split at h
    · cases h
    · split at h
      · next hbrace =>
        split at h
        · cases h
        · next labels rest htake =>
          obtain ⟨hname, rfl, -⟩ := readFields_ok h
          refine ⟨c, tail, ?_, Or.inr ⟨hbrace, rest, htake, ?_⟩⟩
          · rw [hname, String.toList_ofList, hline]
          · rw [hname]
            exact h
      · next hbrace =>
        obtain ⟨hname, -, -⟩ := readFields_ok h
        refine ⟨c, tail, ?_, Or.inl ⟨?_, ?_⟩⟩
        · rw [hname, String.toList_ofList, hline]
        · simpa [isNameEnd, hbrace] using hend
        · rw [hname, ← hdrop]
          exact h

/-- What follows a name is one text. -/
theorem exists_text {words : List Piece} (h : Words words)
    (hapart : ∀ p, words.head? = some p → p.gap ≠ [])
    (hlast : ∀ c, (spread words).getLast? = some c → isBlank c = false) :
    ∃ text : Option Piece, spread text.toList = spread words ∧
      ∀ p, text = some p → Blanks p.gap ∧ p.gap ≠ [] ∧ Trimmed p.token := by
  cases words with
  | nil => exact ⟨none, rfl, by simp⟩
  | cons p rest =>
    obtain ⟨hgap, hne, hsolid⟩ := h.word p List.mem_cons_self
    refine ⟨some ⟨p.gap, p.token ++ spread rest⟩, by simp [Text.spread_cons], ?_⟩
    rintro _ ⟨⟩
    refine ⟨hgap, hapart p rfl, ?_, ?_⟩
    · intro c hc
      rw [List.head?_append_of_ne_nil _ hne] at hc
      exact hsolid c (List.mem_of_mem_head? hc)
    · refine Text.last_of_suffix ?_ hlast
      rw [Text.spread_cons]
      exact List.suffix_append ..

/-- A comment with a keyword names a family, and what follows the name is one text. -/
theorem exists_header {raw : List Char} {p : Piece} {rest : List Piece} (hwords : Words (p :: rest))
    (hraw : trim raw = '#' :: spread (p :: rest)) {keyword : String}
    (hkeyword : keyword = "HELP" ∨ keyword = "TYPE") (htoken : p.token = keyword.toList)
    {line : Line} (h : readComment (spread (p :: rest)) = .ok line) :
    ∃ l said, Says l said ∧ trim raw = l.text := by
  have hgap := (hwords.word p List.mem_cons_self).1
  cases rest with
  | nil =>
    have hend : AtBlank [] := by rintro c ⟨⟩
    rw [Text.spread_cons, htoken, Text.spread_nil, readComment_unnamed hgap hkeyword hend hend]
      at h
    cases h
  | cons q rest =>
    have hapart : q.gap ≠ [] := hwords.apart q List.mem_cons_self
    obtain ⟨hblanks, hne, hsolid⟩ := hwords.tail.word q List.mem_cons_self
    have hshape : trim raw =
        '#' :: (p.gap ++ (p.token ++ (q.gap ++ (q.token ++ spread rest)))) := by
      rw [hraw, Text.spread_cons, Text.spread_cons]
    have hlast : ∀ c, (spread rest).getLast? = some c → isBlank c = false := by
      refine Text.last_of_suffix ?_ (Text.trimmed_trim raw).2
      rw [hshape, ← List.append_assoc q.gap, ← List.append_assoc p.token,
        ← List.append_assoc p.gap, ← List.cons_append]
      exact List.suffix_append ..
    obtain ⟨text, hspread, htext⟩ := exists_text hwords.tail.tail
      (fun r hr => hwords.tail.apart r (List.mem_of_mem_head? hr)) hlast
    have hname : (String.ofList q.token).toList = q.token := String.toList_ofList
    rw [← hname] at hne hsolid
    refine ⟨_, _, .header hkeyword hsolid hne hgap hblanks hapart htext, ?_⟩
    rw [hshape, Layout.text, Text.spread_cons, Text.spread_cons, hspread, htoken, hname]
    rfl

theorem exists_comment {raw cs : List Char} (hraw : trim raw = '#' :: cs) {line : Line}
    (h : readComment cs = .ok line) : ∃ l said, Says l said ∧ trim raw = l.text := by
  have hlast : ∀ c, cs.getLast? = some c → isBlank c = false := by
    refine Text.last_of_suffix (List.suffix_cons '#' cs) ?_
    rw [← hraw]
    exact (Text.trimmed_trim raw).2
  obtain ⟨words, hwords, rfl⟩ := Words.exists_spread hlast
  by_cases hplain : ∀ p, words.head? = some p →
      p.token ≠ "HELP".toList ∧ p.token ≠ "TYPE".toList
  · exact ⟨_, _, .comment hwords hplain, hraw⟩
  · simp only [not_forall, not_and_or, not_ne_iff] at hplain
    obtain ⟨p, hp, htoken⟩ := hplain
    obtain ⟨rest, rfl⟩ := List.head?_eq_some_iff.mp hp
    rcases htoken with hhelp | htype
    · exact exists_header hwords hraw (Or.inl rfl) hhelp h
    · exact exists_header hwords hraw (Or.inr rfl) htype h

theorem exists_sample {raw : List Char} {s : Sample} (h : readSample (trim raw) = .ok s)
    (hs : WritableSample s) (hline : '\n' ∉ trim raw) :
    ∃ l said, Says l said ∧ trim raw = l.text := by
  have hends {cs : List Char} (hcs : cs <:+ trim raw) :
      ∀ c, cs.getLast? = some c → isBlank c = false :=
    Text.last_of_suffix hcs (Text.trimmed_trim raw).2
  obtain ⟨c, tail, hshape, ⟨hc, hread⟩ | ⟨rfl, rest, htake, hread⟩⟩ := cases_of_readSample h
  · have htail : c :: tail <:+ trim raw := hshape ▸ List.suffix_append ..
    obtain ⟨fields, hwords, hspread⟩ := Words.exists_spread (hends htail)
    refine ⟨_, _, .plain hs hwords ?_ (hspread ▸ hread), ?_⟩
    · exact hwords.apart_of_blank hspread hc
    · rw [hshape, Layout.text, hspread]
  · have htail : tail <:+ trim raw :=
      hshape ▸ (List.suffix_cons ..).trans (List.suffix_append ..)
    obtain ⟨labels, hgaps, hlabels, hlabelled⟩ :=
      exists_labelTokens htake fun hmem => hline (htail.subset hmem)
    have hrest : rest <:+ tail := hlabelled ▸ List.suffix_append ..
    obtain ⟨fields, hwords, hspread⟩ := Words.exists_spread (hends (hrest.trans htail))
    have hnone : Blanks [] := by simp [Blanks]
    refine ⟨_, _, .labelled hs hnone hgaps hlabels hwords (hspread ▸ hread), ?_⟩
    rw [hshape, Layout.text, Text.spread_cons, Text.spread_append, hspread, hlabelled]
    rfl

/-- Every line that is read has a layout. -/
theorem exists_layout {raw : List Char} {line : Line} (h : readLine raw = .ok line)
    (hline : '\n' ∉ raw) : ∃ l said, Says l said ∧ trim raw = l.text := by
  have hlegible := legible_of_readLine h hline
  by_cases hblank : trim raw = []
  · exact ⟨_, _, .blank, hblank⟩
  · by_cases hhash : (trim raw).head? = some '#'
    · obtain ⟨cs, hraw⟩ := List.head?_eq_some_iff.mp hhash
      rw [readLine_comment hraw] at h
      exact exists_comment hraw h
    · rw [readLine_sample rfl hblank hhash] at h
      cases hread : readSample (trim raw) with
      | error fault =>
        rw [hread] at h
        cases h
      | ok s =>
        rw [hread] at h
        obtain rfl := Except.ok.inj h
        exact exists_sample hread hlegible fun hmem =>
          hline ((Text.trim_within raw).subset hmem)

end MetricRelay.Exposition
