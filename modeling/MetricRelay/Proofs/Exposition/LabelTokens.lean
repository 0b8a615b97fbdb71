import MetricRelay.Proofs.Exposition.Legible

/-!
# The tokens of labels

The labels of a sample are spelt by tokens: names, equals signs, quoted values,
commas and a closing brace. The reader takes these tokens with any blanks before
them, and takes nothing else.
-/

namespace MetricRelay.Exposition

open Text (isBlank Blanks Piece spread trim trimStart)

/-- The tokens of labels up to the closing brace, and the labels that they spell. -/
inductive LabelTokens : List (List Char) → List Label → Prop
  | close : LabelTokens [['\x7d']] []
  | last {l : Label} {quoted : List Char} (hname : WritableLabel l)
      (hvalue : takeQuoted? quoted = some (l.value.toList, [])) :
      LabelTokens [l.name.toList, ['='], '"' :: quoted, ['\x7d']] [l]
  | more {l : Label} {quoted : List Char} {tokens : List (List Char)} {ls : List Label}
      (hname : WritableLabel l) (hvalue : takeQuoted? quoted = some (l.value.toList, []))
      (hmore : LabelTokens tokens ls) :
      LabelTokens (l.name.toList :: ['='] :: ('"' :: quoted) :: [','] :: tokens) (l :: ls)

theorem takeQuoted?_plain {c : Char} (hquote : c ≠ '"') (hslash : c ≠ '\\') (cs : List Char) :
    takeQuoted? (c :: cs) = (takeQuoted? cs).map fun (v, rest) => (c :: v, rest) := by
  simp [takeQuoted?, hslash]

/-- A quoted value ends with its closing quote, whatever follows. -/
theorem exists_quoted {cs v rest : List Char} (h : takeQuoted? cs = some (v, rest)) :
    ∃ quoted, quoted ++ rest = cs ∧
      ∀ after, takeQuoted? (quoted ++ after) = some (v, after) := by
  fun_induction takeQuoted? cs generalizing v rest with
  | case1 => cases h
  | case2 cs =>
    cases h
    exact ⟨['"'], rfl, fun _ => rfl⟩
  | case3 => cases h
  | case4 c cs ih =>
    simp only [Option.map_eq_some_iff, Prod.mk.injEq, Prod.exists] at h
    obtain ⟨v', rest', h', rfl, rfl⟩ := h
    obtain ⟨quoted, rfl, hquoted⟩ := ih h'
    exact ⟨'\\' :: c :: quoted, rfl, fun after => by simp [takeQuoted?, hquoted]⟩
  | case5 c cs hquote hlast hslash ih =>
    simp only [Option.map_eq_some_iff, Prod.mk.injEq, Prod.exists] at h
    obtain ⟨v', rest', h', rfl, rfl⟩ := h
    obtain ⟨quoted, hcs, hquoted⟩ := ih h'
    have hplain : c ≠ '\\' := by
      intro hc
      cases cs with
      | nil => exact hlast hc rfl
      | cons d ds => exact hslash d ds hc rfl
    refine ⟨c :: quoted, congrArg (c :: ·) hcs, fun after => ?_⟩
    rw [List.cons_append, takeQuoted?_plain hquote hplain, hquoted]
    rfl

theorem takeQuoted?_append {quoted v : List Char} (h : takeQuoted? quoted = some (v, []))
    (after : List Char) : takeQuoted? (quoted ++ after) = some (v, after) := by
  obtain ⟨own, howned, hown⟩ := exists_quoted h
  rw [List.append_nil] at howned
  rw [← howned]
  exact hown after

/-- The reader takes a label with any blanks around its tokens. -/
theorem takeLabels_label {l : Label} {quoted : List Char} (hname : WritableLabel l)
    (hvalue : takeQuoted? quoted = some (l.value.toList, [])) {g₁ g₂ g₃ : List Char}
    (h₁ : Blanks g₁) (h₂ : Blanks g₂) (h₃ : Blanks g₃) (after : List Char) :
    takeLabels (g₁ ++ (l.name.toList ++ (g₂ ++ '=' :: (g₃ ++ '"' :: (quoted ++ after))))) =
      match trimStart after with
      | ',' :: r => (takeLabels r).map fun (labels, t) => (l :: labels, t)
      | '\x7d' :: r => .ok ([l], r)
      | _ => .error .labelNotSeparated := by
  have hstart : trimStart
      (g₁ ++ (l.name.toList ++ (g₂ ++ '=' :: (g₃ ++ '"' :: (quoted ++ after))))) =
      trimStart (l.name.toList ++ g₂) ++ '=' :: (g₃ ++ '"' :: (quoted ++ after)) := by
    rw [Text.trimStart_blanks_append h₁, ← List.append_assoc,
      Text.trimStart_append_cons (by decide)]
  have hwithin : trimStart (l.name.toList ++ g₂) <:+ l.name.toList ++ g₂ :=
    List.dropWhile_suffix isBlank
  have hequals : '=' ∉ trimStart (l.name.toList ++ g₂) := by
    intro hmem
    rcases List.mem_append.mp (hwithin.subset hmem) with hown | hgap
    · exact hname.no_equals hown
    · exact absurd (h₂ '=' hgap) (by decide)
  have htrim : trim (trimStart (l.name.toList ++ g₂)) = l.name.toList := by
    obtain ⟨gap, hgap, hcs⟩ := Text.exists_gap (l.name.toList ++ g₂)
    rw [← Text.trim_blanks_append hgap, hcs, Text.trim_append_blanks h₂, hname.trimmed]
  have hopen : (trimStart (l.name.toList ++ g₂)).head? ≠ some '\x7d' := by
    intro hhead
    cases hcs : l.name.toList with
    | nil =>
      rw [hcs, List.nil_append, ← List.append_nil g₂, Text.trimStart_blanks_append h₂] at hhead
      cases hhead
    | cons c cs =>
      have hfirst : l.name.toList.head? = some c := by rw [hcs, List.head?_cons]
      have hblank := Text.head_not_blank_of_trim hname.trimmed hfirst
      rw [hcs, List.cons_append, trimStart_cons hblank] at hhead
      obtain rfl := Option.some.inj hhead
      exact hname.not_closing hfirst
  have hquote : trimStart (g₃ ++ '"' :: (quoted ++ after)) = '"' :: (quoted ++ after) :=
    Text.trimStart_token h₃ (by decide) (quoted ++ after)
  apply takeLabels_of_takeLabel
  · rw [hstart, List.head?_append]
    cases hhead : (trimStart (l.name.toList ++ g₂)).head? with
    | none => simp
    | some c =>
      rintro ⟨⟩
      exact hopen hhead
  · rw [hstart, takeLabel, Text.cutAt?_append hequals]
    simp only [hquote, takeQuoted?_append hvalue, htrim, String.ofList_toList]

theorem takeLabels_close {cs rest : List Char} (h : trimStart cs = '\x7d' :: rest) :
    takeLabels cs = .ok ([], rest) := by
  rw [takeLabels]
  split
  · next tail htail =>
    rw [h] at htail
    cases htail
    rfl
  · next hopen => exact absurd h (hopen rest)

/-- The reader takes the first three tokens as a label, and goes on with the pieces after them. -/
theorem exists_takeLabels_pieces {l : Label} {quoted : List Char} (hname : WritableLabel l)
    (hvalue : takeQuoted? quoted = some (l.value.toList, [])) {pieces : List Piece}
    {tokens : List (List Char)}
    (htokens : pieces.map (·.token) = l.name.toList :: ['='] :: ('"' :: quoted) :: tokens)
    (hgaps : ∀ p ∈ pieces, Blanks p.gap) (rest : List Char) :
    ∃ more, more.map (·.token) = tokens ∧ (∀ p ∈ more, Blanks p.gap) ∧
      takeLabels (spread pieces ++ rest) =
        match trimStart (spread more ++ rest) with
        | ',' :: r => (takeLabels r).map fun (labels, t) => (l :: labels, t)
        | '\x7d' :: r => .ok ([l], r)
        | _ => .error .labelNotSeparated := by
  obtain ⟨g₁, pieces, h₁, htokens, hgaps, hspread₁⟩ := Text.exists_piece htokens hgaps
  obtain ⟨g₂, pieces, h₂, htokens, hgaps, hspread₂⟩ := Text.exists_piece htokens hgaps
  obtain ⟨g₃, more, h₃, htokens, hgaps, hspread₃⟩ := Text.exists_piece htokens hgaps
  refine ⟨more, htokens, hgaps, ?_⟩
  rw [← takeLabels_label hname hvalue h₁ h₂ h₃, hspread₁, hspread₂, hspread₃]
  simp

/-- The reader takes the tokens of labels as the labels that they spell. -/
theorem LabelTokens.taken {tokens : List (List Char)} {labels : List Label}
    (h : LabelTokens tokens labels) {pieces : List Piece} (htokens : pieces.map (·.token) = tokens)
    (hgaps : ∀ p ∈ pieces, Blanks p.gap) (rest : List Char) :
    takeLabels (spread pieces ++ rest) = .ok (labels, rest) := by
  have hclose {pieces : List Piece} (htokens : pieces.map (·.token) = [['\x7d']])
      (hgaps : ∀ p ∈ pieces, Blanks p.gap) :
      trimStart (spread pieces ++ rest) = '\x7d' :: rest := by
    obtain ⟨gap, more, hgap, hmore, -, hspread⟩ := Text.exists_piece htokens hgaps
    obtain rfl := List.map_eq_nil_iff.mp hmore
    rw [hspread, List.append_assoc]
    exact Text.trimStart_token hgap (by decide) rest
  induction h generalizing pieces with
  | close => exact takeLabels_close (hclose htokens hgaps)
  | last hname hvalue =>
    obtain ⟨more, hmore, hblanks, htake⟩ := exists_takeLabels_pieces hname hvalue htokens hgaps rest
    rw [htake, hclose hmore hblanks]
    rfl
  | more hname hvalue _ ih =>
    obtain ⟨more, hmore, hblanks, htake⟩ := exists_takeLabels_pieces hname hvalue htokens hgaps rest
    obtain ⟨gap, next, hgap, hnext, hgaps, hspread⟩ := Text.exists_piece hmore hblanks
    have hcomma : trimStart (spread more ++ rest) = ',' :: (spread next ++ rest) := by
      rw [hspread, List.append_assoc]
      exact Text.trimStart_token hgap (by decide) (spread next ++ rest)
    rw [htake, hcomma]
    simp only [ih hnext hgaps, Except.map]

/-- A label that is taken is spelt by three tokens. -/
theorem exists_label {cs rest : List Char} {l : Label} (h : takeLabel cs = .ok (l, rest)) :
    ∃ g₁ g₂ g₃ quoted, Blanks g₁ ∧ Blanks g₂ ∧ Blanks g₃ ∧
      takeQuoted? quoted = some (l.value.toList, []) ∧
      g₁ ++ (l.name.toList ++ (g₂ ++ '=' :: (g₃ ++ '"' :: (quoted ++ rest)))) = cs := by
  unfold takeLabel at h
  split at h
  · cases h
  · next name tail hcut =>
    obtain ⟨rfl, -⟩ := Text.eq_of_cutAt? hcut
    dsimp only at h
    split at h
    · next after hquote =>
      split at h
      · next value rest' hvalue =>
        obtain ⟨rfl, rfl⟩ := Prod.mk.inj (Except.ok.inj h)
        obtain ⟨quoted, rfl, hquoted⟩ := exists_quoted hvalue
        obtain ⟨g₁, g₂, h₁, h₂, hname⟩ := Text.exists_trim name
        obtain ⟨g₃, h₃, htail⟩ := Text.exists_gap tail
        refine ⟨g₁, g₂, g₃, quoted, h₁, h₂, h₃, ?_, ?_⟩
        · rw [String.toList_ofList]
          simpa using hquoted []
        · rw [String.toList_ofList, ← hquote, htail, ← List.append_assoc (trim name),
            ← List.append_assoc g₁, hname]
      · cases h
    · cases h

/-- Labels that are taken are spelt by tokens. -/
theorem exists_labelTokens {cs rest : List Char} {labels : List Label}
    (h : takeLabels cs = .ok (labels, rest)) (hline : '\n' ∉ cs) :
    ∃ pieces : List Piece, (∀ p ∈ pieces, Blanks p.gap) ∧
      LabelTokens (pieces.map (·.token)) labels ∧ spread pieces ++ rest = cs := by
  -- The reader goes on after a comma, where less of the line is left.
  induction hlen : cs.length using Nat.strong_induction_on generalizing cs labels rest with
  | _ n ih =>
    subst hlen
    obtain ⟨gap, hgap, hcs⟩ := Text.exists_gap cs
    unfold takeLabels at h
    split at h
    · next tail hclose =>
      cases h
      refine ⟨[⟨gap, ['\x7d']⟩], by simpa using hgap, .close, ?_⟩
      rw [← hcs, hclose, Text.spread_cons]
      simp
    · next hopen =>
      split at h
      · cases h
      · next l after htake =>
        obtain ⟨hlabel, hafter⟩ := writable_of_takeLabel htake (label_start hopen)
          (newline_not_mem_trimStart hline)
        obtain ⟨g₁, g₂, g₃, quoted, h₁, h₂, h₃, hquoted, hshape⟩ := exists_label htake
        obtain ⟨g₄, h₄, hrest⟩ := Text.exists_gap after
        split at h
        · next tail hcomma =>
          have hshort : tail.length < cs.length :=
            calc tail.length < (trimStart after).length := by simp [hcomma]
              _ ≤ after.length := Text.length_trimStart_le after
              _ < (trimStart cs).length := length_of_takeLabel htake
              _ ≤ cs.length := Text.length_trimStart_le cs
          have hnext : '\n' ∉ tail := by
            have hstart := newline_not_mem_trimStart hafter
            rw [hcomma] at hstart
            exact fun hmem => hstart (List.mem_cons_of_mem _ hmem)
          cases hmore : takeLabels tail with
          | error fault =>
            rw [hmore] at h
            cases h
          | ok more =>
            rw [hmore] at h
            cases h
            obtain ⟨pieces, hgaps, htokens, hspread⟩ := ih _ hshort hmore hnext rfl
            refine ⟨⟨gap ++ g₁, l.name.toList⟩ :: ⟨g₂, ['=']⟩ :: ⟨g₃, '"' :: quoted⟩ ::
              ⟨g₄, [',']⟩ :: pieces, ?_, .more hlabel hquoted htokens, ?_⟩
            · simp only [List.forall_mem_cons]
              exact ⟨hgap.append h₁, h₂, h₃, h₄, hgaps⟩
            · rw [← hcs, ← hshape, ← hrest, hcomma, ← hspread]
              simp [Text.spread_cons]
        · next tail hclose =>
          cases h
          refine ⟨[⟨gap ++ g₁, l.name.toList⟩, ⟨g₂, ['=']⟩, ⟨g₃, '"' :: quoted⟩,
            ⟨g₄, ['\x7d']⟩], ?_, .last hlabel hquoted, ?_⟩
          · simp only [List.forall_mem_cons]
            exact ⟨hgap.append h₁, h₂, h₃, h₄, by simp⟩
          · rw [← hcs, ← hshape, ← hrest, hclose]
            simp [Text.spread_cons]
        · cases h

end MetricRelay.Exposition
