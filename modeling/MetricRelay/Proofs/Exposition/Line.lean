import MetricRelay.Exposition.Line
import MetricRelay.Exposition.Writer
import MetricRelay.Proofs.Number.Written
import MetricRelay.Proofs.Text.Spacing

/-!
# Written lines read back

Each line of a written family is read as what it was written from. A label
value may hold any characters; a label name, a sample name and a help text must
not start or end in a way that the reader takes for something else.
-/

namespace MetricRelay.Exposition

open Text (isBlank Blanks Solid Trimmed AtBlank trim trimStart)

/-! ### Escaping -/

theorem takeQuoted?_escapeValue (value rest : List Char) :
    takeQuoted? (escapeValue value ++ '"' :: rest) = some (value, rest) := by
  induction value with
  | nil => simp [escapeValue, takeQuoted?]
  | cons c cs ih =>
    by_cases hslash : c = '\\'
    · simp [escapeValue, takeQuoted?, hslash, ih]
    · by_cases hquote : c = '"'
      · simp [escapeValue, takeQuoted?, hquote, ih]
      · by_cases hline : c = '\n'
        · simp [escapeValue, takeQuoted?, hline, ih]
        · simp [escapeValue, takeQuoted?, hslash, hquote, hline, ih]

theorem unescapeHelp_escapeHelp (help : List Char) :
    unescapeHelp (escapeHelp help) = help := by
  induction help with
  | nil => rfl
  | cons c cs ih =>
    by_cases hslash : c = '\\'
    · simp [escapeHelp, unescapeHelp, hslash, ih]
    · by_cases hline : c = '\n'
      · simp [escapeHelp, unescapeHelp, hline, ih]
      · simp [escapeHelp, unescapeHelp, hslash, hline, ih]

theorem newline_not_mem_escapeValue (value : List Char) : '\n' ∉ escapeValue value := by
  induction value with
  | nil => simp [escapeValue]
  | cons c cs ih =>
    rw [escapeValue]
    split
    · simp [ih]
    · split
      · simp [ih]
      · split
        · simp [ih]
        · next hline => simp [ih, Ne.symm hline]

theorem newline_not_mem_escapeHelp (help : List Char) : '\n' ∉ escapeHelp help := by
  induction help with
  | nil => simp [escapeHelp]
  | cons c cs ih =>
    rw [escapeHelp]
    split
    · simp [ih]
    · split
      · simp [ih]
      · next hline => simp [ih, Ne.symm hline]

/-! ### Labels -/

/-- A label whose name the reader finds again; its value is free. -/
structure WritableLabel (l : Label) : Prop where
  trimmed : trim l.name.toList = l.name.toList
  no_equals : '=' ∉ l.name.toList
  no_newline : '\n' ∉ l.name.toList
  not_closing : l.name.toList.head? ≠ some '\x7d'

theorem takeLabel_writeLabel {l : Label} (h : WritableLabel l) (rest : List Char) :
    takeLabel (writeLabel l ++ rest) = .ok (l, rest) := by
  have hshape : writeLabel l ++ rest =
      l.name.toList ++ '=' :: ('"' :: (escapeValue l.value.toList ++ '"' :: rest)) := by
    simp [writeLabel]
  have hstart : trimStart ('"' :: (escapeValue l.value.toList ++ '"' :: rest)) =
      '"' :: (escapeValue l.value.toList ++ '"' :: rest) := by
    apply Text.trimStart_of_head
    intro c hc
    obtain rfl : '"' = c := by simpa using hc
    decide
  rw [hshape, takeLabel, Text.cutAt?_append h.no_equals]
  simp only [hstart, takeQuoted?_escapeValue, h.trimmed, String.ofList_toList]

theorem writeLabel_head {l : Label} (h : WritableLabel l) :
    ∃ c cs, writeLabel l = c :: cs ∧ isBlank c = false ∧ c ≠ '\x7d' := by
  rw [writeLabel]
  cases hname : l.name.toList with
  | nil =>
    rw [List.nil_append]
    exact ⟨'=', _, rfl, by decide, by decide⟩
  | cons c cs =>
    have hhead : l.name.toList.head? = some c := by simp [hname]
    refine ⟨c, _, rfl, Text.head_not_blank_of_trim h.trimmed hhead, ?_⟩
    rintro rfl
    exact h.not_closing hhead

theorem trimStart_writeLabel {l : Label} (h : WritableLabel l) (rest : List Char) :
    trimStart (writeLabel l ++ rest) = writeLabel l ++ rest := by
  obtain ⟨c, cs, heq, hblank, -⟩ := writeLabel_head h
  apply Text.trimStart_of_head
  intro d hd
  rw [heq] at hd
  obtain rfl : c = d := by simpa using hd
  exact hblank

theorem trimStart_cons {c : Char} (h : isBlank c = false) (cs : List Char) :
    trimStart (c :: cs) = c :: cs := by
  simp [trimStart, h]

/-- After a label the reader looks at the next character. -/
theorem takeLabels_of_takeLabel {cs tail : List Char} {l : Label}
    (hopen : (trimStart cs).head? ≠ some '\x7d') (h : takeLabel (trimStart cs) = .ok (l, tail)) :
    takeLabels cs =
      match trimStart tail with
      | ',' :: r => (takeLabels r).map fun (labels, t) => (l :: labels, t)
      | '\x7d' :: r => .ok ([l], r)
      | _ => .error .labelNotSeparated := by
  rw [takeLabels]
  split
  · next r hr => simp [hr] at hopen
  · split
    · next fault hfault =>
      rw [h] at hfault
      cases hfault
    · next label rest hlabel =>
      rw [h] at hlabel
      cases hlabel
      split
      · next r hr => simp only [hr]
      · next r hr => simp only [hr]
      · next hcomma hbrace => split <;> simp_all

theorem takeLabels_step {l : Label} (h : WritableLabel l) (rest : List Char) :
    takeLabels (writeLabel l ++ rest) =
      match trimStart rest with
      | ',' :: r => (takeLabels r).map fun (labels, t) => (l :: labels, t)
      | '\x7d' :: r => .ok ([l], r)
      | _ => .error .labelNotSeparated := by
  have hstart := trimStart_writeLabel h rest
  apply takeLabels_of_takeLabel
  · obtain ⟨c, cs, heq, -, hclose⟩ := writeLabel_head h
    rw [hstart, heq]
    simpa using hclose
  · rw [hstart]
    exact takeLabel_writeLabel h rest

theorem takeLabels_intercalate {l : Label} {ls : List Label}
    (h : ∀ x ∈ l :: ls, WritableLabel x) (rest : List Char) :
    takeLabels (List.intercalate [','] ((l :: ls).map writeLabel) ++ '\x7d' :: rest) =
      .ok (l :: ls, rest) := by
  induction ls generalizing l with
  | nil =>
    have hl := h l (by simp)
    rw [List.map_singleton, List.intercalate_singleton, takeLabels_step hl,
      trimStart_cons (by decide)]
    rfl
  | cons m ms ih =>
    have hl := h l (by simp)
    have htail := ih (l := m) fun x hx => h x (List.mem_cons_of_mem l hx)
    have hshape : List.intercalate [','] ((l :: m :: ms).map writeLabel) ++ '\x7d' :: rest =
        writeLabel l ++ ',' :: (List.intercalate [','] ((m :: ms).map writeLabel) ++
          '\x7d' :: rest) := by
      simp [List.intercalate]
    rw [hshape, takeLabels_step hl, trimStart_cons (by decide)]
    simp only [htail, Except.map]

/-! ### Samples -/

/-- A sample whose name, labels and timestamp the reader finds again. -/
structure WritableSample (s : Sample) : Prop where
  name_ne : s.name.toList ≠ []
  name_solid : Solid s.name.toList
  no_brace : '\x7b' ∉ s.name.toList
  no_hash : s.name.toList.head? ≠ some '#'
  labels : ∀ l ∈ s.labels, WritableLabel l
  timestamp : ∀ t, s.timestamp = some t →
    -(Number.maxI64 + 1 : Nat) ≤ t ∧ t ≤ Number.maxI64

theorem readFields_written {name : String} {labels : List Label} {x : Float} {time : Option Int}
    (hvalue : Number.read? (Number.valueText x).toList = some x)
    (htime : ∀ t, time = some t → -(Number.maxI64 + 1 : Nat) ≤ t ∧ t ≤ Number.maxI64) :
    readFields name labels (' ' :: (Number.valueText x).toList ++ writeTimestamp time) =
      .ok ⟨name, labels, x, time⟩ := by
  have hsolid := Number.solid_valueText x
  have hne := Number.valueText_ne_nil x
  rw [List.cons_append, readFields, Text.words_blank_cons Text.isBlank_space]
  cases time with
  | none =>
    have hwords : Text.words ((Number.valueText x).toList ++ []) =
        [(Number.valueText x).toList] := Text.words_append hsolid hne (by simp [AtBlank])
    simp only [writeTimestamp, hwords, hvalue]
  | some t =>
    have htext := Number.solid_signedText t
    have htextne := Number.signedText_ne_nil t
    have hlast : Text.words ((Number.signedText t).toList ++ []) =
        [(Number.signedText t).toList] := Text.words_append htext htextne (by simp [AtBlank])
    rw [List.append_nil] at hlast
    have hwords : Text.words ((Number.valueText x).toList ++ writeTimestamp (some t)) =
        [(Number.valueText x).toList, (Number.signedText t).toList] := by
      rw [writeTimestamp, Text.words_append hsolid hne, Text.words_blank_cons Text.isBlank_space,
        hlast]
      intro c hc
      obtain rfl : ' ' = c := by simpa using hc
      exact Text.isBlank_space
    have hread := Number.readSigned?_signedText (htime t rfl).1 (htime t rfl).2
    simp only [hwords, hvalue, hread]

/-- The name of a sample ends at the first blank or opening brace. -/
theorem readSample_of_name {name : List Char} (hne : name ≠ [])
    (hname : ∀ c ∈ name, isNameEnd c = false) {c : Char} {tail : List Char}
    (hend : isNameEnd c = true) : readSample (name ++ c :: tail) =
      if c = '\x7b' then
        match takeLabels tail with
        | .error fault => .error fault
        | .ok (labels, rest) => readFields (String.ofList name) labels rest
      else readFields (String.ofList name) [] (c :: tail) := by
  have hown : ∀ d ∈ name, (!isNameEnd d) = true := fun d hd => by simp [hname d hd]
  have hstop : ∀ d, (c :: tail).head? = some d → (!isNameEnd d) = false := by
    intro d hd
    obtain rfl : c = d := by simpa using hd
    simp [hend]
  obtain ⟨htake, hdrop⟩ := Text.takeWhile_append_stop hown hstop
  have hempty : name.isEmpty = false := by
    rw [List.isEmpty_eq_false_iff]
    exact hne
  rw [readSample, htake, hdrop]
  simp only [hempty]
  rfl

theorem WritableSample.not_nameEnd {s : Sample} (h : WritableSample s) :
    ∀ c ∈ s.name.toList, isNameEnd c = false := by
  intro c hc
  have hbrace : c ≠ '\x7b' := by
    rintro rfl
    exact h.no_brace hc
  simp [isNameEnd, h.name_solid c hc, hbrace]

theorem readSample_name {s : Sample} (h : WritableSample s) {c : Char} {tail : List Char}
    (hend : isNameEnd c = true) : readSample (s.name.toList ++ c :: tail) =
      if c = '\x7b' then
        match takeLabels tail with
        | .error fault => .error fault
        | .ok (labels, rest) => readFields s.name labels rest
      else readFields s.name [] (c :: tail) := by
  rw [readSample_of_name h.name_ne h.not_nameEnd hend, String.ofList_toList]

theorem readSample_writeSample {s : Sample} (h : WritableSample s)
    (hvalue : Number.read? (Number.valueText s.value).toList = some s.value) :
    readSample (writeSample s) = .ok s := by
  have hfields : readFields s.name s.labels
      (' ' :: (Number.valueText s.value).toList ++ writeTimestamp s.timestamp) = .ok s :=
    readFields_written hvalue h.timestamp
  cases hlabels : s.labels with
  | nil =>
    have hshape : writeSample s = s.name.toList ++
        ' ' :: ((Number.valueText s.value).toList ++ writeTimestamp s.timestamp) := by
      simp [writeSample, writeLabels, hlabels]
    rw [hshape, readSample_name h (by decide), if_neg (by decide), ← hlabels]
    exact hfields
  | cons l ls =>
    have hall : ∀ x ∈ l :: ls, WritableLabel x := fun x hx => h.labels x (hlabels ▸ hx)
    have hshape : writeSample s = s.name.toList ++ '\x7b' ::
        (List.intercalate [','] ((l :: ls).map writeLabel) ++ '\x7d' ::
          (' ' :: (Number.valueText s.value).toList ++ writeTimestamp s.timestamp)) := by
      simp [writeSample, writeLabels, hlabels]
    rw [hshape, readSample_name h (by decide), if_pos rfl, takeLabels_intercalate hall]
    rw [hlabels] at hfields
    exact hfields

/-- What stands after the labels ends in no blank. -/
theorem writeSample_last {s : Sample} {c : Char}
    (hc : (writeSample s).getLast? = some c) : isBlank c = false := by
  cases htime : s.timestamp with
  | none =>
    have hshape : writeSample s =
        (s.name.toList ++ writeLabels s.labels ++ [' ']) ++ (Number.valueText s.value).toList := by
      simp [writeSample, writeTimestamp, htime]
    rw [hshape] at hc
    exact Text.last_of_append (Number.solid_valueText _) (Number.valueText_ne_nil _) hc
  | some t =>
    have hshape : writeSample s =
        (s.name.toList ++ writeLabels s.labels ++ ' ' :: (Number.valueText s.value).toList ++ [' '])
          ++ (Number.signedText t).toList := by
      simp [writeSample, writeTimestamp, htime]
    rw [hshape] at hc
    exact Text.last_of_append (Number.solid_signedText t) (Number.signedText_ne_nil t) hc

theorem writeSample_head {s : Sample} (h : WritableSample s) :
    ∃ c cs, writeSample s = c :: cs ∧ isBlank c = false ∧ c ≠ '#' := by
  rw [writeSample]
  cases hname : s.name.toList with
  | nil => exact absurd hname h.name_ne
  | cons c cs =>
    refine ⟨c, _, rfl, h.name_solid c (by simp [hname]), ?_⟩
    rintro rfl
    exact h.no_hash (by simp [hname])

theorem readLine_writeSample {s : Sample} (h : WritableSample s)
    (hvalue : Number.read? (Number.valueText s.value).toList = some s.value) :
    readLine (writeSample s) = .ok (.sample s) := by
  obtain ⟨c, cs, heq, hblank, hhash⟩ := writeSample_head h
  have htrim : trim (writeSample s) = writeSample s := by
    refine Text.trim_of_trimmed ⟨?_, fun d hd => writeSample_last hd⟩
    intro d hd
    rw [heq] at hd
    obtain rfl : c = d := by simpa using hd
    exact hblank
  have hread := readSample_writeSample h hvalue
  rw [readLine, htrim]
  split
  · next hnil => simp [heq] at hnil
  · next rest hline =>
    rw [heq] at hline
    exact absurd (List.cons.inj hline).1 hhash
  · rw [hread]
    rfl

/-! ### Help and kind -/

/-- Line feeds apart, no blank stands at either end; a line feed is written as two other
characters. -/
structure WritableHelp (help : List Char) : Prop where
  head : ∀ c, help.head? = some c → isBlank c = true → c = '\n'
  last : ∀ c, help.getLast? = some c → isBlank c = true → c = '\n'

/-- A line feed apart, no blank stands at the start of a help text. -/
def StartsPlain (help : List Char) : Prop :=
  ∀ c, help.head? = some c → isBlank c = true → c = '\n'

/-- A line feed apart, no blank stands at the end of a help text. -/
def EndsPlain (help : List Char) : Prop :=
  ∀ c, help.getLast? = some c → isBlank c = true → c = '\n'

theorem escapeHelp_append (cs ds : List Char) :
    escapeHelp (cs ++ ds) = escapeHelp cs ++ escapeHelp ds := by
  induction cs with
  | nil => rfl
  | cons c cs ih =>
    by_cases hslash : c = '\\'
    · simp [escapeHelp, hslash, ih]
    · by_cases hline : c = '\n'
      · simp [escapeHelp, hline, ih]
      · simp [escapeHelp, hslash, hline, ih]

/-- One escaped character has no blank in it, unless it is a blank other than a line feed. -/
theorem solid_escapeHelp_singleton {c : Char} (h : isBlank c = true → c = '\n') :
    Solid (escapeHelp [c]) ∧ escapeHelp [c] ≠ [] := by
  by_cases hslash : c = '\\'
  · subst hslash
    decide
  · by_cases hline : c = '\n'
    · subst hline
      decide
    · have hblank : isBlank c = false := by
        by_contra hyes
        exact hline (h (by simpa using hyes))
      simp [escapeHelp, hslash, hline, Solid, hblank]

theorem last_of_escapeHelp {help : List Char} (h : EndsPlain help) :
    ∀ c, (escapeHelp help).getLast? = some c → isBlank c = false := by
  intro c hc
  rcases List.eq_nil_or_concat help with rfl | ⟨ds, d, rfl⟩
  · simp [escapeHelp] at hc
  · obtain ⟨hsolid, hne⟩ := solid_escapeHelp_singleton (h d (by simp))
    rw [List.concat_eq_append, escapeHelp_append] at hc
    exact Text.last_of_append hsolid hne hc

theorem trimmed_escapeHelp {help : List Char} (h : WritableHelp help) :
    Trimmed (escapeHelp help) := by
  constructor
  · intro c hc
    cases help with
    | nil => simp [escapeHelp] at hc
    | cons d ds =>
      obtain ⟨hsolid, hne⟩ := solid_escapeHelp_singleton (h.head d rfl)
      rw [← List.singleton_append, escapeHelp_append, List.head?_append_of_ne_nil _ hne] at hc
      exact hsolid c (List.mem_of_mem_head? hc)
  · exact last_of_escapeHelp h.last

def described (keyword name : String) (text : List Char) : Line :=
  if keyword = "HELP" then .help name (String.ofList (unescapeHelp text))
  else .kind name (MetricKind.ofText (String.ofList text))

/-- After a keyword the reader drops one character and takes the word that stands there. -/
theorem readComment_keyword {gap rest : List Char} {keyword : String} (hgap : Blanks gap)
    (hkeyword : keyword = "HELP" ∨ keyword = "TYPE") (hrest : AtBlank rest) :
    readComment (gap ++ (keyword.toList ++ rest)) =
      if (Text.word (rest.drop 1)).1.isEmpty then .error (.commentWithoutName keyword)
      else .ok (described keyword (String.ofList (Text.word (rest.drop 1)).1)
        (trim ((Text.word (rest.drop 1)).2.drop 1))) := by
  have hsolid : Solid keyword.toList := by
    rcases hkeyword with rfl | rfl <;> decide
  have hstart : trimStart (gap ++ (keyword.toList ++ rest)) = keyword.toList ++ rest := by
    rw [Text.trimStart_blanks_append hgap]
    apply Text.trimStart_of_head
    intro d hd
    have hfirst : keyword.toList.head? = some d := by
      rcases hkeyword with rfl | rfl <;> exact hd
    exact hsolid d (List.mem_of_mem_head? hfirst)
  rw [readComment, hstart, Text.word_append hsolid hrest]
  simp only [String.ofList_toList, hkeyword, if_true, described]
  split
  · rfl
  · split <;> rfl

/-- One blank after the keyword, the name of the family follows. -/
theorem readComment_described {gap tail : List Char} {keyword name : String} {c : Char}
    (hgap : Blanks gap) (hkeyword : keyword = "HELP" ∨ keyword = "TYPE") (hc : isBlank c = true)
    (hname : Solid name.toList) (hne : name.toList ≠ []) (htail : AtBlank tail) :
    readComment (gap ++ (keyword.toList ++ c :: (name.toList ++ tail))) =
      .ok (described keyword name (trim (tail.drop 1))) := by
  have hblank : AtBlank (c :: (name.toList ++ tail)) := by
    intro d hd
    obtain rfl : c = d := by simpa using hd
    exact hc
  have hempty : name.toList.isEmpty = false := by
    rw [List.isEmpty_eq_false_iff]
    exact hne
  rw [readComment_keyword hgap hkeyword hblank, List.drop_one, List.tail_cons,
    Text.word_append hname htail, String.ofList_toList, if_neg (by simp [hempty])]

/-- Nothing is named where a second blank follows, or the comment ends. -/
theorem readComment_unnamed {gap rest : List Char} {keyword : String} (hgap : Blanks gap)
    (hkeyword : keyword = "HELP" ∨ keyword = "TYPE") (hrest : AtBlank rest)
    (hnext : AtBlank (rest.drop 1)) :
    readComment (gap ++ (keyword.toList ++ rest)) = .error (.commentWithoutName keyword) := by
  have hword : Text.word ([] ++ rest.drop 1) = ([], rest.drop 1) :=
    Text.word_append Text.solid_nil hnext
  rw [List.nil_append] at hword
  rw [readComment_keyword hgap hkeyword hrest, hword]
  rfl

theorem readComment_written {keyword name : String} {tail : List Char}
    (hkeyword : keyword = "HELP" ∨ keyword = "TYPE") (hname : Solid name.toList)
    (hne : name.toList ≠ []) (htail : AtBlank tail) :
    readComment (' ' :: (keyword.toList ++ ' ' :: (name.toList ++ tail))) =
      .ok (if keyword = "HELP" then
        .help name (String.ofList (unescapeHelp (trim (tail.drop 1))))
      else .kind name (MetricKind.ofText (String.ofList (trim (tail.drop 1))))) := by
  have hgap : Blanks [' '] := by decide
  exact readComment_described hgap hkeyword Text.isBlank_space hname hne htail

theorem readLine_comment {raw cs : List Char} (h : trim raw = '#' :: cs) :
    readLine raw = readComment cs := by
  rw [readLine, h]
  rfl

theorem solid_kind (kind : MetricKind) : Solid kind.text.toList ∧ kind.text.toList ≠ [] := by
  cases kind <;> decide

theorem ofText_text (kind : MetricKind) : MetricKind.ofText kind.text = kind := by
  cases kind <;> rfl

theorem readLine_writeKind {name : String} (kind : MetricKind) (hname : Solid name.toList)
    (hne : name.toList ≠ []) : readLine (writeKind name kind) = .ok (.kind name kind) := by
  obtain ⟨hsolid, hkind⟩ := solid_kind kind
  have hshape : writeKind name kind =
      '#' :: (' ' :: ("TYPE".toList ++ ' ' :: (name.toList ++ ' ' :: kind.text.toList))) := rfl
  have htrim : trim (writeKind name kind) = writeKind name kind := by
    refine Text.trim_of_trimmed ⟨?_, ?_⟩
    · intro c hc
      obtain rfl : '#' = c := by simpa [hshape] using hc
      decide
    · intro c hc
      have hsplit : writeKind name kind =
          (typeMark ++ name.toList ++ [' ']) ++ kind.text.toList := by
        simp [writeKind]
      rw [hsplit] at hc
      exact Text.last_of_append hsolid hkind hc
  have hblank : AtBlank (' ' :: kind.text.toList) := by
    intro c hc
    obtain rfl : ' ' = c := by simpa using hc
    exact Text.isBlank_space
  rw [readLine_comment (htrim.trans hshape), readComment_written (Or.inr rfl) hname hne hblank,
    if_neg (by decide), List.drop_one, List.tail_cons, Text.trim_of_trimmed hsolid.trimmed,
    String.ofList_toList, ofText_text]

/-- Of a written help line only the blank before an empty text is lost. -/
theorem trim_writeHelp {name help : String} (hname : Solid name.toList)
    (hne : name.toList ≠ []) (hhelp : WritableHelp help.toList) :
    ∃ tail, trim (writeHelp name help) =
        '#' :: (' ' :: ("HELP".toList ++ ' ' :: (name.toList ++ tail))) ∧
      AtBlank tail ∧ tail.drop 1 = escapeHelp help.toList := by
  have htrimmed := trimmed_escapeHelp hhelp
  have hhead : ∀ c, (writeHelp name help).head? = some c → isBlank c = false := by
    intro c hc
    have hfirst : (writeHelp name help).head? = some '#' := rfl
    obtain rfl : '#' = c := Option.some.inj (hfirst.symm.trans hc)
    decide
  by_cases hempty : escapeHelp help.toList = []
  · have hshape : writeHelp name help = (helpMark ++ name.toList) ++ [' '] := by
      simp [writeHelp, hempty]
    refine ⟨[], ?_, by simp [AtBlank], hempty.symm⟩
    rw [trim, Text.trimStart_of_head hhead, hshape, Text.trimEnd_append_blank Text.isBlank_space,
      Text.trimEnd_of_last fun c hc => Text.last_of_append hname hne hc, List.append_nil]
    rfl
  · refine ⟨' ' :: escapeHelp help.toList, ?_, ?_, rfl⟩
    · have hlast : ∀ c, (writeHelp name help).getLast? = some c → isBlank c = false := by
        intro c hc
        have hshape : writeHelp name help =
            (helpMark ++ name.toList ++ [' ']) ++ escapeHelp help.toList := by
          simp [writeHelp]
        rw [hshape, List.getLast?_append_of_ne_nil _ hempty] at hc
        exact htrimmed.2 c hc
      rw [Text.trim_of_trimmed ⟨hhead, hlast⟩]
      rfl
    · intro c hc
      obtain rfl : ' ' = c := by simpa using hc
      exact Text.isBlank_space

theorem readLine_writeHelp {name help : String} (hname : Solid name.toList)
    (hne : name.toList ≠ []) (hhelp : WritableHelp help.toList) :
    readLine (writeHelp name help) = .ok (.help name help) := by
  obtain ⟨tail, htrim, hblank, hdrop⟩ := trim_writeHelp hname hne hhelp
  rw [readLine_comment htrim, readComment_written (Or.inl rfl) hname hne hblank, if_pos rfl, hdrop,
    Text.trim_of_trimmed (trimmed_escapeHelp hhelp), unescapeHelp_escapeHelp, String.ofList_toList]

end MetricRelay.Exposition
