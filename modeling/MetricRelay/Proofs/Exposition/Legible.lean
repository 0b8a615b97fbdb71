import MetricRelay.Proofs.Exposition.RoundTrip
import MetricRelay.Proofs.Text.Pieces

/-!
# What the reader finds

Whatever a body is, the families that it is read as have distinct names and can
be written again, up to one detail: a help text may start with a blank that was
escaped in the body.
-/

namespace MetricRelay.Exposition

open Text (isBlank Solid Trimmed trim trimStart)

/-! ### Labels -/

theorem suffix_of_takeQuoted? {cs v rest : List Char} (h : takeQuoted? cs = some (v, rest)) :
    rest <:+ cs := by
  fun_induction takeQuoted? cs generalizing v rest with
  | case1 => cases h
  | case2 cs =>
    cases h
    exact List.suffix_cons ..
  | case3 => cases h
  | case4 c cs ih =>
    simp only [Option.map_eq_some_iff, Prod.mk.injEq, Prod.exists] at h
    obtain ⟨v', rest', h', -, rfl⟩ := h
    exact (ih h').trans ((List.suffix_cons ..).trans (List.suffix_cons ..))
  | case5 c cs _ _ _ ih =>
    simp only [Option.map_eq_some_iff, Prod.mk.injEq, Prod.exists] at h
    obtain ⟨v', rest', h', -, rfl⟩ := h
    exact (ih h').trans (List.suffix_cons ..)

/-- A label starts where no blank and no closing brace stands, on one line. -/
theorem writable_of_takeLabel {cs rest : List Char} {l : Label} (h : takeLabel cs = .ok (l, rest))
    (hhead : ∀ c, cs.head? = some c → isBlank c = false ∧ c ≠ '\x7d') (hline : '\n' ∉ cs) :
    WritableLabel l ∧ '\n' ∉ rest := by
  unfold takeLabel at h
  split at h
  · cases h
  · next name tail hcut =>
    obtain ⟨rfl, hequals⟩ := Text.eq_of_cutAt? hcut
    dsimp only at h
    split at h
    · next quoted hquoted =>
      split at h
      · next value after htake =>
        obtain ⟨rfl, rfl⟩ := Prod.mk.inj (Except.ok.inj h)
        have hname : ∀ c ∈ trim name, c ∈ name := fun c hc => (Text.trim_within name).subset hc
        have hrest : after <:+ tail := by
          have hstart : trimStart tail <:+ tail := List.dropWhile_suffix isBlank
          rw [hquoted] at hstart
          exact (suffix_of_takeQuoted? htake).trans ((List.suffix_cons ..).trans hstart)
        constructor
        · constructor
          · rw [String.toList_ofList, Text.trim_trim]
          · rw [String.toList_ofList]
            exact fun hmem => hequals (hname _ hmem)
          · rw [String.toList_ofList]
            exact fun hmem => hline (List.mem_append_left _ (hname _ hmem))
          · rw [String.toList_ofList]
            intro hbrace
            have hfirst := Text.head?_of_trim hbrace
            cases name with
            | nil => cases hfirst
            | cons c name =>
              obtain ⟨hblank, hclose⟩ := hhead c rfl
              rw [trimStart_cons hblank] at hfirst
              exact hclose (Option.some.inj hfirst)
        · intro hmem
          exact hline (List.mem_append_right _ (List.mem_cons_of_mem _ (hrest.subset hmem)))
      · cases h
    · cases h

theorem label_start {cs : List Char} (h : ∀ rest, trimStart cs = '\x7d' :: rest → False) :
    ∀ c, (trimStart cs).head? = some c → isBlank c = false ∧ c ≠ '\x7d' := by
  intro c hc
  refine ⟨Text.head_not_of_dropWhile hc, ?_⟩
  rintro rfl
  cases hstart : trimStart cs with
  | nil => simp [hstart] at hc
  | cons d rest =>
    obtain rfl : d = '\x7d' := by simpa [hstart] using hc
    exact h rest hstart

theorem newline_not_mem_trimStart {cs : List Char} (h : '\n' ∉ cs) : '\n' ∉ trimStart cs :=
  fun hmem => h ((List.dropWhile_suffix isBlank).subset hmem)

theorem writable_of_takeLabels {cs rest : List Char} {labels : List Label}
    (h : takeLabels cs = .ok (labels, rest)) (hline : '\n' ∉ cs) :
    ∀ l ∈ labels, WritableLabel l := by
  induction hlen : cs.length using Nat.strong_induction_on generalizing cs labels rest with
  | _ n ih =>
    subst hlen
    unfold takeLabels at h
    split at h
    · cases h
      simp
    · next hopen =>
      split at h
      · cases h
      · next label after htake =>
        obtain ⟨hlabel, hafter⟩ := writable_of_takeLabel htake (label_start hopen)
          (newline_not_mem_trimStart hline)
        split at h
        · next tail htail =>
          have hshort : tail.length < cs.length :=
            calc tail.length < (trimStart after).length := by simp [htail]
              _ ≤ after.length := Text.length_trimStart_le after
              _ < (trimStart cs).length := length_of_takeLabel htake
              _ ≤ cs.length := Text.length_trimStart_le cs
          have hcomma := newline_not_mem_trimStart hafter
          rw [htail] at hcomma
          cases hmore : takeLabels tail with
          | error fault =>
            rw [hmore] at h
            cases h
          | ok more =>
            rw [hmore] at h
            cases h
            intro l hl
            rcases List.mem_cons.mp hl with rfl | hl
            · exact hlabel
            · exact ih _ hshort hmore (fun hmem => hcomma (List.mem_cons_of_mem _ hmem)) rfl l hl
        · cases h
          intro l hl
          obtain rfl := List.mem_singleton.mp hl
          exact hlabel
        · cases h

/-! ### Samples -/

theorem bounds_of_readSigned? {cs : List Char} {t : Int} (h : Number.readSigned? cs = some t) :
    -(Number.maxI64 + 1 : Nat) ≤ t ∧ t ≤ Number.maxI64 := by
  unfold Number.readSigned? at h
  split at h
  all_goals
    simp only [Option.map_eq_some_iff, Option.bind_eq_bind, Option.bind_eq_some_iff,
      Option.filter_eq_some_iff, Option.pure_def, Option.some.injEq, decide_eq_true_eq] at h
    obtain ⟨_, ⟨n, ⟨-, hn⟩, rfl⟩, rfl⟩ := h
    omega

theorem readFields_ok {name : String} {labels : List Label} {cs : List Char} {s : Sample}
    (h : readFields name labels cs = .ok s) : s.name = name ∧ s.labels = labels ∧
      ∀ t, s.timestamp = some t → -(Number.maxI64 + 1 : Nat) ≤ t ∧ t ≤ Number.maxI64 := by
  unfold readFields at h
  split at h
  · cases h
  · split at h
    · cases h
    · split at h
      · cases h
        exact ⟨rfl, rfl, by rintro t ⟨⟩⟩
      · split at h
        · cases h
        · next t ht =>
          cases h
          refine ⟨rfl, rfl, ?_⟩
          rintro _ ⟨⟩
          exact bounds_of_readSigned? ht

/-- A sample stands on a line that neither starts with a blank nor as a comment. -/
theorem writable_of_readSample {line : List Char} {s : Sample} (h : readSample line = .ok s)
    (hhash : line.head? ≠ some '#') (hline : '\n' ∉ line) : WritableSample s := by
  have hall := List.all_takeWhile (p := (!isNameEnd ·)) (l := line)
  rw [List.all_eq_true] at hall
  have hname : ∀ c ∈ line.takeWhile (!isNameEnd ·), isBlank c = false ∧ c ≠ '\x7b' := by
    intro c hc
    have hend := hall c hc
    simp only [isNameEnd, Bool.not_eq_true', Bool.or_eq_false_iff, beq_eq_false_iff_ne] at hend
    exact ⟨hend.2, hend.1⟩
  have hrest : line.dropWhile (!isNameEnd ·) <:+ line := List.dropWhile_suffix _
  unfold readSample at h
  dsimp only at h
  split at h
  · cases h
  · next c tail hdrop =>
    rw [hdrop] at hrest
    split at h
    · cases h
    · next hne =>
      -- Both branches end with the fields, after labels that can be written again.
      obtain ⟨labels, after, hlabels, hfields⟩ : ∃ labels after,
          (∀ l ∈ labels, WritableLabel l) ∧
          readFields (String.ofList (line.takeWhile (!isNameEnd ·))) labels after = .ok s := by
        split at h
        · split at h
          · cases h
          · next labels after htake =>
            refine ⟨labels, after, writable_of_takeLabels htake ?_, h⟩
            exact fun hmem => hline (hrest.subset (List.mem_cons_of_mem _ hmem))
        · exact ⟨[], _, by simp, h⟩
      obtain ⟨hsame, hown, htime⟩ := readFields_ok hfields
      have htext : s.name.toList = line.takeWhile (!isNameEnd ·) := by
        rw [hsame, String.toList_ofList]
      refine ⟨?_, ?_, ?_, ?_, hown ▸ hlabels, htime⟩
      · rw [htext]
        simpa using hne
      · rw [htext]
        exact fun c hc => (hname c hc).1
      · rw [htext]
        exact fun hmem => (hname _ hmem).2 rfl
      · rw [htext]
        intro hfirst
        obtain ⟨after, hafter⟩ := List.takeWhile_prefix (!isNameEnd ·) (l := line)
        apply hhash
        rw [← hafter, List.head?_append, hfirst, Option.some_or]

/-! ### Help texts -/

theorem unescapeHelp_ne_nil {cs : List Char} (h : cs ≠ []) : unescapeHelp cs ≠ [] := by
  fun_cases unescapeHelp cs with
  | case1 => exact absurd rfl h
  | case2 => simp
  | case3 c cs => simp
  | case4 c cs _ _ => simp

theorem last_of_unescapeHelp {cs : List Char}
    (h : ∀ c, cs.getLast? = some c → isBlank c = false) : EndsPlain (unescapeHelp cs) := by
  fun_induction unescapeHelp cs with
  | case1 => simp [EndsPlain]
  | case2 =>
    intro c hc hblank
    obtain rfl : '\\' = c := by simpa using hc
    exact absurd hblank (by decide)
  | case3 d cs ih =>
    intro c hc hblank
    by_cases hnil : cs = []
    · subst hnil
      have hd : isBlank d = false := h d rfl
      obtain rfl : (if d = 'n' then '\n' else d) = c := by simpa [unescapeHelp] using hc
      by_cases hn : d = 'n'
      · rw [if_pos hn]
      · rw [if_neg hn, hd] at hblank
        cases hblank
    · rw [List.getLast?_cons_of_ne_nil (unescapeHelp_ne_nil hnil)] at hc
      refine ih (fun e he => h e ?_) c hc hblank
      rw [List.getLast?_cons_cons, List.getLast?_cons_of_ne_nil hnil]
      exact he
  | case4 d cs _ _ ih =>
    intro c hc hblank
    by_cases hnil : cs = []
    · subst hnil
      have hd : isBlank d = false := h d rfl
      obtain rfl : d = c := by simpa [unescapeHelp] using hc
      rw [hd] at hblank
      cases hblank
    · rw [List.getLast?_cons_of_ne_nil (unescapeHelp_ne_nil hnil)] at hc
      refine ih (fun e he => h e ?_) c hc hblank
      rw [List.getLast?_cons_of_ne_nil hnil]
      exact he

/-! ### Lines -/

/-- What a line says can be written again, the start of a help text apart. -/
def LegibleLine : Line → Prop
  | .nothing => True
  | .help name help => (name ≠ "" ∧ Solid name.toList) ∧ EndsPlain help.toList
  | .kind name _ => name ≠ "" ∧ Solid name.toList
  | .sample s => WritableSample s

theorem legible_of_readComment {cs : List Char} {line : Line} (h : readComment cs = .ok line) :
    LegibleLine line := by
  unfold readComment at h
  dsimp only at h
  split at h
  · split at h
    · cases h
    · next hne =>
      have hname : String.ofList (Text.word ((Text.word (trimStart cs)).2.drop 1)).1 ≠ "" ∧
          Solid (String.ofList (Text.word ((Text.word (trimStart cs)).2.drop 1)).1).toList := by
        rw [String.toList_ofList]
        refine ⟨?_, Text.solid_word _⟩
        intro hempty
        have hnil := congrArg String.toList hempty
        rw [String.toList_ofList] at hnil
        exact hne (List.isEmpty_iff.mpr hnil)
      split at h
      · cases h
        refine ⟨hname, ?_⟩
        rw [String.toList_ofList]
        exact last_of_unescapeHelp (Text.trimmed_trim _).2
      · cases h
        exact hname
  · cases h
    trivial

theorem legible_of_readLine {raw : List Char} {line : Line} (h : readLine raw = .ok line)
    (hline : '\n' ∉ raw) : LegibleLine line := by
  have htrim : '\n' ∉ trim raw := fun hmem => hline ((Text.trim_within raw).subset hmem)
  unfold readLine at h
  split at h
  · cases h
    trivial
  · exact legible_of_readComment h
  · next hnil hhash =>
    cases hread : readSample (trim raw) with
    | error fault =>
      rw [hread] at h
      cases h
    | ok s =>
      rw [hread] at h
      cases h
      refine writable_of_readSample hread ?_ htrim
      intro hhead
      cases htext : trim raw with
      | nil => exact hnil htext
      | cons c cs =>
        obtain rfl : c = '#' := by simpa [htext] using hhead
        exact hhash cs htext

/-! ### Families -/

/-- A family that can be written again, the start of its help text apart. -/
structure Legible (f : Family) : Prop where
  name : f.name ≠ "" ∧ Solid f.name.toList
  help : ∀ help, f.help = some help → EndsPlain help.toList
  owned : ∀ s ∈ f.samples, f.owns s.name = true
  samples : ∀ s ∈ f.samples, WritableSample s

theorem mem_withFamily {name : String} {f : Family → Family} {families : List Family} {g : Family}
    (h : g ∈ withFamily name f families) :
    g ∈ families ∨ (∃ old ∈ families, old.name = name ∧ g = f old) ∨ g = f { name } := by
  induction families with
  | nil => exact Or.inr (Or.inr (List.mem_singleton.mp h))
  | cons first rest ih =>
    rw [withFamily] at h
    split at h
    · next hname =>
      rcases List.mem_cons.mp h with rfl | htail
      · exact Or.inr (Or.inl ⟨first, List.mem_cons_self, hname, rfl⟩)
      · exact Or.inl (List.mem_cons_of_mem _ htail)
    · rcases List.mem_cons.mp h with rfl | htail
      · exact Or.inl List.mem_cons_self
      · rcases ih htail with hold | ⟨old, hmem, hchange⟩ | hnew
        · exact Or.inl (List.mem_cons_of_mem _ hold)
        · exact Or.inr (Or.inl ⟨old, List.mem_cons_of_mem _ hmem, hchange⟩)
        · exact Or.inr (Or.inr hnew)

/-- A change that keeps names changes the names of the families by a new one at most. -/
theorem names_withFamily {name : String} {f : Family → Family} (hf : ∀ g, (f g).name = g.name)
    (families : List Family) :
    (withFamily name f families).map (·.name) =
      if name ∈ families.map (·.name) then families.map (·.name)
      else families.map (·.name) ++ [name] := by
  induction families with
  | nil => simp [withFamily, hf]
  | cons first rest ih =>
    by_cases hname : first.name = name
    · simp [withFamily, hname, hf]
    · simp only [withFamily, hname, if_false, List.map_cons, ih, List.mem_cons, Ne.symm hname,
        false_or]
      split <;> simp

namespace Reading

structure Legible (r : Reading) : Prop where
  families : ∀ f ∈ r.families, Exposition.Legible f
  nodup : (r.families.map (·.name)).Nodup
  current : ∀ name, r.current = some name → name ≠ "" ∧ Solid name.toList

theorem Legible.update {r : Reading} (h : r.Legible) {name : String} {f : Family → Family}
    (hname : name ≠ "" ∧ Solid name.toList) (hsame : ∀ g, (f g).name = g.name)
    (hf : ∀ g, g.name = name → Exposition.Legible g → Exposition.Legible (f g)) :
    (r.update name f).Legible := by
  have hnew : Exposition.Legible { name } :=
    ⟨hname, by rintro _ ⟨⟩, by rintro _ ⟨⟩, by rintro _ ⟨⟩⟩
  refine ⟨fun g hg => ?_, ?_, ?_⟩
  · rcases mem_withFamily hg with hold | ⟨old, hmem, hown, rfl⟩ | rfl
    · exact h.families g hold
    · exact hf old hown (h.families old hmem)
    · exact hf { name } rfl hnew
  · rw [Reading.update, names_withFamily hsame]
    split
    · exact h.nodup
    · next hfresh =>
      rw [List.nodup_append]
      refine ⟨h.nodup, by simp, fun a ha b hb => ?_⟩
      obtain rfl := List.mem_singleton.mp hb
      rintro rfl
      exact hfresh ha
  · rintro _ ⟨⟩
    exact hname

/-- A sample goes to a family that owns it. -/
theorem owns_home (r : Reading) (sample : String) :
    Family.owns { name := r.home sample } sample = true := by
  rw [home]
  split
  · simp [Family.owns]
  · split
    · next howns => exact howns
    · simp [Family.owns]

theorem home_solid {r : Reading} (h : r.Legible) {s : Sample} (hs : WritableSample s) :
    r.home s.name ≠ "" ∧ Solid (r.home s.name).toList := by
  have hown : s.name ≠ "" ∧ Solid s.name.toList := by
    refine ⟨?_, hs.name_solid⟩
    intro hempty
    exact hs.name_ne (by simp [hempty])
  rw [home]
  split
  · exact hown
  · next name hcurrent =>
    split
    · exact h.current name hcurrent
    · exact hown

theorem Legible.add {r : Reading} (h : r.Legible) {line : Line} (hline : LegibleLine line) :
    (r.add line).Legible := by
  cases line with
  | nothing => exact h
  | help name help =>
    refine h.update hline.1 (fun _ => rfl) fun g _ hg => { hg with help := ?_ }
    rintro _ ⟨⟩
    exact hline.2
  | kind name kind =>
    exact h.update hline (fun _ => rfl) fun g _ hg =>
      ⟨hg.name, hg.help, hg.owned, hg.samples⟩
  | sample s =>
    refine h.update (home_solid h hline) (fun _ => rfl) fun g hown hg => ⟨hg.name, hg.help, ?_, ?_⟩
    · intro own hmem
      rcases List.mem_append.mp hmem with hold | hnew
      · exact hg.owned own hold
      · obtain rfl := List.mem_singleton.mp hnew
        have howns := r.owns_home own.name
        rw [← hown] at howns
        exact howns
    · intro own hmem
      rcases List.mem_append.mp hmem with hold | hnew
      · exact hg.samples own hold
      · obtain rfl := List.mem_singleton.mp hnew
        exact hline

end Reading

theorem readLines_legible {n : Nat} {r last : Reading} {ls : List (List Char)} (hr : r.Legible)
    (hls : ∀ l ∈ ls, '\n' ∉ l) (h : readLines n r ls = .ok last) : last.Legible := by
  induction ls generalizing n r with
  | nil =>
    cases h
    exact hr
  | cons l ls ih =>
    cases hread : readLine l with
    | error fault =>
      rw [readLines, hread] at h
      cases h
    | ok line =>
      rw [readLines_cons hread] at h
      have hline := legible_of_readLine hread (hls l List.mem_cons_self)
      exact ih (hr.add hline) (fun l' hl' => hls l' (List.mem_cons_of_mem l hl')) h

/-- What a text is read as. -/
theorem legible_of_readText {text : List Char} {families : List Family}
    (h : readText text = .ok families) :
    (∀ f ∈ families, Legible f) ∧ (families.map (·.name)).Nodup := by
  have hstart : Reading.Legible {} := ⟨by rintro _ ⟨⟩, List.nodup_nil, by rintro _ ⟨⟩⟩
  cases hread : readLines 1 {} (Text.lines text) with
  | error fault =>
    rw [readText, hread] at h
    cases h
  | ok last =>
    rw [readText, hread] at h
    cases h
    have hlast := readLines_legible hstart (fun _ => Text.newline_not_mem_of_mem_lines) hread
    exact ⟨hlast.families, hlast.nodup⟩

theorem legible_of_read {body : Text.Bytes} {families : List Family}
    (h : read body = .ok families) :
    (∀ f ∈ families, Legible f) ∧ (families.map (·.name)).Nodup := by
  unfold read at h
  dsimp only at h
  split at h
  · cases h
  · split at h
    · cases h
    · next hread =>
      cases h
      exact legible_of_readText hread

end MetricRelay.Exposition
