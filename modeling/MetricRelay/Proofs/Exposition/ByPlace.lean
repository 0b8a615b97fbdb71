import MetricRelay.Proofs.Exposition.ByOffset

/-!
# Families by their places

A table of places says of every name where its family stands, so that a line always
finds the family that it belongs to, and a body is read to its end or to its first fault.
-/

namespace MetricRelay.Exposition

theorem withFamily_of_idxOf? {name : String} {families : List Family} {i : ℕ}
    (h : (families.map (·.name)).idxOf? name = some i) :
    ∃ g, families[i]? = some g ∧ g.name = name ∧
      ∀ f, withFamily name f families = families.set i (f g) := by
  induction families generalizing i with
  | nil => cases h
  | cons first rest ih =>
    rw [List.map_cons, List.idxOf?_cons] at h
    by_cases hname : first.name = name
    · rw [if_pos (beq_iff_eq.mpr hname)] at h
      obtain rfl := Option.some.inj h
      exact ⟨first, rfl, hname, fun f => if_pos hname⟩
    · rw [if_neg (by simpa using hname)] at h
      obtain ⟨j, hj, rfl⟩ := Option.map_eq_some_iff.mp h
      obtain ⟨g, hg, hown, hchanged⟩ := ih hj
      refine ⟨g, hg, hown, fun f => ?_⟩
      rw [withFamily, if_neg hname, hchanged]
      rfl

theorem idxOf?_concat (names : List String) (name other : String) :
    (names ++ [name]).idxOf? other =
      (names.idxOf? other).or (if name = other then some names.length else none) := by
  rw [List.idxOf?, List.findIdx?_append]
  by_cases h : name = other <;> simp [h]

namespace ByOffset

namespace Table

variable {t : Table} {r : Reading} {name : String} {i : ℕ}

/-- The table knows the places of all its families and of no others. -/
def Indexed (t : Table) : Prop :=
  ∀ name, t.places.lookup name = (t.families.map (·.name)).idxOf? name

theorem Indexed.lt (h : t.Indexed) (hat : t.places.lookup name = some i) :
    i < t.families.length := by
  rw [h] at hat
  simpa using (List.idxOf?_eq_some_iff.mp hat).1

/-- After a name is looked for it has a place, and a change of its family is the same change. -/
theorem Indexed.place (h : t.Indexed) (name : String) :
    ∃ i t', t.place name = (i, t') ∧ t'.Indexed ∧ t'.places.lookup name = some i ∧
      ∀ f, withFamily name f t'.families = withFamily name f t.families := by
  rw [Table.place]
  cases hat : t.places.lookup name with
  | some i => exact ⟨i, t, rfl, h, hat, fun _ => rfl⟩
  | none =>
    have hnew : name ∉ t.families.map (·.name) := by
      rw [← List.idxOf?_eq_none_iff, ← h, hat]
    refine ⟨_, _, rfl, ?_, List.lookup_cons_self, fun f => ?_⟩
    · intro other
      dsimp only
      -- The table names the new place first, the families have it last.
      rw [List.lookup_cons, List.map_append, List.map_singleton, idxOf?_concat, ← h other,
        List.length_map]
      by_cases hsame : name = other
      · subst hsame
        simp [hat]
      · rw [beq_eq_false_iff_ne.mpr (Ne.symm hsame), if_neg hsame, Option.or_none]
    · rw [withFamily_new hnew]
      exact withFamily_last (g := { name }) hnew f

/-- The table holds the families that were read, knows their places, and is at the place of the
last one. -/
structure Mirrors (t : Table) (r : Reading) : Prop where
  families : t.families = r.families
  indexed : t.Indexed
  current : Option.Rel (fun i name => t.places.lookup name = some i) t.current r.current

/-- Every place that the table knows, or is at, is that of a family. -/
structure InRange (t : Table) : Prop where
  places : ∀ name i, t.places.lookup name = some i → i < t.families.length
  current : ∀ i, t.current = some i → i < t.families.length

theorem mirrors_empty : Mirrors {} {} := ⟨rfl, fun _ => rfl, .none⟩

theorem Mirrors.at_current (h : t.Mirrors r) (hat : t.current = some i) :
    ∃ name, r.current = some name ∧ t.places.lookup name = some i := by
  have hcurrent := h.current
  rw [hat] at hcurrent
  generalize r.current = c at *
  cases hcurrent with
  | some hname => exact ⟨_, rfl, hname⟩

theorem Mirrors.inRange (h : t.Mirrors r) : t.InRange where
  places := fun _ _ hat => h.indexed.lt hat
  current := by
    intro i hi
    obtain ⟨name, -, hat⟩ := h.at_current hi
    exact h.indexed.lt hat

theorem Indexed.update (h : t.Indexed) (hat : t.places.lookup name = some i)
    {f : Family → Family} (hf : ∀ g, (f g).name = g.name) :
    ∃ t', t.update? i f = some t' ∧ t'.Mirrors ⟨withFamily name f t.families, some name⟩ := by
  have hname := (h name).symm.trans hat
  obtain ⟨g, hg, -, hchanged⟩ := withFamily_of_idxOf? hname
  have hnames : (withFamily name f t.families).map (·.name) = t.families.map (·.name) := by
    rw [names_withFamily hf, if_pos (List.isSome_idxOf?.mp (by rw [hname]; rfl))]
  refine ⟨{ t with families := t.families.set i (f g), current := some i }, ?_, ?_⟩
  · rw [update?, hg]
    rfl
  · constructor
    · exact (hchanged f).symm
    · intro other
      dsimp only
      rw [← hchanged, hnames]
      exact h other
    · exact .some hat

theorem Mirrors.change (h : t.Mirrors r) (name : String) {f : Family → Family}
    (hf : ∀ g, (f g).name = g.name) :
    ∃ t', (t.place name).2.update? (t.place name).1 f = some t' ∧ t'.Mirrors (r.update name f) := by
  obtain ⟨i, placed, hplace, hindexed, hat, hsame⟩ := h.indexed.place name
  obtain ⟨t', hupdate, hmirrors⟩ := hindexed.update hat hf
  rw [hplace]
  refine ⟨t', hupdate, ?_⟩
  rw [Reading.update, ← h.families, ← hsame]
  exact hmirrors

theorem place_of_lookup (hat : t.places.lookup name = some i) : t.place name = (i, t) := by
  rw [Table.place, hat]

/-- A sample goes to the place of the family that it goes to. -/
theorem Mirrors.home (h : t.Mirrors r) (sample : String) :
    t.home? sample = some (t.place (r.home sample)) := by
  rw [home?, Reading.home]
  cases hcurrent : t.current with
  | none =>
    have hlast := h.current
    rw [hcurrent] at hlast
    generalize r.current = c at *
    cases hlast
    rfl
  | some i =>
    obtain ⟨name, hlast, hat⟩ := h.at_current hcurrent
    obtain ⟨g, hg, hname, -⟩ := withFamily_of_idxOf? ((h.indexed name).symm.trans hat)
    have howns : g.owns sample = Family.owns { name } sample := by
      rw [Family.owns, Family.owns, hname]
    dsimp only
    rw [hg, hlast, Option.map_some, howns]
    dsimp only
    split
    · rw [place_of_lookup hat]
    · rfl

theorem Mirrors.add (h : t.Mirrors r) (line : Line) :
    ∃ t', t.add? line = some t' ∧ t'.Mirrors (r.add line) := by
  cases line with
  | nothing => exact ⟨t, rfl, h⟩
  | help name text => exact h.change name fun _ => rfl
  | kind name kind => exact h.change name fun _ => rfl
  | sample s =>
    obtain ⟨t', hchange, hmirrors⟩ := h.change (r.home s.name)
      (f := fun f => { f with samples := f.samples ++ [s] }) fun _ => rfl
    refine ⟨t', ?_, hmirrors⟩
    rw [add?, h.home]
    exact hchange

end Table

open Table

/-- Lines are read by places as they are read by names. -/
theorem lines_cases {t : Table} {r : Reading} (h : t.Mirrors r) (n : ℕ) (ls : List (List Char)) :
    (∃ fault, readLines n r ls = .error fault ∧ lines n t ls = some (.error fault)) ∨
      ∃ r' t', readLines n r ls = .ok r' ∧ lines n t ls = some (.ok t') ∧ t'.Mirrors r' := by
  induction ls generalizing n t r with
  | nil => exact Or.inr ⟨r, t, rfl, rfl, h⟩
  | cons l ls ih =>
    rw [lines, line_eq]
    cases hread : readLine l with
    | error fault =>
      refine Or.inl ⟨⟨n, fault⟩, ?_, rfl⟩
      rw [readLines, hread]
    | ok said =>
      obtain ⟨t', hadd, hmirrors⟩ := h.add said
      have hlines : (liftM (t.add? said) >>= fun t => lines (n + 1) t ls : Attempt Fault Table) =
          lines (n + 1) t' ls := by
        rw [hadd]
        rfl
      rw [readLines_cons hread]
      rcases ih hmirrors (n + 1) with ⟨fault, hnames, hplaces⟩ | ⟨r', t'', hnames, hplaces, hlast⟩
      · exact Or.inl ⟨fault, hnames, hlines.trans hplaces⟩
      · exact Or.inr ⟨r', t'', hnames, hlines.trans hplaces, hlast⟩

theorem fail_eq {α : Type} (reason : String) (body : Text.Bytes) :
    (fail reason body : Attempt DecodeError α) =
      some (.error (DecodeError.ofBody .prometheus reason body)) := by
  have hkept : firstBytes? (min body.length DecodeError.previewLength) body =
      some (body.take DecodeError.previewLength) := by
    rw [firstBytes?, if_pos (Nat.min_le_left ..), Nat.min_comm, ← List.take_eq_take_min]
  rw [fail, hkept]
  rfl

theorem read_eq (body : Text.Bytes) : read body = some (Exposition.read body) := by
  rw [read, Exposition.read]
  cases Text.Utf8.decode body with
  | error fault => exact fail_eq fault.message body
  | ok text =>
    dsimp only
    rcases lines_cases mirrors_empty 1 (Text.lines text) with
      ⟨fault, hnames, hplaces⟩ | ⟨r, t, hnames, hplaces, hmirrors⟩
    · rw [hplaces, readText, hnames]
      exact fail_eq fault.message body
    · rw [hplaces, readText, hnames]
      change some (Except.ok t.families) = _
      rw [hmirrors.families]
      rfl

def Completes {ε α : Type} (attempt : Attempt ε α) : Prop :=
  ∃ outcome : Except ε α, attempt = some outcome

/-- A cut fails off the boundaries of characters and past the end, and no cut of the reader does.
Each pass over labels leaves a shorter text, every place is that of a family, and bodies are read
as they are without offsets and places. -/
theorem read_completes (body : Text.Bytes) :
    (∀ n cs, Text.splitAtByte? n cs = none ↔ ¬ String.Pos.Raw.IsValid (String.ofList cs) ⟨n⟩) ∧
    (∀ line, Completes (sample line)) ∧
    (∀ cs, Completes (labels cs)) ∧
    (∀ cs, Completes (pass cs) ∧
      ∀ p, pass cs = some (.ok p) → Text.byteLength p.rest < Text.byteLength cs) ∧
    (∀ n ls, Completes (lines n {} ls) ∧ ∀ t, lines n {} ls = some (.ok t) → t.InRange) ∧
    read body = some (Exposition.read body) := by
  refine ⟨fun _ _ => Text.splitAtByte?_eq_none_iff, fun line => ⟨_, sample_eq line⟩,
    fun cs => ⟨_, labels_eq cs⟩, fun cs => ⟨⟨_, pass_eq cs⟩, fun p hp => ?_⟩, fun n ls => ?_,
    read_eq body⟩
  · rw [pass_eq] at hp
    exact byteLength_of_step (Option.some.inj hp)
  · rcases lines_cases mirrors_empty n ls with ⟨fault, -, hlines⟩ | ⟨r, t, -, hlines, hmirrors⟩
    · refine ⟨⟨_, hlines⟩, fun t ht => ?_⟩
      rw [hlines] at ht
      cases ht
    · refine ⟨⟨_, hlines⟩, fun other hother => ?_⟩
      rw [hlines] at hother
      cases hother
      exact hmirrors.inRange

/-- A label with characters of two bytes and an escaped quote, and a label after it. -/
def accented : List Char := " é=\"ü\\\"\",b=\"\"\x7d 1".toList

def afterAccented : List Char := "b=\"\"\x7d 1".toList

def declarations : List (List Char) := ["# TYPE é counter".toList, "# HELP ü".toList]

def declaredTable : Table where
  families := [{ name := "é", kind := .counter }, { name := "ü", help := some "" }]
  places := [("ü", 1), ("é", 0)]
  current := some 1

theorem read_completes_accented :
    ¬ String.Pos.Raw.IsValid (String.ofList accented) ⟨2⟩ ∧
    (pass accented = some (.ok (.found ⟨"é", "ü\""⟩ afterAccented)) ∧
      Text.byteLength afterAccented < Text.byteLength accented) ∧
    lines 1 {} declarations = some (.ok declaredTable) ∧ declaredTable.InRange := by
  obtain ⟨hcuts, -, -, hpass, hlines, -⟩ := read_completes []
  have hfound : pass accented = some (.ok (.found ⟨"é", "ü\""⟩ afterAccented)) := rfl
  have hread : lines 1 {} declarations = some (.ok declaredTable) := rfl
  exact ⟨(hcuts 2 accented).mp rfl, ⟨hfound, (hpass accented).2 _ hfound⟩,
    hread, (hlines 1 declarations).2 declaredTable hread⟩

end ByOffset
end MetricRelay.Exposition
