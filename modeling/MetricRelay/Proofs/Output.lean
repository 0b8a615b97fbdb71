import MetricRelay.Output
import MetricRelay.Proofs.Keyed

/-!
# Families that are put together

An output holds every name once, and a family of it is made of the families of
its name that were put in: it has their samples, in the order in which they came.
-/

namespace MetricRelay

def Family.samplesNamed (name : String) (families : List Family) : List Sample :=
  (families.filter (·.name = name)).flatMap (·.samples)

/-- The family that the families of one name make: the first gives help and kind, all give their
samples. -/
def Family.together : List Family → Option Family
  | [] => none
  | first :: more => some { first with samples := first.samples ++ more.flatMap (·.samples) }

theorem Family.of_together {families : List Family} {g : Family}
    (h : Family.together families = some g) :
    ∃ first, families.head? = some first ∧ g.help = first.help ∧ g.kind = first.kind ∧
      g.samples = families.flatMap (·.samples) := by
  cases families with
  | nil => cases h
  | cons first more =>
    obtain rfl := Option.some.inj h
    exact ⟨first, rfl, rfl, rfl, rfl⟩

namespace Output

/-- Every family stands under its own name, and the names are in order. -/
structure WellKept (out : Output) : Prop where
  ordered : Keyed.Ordered out.byName
  named : ∀ entry ∈ out.byName, entry.2.name = entry.1

variable {out : Output}

theorem WellKept.add (h : out.WellKept) (family : Family) : (out.add family).WellKept where
  ordered := h.ordered.adjust _ _
  named := by
    intro entry hentry
    rcases Keyed.mem_adjust hentry with hold | rfl | ⟨first, hfirst, rfl⟩
    · exact h.named entry hold
    · rfl
    · exact h.named (family.name, first) hfirst

theorem WellKept.extend (h : out.WellKept) (families : List Family) :
    (out.extend families).WellKept := by
  induction families generalizing out with
  | nil => exact h
  | cons f fs ih => exact ih (h.add f)

theorem wellKept_empty : WellKept {} := ⟨List.Pairwise.nil, by simp⟩

theorem extend_append (out : Output) (fs gs : List Family) :
    out.extend (fs ++ gs) = (out.extend fs).extend gs :=
  List.foldl_append

theorem WellKept.names (h : out.WellKept) :
    out.families.map (·.name) = out.byName.map (·.1) := by
  rw [families, List.map_map]
  exact List.map_congr_left h.named

/-- No two families of an output have one name. -/
theorem WellKept.nodup (h : out.WellKept) : (out.families.map (·.name)).Nodup := by
  rw [h.names]
  exact h.ordered.nodup

/-- The names of an output are those of the families that were put in. -/
theorem mem_keys_extend (name : String) (families : List Family) :
    name ∈ (out.extend families).byName.map (·.1) ↔
      name ∈ out.byName.map (·.1) ∨ ∃ f ∈ families, f.name = name := by
  induction families generalizing out with
  | nil => simp [extend]
  | cons f fs ih =>
    have hstep : out.extend (f :: fs) = (out.add f).extend fs := rfl
    have hkeys : name ∈ (out.add f).byName.map (·.1) ↔
        name = f.name ∨ name ∈ out.byName.map (·.1) := Keyed.mem_keys_adjust
    rw [hstep, ih, hkeys, List.exists_mem_cons_iff, or_left_comm, eq_comm, or_assoc]

theorem mem_names_extend (name : String) (families : List Family) :
    name ∈ ((Output.extend {} families).families.map (·.name)) ↔ ∃ f ∈ families, f.name = name := by
  rw [(wellKept_empty.extend families).names, mem_keys_extend]
  simp

/-- What holds of the families that are put in, and outlives that one takes in the samples of
another, holds of the families of an output. -/
theorem forall_extend {P : Family → Prop}
    (hmerge : ∀ f g, P f → P g → P { f with samples := f.samples ++ g.samples })
    {families : List Family} (h : ∀ f ∈ families, P f) (hout : ∀ entry ∈ out.byName, P entry.2) :
    ∀ entry ∈ (out.extend families).byName, P entry.2 := by
  induction families generalizing out with
  | nil => exact hout
  | cons f fs ih =>
    change ∀ entry ∈ ((out.add f).extend fs).byName, P entry.2
    refine ih (fun g hg => h g (List.mem_cons_of_mem f hg)) ?_
    intro entry hentry
    rcases Keyed.mem_adjust hentry with hold | rfl | ⟨first, hfirst, rfl⟩
    · exact hout entry hold
    · exact h f List.mem_cons_self
    · exact hmerge first f (hout _ hfirst) (h f List.mem_cons_self)

/-! ### Families of one name -/

/-- Under each name stands what the families of this name make, those from before first. -/
theorem WellKept.get?_extend (h : out.WellKept) (families : List Family) (name : String) :
    Keyed.get? name (out.extend families).byName =
      Family.together ((Keyed.get? name out.byName).toList ++ families.filter (·.name = name)) := by
  induction families generalizing out with
  | nil =>
    have hsame : out.extend [] = out := rfl
    rw [hsame]
    cases Keyed.get? name out.byName <;> simp [Family.together]
  | cons f fs ih =>
    have hstep : out.extend (f :: fs) = (out.add f).extend fs := rfl
    rw [hstep, ih (h.add f), Output.add, Keyed.get?_adjust h.ordered]
    by_cases hname : f.name = name
    · cases hold : Keyed.get? name out.byName <;> simp [hname, Family.together]
    · simp [hname]

/-- Families that are put in by themselves are all that the output knows. -/
theorem get?_families (families : List Family) (name : String) :
    Keyed.get? name (Output.extend {} families).byName =
      Family.together (families.filter (·.name = name)) :=
  wellKept_empty.get?_extend families name

theorem WellKept.get?_of_mem (h : out.WellKept) {f : Family} (hf : f ∈ out.families) :
    Keyed.get? f.name out.byName = some f := by
  obtain ⟨entry, hentry, rfl⟩ := List.mem_map.mp hf
  rw [h.named entry hentry]
  exact Keyed.get?_of_mem h.ordered.nodup hentry

/-- A name has one family at most. -/
theorem WellKept.filter_families (h : out.WellKept) (name : String) :
    out.families.filter (·.name = name) = (Keyed.get? name out.byName).toList := by
  have hkeys : out.byName.filter (·.2.name = name) = out.byName.filter (·.1 = name) :=
    List.filter_congr fun entry hentry => by rw [h.named entry hentry]
  rw [families, List.filter_map, ← Keyed.map_filter h.ordered.nodup, ← hkeys]
  rfl

/-! ### Samples -/

/-- Under each name an output has the samples of the families of this name that were put in. -/
theorem samplesNamed_extend (name : String) (families : List Family) :
    Family.samplesNamed name (Output.extend {} families).families =
      Family.samplesNamed name families := by
  rw [Family.samplesNamed, (wellKept_empty.extend families).filter_families, get?_families,
    Family.samplesNamed]
  cases families.filter (·.name = name) with
  | nil => rfl
  | cons first more => simp [Family.together]

/-- Whatever it meets, a family that is put in adds its samples once. -/
theorem samples_add (out : Output) (family : Family) :
    ((out.add family).families.flatMap (·.samples)).Perm
      (out.families.flatMap (·.samples) ++ family.samples) := by
  obtain ⟨entries⟩ := out
  simp only [families, Output.add]
  induction entries with
  | nil => simp [Keyed.adjust]
  | cons entry rest ih =>
    rw [Keyed.adjust, List.map_cons, List.flatMap_cons]
    split
    · rw [List.map_cons, List.flatMap_cons, List.append_assoc, List.append_assoc]
      exact List.perm_append_comm.append_left entry.2.samples
    · split
      · rw [List.map_cons, List.flatMap_cons]
        exact List.perm_append_comm
      · rw [List.map_cons, List.flatMap_cons, List.append_assoc]
        exact ih.append_left entry.2.samples

/-- Families that are put together neither lose nor repeat a sample. -/
theorem samples_extend (families : List Family) :
    ((out.extend families).families.flatMap (·.samples)).Perm
      (out.families.flatMap (·.samples) ++ families.flatMap (·.samples)) := by
  induction families generalizing out with
  | nil => simp [extend]
  | cons f fs ih =>
    have hrest : ((out.extend (f :: fs)).families.flatMap (·.samples)).Perm
        ((out.add f).families.flatMap (·.samples) ++ fs.flatMap (·.samples)) := ih
    rw [List.flatMap_cons, ← List.append_assoc]
    exact hrest.trans ((samples_add out f).append_right _)

/-! ### Kinds -/

def kind? (out : Output) (name : String) : Option MetricKind :=
  (Keyed.get? name out.byName).map (·.kind)

/-- The first family of a name that is put in gives the kind. -/
theorem WellKept.kind?_extend (h : out.WellKept) (families : List Family) (name : String) :
    (out.extend families).kind? name =
      (out.kind? name).or ((families.find? (·.name = name)).map (·.kind)) := by
  rw [kind?, kind?, h.get?_extend, ← List.head?_filter]
  cases hold : Keyed.get? name out.byName
  · cases families.filter (·.name = name) <;> rfl
  · rfl

theorem WellKept.kind?_of_mem (h : out.WellKept) {f : Family} (hf : f ∈ out.families) :
    out.kind? f.name = some f.kind := by
  rw [kind?, h.get?_of_mem hf]
  rfl

end Output
end MetricRelay
