import MetricRelay.Proofs.Catalog.Plan
import MetricRelay.Proofs.Text.Cuts

/-!
# The metrics of a valid configuration

The rules of a configuration look at definitions; the catalog keeps what they
promise. Names of metrics and labels have plain characters only, no label takes
a name of the identity, and within a service a name stands for one metric.
-/

namespace MetricRelay

open Text (Solid)

namespace Config

def isNameChar (c : Char) : Bool := c.isAlphanum || c == '_' || c == ':'

structure PlainName (name : List Char) : Prop where
  ne_nil : name ≠ []
  chars : ∀ c ∈ name, isNameChar c = true

instance (name : List Char) : Decidable (PlainName name) :=
  decidable_of_iff (name ≠ [] ∧ name.all isNameChar = true)
    ⟨fun h => ⟨h.1, List.all_eq_true.mp h.2⟩, fun h => ⟨h.ne_nil, List.all_eq_true.mpr h.chars⟩⟩

theorem not_blank_of_isNameChar {c : Char} (h : isNameChar c = true) : Text.isBlank c = false := by
  rw [isNameChar, Bool.or_eq_true, Bool.or_eq_true, isAlphanum_iff, beq_iff_eq, beq_iff_eq] at h
  simp only [IsLetter, IsDigit, Char.le_def, UInt32.le_iff_toNat_le] at h
  change ((((97 ≤ c.toNat ∧ c.toNat ≤ 122) ∨ (65 ≤ c.toNat ∧ c.toNat ≤ 90)) ∨
    (48 ≤ c.toNat ∧ c.toNat ≤ 57)) ∨ c = '_') ∨ c = ':' at h
  have hno : ¬ Text.isBlank c = true := by
    simp only [Text.isBlank, Bool.or_eq_true, Bool.and_eq_true, decide_eq_true_eq, beq_iff_eq]
    rcases h with (hword | rfl) | rfl
    · omega
    · decide
    · decide
  simpa using hno

theorem PlainName.solid {name : List Char} (h : PlainName name) : Solid name :=
  fun c hc => not_blank_of_isNameChar (h.chars c hc)

theorem PlainName.not_mem {name : List Char} (h : PlainName name) {c : Char}
    (hc : isNameChar c = false) : c ∉ name := by
  intro hmem
  rw [h.chars c hmem] at hc
  cases hc

theorem PlainName.append {name suffix : List Char} (h : PlainName name)
    (hsuffix : PlainName suffix) : PlainName (name ++ suffix) where
  ne_nil := by simp [h.ne_nil]
  chars := by
    intro c hc
    rcases List.mem_append.mp hc with hname | hrest
    · exact h.chars c hname
    · exact hsuffix.chars c hrest

theorem isNameChar_of {c : Char} (h : IsLetter c ∨ IsDigit c ∨ c = '_' ∨ c = ':') :
    isNameChar c = true := by
  rw [isNameChar, Bool.or_eq_true, Bool.or_eq_true, isAlphanum_iff, beq_iff_eq, beq_iff_eq]
  tauto

/-- A text spelt from plain characters is a plain name. -/
theorem Spelt.plainName {first later : Char → Prop} {name : String} (h : Spelt first later name)
    (hfirst : ∀ c, first c → isNameChar c = true) (hlater : ∀ c, later c → isNameChar c = true) :
    PlainName name.toList := by
  obtain ⟨c, cs, hname, hc, hcs⟩ := h
  refine ⟨by simp [hname], ?_⟩
  rw [hname, List.forall_mem_cons]
  exact ⟨hfirst c hc, fun d hd => hlater d (hcs d hd)⟩

theorem plainName_of_metricName {name : String} (h : MetricName name) : PlainName name.toList :=
  Spelt.plainName h (fun _ hc => isNameChar_of (by tauto)) fun _ hc => isNameChar_of hc

theorem LabelName.plainName {name : String} (h : LabelName name) : PlainName name.toList :=
  h.spelt.plainName (fun _ hc => isNameChar_of (by tauto)) fun _ hc => isNameChar_of (by tauto)

theorem LabelName.not_reserved {name : String} (h : LabelName name) : name ∉ reservedLabels := by
  simp [reservedLabels, h.ne_job, h.ne_instance]

end Config

/-! ### Metrics of the catalog -/

namespace Catalog

/-- A metric of the catalog was declared in some definition, or was there before. -/
theorem mem_metrics_foldl {c : Catalog} {ds : List Config.Definition} {m : Metric}
    (h : m ∈ (ds.foldl Catalog.append c).metrics) :
    m ∈ c.metrics ∨ ∃ d ∈ ds, ∃ entry ∈ d.metrics, m = metric m.id m.service entry := by
  induction ds generalizing c with
  | nil => exact Or.inl h
  | cons d ds ih =>
    rcases ih h with hbefore | ⟨d', hd', hfound⟩
    · rcases List.mem_append.mp hbefore with hold | hnew
      · exact Or.inl hold
      · rw [List.mem_mapIdx] at hnew
        obtain ⟨i, hi, rfl⟩ := hnew
        exact Or.inr ⟨d, List.mem_cons_self, _, List.getElem_mem hi, rfl⟩
    · exact Or.inr ⟨d', List.mem_cons_of_mem d hd', hfound⟩

/-- By service and name the metrics are told apart. -/
structure Named (c : Catalog) : Prop where
  nodup : (c.metrics.map fun m => (m.service, m.name)).Nodup
  service_lt : ∀ m ∈ c.metrics, m.service.index < c.services.length

theorem Named.append {c : Catalog} (h : c.Named) {d : Config.Definition}
    (hnames : (d.metrics.map (·.name)).Nodup) : (c.append d).Named := by
  have hnew : (c.appendedMetrics d).map (fun m => (m.service, m.name)) =
      d.metrics.map fun m => (⟨c.services.length⟩, m.name) := by
    apply List.ext_getElem?
    intro i
    rw [List.getElem?_map, appendedMetrics, List.getElem?_mapIdx, List.getElem?_map, Option.map_map]
    rfl
  have hservices : (c.append d).services.length = c.services.length + 1 := List.length_append
  constructor
  · rw [append_eq, List.map_append, hnew]
    refine List.nodup_append.mpr ⟨h.nodup, ?_, ?_⟩
    · have hpairs := hnames.map (f := fun name => (ServiceId.mk c.services.length, name))
        fun a b hab => (Prod.mk.inj hab).2
      rwa [List.map_map] at hpairs
    · rintro ⟨service, name⟩ hold ⟨service', name'⟩ hlater heq
      obtain ⟨m, hm, hpair⟩ := List.mem_map.mp hold
      obtain ⟨m', -, hpair'⟩ := List.mem_map.mp hlater
      have hlt := h.service_lt m hm
      rw [(Prod.mk.inj hpair).1, (Prod.mk.inj heq).1, ← (Prod.mk.inj hpair').1] at hlt
      exact Nat.lt_irrefl _ hlt
  · intro m hm
    rw [hservices]
    rcases List.mem_append.mp hm with hold | hlater
    · exact Nat.lt_succ_of_lt (h.service_lt m hold)
    · obtain ⟨i, hi⟩ := List.mem_iff_getElem?.mp hlater
      rw [(appendedMetrics_at hi).2]
      exact Nat.lt_succ_self _

theorem named_foldl {c : Catalog} (h : c.Named) {ds : List Config.Definition}
    (hnames : ∀ d ∈ ds, (d.metrics.map (·.name)).Nodup) : (ds.foldl Catalog.append c).Named := by
  induction ds generalizing c with
  | nil => exact h
  | cons d ds ih =>
    exact ih (h.append (hnames d List.mem_cons_self))
      fun d' hd' => hnames d' (List.mem_cons_of_mem d hd')

theorem named_empty : Named {} := ⟨List.nodup_nil, by simp⟩

theorem mem_of_metric? {c : Catalog} {id : MetricId} {m : Metric} (h : c.metric? id = some m) :
    m ∈ c.metrics :=
  List.mem_of_getElem? h

end Catalog

namespace Config

variable {check : Url.Check} {c : Config}

/-- Within a service of a valid configuration a name stands for one metric. -/
theorem metric_eq_of_name (h : c.problems check = []) {m m' : Catalog.Metric}
    (hm : m ∈ c.catalog.metrics) (hm' : m' ∈ c.catalog.metrics) (hservice : m.service = m'.service)
    (hname : m.name = m'.name) : m = m' := by
  have hnames : ∀ d ∈ c.definitions, (d.metrics.map (·.name)).Nodup := fun d hd =>
    (Definition.problems_eq_nil_iff.mp (definition_problems h d hd)).2.1.1
  have hnamed := Catalog.named_foldl Catalog.named_empty hnames
  exact List.inj_on_of_nodup_map hnamed.nodup hm hm' (Prod.ext hservice hname)

/-- Metrics of one name in a valid configuration are of one type. -/
theorem type_eq_of_name (h : c.problems check = []) {m m' : Catalog.Metric}
    (hm : m ∈ c.catalog.metrics) (hm' : m' ∈ c.catalog.metrics) (hname : m.name = m'.name) :
    m.type = m'.type := by
  have hconflicts : typeConflicts [] (declared c.definitions) = [] :=
    (List.append_eq_nil_iff.mp h).2
  rw [typeConflicts_eq_nil fun x hx => absurd hx List.not_mem_nil, List.nil_append,
    agreed_declared] at hconflicts
  rcases Catalog.mem_metrics_foldl hm with hnone | ⟨d, hd, entry, hentry, heq⟩
  · cases hnone
  rcases Catalog.mem_metrics_foldl hm' with hnone | ⟨d', hd', entry', hentry', heq'⟩
  · cases hnone
  rw [heq, heq'] at hname ⊢
  exact hconflicts d hd entry hentry d' hd' entry' hentry' hname

structure Ruled (m : Catalog.Metric) : Prop where
  name : PlainName m.name.toList
  labels : ∀ l ∈ m.labels, PlainName l.name.toList ∧ l.name ∉ reservedLabels

/-- A metric of a valid configuration was declared without a problem. -/
theorem exists_entry (h : c.problems check = []) {m : Catalog.Metric} (hm : m ∈ c.catalog.metrics) :
    ∃ service entry, Metric.problems service entry = [] ∧
      m = Catalog.metric m.id m.service entry := by
  rcases Catalog.mem_metrics_foldl hm with hnone | ⟨d, hd, entry, hentry, heq⟩
  · cases hnone
  · have hrules := (Definition.problems_eq_nil_iff.mp (definition_problems h d hd)).2.1.2
    exact ⟨d.service.name, entry, hrules entry hentry, heq⟩

theorem metric_ruled (h : c.problems check = []) {m : Catalog.Metric} (hm : m ∈ c.catalog.metrics) :
    Ruled m := by
  obtain ⟨service, entry, hrules, heq⟩ := exists_entry h hm
  obtain ⟨hname, -, hlabels, -⟩ := Metric.problems_eq_nil_iff.mp hrules
  rw [heq]
  refine ⟨plainName_of_metricName hname, ?_⟩
  intro l hl
  obtain ⟨own, hown, rfl⟩ := List.mem_map.mp hl
  exact ⟨(hlabels own hown).name.plainName, (hlabels own hown).name.not_reserved⟩

end Config
end MetricRelay
