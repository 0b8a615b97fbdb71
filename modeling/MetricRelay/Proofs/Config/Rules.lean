import Mathlib.Data.List.Flatten
import MetricRelay.Proofs.Config.Valid
import MetricRelay.Proofs.Number.Order
import MetricRelay.Url.Host

/-!
# What the checks accept

Every check of a configuration finds nothing exactly when its rule holds. Checks
that remember what they have seen are settled for every memory at once, so that
a list, the resources of a service and the services themselves are each one
induction.
-/

namespace MetricRelay
namespace Config

@[simp] theorem ensure_eq_nil {holds : Bool} {problem : Problem} :
    ensure holds problem = [] ↔ holds = true := by
  cases holds <;> simp [ensure]

variable {check : Url.Check}

/-! ### Names and texts -/

theorem isAlpha_iff (c : Char) : c.isAlpha = true ↔ IsLetter c := by
  change (decide ('A' ≤ c ∧ c ≤ 'Z') || (decide ('a' ≤ c) && decide (c ≤ 'z'))) = true ↔
    IsLetter c
  simp [IsLetter, or_comm]

theorem isAlphanum_iff (c : Char) : c.isAlphanum = true ↔ IsLetter c ∨ IsDigit c := by
  rw [Char.isAlphanum, Bool.or_eq_true, isAlpha_iff]
  simp [Char.isDigit, IsDigit, Char.le_def]

theorem spelt_cons {first later : Char → Prop} {text : String} {c : Char} {cs : List Char}
    (h : text.toList = c :: cs) :
    Spelt first later text ↔ first c ∧ ∀ d ∈ cs, later d := by
  constructor
  · rintro ⟨c', cs', htext, hfirst, hlater⟩
    obtain ⟨rfl, rfl⟩ := List.cons.inj (h.symm.trans htext)
    exact ⟨hfirst, hlater⟩
  · rintro ⟨hfirst, hlater⟩
    exact ⟨c, cs, h, hfirst, hlater⟩

theorem not_spelt {first later : Char → Prop} {text : String} (h : text.toList = []) :
    ¬ Spelt first later text := by
  rintro ⟨c, cs, htext, -⟩
  cases h.symm.trans htext

theorem isMetricName_iff (name : String) : isMetricName name = true ↔ MetricName name := by
  rw [isMetricName, MetricName]
  split
  · next hname => exact iff_of_false Bool.false_ne_true (not_spelt hname)
  · next c cs hname =>
    rw [spelt_cons hname]
    simp [isAlpha_iff, isAlphanum_iff, or_assoc]

theorem isLabelName_iff (name : String) : isLabelName name = true ↔
    Spelt (fun c => IsLetter c ∨ c = '_') (fun c => IsLetter c ∨ IsDigit c ∨ c = '_') name ∧
      ¬ ['_', '_'] <+: name.toList := by
  rw [isLabelName]
  split
  · next hname => exact iff_of_false Bool.false_ne_true fun h => not_spelt hname h.1
  · next c cs hname =>
    have hinternal : ['_', '_'] <+: name.toList ↔ c = '_' ∧ cs.head? = some '_' := by
      rw [hname, List.cons_prefix_cons]
      cases cs <;> simp [List.cons_prefix_cons, eq_comm]
    rw [spelt_cons hname, hinternal]
    simp [isAlpha_iff, isAlphanum_iff, or_assoc, and_right_comm, imp_iff_not_or]

theorem labelName_iff (name : String) :
    (isLabelName name && !reservedLabels.contains name) = true ↔ LabelName name := by
  rw [Bool.and_eq_true, isLabelName_iff]
  constructor
  · rintro ⟨⟨hspelt, hinternal⟩, hreserved⟩
    have hfree : name ≠ "job" ∧ name ≠ "instance" := by simpa [reservedLabels] using hreserved
    exact ⟨hspelt, hinternal, hfree.1, hfree.2⟩
  · rintro ⟨hspelt, hinternal, hjob, hinstance⟩
    exact ⟨⟨hspelt, hinternal⟩, by simp [reservedLabels, hjob, hinstance]⟩

theorem worded_iff (text : String) : (!Text.allBlank text) = true ↔ Worded text := by
  simp [Text.allBlank, Worded]

theorem isMethodChar_iff (c : Char) : Method.isTokenChar c = true ↔ IsMethodChar c := by
  rw [Method.isTokenChar, Bool.or_eq_true, isAlphanum_iff, List.contains_iff_mem, or_assoc]
  rfl

theorem isMethodName_iff (method : String) :
    Method.isValid method = true ↔ MethodName method := by
  rw [Method.isValid, MethodName]
  cases hmethod : method.toList with
  | nil => exact iff_of_false Bool.false_ne_true (not_spelt hmethod)
  | cons c cs =>
    rw [spelt_cons hmethod]
    simp [isMethodChar_iff]

/-! ### Services -/

theorem Solver.problems_eq_nil {owner : String} {s : Solver} :
    s.problems owner = [] ↔ s.Valid := by
  have hdialect : (s.dialect.toList.map Char.toLower == "jsonpath".toList) = true ↔
      s.dialect.toLower = "jsonPath".toLower := by
    have hword : "jsonPath".toList.map Char.toLower = "jsonpath".toList := by decide
    change _ ↔ s.dialect.map Char.toLower = "jsonPath".map Char.toLower
    rw [beq_iff_eq, ← String.toList_inj, String.toList_map, String.toList_map, hword]
  rw [problems, List.append_eq_nil_iff, ensure_eq_nil, ensure_eq_nil, worded_iff, hdialect]
  exact ⟨fun h => ⟨h.1, h.2⟩, fun h => ⟨h.path, h.dialect⟩⟩

theorem authProblems_eq_nil {owner : String} {t : AuthTable} :
    authProblems owner t = [] ↔ Filled t := by
  simp only [authProblems, List.flatMap_cons, List.flatMap_nil, List.append_nil,
    List.append_eq_nil_iff, ensure_eq_nil, worded_iff]
  exact ⟨fun h => ⟨h.1, h.2.1, h.2.2⟩, fun h => ⟨h.headerName, h.endpoint, h.tokenPath⟩⟩

theorem Service.webProblems_eq_nil {s : Service} : s.webProblems check = [] ↔ s.Web check := by
  have hmax : Number.maxU16 = 65535 := rfl
  rw [webProblems, hmax]
  split
  · next hport =>
    refine iff_of_false (by simp) fun h => ?_
    have hpos := h.port_pos
    have hle := h.port_le
    omega
  · next hport =>
    have hrange : 1 ≤ s.port ∧ s.port ≤ 65535 := by omega
    split
    · next hcheck => exact iff_of_true rfl ⟨hrange.1, hrange.2, hcheck⟩
    · next reason hcheck =>
      refine iff_of_false (by simp) fun h => ?_
      cases hcheck.symm.trans h.base

theorem Service.problems_eq_nil {s : Service} : s.problems check = [] ↔ s.Valid check := by
  have hweb : (if s.protocol.isHttp then s.webProblems check else []) = [] ↔
      (s.protocol ≠ .file → s.Web check) := by
    rw [← webProblems_eq_nil]
    cases s.protocol <;> simp [Protocol.isHttp]
  rw [problems, List.append_eq_nil_iff, List.append_eq_nil_iff, ensure_eq_nil, bne_iff_ne, hweb]
  constructor
  · rintro ⟨⟨hnamed, hweb⟩, hauth⟩
    refine ⟨hnamed, hweb, ?_⟩
    intro table htable
    rw [htable] at hauth
    exact authProblems_eq_nil.mp hauth
  · rintro ⟨hnamed, hweb, hauth⟩
    refine ⟨⟨hnamed, hweb⟩, ?_⟩
    cases htable : s.auth with
    | none => rfl
    | some table => exact authProblems_eq_nil.mpr (hauth table htable)

/-! ### Metrics -/

/-- Where every number compares, neighbours in order are all that an increasing
list asks for. -/
theorem Histogram.disordered_eq_false {bounds : List Float}
    (h : ∀ x ∈ bounds, x.isNaN = false) :
    disordered bounds = false ↔ bounds.Pairwise (· < ·) := by
  induction bounds with
  | nil => simp [disordered]
  | cons a rest ih =>
    have htail := ih fun x hx => h x (List.mem_cons_of_mem a hx)
    cases rest with
    | nil => simp [disordered]
    | cons b rest =>
      have ha := h a List.mem_cons_self
      have hb := h b (by simp)
      rw [disordered, Bool.or_eq_false_iff, htail, decide_eq_false_iff_not,
        ← Number.lt_iff_not_le ha hb, List.pairwise_cons (l := b :: rest)]
      constructor
      · rintro ⟨hab, hrest⟩
        refine ⟨?_, hrest⟩
        intro x hx
        rcases List.mem_cons.mp hx with rfl | hlater
        · exact hab
        · have hbx := (List.pairwise_cons.mp hrest).1 x hlater
          exact Number.lt_trans ha hb (h x (by simp [hlater])) hab hbx
      · rintro ⟨hall, hrest⟩
        exact ⟨hall b List.mem_cons_self, hrest⟩

theorem Histogram.valid_listed {bounds : List Float} :
    Histogram.Valid ⟨some bounds, none⟩ ↔ bounds ≠ [] ∧ bounds.Pairwise (· < ·) :=
  ⟨fun h => by cases h with | listed hne hincreasing => exact ⟨hne, hincreasing⟩,
    fun h => .listed h.1 h.2⟩

theorem Histogram.valid_powers {e : Exponential} :
    Histogram.Valid ⟨none, some e⟩ ↔ 0 < e.start ∧ 1 < e.factor ∧ 1 ≤ e.count :=
  ⟨fun h => by cases h with | powers hstart hfactor hcount => exact ⟨hstart, hfactor, hcount⟩,
    fun h => .powers h.1 h.2.1 h.2.2⟩

theorem Histogram.faults_eq_some_nil {h : Histogram} (hcomparable : h.Comparable) :
    faults (some h) = some [] ↔ h.Valid := by
  obtain ⟨listed, powers⟩ := h
  cases listed with
  | none =>
    cases powers with
    | none => exact iff_of_false (by simp [faults]) fun h => nomatch h
    | some e =>
      obtain ⟨hstart, hfactor⟩ := hcomparable.powers e rfl
      have hzero : Float.isNaN 0 = false := by decide +kernel
      have hone : Float.isNaN 1 = false := by decide +kernel
      rw [valid_powers, Number.lt_iff_not_le hzero hstart, Number.lt_iff_not_le hone hfactor]
      simp [faults, Nat.one_le_iff_ne_zero]
  | some bounds =>
    cases powers with
    | none =>
      rw [valid_listed, ← disordered_eq_false (hcomparable.listed bounds rfl)]
      cases bounds <;> simp [faults]
    | some e =>
      exact iff_of_false (by cases bounds <;> simp [faults]) fun h => nomatch h

theorem LabelEntry.problems_eq_nil {service : String} {m : Metric} {l : LabelEntry} :
    m.labelProblems service l = [] ↔ l.Valid := by
  rw [Metric.labelProblems, List.append_eq_nil_iff, ensure_eq_nil, labelName_iff,
    Solver.problems_eq_nil]
  exact ⟨fun h => ⟨h.1, h.2⟩, fun h => ⟨h.name, h.solver⟩⟩

theorem Metric.typeProblems_of_histogram {service : String} {m : Metric}
    (htype : m.type = .histogram) :
    m.typeProblems service = [] ↔ m.labels = [] ∧ Histogram.faults m.histogram = some [] := by
  rw [typeProblems, htype, List.append_eq_nil_iff, ensure_eq_nil, List.isEmpty_iff]
  cases Histogram.faults m.histogram <;> simp

theorem Metric.typeProblems_of_single {service : String} {m : Metric}
    (htype : m.type = .counter ∨ m.type = .gauge) :
    m.typeProblems service = [] ↔ m.histogram = none ∧ (m.labels ≠ [] → m.itemPath ≠ none) := by
  rcases htype with htype | htype <;>
    simp [typeProblems, htype, Option.ne_none_iff_isSome, or_iff_not_imp_left]

theorem Metric.typeProblems_eq_nil {service : String} {m : Metric}
    (hcomparable : ∀ h, m.histogram = some h → h.Comparable) :
    m.typeProblems service = [] ↔ m.Typed := by
  constructor
  · intro h
    cases htype : m.type with
    | summary =>
      rw [typeProblems, htype] at h
      cases h
    | histogram =>
      obtain ⟨hlabels, hfaults⟩ := (typeProblems_of_histogram htype).mp h
      cases hgiven : m.histogram with
      | none =>
        rw [hgiven] at hfaults
        cases hfaults
      | some g =>
        rw [hgiven, Histogram.faults_eq_some_nil (hcomparable g hgiven)] at hfaults
        exact .histogram htype hlabels hgiven hfaults
    | counter =>
      obtain ⟨hnone, hitems⟩ := (typeProblems_of_single (Or.inl htype)).mp h
      exact .single (Or.inl htype) hnone hitems
    | gauge =>
      obtain ⟨hnone, hitems⟩ := (typeProblems_of_single (Or.inr htype)).mp h
      exact .single (Or.inr htype) hnone hitems
  · intro h
    cases h with
    | histogram htype hlabels hgiven hbuckets =>
      rw [typeProblems_of_histogram htype, hgiven,
        Histogram.faults_eq_some_nil (hcomparable _ hgiven)]
      exact ⟨hlabels, hbuckets⟩
    | single htype hnone hitems => exact (typeProblems_of_single htype).mpr ⟨hnone, hitems⟩

/-- What a metric without problems gives, whatever its numbers are. -/
theorem Metric.problems_eq_nil_iff {service : String} {m : Metric} : m.problems service = [] ↔
    MetricName m.name ∧ m.solver.Valid ∧ (∀ l ∈ m.labels, l.Valid) ∧
      m.typeProblems service = [] := by
  simp only [problems, List.append_eq_nil_iff, List.flatMap_eq_nil_iff, ensure_eq_nil,
    isMetricName_iff, Solver.problems_eq_nil, LabelEntry.problems_eq_nil, and_assoc]

theorem Metric.problems_eq_nil {service : String} {m : Metric}
    (hcomparable : ∀ h, m.histogram = some h → h.Comparable) :
    m.problems service = [] ↔ m.Valid := by
  rw [problems_eq_nil_iff, typeProblems_eq_nil hcomparable]
  exact ⟨fun ⟨hname, hsolver, hlabels, htyped⟩ => ⟨hname, hsolver, hlabels, htyped⟩,
    fun h => ⟨h.name, h.solver, h.labels, h.typed⟩⟩

/-! ### Definitions -/

/-- Names that come once each and none of which was seen before. -/
def Fresh (seen names : List String) : Prop := names.Nodup ∧ ∀ name ∈ names, name ∉ seen

theorem fresh_nil (seen : List String) : Fresh seen [] :=
  ⟨List.nodup_nil, fun _ hname => absurd hname List.not_mem_nil⟩

theorem fresh_empty {names : List String} : Fresh [] names ↔ names.Nodup :=
  ⟨And.left, fun h => ⟨h, fun _ _ => List.not_mem_nil⟩⟩

theorem fresh_cons {seen names : List String} {name : String} :
    Fresh seen (name :: names) ↔ name ∉ seen ∧ Fresh (name :: seen) names := by
  simp only [Fresh, List.nodup_cons, List.forall_mem_cons]
  constructor
  · rintro ⟨⟨hname, hnodup⟩, hfirst, hnew⟩
    refine ⟨hfirst, hnodup, ?_⟩
    intro n hn hseen
    rcases List.mem_cons.mp hseen with rfl | hold
    · exact hname hn
    · exact hnew n hn hold
  · rintro ⟨hfirst, hnodup, hnew⟩
    exact ⟨⟨fun hmem => hnew name hmem List.mem_cons_self, hnodup⟩, hfirst,
      fun n hn hseen => hnew n hn (List.mem_cons_of_mem name hseen)⟩

theorem fresh_append {seen names more : List String} :
    Fresh seen (names ++ more) ↔ Fresh seen names ∧ Fresh (names.reverse ++ seen) more := by
  induction names generalizing seen with
  | nil => simp [fresh_nil]
  | cons name names ih =>
    rw [List.cons_append, fresh_cons, ih, fresh_cons, List.reverse_cons, List.append_assoc,
      and_assoc]
    rfl

namespace Definition

theorem metricProblems_eq_nil {service : String} {seen : List String} {ms : List Metric} :
    metricProblems service seen ms = [] ↔
      Fresh seen (ms.map (·.name)) ∧ ∀ m ∈ ms, m.problems service = [] := by
  induction ms generalizing seen with
  | nil => simp [metricProblems, fresh_nil]
  | cons m ms ih =>
    rw [metricProblems, List.append_eq_nil_iff, List.append_eq_nil_iff, ensure_eq_nil, ih,
      List.map_cons, fresh_cons, List.forall_mem_cons, Bool.not_eq_true', List.contains_eq_mem,
      decide_eq_false_iff_not]
    tauto

variable {d : Definition}

theorem listProblems_eq_nil {resource : String} {seen names : List String} :
    d.listProblems resource seen names = [] ↔
      Fresh seen names ∧ ∀ name ∈ names, name ∈ d.metricNames := by
  induction names generalizing seen with
  | nil => simp [listProblems, fresh_nil]
  | cons name names ih =>
    rw [listProblems, List.append_eq_nil_iff, List.append_eq_nil_iff, ensure_eq_nil, ensure_eq_nil,
      ih, fresh_cons, List.forall_mem_cons, List.contains_iff_mem, Bool.not_eq_true',
      List.contains_eq_mem, decide_eq_false_iff_not]
    tauto

theorem resourceProblems_cons_eq_nil {seen : List String} {r : Resource} {rs : List Resource} :
    d.resourceProblems seen (r :: rs) = [] ↔
      r.Valid d ∧ Fresh seen r.metrics ∧
        d.resourceProblems (r.metrics.reverse ++ seen) rs = [] := by
  have hforwarder : (r.kind != .forwarder || r.metrics.isEmpty) = true ↔
      (r.kind = .forwarder → r.metrics = []) := by
    rw [Bool.or_eq_true, bne_iff_ne, List.isEmpty_iff, or_iff_not_imp_left, not_not]
  rw [resourceProblems]
  simp only [List.append_eq_nil_iff, ensure_eq_nil, isMethodName_iff, hforwarder,
    listProblems_eq_nil]
  constructor
  · rintro ⟨⟨⟨⟨hmethod, hauth⟩, hnone⟩, hfresh, hdeclared⟩, hrest⟩
    refine ⟨⟨hmethod, ?_, hnone, hdeclared⟩, hfresh, hrest⟩
    intro table htable
    rw [htable] at hauth
    exact authProblems_eq_nil.mp hauth
  · rintro ⟨⟨hmethod, hauth, hnone, hdeclared⟩, hfresh, hrest⟩
    refine ⟨⟨⟨⟨hmethod, ?_⟩, hnone⟩, hfresh, hdeclared⟩, hrest⟩
    split
    · next table htable => exact authProblems_eq_nil.mpr (hauth table htable)
    · rfl

theorem resourceProblems_eq_nil {seen : List String} {rs : List Resource} :
    d.resourceProblems seen rs = [] ↔
      Fresh seen (rs.flatMap (·.metrics)) ∧ ∀ r ∈ rs, r.Valid d := by
  induction rs generalizing seen with
  | nil => simp [resourceProblems, fresh_nil]
  | cons r rs ih =>
    rw [resourceProblems_cons_eq_nil, ih, List.flatMap_cons, fresh_append, List.forall_mem_cons]
    tauto

/-- What a definition without problems gives, whatever its numbers are. -/
theorem problems_eq_nil_iff : d.problems check = [] ↔
    d.service.Valid check ∧
      (d.metricNames.Nodup ∧ ∀ m ∈ d.metrics, m.problems d.service.name = []) ∧
      d.fed.Nodup ∧ ∀ r ∈ d.resources, r.Valid d := by
  rw [problems, List.append_eq_nil_iff, List.append_eq_nil_iff, Service.problems_eq_nil,
    metricProblems_eq_nil, resourceProblems_eq_nil, fresh_empty, fresh_empty, and_assoc]
  rfl

theorem problems_eq_nil
    (hcomparable : ∀ m ∈ d.metrics, ∀ h, m.histogram = some h → h.Comparable) :
    d.problems check = [] ↔ d.Valid check := by
  have hmetrics : (∀ m ∈ d.metrics, m.problems d.service.name = []) ↔
      ∀ m ∈ d.metrics, m.Valid :=
    forall₂_congr fun m hm => Metric.problems_eq_nil (hcomparable m hm)
  rw [problems_eq_nil_iff, hmetrics]
  exact ⟨fun ⟨hservice, ⟨hdistinct, hall⟩, hfed, hresources⟩ =>
      ⟨hservice, hall, hdistinct, hresources, hfed⟩,
    fun h => ⟨h.service, ⟨h.distinct, h.metrics⟩, h.fed_once, h.resources⟩⟩

end Definition

/-! ### What services share -/

/-- Services of distinct names, all of which are given. -/
theorem definitionProblems_eq_nil {seen : List String} {ds : List Definition} :
    definitionProblems check seen ds = [] ↔
      Fresh seen (ds.map (·.service.name)) ∧ ∀ d ∈ ds, d.problems check = [] := by
  induction ds generalizing seen with
  | nil => simp [definitionProblems, fresh_nil]
  | cons d ds ih =>
    -- A service without a name counts as seen by nobody, but its own check finds it.
    have hnamed : d.problems check = [] → d.service.name ≠ "" := fun h =>
      (Definition.problems_eq_nil_iff.mp h).1.named
    rw [definitionProblems]
    simp only [List.append_eq_nil_iff, ensure_eq_nil, ih, List.map_cons, fresh_cons,
      List.forall_mem_cons, Bool.or_eq_true, beq_iff_eq, Bool.not_eq_true', List.contains_eq_mem,
      decide_eq_false_iff_not]
    tauto

/-- Metrics of one name are of one type. -/
def Agreed (xs : List Declared) : Prop :=
  ∀ x ∈ xs, ∀ y ∈ xs, x.metric = y.metric → x.type = y.type

theorem Agreed.subset {xs ys : List Declared} (h : Agreed ys) (hsub : xs ⊆ ys) : Agreed xs :=
  fun x hx y hy => h x (hsub hx) y (hsub hy)

/-- One more metric agrees with all when it agrees with those of its name. -/
theorem Agreed.cons {xs : List Declared} {x : Declared} (h : Agreed xs)
    (hx : ∀ y ∈ xs, y.metric = x.metric → y.type = x.type) : Agreed (x :: xs) := by
  intro y hy z hz hname
  rcases List.mem_cons.mp hy with rfl | hyold <;> rcases List.mem_cons.mp hz with rfl | hzold
  · rfl
  · exact (hx z hzold hname.symm).symm
  · exact hx y hyold hname
  · exact h y hyold z hzold hname

/-- The first metric of a name stands for all that are seen of that name. -/
theorem typeConflicts_eq_nil {seen xs : List Declared} (hseen : Agreed seen) :
    typeConflicts seen xs = [] ↔ Agreed (seen ++ xs) := by
  induction xs generalizing seen with
  | nil => simpa [typeConflicts] using hseen
  | cons x xs ih =>
    have hperm : (seen ++ x :: xs).Perm (x :: (seen ++ xs)) := List.perm_middle
    rw [typeConflicts]
    split
    · next hnone =>
      have hnew : ∀ y ∈ seen, y.metric ≠ x.metric := by simpa using hnone
      have hwith : Agreed (x :: seen) := hseen.cons fun y hy hname => absurd hname (hnew y hy)
      rw [ih (hwith.subset (List.perm_append_singleton x seen).subset), List.append_assoc]
      rfl
    · next first hfirst =>
      have hmem := List.mem_of_find?_eq_some hfirst
      have hname : first.metric = x.metric := by simpa using List.find?_some hfirst
      rw [List.append_eq_nil_iff, ensure_eq_nil, beq_iff_eq, ih hseen]
      constructor
      · rintro ⟨htype, hall⟩
        have hcons : Agreed (x :: (seen ++ xs)) := by
          refine hall.cons fun y hy hsame => ?_
          rw [← htype]
          exact hall y hy first (List.mem_append_left xs hmem) (hsame.trans hname.symm)
        exact hcons.subset hperm.subset
      · intro hall
        refine ⟨hall first (List.mem_append_left _ hmem) x (by simp) hname, hall.subset ?_⟩
        exact List.append_subset.mpr ⟨List.subset_append_left _ _, fun y hy => by simp [hy]⟩

theorem agreed_declared {ds : List Definition} :
    Agreed (declared ds) ↔ ∀ d ∈ ds, ∀ m ∈ d.metrics, ∀ d' ∈ ds, ∀ m' ∈ d'.metrics,
      m.name = m'.name → m.type = m'.type := by
  simp only [Agreed, declared, List.forall_mem_flatMap, List.forall_mem_map]

theorem Settings.problems_eq_nil {s : Settings} : s.problems = [] ↔
    ['/'] <+: s.server.metricsPath.toList ∧ 1 ≤ s.scrape.workers := by
  have hpath : s.server.metricsPath.toList.head? = some '/' ↔
      ['/'] <+: s.server.metricsPath.toList := by
    cases s.server.metricsPath.toList <;> simp [eq_comm]
  rw [problems, List.append_eq_nil_iff, ensure_eq_nil, ensure_eq_nil, beq_iff_eq, bne_iff_ne,
    hpath, Nat.one_le_iff_ne_zero]

end Config

/-- Whatever check of locations is used: where every bucket number compares, a configuration has no
problems exactly when it is valid. -/
theorem Config.problems_eq_nil_iff_valid (check : Url.Check) {c : Config}
    (hcomparable : c.Comparable) : c.problems check = [] ↔ c.Valid check := by
  have hdefinitions : (∀ d ∈ c.definitions, d.problems check = []) ↔
      ∀ d ∈ c.definitions, d.Valid check :=
    forall₂_congr fun d hd => Definition.problems_eq_nil (hcomparable d hd)
  have htypes : typeConflicts [] (declared c.definitions) = [] ↔ Agreed (declared c.definitions) :=
    typeConflicts_eq_nil fun x hx => absurd hx List.not_mem_nil
  rw [problems, List.append_eq_nil_iff, List.append_eq_nil_iff, Settings.problems_eq_nil,
    definitionProblems_eq_nil, fresh_empty, hdefinitions, htypes, agreed_declared]
  exact ⟨fun ⟨⟨⟨hpath, hworkers⟩, hdistinct, hall⟩, hagreed⟩ =>
      ⟨hpath, hworkers, hall, hdistinct, hagreed⟩,
    fun h => ⟨⟨⟨h.metricsPath, h.workers⟩, h.distinct, h.definitions⟩, h.types⟩⟩

def latencies (bounds : List Float) : Config where
  settings := ⟨.default, .default, .default⟩
  definitions := [{
    service := ⟨"shop", .https, "shop.example", 8443, "/api", some ⟨"X-Token", "login", "/token"⟩⟩
    metrics := [
      ⟨"latency_seconds", .histogram, "", ⟨"JsonPath", "/times"⟩, [], some ⟨some bounds, none⟩,
        none⟩,
      ⟨"queue", .gauge, "", ⟨"jsonpath", "/length"⟩, [⟨"topic", ⟨"jsonpath", "/topic"⟩⟩], none,
        some "/queues"⟩]
    resources := [
      ⟨"stats", "stats", "GET", .api, .json, ["queue", "latency_seconds"], none⟩,
      ⟨"own", "metrics", "GET", .forwarder, .json, [], some .none⟩] }]

/-- Bounds in order make the configuration valid, bounds out of order do not. -/
theorem valid_latencies :
    (latencies [0.1, 0.5, 2.5]).Comparable ∧ (latencies [0.5, 0.1]).Comparable ∧
    (latencies [0.1, 0.5, 2.5]).Valid Url.hosted ∧ ¬ (latencies [0.5, 0.1]).Valid Url.hosted := by
  have hcomparable : ∀ bounds : List Float, (∀ x ∈ bounds, x.isNaN = false) →
      (latencies bounds).Comparable := by
    intro bounds hbounds
    simpa [Config.Comparable, latencies] using
      (⟨fun _ heq => Option.some.inj heq ▸ hbounds, fun _ heq => nomatch heq⟩ :
        Config.Histogram.Comparable ⟨some bounds, none⟩)
  have hordered := hcomparable [0.1, 0.5, 2.5] (by decide +kernel)
  have hswapped := hcomparable [0.5, 0.1] (by decide +kernel)
  refine ⟨hordered, hswapped, ?_, ?_⟩
  · exact (Config.problems_eq_nil_iff_valid Url.hosted hordered).mp (by decide +kernel)
  · intro hvalid
    have hnone := (Config.problems_eq_nil_iff_valid Url.hosted hswapped).mpr hvalid
    revert hnone
    decide +kernel

/-- A bound that is no number stands between any two. -/
example : (latencies [0.5, 0 / 0, 0.1]).problems Url.hosted = [] := by decide +kernel

end MetricRelay
