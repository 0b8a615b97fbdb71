import MetricRelay.Proofs.Output

/-!
# Families that are delivered singly and in batches

What comes out of an output has one family for each name, in the order of the names.
Of the deliveries nothing matters but the families of each name and their order.
-/

namespace MetricRelay.Output

/-- Families that reach an output, one family or several at a time. -/
inductive Delivery where
  | single (family : Family)
  | batch (families : List Family)

def Delivery.families : Delivery → List Family
  | .single family => [family]
  | .batch families => families

def receive (out : Output) : Delivery → Output
  | .single family => out.add family
  | .batch families => out.extend families

def ofDeliveries (deliveries : List Delivery) : Output := deliveries.foldl receive {}

def delivered (deliveries : List Delivery) : List Family := deliveries.flatMap Delivery.families

/-- `merged` is what the families `given` make: one family for each name, in the order of the
names, with help and kind of the first one of its name and the samples of all of them. -/
structure Merged (given merged : List Family) : Prop where
  increasing : (merged.map (·.name)).Pairwise (· < ·)
  names : ∀ name, (∃ g ∈ merged, g.name = name) ↔ ∃ f ∈ given, f.name = name
  headed : ∀ g ∈ merged, ∃ first, given.find? (·.name = g.name) = some first ∧
    g.help = first.help ∧ g.kind = first.kind
  sampled : ∀ g ∈ merged, g.samples = Family.samplesNamed g.name given

/-- Both lists have the same families of each name, in the same order. -/
def SameByName (given given' : List Family) : Prop :=
  ∀ name, given'.filter (·.name = name) = given.filter (·.name = name)

/-! ### What deliveries leave -/

theorem receive_eq_extend (out : Output) (delivery : Delivery) :
    out.receive delivery = out.extend delivery.families := by
  cases delivery with
  | single | batch => rfl

/-- It does not matter how the families are spread over deliveries. -/
theorem ofDeliveries_eq (deliveries : List Delivery) :
    ofDeliveries deliveries = Output.extend {} (delivered deliveries) := by
  have hall : ∀ out : Output, deliveries.foldl receive out = out.extend (delivered deliveries) := by
    induction deliveries with
    | nil => exact fun _ => rfl
    | cons delivery more ih =>
      intro out
      rw [List.foldl_cons, ih, receive_eq_extend, ← extend_append]
      rfl
  exact hall {}

theorem merged_extend (given : List Family) : Merged given (Output.extend {} given).families := by
  have hkept := wellKept_empty.extend given
  have hmakes : ∀ g ∈ (Output.extend {} given).families,
      Family.together (given.filter (·.name = g.name)) = some g := by
    intro g hg
    rw [← get?_families, hkept.get?_of_mem hg]
  refine ⟨?_, fun name => ?_, fun g hg => ?_, fun g hg => ?_⟩
  · rw [hkept.names, List.pairwise_map]
    exact hkept.ordered
  · exact List.mem_map.symm.trans (mem_names_extend name given)
  · obtain ⟨first, hfirst, hhelp, hkind, -⟩ := Family.of_together (hmakes g hg)
    rw [List.head?_filter] at hfirst
    exact ⟨first, hfirst, hhelp, hkind⟩
  · obtain ⟨-, -, -, -, hsamples⟩ := Family.of_together (hmakes g hg)
    exact hsamples

/-! ### What the order matters for -/

theorem SameByName.symm {given given' : List Family} (h : SameByName given given') :
    SameByName given' given := fun name => (h name).symm

/-- Two neighbours of different names may change places. -/
theorem sameByName_swap {f g : Family} (h : f.name ≠ g.name) (before after : List Family) :
    SameByName (before ++ f :: g :: after) (before ++ g :: f :: after) := by
  intro name
  rw [List.filter_append, List.filter_append]
  congr 1
  by_cases hf : f.name = name
  · have hg : g.name ≠ name := fun hg => h (hf.trans hg.symm)
    simp [hf, hg]
  · simp only [List.filter_cons, hf, decide_false, Bool.false_eq_true, if_false]

/-- A family that is merged from some families is merged from the same ones in another order. -/
theorem Merged.subset {given given' merged merged' : List Family} (h : Merged given merged)
    (h' : Merged given' merged') (hsame : SameByName given given') : merged ⊆ merged' := by
  intro g hg
  obtain ⟨f, hf, hname⟩ := (h.names g.name).mp ⟨g, hg, rfl⟩
  have hf' : f ∈ given'.filter (·.name = g.name) := by
    rw [hsame, List.mem_filter]
    exact ⟨hf, decide_eq_true hname⟩
  obtain ⟨g', hg', hname'⟩ := (h'.names g.name).mpr ⟨f, (List.mem_filter.mp hf').1, hname⟩
  obtain ⟨first, hfirst, hhelp, hkind⟩ := h.headed g hg
  obtain ⟨first', hfirst', hhelp', hkind'⟩ := h'.headed g' hg'
  have hfirsts : first' = first := by
    rw [hname', ← List.head?_filter, hsame, List.head?_filter, hfirst] at hfirst'
    exact (Option.some.inj hfirst').symm
  have hsamples : g'.samples = g.samples := by
    rw [h'.sampled g' hg', h.sampled g hg, Family.samplesNamed, Family.samplesNamed, hname', hsame]
  have heq : g' = g := by
    cases g
    cases g'
    simp_all
  exact heq ▸ hg'

/-- What some families make is settled by the order of the families of each name. -/
theorem Merged.eq {given given' merged merged' : List Family} (h : Merged given merged)
    (h' : Merged given' merged') (hsame : SameByName given given') : merged' = merged := by
  have hordered : merged.Pairwise (·.name < ·.name) := List.pairwise_map.mp h.increasing
  have hordered' : merged'.Pairwise (·.name < ·.name) := List.pairwise_map.mp h'.increasing
  have hnodup {l : List Family} (hl : l.Pairwise (·.name < ·.name)) : l.Nodup := by
    refine hl.imp fun hlt heq => ?_
    rw [heq] at hlt
    exact Std.lt_irrefl hlt
  have hperm : merged'.Perm merged := by
    rw [List.perm_ext_iff_of_nodup (hnodup hordered') (hnodup hordered)]
    exact fun g => ⟨fun hg => h'.subset h hsame.symm hg, fun hg => h.subset h' hsame hg⟩
  refine hperm.eq_of_pairwise ?_ hordered' hordered
  intro f g _ _ hfg hgf
  exact absurd (Std.lt_trans hfg hgf) Std.lt_irrefl

/-- However families are given, they come out merged, with every sample once; and families of
different names may be given in any other order. -/
theorem families_ofDeliveries (deliveries : List Delivery) :
    Merged (delivered deliveries) (ofDeliveries deliveries).families ∧
      ((ofDeliveries deliveries).families.flatMap (·.samples)).Perm
        ((delivered deliveries).flatMap (·.samples)) ∧
      ∀ others, SameByName (delivered deliveries) (delivered others) →
        (ofDeliveries others).families = (ofDeliveries deliveries).families := by
  have hmerged (deliveries : List Delivery) :
      Merged (delivered deliveries) (ofDeliveries deliveries).families := by
    rw [ofDeliveries_eq]
    exact merged_extend (delivered deliveries)
  refine ⟨hmerged deliveries, ?_, fun others => (hmerged deliveries).eq (hmerged others)⟩
  rw [ofDeliveries_eq]
  exact samples_extend (delivered deliveries)

def chainHead (job : String) (value : Float) : Family :=
  ⟨"seq", some ("head of " ++ job), .counter, [⟨"seq", [⟨"job", job⟩], value, none⟩]⟩

def chainUp (job : String) : Family :=
  ⟨"seq_up", none, .gauge, [⟨"seq_up", [⟨"job", job⟩], 1, none⟩]⟩

def mirrored : List Delivery :=
  [.single (chainHead "node" 1), .batch [chainUp "node", chainHead "mirror" 2]]

/-- The gauge may come first; the two counters keep their order. -/
theorem families_ofDeliveries_mirrored :
    let others := [.batch [chainUp "node", chainHead "node" 1], .single (chainHead "mirror" 2)]
    SameByName (delivered mirrored) (delivered others) ∧
      (ofDeliveries others).families = (ofDeliveries mirrored).families ∧
      (ofDeliveries mirrored).families.map (fun f => (f.name, f.help, f.samples.length)) =
        [("seq", some "head of node", 2), ("seq_up", none, 1)] := by
  intro others
  have hsame : SameByName (delivered mirrored) (delivered others) :=
    sameByName_swap (by decide) [] [chainHead "mirror" 2]
  exact ⟨hsame, (families_ofDeliveries mirrored).2.2 others hsame, by decide⟩

end MetricRelay.Output
