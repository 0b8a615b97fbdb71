import MetricRelay.Proofs.Token.Traffic

/-!
# The slots of all scopes

What is found in the slots after one of them has changed. Slots that belong to
different scopes do not touch each other.
-/

namespace MetricRelay.Token.Slots

variable {slots : Slots} {scope other : AuthScope} {slot new : Slot}

def sources (slots : Slots) : List Catalog.ScopeEntry := slots.map (·.source)

theorem sources_ofCatalog (c : Catalog) : (ofCatalog c).sources = c.scopes := by
  rw [sources, ofCatalog, List.map_map]
  exact List.map_id _

/-- Each scope has one slot at most. -/
def Apart (slots : Slots) : Prop := (slots.sources.map (·.scope)).Nodup

theorem apart_of_sources {slots' : Slots} (hapart : slots.Apart)
    (h : slots'.sources = slots.sources) : slots'.Apart := by
  rw [Apart, h]
  exact hapart

theorem mem_of_slot? (h : slots.slot? scope = some slot) : slot ∈ slots :=
  List.mem_of_find?_eq_some h

theorem scope_of_slot? (h : slots.slot? scope = some slot) : slot.source.scope = scope := by
  simpa using List.find?_some h

theorem slot?_of_mem (hapart : slots.Apart) (h : slot ∈ slots) :
    slots.slot? slot.source.scope = some slot := by
  obtain ⟨found, hfound⟩ : ∃ found, slots.slot? slot.source.scope = some found :=
    Option.isSome_iff_exists.mp (List.find?_isSome.mpr ⟨slot, h, by simp⟩)
  rw [Apart, sources, List.map_map] at hapart
  rw [hfound, List.inj_on_of_nodup_map hapart (mem_of_slot? hfound) h (scope_of_slot? hfound)]

theorem put_self (hapart : slots.Apart) (h : slots.slot? scope = some slot) :
    slots.put slot = slots := by
  refine (List.map_congr_left fun s hs => ?_).trans (List.map_id slots)
  split
  · next heq =>
    have hfound := slot?_of_mem hapart hs
    rw [eq_of_beq heq, scope_of_slot? h, h] at hfound
    exact Option.some.inj hfound
  · rfl

/-- The slot that is put last stays. -/
theorem put_put (slots : Slots) (slot new : Slot) (h : slot.source.scope = new.source.scope) :
    (slots.put slot).put new = slots.put new := by
  rw [put, put, List.map_map, put]
  refine List.map_congr_left fun s _ => ?_
  rw [Function.comp_apply, h]
  split
  · next heq => rw [h, if_pos (beq_self_eq_true _)]
  · rfl

theorem sources_put (hapart : slots.Apart) (h : slots.slot? scope = some slot)
    (hnew : new.source = slot.source) : (slots.put new).sources = slots.sources := by
  rw [sources, put, List.map_map, sources]
  refine List.map_congr_left fun s hs => ?_
  rw [Function.comp_apply]
  split
  · next heq =>
    have hfound := slot?_of_mem hapart hs
    rw [eq_of_beq heq, hnew, scope_of_slot? h, h] at hfound
    rw [hnew, Option.some.inj hfound]
  · rfl

theorem slot?_put (h : slots.slot? scope = some slot) (hnew : new.source = slot.source) :
    (slots.put new).slot? scope = some new := by
  have hscope : new.source.scope = scope := hnew ▸ scope_of_slot? h
  rw [slot?, put, List.find?_map]
  have hsame : ((fun s : Slot => s.source.scope == scope) ∘ fun s : Slot =>
      if s.source.scope == new.source.scope then new else s) =
      fun s : Slot => s.source.scope == scope := by
    funext s
    rw [Function.comp_apply, hscope]
    split
    · next heq => rw [heq, hscope, beq_self_eq_true]
    · rfl
  rw [hsame]
  change (slots.slot? scope).map _ = _
  rw [h, Option.map_some, if_pos]
  rw [hnew, beq_self_eq_true]

theorem slot?_put_of_ne (h : other ≠ new.source.scope) :
    (slots.put new).slot? other = slots.slot? other := by
  rw [slot?, put, List.find?_map]
  have hsame : ((fun s : Slot => s.source.scope == other) ∘ fun s : Slot =>
      if s.source.scope == new.source.scope then new else s) =
      fun s : Slot => s.source.scope == other := by
    funext s
    rw [Function.comp_apply]
    split
    · next heq => rw [eq_of_beq heq]
    · rfl
  rw [hsame]
  change (slots.slot? other).map _ = _
  cases hfound : slots.slot? other with
  | none => rfl
  | some found =>
    rw [Option.map_some, if_neg]
    rw [scope_of_slot? hfound, beq_iff_eq]
    exact h

/-- No slot is lost when one is put. -/
theorem exists_slot?_put (h : slots.slot? scope = some slot) (new : Slot) :
    ∃ s, (slots.put new).slot? scope = some s := by
  refine Option.isSome_iff_exists.mp (List.find?_isSome.mpr ?_)
  refine ⟨_, List.mem_map_of_mem (mem_of_slot? h), ?_⟩
  split
  · next heq => rw [← eq_of_beq heq, scope_of_slot? h, beq_self_eq_true]
  · rw [scope_of_slot? h, beq_self_eq_true]

/-- What one caller leaves behind in each slot that it gives up on. -/
theorem abandon_snd (slots : Slots) (caller : Nat) :
    (slots.abandon caller).2 = slots.map fun s => (s.abandon caller).2 := by
  induction slots with
  | nil => rfl
  | cons slot slots ih => exact congrArg ((slot.abandon caller).2 :: ·) ih

theorem abandon_source (slot : Slot) (caller : Nat) :
    (slot.abandon caller).2.source = slot.source := by
  rw [Slot.abandon]
  split
  · exact slot.release_source
  · rfl

theorem abandon_current (slot : Slot) (caller : Nat) :
    (slot.abandon caller).2.current = slot.current := by
  rw [Slot.abandon]
  split
  · exact slot.release_current
  · rfl

theorem sources_abandon (slots : Slots) (caller : Nat) :
    (slots.abandon caller).2.sources = slots.sources := by
  rw [abandon_snd, sources, List.map_map, sources]
  exact List.map_congr_left fun s _ => abandon_source s caller

theorem slot?_abandon (caller : Nat) :
    (slots.abandon caller).2.slot? scope =
      (slots.slot? scope).map fun s => (s.abandon caller).2 := by
  rw [abandon_snd, slot?, List.find?_map, slot?]
  have hsame : ((fun s : Slot => s.source.scope == scope) ∘ fun s => (s.abandon caller).2) =
      fun s : Slot => s.source.scope == scope := by
    funext s
    rw [Function.comp_apply, abandon_source]
  rw [hsame]

end MetricRelay.Token.Slots
