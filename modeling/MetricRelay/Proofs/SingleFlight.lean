import MetricRelay.Proofs.Keyed
import MetricRelay.SingleFlight

/-!
# Ready results of a single flight

A result appears under a key only when the loader of that key completes, and
from then on it stays: no other operation makes, changes or removes one.
-/

namespace MetricRelay.SingleFlight

variable {ν : Type}

def Ready (f : SingleFlight ν) (key : String) (value : ν) : Prop :=
  f.cell? key = some (.ready value)

theorem cell?_put (f : SingleFlight ν) (key : String) (c : Cell ν) :
    (f.put key c).cell? key = some c := by
  rw [cell?, put, Keyed.find?_replace, Option.map_some]

theorem cell?_put_of_ne (f : SingleFlight ν) {key other : String} (h : other ≠ key)
    (c : Cell ν) : (f.put key c).cell? other = f.cell? other := by
  rw [cell?, put, Keyed.find?_replace_of_ne h, cell?]

theorem cell?_drop_of_ne (f : SingleFlight ν) {key other : String} (h : other ≠ key) :
    (f.drop key).cell? other = f.cell? other := by
  rw [cell?, drop, Keyed.find?_filter_of_ne h, cell?]

theorem cell?_drop (f : SingleFlight ν) (key : String) : (f.drop key).cell? key = none := by
  rw [cell?, drop, Keyed.find?_filter_self, Option.map_none]

@[simp] theorem cell?_startLoad (f : SingleFlight ν) (key : String) :
    f.startLoad.cell? key = f.cell? key := rfl

/-- Replacing a cell by a load under way makes no result. -/
theorem ready_of_put_loading {f : SingleFlight ν} {key url : String} {loader : Nat}
    {line : List Nat} {value : ν} (h : (f.put key (.loading loader line)).Ready url value) :
    f.Ready url value := by
  by_cases hurl : url = key
  · subst hurl
    rw [Ready, cell?_put] at h
    cases h
  · rwa [Ready, cell?_put_of_ne f hurl] at h

theorem ready_of_enter {f : SingleFlight ν} {key url : String} {caller : Nat} {value : ν}
    (h : (f.enter key caller).2.Ready url value) : f.Ready url value := by
  rw [enter] at h
  split at h
  · exact ready_of_put_loading h
  · exact ready_of_put_loading h
  · exact h

theorem enter_take {f : SingleFlight ν} {key : String} {caller : Nat} {value : ν}
    (h : (f.enter key caller).1 = .take value) : (f.enter key caller).2.Ready key value := by
  rw [enter] at h ⊢
  split at h
  · cases h
  · cases h
  · next held hcell =>
    cases h
    exact hcell

theorem enter_of_ready {f : SingleFlight ν} {key : String} {value : ν} (h : f.Ready key value)
    (caller : Nat) : f.enter key caller = (.take value, f) := by
  rw [enter, h]

theorem enter_of_none {f : SingleFlight ν} {key : String} (h : f.cell? key = none)
    (caller : Nat) :
    f.enter key caller = (.load, (f.put key (.loading caller [])).startLoad) := by
  rw [enter, h]

theorem ready_of_resume {f : SingleFlight ν} {key url : String} {caller : Nat} {value : ν}
    (h : (f.resume key caller).2.Ready url value) : f.Ready url value := by
  rw [resume] at h
  split at h
  · exact h
  · split at h
    · exact h
    · exact h
  · exact h

theorem resume_take {f : SingleFlight ν} {key : String} {caller : Nat} {value : ν}
    (h : (f.resume key caller).1 = .take value) : (f.resume key caller).2.Ready key value := by
  rw [resume] at h ⊢
  split at h
  · next held hcell =>
    cases h
    exact hcell
  · split at h <;> cases h
  · cases h

theorem complete_ready (f : SingleFlight ν) (key : String) (value : ν) :
    (f.complete key value).2.Ready key value := by
  rw [complete]
  split <;> exact cell?_put f key (.ready value)

theorem ready_of_complete {f : SingleFlight ν} {key url : String} {made value : ν}
    (h : (f.complete key made).2.Ready url value) :
    f.Ready url value ∨ url = key ∧ value = made := by
  have hput : (f.put key (.ready made)).Ready url value := by
    rw [complete] at h
    split at h <;> exact h
  by_cases hurl : url = key
  · subst hurl
    rw [Ready, cell?_put] at hput
    cases hput
    exact Or.inr ⟨rfl, rfl⟩
  · rw [Ready, cell?_put_of_ne f hurl] at hput
    exact Or.inl hput

end MetricRelay.SingleFlight
