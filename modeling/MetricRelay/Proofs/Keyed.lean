import Mathlib.Data.List.Induction
import Mathlib.Data.List.Nodup
import Mathlib.Logic.Function.Basic
import MetricRelay.Keyed

/-!
# Lists of pairs and functions as maps

A map that is changed by dropping the pairs of a key, and then perhaps putting
a new pair in front, says the same as before about every other key. A map in
the order of its keys stays so, and has no key twice.
-/

namespace MetricRelay.Keyed

section Replaced

variable {κ α : Type} [BEq κ] [LawfulBEq κ]

theorem find?_filter_of_ne {key other : κ} (h : other ≠ key) (entries : List (κ × α)) :
    (entries.filter (·.1 != key)).find? (·.1 == other) = entries.find? (·.1 == other) := by
  rw [List.find?_filter]
  congr 1
  funext entry
  by_cases hentry : entry.1 = other
  · simp [hentry, h]
  · simp [hentry]

theorem find?_filter_self (key : κ) (entries : List (κ × α)) :
    (entries.filter (·.1 != key)).find? (·.1 == key) = none := by
  simp [List.find?_filter]

theorem find?_replace (key : κ) (value : α) (entries : List (κ × α)) :
    ((key, value) :: entries.filter (·.1 != key)).find? (·.1 == key) = some (key, value) := by
  simp

theorem find?_replace_of_ne {key other : κ} (h : other ≠ key) (value : α)
    (entries : List (κ × α)) :
    ((key, value) :: entries.filter (·.1 != key)).find? (·.1 == other) =
      entries.find? (·.1 == other) := by
  have hkey : (key == other) = false := by simpa using Ne.symm h
  rw [List.find?_cons, hkey, find?_filter_of_ne h]

end Replaced

section Ordered

variable {κ α : Type} [LT κ] [DecidableLT κ] [DecidableEq κ]

def Ordered (entries : List (κ × α)) : Prop := entries.Pairwise (·.1 < ·.1)

/-- What a key holds after it was adjusted. -/
theorem mem_adjust {k : κ} {f : Option α → α} {entries : List (κ × α)} {entry : κ × α}
    (h : entry ∈ adjust k f entries) :
    entry ∈ entries ∨ entry = (k, f none) ∨
      ∃ old, (k, old) ∈ entries ∧ entry = (k, f (some old)) := by
  induction entries with
  | nil => exact Or.inr (Or.inl (List.mem_singleton.mp h))
  | cons first rest ih =>
    obtain ⟨own, value⟩ := first
    rw [adjust] at h
    split at h
    · next heq =>
      subst heq
      rcases List.mem_cons.mp h with rfl | hrest
      · exact Or.inr (Or.inr ⟨value, List.mem_cons_self, rfl⟩)
      · exact Or.inl (List.mem_cons_of_mem _ hrest)
    · split at h
      · rcases List.mem_cons.mp h with rfl | hold
        · exact Or.inr (Or.inl rfl)
        · exact Or.inl hold
      · rcases List.mem_cons.mp h with rfl | hrest
        · exact Or.inl List.mem_cons_self
        · rcases ih hrest with hold | hnew | ⟨old, hmem, heq⟩
          · exact Or.inl (List.mem_cons_of_mem _ hold)
          · exact Or.inr (Or.inl hnew)
          · exact Or.inr (Or.inr ⟨old, List.mem_cons_of_mem _ hmem, heq⟩)

/-- The keys after an adjustment are those from before and the adjusted one. -/
theorem mem_keys_adjust {k key : κ} {f : Option α → α} {entries : List (κ × α)} :
    key ∈ (adjust k f entries).map (·.1) ↔ key = k ∨ key ∈ entries.map (·.1) := by
  induction entries with
  | nil => simp [adjust]
  | cons first rest ih =>
    rw [adjust]
    split
    · next heq =>
      subst heq
      simp
    · split
      · simp
      · rw [List.map_cons, List.mem_cons, ih, List.map_cons, List.mem_cons, or_left_comm]

variable [LE κ] [Std.IsLinearOrder κ] [Std.LawfulOrderLT κ]

theorem Ordered.adjust {entries : List (κ × α)} (h : Ordered entries) (k : κ)
    (f : Option α → α) : Ordered (adjust k f entries) := by
  induction entries with
  | nil => exact List.pairwise_singleton _ _
  | cons first rest ih =>
    obtain ⟨hfirst, hrest⟩ := List.pairwise_cons.mp h
    rw [Keyed.adjust]
    split
    · next heq =>
      subst heq
      exact List.pairwise_cons.mpr ⟨hfirst, hrest⟩
    · next hne =>
      split
      · next hlt =>
        refine List.pairwise_cons.mpr ⟨?_, h⟩
        intro entry hentry
        rcases List.mem_cons.mp hentry with rfl | hlater
        · exact hlt
        · exact Std.lt_trans hlt (hfirst entry hlater)
      · next hnot =>
        have hgt : first.1 < k := Std.lt_of_le_of_ne (Std.not_lt.mp hnot) (Ne.symm hne)
        refine List.pairwise_cons.mpr ⟨?_, ih hrest⟩
        intro entry hentry
        have hkey := mem_keys_adjust.mp (List.mem_map.mpr ⟨entry, hentry, rfl⟩)
        rcases hkey with hkey | hkey
        · exact hkey ▸ hgt
        · obtain ⟨old, hold, hsame⟩ := List.mem_map.mp hkey
          exact hsame ▸ hfirst old hold

omit [DecidableLT κ] [DecidableEq κ] [Std.IsLinearOrder κ] in
/-- No key comes twice. -/
theorem Ordered.nodup {entries : List (κ × α)} (h : Ordered entries) :
    (entries.map (·.1)).Nodup := by
  rw [List.Nodup, List.pairwise_map]
  refine h.imp fun hlt heq => ?_
  rw [heq] at hlt
  exact Std.lt_irrefl hlt

end Ordered

section Lookup

variable {κ α : Type} [LT κ] [DecidableLT κ] [DecidableEq κ]

omit [LT κ] [DecidableLT κ] in
theorem get?_cons (key : κ) (entry : κ × α) (rest : List (κ × α)) :
    get? key (entry :: rest) = if entry.1 = key then some entry.2 else get? key rest := by
  rw [get?, List.find?_cons]
  by_cases h : entry.1 = key
  · simp [h]
  · simp [h, get?]

omit [LT κ] [DecidableLT κ] in
theorem get?_eq_none {entries : List (κ × α)} {key : κ} (h : key ∉ entries.map (·.1)) :
    get? key entries = none := by
  induction entries with
  | nil => rfl
  | cons entry rest ih =>
    rw [List.map_cons, List.mem_cons, not_or] at h
    rw [get?_cons, if_neg (Ne.symm h.1), ih h.2]

omit [LT κ] [DecidableLT κ] in
theorem get?_of_mem {entries : List (κ × α)} (h : (entries.map (·.1)).Nodup) {entry : κ × α}
    (hmem : entry ∈ entries) : get? entry.1 entries = some entry.2 := by
  induction entries with
  | nil => cases hmem
  | cons first rest ih =>
    rw [List.map_cons, List.nodup_cons] at h
    rw [get?_cons]
    rcases List.mem_cons.mp hmem with rfl | hrest
    · exact if_pos rfl
    · rw [if_neg, ih h.2 hrest]
      rintro heq
      exact h.1 (heq ▸ List.mem_map_of_mem hrest)

omit [LT κ] [DecidableLT κ] in
/-- Of different keys one at most is the one that is looked up. -/
theorem map_filter {entries : List (κ × α)} (h : (entries.map (·.1)).Nodup) (key : κ) :
    (entries.filter (·.1 = key)).map (·.2) = (get? key entries).toList := by
  induction entries with
  | nil => rfl
  | cons entry rest ih =>
    rw [List.map_cons, List.nodup_cons] at h
    rw [get?_cons, List.filter_cons]
    by_cases hkey : entry.1 = key
    · have hrest : rest.filter (·.1 = key) = [] := by
        rw [List.filter_eq_nil_iff]
        intro other hother hsame
        exact h.1 (List.mem_map.mpr ⟨other, hother, (of_decide_eq_true hsame).trans hkey.symm⟩)
      simp [hkey, hrest]
    · simp [hkey, ih h.2]

theorem get?_insert (k key : κ) (v : α) (entries : List (κ × α)) :
    get? key (insert k v entries) = if k = key then some v else get? key entries := by
  induction entries with
  | nil => exact get?_cons key (k, v) []
  | cons entry rest ih =>
    rw [insert, adjust]
    split
    · next heq =>
      rw [get?_cons, get?_cons, ← heq]
      split <;> rfl
    · next hne =>
      split
      · exact get?_cons ..
      · rw [get?_cons, get?_cons]
        split
        · next hkey => rw [if_neg fun heq => hne (heq.trans hkey.symm)]
        · exact ih

theorem get?_foldl_insert {entries : List (κ × α)} {key : κ} (h : key ∉ entries.map (·.1))
    (before : List (κ × α)) :
    get? key (entries.foldl (fun acc (k, v) => insert k v acc) before) = get? key before := by
  induction entries generalizing before with
  | nil => rfl
  | cons entry rest ih =>
    rw [List.map_cons, List.mem_cons, not_or] at h
    rw [List.foldl_cons, ih h.2, get?_insert, if_neg fun heq => h.1 heq.symm]

/-- Of pairs with different keys each one stays. -/
theorem get?_ofList {entries : List (κ × α)} (h : (entries.map (·.1)).Nodup) {key : κ} {v : α}
    (hmem : (key, v) ∈ entries) : get? key (ofList entries) = some v := by
  obtain ⟨before, after, rfl⟩ := List.append_of_mem hmem
  rw [List.map_append, List.map_cons] at h
  have hlater := (List.nodup_cons.mp (List.nodup_append.mp h).2.1).1
  rw [ofList, List.foldl_append, List.foldl_cons, get?_foldl_insert hlater, get?_insert,
    if_pos rfl]

/-- Of pairs with one key the last one stays. -/
theorem get?_ofList_last (entries : List (κ × α)) (key : κ) :
    get? key (ofList entries) = (entries.filter (·.1 = key)).getLast?.map (·.2) := by
  induction entries using List.reverseRecOn with
  | nil => rfl
  | append_singleton entries entry ih =>
    obtain ⟨k, v⟩ := entry
    have hone : ofList (entries ++ [(k, v)]) = insert k v (ofList entries) := by
      rw [ofList, List.foldl_append]
      rfl
    rw [hone, get?_insert, List.filter_append]
    by_cases hk : k = key
    · simp [hk]
    · simp [hk, ih]

variable [LE κ] [Std.IsLinearOrder κ] [Std.LawfulOrderLT κ]

theorem get?_adjust {entries : List (κ × α)} (h : Ordered entries) (k key : κ)
    (f : Option α → α) :
    get? key (adjust k f entries) =
      if k = key then some (f (get? key entries)) else get? key entries := by
  induction entries with
  | nil => exact get?_cons key (k, f none) []
  | cons entry rest ih =>
    obtain ⟨hfirst, hrest⟩ := List.pairwise_cons.mp h
    rw [adjust]
    split
    · next heq =>
      rw [get?_cons, get?_cons, ← heq]
      split <;> rfl
    · next hne =>
      split
      · next hlt =>
        have hnew : k ∉ (entry :: rest).map (·.1) := by
          intro hmem
          obtain ⟨other, hother, heq⟩ := List.mem_map.mp hmem
          rcases List.mem_cons.mp hother with rfl | hlater
          · exact hne heq.symm
          · exact Std.lt_irrefl (heq ▸ Std.lt_trans hlt (hfirst other hlater))
        rw [get?_cons]
        split
        · next hkey => rw [get?_eq_none (hkey ▸ hnew)]
        · rfl
      · rw [get?_cons, get?_cons, ih hrest]
        split
        · next hkey => rw [if_neg fun heq => hne (heq.trans hkey.symm)]
        · rfl

end Lookup

/-- A function that is changed at a key is new there and as before elsewhere. -/
theorem update_cases {κ α : Type} [DecidableEq κ] (f : κ → α) (key : κ) (new : α) (other : κ) :
    (other = key ∧ Function.update f key new other = new) ∨
      (other ≠ key ∧ Function.update f key new other = f other) := by
  by_cases h : other = key
  · exact Or.inl ⟨h, h ▸ Function.update_self ..⟩
  · exact Or.inr ⟨h, Function.update_of_ne h ..⟩

end MetricRelay.Keyed
