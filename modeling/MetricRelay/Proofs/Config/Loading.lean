import Mathlib.Data.List.Forall2
import MetricRelay.Config.Load

/-!
# Loading, one step after another

Loading goes on until a step fails, and no step depends on the warnings before
it. A list comes from a file if the file can be read, is text, is TOML and holds
the list under its key.
-/

namespace MetricRelay.Config

variable {α β : Type} {w : List Warning}

/-! ### Loading step by step -/

/-- What loading comes to after some warnings. -/
def LoadT.outcome (x : LoadT Id α) (warnings : List Warning) : Except LoadError α :=
  (x.run.run warnings).1

def LoadT.warned (x : LoadT Id α) (warnings : List Warning) : List Warning :=
  (x.run.run warnings).2

section Steps

variable {x : LoadT Id α} {f : α → LoadT Id β} {a : α} {b : β} {error : LoadError}

theorem outcome_pure (a : α) : LoadT.outcome (pure a) w = .ok a := rfl

theorem outcome_bind_of_ok (h : x.outcome w = .ok a) :
    LoadT.outcome (x >>= f) w = (f a).outcome (x.warned w) := by
  change ((ExceptT.bindCont f (x.outcome w)).run (x.warned w)).1 = _
  rw [h]
  rfl

theorem outcome_bind_of_error (h : x.outcome w = .error error) :
    LoadT.outcome (x >>= f) w = .error error := by
  change ((ExceptT.bindCont f (x.outcome w)).run (x.warned w)).1 = _
  rw [h]
  rfl

theorem outcome_bind_eq_ok : LoadT.outcome (x >>= f) w = .ok b ↔
    ∃ a, x.outcome w = .ok a ∧ (f a).outcome (x.warned w) = .ok b := by
  cases hx : x.outcome w with
  | error e => simp [outcome_bind_of_error hx]
  | ok a => simp [outcome_bind_of_ok hx]

/-- A list is loaded if each of its items is, one after another. -/
theorem outcome_mapM_eq_ok {f : α → LoadT Id β} {R : α → β → Prop}
    (hf : ∀ a b w, (f a).outcome w = .ok b ↔ R a b) {xs : List α} {ys : List β} :
    LoadT.outcome (xs.mapM f) w = .ok ys ↔ List.Forall₂ R xs ys := by
  induction xs generalizing ys w with
  | nil =>
    rw [List.mapM_nil, outcome_pure, List.forall₂_nil_left_iff, Except.ok.injEq, eq_comm]
  | cons x xs ih =>
    rw [List.mapM_cons, List.forall₂_cons_left_iff]
    simp only [outcome_bind_eq_ok, hf, ih, outcome_pure, Except.ok.injEq]
    constructor
    · rintro ⟨y, hy, ys', hys, rfl⟩
      exact ⟨y, ys', hy, hys, rfl⟩
    · rintro ⟨y, ys', hy, hys, rfl⟩
      exact ⟨y, hy, ys', hys, rfl⟩

end Steps

/-! ### The files -/

variable {files : FileAccess Id} {path key : String} {view : Toml → Option α} {xs ys : List α}

def bytesOf (files : FileAccess Id) (path : String) : Except FileFault Text.Bytes :=
  files.read path

def Holds (files : FileAccess Id) (path key : String) (view : Toml → Option α) (xs : List α) :
    Prop :=
  ∃ bytes text entries, bytesOf files path = .ok bytes ∧
    Text.Utf8.decode bytes = .ok text ∧ Toml.read? text = some entries ∧
    readFile? key view (.table entries) = some xs

theorem Holds.unique (h : Holds files path key view xs) (h' : Holds files path key view ys) :
    xs = ys := by
  obtain ⟨bytes, text, entries, hread, htext, hentries, hxs⟩ := h
  obtain ⟨bytes', text', entries', hread', htext', hentries', hys⟩ := h'
  cases hread.symm.trans hread'
  cases htext.symm.trans htext'
  cases hentries.symm.trans hentries'
  exact Option.some.inj (hxs.symm.trans hys)

theorem readText_eq_ok {text : List Char} : readText files path = Except.ok text ↔
    ∃ bytes, bytesOf files path = .ok bytes ∧ Text.Utf8.decode bytes = .ok text := by
  cases hbytes : bytesOf files path with
  | error fault =>
    have hread : files.read path = Except.error fault := hbytes
    rw [readText, hread]
    change Except.error fault = Except.ok text ↔ _
    simp
  | ok bytes =>
    have hread : files.read path = Except.ok bytes := hbytes
    rw [readText, hread]
    change (Text.Utf8.decode bytes).mapError (fun _ => FileFault.notText) = .ok text ↔ _
    cases hdecode : Text.Utf8.decode bytes <;> simp [Except.mapError, hdecode]

theorem outcome_readEntries_eq_ok :
    (readEntries files path key view).outcome w = .ok xs ↔ Holds files path key view xs := by
  rw [readEntries]
  -- The first step only reads the text.
  refine (Eq.congr_left (@outcome_bind_of_ok _ _ w _ _ (readText files path) rfl)).trans ?_
  constructor
  · intro h
    split at h
    · cases h
    · next text hread =>
      obtain ⟨bytes, hcontent, hdecode⟩ := readText_eq_ok.mp hread
      split at h
      · cases h
      · next entries hentries =>
        cases h
        obtain ⟨tables, htables, hview⟩ := Option.bind_eq_some_iff.mp hentries
        exact ⟨bytes, text, tables, hcontent, hdecode, htables, hview⟩
  · rintro ⟨bytes, text, tables, hcontent, hdecode, htables, hview⟩
    rw [readText_eq_ok.mpr ⟨bytes, hcontent, hdecode⟩]
    simp only [htables, Option.bind_some, hview]
    rfl

end MetricRelay.Config
