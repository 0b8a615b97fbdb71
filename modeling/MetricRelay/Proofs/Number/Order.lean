import Mathlib.Data.Prod.Lex
import Mathlib.Order.Compare
import MetricRelay.Number.Real

/-!
# Numbers in order

Doubles compare by sign, exponent and mantissa. Every double but one that is no
number has a rank in a linear order, and two of them compare as their ranks do;
so below and not above are the same for them, and below is transitive.
-/

namespace MetricRelay.Number

open Float.Model (UnpackedFloat)

/-- The place of a number among all numbers: its kind, from the least to the
greatest, and then how large it is. -/
def rank : UnpackedFloat → ℤ ×ₗ ℤ ×ₗ ℤ
  | .infinity .negative => toLex (-2, toLex (0, 0))
  | .finite .negative m e _ => toLex (-1, toLex (-e, -(m : ℤ)))
  | .zero _ | .notANumber => toLex (0, toLex (0, 0))
  | .finite .positive m e _ => toLex (1, toLex (e, (m : ℤ)))
  | .infinity .positive => toLex (2, toLex (0, 0))

theorem toLex_lt_toLex {a b c a' b' c' : ℤ} :
    toLex (a, toLex (b, c)) < toLex (a', toLex (b', c')) ↔
      a < a' ∨ a = a' ∧ (b < b' ∨ b = b' ∧ c < c') := by
  rw [Prod.Lex.toLex_lt_toLex, Prod.Lex.toLex_lt_toLex]

/-- Exponents decide first, mantissas of one exponent after them. -/
theorem compares_then {α : Type*} [Preorder α] {f : ℤ → ℕ → α}
    (hf : ∀ {e e' : ℤ} {m m' : ℕ}, e < e' ∨ e = e' ∧ m < m' → f e m < f e' m') (e e' : ℤ)
    (m m' : ℕ) : ((compare e e').then (compare m m')).Compares (f e m) (f e' m') := by
  rcases lt_trichotomy e e' with he | rfl | he
  · rw [compare_lt_iff_lt.mpr he]
    exact hf (Or.inl he)
  · rcases lt_trichotomy m m' with hm | rfl | hm
    · rw [compare_eq_iff_eq.mpr rfl, compare_lt_iff_lt.mpr hm]
      exact hf (Or.inr ⟨rfl, hm⟩)
    · rw [compare_eq_iff_eq.mpr rfl, compare_eq_iff_eq.mpr rfl]
      rfl
    · rw [compare_eq_iff_eq.mpr rfl, compare_gt_iff_gt.mpr hm]
      exact hf (Or.inr ⟨rfl, hm⟩)
  · rw [compare_gt_iff_gt.mpr he]
    exact hf (Or.inl he)

theorem compares_positive (e e' : ℤ) (m m' : ℕ) :
    ((compare e e').then (compare m m')).Compares (toLex ((1 : ℤ), toLex (e, (m : ℤ))))
      (toLex ((1 : ℤ), toLex (e', (m' : ℤ)))) :=
  compares_then (f := fun e m => toLex ((1 : ℤ), toLex (e, (m : ℤ))))
    (fun _ => toLex_lt_toLex.mpr (by omega)) e e' m m'

/-- Below zero the larger exponent comes first. -/
theorem compares_negative (e e' : ℤ) (m m' : ℕ) :
    ((compare e e').then (compare m m')).swap.Compares (toLex ((-1 : ℤ), toLex (-e, -(m : ℤ))))
      (toLex ((-1 : ℤ), toLex (-e', -(m' : ℤ)))) := by
  rw [Ordering.compares_swap, ← toDual_compares_toDual]
  exact compares_then (f := fun e m => OrderDual.toDual (toLex ((-1 : ℤ), toLex (-e, -(m : ℤ)))))
    (fun _ => OrderDual.toDual_lt_toDual.mpr (toLex_lt_toLex.mpr (by omega))) e e' m m'

/-- Two numbers compare as their ranks do. -/
theorem compares_rank {x y : UnpackedFloat} (hx : x.isNaN = false) (hy : y.isNaN = false) :
    ∃ o, x.compare y = some o ∧ o.Compares (rank x) (rank y) := by
  cases x with
  | notANumber => cases hx
  | infinity s =>
    cases y with
    | notANumber => cases hy
    | infinity s' =>
      cases s <;> cases s'
      · exact ⟨.eq, rfl, rfl⟩
      · exact ⟨.lt, rfl, toLex_lt_toLex.mpr (by omega)⟩
      · exact ⟨.gt, rfl, toLex_lt_toLex.mpr (by omega)⟩
      · exact ⟨.eq, rfl, rfl⟩
    | zero s' => cases s <;> exact ⟨_, rfl, toLex_lt_toLex.mpr (by omega)⟩
    | finite s' m' e' _ =>
      cases s <;> cases s' <;> exact ⟨_, rfl, toLex_lt_toLex.mpr (by omega)⟩
  | zero s =>
    cases y with
    | notANumber => cases hy
    | infinity s' => cases s' <;> exact ⟨_, rfl, toLex_lt_toLex.mpr (by omega)⟩
    | zero s' => exact ⟨.eq, rfl, rfl⟩
    | finite s' m' e' _ => cases s' <;> exact ⟨_, rfl, toLex_lt_toLex.mpr (by omega)⟩
  | finite s m e _ =>
    cases y with
    | notANumber => cases hy
    | infinity s' =>
      cases s <;> cases s' <;> exact ⟨_, rfl, toLex_lt_toLex.mpr (by omega)⟩
    | zero s' => cases s <;> exact ⟨_, rfl, toLex_lt_toLex.mpr (by omega)⟩
    | finite s' m' e' _ =>
      cases s <;> cases s'
      · exact ⟨_, rfl, compares_negative e e' m m'⟩
      · exact ⟨.lt, rfl, toLex_lt_toLex.mpr (by omega)⟩
      · exact ⟨.gt, rfl, toLex_lt_toLex.mpr (by omega)⟩
      · exact ⟨_, rfl, compares_positive e e' m m'⟩

/-! ### Doubles -/

def place (x : Float) : ℤ ×ₗ ℤ ×ₗ ℤ := rank x.toModel.unpack

variable {x y z : Float}

theorem lt_iff_place (hx : x.isNaN = false) (hy : y.isNaN = false) :
    x < y ↔ place x < place y := by
  obtain ⟨o, ho, hcompares⟩ := compares_rank (x := x.toModel.unpack) (y := y.toModel.unpack) hx hy
  have hlt : x < y ↔ o = .lt := by
    change decide ((x.toModel.unpack.compare y.toModel.unpack == some .lt) = true) = true ↔ _
    rw [ho, decide_eq_true_iff, beq_iff_eq, Option.some_inj]
  rw [hlt]
  exact hcompares.eq_lt

theorem le_iff_place (hx : x.isNaN = false) (hy : y.isNaN = false) :
    x ≤ y ↔ place x ≤ place y := by
  obtain ⟨o, ho, hcompares⟩ := compares_rank (x := x.toModel.unpack) (y := y.toModel.unpack) hx hy
  have hle : x ≤ y ↔ o ≠ .gt := by
    change decide ((x.toModel.unpack.compare y.toModel.unpack).any (·.isLE) = true) = true ↔ _
    rw [ho, decide_eq_true_iff, Option.any_some, Ordering.isLE_iff_ne_gt]
  rw [hle]
  exact hcompares.ne_gt

theorem lt_iff_not_le (hx : x.isNaN = false) (hy : y.isNaN = false) : x < y ↔ ¬ y ≤ x := by
  rw [lt_iff_place hx hy, le_iff_place hy hx, not_le]

theorem lt_trans (hx : x.isNaN = false) (hy : y.isNaN = false) (hz : z.isNaN = false)
    (hxy : x < y) (hyz : y < z) : x < z := by
  rw [lt_iff_place hx hy] at hxy
  rw [lt_iff_place hy hz] at hyz
  exact (lt_iff_place hx hz).mpr (hxy.trans hyz)

/-- What compares is a number on both sides. -/
theorem numbers_of_compare {u w : UnpackedFloat} {o : Ordering} (h : u.compare w = some o) :
    u.isNaN = false ∧ w.isNaN = false := by
  cases u with
  | notANumber => cases h
  | infinity s =>
    cases w with
    | notANumber => cases s <;> cases h
    | infinity _ | zero _ | finite _ _ _ _ => exact ⟨rfl, rfl⟩
  | zero s =>
    cases w with
    | notANumber => cases h
    | infinity _ | zero _ | finite _ _ _ _ => exact ⟨rfl, rfl⟩
  | finite s m e hm =>
    cases w with
    | notANumber => cases h
    | infinity _ | zero _ | finite _ _ _ _ => exact ⟨rfl, rfl⟩

theorem numbers_of_le (h : x ≤ y) : x.isNaN = false ∧ y.isNaN = false := by
  change decide ((x.toModel.unpack.compare y.toModel.unpack).any (·.isLE) = true) = true at h
  cases hcompare : x.toModel.unpack.compare y.toModel.unpack with
  | none =>
    rw [hcompare] at h
    cases h
  | some o => exact numbers_of_compare hcompare

theorem numbers_of_lt (h : x < y) : x.isNaN = false ∧ y.isNaN = false := by
  change decide ((x.toModel.unpack.compare y.toModel.unpack == some .lt) = true) = true at h
  exact numbers_of_compare (beq_iff_eq.mp (of_decide_eq_true h))

theorem ne_of_lt (h : x < y) : x ≠ y := by
  rintro rfl
  obtain ⟨hx, -⟩ := numbers_of_lt h
  exact lt_irrefl _ ((lt_iff_place hx hx).mp h)

theorem le_of_le_of_lt (hxy : x ≤ y) (hyz : y < z) : x ≤ z := by
  obtain ⟨hx, hy⟩ := numbers_of_le hxy
  obtain ⟨-, hz⟩ := numbers_of_lt hyz
  rw [le_iff_place hx hy] at hxy
  rw [lt_iff_place hy hz] at hyz
  exact (le_iff_place hx hz).mpr (hxy.trans hyz.le)

end MetricRelay.Number
