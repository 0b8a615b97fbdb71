import Mathlib.Algebra.Order.Field.Power
import MetricRelay.Proofs.Number.Nearest
import MetricRelay.Proofs.Number.ReadBack

/-!
# Doubles that grow

What stands between finite doubles is finite, and so are the factors of a finite
product. A factor above one makes a positive double larger, unless the double is so
small that the next one is too far away; once it has grown, it goes on to grow until
it is infinite.
-/

namespace MetricRelay.Number

open Float.Model Float.Model.UnpackedFloat

/-! ### Finite doubles -/

theorem isNaN_of_isFinite {x : Float} (h : x.isFinite = true) : x.isNaN = false := by
  change x.toModel.unpack.isNaN = false
  change x.toModel.unpack.isFinite = true at h
  cases hu : x.toModel.unpack with
  | notANumber =>
    rw [hu] at h
    cases h
  | infinity s => rfl
  | zero s => rfl
  | finite s m e hm => rfl

/-- A finite double stands between the infinite ones. -/
theorem place_of_isFinite {x : Float} (h : x.isFinite = true) :
    toLex (-2, toLex (0, 0)) < place x ∧ place x < toLex (2, toLex (0, 0)) := by
  change x.toModel.unpack.isFinite = true at h
  rw [place]
  cases hu : x.toModel.unpack with
  | notANumber =>
    rw [hu] at h
    cases h
  | infinity s =>
    rw [hu] at h
    cases h
  | zero s => exact ⟨toLex_lt_toLex.mpr (by omega), toLex_lt_toLex.mpr (by omega)⟩
  | finite s m e hm =>
    cases s with
    | negative => exact ⟨toLex_lt_toLex.mpr (by omega), toLex_lt_toLex.mpr (by omega)⟩
    | positive => exact ⟨toLex_lt_toLex.mpr (by omega), toLex_lt_toLex.mpr (by omega)⟩

/-- What stands between finite doubles is finite. -/
theorem isFinite_of_between {a b x : Float} (ha : a.isFinite = true) (hb : b.isFinite = true)
    (hx : x.isNaN = false) (hax : a < x) (hxb : x < b) : x.isFinite = true := by
  have hlow := (place_of_isFinite ha).1.trans
    ((lt_iff_place (isNaN_of_isFinite ha) hx).mp hax)
  have hhigh := ((lt_iff_place hx (isNaN_of_isFinite hb)).mp hxb).trans (place_of_isFinite hb).2
  change x.toModel.unpack.isNaN = false at hx
  change x.toModel.unpack.isFinite = true
  rw [place] at hlow hhigh
  cases hu : x.toModel.unpack with
  | notANumber =>
    rw [hu] at hx
    cases hx
  | infinity s =>
    rw [hu] at hlow hhigh
    cases s with
    | negative => exact absurd hlow (lt_irrefl _)
    | positive => exact absurd hhigh (lt_irrefl _)
  | zero s => rfl
  | finite s m e hm => rfl

theorem isFinite_of_mul {x y : Float} (h : (x * y).isFinite = true) :
    x.isFinite = true ∧ y.isFinite = true := by
  change (Float.Model.pack (mul Format.binary64 x.toModel.unpack y.toModel.unpack)).unpack.isFinite
    = true at h
  change x.toModel.unpack.isFinite = true ∧ y.toModel.unpack.isFinite = true
  have hnan : (Float.Model.pack .notANumber).unpack.isFinite ≠ true := Bool.false_ne_true
  have hinf : ∀ s, (Float.Model.pack (.infinity s)).unpack.isFinite ≠ true := by
    intro s
    cases s <;> exact Bool.false_ne_true
  generalize x.toModel.unpack = u at h ⊢
  generalize y.toModel.unpack = w at h ⊢
  cases u with
  | notANumber => exact absurd h hnan
  | infinity s =>
    cases w with
    | notANumber => exact absurd h hnan
    | infinity t => exact absurd h (hinf (s * t))
    | zero t => exact absurd h hnan
    | finite t m e hm => exact absurd h (hinf (s * t))
  | zero s =>
    cases w with
    | notANumber => exact absurd h hnan
    | infinity t => exact absurd h hnan
    | zero s => exact ⟨rfl, rfl⟩
    | finite s m e hm => exact ⟨rfl, rfl⟩
  | finite s m e hm =>
    cases w with
    | notANumber => exact absurd h hnan
    | infinity t => exact absurd h (hinf (s * t))
    | zero s => exact ⟨rfl, rfl⟩
    | finite s m e hm => exact ⟨rfl, rfl⟩

/-! ### Growth -/

structure Positive (x : Float) (m : ℕ) (e : ℤ) : Prop where
  canonical : Canonical m e
  unpack : x.toModel.unpack = .finite .positive m e canonical.pos

theorem Positive.place {x : Float} {m : ℕ} {e : ℤ} (h : Positive x m e) :
    place x = toLex (1, toLex (e, (m : ℤ))) := by
  rw [Number.place, h.unpack]
  rfl

theorem Positive.isNaN {x : Float} {m : ℕ} {e : ℤ} (h : Positive x m e) : x.isNaN = false :=
  congrArg UnpackedFloat.isNaN h.unpack

theorem positive_of_pos {x : Float} (hpos : 0 < x) (hfinite : x.isFinite = true) :
    ∃ m e, Positive x m e := by
  have hlt := (lt_iff_place (isNaN_ofNat 0) (isNaN_of_isFinite hfinite)).mp hpos
  rw [place, place, unpack_ofNat_zero] at hlt
  change x.toModel.unpack.isFinite = true at hfinite
  cases hu : x.toModel.unpack with
  | notANumber =>
    rw [hu] at hfinite
    cases hfinite
  | infinity s =>
    rw [hu] at hfinite
    cases hfinite
  | zero s =>
    rw [hu] at hlt
    exact absurd hlt (lt_irrefl _)
  | finite s m e hm =>
    rw [hu] at hlt
    cases s with
    | negative =>
      have hbelow := toLex_lt_toLex.mp hlt
      omega
    | positive => exact ⟨m, e, (fields_of_unpack _ hu).canonical _ hm, hu⟩

theorem positive_one : Positive 1 (2 ^ 52) (-52) :=
  ⟨⟨by decide, by decide, by decide, by decide, Or.inl le_rfl⟩, rfl⟩

/-- What is above one has a leading bit, and is above it by a unit in the last place of one. -/
theorem Positive.above_one {f : Float} {b : ℕ} {q : ℤ} (h : Positive f b q) (hf : 1 < f) :
    2 ^ 52 ≤ b ∧ (1 : ℚ) + 2 ^ (-52 : ℤ) ≤ b * 2 ^ q := by
  have hlt := (lt_iff_place (isNaN_ofNat 1) h.isNaN).mp hf
  change Number.place 1 < Number.place f at hlt
  rw [positive_one.place, h.place] at hlt
  have hunit : (2 : ℚ) ^ 52 * 2 ^ (-52 : ℤ) = 1 := by norm_num
  rcases toLex_lt_toLex.mp hlt with hkind | ⟨-, hmore | ⟨rfl, hmore⟩⟩
  · omega
  · have hfull : 2 ^ 52 ≤ b := h.canonical.normal.resolve_right (by omega)
    refine ⟨hfull, ?_⟩
    have hb : (2 : ℚ) ^ 52 ≤ b := by exact_mod_cast hfull
    calc (1 : ℚ) + 2 ^ (-52 : ℤ) ≤ 2 ^ 52 * 2 ^ (-51 : ℤ) := by norm_num
      _ ≤ b * 2 ^ q := mul_le_mul hb (zpow_le_zpow_right₀ (by norm_num) (by omega))
        (two_zpow_pos _).le (Nat.cast_nonneg b)
  · have hfull : 2 ^ 52 + 1 ≤ b := by exact_mod_cast hmore
    refine ⟨by omega, ?_⟩
    have hb : (2 : ℚ) ^ 52 + 1 ≤ b := by exact_mod_cast hfull
    calc (1 : ℚ) + 2 ^ (-52 : ℤ) = (2 ^ 52 + 1) * 2 ^ (-52 : ℤ) := by rw [add_mul, hunit, one_mul]
      _ ≤ b * 2 ^ (-52 : ℤ) := mul_le_mul_of_nonneg_right hb (two_zpow_pos _).le

/-- A product with a factor above one is rounded to the double that owns it. -/
theorem Positive.mul_eq {x f : Float} {m b : ℕ} {p q : ℤ} (hx : Positive x m p)
    (hf : Positive f b q) (hfull : 2 ^ 52 ≤ b) (hone : (1 : ℚ) ≤ b * 2 ^ q) :
    ∃ n e, ∃ h : Normalized n e, Owned n e (m * 2 ^ p * (b * 2 ^ q)) ∧
      x * f = nearest n e h.pos := by
  have hvalue : (m : ℚ) * 2 ^ p * (b * 2 ^ q) = m * b * 2 ^ (p + q) := by
    rw [zpow_add₀ (by norm_num)]
    ring
  have hlarge : 2 ^ 52 ≤ m * b := hfull.trans (Nat.le_mul_of_pos_left b hx.canonical.pos)
  have hmul : x * f = .ofModel (.pack (UnpackedFloat.mul Format.binary64 x.toModel.unpack
    f.toModel.unpack)) := rfl
  rw [hx.unpack, hf.unpack] at hmul
  rcases product_cases hx.canonical.pos hf.canonical.pos hvalue (Or.inl hlarge) with
    ⟨-, hzero⟩ | ⟨n, e, hnormal, howned, hround⟩
  · -- The product is not below its first factor.
    exfalso
    have hm : (1 : ℚ) ≤ m := by exact_mod_cast hx.canonical.pos
    have hleast : (2 : ℚ) ^ (-1075 : ℤ) < 2 ^ p :=
      zpow_lt_zpow_right₀ (by norm_num) (by have := hx.canonical.low; omega)
    have hself : (2 : ℚ) ^ p ≤ m * 2 ^ p := le_mul_of_one_le_left (two_zpow_pos p).le hm
    have hgrown : (m : ℚ) * 2 ^ p ≤ m * 2 ^ p * (b * 2 ^ q) :=
      le_mul_of_one_le_right ((two_zpow_pos p).le.trans hself) hone
    linarith
  · exact ⟨n, e, hnormal, howned, by rw [hmul, hround, nearest]⟩

/-- What grows by less than a half of a unit in its last place has the least exponent, and what
comes before it does not reach it. -/
theorem not_owned_twice {m n : ℕ} {p e : ℤ} {r : ℚ} (hp : -1074 ≤ p) (hn : Normalized n e)
    (hr : 1 + 2 ^ (-52 : ℤ) ≤ r) (hbefore : p < e ∨ p = e ∧ m < n)
    (hfirst : Owned n e (m * 2 ^ p * r)) (hsecond : Owned n e (n * 2 ^ e * r)) : False := by
  have hunit : (0 : ℚ) < 2 ^ (-52 : ℤ) := two_zpow_pos _
  have hstep : (n : ℚ) * (r - 1) ≤ 1 / 2 := by
    have hend := hsecond.rounds.2.1
    rw [mul_right_comm, mul_div_cancel_right₀ _ (two_zpow_pos e).ne'] at hend
    linarith
  have hsmall : n < 2 ^ 52 := by
    have hless : (n : ℚ) * 2 ^ (-52 : ℤ) ≤ 1 / 2 :=
      (mul_le_mul_of_nonneg_left (by linarith) (Nat.cast_nonneg n)).trans hstep
    have hbound : (n : ℚ) < 2 ^ 52 := by
      norm_num at hless
      linarith
    exact_mod_cast hbound
  obtain rfl : e = -1074 := hn.normal.resolve_left (by omega)
  obtain ⟨rfl, hless⟩ := hbefore.resolve_left (by omega)
  have hm : (m : ℚ) + 1 ≤ n := by exact_mod_cast hless
  have hstart := hfirst.rounds.1
  rw [mul_right_comm, mul_div_cancel_right₀ _ (two_zpow_pos _).ne'] at hstart
  have hmore : (m : ℚ) * (r - 1) < n * (r - 1) :=
    mul_lt_mul_of_pos_right (by linarith) (by linarith)
  linarith

/-- A positive double that has grown by a factor goes on to grow. -/
theorem grows_on {x f : Float} (hpos : 0 < x) (hf : 1 < f) (hx : x < x * f)
    (hfinite : (x * f * f).isFinite = true) : x * f < x * f * f := by
  obtain ⟨hgrown, hfactor⟩ := isFinite_of_mul hfinite
  obtain ⟨m, p, hxm⟩ := positive_of_pos hpos (isFinite_of_mul hgrown).1
  have hfpos : 0 < f := lt_trans (isNaN_ofNat 0) (isNaN_ofNat 1) (isNaN_of_isFinite hfactor)
    (by decide +kernel) hf
  obtain ⟨b, q, hfb⟩ := positive_of_pos hfpos hfactor
  obtain ⟨hfull, habove⟩ := hfb.above_one hf
  have hone : (1 : ℚ) ≤ b * 2 ^ q := by linarith [two_zpow_pos (-52)]
  obtain ⟨n, e, hnormal, howned, hproduct⟩ := hxm.mul_eq hfb hfull hone
  have hgiven : Positive (x * f) n e := by
    rw [hproduct] at hgrown ⊢
    have he := (isFinite_nearest hnormal).mp hgrown
    exact ⟨hnormal.canonical he, unpack_nearest hnormal he⟩
  obtain ⟨n', e', hnormal', howned', hproduct'⟩ := hgiven.mul_eq hfb hfull hone
  have hgiven' : Positive (x * f * f) n' e' := by
    rw [hproduct'] at hfinite ⊢
    have he := (isFinite_nearest hnormal').mp hfinite
    exact ⟨hnormal'.canonical he, unpack_nearest hnormal' he⟩
  have hbefore : p < e ∨ p = e ∧ m < n := by
    rw [lt_iff_place hxm.isNaN hgiven.isNaN, hxm.place, hgiven.place] at hx
    have hx := toLex_lt_toLex.mp hx
    omega
  have hle : (n : ℚ) * 2 ^ e ≤ n * 2 ^ e * (b * 2 ^ q) :=
    le_mul_of_one_le_right (by positivity) hone
  have hordered := (owned_self n e).ordered hnormal hnormal' howned' hle
  rw [lt_iff_place hgiven.isNaN hgiven'.isNaN, hgiven.place, hgiven'.place, toLex_lt_toLex]
  by_contra hstays
  obtain ⟨rfl, rfl⟩ : e = e' ∧ n = n' := by omega
  exact not_owned_twice hxm.canonical.low hnormal habove hbefore howned howned'

end MetricRelay.Number
