import MetricRelay.Proofs.Number.Packing

/-!
# Decimals to doubles

A decimal is read as the double that owns its value. Small numbers are divided or
multiplied by an exact power of ten, and any other ones go through an exact
product or quotient; either way the result is rounded once.
-/

namespace MetricRelay.Number

open Float.Model Float.Model.UnpackedFloat

variable {m : ℕ} {e : ℤ} {v : ℚ}

/-- A canonical double owns its own value. -/
theorem owned_self (m : ℕ) (e : ℤ) : Owned m e (m * 2 ^ e) := by
  have hquotient : (m : ℚ) * 2 ^ e / 2 ^ e = m := mul_div_cancel_right₀ _ (two_zpow_pos e).ne'
  refine ⟨?_, fun _ _ => ?_⟩
  · rw [RoundsTo, hquotient]
    exact ⟨by linarith, by linarith, fun _ => ⟨by linarith, by linarith⟩⟩
  · rw [hquotient]
    linarith

/-- A number that a double owns is in the range of doubles. -/
theorem Owned.range (hc : Canonical m e) (h : Owned m e v) :
    (2 : ℚ) ^ (-1075 : ℤ) ≤ v ∧ v < 2 ^ (1024 : ℤ) := by
  constructor
  · have hm : (1 : ℚ) ≤ m := by exact_mod_cast hc.pos
    calc (2 : ℚ) ^ (-1075 : ℤ) ≤ 2 ^ (e - 1) :=
          zpow_le_zpow_right₀ (by norm_num) (by linarith [hc.low])
      _ = 1 / 2 * 2 ^ e := by rw [zpow_sub_one₀ (by norm_num)]; ring
      _ ≤ (m - 1 / 2) * 2 ^ e := mul_le_mul_of_nonneg_right (by linarith) (two_zpow_pos e).le
      _ ≤ v := h.ends.1
  · calc v < 2 ^ (53 + e) := h.lt_two_zpow hc
      _ ≤ 2 ^ (1024 : ℤ) := zpow_le_zpow_right₀ (by norm_num) (by linarith [hc.high])

/-! ### The exact way -/

theorem ten_zpow_pos (e : ℤ) : (0 : ℚ) < 10 ^ e := zpow_pos (by norm_num) e

/-- Ten is more than two, so its powers are further away from one. -/
theorem two_zpow_le_ten {a : ℤ} (h : 0 ≤ a) : (2 : ℚ) ^ a ≤ 10 ^ a := by
  lift a to ℕ using h
  simp only [zpow_natCast]
  exact pow_le_pow_left₀ (by norm_num) (by norm_num) a

theorem ten_zpow_le_two {a : ℤ} (h : a ≤ 0) : (10 : ℚ) ^ a ≤ 2 ^ a := by
  have hinverse := two_zpow_le_ten (a := -a) (by omega)
  rw [zpow_neg, zpow_neg] at hinverse
  exact (inv_le_inv₀ (two_zpow_pos a) (ten_zpow_pos a)).mp hinverse

/-- Neither of the checks for huge exponents is met by a decimal in the range of doubles. -/
theorem exponent_bounds {d : ℕ} {x : ℤ} (hc : Canonical m e) (h : Owned m e v) (hd : d ≠ 0)
    (hv : v = d * 10 ^ x) : x ≤ 2 ^ 11 ∧ -((2 : ℤ) ^ 11 + d.log2) ≤ x := by
  obtain ⟨hlow, hhigh⟩ := h.range hc
  have hone : (1 : ℚ) ≤ d := by exact_mod_cast Nat.pos_of_ne_zero hd
  constructor
  · by_contra hlarge
    have hx : 0 ≤ x := by omega
    have hpower : (2 : ℚ) ^ x < 2 ^ (1024 : ℤ) := calc
      (2 : ℚ) ^ x ≤ 10 ^ x := two_zpow_le_ten hx
      _ = 1 * 10 ^ x := (one_mul _).symm
      _ ≤ d * 10 ^ x := mul_le_mul_of_nonneg_right hone (ten_zpow_pos x).le
      _ < 2 ^ (1024 : ℤ) := hv ▸ hhigh
    have hsmall := two_zpow_lt hpower
    omega
  · by_contra hless
    have hx : x ≤ 0 := by omega
    have hlog : (d : ℚ) < 2 ^ ((d.log2 : ℤ) + 1) := by exact_mod_cast Nat.lt_log2_self
    have hpower : (2 : ℚ) ^ (-1075 : ℤ) < 2 ^ ((d.log2 : ℤ) + 1 + x) := calc
      (2 : ℚ) ^ (-1075 : ℤ) ≤ d * 10 ^ x := hv ▸ hlow
      _ ≤ d * 2 ^ x := mul_le_mul_of_nonneg_left (ten_zpow_le_two hx) (by positivity)
      _ < 2 ^ ((d.log2 : ℤ) + 1) * 2 ^ x := mul_lt_mul_of_pos_right hlog (two_zpow_pos x)
      _ = 2 ^ ((d.log2 : ℤ) + 1 + x) := (zpow_add₀ (by norm_num) _ _).symm
    have hlarge := two_zpow_lt hpower
    omega

theorem ofScientific_eq {d : ℕ} {x : ℤ} (hc : Canonical m e) (h : Owned m e v) (hd : d ≠ 0)
    (hv : v = d * 10 ^ x) :
    UnpackedFloat.ofScientific Format.binary64 d x = .finite .positive m e hc.pos := by
  obtain ⟨hhigh, hlow⟩ := exponent_bounds hc h hd hv
  rw [UnpackedFloat.ofScientific, dif_neg hd, if_neg (not_lt.mpr hhigh), if_neg (not_lt.mpr hlow)]
  by_cases hx : 0 ≤ x
  · rw [if_pos hx]
    lift x to ℕ using hx
    have hlarge : 2 ^ 52 ≤ d <<< 53 * 10 ^ x := by
      rw [Nat.shiftLeft_eq]
      have hone : 1 ≤ d * 10 ^ x := Nat.mul_pos (Nat.pos_of_ne_zero hd) (Nat.pow_pos (by decide))
      calc 2 ^ 52 ≤ 1 * 2 ^ 53 := by decide
        _ ≤ d * 10 ^ x * 2 ^ 53 := Nat.mul_le_mul_right _ hone
        _ = d * 2 ^ 53 * 10 ^ x := Nat.mul_right_comm ..
    refine mul_finite hc h _ _ ?_ (Or.inl hlarge)
    have hcancel : (2 : ℚ) ^ (53 : ℕ) * 2 ^ (-53 : ℤ) = 1 := by
      rw [← zpow_natCast, ← zpow_add₀ (by norm_num)]
      rfl
    calc v = d * 10 ^ x := by rw [hv, zpow_natCast]
      _ = d * 10 ^ x * (2 ^ (53 : ℕ) * 2 ^ (-53 : ℤ)) := by rw [hcancel, mul_one]
      _ = (d <<< 53 : ℕ) * (10 ^ x : ℕ) * 2 ^ (-53 : ℤ) := by
        rw [Nat.shiftLeft_eq, Nat.cast_mul, Nat.cast_pow, Nat.cast_pow]
        ring
  · rw [if_neg hx]
    obtain ⟨k, rfl⟩ : ∃ k : ℕ, x = -k := ⟨(-x).toNat, by omega⟩
    refine div_finite hc h _ _ ?_
    rw [hv, neg_neg, Int.toNat_natCast, zpow_neg, zpow_natCast]
    push_cast
    simp [div_eq_mul_inv]

/-! ### The short way -/

def Holds (x : Float.Model) (n : ℕ) : Prop :=
  ∃ a q, ∃ ha : 0 < a, x.unpack = .finite .positive a q ha ∧ 2 ^ 52 ≤ a ∧ (a : ℚ) * 2 ^ q = n

/-- Numbers of up to 53 bits are held. -/
theorem holds_ofNat {n : ℕ} (hn : 0 < n) (hlt : n < 2 ^ 53) : Holds (Float.Model.ofNat n) n := by
  have hlog : n.log2 < 53 := (Nat.log2_lt hn.ne').mpr hlt
  have hself := Nat.log2_self_le hn.ne'
  have hnext : n < 2 ^ (n.log2 + 1) := Nat.lt_log2_self
  -- The mantissa is filled up to 53 bits.
  have hshift : n <<< (52 - n.log2) = n * 2 ^ (52 - n.log2) := Nat.shiftLeft_eq ..
  have hlow : 2 ^ 52 ≤ n <<< (52 - n.log2) := calc
    2 ^ 52 = 2 ^ n.log2 * 2 ^ (52 - n.log2) := by rw [← Nat.pow_add]; congr 1; omega
    _ ≤ n * 2 ^ (52 - n.log2) := Nat.mul_le_mul_right _ hself
    _ = n <<< (52 - n.log2) := hshift.symm
  have hhigh : n <<< (52 - n.log2) < 2 ^ 53 := calc
    n <<< (52 - n.log2) = n * 2 ^ (52 - n.log2) := hshift
    _ < 2 ^ (n.log2 + 1) * 2 ^ (52 - n.log2) :=
      Nat.mul_lt_mul_of_pos_right hnext (Nat.two_pow_pos _)
    _ = 2 ^ 53 := by rw [← Nat.pow_add]; congr 1; omega
  have hc : Canonical (n <<< (52 - n.log2)) (-(52 - n.log2 : ℕ)) :=
    ⟨by omega, hhigh, by omega, by omega, Or.inl hlow⟩
  have hround : UnpackedFloat.ofNat Format.binary64 n =
      .finite .positive (n <<< (52 - n.log2)) (-(52 - n.log2 : ℕ)) hc.pos := by
    have hpositive : compare (n : ℤ) 0 = .gt := Int.compare_eq_gt.mpr (by omega)
    have htarget : (0 - Format.binary64.targetExponent (totalExponent n 0)).toNat =
        52 - n.log2 := by
      rw [targetExponent_eq]
      omega
    rw [UnpackedFloat.ofNat, UnpackedFloat.ofInt, Float.Model.UnpackedFloat.normalize, hpositive]
    dsimp only
    rw [Int.toNat_natCast, UnpackedFloat.round, decreaseExponent, htarget]
    dsimp only
    rw [zero_sub]
    refine roundWithAccuracy_eq .positive hc (owned_self _ _) ?_ (Or.inl hlow)
    rw [mul_div_cancel_right₀ _ (two_zpow_pos _).ne']
    exact standsFor_exact _
  refine ⟨n <<< (52 - n.log2), -(52 - n.log2 : ℕ), hc.pos, ?_, hlow, ?_⟩
  · rw [Float.Model.ofNat, hround]
    exact unpack_pack_canonical .positive hc
  · rw [hshift, zpow_neg, zpow_natCast]
    push_cast
    field_simp

/-- Whether a double holds a number, by whole numbers only. -/
def holds (x : Float.Model) (n : ℕ) : Bool :=
  match x.unpack with
  | .finite .positive a q _ => decide (2 ^ 52 ≤ a ∧ a * 2 ^ q.toNat = n * 2 ^ (-q).toNat)
  | _ => false

theorem Holds.of_check {x : Float.Model} {n : ℕ} (h : holds x n = true) : Holds x n := by
  rw [holds] at h
  split at h
  · next a q ha hunpack =>
    obtain ⟨hlarge, hvalue⟩ := of_decide_eq_true h
    refine ⟨a, q, ha, hunpack, hlarge, ?_⟩
    have hsplit : q = (q.toNat : ℤ) - ((-q).toNat : ℤ) := by omega
    have hvalue : (a : ℚ) * 2 ^ q.toNat = n * 2 ^ (-q).toNat := by exact_mod_cast hvalue
    rw [hsplit, zpow_sub₀ (by norm_num), zpow_natCast, zpow_natCast, ← mul_div_assoc, hvalue]
    exact mul_div_cancel_right₀ _ (by positivity)
  · cases h

theorem holds_powers : ∀ k : Fin Float.exactlyRepresentablePowersOfTen.size,
    holds Float.exactlyRepresentablePowersOfTen[k].toModel (10 ^ k.val) = true := by
  decide +kernel

theorem Holds.mul_eq {x y : Float.Model} {a b : ℕ} (hx : Holds x a) (hy : Holds y b)
    (hc : Canonical m e) (h : Owned m e v) (hv : v = a * b) :
    x * y = .pack (.finite .positive m e hc.pos) := by
  obtain ⟨a', p, ha, hunpack, hlarge, hvalue⟩ := hx
  obtain ⟨b', q, hb, hunpack', -, hvalue'⟩ := hy
  change Float.Model.pack (UnpackedFloat.mul Format.binary64 x.unpack y.unpack) = _
  have henough : 2 ^ 52 ≤ a' * b' := hlarge.trans (Nat.le_mul_of_pos_right _ hb)
  rw [hunpack, hunpack', mul_finite hc h ha hb _ (Or.inl henough)]
  rw [hv, ← hvalue, ← hvalue', zpow_add₀ (by norm_num)]
  ring

theorem Holds.div_eq {x y : Float.Model} {a b : ℕ} (hx : Holds x a) (hy : Holds y b)
    (hc : Canonical m e) (h : Owned m e v) (hv : v = a / b) :
    x / y = .pack (.finite .positive m e hc.pos) := by
  obtain ⟨a', p, ha, hunpack, -, hvalue⟩ := hx
  obtain ⟨b', q, hb, hunpack', -, hvalue'⟩ := hy
  change Float.Model.pack (UnpackedFloat.div Format.binary64 x.unpack y.unpack) = _
  rw [hunpack, hunpack', div_finite hc h ha hb]
  rw [hv, ← hvalue, ← hvalue', zpow_sub₀ (by norm_num)]
  exact mul_div_mul_comm ..

/-- A decimal is read as the double that owns it. -/
theorem float_ofScientific {d k : ℕ} (s : Bool) (hc : Canonical m e) (h : Owned m e v) (hd : d ≠ 0)
    (hv : v = d * 10 ^ (if s then -(k : ℤ) else k)) :
    Float.ofScientific d s k = .ofModel (.pack (.finite .positive m e hc.pos)) := by
  rw [Float.ofScientific]
  by_cases hsmall : d < 2 ^ 53 ∧ k ≤ 22
  · rw [dif_pos hsmall]
    have hsize : d.toUInt64.toNat = d := Nat.mod_eq_of_lt (by omega)
    have hnumber : Holds d.toUInt64.toFloat.toModel d := by
      change Holds (Float.Model.ofNat d.toUInt64.toNat) d
      rw [hsize]
      exact holds_ofNat (Nat.pos_of_ne_zero hd) hsmall.1
    have hindex : k < Float.exactlyRepresentablePowersOfTen.size := by
      simp [Float.exactlyRepresentablePowersOfTen]
      omega
    have hpower := Holds.of_check (holds_powers ⟨k, hindex⟩)
    cases s with
    | true =>
      refine congrArg Float.ofModel (hnumber.div_eq hpower hc h ?_)
      rw [hv, if_pos rfl, zpow_neg, zpow_natCast, Nat.cast_pow, div_eq_mul_inv]
      rfl
    | false =>
      refine congrArg Float.ofModel (hnumber.mul_eq hpower hc h ?_)
      rw [hv, if_neg (by decide), zpow_natCast, Nat.cast_pow]
      rfl
  · rw [dif_neg hsmall]
    have hexponent : (if s then Int.negOfNat k else Int.ofNat k) = if s then -(k : ℤ) else k := by
      cases s with
      | true => exact Int.negOfNat_eq
      | false => rfl
    change Float.ofModel (.pack (UnpackedFloat.ofScientific Format.binary64 d
      (if s then Int.negOfNat k else Int.ofNat k))) = _
    rw [hexponent, ofScientific_eq hc h hd hv]

end MetricRelay.Number
