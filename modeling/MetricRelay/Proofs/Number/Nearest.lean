import MetricRelay.Proofs.Number.Order
import MetricRelay.Proofs.Number.Scientific

/-!
# Rounding keeps order

Whatever is rounded becomes zero or a double that owns it, if one beyond the range
of doubles counts as one. Of two numbers the smaller one is owned by the double that
comes first. So whole numbers become doubles in order, and a factor above one makes
a double larger, unless the double is too small for the step.
-/

namespace MetricRelay.Number

open Float.Model Float.Model.UnpackedFloat

/-! ### What a number is rounded to -/

/-- A positive finite double in canonical form, or one that is too large to be packed. -/
structure Normalized (m : ℕ) (e : ℤ) : Prop where
  pos : 0 < m
  lt : m < 2 ^ 53
  low : -1074 ≤ e
  normal : 2 ^ 52 ≤ m ∨ e = -1074

theorem Normalized.canonical {m : ℕ} {e : ℤ} (h : Normalized m e) (he : e ≤ 971) : Canonical m e :=
  ⟨h.pos, h.lt, h.low, he, h.normal⟩

theorem StandsFor.roundsTo {em : ExtendedMantissa} {w : ℚ} (h : StandsFor em w) :
    RoundsTo w em.roundedMantissa := by
  obtain ⟨rest, hrest, hsmall, hsticky, rfl⟩ := h
  obtain ⟨n, roundBit, stickyBit⟩ := em
  dsimp only at hsticky
  have hzero : stickyBit = false → rest = 0 := by
    rintro rfl
    simpa using hsticky
  have hpos : stickyBit = true → 0 < rest := fun hone =>
    lt_of_le_of_ne hrest (Ne.symm (hsticky.mp hone))
  cases roundBit with
  | false =>
    have hround : ExtendedMantissa.roundedMantissa ⟨n, false, stickyBit⟩ = n := by
      cases stickyBit <;> rfl
    have hhalf : half false = 0 := if_neg Bool.false_ne_true
    rw [hround, hhalf]
    exact ⟨by linarith, by linarith, fun _ => ⟨by linarith, by linarith⟩⟩
  | true =>
    have hhalf : half true = 1 / 2 := if_pos rfl
    rw [hhalf]
    cases stickyBit with
    | true =>
      have hpos := hpos rfl
      have hround : ExtendedMantissa.roundedMantissa ⟨n, true, true⟩ = n + 1 := rfl
      rw [hround, RoundsTo]
      push_cast
      exact ⟨by linarith, by linarith, fun _ => ⟨by linarith, by linarith⟩⟩
    | false =>
      -- A tie: of the two neighbours the even one is taken.
      obtain rfl := hzero rfl
      have hround : ExtendedMantissa.roundedMantissa ⟨n, true, false⟩ = n + n % 2 := rfl
      rw [hround, RoundsTo]
      rcases Nat.mod_two_eq_zero_or_one n with heven | hodd
      · rw [heven]
        push_cast
        exact ⟨by linarith, by linarith, fun hne => by omega⟩
      · rw [hodd]
        push_cast
        exact ⟨by linarith, by linarith, fun hne => by omega⟩

theorem two_zpow_pred (e : ℤ) : (2 : ℚ) ^ (e - 1) = 1 / 2 * 2 ^ e := by
  rw [zpow_sub_one₀ (by norm_num)]
  ring

/-- The first shift leaves 53 bits, and all of them where the least exponent is not reached. -/
theorem shifted_bounds {n : ℕ} {f t : ℤ} {v : ℚ} (ht : t = max (n.log2 + f - 52) (-1074))
    (hlow : (n : ℚ) * 2 ^ f ≤ v) (hhigh : v < (n + 1) * 2 ^ f) :
    v / 2 ^ t < 2 ^ 53 ∧ (n ≠ 0 → -1074 < t → (2 : ℚ) ^ 52 ≤ v / 2 ^ t) := by
  have hpos := two_zpow_pos t
  constructor
  · have hn : (n : ℚ) + 1 ≤ 2 ^ (n.log2 + 1) := by exact_mod_cast Nat.lt_log2_self
    rw [div_lt_iff₀ hpos]
    calc v < (n + 1) * 2 ^ f := hhigh
      _ ≤ 2 ^ (n.log2 + 1) * 2 ^ f := mul_le_mul_of_nonneg_right hn (two_zpow_pos f).le
      _ = 2 ^ ((n.log2 : ℤ) + 1 + f) := by
        rw [zpow_add₀ (by norm_num), ← zpow_natCast]
        push_cast
        rfl
      _ ≤ 2 ^ (53 + t) := zpow_le_zpow_right₀ (by norm_num) (by omega)
      _ = 2 ^ 53 * 2 ^ t := by
        rw [zpow_add₀ (by norm_num)]
        norm_num
  · intro hn hless
    have hself : (2 : ℚ) ^ n.log2 ≤ n := by exact_mod_cast Nat.log2_self_le hn
    rw [le_div_iff₀ hpos]
    calc (2 : ℚ) ^ 52 * 2 ^ t = 2 ^ (52 + t) := by
          rw [zpow_add₀ (by norm_num)]
          norm_num
      _ = 2 ^ ((n.log2 : ℤ) + f) := by
        congr 1
        omega
      _ = 2 ^ n.log2 * 2 ^ f := by rw [zpow_add₀ (by norm_num), zpow_natCast]
      _ ≤ n * 2 ^ f := mul_le_mul_of_nonneg_right hself (two_zpow_pos f).le
      _ ≤ v := hlow

/-- A number at the exponent of its first shift, and the mantissa that it is rounded to there. -/
structure FirstRounded (v : ℚ) (r : ℕ) (t : ℤ) : Prop where
  rounds : RoundsTo (v / 2 ^ t) r
  le : r ≤ 2 ^ 53
  low : -1074 ≤ t
  dense : -1074 < t → (2 : ℚ) ^ 52 ≤ v / 2 ^ t

namespace FirstRounded

variable {v : ℚ} {r : ℕ} {t : ℤ}

theorem full (h : FirstRounded v r t) (ht : -1074 < t) : 2 ^ 52 ≤ r := by
  have hlt : (2 : ℚ) ^ 52 < r + 1 := by linarith [h.rounds.2.1, h.dense ht]
  exact Nat.lt_succ_iff.mp (by exact_mod_cast hlt)

/-- Only what is below half of the least double becomes zero. -/
theorem le_of_zero (h : FirstRounded v 0 t) : v ≤ 2 ^ (-1075 : ℤ) := by
  obtain rfl : t = -1074 := by
    by_contra hne
    have hnone := h.full (by have := h.low; omega)
    omega
  have hbelow := (div_le_iff₀ (two_zpow_pos _)).mp h.rounds.2.1
  rwa [Nat.cast_zero, zero_add, ← two_zpow_pred] at hbelow

theorem normalized (h : FirstRounded v r t) (hpos : 0 < r) (hlt : r < 2 ^ 53) :
    Normalized r t := by
  refine ⟨hpos, hlt, h.low, ?_⟩
  by_cases hleast : t = -1074
  · exact Or.inr hleast
  · exact Or.inl (h.full (by have := h.low; omega))

theorem owned (h : FirstRounded v r t) : Owned r t v := by
  refine ⟨h.rounds, ?_⟩
  rintro rfl ht
  have hdense := h.dense ht
  push_cast
  linarith

/-- A mantissa that has become too large by one bit loses it. -/
theorem owned_carry (h : FirstRounded v (2 ^ 53) t) : Owned (2 ^ 52) (t + 1) v := by
  have hhalf : v / 2 ^ (t + 1) = v / 2 ^ t / 2 := by
    rw [zpow_add_one₀ (by norm_num), div_div]
  have hlow := h.rounds.1
  have hhigh := h.rounds.2.1
  push_cast at hlow hhigh
  refine ⟨?_, ?_⟩
  · rw [RoundsTo, hhalf]
    push_cast
    exact ⟨by linarith, by linarith, fun hodd => absurd hodd (by decide)⟩
  · intro _ _
    rw [hhalf]
    push_cast
    linarith

end FirstRounded

theorem exists_firstRounded {n : ℕ} {f : ℤ} {a : Accuracy} {v : ℚ} (hn : n ≠ 0)
    (hstands : StandsFor (.ofMantissaAndAccuracy n a) (v / 2 ^ f))
    (henough : 2 ^ 52 ≤ n ∨ f ≤ -1074) :
    ∃ em t, shiftToTargetExponent Format.binary64 n f a = (em, t) ∧
      FirstRounded v em.roundedMantissa t := by
  have hmantissa : (ExtendedMantissa.ofMantissaAndAccuracy n a).mantissa = n := by
    cases a with
    | exact => rfl
    | inexact o => cases o <;> rfl
  obtain ⟨hlow, hhigh⟩ := hstands.bounds
  rw [hmantissa] at hlow hhigh
  have hlow := (le_div_iff₀ (two_zpow_pos f)).mp hlow
  have hhigh := (div_lt_iff₀ (two_zpow_pos f)).mp hhigh
  obtain ⟨t, ht⟩ : ∃ t, t = max ((n.log2 : ℤ) + f - 52) (-1074) := ⟨_, rfl⟩
  have hlog : 2 ^ 52 ≤ n → 52 ≤ n.log2 := (Nat.le_log2 hn).mpr
  obtain ⟨em, hfirst, hshifted⟩ := exists_shifted hstands (show f ≤ t by omega)
  obtain ⟨hsmall, hlarge⟩ := shifted_bounds ht hlow hhigh
  have hrounds := hshifted.roundsTo
  have hlt : (em.roundedMantissa : ℚ) < 2 ^ 53 + 1 := by linarith [hrounds.1]
  refine ⟨em, t, ?_, hrounds, Nat.lt_succ_iff.mp (by exact_mod_cast hlt), by omega, hlarge hn⟩
  rw [shiftToTargetExponent, targetExponent_eq, ← ht, hfirst]

/-- A number is rounded to zero, or to a double that owns it. -/
theorem rounded_cases {n : ℕ} {f : ℤ} {a : Accuracy} {v : ℚ} (sign : Sign) (hn : n ≠ 0)
    (hstands : StandsFor (.ofMantissaAndAccuracy n a) (v / 2 ^ f))
    (henough : 2 ^ 52 ≤ n ∨ f ≤ -1074) :
    (roundWithAccuracy Format.binary64 sign n f a = .zero sign ∧ v ≤ 2 ^ (-1075 : ℤ)) ∨
    ∃ m e, ∃ h : Normalized m e, Owned m e v ∧
      roundWithAccuracy Format.binary64 sign n f a = .finite sign m e h.pos := by
  obtain ⟨em, t, hfirst, hrounded⟩ := exists_firstRounded hn hstands henough
  rw [roundWithAccuracy, hfirst]
  dsimp only
  generalize em.roundedMantissa = r at hrounded
  rcases Nat.lt_or_eq_of_le hrounded.le with hless | rfl
  · rw [shiftToTarget_small hless hrounded.low]
    rcases Nat.eq_zero_or_pos r with rfl | hpos
    · exact Or.inl ⟨rfl, hrounded.le_of_zero⟩
    · refine Or.inr ⟨r, t, hrounded.normalized hpos hless, hrounded.owned, ?_⟩
      exact dif_neg hpos.ne'
  · have hlow := hrounded.low
    rw [shiftToTarget_carry hlow]
    exact Or.inr ⟨2 ^ 52, t + 1, ⟨by decide, by decide, by omega, Or.inl le_rfl⟩,
      hrounded.owned_carry, rfl⟩

/-! ### Owners in order -/

/-- The numbers of an exponent end a half before the next power of two. -/
theorem Owned.lt_end {m : ℕ} {e : ℤ} {v : ℚ} (hn : Normalized m e) (h : Owned m e v) :
    v < (2 ^ 53 - 1 / 2) * 2 ^ e := by
  rw [← div_lt_iff₀ (two_zpow_pos e)]
  obtain ⟨-, hhigh, hodd⟩ := h.rounds
  rcases Nat.lt_or_eq_of_le (Nat.le_sub_one_of_lt hn.lt) with hless | hlast
  · have hm : m + 2 ≤ 2 ^ 53 := by omega
    have hm : (m : ℚ) + 2 ≤ 2 ^ 53 := by exact_mod_cast hm
    linarith
  · have hstrict := (hodd (by omega)).2
    have hm : (m : ℚ) = 2 ^ 53 - 1 := by
      rw [hlast]
      norm_num
    linarith

/-- Above the least exponent they start where those of the exponent below end. -/
theorem Owned.start_le {m : ℕ} {e : ℤ} {v : ℚ} (hn : Normalized m e) (h : Owned m e v)
    (he : -1074 < e) : (2 ^ 53 - 1 / 2) * 2 ^ (e - 1) ≤ v := by
  have hfull : 2 ^ 52 ≤ m := hn.normal.resolve_right he.ne'
  have hstart : (2 : ℚ) ^ 52 - 1 / 4 ≤ v / 2 ^ e := by
    rcases Nat.lt_or_eq_of_le hfull with hmore | hleast
    · have hm : (2 : ℚ) ^ 52 + 1 ≤ m := by exact_mod_cast hmore
      linarith [h.rounds.1]
    · have hdense := h.dense hleast.symm he
      rw [← hleast] at hdense
      exact_mod_cast hdense
  have hstart := (le_div_iff₀ (two_zpow_pos e)).mp hstart
  rw [two_zpow_pred]
  linarith

/-- The smaller of two numbers has the owner that comes first. -/
theorem Owned.ordered {m m' : ℕ} {e e' : ℤ} {v v' : ℚ} (hn : Normalized m e)
    (hn' : Normalized m' e') (h : Owned m e v) (h' : Owned m' e' v') (hle : v ≤ v') :
    e < e' ∨ e = e' ∧ m ≤ m' := by
  rcases lt_trichotomy e e' with hless | rfl | hmore
  · exact Or.inl hless
  · right
    refine ⟨rfl, ?_⟩
    have hw : v / 2 ^ e ≤ v' / 2 ^ e := div_le_div_of_nonneg_right hle (two_zpow_pos e).le
    obtain ⟨hlow, -, hodd⟩ := h.rounds
    obtain ⟨-, hhigh, hodd'⟩ := h'.rounds
    by_contra hless
    have hm : (m' : ℚ) + 1 ≤ m := by
      have hm : m' + 1 ≤ m := by omega
      exact_mod_cast hm
    -- Only a tie is left, and one of two neighbours is odd.
    have hnext : m = m' + 1 := by
      have hm' : (m : ℚ) ≤ m' + 1 := by linarith
      have hm' : m ≤ m' + 1 := by exact_mod_cast hm'
      omega
    rcases Nat.mod_two_eq_zero_or_one m with heven | hone
    · linarith [(hodd' (by omega)).2]
    · linarith [(hodd hone).1]
  · exfalso
    have hend := h'.lt_end hn'
    have hstart := h.start_le hn (by have := hn'.low; omega)
    have hpower : (2 : ℚ) ^ e' ≤ 2 ^ (e - 1) := zpow_le_zpow_right₀ (by norm_num) (by omega)
    have hbelow : (2 ^ 53 - 1 / 2 : ℚ) * 2 ^ e' ≤ (2 ^ 53 - 1 / 2) * 2 ^ (e - 1) :=
      mul_le_mul_of_nonneg_left hpower (by norm_num)
    linarith

/-! ### The doubles that owners are -/

/-- The double of an owner: one that is too large is infinite. -/
def nearest (m : ℕ) (e : ℤ) (h : 0 < m) : Float := .ofModel (.pack (.finite .positive m e h))

theorem unpack_nearest {m : ℕ} {e : ℤ} (h : Normalized m e) (he : e ≤ 971) :
    (nearest m e h.pos).toModel.unpack = .finite .positive m e h.pos :=
  unpack_pack_canonical .positive (h.canonical he)

theorem unpack_nearest_large {m : ℕ} {e : ℤ} (h : Normalized m e) (he : 971 < e) :
    (nearest m e h.pos).toModel.unpack = .infinity .positive := by
  have hbiased : 2 ^ Format.binary64.exponentBits ≤
      (e + (Format.binary64.exponentBias : ℤ) + (52 : ℕ)).toNat + 1 := by
    simp [Format.exponentBias]
    omega
  have hpack : UnpackedFloat.pack Format.binary64 (.finite .positive m e h.pos) =
      packedInfinity Format.binary64 .positive := by
    unfold UnpackedFloat.pack
    exact if_pos hbiased
  change UnpackedFloat.unpack Format.binary64
    (UnpackedFloat.pack Format.binary64 (.finite .positive m e h.pos)) = _
  rw [hpack]
  rfl

theorem isNaN_nearest {m : ℕ} {e : ℤ} (h : Normalized m e) :
    (nearest m e h.pos).isNaN = false := by
  change (nearest m e h.pos).toModel.unpack.isNaN = false
  rcases le_or_gt e 971 with he | he
  · rw [unpack_nearest h he]
    rfl
  · rw [unpack_nearest_large h he]
    rfl

theorem isFinite_nearest {m : ℕ} {e : ℤ} (h : Normalized m e) :
    (nearest m e h.pos).isFinite = true ↔ e ≤ 971 := by
  change (nearest m e h.pos).toModel.unpack.isFinite = true ↔ e ≤ 971
  rcases le_or_gt e 971 with he | he
  · rw [unpack_nearest h he]
    exact iff_of_true rfl he
  · rw [unpack_nearest_large h he]
    exact iff_of_false Bool.false_ne_true (not_le.mpr he)

/-- Owners in order are doubles in order. -/
theorem nearest_le {m m' : ℕ} {e e' : ℤ} (h : Normalized m e) (h' : Normalized m' e')
    (hle : e < e' ∨ e = e' ∧ m ≤ m') : nearest m e h.pos ≤ nearest m' e' h'.pos := by
  rw [le_iff_place (isNaN_nearest h) (isNaN_nearest h'), place, place, ← not_lt]
  rcases le_or_gt e' 971 with he' | he'
  · rw [unpack_nearest h' he', unpack_nearest h (by omega)]
    exact fun hlt => by
      have := toLex_lt_toLex.mp hlt
      omega
  · rw [unpack_nearest_large h' he']
    rcases le_or_gt e 971 with he | he
    · rw [unpack_nearest h he]
      exact fun hlt => by
        have := toLex_lt_toLex.mp hlt
        omega
    · rw [unpack_nearest_large h he]
      exact lt_irrefl _

theorem place_nearest_pos {m : ℕ} {e : ℤ} (h : Normalized m e) :
    toLex (0, toLex (0, 0)) < place (nearest m e h.pos) := by
  rw [place]
  rcases le_or_gt e 971 with he | he
  · rw [unpack_nearest h he]
    exact toLex_lt_toLex.mpr (by omega)
  · rw [unpack_nearest_large h he]
    exact toLex_lt_toLex.mpr (by omega)

/-- A product of finite numbers is rounded to zero, or to the double that owns it. -/
theorem product_cases {a b : ℕ} {p q : ℤ} {v : ℚ} (ha : 0 < a) (hb : 0 < b)
    (hv : v = a * b * 2 ^ (p + q)) (henough : 2 ^ 52 ≤ a * b ∨ p + q ≤ -1074) :
    (mul Format.binary64 (.finite .positive a p ha) (.finite .positive b q hb) = .zero .positive ∧
      v ≤ 2 ^ (-1075 : ℤ)) ∨
    ∃ m e, ∃ h : Normalized m e, Owned m e v ∧
      mul Format.binary64 (.finite .positive a p ha) (.finite .positive b q hb) =
        .finite .positive m e h.pos := by
  refine rounded_cases .positive (Nat.mul_pos ha hb).ne' ?_ henough
  rw [hv, mul_div_cancel_right₀ _ (two_zpow_pos _).ne', ← Nat.cast_mul]
  exact standsFor_exact (a * b)

/-! ### Whole numbers -/

theorem two_zpow_lt_one : (2 : ℚ) ^ (-1075 : ℤ) < 1 := by
  rw [zpow_neg]
  exact inv_lt_one_of_one_lt₀ (one_lt_zpow₀ (by norm_num) (by norm_num))

theorem ofScientific_large {n : ℕ} (hn : n ≠ 0) : UnpackedFloat.ofScientific Format.binary64 n 0 =
    mul Format.binary64 (.finite .positive (n <<< 53) (-53)
      (by rw [Nat.shiftLeft_eq]; omega)) (.finite .positive 1 0 (by decide)) := by
  have hlow : ¬ 0 < -((2 : ℤ) ^ Format.binary64.exponentBits + n.log2) := by
    have hpos : (0 : ℤ) < 2 ^ Format.binary64.exponentBits := by decide
    omega
  rw [UnpackedFloat.ofScientific, dif_neg hn, if_neg (by decide), if_neg hlow, if_pos le_rfl]
  rfl

/-- A whole number becomes the double that owns it. -/
theorem owner_ofNat {n : ℕ} (hn : n ≠ 0) : ∃ m e, ∃ h : Normalized m e, Owned m e n ∧
    Float.ofNat n = nearest m e h.pos := by
  have hone : (1 : ℚ) ≤ n := by exact_mod_cast Nat.one_le_iff_ne_zero.mpr hn
  have hshift : n <<< 53 = n * 2 ^ 53 := Nat.shiftLeft_eq ..
  have hvalue : (n : ℚ) = (n <<< 53 : ℕ) * (1 : ℕ) * (2 : ℚ) ^ (-53 + 0 : ℤ) := by
    rw [hshift]
    push_cast
    norm_num
    ring
  rcases product_cases (by omega) (by decide) hvalue (Or.inl (by omega)) with
    ⟨-, hzero⟩ | ⟨m, e, hnormal, howned, hround⟩
  · linarith [two_zpow_lt_one]
  · refine ⟨m, e, hnormal, howned, ?_⟩
    change Float.ofScientific n false 0 = _
    rcases le_or_gt e 971 with he | he
    · exact float_ofScientific false (hnormal.canonical he) howned hn (by simp)
    · -- A number that large is beyond the short way.
      have hmore : 2 ^ 53 ≤ n := by
        have hgt := howned.gt_two_zpow (hnormal.normal.resolve_right (by omega))
        have hpower : (2 : ℚ) ^ (53 : ℤ) ≤ 2 ^ (51 + e) :=
          zpow_le_zpow_right₀ (by norm_num) (by omega)
        exact_mod_cast hpower.trans hgt.le
      rw [Float.ofScientific, dif_neg (by omega)]
      change Float.ofModel (.pack (UnpackedFloat.ofScientific Format.binary64 n 0)) = _
      rw [ofScientific_large hn, hround, nearest]

theorem unpack_ofNat_zero : (Float.ofNat 0).toModel.unpack = .zero .positive := rfl

theorem isNaN_ofNat (n : ℕ) : (Float.ofNat n).isNaN = false := by
  rcases eq_or_ne n 0 with rfl | hn
  · exact congrArg UnpackedFloat.isNaN unpack_ofNat_zero
  · obtain ⟨m, e, hnormal, -, hm⟩ := owner_ofNat hn
    rw [hm]
    exact isNaN_nearest hnormal

/-- Whole numbers become doubles in order. -/
theorem ofNat_le_ofNat {a b : ℕ} (h : a ≤ b) : Float.ofNat a ≤ Float.ofNat b := by
  rcases eq_or_ne b 0 with rfl | hb
  · obtain rfl := Nat.le_zero.mp h
    exact (le_iff_place (isNaN_ofNat 0) (isNaN_ofNat 0)).mpr le_rfl
  · obtain ⟨m', e', hnormal', howned', hm'⟩ := owner_ofNat hb
    rcases eq_or_ne a 0 with rfl | ha
    · rw [le_iff_place (isNaN_ofNat 0) (isNaN_ofNat b), hm', place, unpack_ofNat_zero]
      exact (place_nearest_pos hnormal').le
    · obtain ⟨m, e, hnormal, howned, hm⟩ := owner_ofNat ha
      rw [hm, hm']
      exact nearest_le hnormal hnormal'
        (howned.ordered hnormal hnormal' howned' (by exact_mod_cast h))

end MetricRelay.Number
