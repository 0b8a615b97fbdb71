import Mathlib.Algebra.Order.Field.Basic
import Mathlib.Algebra.Order.Field.Rat
import Mathlib.Tactic.FieldSimp
import Mathlib.Tactic.Linarith
import Mathlib.Tactic.NormNum
import Mathlib.Tactic.Ring

/-!
# Rounding to a double

A double in canonical form has 53 bits, or the least exponent. Rounding shifts a
mantissa to the right and keeps two bits of what falls off: the first, and whether
there is more. These bits say enough of the number to find the double that is
nearest to it, the one with an even mantissa where two are.
-/

namespace MetricRelay.Number

open Float.Model Float.Model.UnpackedFloat

/-! ### Mantissas and what falls off them -/

/-- What the first bit behind the mantissa is worth. -/
def half (roundBit : Bool) : ℚ := if roundBit then 1 / 2 else 0

/-- A mantissa with its two bits stands for a number, counted in units of the last place. -/
def StandsFor (em : ExtendedMantissa) (w : ℚ) : Prop :=
  ∃ rest : ℚ, 0 ≤ rest ∧ rest < 1 / 2 ∧ (em.stickyBit = true ↔ rest ≠ 0) ∧
    w = em.mantissa + half em.roundBit + rest

theorem StandsFor.bounds {em : ExtendedMantissa} {w : ℚ} (h : StandsFor em w) :
    (em.mantissa : ℚ) ≤ w ∧ w < em.mantissa + 1 := by
  obtain ⟨rest, hrest, hsmall, -, rfl⟩ := h
  have hhalf : 0 ≤ half em.roundBit ∧ half em.roundBit ≤ 1 / 2 := by
    cases em.roundBit <;> norm_num [half]
  constructor
  · linarith [hhalf.1]
  · linarith [hhalf.2]

theorem StandsFor.shiftRightOne {em : ExtendedMantissa} {w : ℚ} (h : StandsFor em w) :
    StandsFor em.shiftRightOne (w / 2) := by
  obtain ⟨rest, hrest, hsmall, hsticky, rfl⟩ := h
  have hhalf : 0 ≤ half em.roundBit ∧ half em.roundBit ≤ 1 / 2 ∧
      (em.roundBit = true ↔ half em.roundBit ≠ 0) := by
    cases em.roundBit <;> norm_num [half]
  obtain ⟨hpos, hle, hround⟩ := hhalf
  refine ⟨(half em.roundBit + rest) / 2, by linarith, by linarith, ?_, ?_⟩
  · have hsum : (half em.roundBit + rest) / 2 ≠ 0 ↔ half em.roundBit ≠ 0 ∨ rest ≠ 0 := by
      constructor
      · intro hne
        by_contra hzero
        push Not at hzero
        rw [hzero.1, hzero.2] at hne
        norm_num at hne
      · rintro (hne | hne)
        · have hgt := lt_of_le_of_ne hpos (Ne.symm hne)
          exact ne_of_gt (by linarith)
        · have hgt := lt_of_le_of_ne hrest (Ne.symm hne)
          exact ne_of_gt (by linarith)
    rw [hsum, ← hround, ← hsticky]
    simp [ExtendedMantissa.shiftRightOne]
  · have hdiv : (em.mantissa : ℚ) = 2 * (em.mantissa / 2 : ℕ) + (em.mantissa % 2 : ℕ) := by
      exact_mod_cast (Nat.div_add_mod em.mantissa 2).symm
    have hbit : half (em.mantissa % 2 != 0) = (em.mantissa % 2 : ℕ) / 2 := by
      rcases Nat.mod_two_eq_zero_or_one em.mantissa with hbit | hbit
      · simp [hbit, half]
      · simp [hbit, half]
    rw [ExtendedMantissa.shiftRightOne, hbit, hdiv]
    ring

theorem StandsFor.shiftRight {em : ExtendedMantissa} {w : ℚ} (h : StandsFor em w) (k : ℕ) :
    StandsFor (em >>> k) (w / 2 ^ k) := by
  induction k with
  | zero => simpa [HShiftRight.hShiftRight, Nat.repeat] using h
  | succ k ih =>
    have hstep := ih.shiftRightOne
    rw [div_div, ← pow_succ] at hstep
    exact hstep

/-- The number rounds to the mantissa: no other one is nearer, and a tie goes to an even one. -/
def RoundsTo (w : ℚ) (m : ℕ) : Prop :=
  (m : ℚ) - 1 / 2 ≤ w ∧ w ≤ m + 1 / 2 ∧ (m % 2 = 1 → (m : ℚ) - 1 / 2 < w ∧ w < m + 1 / 2)

theorem StandsFor.rounded {em : ExtendedMantissa} {w : ℚ} {m : ℕ} (h : StandsFor em w)
    (hm : RoundsTo w m) : em.roundedMantissa = m := by
  obtain ⟨rest, hrest, hsmall, hsticky, rfl⟩ := h
  obtain ⟨hlow, hhigh, hodd⟩ := hm
  obtain ⟨n, roundBit, stickyBit⟩ := em
  dsimp only at hsticky hlow hhigh hodd
  cases roundBit with
  | false =>
    -- Less than a half is left, so the number rounds down.
    have hround : ExtendedMantissa.roundedMantissa ⟨n, false, stickyBit⟩ = n := by
      cases stickyBit <;> rfl
    rw [hround]
    rw [half, if_neg (by decide)] at hlow hhigh
    have hle : (m : ℚ) < n + 1 := by linarith
    have hge : (n : ℚ) < m + 1 := by linarith
    have hle : m < n + 1 := by exact_mod_cast hle
    have hge : n < m + 1 := by exact_mod_cast hge
    omega
  | true =>
    rw [half, if_pos rfl] at hlow hhigh hodd
    cases stickyBit with
    | false =>
      -- A tie: the number lies in the middle.
      have hzero : rest = 0 := by simpa using hsticky
      rw [hzero] at hlow hhigh hodd
      have hle : (m : ℚ) ≤ n + 1 := by linarith
      have hge : (n : ℚ) ≤ m := by linarith
      have hle : m ≤ n + 1 := by exact_mod_cast hle
      have hge : n ≤ m := by exact_mod_cast hge
      have heven : m % 2 = 0 := by
        by_contra hne
        have hodd := hodd (by omega)
        obtain rfl | rfl : m = n ∨ m = n + 1 := by omega
        · linarith [hodd.2]
        · have hlow := hodd.1
          push_cast at hlow
          linarith
      change n + n % 2 = m
      omega
    | true =>
      have hpos : 0 < rest := lt_of_le_of_ne hrest (Ne.symm (hsticky.mp rfl))
      have hle : (m : ℚ) < n + 2 := by linarith
      have hge : (n : ℚ) < m := by linarith
      have hle : m < n + 2 := by exact_mod_cast hle
      have hge : n < m := by exact_mod_cast hge
      change n + 1 = m
      omega

/-- A number in its own right. -/
theorem standsFor_exact (m : ℕ) : StandsFor (.ofMantissaAndAccuracy m .exact) m :=
  ⟨0, le_refl 0, by norm_num, by simp [ExtendedMantissa.ofMantissaAndAccuracy],
    by simp [ExtendedMantissa.ofMantissaAndAccuracy, half]⟩

/-- A quotient, by its whole part and what is left. -/
theorem standsFor_quotient {n d : ℕ} (hd : 0 < d) :
    StandsFor (.ofMantissaAndAccuracy (n / d) (accuracyOfFraction (n % d) d)) ((n : ℚ) / d) := by
  have hdpos : (0 : ℚ) < d := by exact_mod_cast hd
  have hsplit : (n : ℚ) / d = (n / d : ℕ) + ((n % d : ℕ) : ℚ) / d := by
    rw [eq_comm, ← sub_eq_zero]
    field_simp
    have hdiv : (d : ℚ) * (n / d : ℕ) + (n % d : ℕ) = n := by exact_mod_cast Nat.div_add_mod n d
    linarith
  have hlt : ((n % d : ℕ) : ℚ) < d := by exact_mod_cast Nat.mod_lt n hd
  rw [hsplit]
  rw [accuracyOfFraction]
  split
  · next hzero =>
    rw [hzero]
    simpa using standsFor_exact (n / d)
  · next hne =>
    have hpos : (0 : ℚ) < (n % d : ℕ) := by exact_mod_cast Nat.pos_of_ne_zero hne
    have hfraction : (0 : ℚ) < ((n % d : ℕ) : ℚ) / d := div_pos hpos hdpos
    rcases Nat.lt_trichotomy (2 * (n % d)) d with hless | hequal | hmore
    · rw [Nat.compare_eq_lt.mpr hless]
      have hhalf : ((n % d : ℕ) : ℚ) / d < 1 / 2 := by
        rw [div_lt_div_iff₀ hdpos (by norm_num)]
        have hless : (2 : ℚ) * (n % d : ℕ) < d := by exact_mod_cast hless
        linarith
      exact ⟨_, hfraction.le, hhalf,
        by simp [ExtendedMantissa.ofMantissaAndAccuracy, hfraction.ne'],
        by simp [ExtendedMantissa.ofMantissaAndAccuracy, half]⟩
    · rw [Nat.compare_eq_eq.mpr hequal]
      have hhalf : ((n % d : ℕ) : ℚ) / d = 1 / 2 := by
        rw [div_eq_div_iff hdpos.ne' (by norm_num)]
        have hequal : (2 : ℚ) * (n % d : ℕ) = d := by exact_mod_cast hequal
        linarith
      rw [hhalf]
      exact ⟨0, le_refl 0, by norm_num, by simp [ExtendedMantissa.ofMantissaAndAccuracy],
        by simp [ExtendedMantissa.ofMantissaAndAccuracy, half]⟩
    · rw [Nat.compare_eq_gt.mpr hmore]
      have hhalf : 1 / 2 < ((n % d : ℕ) : ℚ) / d := by
        rw [div_lt_div_iff₀ (by norm_num) hdpos]
        have hmore : (d : ℚ) < 2 * (n % d : ℕ) := by exact_mod_cast hmore
        linarith
      have hone : ((n % d : ℕ) : ℚ) / d < 1 := (div_lt_one hdpos).mpr hlt
      refine ⟨((n % d : ℕ) : ℚ) / d - 1 / 2, by linarith, by linarith, ?_, ?_⟩
      · simp [ExtendedMantissa.ofMantissaAndAccuracy]
        linarith
      · simp [ExtendedMantissa.ofMantissaAndAccuracy, half]

/-! ### Canonical form -/

structure Canonical (m : ℕ) (e : ℤ) : Prop where
  pos : 0 < m
  lt : m < 2 ^ 53
  low : -1074 ≤ e
  high : e ≤ 971
  normal : 2 ^ 52 ≤ m ∨ e = -1074

/-- The number rounds to the double `m · 2^e`: below the least mantissa of an exponent the doubles
are twice as dense. -/
structure Owned (m : ℕ) (e : ℤ) (v : ℚ) : Prop where
  rounds : RoundsTo (v / 2 ^ e) m
  dense : m = 2 ^ 52 → -1074 < e → (m : ℚ) - 1 / 4 ≤ v / 2 ^ e

theorem two_zpow_pos (e : ℤ) : (0 : ℚ) < 2 ^ e := zpow_pos (by norm_num) e

theorem two_zpow_lt {a b : ℤ} (h : (2 : ℚ) ^ a < 2 ^ b) : a < b :=
  (zpow_lt_zpow_iff_right₀ (by norm_num)).mp h

theorem mantissaBits_binary64 : Format.binary64.mantissaBits = 53 := rfl

/-- The exponent that a shift brings to: 53 bits stay, or the least exponent is reached. -/
theorem targetExponent_eq (m : ℕ) (e : ℤ) :
    Format.binary64.targetExponent (totalExponent m e) = max (m.log2 + e - 52) (-1074) := by
  simp [Format.targetExponent, totalExponent, mantissaBits_binary64, Format.minExponent]
  omega

theorem exists_shifted {m : ℕ} {e target : ℤ} {a : Accuracy} {v : ℚ}
    (h : StandsFor (.ofMantissaAndAccuracy m a) (v / 2 ^ e)) (hle : e ≤ target) :
    ∃ em, shiftToExponent m e a target = (em, target) ∧ StandsFor em (v / 2 ^ target) := by
  have hshift : e + ((target - e).toNat : ℤ) = target := by omega
  have hstands := h.shiftRight (target - e).toNat
  rw [div_div, ← zpow_natCast, ← zpow_add₀ (by norm_num), hshift] at hstands
  refine ⟨_, ?_, hstands⟩
  rw [shiftToExponent, hshift]

/-- A mantissa of 53 bits at most stays as it is. -/
theorem shiftToTarget_small {m : ℕ} {e : ℤ} (hm : m < 2 ^ 53) (he : -1074 ≤ e) :
    shiftToTargetExponent Format.binary64 m e .exact = (⟨m, false, false⟩, e) := by
  have hlog : m.log2 ≤ 52 := by
    by_cases hzero : m = 0
    · simp [hzero]
    · exact Nat.le_of_lt_succ ((Nat.log2_lt hzero).mpr hm)
  have hnone : (Format.binary64.targetExponent (totalExponent m e) - e).toNat = 0 := by
    rw [targetExponent_eq]
    omega
  simp [shiftToTargetExponent, shiftToExponent, hnone, HShiftRight.hShiftRight, Nat.repeat,
    ExtendedMantissa.ofMantissaAndAccuracy]

/-- The mantissa that has just become too large loses its last bit, a zero. -/
theorem shiftToTarget_carry {e : ℤ} (he : -1074 ≤ e) :
    shiftToTargetExponent Format.binary64 (2 ^ 53) e .exact = (⟨2 ^ 52, false, false⟩, e + 1) := by
  have htarget : Format.binary64.targetExponent (totalExponent (2 ^ 53) e) = e + 1 := by
    rw [targetExponent_eq, Nat.log2_two_pow]
    omega
  have hone : (e + 1 - e).toNat = 1 := by omega
  rw [shiftToTargetExponent, htarget, shiftToExponent, hone]
  rfl

/-- A double owns what is half a unit in the last place away, at most. -/
theorem Owned.ends {m : ℕ} {e : ℤ} {v : ℚ} (h : Owned m e v) :
    ((m : ℚ) - 1 / 2) * 2 ^ e ≤ v ∧ v ≤ (m + 1 / 2) * 2 ^ e :=
  ⟨(le_div_iff₀ (two_zpow_pos e)).mp h.rounds.1, (div_le_iff₀ (two_zpow_pos e)).mp h.rounds.2.1⟩

/-- The upper end is below the next power of two. -/
theorem Owned.lt_two_zpow {m : ℕ} {e : ℤ} {v : ℚ} (hc : Canonical m e) (h : Owned m e v) :
    v < 2 ^ (53 + e) := by
  have hm : (m : ℚ) + 1 ≤ 2 ^ (53 : ℤ) := by exact_mod_cast hc.lt
  calc v ≤ (m + 1 / 2) * 2 ^ e := h.ends.2
    _ < 2 ^ (53 : ℤ) * 2 ^ e := mul_lt_mul_of_pos_right (by linarith) (two_zpow_pos e)
    _ = 2 ^ (53 + e) := (zpow_add₀ (by norm_num) _ _).symm

/-- The lower end is above the power of two before. -/
theorem Owned.gt_two_zpow {m : ℕ} {e : ℤ} {v : ℚ} (hm : 2 ^ 52 ≤ m) (h : Owned m e v) :
    2 ^ (51 + e) < v := by
  have hm : (4503599627370496 : ℚ) ≤ m := by exact_mod_cast hm
  calc (2 : ℚ) ^ (51 + e) = 2 ^ (51 : ℤ) * 2 ^ e := zpow_add₀ (by norm_num) _ _
    _ < (m - 1 / 2) * 2 ^ e := by
      refine mul_lt_mul_of_pos_right ?_ (two_zpow_pos e)
      norm_num
      linarith
    _ ≤ v := h.ends.1

/-- The first shift brings a number to the exponent of the double that owns it, or to the one
below, where the mantissa is going to be too large. -/
theorem Owned.target {m n : ℕ} {e f : ℤ} {v : ℚ} (hc : Canonical m e) (h : Owned m e v)
    (hlow : (n : ℚ) * 2 ^ f ≤ v) (hhigh : v < (n + 1) * 2 ^ f)
    (henough : 2 ^ 52 ≤ n ∨ f ≤ -1074) :
    f ≤ max (n.log2 + f - 52) (-1074) ∧ (max (n.log2 + f - 52) (-1074) = e ∨
      max (n.log2 + f - 52) (-1074) = e - 1 ∧ m = 2 ^ 52 ∧ -1074 < e ∧ v / 2 ^ e < m) := by
  have hlog : v < 2 ^ ((n.log2 : ℤ) + 1 + f) := by
    have hn : ((n : ℚ) + 1) ≤ 2 ^ (n.log2 + 1) := by exact_mod_cast Nat.lt_log2_self
    rw [zpow_add₀ (by norm_num), ← Nat.cast_succ, zpow_natCast]
    exact hhigh.trans_le (mul_le_mul_of_nonneg_right hn (two_zpow_pos f).le)
  have hle : n ≠ 0 → (n.log2 : ℤ) + f < 53 + e := by
    intro hn
    apply two_zpow_lt
    have hself : (2 : ℚ) ^ n.log2 ≤ n := by exact_mod_cast Nat.log2_self_le hn
    rw [zpow_add₀ (by norm_num), zpow_natCast]
    exact (mul_le_mul_of_nonneg_right hself (two_zpow_pos f).le).trans_lt
      (hlow.trans_lt (h.lt_two_zpow hc))
  have hfive : 2 ^ 52 ≤ n → 52 ≤ n.log2 := by
    intro hn
    have hne : n ≠ 0 := by omega
    exact (Nat.le_log2 hne).mpr hn
  have hmin := hc.low
  have hzero : n = 0 → n.log2 = 0 := by
    rintro rfl
    rfl
  refine ⟨by omega, ?_⟩
  rcases hc.normal with hnormal | hleast
  · have hlower : 51 + e < n.log2 + 1 + f :=
      two_zpow_lt ((h.gt_two_zpow hnormal).trans hlog)
    by_cases hsame : max ((n.log2 : ℤ) + f - 52) (-1074) = e
    · exact Or.inl hsame
    · have hdown : (n.log2 : ℤ) + f = 51 + e ∧ -1074 < e := by omega
      -- The number is below the least mantissa of the exponent.
      have hsmall : v / 2 ^ e < 4503599627370496 := by
        have heq : (n.log2 : ℤ) + 1 + f = 52 + e := by omega
        rw [heq, zpow_add₀ (by norm_num)] at hlog
        rw [div_lt_iff₀ (two_zpow_pos e)]
        norm_num at hlog
        exact hlog
      have hm : (m : ℚ) < 4503599627370497 := by linarith [h.rounds.1]
      have hm : m < 4503599627370497 := by exact_mod_cast hm
      obtain rfl : m = 2 ^ 52 := by omega
      exact Or.inr ⟨by omega, rfl, hdown.2, by norm_num; exact hsmall⟩
  · subst hleast
    exact Or.inl (by omega)

/-- One exponent too low, what is below a power of two rounds to it. -/
theorem Owned.rounds_below {m : ℕ} {e : ℤ} {v : ℚ} (h : Owned m e v) (hm : m = 2 ^ 52)
    (hlarge : -1074 < e) (hbelow : v / 2 ^ e < m) : RoundsTo (v / 2 ^ (e - 1)) (2 ^ 53) := by
  have hdouble : v / 2 ^ (e - 1) = v / 2 ^ e * 2 := by
    rw [zpow_sub₀ (by norm_num), zpow_one]
    field_simp
  have hnear := h.dense hm hlarge
  rw [hm] at hnear hbelow
  rw [hdouble]
  norm_num at hnear hbelow
  refine ⟨?_, ?_, fun hodd => absurd hodd (by decide)⟩
  · norm_num
    linarith
  · norm_num
    linarith

/-- Rounding shifts twice: the second time after the mantissa may have become one bit longer. -/
theorem roundWithAccuracy_of_shifted {n : ℕ} {f : ℤ} {a : Accuracy}
    {first second : ExtendedMantissa × ℤ} (sign : Sign)
    (hfirst : shiftToTargetExponent Format.binary64 n f a = first)
    (hsecond : shiftToTargetExponent Format.binary64 first.1.roundedMantissa first.2 .exact =
      second) (h : second.1.mantissa ≠ 0) :
    roundWithAccuracy Format.binary64 sign n f a =
      .finite sign second.1.mantissa second.2 (Nat.pos_of_ne_zero h) := by
  subst hfirst hsecond
  exact dif_neg h

/-- Rounding finds the double that owns the number. -/
theorem roundWithAccuracy_eq {m n : ℕ} {e f : ℤ} {a : Accuracy} {v : ℚ} (sign : Sign)
    (hc : Canonical m e) (h : Owned m e v)
    (hstands : StandsFor (.ofMantissaAndAccuracy n a) (v / 2 ^ f))
    (henough : 2 ^ 52 ≤ n ∨ f ≤ -1074) :
    roundWithAccuracy Format.binary64 sign n f a = .finite sign m e hc.pos := by
  have hmantissa : (ExtendedMantissa.ofMantissaAndAccuracy n a).mantissa = n := by
    cases a with
    | exact => rfl
    | inexact o => cases o <;> rfl
  obtain ⟨hlow, hhigh⟩ := hstands.bounds
  rw [hmantissa] at hlow hhigh
  obtain ⟨hle, htarget⟩ := h.target hc ((le_div_iff₀ (two_zpow_pos f)).mp hlow)
    ((div_lt_iff₀ (two_zpow_pos f)).mp hhigh) henough
  rw [← targetExponent_eq] at hle htarget
  obtain ⟨em, hshift, hshifted⟩ := exists_shifted hstands hle
  have hfirst : shiftToTargetExponent Format.binary64 n f a = _ := hshift
  rcases htarget with hsame | ⟨hdown, hm, hlarge, hbelow⟩
  · rw [hsame] at hfirst hshifted
    have hsecond : shiftToTargetExponent Format.binary64 em.roundedMantissa e .exact =
        (⟨m, false, false⟩, e) := by
      rw [hshifted.rounded h.rounds]
      exact shiftToTarget_small hc.lt hc.low
    exact roundWithAccuracy_of_shifted sign hfirst hsecond hc.pos.ne'
  · rw [hdown] at hfirst hshifted
    have hrounds := h.rounds_below hm hlarge hbelow
    have hsecond : shiftToTargetExponent Format.binary64 em.roundedMantissa (e - 1) .exact =
        (⟨2 ^ 52, false, false⟩, e) := by
      have hcarry := shiftToTarget_carry (e := e - 1) (by omega)
      rw [hshifted.rounded hrounds]
      rwa [sub_add_cancel] at hcarry
    subst hm
    exact roundWithAccuracy_of_shifted sign hfirst hsecond hc.pos.ne'

/-! ### Products and quotients -/

/-- A product is rounded once. -/
theorem mul_finite {m a b : ℕ} {e p q : ℤ} {v : ℚ} (hc : Canonical m e) (h : Owned m e v)
    (ha : 0 < a) (hb : 0 < b) (hv : v = a * b * 2 ^ (p + q))
    (henough : 2 ^ 52 ≤ a * b ∨ p + q ≤ -1074) :
    mul Format.binary64 (.finite .positive a p ha) (.finite .positive b q hb) =
      .finite .positive m e hc.pos := by
  refine roundWithAccuracy_eq .positive hc h ?_ henough
  rw [hv, mul_div_cancel_right₀ _ (two_zpow_pos _).ne', ← Nat.cast_mul]
  exact standsFor_exact (a * b)

/-- A quotient is computed to 53 bits or to the least exponent before it is rounded. -/
theorem exists_divCore {a b : ℕ} {p q : ℤ} (ha : 0 < a) (hb : 0 < b) : ∃ (k : ℕ) (f : ℤ),
    p - q = f + k ∧ (2 ^ 52 ≤ a <<< k / b ∨ f ≤ -1074) ∧ divCore Format.binary64 a p b q =
      (a <<< k / b, f, accuracyOfFraction (a <<< k % b) b) := by
  have htarget : Format.binary64.targetExponent (totalExponent a p - totalExponent b q) =
      max (a.log2 + p - (b.log2 + q) - 53) (-1074) := by
    simp [Format.targetExponent, totalExponent, mantissaBits_binary64, Format.minExponent]
    omega
  rw [divCore, htarget]
  generalize hf : min (p - q) (max ((a.log2 : ℤ) + p - (b.log2 + q) - 53) (-1074)) = f
  refine ⟨(p - q - f).toNat, f, by omega, ?_, rfl⟩
  by_cases hleast : f ≤ -1074
  · exact Or.inr hleast
  · left
    have hshift : b.log2 + 53 ≤ a.log2 + (p - q - f).toNat := by omega
    rw [Nat.shiftLeft_eq, Nat.le_div_iff_mul_le hb]
    have hsmall : b < 2 ^ (b.log2 + 1) := Nat.lt_log2_self
    calc 2 ^ 52 * b ≤ 2 ^ 52 * 2 ^ (b.log2 + 1) := Nat.mul_le_mul_left _ hsmall.le
      _ = 2 ^ (b.log2 + 53) := by rw [← Nat.pow_add]; congr 1; omega
      _ ≤ 2 ^ (a.log2 + (p - q - f).toNat) := Nat.pow_le_pow_right (by decide) hshift
      _ = 2 ^ a.log2 * 2 ^ (p - q - f).toNat := Nat.pow_add ..
      _ ≤ a * 2 ^ (p - q - f).toNat := Nat.mul_le_mul_right _ (Nat.log2_self_le ha.ne')

/-- A quotient is rounded once. -/
theorem div_finite {m a b : ℕ} {e p q : ℤ} {v : ℚ} (hc : Canonical m e) (h : Owned m e v)
    (ha : 0 < a) (hb : 0 < b) (hv : v = a / b * 2 ^ (p - q)) :
    div Format.binary64 (.finite .positive a p ha) (.finite .positive b q hb) =
      .finite .positive m e hc.pos := by
  obtain ⟨k, f, hshift, henough, hcore⟩ := exists_divCore (p := p) (q := q) ha hb
  have hquotient : v / 2 ^ f = ((a <<< k : ℕ) : ℚ) / b := by
    have hne := (two_zpow_pos f).ne'
    rw [hv, hshift, zpow_add₀ (by norm_num), Nat.shiftLeft_eq, zpow_natCast]
    push_cast
    field_simp
  change roundWithAccuracy Format.binary64 .positive (divCore Format.binary64 a p b q).1
    (divCore Format.binary64 a p b q).2.1 (divCore Format.binary64 a p b q).2.2 = _
  rw [hcore]
  refine roundWithAccuracy_eq .positive hc h ?_ henough
  rw [hquotient]
  exact standsFor_quotient hb

end MetricRelay.Number
