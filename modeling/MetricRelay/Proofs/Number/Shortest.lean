import MetricRelay.Proofs.Number.Scientific

/-!
# The shortest decimal

The grids of decimals become ten times as dense from one to the next. Before the
search ends it meets a grid on which half a unit in the last place has more than one
step, so some point above the value rounds to it. The search stops at a point that the
double owns, whichever comes first.
-/

namespace MetricRelay.Number

def magnitude (m : ℕ) (e : ℤ) : Binary := ⟨m, e, decide (m = 2 ^ 52)⟩

namespace Binary

variable (b : Binary) (g : ℤ)

/-- What turns the numbers of a comparison into whole ones. -/
def scale : ℕ := 2 ^ (2 - b.exponent).toNat * 10 ^ (-g).toNat

theorem scale_pos : (0 : ℚ) < b.scale g := by
  have h : 0 < b.scale g := Nat.mul_pos (Nat.two_pow_pos _) (Nat.pow_pos (by decide))
  exact_mod_cast h

theorem cast_onQuarters (n : ℕ) :
    (b.onQuarters g n : ℚ) = n / 4 * 2 ^ b.exponent * b.scale g := by
  have hsplit : ((b.exponent - 2).toNat : ℤ) = b.exponent - 2 + ((2 - b.exponent).toNat : ℤ) := by
    omega
  have hpower : (2 : ℚ) ^ (b.exponent - 2).toNat =
      2 ^ b.exponent / 4 * 2 ^ (2 - b.exponent).toNat := by
    rw [← zpow_natCast, hsplit, zpow_add₀ (by norm_num), zpow_sub₀ (by norm_num), zpow_natCast]
    norm_num
  rw [onQuarters, scale, Nat.pow_eq, Nat.pow_eq]
  push_cast
  rw [hpower]
  ring

theorem cast_onGrid (c : ℕ) : (b.onGrid g c : ℚ) = c * 10 ^ g * b.scale g := by
  have hsplit : (g.toNat : ℤ) = g + ((-g).toNat : ℤ) := by omega
  have hpower : (10 : ℚ) ^ g.toNat = 10 ^ g * 10 ^ (-g).toNat := by
    rw [← zpow_natCast, hsplit, zpow_add₀ (by norm_num), zpow_natCast]
  rw [onGrid, scale, Nat.pow_eq, Nat.pow_eq]
  push_cast
  rw [hpower]
  ring

/-- A point between two quarters of the last place. -/
theorem le_onGrid_iff (n c : ℕ) :
    b.onQuarters g n ≤ b.onGrid g c ↔ (n : ℚ) / 4 * 2 ^ b.exponent ≤ c * 10 ^ g := by
  rw [← Nat.cast_le (α := ℚ), cast_onQuarters, cast_onGrid,
    mul_le_mul_iff_of_pos_right (b.scale_pos g)]

theorem onGrid_le_iff (n c : ℕ) :
    b.onGrid g c ≤ b.onQuarters g n ↔ (c : ℚ) * 10 ^ g ≤ n / 4 * 2 ^ b.exponent := by
  rw [← Nat.cast_le (α := ℚ), cast_onQuarters, cast_onGrid,
    mul_le_mul_iff_of_pos_right (b.scale_pos g)]

theorem lt_onGrid_iff (n c : ℕ) :
    b.onQuarters g n < b.onGrid g c ↔ (n : ℚ) / 4 * 2 ^ b.exponent < c * 10 ^ g := by
  rw [← not_le, onGrid_le_iff, not_le]

theorem onGrid_lt_iff (n c : ℕ) :
    b.onGrid g c < b.onQuarters g n ↔ (c : ℚ) * 10 ^ g < n / 4 * 2 ^ b.exponent := by
  rw [← not_le, le_onGrid_iff, not_le]

end Binary

variable {m : ℕ} {e g : ℤ} {c : ℕ}

/-- A point that the magnitude owns is one that rounds to it. -/
theorem owned_of_owns (hc : Canonical m e) (h : (magnitude m e).owns g c = true) :
    Owned m e (c * 10 ^ g) := by
  have hepos := two_zpow_pos e
  have hone : 1 ≤ m := hc.pos
  have hlow : ((magnitude m e).low : ℚ) / 4 = m - if m = 2 ^ 52 then 1 / 4 else 1 / 2 := by
    have hwhole : (magnitude m e).low = 4 * m - if m = 2 ^ 52 then 1 else 2 := by
      simp [Binary.low, magnitude]
    rw [hwhole, Nat.cast_sub (by split <;> omega)]
    split
    · push_cast
      ring
    · push_cast
      ring
  have hhigh : ((magnitude m e).high : ℚ) / 4 = m + 1 / 2 := by
    rw [Binary.high, magnitude]
    push_cast
    ring
  have hend : (m : ℚ) - 1 / 2 ≤ m - if m = 2 ^ 52 then 1 / 4 else 1 / 2 := by
    split <;> linarith
  rw [Binary.owns] at h
  have heven : (magnitude m e).mantissa % 2 = 0 ↔ m % 2 = 0 := Iff.rfl
  split at h
  · next hzero =>
    rw [Bool.and_eq_true, decide_eq_true_eq, decide_eq_true_eq, Binary.le_onGrid_iff,
      Binary.onGrid_le_iff, hlow, hhigh] at h
    have hlower := (le_div_iff₀ hepos).mpr h.1
    have hupper := (div_le_iff₀ hepos).mpr h.2
    refine ⟨⟨hend.trans hlower, hupper, ?_⟩, ?_⟩
    · intro hodd
      rw [heven] at hzero
      omega
    · intro hm _
      rwa [if_pos hm] at hlower
  · rw [Bool.and_eq_true, decide_eq_true_eq, decide_eq_true_eq, Binary.lt_onGrid_iff,
      Binary.onGrid_lt_iff, hlow, hhigh] at h
    have hlower := (lt_div_iff₀ hepos).mpr h.1
    have hupper := (div_lt_iff₀ hepos).mpr h.2
    refine ⟨⟨(hend.trans_lt hlower).le, hupper.le, fun _ => ⟨hend.trans_lt hlower, hupper⟩⟩, ?_⟩
    intro hm _
    rw [if_pos hm] at hlower
    exact hlower.le

namespace Binary

variable {b : Binary} {tie : TieRule}

/-- A point that is picked is owned. -/
theorem owns_of_pick? (h : b.pick? tie g = some c) : b.owns g c = true := by
  rw [pick?] at h
  dsimp only at h
  split at h
  · cases h
  · next hown _ =>
    cases h
    exact hown
  · next _ hown =>
    cases h
    exact hown
  · next hown hnext =>
    split at h
    · cases h
      exact hnext
    · cases h
      exact hown

/-- The search ends at an owned point if it comes to a grid that has one. -/
theorem owns_search {fuel : ℕ} (h : ∃ k < fuel, (b.pick? tie (g - k)).isSome) :
    b.owns (b.search tie fuel g).exponent (b.search tie fuel g).digits = true := by
  induction fuel generalizing g with
  | zero =>
    obtain ⟨k, hk, -⟩ := h
    exact absurd hk (Nat.not_lt_zero k)
  | succ fuel ih =>
    rw [search]
    cases hpick : b.pick? tie g with
    | some c => exact owns_of_pick? hpick
    | none =>
      refine ih ?_
      obtain ⟨k, hk, hsome⟩ := h
      cases k with
      | zero =>
        rw [Nat.cast_zero, sub_zero, hpick] at hsome
        cases hsome
      | succ k =>
        refine ⟨k, Nat.lt_of_succ_lt_succ hk, ?_⟩
        rwa [sub_sub, ← Nat.cast_one, ← Nat.cast_add, Nat.add_comm]

/-- A step of less than half a unit in the last place does not leap over the upper end. -/
theorem pick?_of_dense (hdense : (10 : ℚ) ^ g < 1 / 2 * 2 ^ b.exponent) :
    (b.pick? tie g).isSome := by
  have hnext : b.owns g (b.below g + 1) = true := by
    have hstep : b.onGrid g 1 < b.onQuarters g 2 := by
      rw [onGrid_lt_iff]
      push_cast
      linarith
    have hgrid : b.onGrid g (b.below g + 1) = (b.below g + 1) * b.onGrid g 1 := by
      simp only [onGrid, one_mul, Nat.mul_assoc]
    have hpos : 0 < b.onGrid g 1 :=
      Nat.mul_pos (Nat.mul_pos one_pos (Nat.pow_pos (by decide))) (Nat.two_pow_pos _)
    have habove : b.onQuarters g b.mid < b.onGrid g (b.below g + 1) := by
      rw [hgrid, Nat.mul_comm]
      exact Nat.lt_mul_div_succ _ hpos
    have hnear : b.onGrid g (b.below g + 1) ≤ b.onQuarters g b.mid + b.onGrid g 1 := by
      rw [hgrid, Nat.add_mul, one_mul]
      exact Nat.add_le_add_right (Nat.div_mul_le_self _ _) _
    have hhigh : b.onQuarters g b.high = b.onQuarters g b.mid + b.onQuarters g 2 := by
      simp only [onQuarters, high, mid]
      ring
    have hlow : b.onQuarters g b.low ≤ b.onQuarters g b.mid :=
      Nat.mul_le_mul_right _ (Nat.mul_le_mul_right _ (Nat.sub_le _ _))
    rw [owns]
    split
    · simp only [Bool.and_eq_true, decide_eq_true_eq]
      omega
    · simp only [Bool.and_eq_true, decide_eq_true_eq]
      omega
  rw [pick?]
  dsimp only
  rw [hnext]
  cases b.owns g (b.below g) with
  | false => rfl
  | true =>
    dsimp only
    split <;> rfl

end Binary

/-! ### The search meets a grid that is dense enough -/

/-- Ten to the 59th is less than two to the 196th. -/
theorem ten_pow_lt {a k : ℕ} (h : 196 * a ≤ 59 * k) (hk : 0 < k) : 10 ^ a < 2 ^ k := by
  refine lt_of_pow_lt_pow_left₀ 59 (Nat.zero_le _) ?_
  rw [← Nat.pow_mul, ← Nat.pow_mul]
  cases a with
  | zero => exact Nat.one_lt_two_pow (by omega)
  | succ a =>
    calc 10 ^ ((a + 1) * 59) = (10 ^ 59) ^ (a + 1) := by rw [← Nat.pow_mul, Nat.mul_comm]
      _ < (2 ^ 196) ^ (a + 1) := Nat.pow_lt_pow_left (by decide) (Nat.succ_ne_zero a)
      _ = 2 ^ (196 * (a + 1)) := (Nat.pow_mul ..).symm
      _ ≤ 2 ^ (k * 59) := Nat.pow_le_pow_right (by decide) (by omega)

/-- Two to the 93rd is less than ten to the 28th. -/
theorem two_pow_lt {a k : ℕ} (h : 28 * k ≤ 93 * a) (ha : 0 < a) : 2 ^ k < 10 ^ a := by
  refine lt_of_pow_lt_pow_left₀ 28 (Nat.zero_le _) ?_
  rw [← Nat.pow_mul, ← Nat.pow_mul]
  calc 2 ^ (k * 28) ≤ 2 ^ (93 * a) := Nat.pow_le_pow_right (by decide) (by omega)
    _ = (2 ^ 93) ^ a := Nat.pow_mul ..
    _ < (10 ^ 28) ^ a := Nat.pow_lt_pow_left (by decide) ha.ne'
    _ = 10 ^ (a * 28) := by rw [← Nat.pow_mul, Nat.mul_comm]

/-- The last grid of the search is dense enough. -/
theorem ten_zpow_lt {a k : ℤ} (hlow : -1074 ≤ k) (hhigh : k ≤ 971)
    (h : a ≤ (52 + k) * 30103 / 100000 - 17) : (10 : ℚ) ^ a < 1 / 2 * 2 ^ k := by
  have hhalf : (1 : ℚ) / 2 * 2 ^ k = 2 ^ (k - 1) := by
    rw [zpow_sub_one₀ (by norm_num)]
    ring
  rw [hhalf]
  rcases lt_or_ge a 0 with hneg | hpos
  · rcases lt_or_ge (k - 1) 0 with hless | hmore
    · obtain ⟨x, rfl⟩ : ∃ x : ℕ, a = -x := ⟨(-a).toNat, by omega⟩
      obtain ⟨y, hy⟩ : ∃ y : ℕ, k - 1 = -y := ⟨(1 - k).toNat, by omega⟩
      have hpow : (2 : ℚ) ^ y < 10 ^ x := by exact_mod_cast two_pow_lt (by omega) (by omega)
      rw [hy, zpow_neg, zpow_neg, zpow_natCast, zpow_natCast]
      exact (inv_lt_inv₀ (by positivity) (by positivity)).mpr hpow
    · calc (10 : ℚ) ^ a < 1 := zpow_lt_one_of_neg₀ (by norm_num) hneg
        _ ≤ 2 ^ (k - 1) := one_le_zpow₀ (by norm_num) hmore
  · lift a to ℕ using hpos
    obtain ⟨y, hy⟩ : ∃ y : ℕ, k - 1 = y := ⟨(k - 1).toNat, by omega⟩
    have hpow : (10 : ℚ) ^ a < 2 ^ y := by exact_mod_cast ten_pow_lt (by omega) (by omega)
    rw [hy, zpow_natCast, zpow_natCast]
    exact hpow

/-- The digits that are written for a double are a decimal that it owns. -/
theorem owned_shortest (hc : Canonical m e) (tie : TieRule) :
    Owned m e (((magnitude m e).shortest tie).digits *
      10 ^ ((magnitude m e).shortest tie).exponent) := by
  refine owned_of_owns hc (Binary.owns_search ⟨18, by decide, Binary.pick?_of_dense ?_⟩)
  refine ten_zpow_lt hc.low hc.high ?_
  have hlog : m.log2 < 53 := (Nat.log2_lt hc.pos.ne').mpr hc.lt
  change ((m.log2 : ℤ) + e) * 30103 / 100000 + 1 - 18 ≤ (52 + e) * 30103 / 100000 - 17
  omega

end MetricRelay.Number
