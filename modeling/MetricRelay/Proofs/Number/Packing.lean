import MetricRelay.Number.Real
import MetricRelay.Proofs.Number.Rounding

/-!
# The bits of a double

The 64 bits of a double are its sign, 11 bits of exponent and 52 bits of mantissa.
A double is known by what its bits unpack to.
-/

namespace MetricRelay.Number

open Float.Model Float.Model.UnpackedFloat

abbrev Bits := BitVec Format.binary64.numBits

variable (b : Bits)

theorem toNat_unpackMantissa : (unpackMantissa b).toNat = b.toNat % 2 ^ 52 := by
  simp [unpackMantissa, BitVec.extractLsb_toNat]

theorem toNat_unpackExponent : (unpackExponent b).toNat = b.toNat / 2 ^ 52 % 2 ^ 11 := by
  simp [unpackExponent, BitVec.extractLsb_toNat, Nat.shiftRight_eq_div_pow]

theorem toNat_unpackSign : (unpackSign b).toNat = b.toNat / 2 ^ 63 % 2 := by
  unfold unpackSign
  simp [BitVec.extractLsb_toNat, Nat.shiftRight_eq_div_pow]

theorem toBitVec_ofBitVec (b : BitVec 1) : (Sign.ofBitVec b).toBitVec = b := by
  have hall : ∀ b : BitVec 1, (Sign.ofBitVec b).toBitVec = b := by decide
  exact hall b

theorem toNat_packComponents (sign : Sign) (e : BitVec 11) (m : BitVec 52) :
    (packComponents Format.binary64 sign e m).toNat =
      sign.toBitVec.toNat * 2 ^ 63 + e.toNat * 2 ^ 52 + m.toNat := by
  rw [packComponents, BitVec.toNat_append, BitVec.toNat_append,
    ← Nat.shiftLeft_add_eq_or_of_lt e.isLt, ← Nat.shiftLeft_add_eq_or_of_lt m.isLt,
    Nat.shiftLeft_eq, Nat.shiftLeft_eq]
  omega

/-- The parts of the bits make up the bits. -/
theorem packComponents_unpack : packComponents Format.binary64 (Sign.ofBitVec (unpackSign b))
    (unpackExponent b) (unpackMantissa b) = b := by
  apply BitVec.eq_of_toNat_eq
  rw [toNat_packComponents, toBitVec_ofBitVec, toNat_unpackSign, toNat_unpackExponent,
    toNat_unpackMantissa]
  have hsize : b.toNat < 2 ^ 64 := b.isLt
  omega

structure Fields (b : Bits) (sign : Sign) (m : ℕ) (e : ℤ) : Prop where
  sign : sign = Sign.ofBitVec (unpackSign b)
  exponent : (unpackExponent b).toNat < 2047
  /-- The least exponent has no leading bit of its own. -/
  mantissa : m = (unpackMantissa b).toNat + if (unpackExponent b).toNat = 0 then 0 else 2 ^ 52
  place : e = max (unpackExponent b).toNat 1 - 1075

theorem fields_of_unpack {sign : Sign} {m : ℕ} {e : ℤ} {hm : 0 < m}
    (h : UnpackedFloat.unpack Format.binary64 b = .finite sign m e hm) : Fields b sign m e := by
  unfold UnpackedFloat.unpack at h
  dsimp only at h
  by_cases hmax : unpackExponent b = -1#_
  · rw [if_pos hmax] at h
    by_cases hinfinite : unpackMantissa b = 0#_
    · rw [if_pos hinfinite] at h
      cases h
    · rw [if_neg hinfinite] at h
      cases h
  · rw [if_neg hmax] at h
    have hexponent : (unpackExponent b).toNat < 2047 := by
      have hlt : (unpackExponent b).toNat < 2 ^ 11 := (unpackExponent b).isLt
      have hne : (unpackExponent b).toNat ≠ 2047 := fun heq => hmax (BitVec.eq_of_toNat_eq heq)
      omega
    by_cases hleast : unpackExponent b = 0#_
    · rw [if_pos hleast] at h
      by_cases hzero : unpackMantissa b = 0#_
      · rw [dif_pos hzero] at h
        cases h
      · rw [dif_neg hzero] at h
        obtain ⟨rfl, rfl, rfl⟩ := UnpackedFloat.finite.inj h
        refine ⟨rfl, hexponent, by simp [hleast], ?_⟩
        simp [hleast, Format.exponentBias]
    · rw [if_neg hleast] at h
      obtain ⟨rfl, rfl, rfl⟩ := UnpackedFloat.finite.inj h
      have hne : (unpackExponent b).toNat ≠ 0 := fun heq => hleast (BitVec.eq_of_toNat_eq heq)
      refine ⟨rfl, hexponent, ?_, ?_⟩
      · rw [if_neg hne, BitVec.toNat_append, ← Nat.shiftLeft_add_eq_or_of_lt
          (unpackMantissa b).isLt, Nat.shiftLeft_eq]
        simp
        omega
      · simp [Format.exponentBias]
        omega

theorem Fields.canonical {sign : Sign} {m : ℕ} {e : ℤ} (h : Fields b sign m e) (hm : 0 < m) :
    Canonical m e := by
  have hmantissa : (unpackMantissa b).toNat < 2 ^ 52 := (unpackMantissa b).isLt
  have hexponent := h.exponent
  have hplace := h.place
  have hwhole := h.mantissa
  split at hwhole
  · exact ⟨hm, by omega, by omega, by omega, by omega⟩
  · exact ⟨hm, by omega, by omega, by omega, by omega⟩

variable {b}

/-- The bits of a canonical double: a leading bit is left out, and stands for an exponent that is
not the least one. -/
theorem pack_canonical {m : ℕ} {e : ℤ} (sign : Sign) (h : Canonical m e) :
    UnpackedFloat.pack Format.binary64 (.finite sign m e h.pos) =
      packComponents Format.binary64 sign
        (if m < 2 ^ 52 then 0#11 else BitVec.ofNat 11 (e + 1075).toNat) (BitVec.ofNat 52 m) := by
  have hlow := h.low
  have hhigh := h.high
  have hplace : (e + (Format.binary64.exponentBias : ℤ) + (52 : ℕ)).toNat = (e + 1075).toNat := by
    simp [Format.exponentBias]
    omega
  unfold UnpackedFloat.pack
  dsimp only
  rw [hplace, if_neg (by simp; omega)]
  by_cases hm : m < 2 ^ 52
  · have hlog : m.log2 < 52 := (Nat.log2_lt h.pos.ne').mpr hm
    rw [if_neg (by simp [mantissaBits_binary64]; omega), if_pos hm]
  · have hlog : m.log2 = 52 := by
      have hge : 52 ≤ m.log2 := (Nat.le_log2 h.pos.ne').mpr (by omega)
      have hlt : m.log2 < 53 := (Nat.log2_lt h.pos.ne').mpr h.lt
      omega
    rw [if_pos (by simp [mantissaBits_binary64, hlog]), if_neg hm]

theorem pack_of_fields {sign : Sign} {m : ℕ} {e : ℤ} (h : Fields b sign m e) (hm : 0 < m) :
    UnpackedFloat.pack Format.binary64 (.finite sign m e hm) = b := by
  have hmantissa : (unpackMantissa b).toNat < 2 ^ 52 := (unpackMantissa b).isLt
  have hexponent := h.exponent
  have hplace := h.place
  have hwhole := h.mantissa
  have hbits : BitVec.ofNat 52 m = unpackMantissa b := by
    apply BitVec.eq_of_toNat_eq
    rw [BitVec.toNat_ofNat]
    split at hwhole <;> omega
  have hplaceBits : (if m < 2 ^ 52 then 0#11 else BitVec.ofNat 11 (e + 1075).toNat) =
      unpackExponent b := by
    apply BitVec.eq_of_toNat_eq
    split at hwhole
    · next hzero =>
      rw [if_pos (by omega), hzero]
      rfl
    · rw [if_neg (by omega), BitVec.toNat_ofNat]
      omega
  rw [pack_canonical sign (h.canonical b hm), hbits, hplaceBits, h.sign, packComponents_unpack]

/-- The bits of the doubles that are not numbers of their own. -/
theorem bits_of_unpack (b : Bits) : match UnpackedFloat.unpack Format.binary64 b with
    | .infinity sign => packedInfinity Format.binary64 sign = b
    | .notANumber => unpackExponent b = -1#_ ∧ unpackMantissa b ≠ 0#_
    | .zero sign => packedZero Format.binary64 sign = b
    | .finite .. => True := by
  have hparts := packComponents_unpack b
  unfold UnpackedFloat.unpack
  dsimp only
  by_cases hmax : unpackExponent b = -1#_
  · rw [if_pos hmax]
    by_cases hzero : unpackMantissa b = 0#_
    · rw [if_pos hzero]
      rw [hmax, hzero] at hparts
      exact hparts
    · rw [if_neg hzero]
      exact ⟨hmax, hzero⟩
  · rw [if_neg hmax]
    by_cases hleast : unpackExponent b = 0#_
    · rw [if_pos hleast]
      by_cases hzero : unpackMantissa b = 0#_
      · rw [dif_pos hzero]
        rw [hleast, hzero] at hparts
        exact hparts
      · rw [dif_neg hzero]
        trivial
    · rw [if_neg hleast]
      trivial

/-- A double is what its bits unpack to. -/
theorem pack_unpack (x : Float.Model) : Float.Model.pack x.unpack = x := by
  obtain ⟨bits, hvalid⟩ := x
  suffices h : UnpackedFloat.pack Format.binary64
      (UnpackedFloat.unpack Format.binary64 bits.toBitVec) = bits.toBitVec by
    rw [Float.Model.pack, Float.Model.unpack, Float.Model.mk.injEq]
    exact UInt64.toBitVec_inj.mp h
  have hbits := bits_of_unpack bits.toBitVec
  cases hunpack : UnpackedFloat.unpack Format.binary64 bits.toBitVec with
  | finite sign m e hm => exact pack_of_fields (fields_of_unpack _ hunpack) hm
  | infinity sign =>
    rw [hunpack] at hbits
    exact hbits
  | notANumber =>
    rw [hunpack] at hbits
    exact (hvalid.eq_packedNaN hbits.1 hbits.2).symm
  | zero sign =>
    rw [hunpack] at hbits
    exact hbits

@[simp] theorem unpackSign_packComponents (sign : Sign) (e : BitVec 11) (m : BitVec 52) :
    Sign.ofBitVec (unpackSign (packComponents Format.binary64 sign e m)) = sign := by
  have hsign : unpackSign (packComponents Format.binary64 sign e m) = sign.toBitVec := by
    apply BitVec.eq_of_toNat_eq
    rw [toNat_unpackSign, toNat_packComponents]
    have he : e.toNat < 2 ^ 11 := e.isLt
    have hm : m.toNat < 2 ^ 52 := m.isLt
    have hs : sign.toBitVec.toNat < 2 := sign.toBitVec.isLt
    omega
  rw [hsign]
  cases sign <;> rfl

/-- Bits with the fields of a finite double unpack to it. -/
theorem unpack_of_fields {sign : Sign} {m : ℕ} {e : ℤ} (h : Fields b sign m e) (hm : 0 < m) :
    UnpackedFloat.unpack Format.binary64 b = .finite sign m e hm := by
  have hexponent := h.exponent
  have hwhole := h.mantissa
  have hbits := bits_of_unpack b
  cases hunpack : UnpackedFloat.unpack Format.binary64 b with
  | finite sign' m' e' hm' =>
    have hfields := fields_of_unpack b hunpack
    obtain rfl := hfields.sign.trans h.sign.symm
    obtain rfl := hfields.mantissa.trans h.mantissa.symm
    obtain rfl := hfields.place.trans h.place.symm
    rfl
  | infinity sign' =>
    rw [hunpack] at hbits
    rw [← hbits, packedInfinity, unpackExponent_packComponents] at hexponent
    exact absurd hexponent (by decide)
  | notANumber =>
    rw [hunpack] at hbits
    rw [hbits.1] at hexponent
    exact absurd hexponent (by decide)
  | zero sign' =>
    rw [hunpack] at hbits
    rw [← hbits, packedZero, unpackExponent_packComponents, unpackMantissa_packComponents]
      at hwhole
    exact absurd hwhole hm.ne'

/-- A canonical double is what it unpacks to. -/
theorem unpack_pack_canonical {m : ℕ} {e : ℤ} (sign : Sign) (h : Canonical m e) :
    (Float.Model.pack (.finite sign m e h.pos)).unpack = .finite sign m e h.pos := by
  have hlow := h.low
  have hhigh := h.high
  have hlt := h.lt
  have hnormal := h.normal
  have hexponent : (if m < 2 ^ 52 then 0#11 else BitVec.ofNat 11 (e + 1075).toNat).toNat =
      if m < 2 ^ 52 then 0 else (e + 1075).toNat := by
    split
    · rfl
    · rw [BitVec.toNat_ofNat]
      omega
  have hmantissa : (BitVec.ofNat 52 m).toNat = m % 2 ^ 52 := BitVec.toNat_ofNat ..
  change UnpackedFloat.unpack Format.binary64
    (UnpackedFloat.pack Format.binary64 (.finite sign m e h.pos)) = _
  rw [pack_canonical sign h]
  refine unpack_of_fields ?_ h.pos
  refine ⟨(unpackSign_packComponents sign _ _).symm, ?_, ?_, ?_⟩
  · rw [unpackExponent_packComponents, hexponent]
    split <;> omega
  · rw [unpackExponent_packComponents, hexponent, unpackMantissa_packComponents, hmantissa]
    split <;> split <;> omega
  · rw [unpackExponent_packComponents, hexponent]
    split <;> omega

/-! ### Signs and magnitudes -/

abbrev bitsOf (word : UInt64) : Bits := word.toBitVec

variable {word : UInt64}

theorem toNat_fraction :
    (word &&& 0xFFFFFFFFFFFFF).toNat = (unpackMantissa (bitsOf word)).toNat := by
  rw [toNat_unpackMantissa, UInt64.toNat_and]
  exact Nat.and_two_pow_sub_one_eq_mod _ 52

theorem toNat_biased :
    ((word >>> 52) &&& 0x7FF).toNat = (unpackExponent (bitsOf word)).toNat := by
  rw [toNat_unpackExponent, UInt64.toNat_and, UInt64.toNat_shiftRight]
  change word.toNat >>> 52 &&& 2 ^ 11 - 1 = _
  rw [Nat.and_two_pow_sub_one_eq_mod, Nat.shiftRight_eq_div_pow]
  rfl

/-- The magnitude that is read off the bits of a finite double. -/
theorem binary_of_fields {sign : Sign} {m : ℕ} {e : ℤ} (h : Fields (bitsOf word) sign m e) :
    Binary.ofBits word = ⟨m, e, decide (m = 2 ^ 52)⟩ := by
  have hmantissa : (unpackMantissa (bitsOf word)).toNat < 2 ^ 52 :=
    (unpackMantissa (bitsOf word)).isLt
  have hwhole := h.mantissa
  have hplace := h.place
  rw [Binary.ofBits, toNat_fraction, toNat_biased]
  dsimp only
  split
  · next hzero =>
    rw [if_pos hzero] at hwhole
    have hne : m ≠ 2 ^ 52 := by omega
    rw [decide_eq_false hne, Binary.mk.injEq]
    exact ⟨by omega, by omega, rfl⟩
  · next hnormal =>
    rw [if_neg hnormal] at hwhole
    rw [Binary.mk.injEq, decide_eq_decide]
    exact ⟨by simp; omega, by omega, by omega⟩

theorem mantissa_packedZero {sign : Sign} (h : packedZero Format.binary64 sign = bitsOf word) :
    (Binary.ofBits word).mantissa = 0 := by
  rw [Binary.ofBits, toNat_fraction, toNat_biased, ← h, packedZero,
    unpackExponent_packComponents, unpackMantissa_packComponents]
  rfl

theorem isNegative_iff (x : Float) :
    isNegative x = true ↔ Sign.ofBitVec (unpackSign (bitsOf x.toBits)) = .negative := by
  have hsign : (x.toBits >>> 63).toNat = (unpackSign (bitsOf x.toBits)).toNat := by
    have hsize : x.toBits.toNat < 2 ^ 64 := x.toBits.toNat_lt
    rw [toNat_unpackSign, UInt64.toNat_shiftRight]
    change x.toBits.toNat >>> 63 = x.toBits.toNat / 2 ^ 63 % 2
    rw [Nat.shiftRight_eq_div_pow]
    omega
  rw [isNegative, beq_iff_eq, ← UInt64.toNat_inj, hsign, Sign.ofBitVec]
  have hbit : (unpackSign (bitsOf x.toBits)).toNat < 2 := (unpackSign (bitsOf x.toBits)).isLt
  split
  · next hzero =>
    rw [hzero]
    simp
  · next hone =>
    have hne : (unpackSign (bitsOf x.toBits)).toNat ≠ 0 := fun heq =>
      hone (BitVec.eq_of_toNat_eq heq)
    simp
    omega

end MetricRelay.Number
