import MetricRelay.Proofs.Number.Shortest
import MetricRelay.Proofs.Number.Written

/-!
# Doubles read back

The text of a double has the digits of a decimal that the double owns, and the
reader finds the double that owns a decimal.
-/

namespace MetricRelay.Number

open Float.Model Float.Model.UnpackedFloat

/-! ### Texts of decimals -/

theorem isDigit_zeros (k : ℕ) : ∀ c ∈ zeros k, isDigit c = true := by
  intro c hc
  obtain rfl := (List.mem_replicate.mp hc).2
  decide

theorem ofDigits_zeros (acc k : ℕ) : ofDigits acc (zeros k) = acc * 10 ^ k := by
  induction k generalizing acc with
  | zero => simp [zeros, ofDigits]
  | succ k ih =>
    have hstep : ofDigits acc (zeros (k + 1)) = ofDigits (10 * acc + 0) (zeros k) := rfl
    rw [hstep, ih, pow_succ]
    ring

/-- Dropping zeros at the end does not change the value. -/
theorem reduce_value (fuel : ℕ) (d : Decimal) :
    ((Decimal.reduce fuel d).digits : ℚ) * 10 ^ (Decimal.reduce fuel d).exponent =
      d.digits * 10 ^ d.exponent := by
  induction fuel generalizing d with
  | zero => rfl
  | succ fuel ih =>
    rw [Decimal.reduce]
    split
    · next hzero =>
      rw [ih]
      have hdigits : (d.digits : ℚ) = (d.digits / 10 : ℕ) * 10 := by
        exact_mod_cast (Nat.div_mul_cancel (Nat.dvd_of_mod_eq_zero hzero.2)).symm
      rw [hdigits, zpow_add_one₀ (by norm_num)]
      ring
    · rfl

/-- A text of digits has no rest. -/
theorem takeWhile_digits {ws : List Char} (h : ∀ c ∈ ws, isDigit c = true) :
    ws.takeWhile isDigit = ws ∧ ws.dropWhile isDigit = [] := by
  have hnone : ∀ c, ([] : List Char).head? = some c → isDigit c = false := by simp
  have hcut := Text.takeWhile_append_stop h hnone
  rwa [List.append_nil] at hcut

theorem readDecimal?_whole {ws : List Char} (h : ∀ c ∈ ws, isDigit c = true) (hne : ws ≠ []) :
    readDecimal? ws = some (scaled (ofDigits 0 ws) 0) := by
  have hcut := takeWhile_digits h
  rw [readDecimal?, hcut.1, hcut.2]
  simp [hne]

theorem readDecimal?_point {ws fs : List Char} (h : ∀ c ∈ ws, isDigit c = true)
    (hf : ∀ c ∈ fs, isDigit c = true) (hne : ws ≠ []) :
    readDecimal? (ws ++ '.' :: fs) = some (scaled (ofDigits 0 (ws ++ fs)) (-fs.length)) := by
  have hpoint : ∀ c, ('.' :: fs).head? = some c → isDigit c = false := by
    intro c hc
    obtain rfl := Option.some.inj hc
    decide
  have hcut := Text.takeWhile_append_stop h hpoint
  have hfraction := takeWhile_digits hf
  rw [readDecimal?, hcut.1, hcut.2]
  simp [hne, hfraction.1, hfraction.2]

/-- The reader takes the digits and the point of a decimal for a decimal of the same value. -/
theorem readDecimal?_positional (n : ℕ) (point : ℤ) : ∃ (d : ℕ) (x : ℤ),
    readDecimal? (positional (digitsOf n) point) = some (scaled d x) ∧
      (d : ℚ) * 10 ^ x = n * 10 ^ (point - (digitsOf n).length) := by
  have hdigits : ∀ c ∈ digitsOf n, isDigit c = true := fun _ => isDigit_of_mem_digitsOf
  rw [positional]
  split
  · next hpoint =>
    have hzeros : ∀ c ∈ zeros (-point).toNat ++ digitsOf n, isDigit c = true := by
      intro c hc
      rcases List.mem_append.mp hc with hzero | hdigit
      · exact isDigit_zeros _ c hzero
      · exact hdigits c hdigit
    have hzero : ∀ c ∈ ['0'], isDigit c = true := List.all_eq_true.mp (by decide)
    have hread : readDecimal? ('0' :: '.' :: zeros (-point).toNat ++ digitsOf n) =
        some (scaled (ofDigits 0 (['0'] ++ (zeros (-point).toNat ++ digitsOf n)))
          (-(zeros (-point).toNat ++ digitsOf n).length)) :=
      readDecimal?_point hzero hzeros (by decide)
    refine ⟨_, _, hread, ?_⟩
    have hvalue : ofDigits 0 (['0'] ++ (zeros (-point).toNat ++ digitsOf n)) = n := by
      have hlead : ofDigits 0 ['0'] = 0 := rfl
      rw [ofDigits_append, ofDigits_append, hlead, ofDigits_zeros, Nat.zero_mul, ofDigits_digitsOf]
    have hplace : -((zeros (-point).toNat ++ digitsOf n).length : ℤ) =
        point - (digitsOf n).length := by
      rw [List.length_append, zeros, List.length_replicate]
      omega
    rw [hvalue, hplace]
  · next hpoint =>
    dsimp only
    split
    · next hwhole =>
      have hzeros : ∀ c ∈ digitsOf n ++ zeros (point.toNat - (digitsOf n).length),
          isDigit c = true := by
        intro c hc
        rcases List.mem_append.mp hc with hdigit | hzero
        · exact hdigits c hdigit
        · exact isDigit_zeros _ c hzero
      refine ⟨_, _, readDecimal?_whole hzeros (by simp [digitsOf_ne_nil]), ?_⟩
      have hplace : point - (digitsOf n).length = (point.toNat - (digitsOf n).length : ℕ) := by
        omega
      rw [ofDigits_append, ofDigits_digitsOf, ofDigits_zeros, hplace, zpow_natCast]
      push_cast
      ring
    · next hfraction =>
      have hne : (digitsOf n).take point.toNat ≠ [] := by
        have hlength : 0 < ((digitsOf n).take point.toNat).length := by
          rw [List.length_take]
          omega
        exact List.ne_nil_of_length_pos hlength
      refine ⟨_, _, readDecimal?_point (fun c hc => hdigits c (List.mem_of_mem_take hc))
        (fun c hc => hdigits c (List.mem_of_mem_drop hc)) hne, ?_⟩
      have hplace : -(((digitsOf n).drop point.toNat).length : ℤ) =
          point - (digitsOf n).length := by
        rw [List.length_drop]
        omega
      rw [List.take_append_drop, ofDigits_digitsOf, hplace]

/-! ### The value of a decimal -/

theorem lt_ten_pow_digits (n : ℕ) : n < 10 ^ (digitsOf n).length :=
  (Nat.length_toDigits_le_iff (by decide) Nat.length_toDigits_pos).mp (Nat.le_refl _)

theorem ten_pow_digits_le {n : ℕ} (h : n ≠ 0) : 10 ^ ((digitsOf n).length - 1) ≤ n := by
  by_contra hless
  rcases Nat.eq_zero_or_pos ((digitsOf n).length - 1) with hone | hmore
  · rw [hone] at hless
    omega
  · have hlength : (digitsOf n).length ≤ (digitsOf n).length - 1 :=
      (Nat.length_toDigits_le_iff (by decide) hmore).mpr (by omega)
    omega

/-- The size of a decimal in the range of doubles. -/
theorem size_bounds {m d : ℕ} {e x : ℤ} (hc : Canonical m e) (h : Owned m e (d * 10 ^ x)) :
    d ≠ 0 ∧ x + (digitsOf d).length ≤ 310 ∧ -330 ≤ x + (digitsOf d).length := by
  obtain ⟨hlow, hhigh⟩ := h.range hc
  have hd : d ≠ 0 := by
    rintro rfl
    rw [Nat.cast_zero, zero_mul] at hlow
    exact absurd hlow (not_le.mpr (two_zpow_pos _))
  have hbelow : ∀ a b : ℤ, (10 : ℚ) ^ a < 10 ^ b → a < b := fun a b =>
    (zpow_lt_zpow_iff_right₀ (by norm_num)).mp
  refine ⟨hd, ?_, ?_⟩
  · have hdigits : (10 : ℚ) ^ (((digitsOf d).length : ℤ) - 1) ≤ d := by
      have hlength : ((digitsOf d).length : ℤ) - 1 = ((digitsOf d).length - 1 : ℕ) := by
        have hpos : 0 < (digitsOf d).length := Nat.length_toDigits_pos
        omega
      rw [hlength, zpow_natCast]
      exact_mod_cast ten_pow_digits_le hd
    have hlimit : (2 : ℚ) ^ (1024 : ℤ) < 10 ^ (310 : ℤ) := by
      exact_mod_cast two_pow_lt (a := 310) (k := 1024) (by decide) (by decide)
    have hpower : (10 : ℚ) ^ (((digitsOf d).length : ℤ) - 1 + x) < 10 ^ (310 : ℤ) := calc
      (10 : ℚ) ^ (((digitsOf d).length : ℤ) - 1 + x) =
          10 ^ (((digitsOf d).length : ℤ) - 1) * 10 ^ x := zpow_add₀ (by norm_num) _ _
      _ ≤ d * 10 ^ x := mul_le_mul_of_nonneg_right hdigits (ten_zpow_pos x).le
      _ < 10 ^ (310 : ℤ) := hhigh.trans hlimit
    have hplace := hbelow _ _ hpower
    omega
  · have hdigits : (d : ℚ) < 10 ^ ((digitsOf d).length : ℤ) := by
      rw [zpow_natCast]
      exact_mod_cast lt_ten_pow_digits d
    have hlimit : (10 : ℚ) ^ (-331 : ℤ) < 2 ^ (-1075 : ℤ) := by
      have hpow : (2 : ℚ) ^ 1075 < 10 ^ 331 := by
        exact_mod_cast two_pow_lt (a := 331) (k := 1075) (by decide) (by decide)
      rw [zpow_neg, zpow_neg]
      exact (inv_lt_inv₀ (ten_zpow_pos 331) (two_zpow_pos 1075)).mpr (by exact_mod_cast hpow)
    have hpower : (10 : ℚ) ^ (-331 : ℤ) < 10 ^ ((digitsOf d).length + x) := calc
      (10 : ℚ) ^ (-331 : ℤ) < d * 10 ^ x := hlimit.trans_le hlow
      _ < 10 ^ ((digitsOf d).length : ℤ) * 10 ^ x :=
        mul_lt_mul_of_pos_right hdigits (ten_zpow_pos x)
      _ = 10 ^ ((digitsOf d).length + x) := (zpow_add₀ (by norm_num) _ _).symm
    have hplace := hbelow _ _ hpower
    omega

/-- A decimal that a double owns is read as the double. -/
theorem scaled_eq {m d : ℕ} {e x : ℤ} (hc : Canonical m e) (h : Owned m e (d * 10 ^ x)) :
    scaled d x = .ofModel (.pack (.finite .positive m e hc.pos)) := by
  obtain ⟨hd, hhigh, hlow⟩ := size_bounds hc h
  rw [scaled, if_neg hd, if_neg (not_lt.mpr hhigh), if_neg (not_lt.mpr hlow)]
  by_cases hneg : x < 0
  · rw [if_pos hneg]
    refine float_ofScientific true hc h hd ?_
    rw [if_pos rfl, Int.ofNat_natAbs_of_nonpos hneg.le, neg_neg]
  · rw [if_neg hneg]
    refine float_ofScientific false hc h hd ?_
    rw [if_neg (by decide), Int.natAbs_of_nonneg (not_lt.mp hneg)]

/-! ### Texts of doubles -/

def Leading (cs : List Char) : Prop := ∃ c rest, cs = c :: rest ∧ isDigit c = true

theorem leading_positional (n : ℕ) (point : ℤ) : Leading (positional (digitsOf n) point) := by
  have hdigits : ∀ c ∈ digitsOf n, isDigit c = true := fun _ => isDigit_of_mem_digitsOf
  rw [positional]
  split
  · exact ⟨'0', _, rfl, by decide⟩
  · next hpoint =>
    cases hds : digitsOf n with
    | nil => exact absurd hds (digitsOf_ne_nil n)
    | cons c cs =>
      have hc := hdigits c (by simp [hds])
      dsimp only
      split
      · exact ⟨c, _, rfl, hc⟩
      · obtain ⟨k, hk⟩ : ∃ k, point.toNat = k + 1 := ⟨point.toNat - 1, by omega⟩
        rw [hk]
        exact ⟨c, _, rfl, hc⟩

theorem toLower_of_isDigit {c : Char} (h : isDigit c = true) : c.toLower = c := by
  have hrange : c.val ≤ '9'.val := by
    rw [isDigit, Bool.and_eq_true, decide_eq_true_eq, decide_eq_true_eq] at h
    exact h.2
  refine dif_neg ?_
  rintro ⟨hupper, -⟩
  exact absurd (UInt32.le_trans hupper hrange) (by decide)

/-- A text that starts with a digit is no word. -/
theorem Leading.readMagnitude?_eq {cs : List Char} (h : Leading cs) :
    readMagnitude? cs = readDecimal? cs := by
  obtain ⟨c, rest, rfl, hc⟩ := h
  have hword : ∀ word : String, (word.toList.head?.any isDigit) = false →
      String.ofList ((c :: rest).map Char.toLower) ≠ word := by
    rintro word hhead rfl
    rw [String.toList_ofList, List.map_cons, List.head?_cons, toLower_of_isDigit hc] at hhead
    exact absurd hc (Bool.eq_false_iff.mp hhead)
  rw [readMagnitude?, if_neg (not_or.mpr ⟨hword _ (by decide), hword _ (by decide)⟩),
    if_neg (hword _ (by decide))]

theorem Leading.read?_eq {cs : List Char} (h : Leading cs) : read? cs = readDecimal? cs := by
  rw [← h.readMagnitude?_eq]
  obtain ⟨c, rest, rfl, hc⟩ := h
  rw [read?]
  · rintro r heq
    obtain rfl := (List.cons.inj heq).1
    exact absurd hc (by decide)
  · rintro r heq
    obtain rfl := (List.cons.inj heq).1
    exact absurd hc (by decide)

theorem Leading.read?_minus {cs : List Char} (h : Leading cs) :
    read? ('-' :: cs) = (readDecimal? cs).map fun x => -x := by
  rw [read?, h.readMagnitude?_eq]

variable {x : Float}

/-- The magnitude of a finite double reads back from its text. -/
theorem readDecimal?_magnitudeText {sign : Sign} {m : ℕ} {e : ℤ} {hm : 0 < m}
    (hx : x.toModel.unpack = .finite sign m e hm) : Leading (magnitudeText x) ∧
      readDecimal? (magnitudeText x) = some (.ofModel (.pack (.finite .positive m e hm))) := by
  have hfields := fields_of_unpack _ hx
  have hc := hfields.canonical _ hm
  have hbinary : Binary.ofBits x.toBits = Number.magnitude m e := binary_of_fields hfields
  have howned := owned_shortest hc .up
  rw [← reduce_value 20] at howned
  have hmantissa : (Number.magnitude m e).mantissa ≠ 0 := hm.ne'
  rw [magnitudeText, hbinary]
  dsimp only
  rw [if_neg hmantissa, Decimal.layout]
  generalize Decimal.reduce 20 ((Number.magnitude m e).shortest .up) = d at howned ⊢
  obtain ⟨n, y, hread, hvalue⟩ :=
    readDecimal?_positional d.digits (d.exponent + (digitsOf d.digits).length)
  rw [add_sub_cancel_right] at hvalue
  refine ⟨leading_positional _ _, ?_⟩
  rw [hread, scaled_eq hc (hvalue ▸ howned)]

theorem neg_pack {m : ℕ} {e : ℤ} (hc : Canonical m e) :
    -Float.ofModel (.pack (.finite .positive m e hc.pos)) =
      .ofModel (.pack (.finite .negative m e hc.pos)) := by
  change Float.ofModel (.pack (Float.Model.unpack (.pack (.finite .positive m e hc.pos))).neg) = _
  rw [unpack_pack_canonical .positive hc]
  rfl

theorem eq_ofModel (x : Float) : x = .ofModel (.pack x.toModel.unpack) := by
  rw [pack_unpack]

theorem isNegative_of_packed {sign : Sign} {e : BitVec 11} {m : BitVec 52}
    (h : packComponents Format.binary64 sign e m = bitsOf x.toBits) :
    isNegative x = true ↔ sign = .negative := by
  rw [isNegative_iff, ← h, unpackSign_packComponents]

/-- The text of a finite double is that of its magnitude after a sign. -/
theorem read?_signed {y : Float} (hnan : x.isNaN = false) (hinf : x.isInf = false)
    (hlead : Leading (magnitudeText x)) (hread : readDecimal? (magnitudeText x) = some y) :
    read? (valueText x).toList = some (if isNegative x then -y else y) := by
  rw [valueText, if_neg (Bool.eq_false_iff.mp hinf), plainText, if_neg (Bool.eq_false_iff.mp hnan)]
  dsimp only
  rw [if_neg (Bool.eq_false_iff.mp hinf), String.toList_append, String.toList_ofList]
  cases isNegative x with
  | true =>
    change read? ('-' :: magnitudeText x) = some (-y)
    rw [hlead.read?_minus, hread]
    rfl
  | false =>
    change read? (magnitudeText x) = some y
    rw [hlead.read?_eq, hread]

/-! ### The four kinds of doubles -/

/-- What the bits of a double are, by its kind. -/
theorem bits_of_double (x : Float) : match x.toModel.unpack with
    | .infinity sign => packedInfinity Format.binary64 sign = bitsOf x.toBits
    | .notANumber => True
    | .zero sign => packedZero Format.binary64 sign = bitsOf x.toBits
    | .finite sign m e _ => Fields (bitsOf x.toBits) sign m e := by
  have hbits := bits_of_unpack (bitsOf x.toBits)
  have hsame : UnpackedFloat.unpack Format.binary64 (bitsOf x.toBits) = x.toModel.unpack := rfl
  cases hunpack : x.toModel.unpack with
  | notANumber => trivial
  | infinity sign =>
    rw [hsame, hunpack] at hbits
    exact hbits
  | zero sign =>
    rw [hsame, hunpack] at hbits
    exact hbits
  | finite sign m e hm => exact fields_of_unpack _ (hsame.trans hunpack)

theorem read?_notANumber (h : x.toModel.unpack = .notANumber) :
    read? (valueText x).toList = some x := by
  have hnan : x.isNaN = true := congrArg UnpackedFloat.isNaN h
  have hinf : x.isInf = false := congrArg UnpackedFloat.isInf h
  have hread : read? "NaN".toList = some (.ofModel (.pack .notANumber)) := by decide +kernel
  rw [valueText, if_neg (Bool.eq_false_iff.mp hinf), plainText, if_pos hnan, hread, ← h,
    ← eq_ofModel]

theorem read?_infinity {sign : Sign} (h : x.toModel.unpack = .infinity sign) :
    read? (valueText x).toList = some x := by
  have hinf : x.isInf = true := congrArg UnpackedFloat.isInf h
  have hbits := bits_of_double x
  rw [h] at hbits
  have hsign := isNegative_of_packed hbits
  cases sign with
  | negative =>
    have hread : read? "-Inf".toList = some (.ofModel (.pack (.infinity .negative))) := by
      decide +kernel
    rw [valueText, if_pos hinf, if_pos (hsign.mpr rfl), hread, ← h, ← eq_ofModel]
  | positive =>
    have hread : read? "+Inf".toList = some (.ofModel (.pack (.infinity .positive))) := by
      decide +kernel
    rw [valueText, if_pos hinf, if_neg (mt hsign.mp Sign.noConfusion), hread, ← h, ← eq_ofModel]

theorem read?_zero {sign : Sign} (h : x.toModel.unpack = .zero sign) :
    read? (valueText x).toList = some x := by
  have hnan : x.isNaN = false := congrArg UnpackedFloat.isNaN h
  have hinf : x.isInf = false := congrArg UnpackedFloat.isInf h
  have hbits := bits_of_double x
  rw [h] at hbits
  have hsign := isNegative_of_packed hbits
  have htext : magnitudeText x = ['0'] := by
    rw [magnitudeText]
    dsimp only
    rw [if_pos (mantissa_packedZero hbits)]
  have hread : readDecimal? (magnitudeText x) = some (.ofModel (.pack (.zero .positive))) := by
    rw [htext]
    decide +kernel
  rw [read?_signed hnan hinf (htext ▸ ⟨'0', [], rfl, by decide⟩) hread]
  cases sign with
  | negative =>
    have hneg : -Float.ofModel (.pack (.zero .positive)) = .ofModel (.pack (.zero .negative)) := by
      decide +kernel
    rw [if_pos (hsign.mpr rfl), hneg, ← h, ← eq_ofModel]
  | positive => rw [if_neg (mt hsign.mp Sign.noConfusion), ← h, ← eq_ofModel]

theorem read?_finite {sign : Sign} {m : ℕ} {e : ℤ} {hm : 0 < m}
    (h : x.toModel.unpack = .finite sign m e hm) : read? (valueText x).toList = some x := by
  have hnan : x.isNaN = false := congrArg UnpackedFloat.isNaN h
  have hinf : x.isInf = false := congrArg UnpackedFloat.isInf h
  have hfields := bits_of_double x
  rw [h] at hfields
  have hc := hfields.canonical _ hm
  obtain ⟨hlead, hread⟩ := readDecimal?_magnitudeText h
  have hsign : isNegative x = true ↔ sign = .negative := by rw [isNegative_iff, hfields.sign]
  rw [read?_signed hnan hinf hlead hread]
  cases sign with
  | negative => rw [if_pos (hsign.mpr rfl), neg_pack hc, ← h, ← eq_ofModel]
  | positive => rw [if_neg (mt hsign.mp Sign.noConfusion), ← h, ← eq_ofModel]

/-- Every double reads back from its text. -/
theorem read?_valueText (x : Float) : read? (valueText x).toList = some x := by
  cases hunpack : x.toModel.unpack with
  | notANumber => exact read?_notANumber hunpack
  | infinity sign => exact read?_infinity hunpack
  | zero sign => exact read?_zero hunpack
  | finite sign m e hm => exact read?_finite hunpack

/-- Different doubles have different texts. -/
theorem valueText_injective : Function.Injective valueText := by
  intro x y h
  have hread := read?_valueText x
  rw [h, read?_valueText y] at hread
  exact (Option.some.inj hread).symm

end MetricRelay.Number
