import Mathlib.Data.Nat.Bitwise
import MetricRelay.Proofs.Text.Ascii

/-!
# Encoded text is decoded

A text is the characters that its bytes are read as. Every character is read
from the bytes it is encoded as, one case for each length; the bounds of a
second byte hold because the character is no overlong form, no surrogate and no
number beyond the last.
-/

namespace MetricRelay.Text.Utf8

theorem toNat_byte {n : ℕ} (h : n < 256) : (UInt8.ofNat n).toNat = n := by
  rw [UInt8.toNat_ofNat']
  exact Nat.mod_eq_of_lt h

/-- The lowest bits of a byte are a remainder. -/
theorem toNat_and_byte {n k : ℕ} (h : n < 256) {mask : UInt8} (hmask : mask.toNat = 2 ^ k - 1) :
    (UInt8.ofNat n &&& mask).toNat = n % 2 ^ k := by
  rw [UInt8.toNat_and, toNat_byte h, hmask, Nat.and_two_pow_sub_one_eq_mod]

theorem byte_between {n : ℕ} (h : n < 256) (low high : UInt8) :
    (low ≤ UInt8.ofNat n && UInt8.ofNat n ≤ high) = true ↔ low.toNat ≤ n ∧ n ≤ high.toNat := by
  rw [Bool.and_eq_true, decide_eq_true_eq, decide_eq_true_eq, UInt8.le_iff_toNat_le,
    UInt8.le_iff_toNat_le, toNat_byte h]

theorem isTail_byte (n : ℕ) : isTail (UInt8.ofNat (n % 64 + 128)) = true := by
  rw [isTail, byte_between (by omega)]
  simp only [UInt8.reduceToNat]
  omega

theorem payload_byte (n : ℕ) : payload (UInt8.ofNat (n % 64 + 128)) = n % 64 := by
  rw [payload, toNat_and_byte (k := 6) (by omega) rfl]
  omega

/-- A second byte within the bounds that its lead sets. -/
theorem isSecond_byte {lead second : ℕ} (hlead : lead < 256) (hsecond : 128 ≤ second ∧ second ≤ 191)
    (hlong : lead = 224 → 160 ≤ second) (hsurrogate : lead = 237 → second ≤ 159)
    (hlonger : lead = 240 → 144 ≤ second) (hlast : lead = 244 → second ≤ 143) :
    isSecond (UInt8.ofNat lead) (UInt8.ofNat second) = true := by
  have hvalue : ∀ b : UInt8, (UInt8.ofNat lead == b) = true ↔ lead = b.toNat := by
    intro b
    rw [beq_iff_eq, ← UInt8.toNat_inj, toNat_byte hlead]
  rw [isSecond, byte_between (by omega)]
  simp only [secondBounds, hvalue]
  split_ifs <;> simp only [UInt8.reduceToNat] at * <;> omega

/-! ### Characters -/

theorem not_ascii_byte {n : ℕ} (h : n < 256) (hhigh : 128 ≤ n) : ¬ UInt8.ofNat n < 0x80 := by
  rw [UInt8.lt_iff_toNat_lt, toNat_byte h]
  simp only [UInt8.reduceToNat]
  omega

theorem head_two {c : Char} (hlow : 0x80 ≤ c.toNat) (hhigh : c.toNat < 0x800) (rest : Bytes) :
    head (UInt8.ofNat (c.toNat / 64 + 192)) (UInt8.ofNat (c.toNat % 64 + 128) :: rest) =
      .char c rest := by
  have hlead : c.toNat / 64 + 192 < 256 := by omega
  have hbits : (UInt8.ofNat (c.toNat / 64 + 192) &&& 0x1F).toNat = c.toNat / 64 := by
    rw [toNat_and_byte (k := 5) hlead rfl]
    omega
  have hnumber : c.toNat / 64 * 64 + c.toNat % 64 = c.toNat := by omega
  have hrange := (byte_between hlead 0xC2 0xDF).mpr (by simp only [UInt8.reduceToNat]; omega)
  rw [head.eq_def, if_neg (not_ascii_byte hlead (by omega)), if_pos hrange]
  simp only [isTail_byte, if_true, payload_byte, hbits, hnumber, Char.ofNat_toNat]

theorem head_three {c : Char} (hlow : 0x800 ≤ c.toNat) (hhigh : c.toNat < 0x10000)
    (hsurrogate : c.toNat < 0xD800 ∨ 0xE000 ≤ c.toNat) (rest : Bytes) :
    head (UInt8.ofNat (c.toNat / 4096 + 224)) (UInt8.ofNat (c.toNat / 64 % 64 + 128) ::
      UInt8.ofNat (c.toNat % 64 + 128) :: rest) = .char c rest := by
  have hlead : c.toNat / 4096 + 224 < 256 := by omega
  have hbits : (UInt8.ofNat (c.toNat / 4096 + 224) &&& 0x0F).toNat = c.toNat / 4096 := by
    rw [toNat_and_byte (k := 4) hlead rfl]
    omega
  have hnumber : (c.toNat / 4096 * 64 + c.toNat / 64 % 64) * 64 + c.toNat % 64 = c.toNat := by
    omega
  have hsecond : isSecond (UInt8.ofNat (c.toNat / 4096 + 224))
      (UInt8.ofNat (c.toNat / 64 % 64 + 128)) = true :=
    isSecond_byte hlead (by omega) (by omega) (by omega) (by omega) (by omega)
  have htwo : ¬ (0xC2 ≤ UInt8.ofNat (c.toNat / 4096 + 224) &&
      UInt8.ofNat (c.toNat / 4096 + 224) ≤ 0xDF) = true := by
    rw [byte_between hlead]
    simp only [UInt8.reduceToNat]
    omega
  have hrange := (byte_between hlead 0xE0 0xEF).mpr (by simp only [UInt8.reduceToNat]; omega)
  rw [head.eq_def, if_neg (not_ascii_byte hlead (by omega)), if_neg htwo, if_pos hrange]
  simp only [hsecond, isTail_byte, if_true, payload_byte, hbits, hnumber, Char.ofNat_toNat]

theorem head_four {c : Char} (hlow : 0x10000 ≤ c.toNat) (hhigh : c.toNat ≤ 0x10FFFF)
    (rest : Bytes) :
    head (UInt8.ofNat (c.toNat / 262144 + 240)) (UInt8.ofNat (c.toNat / 4096 % 64 + 128) ::
      UInt8.ofNat (c.toNat / 64 % 64 + 128) :: UInt8.ofNat (c.toNat % 64 + 128) :: rest) =
        .char c rest := by
  have hlead : c.toNat / 262144 + 240 < 256 := by omega
  have hbits : (UInt8.ofNat (c.toNat / 262144 + 240) &&& 0x07).toNat = c.toNat / 262144 := by
    rw [toNat_and_byte (k := 3) hlead rfl]
    omega
  have hnumber : ((c.toNat / 262144 * 64 + c.toNat / 4096 % 64) * 64 + c.toNat / 64 % 64) * 64 +
      c.toNat % 64 = c.toNat := by omega
  have hsecond : isSecond (UInt8.ofNat (c.toNat / 262144 + 240))
      (UInt8.ofNat (c.toNat / 4096 % 64 + 128)) = true :=
    isSecond_byte hlead (by omega) (by omega) (by omega) (by omega) (by omega)
  have htwo : ¬ (0xC2 ≤ UInt8.ofNat (c.toNat / 262144 + 240) &&
      UInt8.ofNat (c.toNat / 262144 + 240) ≤ 0xDF) = true := by
    rw [byte_between hlead]
    simp only [UInt8.reduceToNat]
    omega
  have hthree : ¬ (0xE0 ≤ UInt8.ofNat (c.toNat / 262144 + 240) &&
      UInt8.ofNat (c.toNat / 262144 + 240) ≤ 0xEF) = true := by
    rw [byte_between hlead]
    simp only [UInt8.reduceToNat]
    omega
  have hrange := (byte_between hlead 0xF0 0xF4).mpr (by simp only [UInt8.reduceToNat]; omega)
  rw [head.eq_def, if_neg (not_ascii_byte hlead (by omega)), if_neg htwo, if_neg hthree,
    if_pos hrange]
  simp only [hsecond, isTail_byte, if_true, payload_byte, hbits, hnumber, Char.ofNat_toNat]

/-- The first character of a text is read from the bytes it is encoded as. -/
theorem head_encoded (c : Char) (rest : Bytes) : ∃ b bs, String.utf8EncodeChar c = b :: bs ∧
    head b (bs ++ rest) = .char c rest := by
  have hvalid : c.toNat < 0xD800 ∨ 0xE000 ≤ c.toNat ∧ c.toNat ≤ 0x10FFFF := by
    have hrange := c.valid
    change c.toNat < 0xD800 ∨ 0xDFFF < c.toNat ∧ c.toNat < 0x110000 at hrange
    omega
  have hvalue : c.val.toNat = c.toNat := rfl
  rw [String.utf8EncodeChar, hvalue]
  split_ifs with hone htwo hthree
  · exact ⟨_, _, rfl, head_ascii (by omega) rest⟩
  · refine ⟨_, _, rfl, ?_⟩
    rw [Nat.mod_eq_of_lt (by omega)]
    exact head_two (by omega) (by omega) rest
  · refine ⟨_, _, rfl, ?_⟩
    rw [Nat.mod_eq_of_lt (by omega)]
    exact head_three (by omega) (by omega) (by omega) rest
  · refine ⟨_, _, rfl, ?_⟩
    rw [Nat.mod_eq_of_lt (by omega)]
    exact head_four (by omega) (by omega) rest

/-! ### Texts -/

/-- The list of an array is collected from the front. -/
theorem toList_loop (bytes : ByteArray) (i : ℕ) (read : Bytes) :
    ByteArray.toList.loop bytes i read = read.reverse ++ bytes.data.toList.drop i := by
  fun_induction ByteArray.toList.loop bytes i read with
  | case1 i read hlt ih =>
    have hin : i < bytes.data.toList.length := by simpa using hlt
    rw [ih, List.drop_eq_getElem_cons hin]
    simp [ByteArray.get!, hlt]
  | case2 i read hend =>
    rw [List.drop_eq_nil_of_le (by simpa using Nat.le_of_not_lt hend), List.append_nil]

theorem encode_eq (s : String) : encode s = s.toList.flatMap String.utf8EncodeChar := by
  have hbytes : s.toByteArray = (s.toList.flatMap String.utf8EncodeChar).toByteArray := by
    conv_lhs => rw [← String.ofList_toList (s := s), String.toByteArray_ofList]
    rfl
  rw [encode, String.toUTF8_eq_toByteArray, hbytes, ByteArray.toList, toList_loop,
    List.toList_data_toByteArray]
  rfl

theorem decodeFrom_encoded (cs : List Char) (index : ℕ) :
    decodeFrom index (cs.flatMap String.utf8EncodeChar) = .ok cs := by
  induction cs generalizing index with
  | nil => simp [decodeFrom]
  | cons c cs ih =>
    obtain ⟨b, bs, hbytes, hhead⟩ := head_encoded c (cs.flatMap String.utf8EncodeChar)
    rw [List.flatMap_cons, hbytes, List.cons_append, decodeFrom]
    split
    · next d rest hchar =>
      rw [hhead] at hchar
      cases hchar
      rw [ih]
      rfl
    · next hinvalid =>
      rw [hhead] at hinvalid
      cases hinvalid
    · next hcut =>
      rw [hhead] at hcut
      cases hcut

/-- Decoding undoes encoding. -/
theorem decode_encode (s : String) : decode (encode s) = .ok s.toList := by
  rw [encode_eq, decode, decodeFrom_encoded]

end MetricRelay.Text.Utf8
