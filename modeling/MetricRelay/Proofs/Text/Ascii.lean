import MetricRelay.Text.Utf8

/-!
# Plain bytes

Bytes below 128 are the characters of their numbers.
-/

namespace MetricRelay.Text.Utf8

def ascii (cs : List Char) : Bytes := cs.map fun c => UInt8.ofNat c.toNat

theorem head_ascii {c : Char} (h : c.toNat < 128) (rest : Bytes) :
    head (UInt8.ofNat c.toNat) rest = .char c rest := by
  have hnat : (UInt8.ofNat c.toNat).toNat = c.toNat := by
    rw [UInt8.toNat_ofNat']
    exact Nat.mod_eq_of_lt (by omega)
  have hsmall : UInt8.ofNat c.toNat < 0x80 := by
    rw [UInt8.lt_iff_toNat_lt, hnat]
    exact h
  rw [head.eq_def, if_pos hsmall, hnat, Char.ofNat_toNat]

theorem decodeFrom_ascii {cs : List Char} (h : ∀ c ∈ cs, c.toNat < 128) (index : Nat) :
    decodeFrom index (ascii cs) = .ok cs := by
  induction cs generalizing index with
  | nil => simp [ascii, decodeFrom]
  | cons c cs ih =>
    have hhead := head_ascii (h c List.mem_cons_self) (ascii cs)
    have htail := ih (fun d hd => h d (List.mem_cons_of_mem c hd)) (index + c.utf8Size)
    change decodeFrom index (UInt8.ofNat c.toNat :: ascii cs) = _
    rw [decodeFrom]
    split
    · next d rest hchar =>
      rw [hhead] at hchar
      cases hchar
      rw [htail]
      rfl
    · next hinvalid =>
      rw [hhead] at hinvalid
      cases hinvalid
    · next hcut =>
      rw [hhead] at hcut
      cases hcut

theorem decode_ascii {cs : List Char} (h : cs.all (·.toNat < 128) = true) :
    decode (ascii cs) = .ok cs :=
  decodeFrom_ascii (fun c hc => of_decide_eq_true (List.all_eq_true.mp h c hc)) 0

end MetricRelay.Text.Utf8
