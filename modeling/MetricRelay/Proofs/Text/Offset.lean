import MetricRelay.Proofs.Text.Cuts
import MetricRelay.Text.Offset

/-!
# Cuts at offsets

A text can be cut at an offset exactly if the offset is the length of some front of it,
and a search finds such an offset: that of the front before the character it found.
-/

namespace MetricRelay.Text

theorem byteLength_cons (c : Char) (cs : List Char) :
    byteLength (c :: cs) = c.utf8Size + byteLength cs := rfl

theorem byteLength_append (front rest : List Char) :
    byteLength (front ++ rest) = byteLength front + byteLength rest := by
  induction front with
  | nil => exact (Nat.zero_add _).symm
  | cons c front ih => rw [List.cons_append, byteLength_cons, byteLength_cons, ih, Nat.add_assoc]

/-- A longer text takes more bytes. -/
theorem length_le_byteLength (cs : List Char) : cs.length ≤ byteLength cs := by
  induction cs with
  | nil => exact Nat.le_refl 0
  | cons c cs ih =>
    have hc := c.utf8Size_pos
    simp only [List.length_cons, byteLength_cons]
    omega

theorem byteLength_lt_of_suffix {cs ds : List Char} (h : cs <:+ ds) (hlt : cs.length < ds.length) :
    byteLength cs < byteLength ds := by
  obtain ⟨front, rfl⟩ := h
  have hfront := length_le_byteLength front
  rw [List.length_append] at hlt
  rw [byteLength_append]
  omega

/-! ### Where a text can be cut -/

theorem splitAtByte?_append (front rest : List Char) :
    splitAtByte? (byteLength front) (front ++ rest) = some (front, rest) := by
  induction front with
  | nil => cases rest <;> rfl
  | cons c front ih =>
    obtain ⟨n, hn⟩ : ∃ n, byteLength (c :: front) = n + 1 := by
      have hc := c.utf8Size_pos
      exact ⟨byteLength (c :: front) - 1, by rw [byteLength_cons]; omega⟩
    have hleft : n + 1 - c.utf8Size = byteLength front := by
      rw [← hn, byteLength_cons]
      omega
    have hfits : c.utf8Size ≤ n + 1 := by
      rw [← hn, byteLength_cons]
      omega
    rw [hn, List.cons_append, splitAtByte?, if_pos hfits, hleft, ih]
    rfl

theorem splitAtByte?_eq_some_iff {n : ℕ} {cs front rest : List Char} :
    splitAtByte? n cs = some (front, rest) ↔ cs = front ++ rest ∧ n = byteLength front := by
  constructor
  · intro h
    fun_induction splitAtByte? n cs generalizing front with
    | case1 cs =>
      cases h
      exact ⟨rfl, rfl⟩
    | case2 => cases h
    | case3 n c cs hfits ih =>
      obtain ⟨⟨front, rest⟩, htail, hcons⟩ := Option.map_eq_some_iff.mp h
      cases hcons
      obtain ⟨rfl, hn⟩ := ih htail
      refine ⟨rfl, ?_⟩
      rw [byteLength_cons]
      omega
    | case4 => cases h
  · rintro ⟨rfl, rfl⟩
    exact splitAtByte?_append front rest

theorem utf8ByteSize_ofList (cs : List Char) :
    (String.ofList cs).utf8ByteSize = byteLength cs := by
  induction cs with
  | nil => rfl
  | cons c cs ih =>
    rw [String.ofList_cons, String.utf8ByteSize_append, ih, byteLength_cons]
    simp

/-- There is no cut inside a character and none past the end. -/
theorem splitAtByte?_eq_none_iff {n : ℕ} {cs : List Char} :
    splitAtByte? n cs = none ↔ ¬ String.Pos.Raw.IsValid (String.ofList cs) ⟨n⟩ := by
  rw [Option.eq_none_iff_forall_not_mem, String.Pos.Raw.isValid_iff_exists_append, ← not_exists,
    not_iff_not]
  constructor
  · rintro ⟨⟨front, rest⟩, hcut⟩
    obtain ⟨rfl, rfl⟩ := splitAtByte?_eq_some_iff.mp hcut
    refine ⟨String.ofList front, String.ofList rest, String.ofList_append, ?_⟩
    rw [← utf8ByteSize_ofList]
    rfl
  · rintro ⟨front, rest, hcs, hn⟩
    have hn : n = byteLength front.toList := by
      rw [← utf8ByteSize_ofList, String.ofList_toList]
      exact congrArg String.Pos.Raw.byteIdx hn
    have hcs : cs = front.toList ++ rest.toList := by
      rw [← String.toList_append, ← hcs, String.toList_ofList]
    exact ⟨_, splitAtByte?_eq_some_iff.mpr ⟨hcs, hn⟩⟩

/-! ### What a search finds -/

theorem upTo?_append (front rest : List Char) :
    upTo? (byteLength front) (front ++ rest) = some front := by
  rw [upTo?, splitAtByte?_append]
  rfl

theorem startingAt?_append (front rest : List Char) :
    startingAt? (byteLength front) (front ++ rest) = some rest := by
  rw [startingAt?, splitAtByte?_append]
  rfl

/-- One byte on from a character of one byte is the text after it. -/
theorem startingAt?_next {c : Char} (hc : c.utf8Size = 1) (front rest : List Char) :
    startingAt? (byteLength front + 1) (front ++ c :: rest) = some rest := by
  have hnext : byteLength front + 1 = byteLength (front ++ [c]) := by
    rw [byteLength_append, byteLength_cons, hc]
    rfl
  have hafter := startingAt?_append (front ++ [c]) rest
  rwa [List.append_assoc, List.singleton_append, ← hnext] at hafter

theorem offsetOf?_append {p : Char → Bool} {c : Char} {front : List Char}
    (hfront : ∀ x ∈ front, p x = false) (hc : p c = true) (rest : List Char) :
    offsetOf? p (front ++ c :: rest) = some (byteLength front) := by
  induction front with
  | nil => simp [offsetOf?, hc, byteLength]
  | cons x front ih =>
    have htail := ih fun y hy => hfront y (List.mem_cons_of_mem x hy)
    rw [List.cons_append, offsetOf?, if_neg (by simp [hfront x]), htail]
    rfl

theorem offsetOf?_eq_none {p : Char → Bool} {cs : List Char} (h : ∀ x ∈ cs, p x = false) :
    offsetOf? p cs = none := by
  induction cs with
  | nil => rfl
  | cons x cs ih =>
    rw [offsetOf?, if_neg (by simp [h x]), ih fun y hy => h y (List.mem_cons_of_mem x hy)]
    rfl

end MetricRelay.Text
