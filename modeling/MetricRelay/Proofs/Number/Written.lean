import Mathlib.Data.Nat.Init
import MetricRelay.Number.Real
import MetricRelay.Proofs.Text.Cuts

/-!
# Written numbers

Whole numbers read back from their digits, and no written number holds a
blank, so it stands as one word of a line.
-/

namespace MetricRelay.Number

open Text (Solid isBlank)

theorem isDigit_of_mem_digitsOf {n : Nat} {c : Char} (h : c ∈ digitsOf n) :
    isDigit c = true := by
  have hdigit := Nat.isDigit_of_mem_toDigits (by decide) (by decide) h
  simpa [Char.isDigit, isDigit, Char.le_def] using hdigit

theorem not_blank_of_isDigit {c : Char} (h : isDigit c = true) : isBlank c = false := by
  have hrange : 48 ≤ c.toNat ∧ c.toNat ≤ 57 := by
    simp only [isDigit, Bool.and_eq_true, decide_eq_true_eq, Char.le_def,
      UInt32.le_iff_toNat_le] at h
    exact h
  have hno : ¬ isBlank c = true := by
    simp only [isBlank, Bool.or_eq_true, Bool.and_eq_true, decide_eq_true_eq, beq_iff_eq]
    omega
  simpa using hno

theorem solid_digitsOf (n : Nat) : Solid (digitsOf n) :=
  fun _ hc => not_blank_of_isDigit (isDigit_of_mem_digitsOf hc)

theorem digitsOf_ne_nil (n : Nat) : digitsOf n ≠ [] := Nat.toDigits_ne_nil

theorem digitValue_digitChar {d : Nat} (h : d < 10) : digitValue d.digitChar = d := by
  have hall : ∀ k : Fin 10, digitValue (Nat.digitChar k.val) = k.val := by decide
  exact hall ⟨d, h⟩

theorem ofDigits_append (acc : Nat) (cs ds : List Char) :
    ofDigits acc (cs ++ ds) = ofDigits (ofDigits acc cs) ds := by
  simp [ofDigits]

theorem ofDigits_digitsOf (n : Nat) : ofDigits 0 (digitsOf n) = n := by
  induction n using Nat.strongRecOn with
  | _ n ih =>
    rw [digitsOf, Nat.toDigits_eq_if (by decide)]
    by_cases h : n < 10
    · rw [if_pos h]
      simp [ofDigits, digitValue_digitChar h]
    · have hdiv := ih (n / 10) (Nat.div_lt_self (by omega) (by decide))
      rw [digitsOf] at hdiv
      rw [if_neg h, ofDigits_append, hdiv]
      simp only [ofDigits, List.foldl_cons, List.foldl_nil,
        digitValue_digitChar (Nat.mod_lt n (by decide))]
      omega

theorem readDigits?_digitsOf (n : Nat) : readDigits? (digitsOf n) = some n := by
  have hall : (digitsOf n).all isDigit = true :=
    List.all_eq_true.mpr fun _ hc => isDigit_of_mem_digitsOf hc
  simp [readDigits?, digitsOf_ne_nil, hall, ofDigits_digitsOf]

/-! ### Bounded numbers -/

/-- Digits start with neither sign. -/
theorem digitsOf_head {n : Nat} : ∃ c cs, digitsOf n = c :: cs ∧ c ≠ '-' ∧ c ≠ '+' := by
  cases hds : digitsOf n with
  | nil => exact absurd hds (digitsOf_ne_nil n)
  | cons c cs =>
    have hdigit : isDigit c = true := isDigit_of_mem_digitsOf (n := n) (by simp [hds])
    refine ⟨c, cs, rfl, ?_, ?_⟩
    · rintro rfl
      exact absurd hdigit (by decide)
    · rintro rfl
      exact absurd hdigit (by decide)

/-- An optional plus sign, digits, and a number that is small enough. -/
theorem readUnsigned?_eq_some_iff {bound n : Nat} {cs : List Char} :
    readUnsigned? bound cs = some n ↔
      n ≤ bound ∧ (readDigits? cs = some n ∨ ∃ ds, cs = '+' :: ds ∧ readDigits? ds = some n) := by
  have hsigned (ds : List Char) : readDigits? ('+' :: ds) = none := by
    rw [readDigits?, if_neg]
    simp [isDigit]
  rw [readUnsigned?.eq_def, Option.filter_eq_some_iff, decide_eq_true_eq, and_comm]
  split
  · next ds =>
    simp [hsigned]
  · next hunsigned =>
    constructor
    · rintro ⟨hbound, hread⟩
      exact ⟨hbound, Or.inl hread⟩
    · rintro ⟨hbound, hread | ⟨ds, rfl, -⟩⟩
      · exact ⟨hbound, hread⟩
      · exact absurd rfl (hunsigned ds)

theorem readUnsigned?_digitsOf (bound n : Nat) :
    readUnsigned? bound (digitsOf n) = if n ≤ bound then some n else none := by
  obtain ⟨c, cs, hdigits, -, hunsigned⟩ := digitsOf_head (n := n)
  refine Option.ext fun k => ?_
  rw [readUnsigned?_eq_some_iff, readDigits?_digitsOf]
  constructor
  · rintro ⟨hk, hsame | ⟨ds, hds, -⟩⟩
    · obtain rfl := Option.some.inj hsame
      exact if_pos hk
    · rw [hdigits] at hds
      exact absurd (List.cons.inj hds).1 hunsigned
  · intro hk
    split at hk
    · next hle =>
      obtain rfl := Option.some.inj hk
      exact ⟨hle, Or.inl rfl⟩
    · cases hk

/-! ### Signed numbers -/

theorem readSigned?_digitsOf {n : Nat} (h : n ≤ maxI64) :
    readSigned? (digitsOf n) = some (n : Int) := by
  obtain ⟨c, cs, hds, hminus, hplus⟩ := digitsOf_head (n := n)
  have hread := readDigits?_digitsOf n
  rw [hds] at hread ⊢
  rw [readSigned?]
  · simp only [hread, Option.filter_some, decide_eq_true h, if_true]
    rfl
  · intro r he
    exact hminus (List.cons.inj he).1
  · intro r he
    exact hplus (List.cons.inj he).1

/-- A number of 64 bits reads back from its text. -/
theorem readSigned?_signedText {t : Int} (hlow : -(maxI64 + 1 : Nat) ≤ t) (hhigh : t ≤ maxI64) :
    readSigned? (signedText t).toList = some t := by
  cases t with
  | ofNat n =>
    have hn : n ≤ maxI64 := by simpa using hhigh
    simpa [signedText, text] using readSigned?_digitsOf hn
  | negSucc n =>
    have hn : n + 1 ≤ maxI64 + 1 := by
      rw [Int.negSucc_eq] at hlow
      push_cast at hlow
      omega
    have htext : (signedText (Int.negSucc n)).toList = '-' :: digitsOf (n + 1) := by
      simp [signedText, text]
    rw [htext, readSigned?, readDigits?_digitsOf]
    simp only [Option.filter_some, decide_eq_true hn, if_true]
    rfl

theorem solid_signedText (t : Int) : Solid (signedText t).toList := by
  cases t with
  | ofNat n => simpa [signedText, text] using solid_digitsOf n
  | negSucc n =>
    have htext : (signedText (Int.negSucc n)).toList = '-' :: digitsOf (n + 1) := by
      simp [signedText, text]
    rw [htext]
    exact Solid.cons (by decide) (solid_digitsOf _)

theorem signedText_ne_nil (t : Int) : (signedText t).toList ≠ [] := by
  cases t with
  | ofNat n => simpa [signedText, text] using digitsOf_ne_nil n
  | negSucc n => simp [signedText]

/-! ### Doubles -/

theorem solid_zeros (n : Nat) : Solid (zeros n) := by
  intro c hc
  obtain rfl := (List.mem_replicate.mp hc).2
  decide

theorem solid_positional {ds : List Char} (h : Solid ds) (point : Int) :
    Solid (positional ds point) := by
  rw [positional]
  split
  · exact Solid.cons (by decide) (Solid.cons (by decide) ((solid_zeros _).append h))
  · dsimp only
    split
    · exact h.append (solid_zeros _)
    · have htake : Solid (ds.take point.toNat) := fun c hc => h c (List.mem_of_mem_take hc)
      have hdrop : Solid (ds.drop point.toNat) := fun c hc => h c (List.mem_of_mem_drop hc)
      exact htake.append (Solid.cons (by decide) hdrop)

theorem positional_ne_nil {ds : List Char} (h : ds ≠ []) (point : Int) :
    positional ds point ≠ [] := by
  rw [positional]
  split
  · simp
  · dsimp only
    split
    · simp [h]
    · simp

theorem solid_magnitudeText (x : Float) : Solid (magnitudeText x) := by
  rw [magnitudeText]
  dsimp only
  split
  · exact Solid.cons (by decide) Text.solid_nil
  · exact solid_positional (solid_digitsOf _) _

theorem magnitudeText_ne_nil (x : Float) : magnitudeText x ≠ [] := by
  rw [magnitudeText]
  dsimp only
  split
  · simp
  · exact positional_ne_nil (digitsOf_ne_nil _) _

theorem solid_plainText (x : Float) : Solid (plainText x).toList := by
  have hsign : Solid (if isNegative x then "-" else "").toList := by
    split <;> decide
  rw [plainText]
  split
  · decide
  · dsimp only
    split
    · rw [String.toList_append]
      refine hsign.append ?_
      decide
    · rw [String.toList_append, String.toList_ofList]
      exact hsign.append (solid_magnitudeText x)

theorem plainText_ne_nil (x : Float) : (plainText x).toList ≠ [] := by
  rw [plainText]
  split
  · decide
  · dsimp only
    split
    · simp
    · simp [magnitudeText_ne_nil]

theorem solid_valueText (x : Float) : Solid (valueText x).toList := by
  rw [valueText]
  split
  · split <;> decide
  · exact solid_plainText x

theorem valueText_ne_nil (x : Float) : (valueText x).toList ≠ [] := by
  rw [valueText]
  split
  · split <;> decide
  · exact plainText_ne_nil x

end MetricRelay.Number
