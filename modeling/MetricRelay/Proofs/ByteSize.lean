import Mathlib.Algebra.Group.Nat.Defs
import MetricRelay.ByteSize
import MetricRelay.Proofs.Number.Written
import MetricRelay.Proofs.Text.Pieces

/-!
# Sizes and their texts

A text tells a size by a number and a unit. It is read as their product where that
fits 64 bits, and not at all where it does not; so a size reads back from what is
written for it, whatever unit that has.
-/

namespace MetricRelay.ByteSize

open Number (isDigit digitsOf ofDigits maxU64)
open Text (Solid trim)

/-! ### Units -/

inductive Scale where
  | single | kilo | mega | giga

namespace Scale

def factor : Scale → ℕ
  | single => 1
  | kilo => 2 ^ 10
  | mega => 2 ^ 20
  | giga => 2 ^ 30

/-- The units of a scale, in capitals. -/
def names : Scale → List String
  | single => ["", "B"]
  | kilo => ["K", "KB", "KIB"]
  | mega => ["M", "MB", "MIB"]
  | giga => ["G", "GB", "GIB"]

theorem factor_pos (s : Scale) : 0 < s.factor := by
  cases s <;> decide

end Scale

/-- A unit counts by a scale, in letters of any case. -/
def Counts (unit : List Char) (scale : Scale) : Prop :=
  String.ofList (unit.map capital) ∈ scale.names

instance (unit : List Char) (scale : Scale) : Decidable (Counts unit scale) :=
  inferInstanceAs (Decidable (_ ∈ _))

theorem unitFactor?_eq_some_iff {unit : List Char} {factor : ℕ} :
    unitFactor? unit = some factor ↔ ∃ scale, Counts unit scale ∧ scale.factor = factor := by
  simp only [Counts, unitFactor?]
  generalize String.ofList (unit.map capital) = name
  constructor
  · intro h
    split at h
    iterate 2 exact ⟨.single, by simp [Scale.names], Option.some.inj h⟩
    iterate 3 exact ⟨.kilo, by simp [Scale.names], Option.some.inj h⟩
    iterate 3 exact ⟨.mega, by simp [Scale.names], Option.some.inj h⟩
    iterate 3 exact ⟨.giga, by simp [Scale.names], Option.some.inj h⟩
    cases h
  · rintro ⟨scale, hname, rfl⟩
    cases scale <;> simp only [Scale.names, List.mem_cons, List.not_mem_nil, or_false] at hname
    · rcases hname with rfl | rfl <;> rfl
    all_goals rcases hname with rfl | rfl | rfl <;> rfl

/-! ### Numbers and what follows them -/

/-- A text starts with a row of digits, as long as it can be, and goes on with the rest. -/
structure Starts (cs digits rest : List Char) : Prop where
  text : cs = digits ++ rest
  digits : ∀ c ∈ digits, isDigit c = true
  longest : ∀ c, rest.head? = some c → isDigit c = false

variable {text : String} {cs digits rest : List Char} {n : ℕ} {scale : Scale} {size : ByteSize}

theorem starts_iff :
    Starts cs digits rest ↔ digits = cs.takeWhile isDigit ∧ rest = cs.dropWhile isDigit := by
  constructor
  · rintro ⟨rfl, hdigits, hlongest⟩
    have hcut := Text.takeWhile_append_stop hdigits hlongest
    exact ⟨hcut.1.symm, hcut.2.symm⟩
  · rintro ⟨rfl, rfl⟩
    refine ⟨List.takeWhile_append_dropWhile.symm, ?_, fun c => Text.head_not_of_dropWhile⟩
    exact fun c hc => List.all_eq_true.mp List.all_takeWhile c hc

/-- Between blanks, a number and then a unit: as many bytes as the number times its scale. -/
inductive Means (text : String) : ℕ → Scale → Prop
  | mk {digits rest : List Char} {scale : Scale} (starts : Starts (trim text.toList) digits rest)
      (nonempty : digits ≠ []) (unit : Counts (trim rest) scale) :
      Means text (ofDigits 0 digits) scale

/-! ### Reading -/

theorem le_maxU64_iff {n : ℕ} : n ≤ maxU64 ↔ n < 2 ^ 64 :=
  Nat.le_sub_one_iff_lt (by decide)

/-- Digits for more than 64 bits are refused in any unit. -/
theorem read_of_large (h : Starts (trim text.toList) digits rest)
    (hlarge : 2 ^ 64 ≤ ofDigits 0 digits) : read text = .error .numberTooLarge := by
  have hne : digits.isEmpty = false := by
    cases digits with
    | nil => exact absurd hlarge (by decide)
    | cons => rfl
  obtain ⟨rfl, rfl⟩ := starts_iff.mp h
  have hover : ofDigits 0 ((trim text.toList).takeWhile isDigit) > maxU64 := by
    rw [gt_iff_lt, ← Nat.not_le, le_maxU64_iff]
    exact Nat.not_lt.mpr hlarge
  simp only [read, hne, Bool.false_eq_true, if_false, if_pos hover]

/-- A number of 64 bits is multiplied, and the product refused if it has more. -/
theorem read_of_means (h : Means text n scale) (hn : n < 2 ^ 64) :
    read text =
      if n * scale.factor < 2 ^ 64 then .ok ⟨UInt64.ofNat (n * scale.factor)⟩
      else .error (.overflow (String.ofList (trim text.toList))) := by
  obtain ⟨hstarts, hne, hunit⟩ := h
  obtain ⟨rfl, rfl⟩ := starts_iff.mp hstarts
  have hfactor := unitFactor?_eq_some_iff.mpr ⟨scale, hunit, rfl⟩
  have hfits := Nat.not_lt.mpr (le_maxU64_iff.mpr hn)
  simp only [read, List.isEmpty_iff, if_neg hne, gt_iff_lt, if_neg hfits, hfactor, le_maxU64_iff]

/-- What is read is the product that a text means, as it stands. -/
theorem read_eq_ok_iff :
    read text = .ok size ↔ ∃ n scale, Means text n scale ∧ size.bytes.toNat = n * scale.factor := by
  constructor
  · intro h
    simp only [read] at h
    split at h
    · cases h
    · next hne =>
      split at h
      · cases h
      · split at h
        · cases h
        · next factor hfactor =>
          obtain ⟨scale, hunit, rfl⟩ := unitFactor?_eq_some_iff.mp hfactor
          split at h
          · next hfits =>
            cases h
            refine ⟨_, scale, ⟨starts_iff.mpr ⟨rfl, rfl⟩, by simpa using hne, hunit⟩, ?_⟩
            exact UInt64.toNat_ofNat_of_lt (le_maxU64_iff.mp hfits)
          · cases h
  · rintro ⟨n, scale, hmeans, hsize⟩
    have hfits : n * scale.factor < 2 ^ 64 := hsize ▸ size.bytes.toNat_lt
    have hn : n < 2 ^ 64 := Nat.lt_of_le_of_lt (Nat.le_mul_of_pos_right n scale.factor_pos) hfits
    rw [read_of_means hmeans hn, if_pos hfits, ← hsize, UInt64.ofNat_toNat]

/-- Where the product has more than 64 bits nothing is read. -/
theorem read_of_overflow (h : Means text n scale) (hlarge : 2 ^ 64 ≤ n * scale.factor) :
    ∃ e, read text = .error e := by
  by_cases hn : n < 2 ^ 64
  · exact ⟨_, (read_of_means h hn).trans (if_neg (Nat.not_lt.mpr hlarge))⟩
  · obtain ⟨hstarts, -, -⟩ := h
    exact ⟨_, read_of_large hstarts (Nat.not_lt.mp hn)⟩

/-! ### Writing -/

/-- Digits with a unit behind them mean their number in that unit. -/
theorem means_append {unit : String} (hunit : Counts unit.toList scale) (hsolid : Solid unit.toList)
    (hhead : unit.toList.head?.any isDigit = false) (n : ℕ) :
    Means (Number.text n ++ unit) n scale := by
  have htrim : trim (Number.text n ++ unit).toList = digitsOf n ++ unit.toList := by
    rw [Number.text, String.toList_append, String.toList_ofList]
    exact Text.trim_of_trimmed ((Number.solid_digitsOf n).append hsolid).trimmed
  have hstarts : Starts (trim (Number.text n ++ unit).toList) (digitsOf n) unit.toList :=
    ⟨htrim, fun _ => Number.isDigit_of_mem_digitsOf, fun c hc => by simpa [hc] using hhead⟩
  have hmeans := Means.mk hstarts (Number.digitsOf_ne_nil n)
    ((Text.trim_of_trimmed hsolid.trimmed).symm ▸ hunit)
  rwa [Number.ofDigits_digitsOf] at hmeans

/-- A written size means as many bytes as it has. -/
theorem means_text (size : ByteSize) :
    ∃ n scale, Means size.text n scale ∧ size.bytes.toNat = n * scale.factor := by
  rw [text]
  split
  · next unit factor hfind =>
    have hdivides := List.find?_some hfind
    simp only [Bool.and_eq_true, decide_eq_true_eq, beq_iff_eq] at hdivides
    have hproduct := (Nat.div_mul_cancel (Nat.dvd_of_mod_eq_zero hdivides.2)).symm
    have hmem := List.mem_of_find?_eq_some hfind
    simp only [units, List.mem_cons, Prod.mk.injEq, List.not_mem_nil, or_false] at hmem
    rcases hmem with ⟨rfl, rfl⟩ | ⟨rfl, rfl⟩ | ⟨rfl, rfl⟩
    · exact ⟨_, .giga, means_append (by decide) (by decide) (by decide) _, hproduct⟩
    · exact ⟨_, .mega, means_append (by decide) (by decide) (by decide) _, hproduct⟩
    · exact ⟨_, .kilo, means_append (by decide) (by decide) (by decide) _, hproduct⟩
  · exact ⟨_, .single, means_append (by decide) (by decide) (by decide) _, (Nat.mul_one _).symm⟩

/-- A size reads back from its text. Every text is read as exactly the number it starts with times
the scale of its unit, or not at all; it is refused where that product, or the number before any
unit, has more than 64 bits. -/
theorem read_exactly :
    (∀ size : ByteSize, read size.text = .ok size) ∧
    (∀ text size, read text = .ok size ↔
      ∃ n scale, Means text n scale ∧ size.bytes.toNat = n * scale.factor) ∧
    (∀ text n scale, Means text n scale → 2 ^ 64 ≤ n * scale.factor →
      ∃ e, read text = .error e) ∧
    ∀ text digits rest, Starts (trim text.toList) digits rest → 2 ^ 64 ≤ ofDigits 0 digits →
      ∃ e, read text = .error e :=
  ⟨fun size => read_eq_ok_iff.mpr (means_text size), fun _ _ => read_eq_ok_iff,
    fun _ _ _ => read_of_overflow, fun _ _ _ h hlarge => ⟨_, read_of_large h hlarge⟩⟩

/-- Seven megabytes between blanks, the largest number of gigabytes and the next one, and a number
of 65 bits. -/
theorem read_exactly_large :
    read " 7 mb " = .ok ⟨7340032⟩ ∧
    read "17179869183GB" = .ok ⟨18446744072635809792⟩ ∧
    (∃ e, read "17179869184GB" = .error e) ∧
    ∃ e, read "18446744073709551616 parsecs" = .error e := by
  obtain ⟨-, hreads, hoverflow, hlarge⟩ := read_exactly
  have hstarts (text : String) : Starts (trim text.toList)
      ((trim text.toList).takeWhile isDigit) ((trim text.toList).dropWhile isDigit) :=
    starts_iff.mpr ⟨rfl, rfl⟩
  refine ⟨(hreads _ _).mpr ⟨7, .mega, .mk (hstarts _) ?_ ?_, ?_⟩,
    (hreads _ _).mpr ⟨17179869183, .giga, .mk (hstarts _) ?_ ?_, ?_⟩,
    hoverflow _ 17179869184 .giga (.mk (hstarts _) ?_ ?_) ?_, hlarge _ _ _ (hstarts _) ?_⟩
  all_goals decide

end MetricRelay.ByteSize
