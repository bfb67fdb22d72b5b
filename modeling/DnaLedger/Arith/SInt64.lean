import Mathlib.Algebra.Order.BigOperators.Group.List
import Mathlib.Algebra.Order.Ring.Int

/-!
# Signed 64-bit arithmetic without wrap-around

When a single operation on `Int64` does not wrap, and so computes what it does on the integers.
-/

namespace DnaLedger.SInt64

def InRange (value : Int) : Prop :=
  -(2 ^ 63) ≤ value ∧ value < 2 ^ 63

instance (value : Int) : Decidable (InRange value) :=
  inferInstanceAs (Decidable (_ ∧ _))

theorem inRange_toInt (a : Int64) : InRange a.toInt :=
  ⟨a.le_toInt, a.toInt_lt⟩

theorem bmod_of_inRange {value : Int} (range : InRange value) : value.bmod (2 ^ 64) = value := by
  obtain ⟨lower, upper⟩ := range
  exact Int.bmod_eq_of_le (by omega) (by omega)

variable {a b : Int64}

theorem toInt_add (range : InRange (a.toInt + b.toInt)) : (a + b).toInt = a.toInt + b.toInt := by
  rw [Int64.toInt_add, bmod_of_inRange range]

theorem toInt_sub (range : InRange (a.toInt - b.toInt)) : (a - b).toInt = a.toInt - b.toInt := by
  rw [Int64.toInt_sub, bmod_of_inRange range]

theorem toInt_mul (range : InRange (a.toInt * b.toInt)) : (a * b).toInt = a.toInt * b.toInt := by
  rw [Int64.toInt_mul, bmod_of_inRange range]

/-- Division truncates toward zero; only the smallest word divided by `-1` wraps. -/
theorem toInt_div (pos : 0 < b.toInt) : (a / b).toInt = a.toInt.tdiv b.toInt := by
  have range : InRange (a.toInt.tdiv b.toInt) := by
    obtain ⟨lower, upper⟩ := inRange_toInt a
    have bound := Int.natAbs_tdiv_le_natAbs a.toInt b.toInt
    rcases le_total 0 a.toInt with nonneg | nonpos
    · have := Int.tdiv_nonneg nonneg (by omega)
      constructor <;> omega
    · have := Int.tdiv_nonneg (a := -a.toInt) (by omega) (Int.le_of_lt pos)
      rw [Int.neg_tdiv] at this
      constructor <;> omega
  rw [Int64.toInt_div, bmod_of_inRange range]

theorem toInt_toInt64 {word : UInt64} (small : word.toNat < 2 ^ 63) :
    word.toInt64.toInt = word.toNat := by
  change word.toBitVec.toInt = word.toNat
  apply BitVec.toInt_eq_toNat_of_lt
  change 2 * word.toNat < 2 ^ 64
  omega

theorem toNat_toUInt64 (nonneg : 0 ≤ a.toInt) : (a.toUInt64.toNat : Int) = a.toInt := by
  have bound := a.toUInt64.toNat_lt
  have signed : a.toInt = if 2 * a.toUInt64.toNat < 2 ^ 64 then (a.toUInt64.toNat : Int)
      else a.toUInt64.toNat - (2 ^ 64 : Nat) := BitVec.toInt_eq_toNat_cond a.toBitVec
  split at signed <;> omega

theorem inRange_average {values : List Int} (filled : values ≠ [])
    (range : ∀ value ∈ values, InRange value) : InRange (values.sum / values.length) := by
  have length : (0 : Int) < values.length := by
    exact_mod_cast List.length_pos_iff.mpr filled
  have lower := List.card_nsmul_le_sum values (-(2 ^ 63)) fun value mem =>
    (range value mem).1
  have upper := List.sum_le_card_nsmul values (2 ^ 63 - 1) fun value mem =>
    Int.le_sub_one_of_lt (range value mem).2
  rw [nsmul_eq_mul] at lower upper
  constructor
  · exact Int.le_ediv_of_mul_le length (by omega)
  · exact Int.ediv_lt_of_lt_mul length (by omega)

end DnaLedger.SInt64
