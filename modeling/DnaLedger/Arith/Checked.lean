import Mathlib.Algebra.Ring.Nat
import Mathlib.Tactic.Common

/-!
# Checked arithmetic on 64-bit words

Sums, differences and products that refuse to wrap.
-/

namespace DnaLedger

def ckAdd (a b : UInt64) : Option UInt64 :=
  if 2 ^ 64 - 1 - a.toNat < b.toNat then none else some (a + b)

def ckMul (a b : UInt64) : Option UInt64 :=
  if a ≠ 0 ∧ (2 ^ 64 - 1) / a.toNat < b.toNat then none else some (a * b)

def ckSub (a b : UInt64) : Option UInt64 :=
  if a < b then none else some (a - b)

theorem toNat_of_ckAdd {a b sum : UInt64} (added : ckAdd a b = some sum) :
    sum.toNat = a.toNat + b.toNat := by
  rw [ckAdd] at added
  split at added
  next => cases added
  next fits =>
    cases added
    have small := a.toNat_lt
    rw [UInt64.toNat_add, Nat.mod_eq_of_lt (by omega)]

theorem toNat_of_ckSub {a b difference : UInt64} (taken : ckSub a b = some difference) :
    difference.toNat + b.toNat = a.toNat := by
  rw [ckSub] at taken
  split at taken
  next => cases taken
  next fits =>
    cases taken
    rw [UInt64.not_lt] at fits
    rw [UInt64.toNat_sub_of_le _ _ fits]
    exact Nat.sub_add_cancel (UInt64.le_iff_toNat_le.mp fits)

end DnaLedger
