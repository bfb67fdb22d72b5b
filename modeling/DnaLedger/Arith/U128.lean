import Mathlib.Tactic.Ring
import Mathlib.Tactic.NormNum

/-!
# Portable 128-bit unsigned integers

Model of `qgp_u128`; `abort()` is `none`. The running remainder of the division is one 64-bit word,
so a divisor above `2 ^ 63` can lose its top bit: the quotient is then below the exact one.
-/

namespace DnaLedger

open UInt64

/-- A 128-bit value in two 64-bit limbs, most significant first. -/
structure U128 where
  hi : UInt64
  lo : UInt64
  deriving DecidableEq

namespace U128

def toNat (value : U128) : Nat :=
  value.hi.toNat * 2 ^ 64 + value.lo.toNat

def fromU64 (value : UInt64) : U128 :=
  ⟨0, value⟩

section

variable (x : UInt64)

/-- `x & MASK32` -/
def lowHalf : UInt64 :=
  x &&& 0xFFFFFFFF

/-- `x >> 32` -/
def highHalf : UInt64 :=
  x >>> 32

/-- The carry propagation of `qgp_u128_mul_u64`; a nonzero overflow word aborts. -/
def propagate (c0 c1 c2 c3 overflow : UInt64) : Option U128 :=
  let carry := highHalf c0
  let c0 := lowHalf c0
  let c1 := c1 + carry
  let carry := highHalf c1
  let c1 := lowHalf c1
  let c2 := c2 + carry
  let carry := highHalf c2
  let c2 := lowHalf c2
  let c3 := c3 + carry
  let carry := highHalf c3
  let c3 := lowHalf c3
  let overflow := overflow + carry
  if overflow ≠ 0 then none
  else some ⟨(c3 <<< 32) ||| c2, (c1 <<< 32) ||| c0⟩

/-- Eight partial products by columns; a fifth column aborts. -/
def mulU64 (a : U128) (b : UInt64) : Option U128 :=
  let a0 := lowHalf a.lo
  let a1 := lowHalf (highHalf a.lo)
  let a2 := lowHalf a.hi
  let a3 := lowHalf (highHalf a.hi)
  let b0 := lowHalf b
  let b1 := lowHalf (highHalf b)
  let p00 := a0 * b0
  let p01 := a0 * b1
  let p10 := a1 * b0
  let p11 := a1 * b1
  let p20 := a2 * b0
  let p21 := a2 * b1
  let p30 := a3 * b0
  let p31 := a3 * b1
  propagate (lowHalf p00)
    (highHalf p00 + lowHalf p01 + lowHalf p10)
    (highHalf p01 + highHalf p10 + lowHalf p11 + lowHalf p20)
    (highHalf p11 + highHalf p20 + lowHalf p21 + lowHalf p30)
    (highHalf p21 + highHalf p30 + p31)

/-- Bit `i` of the dividend, read from the limb that holds it. -/
def bitAt (a : U128) (i : Nat) : UInt64 :=
  if 64 ≤ i then (a.hi >>> ofNat (i - 64)) &&& 1
  else (a.lo >>> ofNat i) &&& 1

/-- Set bit `i` in the limb that holds it. -/
def setBit (q : U128) (i : Nat) : U128 :=
  if 64 ≤ i then ⟨q.hi ||| (1 <<< ofNat (i - 64)), q.lo⟩
  else ⟨q.hi, q.lo ||| (1 <<< ofNat i)⟩

/-- What the division loop carries: `q_hi`, `q_lo` and the running remainder. -/
structure DivState where
  quot : U128
  rem : UInt64

/-- One turn of the division loop, for dividend bit `i`. -/
def divStep (a : U128) (b : UInt64) (i : Nat) (state : DivState) : DivState :=
  let rem := (state.rem <<< 1) ||| bitAt a i
  if b ≤ rem then ⟨setBit state.quot i, rem - b⟩ else ⟨state.quot, rem⟩

/-- The loop over the dividend bits `count - 1, …, 0`. -/
def divLoop (a : U128) (b : UInt64) : Nat → DivState → DivState
  | 0, state => state
  | count + 1, state => divLoop a b count (divStep a b count state)

/-- The quotient and the remainder; a zero divisor aborts. -/
def divU64 (a : U128) (b : UInt64) : Option (U128 × UInt64) :=
  if b = 0 then none
  else
    let final := divLoop a b 128 ⟨⟨0, 0⟩, 0⟩
    some (final.quot, final.rem)

theorem toNat_lowHalf : (lowHalf x).toNat = x.toNat % 2 ^ 32 := by
  rw [lowHalf, UInt64.toNat_and]
  exact Nat.and_two_pow_sub_one_eq_mod x.toNat 32

theorem toNat_highHalf : (highHalf x).toNat = x.toNat / 2 ^ 32 := by
  rw [highHalf, UInt64.toNat_shiftRight]
  simp [Nat.shiftRight_eq_div_pow]

theorem toNat_eq_halves :
    x.toNat = (highHalf x).toNat * 2 ^ 32 + (lowHalf x).toNat ∧
      (highHalf x).toNat < 2 ^ 32 ∧ (lowHalf x).toNat < 2 ^ 32 := by
  have bound := x.toNat_lt
  rw [toNat_highHalf, toNat_lowHalf]
  omega

end

theorem toNat_join {hi lo : UInt64} (hiBound : hi.toNat < 2 ^ 32) (loBound : lo.toNat < 2 ^ 32) :
    ((hi <<< 32) ||| lo).toNat = hi.toNat * 2 ^ 32 + lo.toNat := by
  have shifted : (hi <<< 32).toNat = 2 ^ 32 * hi.toNat := by
    rw [UInt64.toNat_shiftLeft]
    simp [Nat.shiftLeft_eq]
    omega
  rw [UInt64.toNat_or, shifted, ← Nat.two_pow_add_eq_or_of_lt loBound]
  ring

variable {x : UInt64}
variable {y : UInt64} {k quot : Nat} {a : U128} {state : DivState}

theorem toNat_mul_of_halves (xBound : x.toNat < 2 ^ 32) (yBound : y.toNat < 2 ^ 32) :
    (x * y).toNat = x.toNat * y.toNat := by
  have bound : x.toNat * y.toNat ≤ (2 ^ 32 - 1) * (2 ^ 32 - 1) :=
    Nat.mul_le_mul (by omega) (by omega)
  rw [UInt64.toNat_mul]
  exact Nat.mod_eq_of_lt (by omega)

theorem toNat_add_small {m n : Nat} (xBound : x.toNat < m) (yBound : y.toNat < n)
    (small : m + n ≤ 2 ^ 64) :
    (x + y).toNat = x.toNat + y.toNat ∧ (x + y).toNat < m + n := by
  have sum : (x + y).toNat = x.toNat + y.toNat := by
    rw [UInt64.toNat_add]
    exact Nat.mod_eq_of_lt (by omega)
  exact ⟨sum, by omega⟩

theorem carry_chain {c0 c1 c2 c3 q0 q1 q2 q3 r0 r1 r2 r3 : Nat} (c4 : Nat)
    (e0 : c0 = q0 * 2 ^ 32 + r0) (e1 : c1 + q0 = q1 * 2 ^ 32 + r1)
    (e2 : c2 + q1 = q2 * 2 ^ 32 + r2) (e3 : c3 + q2 = q3 * 2 ^ 32 + r3) :
    (r3 * 2 ^ 32 + r2) * 2 ^ 64 + (r1 * 2 ^ 32 + r0) + 2 ^ 128 * (c4 + q3) =
      c0 + 2 ^ 32 * c1 + 2 ^ 64 * c2 + 2 ^ 96 * c3 + 2 ^ 128 * c4 := by
  omega

theorem propagate_spec {c0 c1 c2 c3 c4 : UInt64} {total : Nat}
    (b1 : c1.toNat < 2 ^ 62) (b2 : c2.toNat < 2 ^ 62) (b3 : c3.toNat < 2 ^ 62)
    (b4 : c4.toNat < 2 ^ 62)
    (sum : c0.toNat + 2 ^ 32 * c1.toNat + 2 ^ 64 * c2.toNat + 2 ^ 96 * c3.toNat +
      2 ^ 128 * c4.toNat = total) (fits : total < 2 ^ 128) :
    ∃ result, propagate c0 c1 c2 c3 c4 = some result ∧ result.toNat = total := by
  obtain ⟨e0, q0, r0⟩ := toNat_eq_halves c0
  obtain ⟨a1, -⟩ := toNat_add_small b1 q0 (by norm_num)
  obtain ⟨e1, q1, r1⟩ := toNat_eq_halves (c1 + highHalf c0)
  obtain ⟨a2, -⟩ := toNat_add_small b2 q1 (by norm_num)
  obtain ⟨e2, q2, r2⟩ := toNat_eq_halves (c2 + highHalf (c1 + highHalf c0))
  obtain ⟨a3, -⟩ := toNat_add_small b3 q2 (by norm_num)
  obtain ⟨e3, q3, r3⟩ :=
    toNat_eq_halves (c3 + highHalf (c2 + highHalf (c1 + highHalf c0)))
  obtain ⟨a4, -⟩ := toNat_add_small b4 q3 (by norm_num)
  have chain := carry_chain c4.toNat e0 (a1 ▸ e1) (a2 ▸ e2) (a3 ▸ e3)
  have noOverflow :
      c4 + highHalf (c3 + highHalf (c2 + highHalf (c1 + highHalf c0))) = 0 := by
    apply UInt64.toNat_inj.mp
    rw [a4, UInt64.toNat_zero]
    clear e0 e1 e2 e3 a1 a2 a3 a4
    omega
  have zero := congrArg UInt64.toNat noOverflow
  rw [a4, UInt64.toNat_zero] at zero
  simp only [propagate]
  rw [if_neg (not_not.mpr noOverflow)]
  refine ⟨_, rfl, ?_⟩
  rw [toNat, toNat_join r3 r2, toNat_join r1 r0, ← sum, ← chain, zero, Nat.mul_zero, Nat.add_zero]

theorem mulU64_fromU64 (a b : UInt64) :
    ∃ product, mulU64 (fromU64 a) b = some product ∧
      product.toNat = a.toNat * b.toNat := by
  obtain ⟨ea, ah, al⟩ := toNat_eq_halves a
  obtain ⟨eb, bh, bl⟩ := toNat_eq_halves b
  have aHigh : (lowHalf (highHalf a)).toNat = (highHalf a).toNat := by
    rw [toNat_lowHalf, Nat.mod_eq_of_lt ah]
  have bHigh : (lowHalf (highHalf b)).toNat = (highHalf b).toNat := by
    rw [toNat_lowHalf, Nat.mod_eq_of_lt bh]
  have expanded : a.toNat * b.toNat =
      (lowHalf a * lowHalf b).toNat +
        2 ^ 32 * (lowHalf a * lowHalf (highHalf b)).toNat +
        2 ^ 32 * (lowHalf (highHalf a) * lowHalf b).toNat +
        2 ^ 64 * (lowHalf (highHalf a) * lowHalf (highHalf b)).toNat := by
    rw [toNat_mul_of_halves al bl, toNat_mul_of_halves al (bHigh ▸ bh), toNat_mul_of_halves (aHigh ▸
      ah) bl, toNat_mul_of_halves (aHigh ▸ ah) (bHigh ▸ bh), aHigh, bHigh, ea, eb]
    ring
  have bound : a.toNat * b.toNat < 2 ^ 128 := by
    calc a.toNat * b.toNat < 2 ^ 64 * 2 ^ 64 :=
          Nat.mul_lt_mul'' a.toNat_lt b.toNat_lt
      _ = 2 ^ 128 := by norm_num
  simp only [mulU64, fromU64]
  generalize lowHalf a * lowHalf b = p00 at *
  generalize lowHalf a * lowHalf (highHalf b) = p01 at *
  generalize lowHalf (highHalf a) * lowHalf b = p10 at *
  generalize lowHalf (highHalf a) * lowHalf (highHalf b) = p11 at *
  clear ea ah al eb bh bl aHigh bHigh
  obtain ⟨e00, h00, l00⟩ := toNat_eq_halves p00
  obtain ⟨e01, h01, l01⟩ := toNat_eq_halves p01
  obtain ⟨e10, h10, l10⟩ := toNat_eq_halves p10
  obtain ⟨e11, h11, l11⟩ := toNat_eq_halves p11
  obtain ⟨s1, d1⟩ := toNat_add_small h00 l01 (by norm_num)
  obtain ⟨t1, k1⟩ := toNat_add_small d1 l10 (by norm_num)
  obtain ⟨s2, d2⟩ := toNat_add_small h01 h10 (by norm_num)
  obtain ⟨t2, k2⟩ := toNat_add_small d2 l11 (by norm_num)
  -- with a zero high limb the columns above the fourth are empty
  have columns : (lowHalf p00).toNat +
      2 ^ 32 * (highHalf p00 + lowHalf p01 + lowHalf p10).toNat +
      2 ^ 64 * (highHalf p01 + highHalf p10 + lowHalf p11).toNat +
      2 ^ 96 * (highHalf p11).toNat + 2 ^ 128 * (0 : UInt64).toNat =
        a.toNat * b.toNat := by
    rw [t1, s1, t2, s2, expanded, UInt64.toNat_zero]
    clear expanded t1 s1 t2 s2
    omega
  have spec := propagate_spec (k1.trans (by norm_num)) (k2.trans (by norm_num))
    (h11.trans (by norm_num)) (by decide) columns bound
  simpa [lowHalf, highHalf] using spec

theorem toNat_bit (kBound : k < 64) : ((x >>> ofNat k) &&& 1).toNat = x.toNat / 2 ^ k % 2 := by
  rw [UInt64.toNat_and, UInt64.toNat_shiftRight, toNat_ofNat', toNat_one, Nat.mod_eq_of_lt (show k <
    2 ^ 64 by omega), Nat.mod_eq_of_lt kBound, Nat.and_one_is_mod, Nat.shiftRight_eq_div_pow]

variable {i : Nat}

theorem toNat_bitAt (a : U128) (iBound : i < 128) : (bitAt a i).toNat = a.toNat / 2 ^ i % 2 := by
  have loBound := a.lo.toNat_lt
  rw [bitAt, toNat]
  split
  next high =>
    obtain ⟨k, rfl⟩ := Nat.exists_eq_add_of_le high
    rw [Nat.add_sub_cancel_left, toNat_bit (by omega), Nat.pow_add, ← Nat.div_div_eq_div_mul,
      Nat.mul_comm, Nat.mul_add_div (by norm_num), Nat.div_eq_of_lt loBound, Nat.add_zero]
  next low =>
    obtain ⟨k, gap⟩ := Nat.exists_eq_add_of_lt (Nat.lt_of_not_le low)
    have even : a.hi.toNat * 2 ^ 64 = 2 ^ i * (2 * (a.hi.toNat * 2 ^ k)) := by
      rw [gap]
      ring
    rw [toNat_bit (by omega), even, Nat.mul_add_div (Nat.two_pow_pos i), Nat.mul_add_mod]

theorem toNat_or_bit (kBound : k < 64) (unset : 2 ^ (k + 1) ∣ x.toNat) :
    (x ||| (1 <<< ofNat k)).toNat = x.toNat + 2 ^ k := by
  have shift : ((1 : UInt64) <<< ofNat k).toNat = 2 ^ k := by
    rw [UInt64.toNat_shiftLeft, toNat_ofNat', toNat_one, Nat.mod_eq_of_lt (show k < 2 ^ 64 by
      omega), Nat.mod_eq_of_lt kBound, Nat.one_shiftLeft]
    exact Nat.mod_eq_of_lt (Nat.pow_lt_pow_right (by norm_num) kBound)
  obtain ⟨m, multiple⟩ := unset
  rw [UInt64.toNat_or, shift, multiple, ← Nat.two_pow_add_eq_or_of_lt
    (Nat.pow_lt_pow_right (by norm_num) (Nat.lt_succ_self k))]

theorem toNat_setBit {q : U128} (iBound : i < 128) (unset : 2 ^ (i + 1) ∣ q.toNat) :
    (setBit q i).toNat = q.toNat + 2 ^ i := by
  have loBound := q.lo.toNat_lt
  rw [setBit]
  split
  next high =>
    obtain ⟨k, rfl⟩ := Nat.exists_eq_add_of_le high
    obtain ⟨m, multiple⟩ := unset
    have aligned : q.toNat = 2 ^ 64 * (2 ^ (k + 1) * m) := by
      rw [multiple]
      ring
    rw [toNat] at aligned
    have hiUnset : 2 ^ (k + 1) ∣ q.hi.toNat := ⟨m, by omega⟩
    simp only [toNat, Nat.add_sub_cancel_left]
    rw [toNat_or_bit (by omega) hiUnset]
    ring
  next low =>
    have hiAligned : 2 ^ (i + 1) ∣ q.hi.toNat * 2 ^ 64 :=
      (Nat.pow_dvd_pow 2 (by omega)).mul_left _
    have loUnset : 2 ^ (i + 1) ∣ q.lo.toNat :=
      (Nat.dvd_add_right hiAligned).mp unset
    simp only [toNat]
    rw [toNat_or_bit (by omega) loUnset]
    ring

theorem toNat_shift_in (r : UInt64) {bit : UInt64} (bitBound : bit.toNat < 2) :
    ((r <<< 1) ||| bit).toNat = 2 * r.toNat % 2 ^ 64 + bit.toNat := by
  have shifted : (r <<< 1).toNat = 2 ^ 1 * (r.toNat % 2 ^ 63) := by
    rw [UInt64.toNat_shiftLeft]
    simp [Nat.shiftLeft_eq]
    omega
  rw [UInt64.toNat_or, shifted, ← Nat.two_pow_add_eq_or_of_lt (by omega)]
  omega

/-- No remainder of the long division of `a` by `b` reaches `2 ^ 63` before dividend bit `i` or a
higher one is brought in. -/
def Carryless (a b i : Nat) : Prop :=
  ∀ k, i ≤ k → a / 2 ^ (k + 1) % b < 2 ^ 63

theorem carryless_of_le {a b i : Nat} (pos : 0 < b) (small : b ≤ 2 ^ 63) : Carryless a b i :=
  fun _ _ => (Nat.mod_lt _ pos).trans_le small

theorem carryless_iff_succ {a b i : Nat} :
    Carryless a b i ↔ Carryless a b (i + 1) ∧ a / 2 ^ (i + 1) % b < 2 ^ 63 := by
  constructor
  · intro carryless
    exact ⟨fun k le => carryless k (by omega), carryless i (Nat.le_refl i)⟩
  · rintro ⟨higher, here⟩ k le
    rcases Nat.eq_or_lt_of_le le with rfl | lt
    · exact here
    · exact higher k lt

/-- Before dividend bit `i - 1`: the bits found so far with the remainder make up the dividend, or
at least `2 ^ 64` was lost to a carry. -/
structure DivInvariant (a : U128) (b : UInt64) (i : Nat) (state : DivState)
    (quot : Nat) : Prop where
  quot_eq : state.quot.toNat = 2 ^ i * quot
  rem_lt : state.rem.toNat < b.toNat
  found : Carryless a.toNat b.toNat i ∧ quot * b.toNat + state.rem.toNat = a.toNat / 2 ^ i ∨
    ¬Carryless a.toNat b.toNat i ∧
      quot * b.toNat + state.rem.toNat + 2 ^ 64 ≤ a.toNat / 2 ^ i

variable {b : UInt64}

/-- What bringing in one bit does to the balance of dividend and remainder. -/
theorem DivInvariant.shift {i rem bit : Nat} (inv : DivInvariant a b (i + 1) state quot)
    (halves : a.toNat / 2 ^ i = 2 * (a.toNat / 2 ^ (i + 1)) + bit)
    (remEq : rem = 2 * state.rem.toNat % 2 ^ 64 + bit) :
    Carryless a.toNat b.toNat i ∧ 2 * (quot * b.toNat) + rem = a.toNat / 2 ^ i ∨
      ¬Carryless a.toNat b.toNat i ∧ 2 * (quot * b.toNat) + rem + 2 ^ 64 ≤ a.toNat / 2 ^ i := by
  rw [carryless_iff_succ]
  rcases inv.found with ⟨carryless, eq⟩ | ⟨carried, lost⟩
  · -- so far exact: the running remainder is that of the dividend read so far
    have remainder : a.toNat / 2 ^ (i + 1) % b.toNat = state.rem.toNat := by
      rw [← eq, Nat.mul_comm, Nat.mul_add_mod, Nat.mod_eq_of_lt inv.rem_lt]
    rw [remainder]
    by_cases small : state.rem.toNat < 2 ^ 63
    · exact .inl ⟨⟨carryless, small⟩, by omega⟩
    · exact .inr ⟨fun both => small both.2, by omega⟩
  · exact .inr ⟨fun both => carried both.1, by omega⟩

theorem divStep_invariant (iBound : i < 128) (inv : DivInvariant a b (i + 1) state quot) :
    ∃ quot', DivInvariant a b i (divStep a b i state) quot' := by
  have bitEq := toNat_bitAt a iBound
  have halves : a.toNat / 2 ^ i = 2 * (a.toNat / 2 ^ (i + 1)) + (bitAt a i).toNat := by
    rw [bitEq, Nat.pow_succ, ← Nat.div_div_eq_div_mul]
    omega
  have remEq := toNat_shift_in state.rem (show (bitAt a i).toNat < 2 by omega)
  have found := inv.shift halves remEq
  have doubled : 2 ^ (i + 1) * quot = 2 ^ i * (2 * quot) := by ring
  have remLt := inv.rem_lt
  have bBound := b.toNat_lt
  simp only [divStep]
  generalize (state.rem <<< 1) ||| bitAt a i = rem at *
  split
  next larger =>
    have larger : b.toNat ≤ rem.toNat := larger
    have remSub : (rem - b).toNat = rem.toNat - b.toNat :=
      UInt64.toNat_sub_of_le _ _ larger
    have absorbed : (2 * quot + 1) * b.toNat + (rem - b).toNat =
        2 * (quot * b.toNat) + rem.toNat := by
      have expand : (2 * quot + 1) * b.toNat = 2 * (quot * b.toNat) + b.toNat := by ring
      omega
    refine ⟨2 * quot + 1, ?_, by simp only [remSub]; omega, by rwa [absorbed]⟩
    rw [toNat_setBit iBound ⟨quot, inv.quot_eq⟩, inv.quot_eq, doubled]
    ring
  next smaller =>
    have kept : 2 * quot * b.toNat = 2 * (quot * b.toNat) := by ring
    exact ⟨2 * quot, by rw [inv.quot_eq, doubled], Nat.lt_of_not_le smaller, by rwa [kept]⟩

theorem divLoop_invariant {count : Nat} (countBound : count ≤ 128)
    (inv : DivInvariant a b count state quot) :
    ∃ quot', DivInvariant a b 0 (divLoop a b count state) quot' := by
  induction count generalizing state quot with
  | zero => exact ⟨quot, inv⟩
  | succ count ih =>
    obtain ⟨next, nextInv⟩ := divStep_invariant (by omega) inv
    exact ih (by omega) nextInv

/-- The quotient never exceeds the exact one, and equals it exactly when no carry is lost. -/
theorem divU64_spec (a : U128) (ne : b ≠ 0) :
    ∃ quot rem, divU64 a b = some (quot, rem) ∧ quot.toNat ≤ a.toNat / b.toNat ∧
      (quot.toNat = a.toNat / b.toNat ↔ Carryless a.toNat b.toNat 0) := by
  have pos : 0 < b.toNat := by
    apply Nat.pos_of_ne_zero
    intro zero
    exact ne (UInt64.toNat_inj.mp zero)
  have aBound : a.toNat < 2 ^ 128 := by
    have hiBound := a.hi.toNat_lt
    have loBound := a.lo.toNat_lt
    rw [toNat]
    omega
  have start : DivInvariant a b 128 ⟨⟨0, 0⟩, 0⟩ 0 := by
    refine ⟨rfl, by simpa using pos, .inl ⟨fun k le => ?_, ?_⟩⟩
    · have power : 2 ^ 128 ≤ 2 ^ (k + 1) := Nat.pow_le_pow_right (by omega) (by omega)
      rw [Nat.div_eq_of_lt (by omega), Nat.zero_mod]
      omega
    · rw [Nat.div_eq_of_lt aBound, Nat.zero_mul]
      rfl
  obtain ⟨quot, final⟩ := divLoop_invariant (Nat.le_refl 128) start
  have quotEq := final.quot_eq
  have remLt := final.rem_lt
  have found := final.found
  have bBound := b.toNat_lt
  simp only [Nat.pow_zero, Nat.one_mul, Nat.div_one] at quotEq found
  refine ⟨_, _, if_neg ne, ?_⟩
  rw [quotEq]
  rcases found with ⟨carryless, eq⟩ | ⟨carried, lost⟩
  · have exactQuot : quot = a.toNat / b.toNat := by
      rw [← eq, Nat.mul_comm, Nat.mul_add_div pos, Nat.div_eq_of_lt remLt, Nat.add_zero]
    exact ⟨exactQuot.le, iff_of_true exactQuot carryless⟩
  · -- what was lost is more than one divisor
    have less : quot + 1 ≤ a.toNat / b.toNat := by
      rw [Nat.le_div_iff_mul_le pos, Nat.add_mul]
      omega
    exact ⟨by omega, iff_of_false (by omega) carried⟩

end U128

end DnaLedger
