import Mathlib.Data.List.Lex
import Mathlib.Data.Set.Operations

/-!
# Byte strings and digests

`memcmp` on the common part followed by a comparison of the lengths is the lexicographic order on
lists of bytes. A hash function is a parameter; results that need the absence of collisions ask for
it on the inputs that are hashed.
-/

namespace DnaLedger

/-- Raw bytes: fingerprints, addresses, public keys, hashes and encodings. -/
abbrev Bytes := List UInt8

instance linearOrderUInt8 : LinearOrder UInt8 where
  le_refl := UInt8.le_refl
  le_trans _ _ _ := UInt8.le_trans
  le_antisymm _ _ := UInt8.le_antisymm
  le_total := UInt8.le_total
  lt_iff_le_not_ge a b := by
    simp only [UInt8.le_iff_toNat_le, UInt8.lt_iff_toNat_lt]
    omega
  toDecidableLE := inferInstance
  toDecidableLT := inferInstance
  toDecidableEq := inferInstance

def digestSize : Nat := 64

abbrev Digest := { bytes : Bytes // bytes.length = digestSize }

abbrev Hash := Bytes → Digest

instance : Inhabited Digest :=
  ⟨List.replicate digestSize 0, List.length_replicate⟩

theorem Digest.append_inj {first second : Digest} {rest rest' : Bytes}
    (eq : first.val ++ rest = second.val ++ rest') : first = second ∧ rest = rest' := by
  obtain ⟨front, back⟩ := List.append_inj eq (by rw [first.property, second.property])
  exact ⟨Subtype.ext front, back⟩

/-- The first bytes of the input, padded with zeros. -/
def paddingHash : Hash := fun input =>
  ⟨(input ++ List.replicate digestSize 0).take digestSize, by simp⟩

/-- The input behind a one, as a number modulo a prime. -/
def residueHash : Hash := fun input =>
  let residue := input.foldl (fun n byte => (256 * n + byte.toNat) % (.pow 2 512 - 569)) 1
  ⟨(List.range digestSize).map fun i => UInt8.ofNat (residue / .pow 256 i), by simp⟩

/-- A hash function has no collision on inputs that are in a list without one. -/
theorem injOn_of_listed {hash : Hash} {inputs : Set Bytes} (listed : List Bytes)
    (apart : ∀ first ∈ listed, ∀ second ∈ listed, hash first = hash second → first = second)
    (covered : ∀ input ∈ inputs, input ∈ listed) : Set.InjOn hash inputs :=
  fun first mem second mem' => apart first (covered first mem) second (covered second mem')

end DnaLedger
