import DnaLedger.Foundation.Program
import DnaLedger.Foundation.Bytes
import DnaLedger.Foundation.Probing
import Mathlib.Data.Nat.Bitwise

/-!
# The index of the mempool

Model of the open-addressing index of `cmt_mem.c`: where a key belongs, how large the table is, and
the index as a map from transaction keys.
-/

namespace DnaLedger.Cmt

open Probing

variable {α : Type}

def indexHash (capBits : Nat) (key : Bytes) : Nat :=
  ((key.take 8).foldl (fun (h : UInt64) byte => (h <<< 8) ||| byte.toUInt64) 0).toNat &&&
    (2 ^ capBits - 1)

theorem and_mask_lt (n capBits : Nat) : n &&& (2 ^ capBits - 1) < 2 ^ capBits := by
  rw [Nat.and_two_pow_sub_one_eq_mod]
  exact Nat.mod_lt n (Nat.two_pow_pos capBits)

/-- How `index_find`, `index_store` and `index_delete` step through the table. -/
def indexLayout (capBits : Nat) : ProbeLayout Bytes where
  cap := 2 ^ capBits
  home key := ⟨indexHash capBits key, and_mask_lt _ capBits⟩
  next i := ⟨(i.val + 1) &&& (2 ^ capBits - 1), and_mask_lt _ capBits⟩
  next_eq i := by
    have small := i.isLt
    refine (Nat.and_two_pow_sub_one_eq_mod _ _).trans ?_
    split
    next wraps => rw [wraps, Nat.mod_self]
    next inside => exact Nat.mod_eq_of_lt (by omega)

/-- `cmt_mem_index_t`, with a power of two as its `cap`. -/
structure MemIndex (α : Type) where
  capBits : Nat
  entries : (indexLayout capBits).Slots α

/-- The loop of `index_init`. -/
def growCap (bound : Nat) : Nat → Nat → Option Nat
  | 0, _ => none
  | n + 1, bits =>
    if 2 ^ bits < bound then
      if (2 ^ 64 - 1) / 2 < 2 ^ bits then none else growCap bound n (bits + 1)
    else some bits

/-- `index_init`, where the memory is there. -/
def indexInit (want : Nat) : Except Failure (MemIndex α) :=
  match growCap (2 * (want + 1) % 2 ^ 64) 61 4 with
  | none => .error .fault
  | some capBits => .ok ⟨capBits, fun _ => none⟩

/-- The `txs_map` of `cmt_mem_init`, and the `map` of `cmt_mem_lru_tx_cache_init`. -/
inductive IndexUse where
  | txsMap
  | cacheMap

/-- The size that an index is created for. -/
def IndexUse.want (size : Int32) : IndexUse → Nat
  | txsMap => size.toInt.toNat
  | cacheMap => if 0 < size then size.toInt.toNat else 1

def newIndex (use : IndexUse) (size : Int32) : Except Failure (MemIndex α) :=
  if size < 0 then .error .fault else indexInit (use.want size)

def MemIndex.load (ix : MemIndex α) (key : Bytes) : Option α :=
  Probing.load (indexLayout ix.capBits) ix.entries key

/-- `index_store` and `index_delete` in turn, up to a table that is full. -/
def MemIndex.run (ix : MemIndex α) (ops : List (Op Bytes α)) : Except Failure (MemIndex α) :=
  match Probing.run (indexLayout ix.capBits) ops ix.entries with
  | none => .error .fault
  | some entries => .ok ⟨ix.capBits, entries⟩

theorem le_of_growCap {bound n bits capBits : Nat} (grown : growCap bound n bits = some capBits) :
    bound ≤ 2 ^ capBits := by
  induction n generalizing bits with
  | zero => cases grown
  | succ n ih =>
    rw [growCap] at grown
    split at grown
    next =>
      split at grown
      next => cases grown
      next => exact ih grown
    next enough =>
      cases grown
      exact Nat.not_lt.mp enough

/-- The index is the map of what was stored last and not deleted since, as long as it holds no more
keys than it was created for, and no store finds it full. -/
theorem index_is_map {use : IndexUse} {size : Int32} {ix : MemIndex α}
    (created : newIndex use size = .ok ix) (ops : List (Op Bytes α))
    (within : ∀ prior, prior <+: ops →
      {key | contentsAfter prior (fun _ => none) key ≠ none}.encard ≤ use.want size) :
    ∃ after, ix.run ops = .ok after ∧
      ∀ key, after.load key = contentsAfter ops (fun _ => none) key := by
  rw [newIndex, indexInit] at created
  split at created
  next => cases created
  next =>
    split at created
    next => cases created
    next capBits grown =>
      cases created
      have bound := le_of_growCap grown
      have upper := size.toInt_lt
      have cap : use.want size < 2 ^ capBits := by
        cases use <;> grind [IndexUse.want]
      have few (prior : List (Op Bytes α)) (before : prior <+: ops) :
          {key | contentsAfter prior (fun _ => none) key ≠ none}.encard <
            (indexLayout capBits).cap :=
        (within prior before).trans_lt (by exact_mod_cast cap)
      obtain ⟨after, place, run, rep⟩ := run_represents represents_empty few
      refine ⟨⟨capBits, after⟩, by rw [MemIndex.run, run], fun key => ?_⟩
      exact load_eq rep (rep.room (few ops (List.prefix_refl ops))) key

/-- Three keys that belong to the last slot go there and to the first two, and the first key is
deleted. -/
def wrapOps : List (Op Bytes Bool) :=
  [.store [15] true, .store [31] false, .store [47] true, .delete [15]]

theorem index_is_map_wrapped : ∃ ix after : MemIndex Bool, newIndex .txsMap 3 = .ok ix ∧
    ix.run wrapOps = .ok after ∧ after.load [15] = none ∧ after.load [31] = some false ∧
      after.load [47] = some true := by
  have within (prior : List (Op Bytes Bool)) (before : prior <+: wrapOps) :
      {key | contentsAfter prior (fun _ => none) key ≠ none}.encard ≤ 3 := by
    have few : (({[15], [31], [47]} : Finset Bytes) : Set Bytes).encard ≤ 3 := by
      rw [Set.encard_coe_eq_coe_finsetCard]
      exact_mod_cast Finset.card_le_three
    refine (Set.encard_le_encard fun key stored => ?_).trans few
    by_contra other
    have listed : prior ∈ [[], wrapOps.take 1, wrapOps.take 2, wrapOps.take 3, wrapOps] :=
      (List.mem_inits _ _).mpr before
    simp only [List.mem_cons, List.not_mem_nil, or_false] at listed
    rcases listed with rfl | rfl | rfl | rfl | rfl <;>
      simp_all [wrapOps, contentsAfter, Op.change]
  obtain ⟨after, run, loads⟩ := @index_is_map Bool .txsMap 3 _ rfl wrapOps within
  exact ⟨_, after, rfl, run, loads [15], loads [31], loads [47]⟩

end DnaLedger.Cmt
