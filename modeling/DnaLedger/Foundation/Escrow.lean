import Mathlib.Algebra.BigOperators.Group.Finset.Basic
import Mathlib.Data.Fintype.Basic

/-!
# Holdings in a shared pool

Holders take units from the slots of a pool and give them back. A bounded slot and what is held in
it always add up to what there was at first.
-/

namespace DnaLedger.Escrow

variable {Slot ι : Type} {Bounded : Slot → Prop} {pool pool' : Slot → Nat}

/-- One holder moves units between the pool and its own holding. -/
structure Moves (Bounded : Slot → Prop) (pool pool' held held' : Slot → Nat) : Prop where
  bounded : ∀ slot, Bounded slot → pool' slot + held' slot = pool slot + held slot
  unbounded : ∀ slot, ¬ Bounded slot → pool' slot = pool slot

theorem Moves.of_eq {held held' : Slot → Nat} (eq : held' = held) :
    Moves Bounded pool pool held held' where
  bounded _ _ := by rw [eq]
  unbounded _ _ := rfl

/-- The bounded slots and the holdings add up to an initial amount. -/
structure Balance [Fintype ι] (Bounded : Slot → Prop) (initial pool : Slot → Nat)
    (held : ι → Slot → Nat) : Prop where
  bounded : ∀ slot, Bounded slot → pool slot + ∑ i, held i slot = initial slot
  unbounded : ∀ slot, ¬ Bounded slot → pool slot = initial slot

variable [Fintype ι]

theorem Balance.start {held : ι → Slot → Nat} (empty : ∀ i slot, held i slot = 0) :
    Balance Bounded pool pool held where
  bounded slot _ := by simp [empty]
  unbounded _ _ := rfl

theorem Balance.moves [DecidableEq ι] {initial : Slot → Nat} {held held' : ι → Slot → Nat}
    (balance : Balance Bounded initial pool held) {i : ι}
    (moves : Moves Bounded pool pool' (held i) (held' i))
    (others : ∀ j, j ≠ i → held' j = held j) : Balance Bounded initial pool' held' where
  bounded slot isBounded := by
    have moved := moves.bounded slot isBounded
    have before := balance.bounded slot isBounded
    have rest : ∑ j ∈ Finset.univ.erase i, held' j slot =
        ∑ j ∈ Finset.univ.erase i, held j slot :=
      Finset.sum_congr rfl fun j other => by rw [others j (Finset.ne_of_mem_erase other)]
    rw [← Finset.add_sum_erase _ _ (Finset.mem_univ i)] at before ⊢
    rw [rest]
    omega
  unbounded slot notBounded := by
    rw [moves.unbounded slot notBounded, balance.unbounded slot notBounded]

variable {α κ : Type} [DecidableEq κ] {table : List α} {key : α → κ} {i : Nat}

theorem exists_of_findIdx? {wanted : κ}
    (found : table.findIdx? (fun entry => key entry == wanted) = some i) :
    ∃ entry, table[i]? = some entry ∧ key entry = wanted := by
  obtain ⟨inside, matching, -⟩ := List.findIdx?_eq_some_iff_getElem.mp found
  exact ⟨_, List.getElem?_eq_getElem inside, eq_of_beq matching⟩

theorem findIdx?_of_nodup (nodup : (table.map key).Nodup) {entry : α}
    (found : table[i]? = some entry) :
    table.findIdx? (fun other => key other == key entry) = some i := by
  obtain ⟨inside, rfl⟩ := List.getElem?_eq_some_iff.mp found
  refine List.findIdx?_eq_some_iff_getElem.mpr ⟨inside, beq_self_eq_true _, ?_⟩
  intro j earlier matching
  have keys := List.pairwise_iff_getElem.mp nodup j i (by rw [List.length_map]; omega)
    (by rw [List.length_map]; exact inside) earlier
  rw [List.getElem_map, List.getElem_map] at keys
  exact keys (eq_of_beq matching)

end DnaLedger.Escrow
