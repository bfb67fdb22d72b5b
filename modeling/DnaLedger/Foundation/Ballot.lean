import Mathlib.Algebra.Order.BigOperators.Group.Finset
import Mathlib.Algebra.Order.Ring.Int

/-!
# Weighted ballots

A ballot is a table with at most one entry for each member; its holders are the members that have
one. A supermajority is a set of members with more than two thirds of the whole weight, and two of
them have a member in common outside every set with less than one third of it.
-/

namespace DnaLedger.Ballot

open Finset

section

variable {α : Type}

def entry (table : List (Option α)) (i : Nat) : Option α :=
  (table[i]?).join

def holders (table : List (Option α)) : Finset Nat :=
  (range table.length).filter fun i => (entry table i).isSome

/-- Write the entries of one table over those of another. -/
def overlay (top base : List (Option α)) : List (Option α) :=
  List.zipWith Option.or top base

variable {table : List (Option α)} {i : Nat}

theorem entry_of_length_le (outside : table.length ≤ i) : entry table i = none := by
  rw [entry, List.getElem?_eq_none outside]
  rfl

@[simp] theorem mem_holders : i ∈ holders table ↔ (entry table i).isSome := by
  rw [holders, mem_filter, mem_range]
  constructor
  · exact And.right
  · intro held
    refine ⟨?_, held⟩
    by_contra outside
    rw [entry_of_length_le (Nat.not_lt.mp outside)] at held
    cases held

theorem lt_length_of_entry {value : α} (held : entry table i = some value) : i < table.length := by
  by_contra outside
  rw [entry_of_length_le (Nat.not_lt.mp outside)] at held
  cases held

theorem entry_set_self (inside : i < table.length) (slot : Option α) :
    entry (table.set i slot) i = slot := by
  rw [entry, List.getElem?_set_self inside]
  rfl

theorem entry_set_ne (table : List (Option α)) {j : Nat} (apart : i ≠ j) (slot : Option α) :
    entry (table.set i slot) j = entry table j := by
  rw [entry, entry, List.getElem?_set_ne apart]

theorem entry_set_eq_some {j : Nat} {value other : α}
    (held : entry (table.set i (some value)) j = some other) :
    i = j ∧ value = other ∨ i ≠ j ∧ entry table j = some other := by
  by_cases same : i = j
  · have inside := lt_length_of_entry held
    rw [List.length_set] at inside
    rw [← same, entry_set_self (same ▸ inside)] at held
    exact .inl ⟨same, Option.some.inj held⟩
  · exact .inr ⟨same, (entry_set_ne table same _).symm.trans held⟩

theorem entry_map {β : Type} (table : List (Option α)) (image : α → β) (i : Nat) :
    entry (table.map (Option.map image)) i = (entry table i).map image := by
  rw [entry, entry, List.getElem?_map]
  cases table[i]? with
  | none => rfl
  | some slot => rfl

@[simp] theorem entry_replicate (count i : Nat) :
    entry (List.replicate count (none : Option α)) i = none := by
  rw [entry, List.getElem?_replicate]
  split <;> rfl

@[simp] theorem holders_replicate (count : Nat) :
    holders (List.replicate count (none : Option α)) = ∅ := by
  apply eq_empty_of_forall_notMem
  intro i
  simp

theorem holders_set (inside : i < table.length) (value : α) :
    holders (table.set i (some value)) = insert i (holders table) := by
  ext j
  rw [mem_holders, mem_insert, mem_holders]
  by_cases same : i = j
  · rw [← same, entry_set_self inside]
    simp
  · rw [entry_set_ne table same]
    simp [Ne.symm same]

variable {top base : List (Option α)} (same : top.length = base.length)

include same

theorem length_overlay : (overlay top base).length = base.length := by
  rw [overlay, List.length_zipWith, same, Nat.min_self]

theorem entry_overlay (i : Nat) : entry (overlay top base) i = (entry top i).or (entry base i) := by
  by_cases inside : i < base.length
  · have insideTop : i < top.length := by omega
    simp [overlay, entry, List.getElem?_zipWith, List.getElem?_eq_getElem inside,
      List.getElem?_eq_getElem insideTop]
  · have outside := Nat.not_lt.mp inside
    have outsideTop : top.length ≤ i := same ▸ outside
    have outsideBoth : (overlay top base).length ≤ i := (length_overlay same).symm ▸ outside
    rw [entry_of_length_le outside, entry_of_length_le outsideTop, entry_of_length_le outsideBoth]
    rfl

theorem holders_overlay (covered : holders top ⊆ holders base) :
    holders (overlay top base) = holders base := by
  ext i
  rw [mem_holders, mem_holders, entry_overlay same]
  cases held : entry top i with
  | none => rfl
  | some value =>
    have there : i ∈ holders base := covered (mem_holders.mpr (by rw [held]; rfl))
    rw [mem_holders] at there
    simp [there]

end

variable {power : Nat → Int}

def weight (power : Nat → Int) (members : Finset Nat) : Int :=
  ∑ i ∈ members, power i

@[simp] theorem weight_empty : weight power ∅ = 0 :=
  sum_empty

theorem weight_insert {members : Finset Nat} {i : Nat} (fresh : i ∉ members) :
    weight power (insert i members) = weight power members + power i := by
  rw [weight, sum_insert fresh, add_comm]
  rfl

variable {first second : Finset Nat} (nonneg : ∀ i, 0 ≤ power i)

include nonneg

theorem weight_mono (subset : first ⊆ second) : weight power first ≤ weight power second :=
  sum_le_sum_of_subset_of_nonneg subset fun i _ _ => nonneg i

theorem weight_nonneg (members : Finset Nat) : 0 ≤ weight power members :=
  sum_nonneg fun i _ => nonneg i

def Supermajority (power : Nat → Int) (everyone members : Finset Nat) : Prop :=
  2 * weight power everyone < 3 * weight power members

/-- The members of both of two supermajorities have more than one third of the weight. -/
theorem Supermajority.weight_inter {everyone : Finset Nat} (firstSubset : first ⊆ everyone)
    (secondSubset : second ⊆ everyone) (firstMajority : Supermajority power everyone first)
    (secondMajority : Supermajority power everyone second) :
    weight power everyone < 3 * weight power (first ∩ second) := by
  have union := weight_mono nonneg (union_subset firstSubset secondSubset)
  have parts : weight power (first ∪ second) + weight power (first ∩ second) =
      weight power first + weight power second := sum_union_inter
  rw [Supermajority] at firstMajority secondMajority
  omega

/-- Two supermajorities have a member in common outside every set with less than one
third of the weight. -/
theorem Supermajority.exists_common {everyone faulty : Finset Nat} (firstSubset : first ⊆ everyone)
    (secondSubset : second ⊆ everyone) (firstMajority : Supermajority power everyone first)
    (secondMajority : Supermajority power everyone second)
    (few : 3 * weight power faulty < weight power everyone) :
    ∃ i ∈ first, i ∈ second ∧ i ∉ faulty := by
  by_contra empty
  have inside : first ∩ second ⊆ faulty := by
    intro i mem
    obtain ⟨inFirst, inSecond⟩ := mem_inter.mp mem
    by_contra correct
    exact empty ⟨i, inFirst, inSecond, correct⟩
  have common := weight_mono nonneg inside
  have third := firstMajority.weight_inter nonneg firstSubset secondSubset secondMajority
  omega

end DnaLedger.Ballot
