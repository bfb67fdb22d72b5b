import Mathlib.Data.List.AList
import Mathlib.Algebra.Order.BigOperators.Group.List
import Mathlib.Algebra.Order.Group.Nat
import Mathlib.Algebra.Order.Ring.Int

/-!
# Tables with a primary key

A table of a database is a finite map from its primary key to its rows.  A batch inserts
rows under fresh keys and then deletes rows by their keys; this module says what the table
holds afterwards and what becomes of a sum over its rows.
-/

namespace DnaLedger

open List AList

variable {κ ρ : Type} [DecidableEq κ]

abbrev Table (κ ρ : Type) : Type := AList fun _ : κ => ρ

namespace Table

/-- The sum of a weight over the rows. -/
def tally (weight : ρ → Nat) (table : Table κ ρ) : Nat :=
  (table.entries.map fun entry => weight entry.2).sum

section

variable (table : Table κ ρ)

def insertAll (rows : List (κ × ρ)) : Table κ ρ :=
  rows.foldl (fun table row => table.insert row.1 row.2) table

/-- Delete the rows with these keys, one after the other. -/
def eraseAll (keys : List κ) : Table κ ρ :=
  keys.foldl (fun table key => table.erase key) table

def deleteWhere (bad : κ → ρ → Bool) : Table κ ρ :=
  ⟨table.entries.filter fun entry => !bad entry.1 entry.2, table.nodupKeys.sublist filter_sublist⟩

end

variable {table : Table κ ρ} {rows : List (κ × ρ)} {keys : List κ} {key : κ} {row : ρ}

theorem lookup_deleteWhere {bad : κ → ρ → Bool}
    (found : (table.deleteWhere bad).lookup key = some row) : table.lookup key = some row := by
  have inside := (table.deleteWhere bad).mem_lookup_iff.mp found
  exact table.mem_lookup_iff.mpr (mem_of_mem_filter inside)

theorem lookup_insertAll_of_notMem (other : key ∉ rows.map Prod.fst) :
    (table.insertAll rows).lookup key = table.lookup key := by
  induction rows generalizing table with
  | nil => rfl
  | cons first rest ih =>
    rw [map_cons, mem_cons, not_or] at other
    exact (ih other.2).trans (lookup_insert_ne other.1)

theorem lookup_insertAll_of_mem (nodup : (rows.map Prod.fst).Nodup)
    (mem : (key, row) ∈ rows) : (table.insertAll rows).lookup key = some row := by
  induction rows generalizing table with
  | nil => cases mem
  | cons first rest ih =>
    rw [map_cons, nodup_cons] at nodup
    rcases mem_cons.mp mem with rfl | later
    · exact (lookup_insertAll_of_notMem nodup.1).trans (lookup_insert _)
    · exact ih nodup.2 later

theorem lookup_eraseAll_of_notMem (other : key ∉ keys) :
    (table.eraseAll keys).lookup key = table.lookup key := by
  induction keys generalizing table with
  | nil => rfl
  | cons first rest ih =>
    rw [mem_cons, not_or] at other
    exact (ih other.2).trans (lookup_erase_ne other.1)

theorem lookup_eraseAll_of_mem (mem : key ∈ keys) : (table.eraseAll keys).lookup key = none := by
  induction keys generalizing table with
  | nil => cases mem
  | cons first rest ih =>
    by_cases later : key ∈ rest
    · exact ih later
    · obtain rfl : key = first := (mem_cons.mp mem).resolve_right later
      exact (lookup_eraseAll_of_notMem later).trans (lookup_erase _ _)

variable {weight : ρ → Nat}

theorem tally_insert (fresh : key ∉ table) :
    tally weight (table.insert key row) = weight row + tally weight table := by
  rw [tally, tally, entries_insert_of_notMem fresh, map_cons, sum_cons]

theorem tally_erase (found : table.lookup key = some row) :
    tally weight (table.erase key) + weight row = tally weight table := by
  have inside : key ∈ table.entries.keys :=
    lookup_isSome.mp (by rw [found]; rfl)
  obtain ⟨held, front, back, absent, split, erased⟩ := exists_of_kerase inside
  have eq : held = row := by
    have atKey := table.mem_lookup_iff.mpr
      (show (⟨key, held⟩ : (_ : κ) × ρ) ∈ table.entries by simp [split])
    exact Option.some.inj (atKey.symm.trans found)
  have rest : (table.erase key).entries = front ++ back := erased
  rw [tally, tally, rest, split, eq]
  simp only [map_append, map_cons, sum_append, sum_cons]
  omega

theorem tally_replace {old : ρ} (found : table.lookup key = some old) :
    tally weight (table.insert key row) + weight old = weight row + tally weight table := by
  rw [← tally_erase found, ← Nat.add_assoc]
  rfl

omit [DecidableEq κ] in
theorem tally_deleteWhere_le (bad : κ → ρ → Bool) :
    tally weight (table.deleteWhere bad) ≤ tally weight table :=
  (filter_sublist.map _).sum_le_sum fun _ _ => Nat.zero_le _

theorem tally_insertAll (nodup : (rows.map Prod.fst).Nodup) (fresh : ∀ row ∈ rows, row.1 ∉ table) :
    tally weight (table.insertAll rows) =
      tally weight table + (rows.map fun row => weight row.2).sum := by
  induction rows generalizing table with
  | nil => rfl
  | cons first rest ih =>
    rw [map_cons, nodup_cons] at nodup
    have later : ∀ row ∈ rest, row.1 ∉ table.insert first.1 first.2 := by
      intro row mem inside
      rcases mem_insert _ |>.mp inside with eq | old
      · exact nodup.1 (eq ▸ mem_map_of_mem mem)
      · exact fresh row (mem_cons_of_mem _ mem) old
    have rest_eq := ih nodup.2 later
    have first_eq : tally weight (table.insert first.1 first.2) =
        weight first.2 + tally weight table :=
      tally_insert (fresh first mem_cons_self)
    rw [map_cons, sum_cons]
    rw [first_eq] at rest_eq
    exact rest_eq.trans (by omega)

theorem tally_eraseAll {held : List (κ × ρ)} (nodup : (held.map Prod.fst).Nodup)
    (found : ∀ row ∈ held, table.lookup row.1 = some row.2) :
    tally weight (table.eraseAll (held.map Prod.fst)) +
      (held.map fun row => weight row.2).sum = tally weight table := by
  induction held generalizing table with
  | nil => rfl
  | cons first rest ih =>
    rw [map_cons, nodup_cons] at nodup
    have later : ∀ row ∈ rest, (table.erase first.1).lookup row.1 = some row.2 := by
      intro row mem
      have apart : row.1 ≠ first.1 :=
        fun eq => nodup.1 (eq ▸ mem_map_of_mem mem)
      rw [lookup_erase_ne apart]
      exact found row (mem_cons_of_mem _ mem)
    have rest_eq := ih nodup.2 later
    have first_eq : tally weight (table.erase first.1) + weight first.2 = tally weight table :=
      tally_erase (found first mem_cons_self)
    rw [map_cons, map_cons, sum_cons]
    have unfolded : table.eraseAll (first.1 :: rest.map Prod.fst) =
        eraseAll (table.erase first.1) (rest.map Prod.fst) := rfl
    rw [unfolded]
    omega

end Table

end DnaLedger
