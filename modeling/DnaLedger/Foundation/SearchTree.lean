import Mathlib.Data.List.Basic
import Mathlib.Order.Lattice

/-!
# Balanced search trees

Height-balanced binary trees with a key and a value at each node. New keys are inserted with
rotations on the way up; keys are never removed.
-/

namespace DnaLedger.SearchTree

open List

inductive Tree (α β : Type) where
  | leaf
  | node (height : Nat) (left : Tree α β) (key : α) (value : β) (right : Tree α β)

namespace Tree

variable {α β : Type}

def height : Tree α β → Nat
  | leaf => 0
  | node height _ _ _ _ => height

def join (left : Tree α β) (key : α) (value : β) (right : Tree α β) : Tree α β :=
  node (max left.height right.height + 1) left key value right

def rotateRight : Tree α β → Tree α β
  | node _ (node _ left key value middle) key' value' right =>
    join left key value (join middle key' value' right)
  | tree => tree

def rotateLeft : Tree α β → Tree α β
  | node _ left key value (node _ middle key' value' right) =>
    join (join left key value middle) key' value' right
  | tree => tree

/-- The subtree that is higher than the other one, if there is one. -/
def leansRight : Tree α β → Bool
  | leaf => false
  | node _ left _ _ right => left.height < right.height

def leansLeft : Tree α β → Bool
  | leaf => false
  | node _ left _ _ right => right.height < left.height

/-- A node over two subtrees whose heights differ by two at most. -/
def balance (left : Tree α β) (key : α) (value : β) (right : Tree α β) : Tree α β :=
  if right.height + 1 < left.height then
    rotateRight (join (if left.leansRight then rotateLeft left else left) key value right)
  else if left.height + 1 < right.height then
    rotateLeft (join left key value (if right.leansLeft then rotateRight right else right))
  else join left key value right

def toList : Tree α β → List (α × β)
  | leaf => []
  | node _ left key value right => left.toList ++ (key, value) :: right.toList

def mapValues {γ : Type} (change : β → γ) : Tree α β → Tree α γ
  | leaf => leaf
  | node height left key value right =>
    node height (left.mapValues change) key (change value) (right.mapValues change)

theorem toList_mapValues {γ : Type} (change : β → γ) (tree : Tree α β) :
    (tree.mapValues change).toList = tree.toList.map fun entry => (entry.1, change entry.2) := by
  induction tree with
  | leaf => rfl
  | node height left key value right leftIH rightIH => simp [mapValues, toList, leftIH, rightIH]

@[simp] theorem toList_join (left : Tree α β) (key : α) (value : β) (right : Tree α β) :
    (join left key value right).toList = left.toList ++ (key, value) :: right.toList := rfl

variable (tree : Tree α β)

@[simp] theorem toList_rotateRight : tree.rotateRight.toList = tree.toList := by
  unfold rotateRight
  split
  · simp [toList]
  · rfl

@[simp] theorem toList_rotateLeft : tree.rotateLeft.toList = tree.toList := by
  unfold rotateLeft
  split
  · simp [toList]
  · rfl

@[simp] theorem toList_balance (left : Tree α β) (key : α) (value : β) (right : Tree α β) :
    (balance left key value right).toList = left.toList ++ (key, value) :: right.toList := by
  unfold balance
  split_ifs <;> simp

variable [LinearOrder α]

def find? (key : α) : Tree α β → Option β
  | leaf => none
  | node _ left key' value right =>
    if key < key' then left.find? key
    else if key' < key then right.find? key
    else some value

/-- Insert a key that the tree does not have. -/
def insert (key : α) (value : β) : Tree α β → Tree α β
  | leaf => node 1 leaf key value leaf
  | node _ left key' value' right =>
    if key < key' then balance (left.insert key value) key' value' right
    else balance left key' value' (right.insert key value)

def replace (key : α) (value : β) : Tree α β → Tree α β
  | leaf => leaf
  | node height left key' value' right =>
    if key < key' then node height (left.replace key value) key' value' right
    else if key' < key then node height left key' value' (right.replace key value)
    else node height left key' value right

def Ascending (tree : Tree α β) : Prop :=
  tree.toList.Pairwise fun first second => first.1 < second.1

theorem ascending_node {height : Nat} {left right : Tree α β} {key : α} {value : β} :
    (node height left key value right).Ascending ↔
      left.Ascending ∧ right.Ascending ∧ (∀ entry ∈ left.toList, entry.1 < key) ∧
        ∀ entry ∈ right.toList, key < entry.1 := by
  simp only [Ascending, toList, pairwise_append, pairwise_cons, mem_cons]
  constructor
  · rintro ⟨leftOrder, ⟨above, rightOrder⟩, across⟩
    exact ⟨leftOrder, rightOrder, fun entry mem => across entry mem _ (Or.inl rfl),
      fun entry mem => above entry mem⟩
  · rintro ⟨leftOrder, rightOrder, below, above⟩
    refine ⟨leftOrder, ⟨above, rightOrder⟩, ?_⟩
    rintro entry mem other (rfl | inRight)
    · exact below entry mem
    · exact (below entry mem).trans (above other inRight)

theorem find?_eq_some {tree : Tree α β} (ascending : tree.Ascending) {key : α} {value : β} :
    tree.find? key = some value ↔ (key, value) ∈ tree.toList := by
  induction tree with
  | leaf => simp [find?, toList]
  | node height left key' value' right leftIH rightIH =>
    obtain ⟨leftOrder, rightOrder, below, above⟩ := ascending_node.mp ascending
    simp only [find?, toList, mem_append, mem_cons, Prod.mk.injEq]
    split
    next less =>
      rw [leftIH leftOrder]
      constructor
      · exact Or.inl
      · rintro (inLeft | eq | inRight)
        · exact inLeft
        · exact absurd eq.1 less.ne
        · exact absurd (above _ inRight) less.asymm
    next notLess =>
      split
      next greater =>
        rw [rightIH rightOrder]
        constructor
        · exact fun inRight => Or.inr (Or.inr inRight)
        · rintro (inLeft | eq | inRight)
          · exact absurd (below _ inLeft) greater.asymm
          · exact absurd eq.1 greater.ne'
          · exact inRight
      next notGreater =>
        have eq : key = key' := le_antisymm (not_lt.mp notGreater) (not_lt.mp notLess)
        subst eq
        constructor
        · rintro found
          exact Or.inr (Or.inl ⟨rfl, (Option.some.inj found).symm⟩)
        · rintro (inLeft | eq | inRight)
          · exact absurd (below _ inLeft) (lt_irrefl _)
          · rw [eq.2]
          · exact absurd (above _ inRight) (lt_irrefl _)

theorem find?_eq_none {tree : Tree α β} (ascending : tree.Ascending) {key : α} :
    tree.find? key = none ↔ ∀ value, (key, value) ∉ tree.toList := by
  simp only [Option.eq_none_iff_forall_ne_some, ne_eq, find?_eq_some ascending]

theorem mem_insert {tree : Tree α β} {key : α} {value : β} {entry : α × β} :
    entry ∈ (tree.insert key value).toList ↔ entry = (key, value) ∨ entry ∈ tree.toList := by
  induction tree with
  | leaf => simp [insert, toList]
  | node height left key' value' right leftIH rightIH =>
    simp only [insert, toList]
    split
    · rw [toList_balance, mem_append, leftIH, mem_append, or_assoc]
    · simp only [toList_balance, mem_append, mem_cons, rightIH]
      tauto

theorem ascending_insert {tree : Tree α β} (ascending : tree.Ascending) {key : α} {value : β}
    (absent : tree.find? key = none) : (tree.insert key value).Ascending := by
  induction tree with
  | leaf => simp [insert, Ascending, toList]
  | node height left key' value' right leftIH rightIH =>
    obtain ⟨leftOrder, rightOrder, below, above⟩ := ascending_node.mp ascending
    simp only [find?] at absent
    simp only [insert]
    split
    next less =>
      rw [if_pos less] at absent
      rw [Ascending, toList_balance]
      refine (@ascending_node α β _ 0 _ _ _ _).mpr
        ⟨leftIH leftOrder absent, rightOrder, ?_, above⟩
      intro entry mem
      rcases mem_insert.mp mem with rfl | old
      · exact less
      · exact below entry old
    next notLess =>
      rw [if_neg notLess] at absent
      split at absent
      next greater =>
        rw [Ascending, toList_balance]
        refine (@ascending_node α β _ 0 _ _ _ _).mpr
          ⟨leftOrder, rightIH rightOrder absent, below, ?_⟩
        intro entry mem
        rcases mem_insert.mp mem with rfl | old
        · exact greater
        · exact above entry old
      next => cases absent

theorem map_fst_replace (key : α) (value : β) :
    (tree.replace key value).toList.map Prod.fst = tree.toList.map Prod.fst := by
  induction tree with
  | leaf => rfl
  | node height left key' value' right leftIH rightIH =>
    simp only [replace]
    split_ifs <;> simp [toList, leftIH, rightIH]

theorem ascending_iff {tree : Tree α β} :
    tree.Ascending ↔ (tree.toList.map Prod.fst).Pairwise (· < ·) := by
  rw [Ascending, pairwise_map]

theorem ascending_replace {tree : Tree α β} (ascending : tree.Ascending) (key : α) (value : β) :
    (tree.replace key value).Ascending := by
  rw [ascending_iff, map_fst_replace]
  exact ascending_iff.mp ascending

theorem find?_replace (key other : α) (value : β) :
    (tree.replace key value).find? other =
      if other = key then (tree.find? key).map fun _ => value else tree.find? other := by
  induction tree with
  | leaf => simp [replace, find?]
  | node height left key' value' right leftIH rightIH =>
    simp only [replace]
    split
    next less =>
      simp only [find?, leftIH]
      grind
    next notLess =>
      split
      next greater =>
        simp only [find?, rightIH]
        grind
      next notGreater =>
        simp only [find?]
        grind

theorem ascending_mapValues {γ : Type} {tree : Tree α β} (ascending : tree.Ascending)
    (change : β → γ) : (tree.mapValues change).Ascending := by
  rw [Ascending, toList_mapValues, pairwise_map]
  exact ascending

theorem find?_mapValues {γ : Type} (change : β → γ) (key : α) :
    (tree.mapValues change).find? key = (tree.find? key).map change := by
  induction tree with
  | leaf => rfl
  | node height left key' value right leftIH rightIH =>
    simp only [mapValues, find?, leftIH, rightIH]
    split_ifs <;> rfl

end Tree

/-- A search tree with its keys in order. -/
structure Map (α β : Type) [LinearOrder α] where
  tree : Tree α β
  ascending : tree.Ascending

namespace Map

variable {α β : Type} [LinearOrder α]

def empty : Map α β :=
  ⟨.leaf, Pairwise.nil⟩

def get? (map : Map α β) (key : α) : Option β :=
  map.tree.find? key

/-- The value of a key is replaced, or the key is inserted. -/
def set (map : Map α β) (key : α) (value : β) : Map α β :=
  match absent : map.tree.find? key with
  | some _ => ⟨map.tree.replace key value, Tree.ascending_replace map.ascending key value⟩
  | none => ⟨map.tree.insert key value, Tree.ascending_insert map.ascending absent⟩

def entries (map : Map α β) : List (α × β) :=
  map.tree.toList

def mapValues {γ : Type} (map : Map α β) (change : β → γ) : Map α γ :=
  ⟨map.tree.mapValues change, Tree.ascending_mapValues map.ascending change⟩

theorem get?_eq_some {map : Map α β} {key : α} {value : β} :
    map.get? key = some value ↔ (key, value) ∈ map.entries :=
  Tree.find?_eq_some map.ascending

theorem get?_set (map : Map α β) (key other : α) (value : β) :
    (map.set key value).get? other = if other = key then some value else map.get? other := by
  unfold set
  split
  next old found =>
    rw [get?, Tree.find?_replace, found]
    rfl
  next absent =>
    ext result
    rw [get?, Tree.find?_eq_some (Tree.ascending_insert map.ascending absent), Tree.mem_insert,
      Prod.mk.injEq]
    by_cases eq : other = key
    · subst eq
      rw [if_pos rfl, Option.some.injEq]
      constructor
      · rintro (new | old)
        · exact new.2.symm
        · exact absurd old (Tree.find?_eq_none map.ascending |>.mp absent _)
      · exact fun new => Or.inl ⟨rfl, new.symm⟩
    · rw [if_neg eq, ← get?_eq_some.symm]
      exact ⟨fun mem => mem.resolve_left fun new => eq new.1, Or.inr⟩

@[simp] theorem get?_mapValues {γ : Type} (map : Map α β) (change : β → γ) (key : α) :
    (map.mapValues change).get? key = (map.get? key).map change :=
  Tree.find?_mapValues map.tree change key

theorem entries_ascending (map : Map α β) :
    map.entries.Pairwise fun first second => first.1 < second.1 :=
  map.ascending

end Map

end DnaLedger.SearchTree
