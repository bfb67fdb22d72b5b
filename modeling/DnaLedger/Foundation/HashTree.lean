import Mathlib.Data.Nat.Log
import Mathlib.Tactic.Ring

/-!
# Hash trees

Binary trees whose digest is computed from the leaves up. When what is hashed for leaves and for
nodes can be told apart and no two inputs collide, the digest determines the tree and the list of
its leaves. The balanced tree of a list splits it at the largest power of two below its length.
-/

namespace DnaLedger.HashTree

open List Set

inductive LeafTree (α : Type) where
  | leaf (value : α)
  | node (left right : LeafTree α)

variable {α β δ ι : Type}

namespace LeafTree

def leaves : LeafTree α → List α
  | leaf value => [value]
  | node left right => left.leaves ++ right.leaves

def map (image : α → β) : LeafTree α → LeafTree β
  | leaf value => leaf (image value)
  | node left right => node (left.map image) (right.map image)

/-- Combine the values of the leaves, which are digests already. -/
def fold (combine : δ → δ → δ) : LeafTree δ → δ
  | leaf value => value
  | node left right => combine (left.fold combine) (right.fold combine)

end LeafTree

structure Scheme (α ι δ : Type) where
  hash : ι → δ
  leaf : α → ι
  node : δ → δ → ι

namespace Scheme

variable (scheme : Scheme α ι δ)

def digest : LeafTree α → δ
  | .leaf value => scheme.hash (scheme.leaf value)
  | .node left right => scheme.hash (scheme.node (digest left) (digest right))

def inputs : LeafTree α → Set ι
  | .leaf value => {scheme.leaf value}
  | .node left right =>
    insert (scheme.node (scheme.digest left) (scheme.digest right))
      (inputs left ∪ inputs right)

def inputList : LeafTree α → List ι
  | .leaf value => [scheme.leaf value]
  | .node left right =>
    scheme.node (scheme.digest left) (scheme.digest right) :: (inputList left ++ inputList right)

theorem mem_inputList {tree : LeafTree α} {input : ι} :
    input ∈ scheme.inputList tree ↔ input ∈ scheme.inputs tree := by
  induction tree with
  | leaf value => exact mem_singleton
  | node left right leftIH rightIH =>
    rw [inputList, mem_cons, mem_append, leftIH, rightIH]
    exact Iff.rfl

theorem digest_eq_fold (tree : LeafTree α) :
    scheme.digest tree = (tree.map fun value => scheme.hash (scheme.leaf value)).fold
      fun left right => scheme.hash (scheme.node left right) := by
  induction tree with
  | leaf value => rfl
  | node left right leftIH rightIH =>
    rw [digest, leftIH, rightIH]
    rfl

def topInput : LeafTree α → ι
  | .leaf value => scheme.leaf value
  | .node left right => scheme.node (scheme.digest left) (scheme.digest right)

theorem digest_eq_hash (tree : LeafTree α) :
    scheme.digest tree = scheme.hash (scheme.topInput tree) := by
  cases tree <;> rfl

theorem topInput_mem (tree : LeafTree α) : scheme.topInput tree ∈ scheme.inputs tree := by
  cases tree with
  | leaf value => exact rfl
  | node left right => exact mem_insert _ _

theorem inputs_left (left right : LeafTree α) :
    scheme.inputs left ⊆ scheme.inputs (.node left right) :=
  subset_union_left.trans (subset_insert _ _)

theorem inputs_right (left right : LeafTree α) :
    scheme.inputs right ⊆ scheme.inputs (.node left right) :=
  subset_union_right.trans (subset_insert _ _)

/-- The digests of the siblings on the way from a leaf up to the root. -/
def aunts : LeafTree α → Nat → List δ
  | .leaf _, _ => []
  | .node left right, i =>
    if i < left.leaves.length then aunts left i ++ [scheme.digest right]
    else aunts right (i - left.leaves.length) ++ [scheme.digest left]

/-- Leaves that can be told from each other and from nodes. -/
structure Separates (values : Set α) : Prop where
  leaf_injective : InjOn scheme.leaf values
  node_injective : ∀ left right left' right',
    scheme.node left right = scheme.node left' right' → left = left' ∧ right = right'
  leaf_ne_node : ∀ value ∈ values, ∀ left right, scheme.leaf value ≠ scheme.node left right

variable {scheme}

/-- The digest binds the tree. -/
theorem tree_eq_of_digest_eq {values : Set α} (separates : scheme.Separates values)
    {first second : LeafTree α} (firstValues : ∀ value ∈ first.leaves, value ∈ values)
    (secondValues : ∀ value ∈ second.leaves, value ∈ values)
    (free : InjOn scheme.hash (scheme.inputs first ∪ scheme.inputs second))
    (eq : scheme.digest first = scheme.digest second) : first = second := by
  induction first generalizing second with
  | leaf value =>
    have input := free (Or.inl (scheme.topInput_mem _)) (Or.inr (scheme.topInput_mem second))
      (by rwa [← digest_eq_hash, ← digest_eq_hash])
    cases second with
    | leaf other =>
      rw [separates.leaf_injective (firstValues value (mem_singleton_self _))
        (secondValues other (mem_singleton_self _)) input]
    | node left right =>
      exact absurd input (separates.leaf_ne_node value
        (firstValues value (mem_singleton_self _)) _ _)
  | node left right leftIH rightIH =>
    have input := free (Or.inl (scheme.topInput_mem _)) (Or.inr (scheme.topInput_mem second))
      (by rwa [← digest_eq_hash, ← digest_eq_hash])
    cases second with
    | leaf other =>
      exact absurd input.symm (separates.leaf_ne_node other
        (secondValues other (mem_singleton_self _)) _ _)
    | node left' right' =>
      obtain ⟨sameLeft, sameRight⟩ := separates.node_injective _ _ _ _ input
      have leftFree : InjOn scheme.hash (scheme.inputs left ∪ scheme.inputs left') :=
        free.mono (union_subset_union (scheme.inputs_left _ _) (scheme.inputs_left _ _))
      have rightFree : InjOn scheme.hash (scheme.inputs right ∪ scheme.inputs right') :=
        free.mono (union_subset_union (scheme.inputs_right _ _) (scheme.inputs_right _ _))
      rw [leftIH (fun value mem => firstValues value (mem_append_left _ mem))
          (fun value mem => secondValues value (mem_append_left _ mem))
          leftFree sameLeft,
        rightIH (fun value mem => firstValues value (mem_append_right _ mem))
          (fun value mem => secondValues value (mem_append_right _ mem))
          rightFree sameRight]

end Scheme

/-! ## Balanced trees -/

/-- The largest power of two below a number that is at least two. -/
def splitPoint (count : Nat) : Nat :=
  2 ^ Nat.log 2 (count - 1)

theorem splitPoint_pos (count : Nat) : 0 < splitPoint count :=
  Nat.pow_pos (by decide)

variable {count : Nat}

theorem splitPoint_lt (many : 2 ≤ count) : splitPoint count < count := by
  have below := Nat.pow_log_le_self 2 (show count - 1 ≠ 0 by omega)
  rw [splitPoint]
  omega

theorem le_two_mul_splitPoint (count : Nat) : count ≤ 2 * splitPoint count := by
  have above := Nat.lt_pow_succ_log_self (show 1 < 2 by decide) (count - 1)
  rw [Nat.pow_succ] at above
  rw [splitPoint]
  omega

theorem eq_splitPoint (exponent : Nat) (lower : 2 ^ exponent < count)
    (upper : count ≤ 2 * 2 ^ exponent) : splitPoint count = 2 ^ exponent := by
  rw [splitPoint, Nat.log_eq_of_pow_le_of_lt_pow]
  · omega
  · rw [Nat.pow_succ]
    omega

theorem splitPoint_half (many : 2 < count) :
    splitPoint count = 2 * splitPoint ((count + 1) / 2) := by
  have below := splitPoint_lt (show 2 ≤ (count + 1) / 2 by omega)
  have above := le_two_mul_splitPoint ((count + 1) / 2)
  have power : 2 * splitPoint ((count + 1) / 2) =
      2 ^ (Nat.log 2 ((count + 1) / 2 - 1) + 1) := by
    rw [splitPoint, Nat.pow_succ, Nat.mul_comm]
  rw [power]
  apply eq_splitPoint
  · rw [← power]
    omega
  · rw [← power]
    omega

/-- The tree of a list: it splits at the split point of its length. -/
inductive Balanced : List α → LeafTree α → Prop where
  | leaf (value : α) : Balanced [value] (.leaf value)
  | node {left right : List α} {leftTree rightTree : LeafTree α}
      (split : left.length = splitPoint (left.length + right.length))
      (leftBalanced : Balanced left leftTree) (rightBalanced : Balanced right rightTree) :
      Balanced (left ++ right) (.node leftTree rightTree)

variable {values : List α} {tree : LeafTree α}

section

variable (balanced : Balanced values tree)

include balanced

theorem Balanced.leaves : tree.leaves = values := by
  induction balanced with
  | leaf value => rfl
  | node split _ _ leftIH rightIH => rw [LeafTree.leaves, leftIH, rightIH]

theorem Balanced.length_pos : 0 < values.length := by
  induction balanced with
  | leaf value => exact Nat.one_pos
  | node split _ _ leftIH _ =>
    rw [length_append]
    omega

theorem Balanced.eq_leaf {value : α} (single : values = [value]) : tree = .leaf value := by
  cases balanced with
  | leaf other => rw [(cons.inj single).1]
  | node split leftBalanced rightBalanced =>
    have leftPos := leftBalanced.length_pos
    have rightPos := rightBalanced.length_pos
    have length := congrArg length single
    rw [length_append, length_singleton] at length
    omega

theorem Balanced.unique {other : LeafTree α} (balanced' : Balanced values other) :
    tree = other := by
  induction balanced generalizing other with
  | leaf value => exact (balanced'.eq_leaf rfl).symm
  | @node left right leftTree rightTree split leftBalanced rightBalanced leftIH rightIH =>
    generalize whole : left ++ right = values at balanced'
    cases balanced' with
    | leaf value =>
      have leftPos := leftBalanced.length_pos
      have rightPos := rightBalanced.length_pos
      have length := congrArg length whole
      rw [length_append, length_singleton] at length
      omega
    | @node left' right' _ _ split' leftBalanced' rightBalanced' =>
      have length := congrArg length whole
      rw [length_append, length_append] at length
      obtain ⟨rfl, rfl⟩ := append_inj whole (by rw [split, split', length])
      rw [leftIH leftBalanced', rightIH rightBalanced']

theorem Balanced.map (image : α → β) : Balanced (values.map image) (tree.map image) := by
  induction balanced with
  | leaf value => exact Balanced.leaf (image value)
  | node split _ _ leftIH rightIH =>
    rw [map_append]
    exact Balanced.node (by rwa [length_map, length_map]) leftIH rightIH

end

theorem length_take_splitPoint (many : 2 ≤ values.length) :
    (values.take (splitPoint values.length)).length = splitPoint values.length := by
  rw [length_take]
  exact Nat.min_eq_left (Nat.le_of_lt (splitPoint_lt many))

theorem exists_balanced (filled : values ≠ []) : ∃ tree, Balanced values tree := by
  induction size : values.length using Nat.strong_induction_on generalizing values with
  | _ count ih =>
    match values, filled with
    | [value], _ => exact ⟨_, Balanced.leaf value⟩
    | first :: second :: rest, _ =>
      have many : 2 ≤ (first :: second :: rest).length := by simp
      have cut := length_take_splitPoint many
      have below := splitPoint_lt many
      have pos := splitPoint_pos (first :: second :: rest).length
      generalize first :: second :: rest = whole at *
      have parts := take_append_drop (splitPoint whole.length) whole
      have dropped : (whole.drop (splitPoint whole.length)).length =
          whole.length - splitPoint whole.length := length_drop
      obtain ⟨leftTree, leftBalanced⟩ := ih _ (by omega)
        (length_pos_iff.mp (by omega)) cut
      obtain ⟨rightTree, rightBalanced⟩ := ih _ (by omega)
        (length_pos_iff.mp (by omega)) dropped
      refine ⟨_, parts ▸ Balanced.node ?_ leftBalanced rightBalanced⟩
      rw [← length_append, parts, cut]

theorem Balanced.length_aunts_le (scheme : Scheme α ι δ) (balanced : Balanced values tree)
    (i : Nat) {depth : Nat} (small : values.length ≤ 2 ^ depth) :
    (scheme.aunts tree i).length ≤ depth := by
  induction balanced generalizing i depth with
  | leaf value => exact Nat.zero_le _
  | @node left right leftTree rightTree split leftBalanced rightBalanced leftIH rightIH =>
    have leftPos := leftBalanced.length_pos
    have rightPos := rightBalanced.length_pos
    rw [length_append] at small
    have half := le_two_mul_splitPoint (left.length + right.length)
    obtain ⟨depth, rfl⟩ : ∃ less, depth = less + 1 := by
      apply Nat.exists_eq_succ_of_ne_zero
      rintro rfl
      omega
    have power : left.length ≤ 2 ^ depth := by
      have below := splitPoint_lt (show 2 ≤ left.length + right.length by omega)
      rw [split, splitPoint]
      apply Nat.pow_le_pow_right (by decide)
      apply Nat.le_of_lt_succ
      apply (Nat.pow_lt_pow_iff_right (show 1 < 2 by decide)).mp
      exact Nat.lt_of_lt_of_le below small
    rw [Scheme.aunts]
    split
    next =>
      rw [length_append, length_singleton]
      exact Nat.succ_le_succ (leftIH _ power)
    next =>
      rw [length_append, length_singleton]
      exact Nat.succ_le_succ (rightIH _ (by omega))

theorem eq_of_digest_eq {scheme : Scheme α ι δ} {values : Set α}
    (separates : scheme.Separates values) {first second : List α}
    {firstTree secondTree : LeafTree α}
    (firstBalanced : Balanced first firstTree) (secondBalanced : Balanced second secondTree)
    (firstValues : ∀ value ∈ first, value ∈ values)
    (secondValues : ∀ value ∈ second, value ∈ values)
    (free : InjOn scheme.hash (scheme.inputs firstTree ∪ scheme.inputs secondTree))
    (eq : scheme.digest firstTree = scheme.digest secondTree) : first = second := by
  rw [← firstBalanced.leaves] at firstValues ⊢
  rw [← secondBalanced.leaves] at secondValues ⊢
  rw [Scheme.tree_eq_of_digest_eq separates firstValues secondValues free eq]

variable (combine : δ → δ → δ)

/-- Combine neighbours, and promote the last of an odd level. -/
def pairUp : List δ → List δ
  | first :: second :: rest => combine first second :: pairUp rest
  | short => short

theorem length_pairUp : (level : List δ) → (pairUp combine level).length = (level.length + 1) / 2
  | first :: second :: rest => by
      rw [pairUp, length_cons, length_pairUp rest, length_cons, length_cons]
      omega
  | [_] => by simp [pairUp]
  | [] => by simp [pairUp]

theorem pairUp_append : (left right : List δ) → left.length % 2 = 0 →
    pairUp combine (left ++ right) = pairUp combine left ++ pairUp combine right
  | first :: second :: rest, right, even => by
      rw [length_cons, length_cons] at even
      rw [cons_append, cons_append, pairUp, pairUp,
        pairUp_append rest right (by omega), cons_append]
  | [_], _, odd => by cases odd
  | [], _, _ => rfl

theorem Balanced.pairUp {level : List δ} {tree : LeafTree δ} (balanced : Balanced level tree) :
    ∃ next, Balanced (pairUp combine level) next ∧ next.fold combine = tree.fold combine := by
  induction balanced with
  | leaf value => exact ⟨_, Balanced.leaf value, rfl⟩
  | @node left right leftTree rightTree split leftBalanced rightBalanced leftIH rightIH =>
    have leftPos := leftBalanced.length_pos
    have rightPos := rightBalanced.length_pos
    by_cases pair : left.length + right.length = 2
    · -- two leaves become one
      obtain ⟨first, rfl⟩ := length_eq_one_iff.mp (show left.length = 1 by omega)
      obtain ⟨second, rfl⟩ := length_eq_one_iff.mp (show right.length = 1 by omega)
      rw [leftBalanced.eq_leaf rfl, rightBalanced.eq_leaf rfl]
      exact ⟨_, Balanced.leaf (combine first second), rfl⟩
    · -- the left half is even, so the halves pair up by themselves
      have half := splitPoint_half (show 2 < left.length + right.length by omega)
      obtain ⟨leftNext, leftPaired, leftSame⟩ := leftIH
      obtain ⟨rightNext, rightPaired, rightSame⟩ := rightIH
      refine ⟨.node leftNext rightNext, ?_, ?_⟩
      · rw [pairUp_append combine left right (by omega)]
        refine Balanced.node ?_ leftPaired rightPaired
        rw [length_pairUp, length_pairUp,
          show (left.length + 1) / 2 + (right.length + 1) / 2 =
            (left.length + right.length + 1) / 2 by omega]
        omega
      · rw [LeafTree.fold, LeafTree.fold, leftSame, rightSame]

variable {combine}

/-- The combined neighbours are written to the front of an array: `done` of them, and what is
behind is not read yet. -/
structure InPlace (combine : δ → δ → δ) (original level : List δ) (done : Nat) : Prop where
  length : level.length = original.length
  written : level.take done = pairUp combine (original.take (2 * done))
  unread : ∀ i, 2 * done ≤ i → level[i]? = original[i]?

theorem InPlace.start (original : List δ) : InPlace combine original original 0 where
  length := rfl
  written := by simp [pairUp]
  unread := fun _ _ => rfl

variable {original level : List δ} {done : Nat}

theorem InPlace.step (pass : InPlace combine original level done) {first second : δ}
    (atFirst : level[2 * done]? = some first) (atSecond : level[2 * done + 1]? = some second) :
    InPlace combine original (level.set done (combine first second)) (done + 1) where
  length := by rw [length_set, pass.length]
  written := by
    rw [pass.unread _ (Nat.le_refl _)] at atFirst
    rw [pass.unread _ (Nat.le_succ _)] at atSecond
    obtain ⟨insideFirst, first_eq⟩ := List.getElem?_eq_some_iff.mp atFirst
    obtain ⟨insideSecond, second_eq⟩ := List.getElem?_eq_some_iff.mp atSecond
    have room : done < level.length := by
      rw [pass.length]
      omega
    have even : (original.take (2 * done)).length % 2 = 0 := by
      rw [length_take]
      omega
    have front : original.take (2 * (done + 1)) =
        original.take (2 * done) ++ [first, second] := by
      rw [show 2 * (done + 1) = 2 * done + 1 + 1 by omega, take_succ_eq_append_getElem insideSecond,
        take_succ_eq_append_getElem insideFirst, first_eq, second_eq, append_assoc]
      rfl
    rw [front, pairUp_append combine _ _ even, ← pass.written, take_succ_eq_append_getElem (by rwa
      [length_set]), getElem_set_self, take_set_of_le (Nat.le_refl _)]
    rfl
  unread := by
    intro i behind
    rw [getElem?_set_ne (by omega)]
    exact pass.unread i (by omega)

theorem InPlace.promote (pass : InPlace combine original level done) {last : δ}
    (atLast : level[2 * done]? = some last) :
    (level.set done last).take (done + 1) =
      HashTree.pairUp combine (original.take (2 * done + 1)) := by
  rw [pass.unread _ (Nat.le_refl _)] at atLast
  obtain ⟨inside, last_eq⟩ := List.getElem?_eq_some_iff.mp atLast
  have room : done < level.length := by
    rw [pass.length]
    omega
  have even : (original.take (2 * done)).length % 2 = 0 := by
    rw [length_take]
    omega
  rw [take_succ_eq_append_getElem inside, last_eq, pairUp_append combine _ _ even,
    ← pass.written, take_succ_eq_append_getElem (by rwa [length_set]),
    getElem_set_self, take_set_of_le (Nat.le_refl _)]
  simp [pairUp]

end DnaLedger.HashTree
