import Mathlib.Data.Nat.Bitwise
import Mathlib.Data.Set.Function

/-!
# Hash trees that take in digests on the way up

A binary hash tree in which a level may take in one more digest at each of its nodes.
-/

namespace DnaLedger.MixedTree

variable {δ : Type}

section
variable (compress : δ → δ → δ)

/-- Take in a digest if there is one. -/
def join (digest : δ) : Option δ → δ
  | none => digest
  | some taken => compress digest taken

/-- A digest and its sibling, in the order in which they are compressed. -/
def ordered (index : Nat) (digest sibling : δ) : δ × δ :=
  if index % 2 = 0 then (digest, sibling) else (sibling, digest)

/-- From a digest at some level and index, up along its siblings. -/
def climb (taken : Nat → Option δ) : Nat → Nat → δ → List δ → δ
  | _, _, digest, [] => digest
  | level, index, digest, sibling :: siblings =>
    let pair := ordered index digest sibling
    climb taken (level + 1) (index / 2) (join compress (compress pair.1 pair.2) (taken (level + 1)))
      siblings

variable (leaf : Nat → δ) (extra : Nat → Nat → Option δ)

def node : Nat → Nat → δ
  | 0, index => leaf index
  | level + 1, index =>
    join compress (compress (node level (2 * index)) (node level (2 * index + 1)))
      (extra (level + 1) index)

/-- The siblings on the way up from some level and index. -/
def path : Nat → Nat → Nat → List δ
  | _, _, 0 => []
  | level, index, count + 1 =>
    node compress leaf extra level (index ^^^ 1) :: path (level + 1) (index / 2) count

/-- A pair, and its digest with the one that is taken in. -/
def pairInputs (pair : δ × δ) (taken : Option δ) : List (δ × δ) :=
  pair :: (taken.map fun other => (compress pair.1 pair.2, other)).toList

def nodeInputs (level index : Nat) : List (δ × δ) :=
  pairInputs compress
    (node compress leaf extra level (2 * index), node compress leaf extra level (2 * index + 1))
    (extra (level + 1) index)

def climbInputs (taken : Nat → Option δ) : Nat → Nat → δ → List δ → List (δ × δ)
  | _, _, _, [] => []
  | level, index, digest, sibling :: siblings =>
    let pair := ordered index digest sibling
    pairInputs compress pair (taken (level + 1)) ++
      climbInputs taken (level + 1) (index / 2)
        (join compress (compress pair.1 pair.2) (taken (level + 1))) siblings

end

variable {compress : δ → δ → δ} {leaf : Nat → δ} {extra : Nat → Nat → Option δ}

@[simp] theorem length_path (level index count : Nat) :
    (path compress leaf extra level index count).length = count := by
  induction count generalizing level index with
  | zero => rfl
  | succ count ih => rw [path, List.length_cons, ih]

theorem ordered_node (level index : Nat) :
    ordered index (node compress leaf extra level index)
        (node compress leaf extra level (index ^^^ 1)) =
      (node compress leaf extra level (2 * (index / 2)),
        node compress leaf extra level (2 * (index / 2) + 1)) := by
  rcases Nat.even_or_odd index with even | odd
  · rw [ordered, if_pos (Nat.even_iff.mp even), Nat.xor_one_of_even even,
      Nat.two_mul_div_two_of_even even]
  · have ne : ¬ index % 2 = 0 := by
      rw [Nat.odd_iff.mp odd]
      decide
    have above : index - 1 = 2 * (index / 2) := by
      have := Nat.odd_iff.mp odd
      omega
    rw [ordered, if_neg ne, Nat.xor_one_of_odd odd, above, Nat.two_mul_div_two_add_one_of_odd odd]

theorem climb_congr {taken taken' : Nat → Option δ}
    (eq : ∀ level, taken (level + 1) = taken' (level + 1)) (level index : Nat) (digest : δ)
    (siblings : List δ) :
    climb compress taken level index digest siblings =
      climb compress taken' level index digest siblings := by
  induction siblings generalizing level index digest with
  | nil => rfl
  | cons sibling siblings ih => rw [climb, climb, eq, ih]

theorem climb_path (taken : Nat → Option δ) (level index count : Nat)
    (eq : ∀ step < count, taken (level + step + 1) =
      extra (level + step + 1) (index / 2 ^ (step + 1))) :
    climb compress taken level index (node compress leaf extra level index)
        (path compress leaf extra level index count) =
      node compress leaf extra (level + count) (index / 2 ^ count) := by
  induction count generalizing level index with
  | zero => rw [path, climb, Nat.pow_zero, Nat.div_one, Nat.add_zero]
  | succ count ih =>
    have first := eq 0 (Nat.succ_pos count)
    have above := ih (level + 1) (index / 2) fun step below => by
      have later := eq (step + 1) (Nat.succ_lt_succ below)
      rwa [Nat.pow_succ', ← Nat.div_div_eq_div_mul, ← Nat.add_assoc,
        Nat.add_right_comm level step 1] at later
    rw [Nat.zero_add, Nat.pow_one, Nat.add_zero] at first
    rw [path, climb, ordered_node]
    dsimp only
    rw [first, ← node, above, Nat.pow_succ', Nat.div_div_eq_div_mul, Nat.add_right_comm,
      Nat.add_assoc]

variable {inputs : Set (δ × δ)}
  (free : Set.InjOn (fun pair : δ × δ => compress pair.1 pair.2) inputs)
include free

theorem join_inj {pair pair' : δ × δ} {taken taken' : Option δ}
    (mine : ∀ input ∈ pairInputs compress pair taken, input ∈ inputs)
    (other : ∀ input ∈ pairInputs compress pair' taken', input ∈ inputs)
    (shape : taken.isSome = taken'.isSome)
    (eq : join compress (compress pair.1 pair.2) taken =
      join compress (compress pair'.1 pair'.2) taken') :
    pair = pair' ∧ taken = taken' := by
  have pairs (digests : compress pair.1 pair.2 = compress pair'.1 pair'.2) : pair = pair' :=
    free (mine pair List.mem_cons_self) (other pair' List.mem_cons_self) digests
  rcases taken with _ | value <;> rcases taken' with _ | value'
  · exact ⟨pairs eq, rfl⟩
  · cases shape
  · cases shape
  · have joined := free (mine (compress pair.1 pair.2, value) (by simp [pairInputs]))
      (other (compress pair'.1 pair'.2, value') (by simp [pairInputs])) eq
    obtain ⟨digests, rfl⟩ := Prod.mk.inj joined
    exact ⟨pairs digests, rfl⟩

/-- Without a collision only a node climbs to a node above it, with the digests taken in on
the way. -/
theorem climb_inj {taken : Nat → Option δ} {siblings : List δ} {level index : Nat} {digest : δ}
    (mine : ∀ input ∈ climbInputs compress taken level index digest siblings, input ∈ inputs)
    (tree : ∀ step < siblings.length, ∀ input ∈
      nodeInputs compress leaf extra (level + step) (index / 2 ^ (step + 1)), input ∈ inputs)
    (shape : ∀ step < siblings.length, (taken (level + step + 1)).isSome =
      (extra (level + step + 1) (index / 2 ^ (step + 1))).isSome)
    (reached : climb compress taken level index digest siblings =
      node compress leaf extra (level + siblings.length) (index / 2 ^ siblings.length)) :
    digest = node compress leaf extra level index ∧
      ∀ step < siblings.length, taken (level + step + 1) =
        extra (level + step + 1) (index / 2 ^ (step + 1)) := by
  induction siblings generalizing level index digest with
  | nil =>
    rw [climb, List.length_nil, Nat.pow_zero, Nat.div_one] at reached
    exact ⟨reached, fun step below => absurd below (Nat.not_lt_zero step)⟩
  | cons sibling siblings ih =>
    have shift (step : Nat) : level + 1 + step + 1 = level + (step + 1) + 1 := by omega
    have halves (step : Nat) : index / 2 / 2 ^ step = index / 2 ^ (step + 1) := by
      rw [Nat.div_div_eq_div_mul, Nat.pow_succ']
    have later : ∀ step < siblings.length, step + 1 < (sibling :: siblings).length :=
      fun step below => Nat.succ_lt_succ below
    rw [climbInputs] at mine
    rw [climb] at reached
    -- The node above is what the rest of the path starts from.
    obtain ⟨joined, rest⟩ := ih
      (fun input inside => mine input (List.mem_append_right _ inside))
      (fun step below => by
        have inputs := tree (step + 1) (later step below)
        rwa [Nat.add_right_comm level 1 step, halves, Nat.add_assoc])
      (fun step below => by
        rw [shift, halves]
        exact shape (step + 1) (later step below))
      (by rw [reached, halves, List.length_cons, Nat.add_right_comm, Nat.add_assoc])
    have first : 0 < (sibling :: siblings).length := Nat.succ_pos _
    have top := tree 0 first
    have topShape := shape 0 first
    rw [Nat.zero_add, Nat.pow_one, Nat.add_zero] at top topShape
    rw [node] at joined
    obtain ⟨pair, taking⟩ := join_inj free
      (fun input inside => mine input (List.mem_append_left _ inside)) top topShape joined
    rw [← ordered_node] at pair
    constructor
    · rw [ordered, ordered] at pair
      split at pair
      next => exact (Prod.mk.inj pair).1
      next => exact (Prod.mk.inj pair).2
    · intro step below
      cases step with
      | zero => rwa [Nat.zero_add, Nat.pow_one, Nat.add_zero]
      | succ step =>
        have other := rest step (Nat.lt_of_succ_lt_succ below)
        rwa [shift, halves] at other

end DnaLedger.MixedTree
