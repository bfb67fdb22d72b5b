import DnaLedger.Arith.SInt64
import DnaLedger.Cmt.Merkle
import DnaLedger.Foundation.HashTree

/-!
# Merkle proofs are complete and sound

A proof with the right total goes down the same balanced tree as the items, so without a collision
its leaf is the item at its index.
-/

namespace DnaLedger.Cmt

open HashTree SInt64 List Set

theorem bitLength_eq (fuel : Nat) {word : UInt64} (small : word.toNat < 2 ^ fuel) :
    bitLength fuel word = if word = 0 then 0 else Nat.log 2 word.toNat + 1 := by
  induction fuel generalizing word with
  | zero =>
    have zero : word = 0 := UInt64.toNat_inj.mp (by simpa using small)
    simp [bitLength, zero]
  | succ fuel ih =>
    rw [bitLength]
    split
    next => rfl
    next ne =>
      have half : (word >>> 1).toNat = word.toNat / 2 := by
        simp [UInt64.toNat_shiftRight, Nat.shiftRight_eq_div_pow]
      have pos : word.toNat ≠ 0 := fun zero => ne (UInt64.toNat_inj.mp zero)
      rw [ih (by rw [half]; omega)]
      by_cases one : word.toNat < 2
      · have zero : word >>> 1 = 0 := by
          apply UInt64.toNat_inj.mp
          rw [half]
          exact Nat.div_eq_of_lt one
        rw [if_pos zero, Nat.log_of_lt one]
      · have half_ne : word >>> 1 ≠ 0 := by
          intro zero
          have value := congrArg UInt64.toNat zero
          rw [half] at value
          have : (0 : UInt64).toNat = 0 := rfl
          omega
        rw [if_neg half_ne, half, Nat.log_div_base, Nat.sub_add_cancel]
        exact Nat.log_pos (by decide) (by omega)

theorem toInt_getSplitPoint {length : Int64} (many : 2 ≤ length.toInt) :
    (getSplitPoint length).toInt = splitPoint length.toInt.toNat := by
  obtain ⟨-, upper⟩ := inRange_toInt length
  obtain ⟨n, size⟩ : ∃ n : Nat, length.toInt = n := ⟨_, (Int.toNat_of_nonneg (by omega)).symm⟩
  have word : length.toUInt64.toNat = n := by
    have value := toNat_toUInt64 (show 0 ≤ length.toInt by omega)
    omega
  have ne : length.toUInt64 ≠ 0 := by
    intro zero
    rw [zero] at word
    have : (0 : UInt64).toNat = 0 := rfl
    omega
  have floor := Nat.pow_log_le_self 2 (show n ≠ 0 by omega)
  have ceiling := Nat.lt_pow_succ_log_self (show 1 < 2 by decide) n
  rw [pow_succ] at ceiling
  have bits : Nat.log 2 n < 63 := Nat.log_lt_of_lt_pow (by omega) (by omega)
  have power : 2 ^ Nat.log 2 n < 2 ^ 63 := Nat.pow_lt_pow_right (by decide) bits
  have top : (1 <<< UInt64.ofNat (bitLength 64 length.toUInt64 - 1) : UInt64).toNat =
      2 ^ Nat.log 2 n := by
    have shift : Nat.log 2 n % 2 ^ 64 % 64 = Nat.log 2 n := by omega
    rw [bitLength_eq 64 length.toUInt64.toNat_lt, if_neg ne, word, Nat.add_sub_cancel,
      UInt64.toNat_shiftLeft, UInt64.toNat_ofNat', shift, Nat.shiftLeft_eq, UInt64.toNat_one,
      one_mul]
    exact Nat.mod_eq_of_lt (by omega)
  have signed := toInt_toInt64 (by rw [top]; exact power)
  rw [top] at signed
  have one : (1 : Int64).toInt = 1 := rfl
  rw [getSplitPoint, if_neg (by rw [Int64.not_lt, Int64.le_iff_toInt_le]; omega)]
  dsimp only
  generalize (1 <<< UInt64.ofNat (bitLength 64 length.toUInt64 - 1) : UInt64).toInt64 = k
    at signed ⊢
  rw [size, Int.toNat_natCast]
  split
  next eq =>
    -- the length is a power of two, so the one below it is its half
    rw [eq] at signed
    have power : 2 ^ Nat.log 2 n = n := by omega
    obtain ⟨e, log⟩ : ∃ e, Nat.log 2 n = e + 1 := Nat.exists_eq_succ_of_ne_zero (by
      intro zero
      rw [zero] at power
      omega)
    rw [log, pow_succ] at power
    rw [eq, toInt_div (by decide), size, eq_splitPoint e (by omega) (by omega)]
    have two : (2 : Int64).toInt = 2 := rfl
    rw [two, Int.tdiv_eq_ediv_of_nonneg (by omega)]
    omega
  next apart =>
    have below : 2 ^ Nat.log 2 n ≠ n := by
      intro eq
      apply apart
      apply Int64.toInt_inj.mp
      omega
    rw [signed, eq_splitPoint (Nat.log 2 n) (by omega) (by omega)]

theorem splitIndex_eq {n : Nat} (many : 2 ≤ n) (fits : n < 2 ^ 63) :
    splitIndex n = some (splitPoint n) := by
  have word : (Int64.ofNat n).toInt = n := Int64.toInt_ofNat_of_lt fits
  have point := toInt_getSplitPoint (show 2 ≤ (Int64.ofNat n).toInt by omega)
  rw [word, Int.toNat_natCast] at point
  have pos := splitPoint_pos n
  have below := splitPoint_lt many
  rw [splitIndex, point, if_neg (by omega), Int.toNat_natCast]

theorem splitIndex_append {left right : List Bytes}
    (split : left.length = splitPoint (left.length + right.length)) (leftPos : 0 < left.length)
    (rightPos : 0 < right.length) (fits : (left ++ right).length < 2 ^ 63) :
    ∃ first second rest, left ++ right = first :: second :: rest ∧
      splitIndex (first :: second :: rest).length = some left.length ∧
      (first :: second :: rest).take left.length = left ∧
      (first :: second :: rest).drop left.length = right := by
  have size : (left ++ right).length = left.length + right.length := length_append
  have index := splitIndex_eq (by omega) fits
  match whole : left ++ right with
  | [] | [_] =>
    rw [whole] at size
    simp only [length_nil, length_singleton] at size
    omega
  | first :: second :: rest =>
    refine ⟨first, second, rest, rfl, ?_⟩
    rw [← whole, index, size, ← split]
    exact ⟨rfl, take_left, drop_left⟩

def merkleScheme (tmhash : Hash) : Scheme Bytes Bytes Digest where
  hash := tmhash
  leaf := fun item => 0 :: item
  node := fun left right => 1 :: (left.val ++ right.val)

theorem merkleScheme_separates (tmhash : Hash) : (merkleScheme tmhash).Separates univ where
  leaf_injective := fun _ _ _ _ eq => (cons.inj eq).2
  node_injective := by
    intro left right left' right' eq
    obtain ⟨sameLeft, rest⟩ := Digest.append_inj (cons.inj eq).2
    exact ⟨sameLeft, Subtype.ext rest⟩
  leaf_ne_node := by
    intro item _ left right eq
    exact absurd (cons.inj eq).1 (by decide)

section

variable (tmhash : Hash)

theorem hashFromByteSlices_split {left right : List Bytes}
    (split : left.length = splitPoint (left.length + right.length)) (leftPos : 0 < left.length)
    (rightPos : 0 < right.length) (fits : (left ++ right).length < 2 ^ 63) :
    hashFromByteSlices tmhash (left ++ right) = (do
      let leftRoot ← hashFromByteSlices tmhash left
      let rightRoot ← hashFromByteSlices tmhash right
      .ok (innerHash tmhash leftRoot rightRoot)) := by
  obtain ⟨first, second, rest, whole, index, takes, drops⟩ :=
    splitIndex_append split leftPos rightPos fits
  rw [whole, hashFromByteSlices]
  split
  next empty => cases index.symm.trans empty
  next k found =>
    cases index.symm.trans found
    rw [takes, drops]

variable {items : List Bytes} {tree : LeafTree Bytes} {size : Nat} {hashes : List Digest}

theorem hashFromByteSlices_eq (balanced : Balanced items tree) (fits : items.length < 2 ^ 63) :
    hashFromByteSlices tmhash items = .ok ((merkleScheme tmhash).digest tree) := by
  induction balanced with
  | leaf item => rw [hashFromByteSlices]; rfl
  | node split leftBalanced rightBalanced leftIH rightIH =>
    have size := fits
    rw [length_append] at size
    rw [hashFromByteSlices_split tmhash split leftBalanced.length_pos rightBalanced.length_pos
      fits, leftIH (by omega), rightIH (by omega)]
    rfl

theorem levelPass_eq {original : List Digest} {wp : Nat}
    (pass : InPlace (innerHash tmhash) original hashes wp) (bound : size ≤ original.length)
    (left : 2 * wp ≤ size) :
    ∃ next, levelPass tmhash size hashes (2 * wp) wp = .ok (next, (size + 1) / 2) ∧
      next.length = original.length ∧
      next.take ((size + 1) / 2) = pairUp (innerHash tmhash) (original.take size) := by
  induction remaining : size - 2 * wp using Nat.strong_induction_on generalizing hashes wp with
  | _ count ih =>
    have length := pass.length
    rw [levelPass]
    by_cases more : 2 * wp < size
    · rw [if_pos more]
      have first := getElem?_eq_getElem (show 2 * wp < hashes.length by omega)
      by_cases pair : 2 * wp + 1 < size
      · have second := getElem?_eq_getElem (show 2 * wp + 1 < hashes.length by omega)
        rw [if_pos pair, first, second]
        exact ih _ (by omega) (pass.step first second) (by omega) rfl
      · rw [if_neg pair, first]
        dsimp only
        obtain rfl : size = 2 * wp + 1 := by omega
        have above : (2 * wp + 1 + 1) / 2 = wp + 1 := by omega
        rw [levelPass, if_neg (by omega), above]
        exact ⟨_, rfl, by rw [length_set, length], pass.promote first⟩
    · rw [if_neg more]
      obtain rfl : size = 2 * wp := by omega
      rw [show (2 * wp + 1) / 2 = wp by omega]
      exact ⟨_, rfl, length, pass.written⟩

theorem levelLoop_eq {fuel : Nat} {tree : LeafTree Digest} (enough : size ≤ fuel)
    (bound : size ≤ hashes.length) (balanced : Balanced (hashes.take size) tree) :
    levelLoop tmhash fuel hashes size = .ok (tree.fold (innerHash tmhash)) := by
  induction fuel generalizing size hashes tree with
  | zero =>
    have pos := balanced.length_pos
    rw [length_take] at pos
    omega
  | succ fuel ih =>
    have pos := balanced.length_pos
    rw [length_take] at pos
    rw [levelLoop]
    by_cases one : size = 1
    · subst one
      match hashes with
      | first :: rest =>
        rw [balanced.eq_leaf rfl]
        rfl
    · rw [if_neg one]
      obtain ⟨next, passed, length, level⟩ :=
        levelPass_eq tmhash (InPlace.start hashes) bound (Nat.zero_le size)
      obtain ⟨above, nextBalanced, eq⟩ := balanced.pairUp (innerHash tmhash)
      rw [← level] at nextBalanced
      rw [show levelPass tmhash size hashes 0 0 = _ from passed, ← eq]
      exact ih (by omega) (by omega) nextBalanced

theorem hashFromByteSlicesIterative_eq (balanced : Balanced items tree)
    (fits : items.length ≤ (2 ^ 64 - 1) / digestSize) :
    hashFromByteSlicesIterative tmhash items = .ok ((merkleScheme tmhash).digest tree) := by
  have filled : items ≠ [] := length_pos_iff.mp balanced.length_pos
  rw [hashFromByteSlicesIterative, if_neg filled, if_neg (not_lt.mpr fits), Scheme.digest_eq_fold]
  apply levelLoop_eq tmhash le_rfl (by rw [length_map])
  rw [take_of_length_le (by rw [length_map])]
  exact balanced.map _

end

/-! ## The arena -/

/-- The walk from a place to the node at `top`, over nodes from `low` on, and the siblings it
meets. -/
inductive Climbs (arena : List ProofNode) (low : Nat) : Nat → Nat → List Digest → Prop where
  | here (top : Nat) : Climbs arena low top top []
  | up {place parent sibling top : Nat} {spn aunt : ProofNode} {rest : List Digest}
      (inside : low ≤ place) (found : arena[place]? = some spn)
      (linked : spn.parent = some parent) (above : place < parent)
      (beside : spn.left.or spn.right = some sibling) (siblingInside : low ≤ sibling)
      (siblingBelow : sibling < parent) (met : arena[sibling]? = some aunt)
      (further : Climbs arena low parent top rest) :
      Climbs arena low place top (aunt.hash :: rest)

section

variable {arena : List ProofNode} {low place top : Nat} {aunts : List Digest}
  (climbs : Climbs arena low place top aunts)

include climbs

theorem Climbs.le_top : place ≤ top := by
  induction climbs with
  | here => exact le_rfl
  | up _ _ _ above _ _ _ _ _ ih => omega

omit climbs in
theorem Climbs.frame {other : List ProofNode} {lower : Nat} (wider : lower ≤ low)
    (climbs : Climbs arena low place top aunts)
    (eq : ∀ i, low ≤ i → i < top → other[i]? = arena[i]?) :
    Climbs other lower place top aunts := by
  induction climbs with
  | here top => exact Climbs.here top
  | up inside found linked above beside siblingInside siblingBelow met further ih =>
    have bound := further.le_top
    exact Climbs.up (by omega) (by rw [eq _ inside (by omega), found]) linked above beside
      (by omega) siblingBelow (by rw [eq _ siblingInside (by omega), met]) (ih eq)

theorem Climbs.snoc {parent sibling : Nat} {spn aunt : ProofNode} (inside : low ≤ top)
    (found : arena[top]? = some spn) (linked : spn.parent = some parent) (above : top < parent)
    (beside : spn.left.or spn.right = some sibling) (siblingInside : low ≤ sibling)
    (siblingBelow : sibling < parent) (met : arena[sibling]? = some aunt) :
    Climbs arena low place parent (aunts ++ [aunt.hash]) := by
  induction climbs with
  | here top =>
    exact Climbs.up inside found linked above beside siblingInside siblingBelow met
      (Climbs.here parent)
  | up inside' found' linked' above' beside' siblingInside' siblingBelow' met' _ ih =>
    exact Climbs.up inside' found' linked' above' beside' siblingInside' siblingBelow' met'
      (ih inside found above)

theorem flattenAunts_eq {root : ProofNode} (atTop : arena[top]? = some root)
    (alone : root.left.or root.right = none) (last : root.parent = none) {cap fuel : Nat}
    {out : List Digest} (room : out.length + aunts.length ≤ cap)
    (enough : arena.length ≤ fuel + place) :
    flattenAunts arena cap fuel (some place) out = .ok (out ++ aunts) := by
  induction climbs generalizing fuel out with
  | here top =>
    have inside := (List.getElem?_eq_some_iff.mp atTop).1
    obtain ⟨fuel, rfl⟩ : ∃ less, fuel = less + 1 :=
      Nat.exists_eq_succ_of_ne_zero (by omega)
    simp only [flattenAunts, atTop, ProofNode.aunt, alone, Option.bind_none, last, append_nil]
  | @up place parent sibling top spn aunt rest inside found linked above beside _ _ met _ ih =>
    have inside := (List.getElem?_eq_some_iff.mp found).1
    obtain ⟨fuel, rfl⟩ : ∃ less, fuel = less + 1 :=
      Nat.exists_eq_succ_of_ne_zero (by omega)
    rw [length_cons] at room
    simp only [flattenAunts, found, ProofNode.aunt, beside, Option.bind_some, met,
      Option.map_some, linked, if_neg (show ¬ cap ≤ out.length by omega)]
    rw [ih atTop (by rw [length_append, length_singleton]; omega) (by omega), append_assoc]
    rfl

end

/-- The part of the arena for a list: its last node is the root, without links yet, and the walk
from each leaf to it meets its aunts. -/
structure Built (tmhash : Hash) (before : List ProofNode) (items : List Bytes)
    (tree : LeafTree Bytes) (trails : Trails) : Prop where
  kept : ∀ i, i < before.length → trails.arena[i]? = before[i]?
  size : trails.arena.length + 1 = before.length + 2 * items.length
  root : trails.root + 1 = trails.arena.length
  rootNode : trails.arena[trails.root]? =
    some ⟨(merkleScheme tmhash).digest tree, none, none, none⟩
  count : trails.trails.length = items.length
  leaf : ∀ (i place : Nat) (item : Bytes), trails.trails[i]? = some place →
    items[i]? = some item → before.length ≤ place ∧ place ≤ trails.root ∧
      trails.arena[place]?.map ProofNode.hash = some (leafHash tmhash item)
  climbs : ∀ i place : Nat, trails.trails[i]? = some place →
    Climbs trails.arena before.length place trails.root ((merkleScheme tmhash).aunts tree i)

section

variable {tmhash : Hash} {cap : Nat} {before : List ProofNode}

theorem trailsRec_leaf (room : before.length < cap) (item : Bytes) :
    ∃ trails, trailsRec tmhash cap [item] before = .ok trails ∧
      Built tmhash before [item] (.leaf item) trails := by
  refine ⟨⟨before ++ [⟨leafHash tmhash item, none, none, none⟩], [before.length],
    before.length⟩, ?_, ?_⟩
  · rw [trailsRec, arenaTake, if_neg (not_le.mpr room)]
    rfl
  · have last : (before ++
        [(⟨leafHash tmhash item, none, none, none⟩ : ProofNode)])[before.length]? =
          some ⟨leafHash tmhash item, none, none, none⟩ := by simp
    refine ⟨?_, by simp, by simp, last, rfl, ?_, ?_⟩
    · intro i inside
      exact getElem?_append_left inside
    · intro i place other atPlace atItem
      cases i with
      | zero =>
        cases atPlace
        cases atItem
        exact ⟨le_rfl, le_rfl, by rw [last]; rfl⟩
      | succ i => cases atPlace
    · intro i place atPlace
      cases i with
      | zero =>
        cases atPlace
        exact Climbs.here _
      | succ i => cases atPlace

theorem getElem?_linkSiblings (arena : List ProofNode) {left right : Nat} (apart : left ≠ right)
    (node i : Nat) :
    (linkSiblings arena left right node)[i]? =
      if i = left then
        arena[i]?.map fun entry => { entry with parent := some node, right := some right }
      else if i = right then
        arena[i]?.map fun entry => { entry with parent := some node, left := some left }
      else arena[i]? := by
  rw [linkSiblings, getElem?_modify, getElem?_modify]
  by_cases isLeft : i = left
  · subst isLeft
    simp [apart.symm]
  · by_cases isRight : i = right
    · subst isRight
      simp [apart, isLeft]
    · simp [isLeft, isRight, Ne.symm isLeft, Ne.symm isRight]

theorem Built.join {leftItems rightItems : List Bytes} {leftTree rightTree : LeafTree Bytes}
    {left right : Trails} (leftLeaves : leftTree.leaves = leftItems)
    (leftBuilt : Built tmhash before leftItems leftTree left)
    (rightBuilt : Built tmhash left.arena rightItems rightTree right)
    (leftPos : 0 < leftItems.length) (rightPos : 0 < rightItems.length) :
    Built tmhash before (leftItems ++ rightItems) (.node leftTree rightTree)
      ⟨linkSiblings (right.arena ++ [⟨innerHash tmhash ((merkleScheme tmhash).digest leftTree)
          ((merkleScheme tmhash).digest rightTree), none, none, none⟩])
          left.root right.root right.arena.length,
        left.trails ++ right.trails, right.arena.length⟩ := by
  have leftRoot := leftBuilt.root
  have rightRoot := rightBuilt.root
  have leftSize := leftBuilt.size
  have rightSize := rightBuilt.size
  have order : left.root ≠ right.root := by omega
  have leftNode : right.arena[left.root]? =
      some ⟨(merkleScheme tmhash).digest leftTree, none, none, none⟩ := by
    rw [rightBuilt.kept _ (by omega), leftBuilt.rootNode]
  generalize top : (⟨innerHash tmhash ((merkleScheme tmhash).digest leftTree)
    ((merkleScheme tmhash).digest rightTree), none, none, none⟩ : ProofNode) = node
  generalize final : linkSiblings (right.arena ++ [node]) left.root right.root
    right.arena.length = arena
  have places : ∀ i, arena[i]? = if i = left.root then
        (right.arena ++ [node])[i]?.map fun entry =>
          { entry with parent := some right.arena.length, right := some right.root }
      else if i = right.root then
        (right.arena ++ [node])[i]?.map fun entry =>
          { entry with parent := some right.arena.length, left := some left.root }
      else (right.arena ++ [node])[i]? := by
    intro i
    rw [← final, getElem?_linkSiblings _ order]
  have others : ∀ i, i < right.arena.length → i ≠ left.root → i ≠ right.root →
      arena[i]? = right.arena[i]? := by
    intro i inside notLeft notRight
    rw [places, if_neg notLeft, if_neg notRight, getElem?_append_left inside]
  have atLeft : arena[left.root]? = some ⟨(merkleScheme tmhash).digest leftTree,
      some right.arena.length, none, some right.root⟩ := by
    rw [places, if_pos rfl, getElem?_append_left (by omega), leftNode]
    rfl
  have atRight : arena[right.root]? = some ⟨(merkleScheme tmhash).digest rightTree,
      some right.arena.length, some left.root, none⟩ := by
    rw [places, if_neg order.symm, if_pos rfl, getElem?_append_left (by omega), rightBuilt.rootNode]
    rfl
  have atTop : arena[right.arena.length]? = some node := by
    rw [places, if_neg (by omega), if_neg (by omega)]
    simp
  have size : arena.length = right.arena.length + 1 := by
    rw [← final, linkSiblings, length_modify, length_modify, length_append]
    rfl
  have hashes : ∀ i, i < right.arena.length →
      arena[i]?.map ProofNode.hash = right.arena[i]?.map ProofNode.hash := by
    intro i inside
    rw [places, getElem?_append_left inside]
    split
    next => rw [Option.map_map]; rfl
    next =>
      split
      next => rw [Option.map_map]; rfl
      next => rfl
  constructor
  case kept =>
    intro i inside
    rw [others i (by omega) (by omega) (by omega), rightBuilt.kept i (by omega),
      leftBuilt.kept i inside]
  case size =>
    rw [size, length_append]
    omega
  case root => exact size.symm
  case rootNode =>
    rw [atTop, ← top]
    rfl
  case count =>
    rw [length_append, length_append, leftBuilt.count, rightBuilt.count]
  case leaf =>
    intro i place item atPlace atItem
    have count := leftBuilt.count
    by_cases inLeft : i < leftItems.length
    · rw [getElem?_append_left (by omega)] at atPlace
      rw [getElem?_append_left inLeft] at atItem
      obtain ⟨lower, upper, hash⟩ := leftBuilt.leaf i place item atPlace atItem
      refine ⟨lower, by dsimp only; omega, ?_⟩
      rw [hashes place (by omega), rightBuilt.kept place (by omega), hash]
    · rw [getElem?_append_right (by omega), count] at atPlace
      rw [getElem?_append_right (by omega)] at atItem
      obtain ⟨lower, upper, hash⟩ := rightBuilt.leaf _ place item atPlace atItem
      refine ⟨by omega, by dsimp only; omega, ?_⟩
      rw [hashes place (by omega), hash]
  case climbs =>
    intro i place atPlace
    have count := leftBuilt.count
    rw [Scheme.aunts, leftLeaves]
    by_cases inLeft : i < leftItems.length
    · rw [getElem?_append_left (by omega)] at atPlace
      rw [if_pos inLeft]
      have climbs := (leftBuilt.climbs i place atPlace).frame le_rfl
        (fun j _ below => (others j (by omega) (by omega) (by omega)).trans
          (rightBuilt.kept j (by omega)))
      exact climbs.snoc (by omega) atLeft rfl (by omega) rfl (by omega) (by omega) atRight
    · rw [getElem?_append_right (by omega), count] at atPlace
      rw [if_neg inLeft]
      have climbs := (rightBuilt.climbs _ place atPlace).frame
        (show before.length ≤ left.arena.length by omega)
        (fun j low below => others j (by omega) (by omega) (by omega))
      exact climbs.snoc (by omega) atRight rfl (by omega) rfl (by omega) (by omega) atLeft

theorem trailsRec_split {left right : List Bytes} (before : List ProofNode)
    (split : left.length = splitPoint (left.length + right.length)) (leftPos : 0 < left.length)
    (rightPos : 0 < right.length) (fits : (left ++ right).length < 2 ^ 63) :
    trailsRec tmhash cap (left ++ right) before = (do
      let leftTrails ← trailsRec tmhash cap left before
      let rightTrails ← trailsRec tmhash cap right leftTrails.arena
      joinTrails tmhash cap leftTrails rightTrails) := by
  obtain ⟨first, second, rest, whole, index, takes, drops⟩ :=
    splitIndex_append split leftPos rightPos fits
  rw [whole, trailsRec]
  split
  next empty => cases index.symm.trans empty
  next k found =>
    cases index.symm.trans found
    rw [takes, drops]

theorem trailsRec_built {items : List Bytes} {tree : LeafTree Bytes}
    (balanced : Balanced items tree) (fits : items.length < 2 ^ 63)
    (room : before.length + 2 * items.length ≤ cap + 1) :
    ∃ trails, trailsRec tmhash cap items before = .ok trails ∧
      Built tmhash before items tree trails := by
  induction balanced generalizing before with
  | leaf item => exact trailsRec_leaf (by rw [length_singleton] at room; omega) item
  | @node leftItems rightItems _ _ split leftBalanced rightBalanced leftIH rightIH =>
    have whole := fits
    rw [length_append] at fits room
    have leftPos := leftBalanced.length_pos
    have rightPos := rightBalanced.length_pos
    obtain ⟨left, leftRun, leftBuilt⟩ := leftIH (by omega)
      (show before.length + 2 * leftItems.length ≤ cap + 1 by omega)
    have leftSize := leftBuilt.size
    have leftRoot := leftBuilt.root
    obtain ⟨right, rightRun, rightBuilt⟩ := rightIH (by omega)
      (show left.arena.length + 2 * rightItems.length ≤ cap + 1 by omega)
    have rightSize := rightBuilt.size
    have leftNode := (rightBuilt.kept left.root (by omega)).trans leftBuilt.rootNode
    refine ⟨_, ?_, leftBuilt.join leftBalanced.leaves rightBuilt leftPos rightPos⟩
    rw [trailsRec_split before split leftPos rightPos whole, leftRun]
    change (trailsRec tmhash cap rightItems left.arena >>= joinTrails tmhash cap left) = _
    rw [rightRun]
    change joinTrails tmhash cap left right = _
    simp only [joinTrails, leftNode, rightBuilt.rootNode, arenaTake,
      if_neg (show ¬ cap ≤ right.arena.length by omega)]
    rfl

end

/-! ## Verifying -/

section

variable {tmhash : Hash} {leaf : Digest} {aunts : List Digest} {index total : Int64}

theorem computeHashFromAunts_one (one : total.toInt = 1)
    (inside : 0 ≤ index.toInt ∧ index.toInt < total.toInt) (nInner : Nat) :
    computeHashFromAunts tmhash leaf aunts index total nInner =
      if nInner ≠ 0 then .error .reject else .ok leaf := by
  have total_eq : total = 1 := Int64.toInt_inj.mp one
  have index_eq : index = 0 := Int64.toInt_inj.mp (by rw [Int64.toInt_zero]; omega)
  subst total_eq
  subst index_eq
  cases nInner <;> rw [computeHashFromAunts] <;> rfl

theorem computeHashFromAunts_split (many : 2 ≤ total.toInt)
    (inside : 0 ≤ index.toInt ∧ index.toInt < total.toInt) (rest : Nat) :
    computeHashFromAunts tmhash leaf aunts index total (rest + 1) =
      (match aunts[rest]? with
      | none => .error .fault
      | some aunt =>
        if index.toInt < splitPoint total.toInt.toNat then do
          let sub ← computeHashFromAunts tmhash leaf aunts index (getSplitPoint total) rest
          .ok (innerHash tmhash sub aunt)
        else do
          let sub ← computeHashFromAunts tmhash leaf aunts (index - getSplitPoint total)
            (total - getSplitPoint total) rest
          .ok (innerHash tmhash aunt sub)) := by
  have point := toInt_getSplitPoint many
  have pos := splitPoint_pos total.toInt.toNat
  have below := splitPoint_lt (show 2 ≤ total.toInt.toNat by omega)
  have one : (1 : Int64).toInt = 1 := rfl
  have refused : ¬ (total ≤ index ∨ index < 0 ∨ total ≤ 0) := by
    simp only [Int64.le_iff_toInt_le, Int64.lt_iff_toInt_lt, Int64.toInt_zero]
    omega
  have notOne : total ≠ 1 := by
    intro eq
    rw [eq] at many
    omega
  have guard : ¬ (getSplitPoint total < 1 ∨ total ≤ getSplitPoint total) := by
    simp only [Int64.le_iff_toInt_le, Int64.lt_iff_toInt_lt]
    omega
  have side : (index < getSplitPoint total) = (index.toInt < splitPoint total.toInt.toNat) := by
    rw [Int64.lt_iff_toInt_lt, point]
  rw [computeHashFromAunts, if_neg refused, if_neg notOne]
  cases aunts[rest]? with
  | none => simp only [if_neg guard]
  | some aunt => simp only [if_neg guard, side]

theorem computeHashFromAunts_zero (many : 2 ≤ total.toInt) :
    computeHashFromAunts tmhash leaf aunts index total 0 = .error .reject := by
  have notOne : total ≠ 1 := by
    intro eq
    rw [eq] at many
    exact absurd many (by decide)
  rw [computeHashFromAunts, if_neg notOne]
  exact ite_self _

theorem toInt_halves {left right : Nat} (size : total.toInt = left + right)
    (split : left = splitPoint (left + right)) (many : 2 ≤ total.toInt)
    (inside : 0 ≤ index.toInt ∧ index.toInt < total.toInt) :
    splitPoint total.toInt.toNat = left ∧ (getSplitPoint total).toInt = left ∧
      (total - getSplitPoint total).toInt = right ∧
        (index - getSplitPoint total).toInt = index.toInt - left := by
  have whole : total.toInt.toNat = left + right := by omega
  have point := toInt_getSplitPoint many
  have below := splitPoint_lt (show 2 ≤ total.toInt.toNat by omega)
  have range := inRange_toInt total
  rw [InRange] at range
  rw [whole, ← split] at point below ⊢
  refine ⟨rfl, point, ?_, ?_⟩
  · rw [toInt_sub ⟨by omega, by omega⟩]
    omega
  · rw [toInt_sub ⟨by omega, by omega⟩, point]

variable {items : List Bytes} {tree : LeafTree Bytes} {nInner : Nat} {bytes : Bytes}

theorem computeHashFromAunts_eq (balanced : Balanced items tree) (size : total.toInt = items.length)
    {i : Nat} (place : index.toInt = i) {item : Bytes} (found : items[i]? = some item)
    (front : ∀ j, j < ((merkleScheme tmhash).aunts tree i).length → aunts[j]? = ((merkleScheme
      tmhash).aunts tree i)[j]?) :
    computeHashFromAunts tmhash (leafHash tmhash item) aunts index total
        ((merkleScheme tmhash).aunts tree i).length =
      .ok ((merkleScheme tmhash).digest tree) := by
  have bound := (List.getElem?_eq_some_iff.mp found).1
  induction balanced generalizing index total i with
  | leaf value =>
    rw [length_singleton] at size bound
    rw [computeHashFromAunts_one size (by omega), Scheme.aunts]
    have first : i = 0 := by omega
    subst first
    cases found
    rfl
  | @node left right leftTree rightTree split leftBalanced rightBalanced leftIH rightIH =>
    rw [length_append] at size bound
    have leftPos := leftBalanced.length_pos
    have rightPos := rightBalanced.length_pos
    have many : 2 ≤ total.toInt := by omega
    have inside : 0 ≤ index.toInt ∧ index.toInt < total.toInt := by omega
    obtain ⟨whole, point, totalHalf, indexHalf⟩ := toInt_halves (by omega) split many inside
    rw [Scheme.aunts, leftBalanced.leaves] at front ⊢
    by_cases inLeft : i < left.length
    · rw [if_pos inLeft] at front ⊢
      rw [length_append, length_singleton] at front ⊢
      have last := front _ (Nat.lt_succ_self _)
      rw [getElem?_append_right le_rfl, Nat.sub_self] at last
      rw [getElem?_append_left inLeft] at found
      rw [computeHashFromAunts_split many inside, last, whole]
      simp only [getElem?_cons_zero, if_pos (show index.toInt < left.length by omega)]
      rw [leftIH point place found (fun j before => by
        rw [front j (by omega), getElem?_append_left before]) inLeft]
      rfl
    · rw [if_neg inLeft] at front ⊢
      rw [length_append, length_singleton] at front ⊢
      have last := front _ (Nat.lt_succ_self _)
      rw [getElem?_append_right le_rfl, Nat.sub_self] at last
      rw [getElem?_append_right (by omega)] at found
      rw [computeHashFromAunts_split many inside, last, whole]
      simp only [getElem?_cons_zero, if_neg (show ¬ index.toInt < left.length by omega)]
      rw [rightIH (by omega) (by omega) found (fun j before => by rw
        [front j (by omega), getElem?_append_left before]) (by omega)]
      rfl

/-- The inner inputs that the verifier hashes. -/
def auntInputs (tmhash : Hash) (leaf : Digest) (aunts : List Digest) :
    Int64 → Int64 → Nat → Set Bytes
  | _, _, 0 => ∅
  | index, total, rest + 1 =>
    if index < getSplitPoint total then
      auntInputs tmhash leaf aunts index (getSplitPoint total) rest ∪
        { input | ∃ sub aunt, aunts[rest]? = some aunt ∧
          computeHashFromAunts tmhash leaf aunts index (getSplitPoint total) rest = .ok sub ∧
          input = 1 :: (sub.val ++ aunt.val) }
    else
      auntInputs tmhash leaf aunts (index - getSplitPoint total) (total - getSplitPoint total)
          rest ∪
        { input | ∃ sub aunt, aunts[rest]? = some aunt ∧
          computeHashFromAunts tmhash leaf aunts (index - getSplitPoint total)
            (total - getSplitPoint total) rest = .ok sub ∧
          input = 1 :: (aunt.val ++ sub.val) }

/-- The inputs that are hashed when a proof is verified for a leaf. -/
def MerkleProof.inputs (tmhash : Hash) (sp : MerkleProof) (leaf : Bytes) : Set Bytes :=
  insert (0 :: leaf)
    (auntInputs tmhash sp.leafHash sp.aunts sp.index sp.total sp.aunts.length)

/-- A path that leads to the root of the tree starts at its leaf. -/
theorem item_of_computeHashFromAunts (balanced : Balanced items tree)
    (size : total.toInt = items.length) (inside : 0 ≤ index.toInt ∧ index.toInt < total.toInt)
    (free : InjOn tmhash ((merkleScheme tmhash).inputs tree ∪ insert (0 :: bytes) (auntInputs
      tmhash (leafHash tmhash bytes) aunts index total nInner)))
    (computed : computeHashFromAunts tmhash (leafHash tmhash bytes) aunts index total nInner = .ok
      ((merkleScheme tmhash).digest tree)) :
    items[index.toInt.toNat]? = some bytes := by
  induction balanced generalizing index total nInner with
  | leaf item =>
    rw [length_singleton] at size
    rw [computeHashFromAunts_one size inside] at computed
    obtain ⟨-, computed⟩ := ite_error_eq_ok.mp computed
    have eq := free (.inr (mem_insert _ _)) (.inl (mem_singleton _))
      (Except.ok.inj computed)
    have first : index.toInt.toNat = 0 := by omega
    rw [first, (cons.inj eq).2]
    rfl
  | @node left right leftTree rightTree split leftBalanced rightBalanced leftIH rightIH =>
    rw [length_append] at size
    have leftPos := leftBalanced.length_pos
    have rightPos := rightBalanced.length_pos
    have many : 2 ≤ total.toInt := by omega
    obtain ⟨whole, point, totalHalf, indexHalf⟩ := toInt_halves (by omega) split many inside
    cases nInner with
    | zero =>
      rw [computeHashFromAunts_zero many] at computed
      cases computed
    | succ rest =>
      rw [computeHashFromAunts_split many inside, whole] at computed
      rw [auntInputs] at free
      cases held : aunts[rest]? with
      | none =>
        rw [held] at computed
        cases computed
      | some aunt =>
        rw [held] at computed
        dsimp only at computed
        have top : 1 :: (((merkleScheme tmhash).digest leftTree).val ++
            ((merkleScheme tmhash).digest rightTree).val) ∈
              (merkleScheme tmhash).inputs (.node leftTree rightTree) :=
          mem_insert _ _
        by_cases inLeft : index.toInt < left.length
        · rw [if_pos inLeft] at computed
          rw [if_pos (Int64.lt_iff_toInt_lt.mpr (by omega))] at free
          obtain ⟨sub, subComputed, last⟩ := bind_eq_ok.mp computed
          have eq := free (.inr (.inr (.inr ⟨sub, aunt, held, subComputed, rfl⟩)))
            (.inl top) (Except.ok.inj last)
          obtain ⟨sameLeft, -⟩ := Digest.append_inj (cons.inj eq).2
          rw [getElem?_append_left (by omega)]
          apply leftIH point ⟨inside.1, by omega⟩ _ (sameLeft ▸ subComputed)
          apply free.mono
          apply union_subset_union (Scheme.inputs_left _ _ _)
          exact insert_subset_insert subset_union_left
        · rw [if_neg inLeft] at computed
          rw [if_neg (by rw [Int64.lt_iff_toInt_lt]; omega)] at free
          obtain ⟨sub, subComputed, last⟩ := bind_eq_ok.mp computed
          have eq := free (.inr (.inr (.inr ⟨sub, aunt, held, subComputed, rfl⟩)))
            (.inl top) (Except.ok.inj last)
          obtain ⟨-, sameRight⟩ := Digest.append_inj (cons.inj eq).2
          have subDigest : sub = (merkleScheme tmhash).digest rightTree :=
            Subtype.ext sameRight
          rw [getElem?_append_right (by omega),
            show index.toInt.toNat - left.length =
              (index - getSplitPoint total).toInt.toNat by omega]
          apply rightIH (by omega) ⟨by omega, by omega⟩ _ (subDigest ▸ subComputed)
          apply free.mono
          apply union_subset_union (Scheme.inputs_right _ _ _)
          exact insert_subset_insert subset_union_left

theorem MerkleProof.verify_eq_ok {sp : MerkleProof} {rootHash : Digest}
    (good : sp.verify tmhash rootHash bytes = .ok ()) :
    sp.leafHash = Cmt.leafHash tmhash bytes ∧
      computeHashFromAunts tmhash sp.leafHash sp.aunts sp.index sp.total sp.aunts.length =
        .ok rootHash := by
  unfold MerkleProof.verify at good
  simp only [ite_error_eq_ok] at good
  obtain ⟨-, -, hashed, good⟩ := good
  obtain ⟨computed, run, same⟩ := bind_eq_ok.mp good
  split at same
  next => cases same
  next eq =>
    rw [not_or, not_not, not_not] at hashed
    exact ⟨hashed.2, (not_not.mp eq) ▸ run⟩

theorem inside_of_computeHashFromAunts {root : Digest}
    (computed : computeHashFromAunts tmhash leaf aunts index total nInner = .ok root) :
    0 ≤ index.toInt ∧ index.toInt < total.toInt := by
  by_contra outside
  have refused : total ≤ index ∨ index < 0 ∨ total ≤ 0 := by
    simp only [Int64.le_iff_toInt_le, Int64.lt_iff_toInt_lt, Int64.toInt_zero]
    omega
  unfold computeHashFromAunts at computed
  rw [if_pos refused] at computed
  cases computed

end

def rootInputs (tmhash : Hash) (items : List Bytes) : Set Bytes :=
  { input | ∃ tree, Balanced items tree ∧ input ∈ (merkleScheme tmhash).inputs tree }

def proofFor (tmhash : Hash) (tree : LeafTree Bytes) (total i : Nat) (item : Bytes) :
    MerkleProof where
  total := Int64.ofNat total
  index := Int64.ofNat i
  leafHash := leafHash tmhash item
  leafHashLen := digestSize
  aunts := (merkleScheme tmhash).aunts tree i
  auntLen := replicate ((merkleScheme tmhash).aunts tree i).length digestSize

section

variable {tmhash : Hash} {items : List Bytes} {tree : LeafTree Bytes}
  (balanced : Balanced items tree)

include balanced

variable {item : Bytes}

theorem proofAt_eq (fits : items.length < 2 ^ 63) {trails : Trails}
    (built : Built tmhash [] items tree trails) {i place : Nat}
    (atPlace : trails.trails[i]? = some place) (atItem : items[i]? = some item) :
    proofAt trails items.length i place = .ok (proofFor tmhash tree items.length i item) := by
  have depth := balanced.length_aunts_le (merkleScheme tmhash) i (le_of_lt fits)
  have flat := flattenAunts_eq (built.climbs i place atPlace) built.rootNode rfl rfl
    (show ([] : List Digest).length + _ ≤ merkleMaxAunts by
      rw [merkleMaxAunts, length_nil]; omega)
    (Nat.le_add_right trails.arena.length place)
  obtain ⟨-, -, hash⟩ := built.leaf i place item atPlace atItem
  obtain ⟨leaf, found, eq⟩ := Option.map_eq_some_iff.mp hash
  rw [proofAt, found, flat, proofFor, ← eq]
  rfl

theorem proofsFromByteSlices_eq (fits : 2 * items.length * proofNodeSize < 2 ^ 64) :
    ∃ proofs, proofsFromByteSlices tmhash items = .ok ((merkleScheme tmhash).digest tree, proofs) ∧
      proofs.length = items.length ∧
      ∀ i item, items[i]? = some item →
        proofs[i]? = some (proofFor tmhash tree items.length i item) := by
  have filled : items ≠ [] := length_pos_iff.mp balanced.length_pos
  have pos := balanced.length_pos
  rw [proofNodeSize] at fits
  have small : ¬ Int64.maxValue.toInt < items.length := by
    rw [Int64.toInt_maxValue]
    omega
  have room : ¬ (items ≠ [] ∧ ((2 ^ 64 - 1) / 2 < items.length ∨
      (2 ^ 64 - 1) / proofNodeSize < 2 * items.length - 1)) := by
    rw [proofNodeSize]
    omega
  obtain ⟨trails, run, built⟩ : ∃ trails,
      trailsRec tmhash (2 * items.length - 1) items [] = .ok trails ∧
        Built tmhash [] items tree trails :=
    trailsRec_built balanced (by omega) (by rw [length_nil]; omega)
  have each : ∀ entry ∈ trails.trails.zipIdx, proofAt trails items.length entry.2 entry.1 =
      .ok (proofFor tmhash tree items.length entry.2 (items[entry.2]?.getD [])) := by
    intro entry mem
    have atPlace := mem_zipIdx_iff_getElem?.mp mem
    have inside := (List.getElem?_eq_some_iff.mp atPlace).1
    rw [built.count] at inside
    apply proofAt_eq balanced (by omega) built atPlace
    rw [getElem?_eq_getElem inside]
    rfl
  refine ⟨trails.trails.zipIdx.map fun entry =>
    proofFor tmhash tree items.length entry.2 (items[entry.2]?.getD []), ?_, ?_, ?_⟩
  · rw [proofsFromByteSlices, if_neg small, trailsFromByteSlices, if_neg room, if_neg filled, run]
    simp only [bind, Except.bind, built.rootNode]
    rw [mapM_eq_ok each]
  · rw [length_map, length_zipIdx, built.count]
  · intro i item found
    have inside := (List.getElem?_eq_some_iff.mp found).1
    rw [← built.count] at inside
    rw [getElem?_map, getElem?_zipIdx, getElem?_eq_getElem inside]
    simp [found]

theorem verify_proofFor (fits : items.length < 2 ^ 63) {i : Nat} (found : items[i]? = some item) :
    (proofFor tmhash tree items.length i item).verify tmhash ((merkleScheme tmhash).digest tree)
      item = .ok () := by
  have inside := (List.getElem?_eq_some_iff.mp found).1
  have total : (Int64.ofNat items.length).toInt = items.length := Int64.toInt_ofNat_of_lt fits
  have index : (Int64.ofNat i).toInt = i := Int64.toInt_ofNat_of_lt (by omega)
  have computed : computeHashFromAunts tmhash (leafHash tmhash item)
      ((merkleScheme tmhash).aunts tree i) (Int64.ofNat i) (Int64.ofNat items.length) _ = _ :=
    computeHashFromAunts_eq balanced total index found fun _ _ => rfl
  have totalNonneg : ¬ Int64.ofNat items.length < 0 := by
    rw [Int64.not_lt, Int64.le_iff_toInt_le, Int64.toInt_zero, total]
    omega
  have indexNonneg : ¬ Int64.ofNat i < 0 := by
    rw [Int64.not_lt, Int64.le_iff_toInt_le, Int64.toInt_zero, index]
    omega
  simp only [MerkleProof.verify, proofFor, if_neg totalNonneg, if_neg indexNonneg,
    MerkleProof.computeRootHash, ne_eq, not_true_eq_false, or_self, if_false]
  rw [computed]
  simp [bind, Except.bind]

theorem item_of_verify {proof : MerkleProof} {leaf : Bytes}
    (size : proof.total.toInt = items.length)
    (free : InjOn tmhash (rootInputs tmhash items ∪ proof.inputs tmhash leaf))
    (good : proof.verify tmhash ((merkleScheme tmhash).digest tree) leaf = .ok ()) :
    0 ≤ proof.index.toInt ∧ items[proof.index.toInt.toNat]? = some leaf := by
  obtain ⟨hashed, computed⟩ := MerkleProof.verify_eq_ok good
  have inside := inside_of_computeHashFromAunts computed
  rw [MerkleProof.inputs, hashed] at free
  rw [hashed] at computed
  refine ⟨inside.1, ?_⟩
  apply item_of_computeHashFromAunts balanced size inside (free.mono _) computed
  apply union_subset_union_left
  intro input mem
  exact ⟨tree, balanced, mem⟩

end

/-- Both root functions agree, the proof of every item verifies, and without a collision a proof
that verifies for a leaf shows the item at its index. -/
theorem merkle_complete_sound (tmhash : Hash) {items : List Bytes}
    (fits : 2 * items.length * proofNodeSize < 2 ^ 64) :
    ∃ root proofs, hashFromByteSlices tmhash items = .ok root ∧
      hashFromByteSlicesIterative tmhash items = .ok root ∧
      proofsFromByteSlices tmhash items = .ok (root, proofs) ∧
      proofs.length = items.length ∧
      (∀ (i : Nat) (item : Bytes), items[i]? = some item →
        ∃ proof : MerkleProof, proofs[i]? = some proof ∧
        proof.total.toInt = items.length ∧ proof.index.toInt = i ∧
        proof.verify tmhash root item = .ok ()) ∧
      ∀ (proof : MerkleProof) (leaf : Bytes), proof.total.toInt = items.length →
        Set.InjOn tmhash (rootInputs tmhash items ∪ proof.inputs tmhash leaf) →
        proof.verify tmhash root leaf = .ok () →
        0 ≤ proof.index ∧ items[proof.index.toInt.toNat]? = some leaf := by
  rcases eq_nil_or_concat items with empty | ⟨init, last, whole⟩
  · subst empty
    refine ⟨emptyHash tmhash, [], ?_, rfl, ?_, rfl, ?_, ?_⟩
    · rw [hashFromByteSlices]
    · rw [proofsFromByteSlices, if_neg (by decide)]
      simp [trailsFromByteSlices, trailsRec, arenaTake, bind, Except.bind, pure, Except.pure]
    · intro i item found
      cases found
    · intro proof leaf size _ good
      obtain ⟨-, computed⟩ := MerkleProof.verify_eq_ok good
      have inside := inside_of_computeHashFromAunts computed
      rw [length_nil] at size
      omega
  · have filled : items ≠ [] := by simp [whole]
    obtain ⟨tree, balanced⟩ := exists_balanced filled
    obtain ⟨proofs, made, count, each⟩ := @proofsFromByteSlices_eq tmhash _ _ balanced fits
    rw [proofNodeSize] at fits
    refine ⟨_, proofs, hashFromByteSlices_eq tmhash balanced (by omega),
      hashFromByteSlicesIterative_eq tmhash balanced (by rw [digestSize]; omega), made, count,
      ?_, ?_⟩
    · intro i item found
      have inside := (List.getElem?_eq_some_iff.mp found).1
      exact ⟨_, each i item found, Int64.toInt_ofNat_of_lt (by omega),
        Int64.toInt_ofNat_of_lt (by omega), verify_proofFor balanced (by omega) found⟩
    · intro proof leaf size free good
      obtain ⟨nonneg, found⟩ := item_of_verify balanced size free good
      exact ⟨Int64.le_iff_toInt_le.mpr nonneg, found⟩

theorem balanced_pair (a b : Bytes) : Balanced [a, b] (.node (.leaf a) (.leaf b)) :=
  .node rfl (.leaf a) (.leaf b)

def threeTree : LeafTree Bytes := .node (.node (.leaf [1]) (.leaf [2])) (.leaf [3])

/-- The proof of the second of three items, with two aunts. -/
theorem merkle_complete_sound_three :
    ∃ root proofs, hashFromByteSlices residueHash [[1], [2], [3]] = .ok root ∧
      proofsFromByteSlices residueHash [[1], [2], [3]] = .ok (root, proofs) ∧
      ∃ proof : MerkleProof, proof.aunts.length = 2 ∧ proof.verify residueHash root [2] = .ok () ∧
        InjOn residueHash (rootInputs residueHash [[1], [2], [3]] ∪ proof.inputs residueHash [2]) ∧
        [[1], [2], [3]][proof.index.toInt.toNat]? = some [(2 : UInt8)] := by
  have balanced : Balanced [[1], [2], [3]] threeTree := .node rfl (balanced_pair _ _) (.leaf [3])
  obtain ⟨root, proofs, recursive, -, made, -, -, sound⟩ :=
    @merkle_complete_sound residueHash [[1], [2], [3]] (by decide)
  obtain rfl : (merkleScheme residueHash).digest threeTree = root :=
    Except.ok.inj ((hashFromByteSlices_eq residueHash balanced (by decide)).symm.trans recursive)
  have good := @verify_proofFor residueHash _ _ balanced [2] (by decide) 1 rfl
  have free : InjOn residueHash (rootInputs residueHash [[1], [2], [3]] ∪
      (proofFor residueHash threeTree 3 1 [2]).inputs residueHash [2]) := by
    apply injOn_of_listed ((merkleScheme residueHash).inputList threeTree)
    · decide +kernel
    · rintro input (⟨tree, balanced', mem⟩ | rfl | mem)
      · rw [balanced'.unique balanced] at mem
        exact (Scheme.mem_inputList _).mpr mem
      · decide +kernel
      · change input ∈ auntInputs residueHash _ _ 1 3 2 at mem
        rw [auntInputs, if_pos (by decide +kernel), show getSplitPoint 3 = 2 by decide +kernel,
          auntInputs, if_neg (by decide +kernel)] at mem
        rcases mem with (empty | ⟨sub, aunt, ⟨⟩, computed, rfl⟩) | ⟨sub, aunt, ⟨⟩, computed, rfl⟩
        · cases empty
        · cases computed.symm.trans (show _ = .ok (leafHash residueHash [2]) by decide +kernel)
          decide +kernel
        · cases computed.symm.trans (show _ = .ok (innerHash residueHash
            (leafHash residueHash [1]) (leafHash residueHash [2])) by decide +kernel)
          decide +kernel
  exact ⟨_, proofs, recursive, made, _, rfl, good, free, (sound _ _ rfl free good).2⟩

end DnaLedger.Cmt
