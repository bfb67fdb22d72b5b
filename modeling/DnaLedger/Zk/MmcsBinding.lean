import DnaLedger.Zk.Mmcs

/-!
# What a mixed-height commitment binds

The layers that are computed are the levels of a hash tree whose nodes take in the rows of the
shorter matrices, so every opening verifies. Without a collision an opening that verifies shows the
committed rows.
-/

namespace DnaLedger.Zk

open MixedTree List OpenedRow

theorem exists_two_pow_of_isPow2 {x : Nat} (pow2 : p2mIsPow2 x = true) : ∃ k, x = 2 ^ k := by
  rw [p2mIsPow2, Bool.and_eq_true, decide_eq_true_eq, decide_eq_true_eq] at pow2
  exact (Nat.and_sub_one_eq_zero_iff_isPowerOfTwo pow2.1).mp pow2.2

theorem maxHeight_eq (heights : List Nat) : maxHeight heights = heights.max?.getD 0 := by
  rw [maxHeight, foldl_max, Nat.zero_max]

variable {heights : List Nat} {height : Nat}

theorem le_maxHeight (mem : height ∈ heights) : height ≤ maxHeight heights := by
  rw [maxHeight_eq]
  cases found : heights.max? with
  | none =>
    rw [max?_eq_none_iff.mp found] at mem
    cases mem
  | some top => exact (max?_eq_some_iff.mp found).2 height mem

theorem maxHeight_mem (filled : heights ≠ []) : maxHeight heights ∈ heights := by
  rw [maxHeight_eq]
  cases found : heights.max? with
  | none => exact absurd (max?_eq_none_iff.mp found) filled
  | some top => exact (max?_eq_some_iff.mp found).1

theorem maxHeight_of_all_eq (filled : heights ≠ []) (all : ∀ other ∈ heights, other = height) :
    maxHeight heights = height :=
  all _ (maxHeight_mem filled)

structure Accepted (matrices : List Matrix) : Prop where
  nonempty : matrices ≠ []
  wide : ∀ matrix ∈ matrices, matrix.width ≠ 0
  pow2 : ∀ matrix ∈ matrices, p2mIsPow2 matrix.height = true
  canonical : ∀ matrix ∈ matrices, p2mAllCanonical matrix.cells = true

def batchHeight (matrices : List Matrix) : Nat := maxHeight (matrices.map Matrix.height)

theorem checkMatrix_eq_ok {width : Nat} {cells : List UInt64} :
    checkMatrix width height cells = .ok () ↔
      width ≠ 0 ∧ p2mIsPow2 height = true ∧ p2mAllCanonical cells = true := by
  rw [checkMatrix, bind_eq_ok]
  simp only [failWhen_eq_ok, not_or, Bool.not_eq_false]
  exact ⟨fun ⟨_, ⟨wide, pow2⟩, canon⟩ => ⟨wide, pow2, canon⟩,
    fun ⟨wide, pow2, canon⟩ => ⟨(), ⟨wide, pow2⟩, canon⟩⟩

section
variable {permute : Permutation} {matrices : List Matrix}

theorem commitMixed_eq_ok {root : P2Digest} {tree : MmcsTree} :
    commitMixed permute matrices = .ok (root, tree) ↔
      Accepted matrices ∧
        tree = {
          numRows := batchHeight matrices
          depth := p2mLog2 (batchHeight matrices)
          layers := mixedLayers permute matrices (batchHeight matrices)
            (p2mLog2 (batchHeight matrices))
          matrices
          heights := some (matrices.map Matrix.height) } ∧
        root = (tree.layers.getD tree.depth []).getD 0 zeroDigest := by
  rw [commitMixed, bind_eq_ok]
  simp only [bind_eq_ok, failWhen_eq_ok, forM_eq_ok, checkMatrix_eq_ok]
  constructor
  · rintro ⟨-, nonempty, -, each, eq⟩
    cases eq
    exact ⟨⟨nonempty, fun m inside => (each m inside).1, fun m inside => (each m inside).2.1,
      fun m inside => (each m inside).2.2⟩, rfl, rfl⟩
  · rintro ⟨passed, rfl, rfl⟩
    exact ⟨(), passed.nonempty, (), fun m inside =>
      ⟨passed.wide m inside, passed.pow2 m inside, passed.canonical m inside⟩, rfl⟩

theorem Accepted.exists_depth (passed : Accepted matrices) :
    batchHeight matrices = 2 ^ p2mLog2 (batchHeight matrices) := by
  have tallest : batchHeight matrices ∈ matrices.map Matrix.height :=
    maxHeight_mem fun empty => passed.nonempty (map_eq_nil_iff.mp empty)
  obtain ⟨matrix, inside, eq⟩ := mem_map.mp tallest
  obtain ⟨k, power⟩ := exists_two_pow_of_isPow2 (passed.pow2 matrix inside)
  rw [← eq, power, p2mLog2, Nat.log2_two_pow]

end

section
variable (permute : Permutation) (matrices : List Matrix) (maxH : Nat)

def mixedLeaf (r : Nat) : P2Digest :=
  hashIter permute (groupRowConcat (rowsAt matrices r) maxH)

def mixedExtra (level i : Nat) : Option P2Digest :=
  if matrices.any fun matrix => matrix.height = maxH / 2 ^ level && maxH / 2 ^ level ≠ maxH then
    some (hashIter permute (groupRowConcat (rowsAt matrices i) (maxH / 2 ^ level)))
  else
    none

def mixedNode : Nat → Nat → P2Digest :=
  node (mmcsCompress permute) (mixedLeaf permute matrices maxH) (mixedExtra permute matrices maxH)

/-- The tree over all rows of a batch of one height. -/
def plainNode : Nat → Nat → P2Digest :=
  node (mmcsCompress permute) (leafDigest permute matrices) fun _ _ => none

end

theorem getD_map_range {δ : Type} {image : Nat → δ} {count i : Nat} (below : i < count)
    (fallback : δ) : ((range count).map image).getD i fallback = image i := by
  have inside : i < ((range count).map image).length := by
    rwa [length_map, length_range]
  rw [getD_eq_getElem _ _ inside, getElem_map, getElem_range]

theorem two_mul_add_one_lt {maxH l i : Nat} (below : i < maxH / 2 ^ (l + 1)) :
    2 * i + 1 < maxH / 2 ^ l := by
  rw [Nat.pow_succ, ← Nat.div_div_eq_div_mul] at below
  omega

theorem length_layersUpTo (base : List P2Digest) (next : Nat → List P2Digest → List P2Digest)
    (depth : Nat) : (layersUpTo base next depth).length = depth + 1 := by
  induction depth with
  | zero => rfl
  | succ depth ih => rw [layersUpTo, length_append, ih, length_singleton]

theorem getD_layersUpTo {base : List P2Digest} {next : Nat → List P2Digest → List P2Digest}
    {level : Nat → List P2Digest} (first : base = level 0)
    (step : ∀ l, next (l + 1) (level l) = level (l + 1)) {depth l : Nat} (within : l ≤ depth) :
    (layersUpTo base next depth).getD l [] = level l := by
  induction depth generalizing l with
  | zero =>
    obtain rfl := Nat.le_zero.mp within
    exact first
  | succ depth ih =>
    rw [layersUpTo]
    rcases Nat.lt_or_eq_of_le within with before | rfl
    · have inside : l < (layersUpTo base next depth).length := by rwa [length_layersUpTo]
      rw [getD_append _ _ _ _ inside, ih (Nat.le_of_lt_succ before)]
    · have outside : (layersUpTo base next depth).length ≤ depth + 1 :=
        Nat.le_of_eq (length_layersUpTo base next depth)
      rw [getD_append_right _ _ _ _ outside, length_layersUpTo, Nat.sub_self,
        ih (Nat.le_refl depth), getD_cons_zero, step]

section
variable {permute : Permutation} {matrices : List Matrix} {maxH : Nat}

variable {l : Nat}
variable {depth n : Nat} {rows : List (Nat × List UInt64)} {f : Matrix → List UInt64} {δ : Type}
variable {value : δ}

theorem getD_mixedLayers (within : l ≤ depth) :
    (mixedLayers permute matrices maxH depth).getD l [] =
      (range (maxH / 2 ^ l)).map (mixedNode permute matrices maxH l) := by
  apply getD_layersUpTo _ _ within
  · rw [Nat.pow_zero, Nat.div_one]
    rfl
  · intro l
    unfold nextLayer
    apply map_congr_left
    intro i inside
    have right := two_mul_add_one_lt (mem_range.mp inside)
    rw [getD_map_range (Nat.lt_of_succ_lt right), getD_map_range right]
    change _ = join (mmcsCompress permute) _ (mixedExtra permute matrices maxH (l + 1) i)
    unfold mixedExtra
    split <;> rfl

theorem getD_plainLayers (within : l ≤ depth) :
    (plainLayers permute matrices maxH depth).getD l [] =
      (range (maxH / 2 ^ l)).map (plainNode permute matrices l) := by
  apply getD_layersUpTo _ _ within
  · rw [Nat.pow_zero, Nat.div_one]
    rfl
  · intro l
    apply map_congr_left
    intro i inside
    have right := two_mul_add_one_lt (mem_range.mp inside)
    rw [getD_map_range (Nat.lt_of_succ_lt right), getD_map_range right]
    rfl

theorem Accepted.div_two_pow (passed : Accepted matrices)
    (within : l ≤ p2mLog2 (batchHeight matrices)) :
    batchHeight matrices / 2 ^ l = 2 ^ (p2mLog2 (batchHeight matrices) - l) := by
  have halves := Nat.pow_div within (show 0 < 2 by decide)
  rwa [← passed.exists_depth] at halves

variable {root : P2Digest} {tree : MmcsTree}

theorem commitMixed_root (committed : commitMixed permute matrices = .ok (root, tree)) :
    root = mixedNode permute matrices (batchHeight matrices) (p2mLog2 (batchHeight matrices))
      0 := by
  obtain ⟨passed, rfl, rfl⟩ := commitMixed_eq_ok.mp committed
  have top := passed.div_two_pow (Nat.le_refl _)
  rw [Nat.sub_self, Nat.pow_zero] at top
  rw [getD_mixedLayers (Nat.le_refl _), top, getD_map_range Nat.one_pos]

variable {height : Nat}

theorem groupRowConcat_of_all_eq (all : ∀ row ∈ rows, row.1 = height) :
    groupRowConcat rows height = rows.flatMap Prod.snd := by
  rw [groupRowConcat, filter_eq_self.mpr fun row inside => decide_eq_true (all row inside)]

section

variable (all : ∀ matrix ∈ matrices, matrix.height = height)

include all

/-- Nothing is taken in, and the group of the tallest matrices is the whole batch. -/
theorem mixedNode_eq_plainNode :
    mixedNode permute matrices height = plainNode permute matrices := by
  have leaf : mixedLeaf permute matrices height = leafDigest permute matrices := by
    funext r
    rw [mixedLeaf, leafDigest, rowsAt, groupRowConcat_of_all_eq (forall_mem_map.mpr all),
      flatMap_map]
  have extra : mixedExtra permute matrices height = fun _ _ => none := by
    funext level i
    rw [mixedExtra, if_neg]
    intro found
    obtain ⟨matrix, inside, eq⟩ := any_eq_true.mp found
    rw [Bool.and_eq_true, decide_eq_true_eq, decide_eq_true_eq] at eq
    exact eq.2 (eq.1 ▸ all matrix inside)
  rw [mixedNode, plainNode, leaf, extra]

theorem commit_of_commitMixed (committed : commitMixed permute matrices = .ok (root, tree)) :
    ∃ plain, commit permute matrices height = .ok (root, plain) := by
  have top := commitMixed_root committed
  obtain ⟨passed, -, -⟩ := commitMixed_eq_ok.mp committed
  have tallest : batchHeight matrices = height := by
    apply maxHeight_of_all_eq
    · exact fun empty => passed.nonempty (map_eq_nil_iff.mp empty)
    · exact forall_mem_map.mpr all
  have depth := passed.div_two_pow (Nat.le_refl _)
  rw [Nat.sub_self, Nat.pow_zero] at depth
  rw [tallest] at top depth
  rw [mixedNode_eq_plainNode all] at top
  obtain ⟨first, inside⟩ := exists_mem_of_ne_nil _ passed.nonempty
  have pow2 := passed.pow2 first inside
  rw [all first inside] at pow2
  refine ⟨⟨height, p2mLog2 height, plainLayers permute matrices height (p2mLog2 height), matrices,
    none⟩, bind_eq_ok.mpr ⟨(), failWhen_eq_ok.mpr ?_, bind_eq_ok.mpr ⟨(), forM_eq_ok.mpr ?_, ?_⟩⟩⟩
  · rw [not_or, Bool.not_eq_false]
    exact ⟨passed.nonempty, pow2⟩
  · intro matrix inside
    refine bind_eq_ok.mpr ⟨(), failWhen_eq_ok.mpr (passed.wide matrix inside), ?_⟩
    rw [failWhen_eq_ok, ← all matrix inside, ← matrix.sized, take_length, Bool.not_eq_false]
    exact passed.canonical matrix inside
  · dsimp only
    rw [getD_plainLayers (Nat.le_refl _), depth, getD_map_range Nat.one_pos, ← top]
    rfl

end

def takenRows (permute : Permutation) (rows : List (Nat × List UInt64)) (maxH level : Nat) :
    Option P2Digest :=
  if rows.any fun row => row.1 = maxH / 2 ^ level then
    some (hashIter permute (groupRowConcat rows (maxH / 2 ^ level)))
  else
    none

theorem verifyLoop_eq_climb (permute : Permutation) (rows : List (Nat × List UInt64))
    (maxH level index : Nat) (digest : P2Digest) (siblings : List P2Digest) :
    verifyLoop permute rows index (maxH / 2 ^ level) digest siblings =
      climb (mmcsCompress permute) (takenRows permute rows maxH) level index digest siblings := by
  induction siblings generalizing level index digest with
  | nil => rfl
  | cons sibling siblings ih =>
    have half : maxH / 2 ^ level / 2 = maxH / 2 ^ (level + 1) := by
      rw [Nat.div_div_eq_div_mul, Nat.pow_succ]
    rw [verifyLoop, climb, half, ih]
    congr 1
    unfold takenRows ordered
    split <;> split <;> rfl

theorem plainLoop_eq_climb (level index : Nat) (digest : P2Digest) (siblings : List P2Digest) :
    plainLoop permute index digest siblings =
      climb (mmcsCompress permute) (fun _ => none) level index digest siblings := by
  induction siblings generalizing level index digest with
  | nil => rfl
  | cons sibling siblings ih =>
    rw [plainLoop, climb, ih (level + 1)]
    congr 1
    unfold ordered
    split <;> rfl

/-- The checks of the verifier on the opened rows, the index and the depth. -/
structure Checked (opened : List OpenedRow) (index : UInt64) (proof : P2Proof) : Prop where
  nonempty : opened ≠ []
  wide : ∀ o ∈ opened, o.width ≠ 0
  pow2 : ∀ o ∈ opened, p2mIsPow2 o.height = true
  canonical : ∀ o ∈ opened, p2mAllCanonical o.row = true
  bounded : index.toNat < maxHeight (opened.map OpenedRow.height)
  depth : proof.siblings.length = p2mLog2 (maxHeight (opened.map OpenedRow.height))

def reachedRoot (permute : Permutation) (opened : List OpenedRow) (index : UInt64)
    (proof : P2Proof) : P2Digest :=
  let rows := opened.map entry
  let maxH := maxHeight (opened.map OpenedRow.height)
  climb (mmcsCompress permute) (takenRows permute rows maxH) 0 index.toNat
    (hashIter permute (groupRowConcat rows maxH)) proof.siblings

variable {opened : List OpenedRow} {proof : P2Proof}

theorem verifyMixed_eq_ok {index : UInt64} :
    verifyMixed permute root opened index proof = .ok () ↔
      Checked opened index proof ∧ reachedRoot permute opened index proof = root := by
  have loop (leaf : P2Digest) := verifyLoop_eq_climb permute
    (opened.map entry) (maxHeight (opened.map height)) 0 index.toNat leaf
    proof.siblings
  rw [Nat.pow_zero, Nat.div_one] at loop
  rw [verifyMixed, bind_eq_ok]
  simp only [bind_eq_ok, failWhen_eq_ok, forM_eq_ok, checkMatrix_eq_ok, not_not, loop, Nat.not_le]
  constructor
  · rintro ⟨-, nonempty, -, each, -, bounded, -, depth, reached⟩
    exact ⟨⟨nonempty, fun o inside => (each o inside).1, fun o inside => (each o inside).2.1,
      fun o inside => (each o inside).2.2, bounded, depth⟩, reached⟩
  · rintro ⟨fine, reached⟩
    exact ⟨(), fine.nonempty, (), fun o inside =>
      ⟨fine.wide o inside, fine.pow2 o inside, fine.canonical o inside⟩, (),
      fine.bounded, (), fine.depth, reached⟩

theorem takenRows_of_all_eq {level : Nat} (pos : 0 < height) (all : ∀ row ∈ rows, row.1 = height) :
    takenRows permute rows height (level + 1) = none := by
  apply if_neg
  intro found
  obtain ⟨row, inside, eq⟩ := any_eq_true.mp found
  have half : height / 2 ^ (level + 1) < height := by
    apply Nat.div_lt_self pos
    exact Nat.one_lt_two_pow (Nat.succ_ne_zero level)
  rw [decide_eq_true_eq, all row inside] at eq
  omega

/-- Both verifiers make the same checks of an opening of one height, in another order. -/
theorem verifyMixed_iff_mmcsVerify {index : UInt64} (all : ∀ o ∈ opened, o.height = height) :
    verifyMixed permute root opened index proof = .ok () ↔
      mmcsVerify permute root opened height index proof = .ok () := by
  rw [verifyMixed_eq_ok, mmcsVerify, bind_eq_ok]
  simp only [bind_eq_ok, failWhen_eq_ok, forM_eq_ok, not_not, Nat.not_le, not_or,
    Bool.not_eq_false, plainLoop_eq_climb 0]
  have allEntries : ∀ row ∈ opened.map entry, row.1 = height :=
    forall_mem_map.mpr all
  have tallest (nonempty : opened ≠ []) : maxHeight (opened.map OpenedRow.height) = height :=
    maxHeight_of_all_eq (fun empty => nonempty (map_eq_nil_iff.mp empty))
      (forall_mem_map.mpr all)
  have reaches (pos : 0 < height) (nonempty : opened ≠ []) :
      reachedRoot permute opened index proof =
        climb (mmcsCompress permute) (fun _ => none) 0 index.toNat
          (hashIter permute (opened.flatMap OpenedRow.row)) proof.siblings := by
    rw [reachedRoot, tallest nonempty, groupRowConcat_of_all_eq allEntries, flatMap_map]
    exact climb_congr (fun level => takenRows_of_all_eq pos allEntries) _ _ _ _
  constructor
  · rintro ⟨fine, reached⟩
    obtain ⟨first, inside⟩ := exists_mem_of_ne_nil _ fine.nonempty
    have bounded := fine.bounded
    have depth := fine.depth
    rw [tallest fine.nonempty] at bounded depth
    rw [reaches (Nat.zero_lt_of_lt bounded) fine.nonempty] at reached
    refine ⟨(), ⟨fine.nonempty, ?_⟩, (), bounded, (), depth, (), ?_, reached⟩
    · rw [← all first inside]
      exact fine.pow2 first inside
    · exact fun o inside => ⟨(), fine.wide o inside, fine.canonical o inside⟩
  · rintro ⟨-, ⟨nonempty, pow2⟩, -, bounded, -, depth, -, each, reached⟩
    rw [reaches (Nat.zero_lt_of_lt bounded) nonempty]
    refine ⟨⟨nonempty, ?_, ?_, ?_, ?_, ?_⟩, reached⟩
    · intro o inside
      obtain ⟨-, wide, -⟩ := each o inside
      exact wide
    · intro o inside
      rwa [all o inside]
    · intro o inside
      obtain ⟨-, -, canonical⟩ := each o inside
      exact canonical
    · rwa [tallest nonempty]
    · rwa [tallest nonempty]

/-! ## Openings verify -/

variable {index : Nat}

theorem xor_one_lt {half : Nat} (below : index < 2 * half) : index ^^^ 1 < 2 * half := by
  rcases Nat.even_or_odd index with even | odd
  · rw [Nat.xor_one_of_even even]
    have := Nat.even_iff.mp even
    omega
  · rw [Nat.xor_one_of_odd odd]
    omega

theorem siblingsFrom_eq_path (permute : Permutation) (passed : Accepted matrices) {count : Nat}
    (within : l + count = p2mLog2 (batchHeight matrices))
    (below : index < batchHeight matrices / 2 ^ l) :
    siblingsFrom (mixedLayers permute matrices (batchHeight matrices)
        (p2mLog2 (batchHeight matrices))) l index count =
      path (mmcsCompress permute) (mixedLeaf permute matrices (batchHeight matrices))
        (mixedExtra permute matrices (batchHeight matrices)) l index count := by
  induction count generalizing l index with
  | zero => rfl
  | succ count ih =>
    have halves : batchHeight matrices / 2 ^ l = 2 * (batchHeight matrices / 2 ^ (l + 1)) := by
      rw [passed.div_two_pow (by omega), passed.div_two_pow (by omega), ← Nat.pow_succ']
      congr 1
      omega
    rw [siblingsFrom, path, getD_mixedLayers (by omega), getD_map_range, ih]
    · rfl
    · omega
    · omega
    · rw [halves] at below ⊢
      exact xor_one_lt below

def Matrix.dims (matrix : Matrix) : Nat × Nat := (matrix.width, matrix.height)

def OpenedRow.dims (opened : OpenedRow) : Nat × Nat := (opened.width, opened.height)

def shiftedRow (depth index : Nat) (matrix : Matrix) : List UInt64 :=
  matrix.row (index / 2 ^ (depth - p2mLog2 matrix.height))

theorem Matrix.length_row (matrix : Matrix) {r : Nat} (below : r < matrix.height) :
    (matrix.row r).length = matrix.width := by
  have room : r * matrix.width + matrix.width ≤ matrix.height * matrix.width := by
    rw [← Nat.succ_mul]
    exact Nat.mul_le_mul_right _ below
  rw [Matrix.row, length_take, length_drop, matrix.sized]
  omega

variable {matrix : Matrix}

section

variable (passed : Accepted matrices)

include passed

theorem Accepted.level (inside : matrix ∈ matrices) :
    p2mLog2 matrix.height ≤ p2mLog2 (batchHeight matrices) ∧
      matrix.height = batchHeight matrices /
        2 ^ (p2mLog2 (batchHeight matrices) - p2mLog2 matrix.height) := by
  obtain ⟨k, power⟩ := exists_two_pow_of_isPow2 (passed.pow2 matrix inside)
  have below : matrix.height ≤ batchHeight matrices :=
    le_maxHeight (mem_map_of_mem inside)
  have log : p2mLog2 matrix.height = k := by rw [power, p2mLog2, Nat.log2_two_pow]
  rw [power, passed.exists_depth] at below
  have small : k ≤ p2mLog2 (batchHeight matrices) := (Nat.pow_le_pow_iff_right (by decide)).mp below
  rw [log, passed.div_two_pow (Nat.sub_le _ _), Nat.sub_sub_self small, power]
  exact ⟨small, rfl⟩

theorem Accepted.shift_lt (inside : matrix ∈ matrices) (below : index < batchHeight matrices) :
    index / 2 ^ (p2mLog2 (batchHeight matrices) - p2mLog2 matrix.height) < matrix.height := by
  have divides := Nat.pow_dvd_pow 2
    (Nat.sub_le (p2mLog2 (batchHeight matrices)) (p2mLog2 matrix.height))
  rw [← passed.exists_depth] at divides
  exact Nat.lt_of_lt_of_eq (Nat.div_lt_div_of_lt_of_dvd divides below)
    (passed.level inside).2.symm

theorem groupRowConcat_shiftedRow (index : Nat) (within : l ≤ p2mLog2 (batchHeight matrices)) :
    groupRowConcat (matrices.map fun matrix =>
        (matrix.height, shiftedRow (p2mLog2 (batchHeight matrices)) index matrix))
        (batchHeight matrices / 2 ^ l) =
      groupRowConcat (rowsAt matrices (index / 2 ^ l)) (batchHeight matrices / 2 ^ l) := by
  rw [rowsAt, groupRowConcat, groupRowConcat, filter_map, filter_map, flatMap_map, flatMap_map]
  apply flatMap_congr
  intro matrix inside
  obtain ⟨inside, height⟩ := mem_filter.mp inside
  replace height : matrix.height = _ := of_decide_eq_true height
  have log : p2mLog2 matrix.height = p2mLog2 (batchHeight matrices) - l := by
    rw [height, passed.div_two_pow within, p2mLog2, Nat.log2_two_pow]
  rw [shiftedRow, log, Nat.sub_sub_self within]

end

theorem isSome_mixedExtra (permute : Permutation) (matrices : List Matrix) (pos : 0 < maxH)
    (level i : Nat) :
    (mixedExtra permute matrices maxH (level + 1) i).isSome =
      matrices.any fun matrix => matrix.height = maxH / 2 ^ (level + 1) := by
  have half : maxH / 2 ^ (level + 1) ≠ maxH := by
    apply Nat.ne_of_lt
    apply Nat.div_lt_self pos
    exact Nat.one_lt_two_pow (Nat.succ_ne_zero level)
  simp only [mixedExtra, half, ne_eq, not_false_eq_true, decide_true, Bool.and_true]
  split
  next found => exact found.symm
  next missing => exact (Bool.eq_false_iff.mpr missing).symm

theorem isSome_takenRows (rows : List (Nat × List UInt64)) (maxH level : Nat) :
    (takenRows permute rows maxH level).isSome = rows.any fun row => row.1 = maxH / 2 ^ level := by
  rw [takenRows]
  split
  next found => exact found.symm
  next missing => exact (Bool.eq_false_iff.mpr missing).symm

theorem ite_some_of_isSome {holds : Prop} [Decidable holds]
    (there : (if holds then some value else none).isSome = true) :
    (if holds then some value else none) = some value := by
  split at there
  next yes => exact if_pos yes
  next => cases there

/-- Opened rows that have the heights of the batch take something in where the tree does. -/
theorem isSome_takenRows_eq (permute : Permutation) (pos : 0 < maxH)
    (dims : opened.map dims = matrices.map Matrix.dims) (level i : Nat) :
    (takenRows permute (opened.map entry) maxH (level + 1)).isSome =
      (mixedExtra permute matrices maxH (level + 1) i).isSome := by
  have heights := congrArg (map Prod.snd) dims
  rw [map_map, map_map] at heights
  have any := congrArg (any · fun height => decide (height = maxH / 2 ^ (level + 1))) heights
  rw [any_map, any_map] at any
  rw [isSome_takenRows, isSome_mixedExtra permute matrices pos, any_map]
  exact any

theorem maxHeight_of_dims (dims : opened.map OpenedRow.dims = matrices.map Matrix.dims) :
    maxHeight (opened.map OpenedRow.height) = batchHeight matrices := by
  have heights := congrArg (map Prod.snd) dims
  rw [map_map, map_map] at heights
  exact congrArg maxHeight heights

theorem ite_some_congr {first second : Prop} [Decidable first] [Decidable second]
    (eq : (if first then some value else none).isSome =
      (if second then some value else none).isSome) :
    (if first then some value else none) = if second then some value else none := by
  split <;> split <;> simp_all

theorem takenRows_shiftedRow (passed : Accepted matrices)
    (dims : opened.map dims = matrices.map Matrix.dims)
    (entries : opened.map entry = matrices.map fun matrix => (matrix.height, shiftedRow
      (p2mLog2 (batchHeight matrices)) index matrix)) {step : Nat}
    (below : step < p2mLog2 (batchHeight matrices)) :
    takenRows permute (opened.map entry) (batchHeight matrices) (step + 1) =
      mixedExtra permute matrices (batchHeight matrices) (step + 1) (index / 2 ^ (step + 1)) := by
  have pos : 0 < batchHeight matrices := by
    rw [passed.exists_depth]
    exact Nat.two_pow_pos _
  have shapes := isSome_takenRows_eq permute pos dims step (index / 2 ^ (step + 1))
  have concat := groupRowConcat_shiftedRow passed index (Nat.succ_le_of_lt below)
  rw [← entries] at concat
  unfold takenRows mixedExtra at shapes ⊢
  rw [concat] at shapes ⊢
  exact ite_some_congr shapes

theorem exists_matrix (dims : opened.map dims = matrices.map Matrix.dims)
    {o : OpenedRow} (inside : o ∈ opened) : ∃ matrix ∈ matrices, matrix.dims = o.dims := by
  have mem := mem_map_of_mem (f := OpenedRow.dims) inside
  rw [dims] at mem
  exact mem_map.mp mem

theorem exists_opened (passed : Accepted matrices) (below : index < batchHeight matrices) :
    ∃ opened : List OpenedRow, opened.map dims = matrices.map Matrix.dims ∧
      opened.map entry = matrices.map fun matrix =>
        (matrix.height, shiftedRow (p2mLog2 (batchHeight matrices)) index matrix) := by
  refine ⟨matrices.attach.map fun matrix => {
    width := matrix.val.width
    height := matrix.val.height
    row := shiftedRow (p2mLog2 (batchHeight matrices)) index matrix.val
    sized := matrix.val.length_row (passed.shift_lt matrix.property below) }, ?_, ?_⟩
  · rw [map_map]
    exact attach_map_val (f := Matrix.dims)
  · rw [map_map]
    exact attach_map_val (f := fun matrix =>
      (matrix.height, shiftedRow (p2mLog2 (batchHeight matrices)) index matrix))

theorem verifyMixed_openMixed (committed : commitMixed permute matrices = .ok (root, tree))
    {index : UInt64} (below : index.toNat < batchHeight matrices) :
    ∃ (opened : List OpenedRow) (proof : P2Proof),
      openMixed tree index = .ok (opened.map OpenedRow.row, proof) ∧
        opened.map OpenedRow.dims = matrices.map Matrix.dims ∧
        verifyMixed permute root opened index proof = .ok () := by
  have top := commitMixed_root committed
  obtain ⟨passed, rfl, -⟩ := commitMixed_eq_ok.mp committed
  obtain ⟨opened, dims, entries⟩ := exists_opened passed below
  have rows : opened.map OpenedRow.row =
      matrices.map (shiftedRow (p2mLog2 (batchHeight matrices)) index.toNat) := by
    have values := congrArg (map Prod.snd) entries
    rwa [map_map, map_map] at values
  have tallest := maxHeight_of_dims dims
  have leaf : hashIter permute (groupRowConcat (opened.map entry) (batchHeight matrices)) =
      mixedNode permute matrices (batchHeight matrices) 0 index.toNat := by
    have concat := groupRowConcat_shiftedRow passed index.toNat (Nat.zero_le _)
    rw [Nat.pow_zero, Nat.div_one, Nat.div_one, ← entries] at concat
    rw [concat]
    rfl
  have siblings := siblingsFrom_eq_path permute passed (Nat.zero_add _)
    (show index.toNat < batchHeight matrices / 2 ^ 0 by rwa [Nat.pow_zero, Nat.div_one])
  refine ⟨opened, ⟨index, UInt32.ofNat matrices.length, path (mmcsCompress permute)
    (mixedLeaf permute matrices (batchHeight matrices))
    (mixedExtra permute matrices (batchHeight matrices)) 0 index.toNat
    (p2mLog2 (batchHeight matrices))⟩, ?_, dims,
    verifyMixed_eq_ok.mpr ⟨⟨?_, ?_, ?_, ?_, ?_, ?_⟩, ?_⟩⟩
  · rw [rows, ← siblings, openMixed]
    refine bind_eq_ok.mpr ⟨_, rfl, bind_eq_ok.mpr ⟨(), failWhen_eq_ok.mpr ?_, ?_⟩⟩
    · exact Nat.not_le.mpr below
    dsimp only
    rw [zipWith_map_right, zipWith_self]
    rfl
  · intro empty
    rw [empty] at dims
    exact passed.nonempty (map_eq_nil_iff.mp dims.symm)
  · intro o inside
    obtain ⟨matrix, mem, eq⟩ := exists_matrix dims inside
    rw [← (Prod.mk.inj eq).1]
    exact passed.wide matrix mem
  · intro o inside
    obtain ⟨matrix, mem, eq⟩ := exists_matrix dims inside
    rw [← (Prod.mk.inj eq).2]
    exact passed.pow2 matrix mem
  · intro o inside
    have mem := mem_map_of_mem (f := OpenedRow.row) inside
    rw [rows] at mem
    obtain ⟨matrix, mem, eq⟩ := mem_map.mp mem
    rw [← eq]
    have canonical := passed.canonical matrix mem
    rw [p2mAllCanonical, all_eq_true] at canonical ⊢
    exact fun x inside => canonical x (mem_of_mem_drop (mem_of_mem_take inside))
  · rwa [tallest]
  · rw [tallest]
    exact length_path _ _ _
  · rw [reachedRoot, tallest, leaf, mixedNode, climb_path, top]
    · rw [Nat.zero_add, Nat.div_eq_of_lt (passed.exists_depth ▸ below)]
      rfl
    · intro step inside
      rw [Nat.zero_add]
      exact takenRows_shiftedRow passed dims entries inside

/-! ## Openings that verify show the committed rows -/

/-- The pairs that are compressed when a batch is committed to. -/
def commitInputs (permute : Permutation) (matrices : List Matrix) : List (P2Digest × P2Digest) :=
  let maxH := batchHeight matrices
  (range (p2mLog2 maxH)).flatMap fun l =>
    (range (maxH / 2 ^ (l + 1))).flatMap fun i =>
      nodeInputs (mmcsCompress permute) (mixedLeaf permute matrices maxH)
        (mixedExtra permute matrices maxH) l i

/-- The rows that are hashed when a batch is committed to. -/
def commitRows (matrices : List Matrix) : List (List UInt64) :=
  let maxH := batchHeight matrices
  (range (p2mLog2 maxH + 1)).flatMap fun l =>
    if matrices.any fun matrix => matrix.height = maxH / 2 ^ l then
      (range (maxH / 2 ^ l)).map fun i => groupRowConcat (rowsAt matrices i) (maxH / 2 ^ l)
    else
      []

/-- The pairs that are compressed when an opening is verified. -/
def verifyInputs (permute : Permutation) (opened : List OpenedRow) (index : UInt64)
    (proof : P2Proof) : List (P2Digest × P2Digest) :=
  let rows := opened.map entry
  let maxH := maxHeight (opened.map OpenedRow.height)
  climbInputs (mmcsCompress permute) (takenRows permute rows maxH) 0 index.toNat
    (hashIter permute (groupRowConcat rows maxH)) proof.siblings

/-- The rows that are hashed when an opening is verified. -/
def verifyRows (opened : List OpenedRow) : List (List UInt64) :=
  opened.map fun o => groupRowConcat (opened.map entry) o.height

/-- Neither the compression nor the row hash has a collision among the inputs of a commitment and
of one verification. The sponge overwrites its rate, so only rows of one length are told apart. -/
structure NoCollision (permute : Permutation) (matrices : List Matrix) (opened : List OpenedRow)
    (index : UInt64) (proof : P2Proof) : Prop where
  compress : Set.InjOn (fun pair : P2Digest × P2Digest => mmcsCompress permute pair.1 pair.2)
    { pair | pair ∈ commitInputs permute matrices ∨ pair ∈ verifyInputs permute opened index proof }
  rows : ∀ first ∈ commitRows matrices, ∀ second ∈ verifyRows opened,
    first.length = second.length → hashIter permute first = hashIter permute second →
      first = second

theorem groupRowConcat_cons (row : Nat × List UInt64) (rows : List (Nat × List UInt64)) (n : Nat) :
    groupRowConcat (row :: rows) n =
      (if row.1 = n then row.2 else []) ++ groupRowConcat rows n := by
  split
  next height => simp [groupRowConcat, height]
  next height => simp [groupRowConcat, height]

theorem rows_of_groupRowConcat
    (related : Forall₂ (fun (o : OpenedRow) (matrix : Matrix) => o.height = matrix.height ∧
      o.row.length = (f matrix).length) opened matrices) :
    (groupRowConcat (opened.map entry) n).length =
        (groupRowConcat (matrices.map fun matrix => (matrix.height, f matrix)) n).length ∧
      (groupRowConcat (opened.map entry) n =
          groupRowConcat (matrices.map fun matrix => (matrix.height, f matrix)) n →
        Forall₂ (fun o matrix => matrix.height = n → o.row = f matrix) opened matrices) := by
  induction related with
  | nil => exact ⟨rfl, fun _ => .nil⟩
  | @cons o matrix opened matrices eq _ ih =>
    obtain ⟨lengths, rest⟩ := ih
    rw [map_cons, map_cons, groupRowConcat_cons, groupRowConcat_cons]
    simp only [entry, eq.1]
    split
    next height =>
      rw [length_append, length_append, eq.2, lengths]
      refine ⟨rfl, fun concat => ?_⟩
      obtain ⟨rows, others⟩ := append_inj concat eq.2
      exact .cons (fun _ => rows) (rest others)
    next height =>
      rw [nil_append, nil_append]
      exact ⟨lengths, fun concat => .cons (fun found => absurd found height) (rest concat)⟩

theorem Accepted.div_lt_div (passed : Accepted matrices) (below : index < batchHeight matrices)
    (within : l ≤ p2mLog2 (batchHeight matrices)) :
    index / 2 ^ l < batchHeight matrices / 2 ^ l := by
  apply Nat.div_lt_div_of_lt_of_dvd _ below
  rw [passed.exists_depth]
  exact Nat.pow_dvd_pow 2 within

/-- Without a collision the groups of an opening that verifies hash to the digests of the batch. -/
theorem hashIter_of_verifyMixed (committed : commitMixed permute matrices = .ok (root, tree))
    {index : UInt64} (dims : opened.map OpenedRow.dims = matrices.map Matrix.dims)
    (good : verifyMixed permute root opened index proof = .ok ())
    (free : NoCollision permute matrices opened index proof)
    (within : l ≤ p2mLog2 (batchHeight matrices))
    (present : (matrices.any fun matrix => matrix.height = batchHeight matrices / 2 ^ l) = true) :
    hashIter permute (groupRowConcat (rowsAt matrices (index.toNat / 2 ^ l))
        (batchHeight matrices / 2 ^ l)) =
      hashIter permute (groupRowConcat (opened.map entry) (batchHeight matrices / 2 ^ l)) := by
  have top := commitMixed_root committed
  obtain ⟨passed, -, -⟩ := commitMixed_eq_ok.mp committed
  obtain ⟨fine, reached⟩ := verifyMixed_eq_ok.mp good
  have tallest := maxHeight_of_dims dims
  have below := fine.bounded
  have depth := fine.depth
  rw [tallest] at below depth
  rw [reachedRoot, tallest, top] at reached
  have pos : 0 < batchHeight matrices := Nat.zero_lt_of_lt below
  obtain ⟨leaf, taken⟩ : hashIter permute (groupRowConcat (opened.map entry)
      (batchHeight matrices)) = mixedNode permute matrices (batchHeight matrices) 0 index.toNat ∧
      ∀ step < proof.siblings.length,
        takenRows permute (opened.map entry) (batchHeight matrices) (0 + step + 1) =
          mixedExtra permute matrices (batchHeight matrices) (0 + step + 1)
            (index.toNat / 2 ^ (step + 1)) := by
    apply climb_inj free.compress
    · intro input inside
      right
      rwa [verifyInputs, tallest]
    · intro step inside input mem
      left
      rw [depth] at inside
      rw [Nat.zero_add] at mem
      exact mem_flatMap.mpr ⟨step, mem_range.mpr inside, mem_flatMap.mpr
        ⟨_, mem_range.mpr (passed.div_lt_div below inside), mem⟩⟩
    · intro step _
      exact isSome_takenRows_eq permute pos dims (0 + step) _
    · have small := below
      rw [passed.exists_depth] at small
      rw [reached, depth, Nat.zero_add, Nat.div_eq_of_lt small]
      rfl
  cases l with
  | zero =>
    rw [Nat.pow_zero, Nat.div_one, Nat.div_one]
    exact leaf.symm
  | succ step =>
    have both := taken step (depth ▸ within)
    have there := isSome_mixedExtra permute matrices pos step (index.toNat / 2 ^ (step + 1))
    rw [Nat.zero_add] at both
    rw [present] at there
    have there' := both ▸ there
    rw [mixedExtra] at both there
    rw [takenRows] at both there'
    rw [ite_some_of_isSome there, ite_some_of_isSome there'] at both
    exact (Option.some.inj both).symm

theorem mem_commitRows (passed : Accepted matrices) (below : index < batchHeight matrices)
    (within : l ≤ p2mLog2 (batchHeight matrices))
    (there : (matrices.any fun matrix => matrix.height = batchHeight matrices / 2 ^ l) = true) :
    groupRowConcat (rowsAt matrices (index / 2 ^ l)) (batchHeight matrices / 2 ^ l) ∈
      commitRows matrices := by
  refine mem_flatMap.mpr ⟨l, mem_range.mpr (Nat.lt_succ_of_le within), ?_⟩
  rw [if_pos there]
  exact mem_map.mpr ⟨_, mem_range.mpr (passed.div_lt_div below within), rfl⟩

/-- Without a collision an opening that verifies has the rows of the batch at its index. -/
theorem rows_of_verifyMixed (committed : commitMixed permute matrices = .ok (root, tree))
    {index : UInt64} (dims : opened.map OpenedRow.dims = matrices.map Matrix.dims)
    (good : verifyMixed permute root opened index proof = .ok ())
    (free : NoCollision permute matrices opened index proof) :
    opened.map OpenedRow.row =
      matrices.map (shiftedRow (p2mLog2 (batchHeight matrices)) index.toNat) := by
  obtain ⟨passed, -, -⟩ := commitMixed_eq_ok.mp committed
  obtain ⟨fine, -⟩ := verifyMixed_eq_ok.mp good
  have below := fine.bounded
  rw [maxHeight_of_dims dims] at below
  have related : Forall₂ (fun (o : OpenedRow) (matrix : Matrix) =>
      o.height = matrix.height ∧ o.row.length =
        (shiftedRow (p2mLog2 (batchHeight matrices)) index.toNat matrix).length)
      opened matrices := by
    rw [← forall₂_eq_eq_eq, forall₂_map_left_iff, forall₂_map_right_iff, forall₂_iff_zip] at dims
    refine forall₂_iff_zip.mpr ⟨dims.1, fun {o matrix} pair => ?_⟩
    obtain ⟨width, height⟩ := Prod.mk.inj (dims.2 pair)
    rw [o.sized, shiftedRow, Matrix.length_row]
    · exact ⟨height, width⟩
    · exact passed.shift_lt (of_mem_zip pair).2 below
  suffices rows : Forall₂ (fun (o : OpenedRow) (matrix : Matrix) =>
      o.row = shiftedRow (p2mLog2 (batchHeight matrices)) index.toNat matrix) opened matrices by
    rwa [← forall₂_eq_eq_eq, forall₂_map_left_iff, forall₂_map_right_iff]
  refine forall₂_iff_zip.mpr ⟨(forall₂_iff_zip.mp related).1, fun {o matrix} pair => ?_⟩
  -- The group of a matrix enters at the level of its height.
  have mem := (of_mem_zip pair).2
  obtain ⟨small, height⟩ := passed.level mem
  have within := Nat.sub_le (p2mLog2 (batchHeight matrices)) (p2mLog2 matrix.height)
  have there : (matrices.any fun other => other.height = batchHeight matrices /
      2 ^ (p2mLog2 (batchHeight matrices) - p2mLog2 matrix.height)) = true :=
    any_eq_true.mpr ⟨matrix, mem, decide_eq_true height⟩
  have hashes := hashIter_of_verifyMixed committed dims good free within there
  obtain ⟨lengths, concat⟩ := rows_of_groupRowConcat (n := matrix.height) related
  have group := groupRowConcat_shiftedRow passed index.toNat within
  have committedRows := mem_commitRows passed below within there
  rw [← height] at hashes group committedRows
  rw [group] at lengths concat
  have openedRows : groupRowConcat (opened.map entry) matrix.height ∈
      verifyRows opened := by
    refine mem_map.mpr ⟨o, (of_mem_zip pair).1, ?_⟩
    rw [((forall₂_iff_zip.mp related).2 pair).1]
  have eq := free.rows _ committedRows _ openedRows lengths.symm hashes
  exact (forall₂_iff_zip.mp (concat eq.symm)).2 pair rfl

/-- What is opened verifies, over one height as the plain commitment does, and without a collision
an opening that verifies has the committed rows at its index. -/
theorem commitMixed_binds (permute : Permutation) (matrices : List Matrix) (root : P2Digest)
    (tree : MmcsTree) (committed : commitMixed permute matrices = .ok (root, tree)) :
    (∀ index : UInt64, if index.toNat < batchHeight matrices then
      ∃ (opened : List OpenedRow) (proof : P2Proof),
        openMixed tree index = .ok (opened.map OpenedRow.row, proof) ∧
          opened.map OpenedRow.dims = matrices.map Matrix.dims ∧
          verifyMixed permute root opened index proof = .ok ()
      else openMixed tree index = .error .badIndex) ∧
    (∀ height, (∀ matrix ∈ matrices, matrix.height = height) →
      (∃ plain, commit permute matrices height = .ok (root, plain)) ∧
      ∀ (root : P2Digest) (opened : List OpenedRow) (index : UInt64) (proof : P2Proof),
        (∀ o ∈ opened, o.height = height) →
          (verifyMixed permute root opened index proof = .ok () ↔
            mmcsVerify permute root opened height index proof = .ok ())) ∧
    ∀ (opened : List OpenedRow) (index : UInt64) (proof : P2Proof),
      opened.map OpenedRow.dims = matrices.map Matrix.dims →
      verifyMixed permute root opened index proof = .ok () →
      NoCollision permute matrices opened index proof →
        opened.map OpenedRow.row =
          matrices.map (shiftedRow (p2mLog2 (batchHeight matrices)) index.toNat) := by
  refine ⟨?_, ?_, ?_⟩
  · intro index
    split
    next below => exact verifyMixed_openMixed committed below
    next outside =>
      obtain ⟨-, rfl, -⟩ := commitMixed_eq_ok.mp committed
      rw [openMixed, failWhen, if_pos (Nat.le_of_not_lt outside)]
      rfl
  · intro height all
    refine ⟨commit_of_commitMixed all committed, ?_⟩
    intro root opened index proof openedAll
    exact verifyMixed_iff_mmcsVerify openedAll
  · intro opened index proof dims good free
    exact rows_of_verifyMixed committed dims good free

end

/-- A stand-in for the permutation that is easy to evaluate. -/
def toyPermute : Permutation := fun (left, right) =>
  ({ left with lane0 := left.lane0 + 10 * right.lane0 + 1 }, right)

def toyMatrices : List Matrix := [⟨1, 2, [5, 6], rfl⟩, ⟨2, 1, [7, 8], rfl⟩]

def toyOpened : List OpenedRow := [⟨1, 2, [6], rfl⟩, ⟨2, 1, [7, 8], rfl⟩]

theorem commitMixed_binds_toy :
    ∃ tree, commitMixed toyPermute toyMatrices = .ok (⟨158, 0, 0, 0⟩, tree) ∧
      (∃ opened proof, openMixed tree 1 = .ok (opened.map OpenedRow.row, proof) ∧
        verifyMixed toyPermute ⟨158, 0, 0, 0⟩ opened 1 proof = .ok ()) ∧
      verifyMixed toyPermute ⟨158, 0, 0, 0⟩ toyOpened 1 ⟨1, 2, [⟨6, 0, 0, 0⟩]⟩ = .ok () ∧
      toyOpened.map OpenedRow.row = toyMatrices.map (shiftedRow 1 1) := by
  obtain ⟨⟨root, tree⟩, committed⟩ := exists_of_isOk
    (show (commitMixed toyPermute toyMatrices).isOk = true by decide)
  have top : root = ⟨158, 0, 0, 0⟩ := by
    rw [commitMixed_root committed]
    decide
  rw [top] at committed
  obtain ⟨opens, -, binds⟩ := commitMixed_binds _ _ _ _ committed
  have opening := opens 1
  rw [if_pos (show (1 : UInt64).toNat < batchHeight toyMatrices by decide)] at opening
  obtain ⟨opened, proof, produced, -, verifies⟩ := opening
  have good : verifyMixed toyPermute ⟨158, 0, 0, 0⟩ toyOpened 1 ⟨1, 2, [⟨6, 0, 0, 0⟩]⟩ =
      .ok () := by rfl
  have free : NoCollision toyPermute toyMatrices toyOpened 1 ⟨1, 2, [⟨6, 0, 0, 0⟩]⟩ := by
    have compress : ∀ first ∈ commitInputs toyPermute toyMatrices ++
        verifyInputs toyPermute toyOpened 1 ⟨1, 2, [⟨6, 0, 0, 0⟩]⟩, ∀ second ∈
        commitInputs toyPermute toyMatrices ++
          verifyInputs toyPermute toyOpened 1 ⟨1, 2, [⟨6, 0, 0, 0⟩]⟩,
        mmcsCompress toyPermute first.1 first.2 = mmcsCompress toyPermute second.1 second.2 →
          first = second := by decide
    constructor
    · intro first inFirst second inSecond
      exact compress first (mem_append.mpr inFirst) second (mem_append.mpr inSecond)
    · decide
  exact ⟨tree, committed, ⟨opened, proof, produced, verifies⟩, good,
    binds _ _ _ (by decide) good free⟩

end DnaLedger.Zk
