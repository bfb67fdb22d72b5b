import DnaLedger.Foundation.HashTree
import DnaLedger.Foundation.Program
import DnaLedger.Ledger.Roots

/-!
# A ledger root binds its rows

The tags tell leaves, inner nodes and the empty list apart, and every layout of a row can be read
back, so without a collision a root has only one list of rows.
-/

namespace DnaLedger.Ledger

open HashTree Sorting List

section

variable (sha3 : Hash) (nodeTag : Tag)

/-- What is hashed for the input of a leaf, which is already tagged, and for a node. -/
def rootScheme : Scheme Bytes Bytes Digest where
  hash := sha3
  leaf := id
  node := nodeInput nodeTag

theorem rootScheme_separates {leafTag : Tag} (apart : leafTag ≠ nodeTag) :
    (rootScheme sha3 nodeTag).Separates { input | ∃ body, input = leafTag.val ++ body } where
  leaf_injective := fun _ _ _ _ eq => eq
  node_injective := by
    intro left right left' right' eq
    obtain ⟨-, digests⟩ := Tag.append_inj eq
    obtain ⟨sameLeft, sameRight⟩ := Digest.append_inj digests
    exact ⟨sameLeft, Subtype.ext sameRight⟩
  leaf_ne_node := by
    rintro _ ⟨body, rfl⟩ left right eq
    exact apart (Tag.append_inj eq).1

abbrev nodeHash (left right : Digest) : Digest :=
  sha3 (nodeInput nodeTag left right)

variable {n : Nat} {level : List Digest}

theorem pairLevel_eq {original : List Digest} {next : Nat}
    (pass : InPlace (nodeHash sha3 nodeTag) original level next) (bound : n ≤ original.length)
    (left : 2 * next ≤ n) :
    ∃ after, pairLevel sha3 nodeTag n level (2 * next) next = some (after, n / 2) ∧
      InPlace (nodeHash sha3 nodeTag) original after (n / 2) := by
  induction remaining : n - 2 * next using Nat.strong_induction_on generalizing level next with
  | _ count ih =>
    have length := pass.length
    rw [pairLevel]
    by_cases pair : 2 * next + 1 < n
    · have first := getElem?_eq_getElem (show 2 * next < level.length by omega)
      have second := getElem?_eq_getElem (show 2 * next + 1 < level.length by omega)
      rw [if_pos pair, first, second]
      exact ih _ (by omega) (pass.step first second) (by omega) rfl
    · rw [if_neg pair]
      obtain rfl : next = n / 2 := by omega
      exact ⟨level, rfl, pass⟩

theorem taggedLevel_eq (bound : n ≤ level.length) :
    ∃ after, taggedLevel sha3 nodeTag n level = some (after, (n + 1) / 2) ∧
      after.length = level.length ∧
      after.take ((n + 1) / 2) = pairUp (nodeHash sha3 nodeTag) (level.take n) := by
  obtain ⟨paired, passed, pass⟩ :=
    pairLevel_eq sha3 nodeTag (InPlace.start level) bound (Nat.zero_le n)
  have length := pass.length
  rw [taggedLevel, show pairLevel sha3 nodeTag n level 0 0 = _ from passed]
  simp only [Option.bind_eq_bind, Option.bind_some]
  by_cases odd : n % 2 = 1
  · have last := getElem?_eq_getElem (show 2 * (n / 2) < paired.length by omega)
    have promoted := pass.promote last
    rw [if_pos odd, show n - 1 = 2 * (n / 2) by omega, last, show (n + 1) / 2 = n / 2 + 1 by omega]
    refine ⟨_, rfl, by rw [length_set, length], ?_⟩
    rw [promoted, show 2 * (n / 2) + 1 = n by omega]
  · have written := pass.written
    rw [if_neg odd, show (n + 1) / 2 = n / 2 by omega]
    refine ⟨_, rfl, length, ?_⟩
    rw [written, show 2 * (n / 2) = n by omega]

theorem taggedMerkle_eq {fuel : Nat} {tree : LeafTree Digest} (enough : n ≤ fuel)
    (bound : n ≤ level.length) (balanced : Balanced (level.take n) tree) :
    taggedMerkle sha3 nodeTag fuel level n = some (tree.fold (nodeHash sha3 nodeTag)) := by
  induction fuel generalizing n level tree with
  | zero =>
    have pos := balanced.length_pos
    rw [length_take] at pos
    omega
  | succ fuel ih =>
    have pos := balanced.length_pos
    rw [length_take] at pos
    rw [taggedMerkle]
    by_cases many : 1 < n
    · obtain ⟨after, passed, length, paired⟩ := taggedLevel_eq sha3 nodeTag bound
      obtain ⟨above, nextBalanced, eq⟩ := balanced.pairUp (nodeHash sha3 nodeTag)
      rw [← paired] at nextBalanced
      rw [if_pos many, passed, ← eq]
      exact ih (by omega) (by omega) nextBalanced
    · obtain rfl : n = 1 := by omega
      match level with
      | first :: rest =>
        rw [if_neg many, balanced.eq_leaf rfl]
        rfl

end

/-! ## Roots over rows -/

/-- The order carries over neighbours, and the inputs can be read back behind their tag. -/
structure RootKind.Lawful {Row : Type} (kind : RootKind Row) (Before : Row → Row → Prop) :
    Prop where
  precedes_iff : ∀ first second, kind.precedes first second = true ↔ Before first second
  trans : ∀ first second third, Before first second → Before second third → Before first third
  leaf_tagged : ∀ row input, kind.leafInput row = some input →
    ∃ body, input = kind.leafTag.val ++ body
  leaf_unique : ∀ first second input, kind.leafInput first = some input →
    kind.leafInput second = some input → first = second
  empty_ne_leaf : kind.emptyTag ≠ kind.leafTag
  empty_ne_node : kind.emptyTag ≠ kind.nodeTag
  leaf_ne_node : kind.leafTag ≠ kind.nodeTag

namespace RootKind

variable {Row : Type} (kind : RootKind Row) (sha3 : Hash)

def inputs (rows : List Row) : Set Bytes :=
  match rows with
  | [] => {kind.emptyTag.val}
  | row :: rest =>
    { input | ∃ leaves tree, (row :: rest).mapM kind.leafInput = some leaves ∧
        Balanced leaves tree ∧ input ∈ (rootScheme sha3 kind.nodeTag).inputs tree }

variable {kind sha3} {rows : List Row}

theorem mapM_leafHash {hashes : List Digest}
    (hashed : rows.mapM (kind.leafHash sha3) = some hashes) :
    ∃ leaves, rows.mapM kind.leafInput = some leaves ∧ hashes = leaves.map sha3 := by
  rw [mapM_eq_some] at hashed
  induction hashed with
  | nil => exact ⟨[], rfl, rfl⟩
  | @cons row hash rest hashes step _ ih =>
    obtain ⟨leaf, input, rfl⟩ := Option.map_eq_some_iff.mp step
    obtain ⟨leaves, inputs, rfl⟩ := ih
    exact ⟨leaf :: leaves, by rw [mapM_cons, input, inputs]; rfl, rfl⟩

variable {row : Row} {rest : List Row} {digest : Digest}

theorem root_cons_eq_some (passed : kind.root sha3 (row :: rest) = some digest) :
    ascending kind.precedes (row :: rest) = true ∧
      ∃ leaves tree, (row :: rest).mapM kind.leafInput = some leaves ∧ Balanced leaves tree ∧
        digest = (rootScheme sha3 kind.nodeTag).digest tree := by
  rw [root] at passed
  split at passed
  next ordered =>
    refine ⟨ordered, ?_⟩
    obtain ⟨hashes, hashed, climbed⟩ := Option.bind_eq_some_iff.mp passed
    obtain ⟨leaves, inputs, rfl⟩ := mapM_leafHash hashed
    have filled : leaves ≠ [] := by
      rintro rfl
      cases mapM_eq_some.mp inputs
    obtain ⟨tree, balanced⟩ := exists_balanced filled
    refine ⟨leaves, tree, inputs, balanced, ?_⟩
    have whole : Balanced ((leaves.map sha3).take (leaves.map sha3).length) (tree.map sha3) := by
      rw [take_length]
      exact balanced.map sha3
    rw [taggedMerkle_eq sha3 kind.nodeTag (Nat.le_refl _) (Nat.le_refl _) whole] at climbed
    rw [Scheme.digest_eq_fold]
    exact (Option.some.inj climbed).symm
  next => cases passed

variable {Before : Row → Row → Prop} (lawful : kind.Lawful Before)

include lawful

theorem exists_top (passed : kind.root sha3 (row :: rest) = some digest) :
    ∃ mark body, (mark = kind.leafTag ∨ mark = kind.nodeTag) ∧
      mark.val ++ body ∈ kind.inputs sha3 (row :: rest) ∧ digest = sha3 (mark.val ++ body) := by
  obtain ⟨-, leaves, tree, inputs, balanced, rfl⟩ := root_cons_eq_some passed
  have mem := (rootScheme sha3 kind.nodeTag).topInput_mem tree
  rw [Scheme.digest_eq_hash]
  cases tree with
  | leaf leaf =>
    have found : leaf ∈ leaves := by
      rw [← balanced.leaves]
      exact mem_singleton_self leaf
    obtain ⟨source, -, input⟩ := exists_of_mem_mapM inputs found
    obtain ⟨body, rfl⟩ := lawful.leaf_tagged source leaf input
    exact ⟨_, body, Or.inl rfl, ⟨leaves, _, inputs, balanced, mem⟩, rfl⟩
  | node left right =>
    exact ⟨_, _, Or.inr rfl, ⟨leaves, _, inputs, balanced, mem⟩, rfl⟩

theorem root_cons_ne_nil (passed : kind.root sha3 (row :: rest) = some digest)
    (free : Set.InjOn sha3 (kind.inputs sha3 (row :: rest) ∪ kind.inputs sha3 [])) :
    kind.root sha3 [] ≠ some digest := by
  intro empty
  obtain ⟨mark, body, tagged, mem, top⟩ := exists_top lawful passed
  have bottom : digest = sha3 kind.emptyTag.val := (Option.some.inj empty).symm
  have eq := free (Or.inl mem) (Or.inr rfl) (top.symm.trans bottom)
  rw [← append_nil kind.emptyTag.val] at eq
  obtain ⟨rfl, -⟩ := Tag.append_inj eq
  rcases tagged with leaf | node
  · exact lawful.empty_ne_leaf leaf
  · exact lawful.empty_ne_node node

theorem leaves_tagged {leaves : List Bytes} (inputs : rows.mapM kind.leafInput = some leaves) :
    ∀ leaf ∈ leaves, leaf ∈ { input | ∃ body, input = kind.leafTag.val ++ body } := by
  intro leaf mem
  obtain ⟨source, -, input⟩ := exists_of_mem_mapM inputs mem
  exact lawful.leaf_tagged source leaf input

omit lawful in
theorem tree_inputs_subset {leaves : List Bytes} {tree : LeafTree Bytes}
    (inputs : (row :: rest).mapM kind.leafInput = some leaves) (balanced : Balanced leaves tree) :
    (rootScheme sha3 kind.nodeTag).inputs tree ⊆ kind.inputs sha3 (row :: rest) :=
  fun _ mem => ⟨leaves, tree, inputs, balanced, mem⟩

theorem root_unique {first second : List Row} (firstRoot : kind.root sha3 first = some digest)
    (secondRoot : kind.root sha3 second = some digest)
    (free : Set.InjOn sha3 (kind.inputs sha3 first ∪ kind.inputs sha3 second)) :
    first = second := by
  match first, second with
  | [], [] => rfl
  | [], row :: rest =>
    rw [Set.union_comm] at free
    exact absurd firstRoot (root_cons_ne_nil lawful secondRoot free)
  | row :: rest, [] => exact absurd secondRoot (root_cons_ne_nil lawful firstRoot free)
  | row :: rest, row' :: rest' =>
    obtain ⟨-, leaves, tree, inputs, balanced, rfl⟩ := root_cons_eq_some firstRoot
    obtain ⟨-, leaves', tree', inputs', balanced', eq⟩ := root_cons_eq_some secondRoot
    have separates := rootScheme_separates sha3 kind.nodeTag lawful.leaf_ne_node
    have treeFree := free.mono (Set.union_subset_union
      (tree_inputs_subset inputs balanced) (tree_inputs_subset inputs' balanced'))
    obtain rfl : leaves = leaves' :=
      eq_of_digest_eq separates balanced balanced' (leaves_tagged lawful inputs)
        (leaves_tagged lawful inputs') treeFree eq
    have unique : Relator.LeftUnique fun row input => kind.leafInput row = some input :=
      fun first second input => lawful.leaf_unique first second input
    exact unique.forall₂ (mapM_eq_some.mp inputs) (mapM_eq_some.mp inputs')

omit lawful in
theorem listed_pair {row' : Row} {leaf leaf' : Bytes} (first : kind.leafInput row = some leaf)
    (second : kind.leafInput row' = some leaf') {input : Bytes}
    (mem : input ∈ kind.inputs sha3 [row, row']) :
    input ∈ (rootScheme sha3 kind.nodeTag).inputList (.node (.leaf leaf) (.leaf leaf')) := by
  obtain ⟨leaves, tree, inputs, balanced, mem⟩ := mem
  rw [mapM_cons, first, mapM_cons, second] at inputs
  obtain rfl : leaves = [leaf, leaf'] := (Option.some.inj inputs).symm
  rw [balanced.unique (.node rfl (.leaf leaf) (.leaf leaf'))] at mem
  exact (Scheme.mem_inputList _).mpr mem

end RootKind

theorem guarded_eq_some {refused : Prop} [Decidable refused] {input result : Bytes}
    (made : (if refused then none else some input) = some result) :
    ¬ refused ∧ input = result := by
  split at made
  next => cases made
  next allowed => exact ⟨allowed, Option.some.inj made⟩

theorem RootKind.Lawful.of_body {Row : Type} {kind : RootKind Row} {Before : Row → Row → Prop}
    {Fits : Row → Prop} {body : Row → Bytes}
    (made : ∀ row input, kind.leafInput row = some input →
      Fits row ∧ kind.leafTag.val ++ body row = input)
    (precedes : ∀ first second, kind.precedes first second = true ↔ Before first second)
    (trans : ∀ first second third, Before first second → Before second third → Before first third)
    (tags : kind.emptyTag ≠ kind.leafTag ∧ kind.emptyTag ≠ kind.nodeTag ∧
      kind.leafTag ≠ kind.nodeTag)
    (body_unique : ∀ first second, Fits first → Fits second → body first = body second →
      first = second) : kind.Lawful Before where
  precedes_iff := precedes
  trans := trans
  leaf_tagged row input leaf := ⟨_, (made row input leaf).2.symm⟩
  leaf_unique := by
    intro first second input firstLeaf secondLeaf
    obtain ⟨firstFits, eq⟩ := made first input firstLeaf
    obtain ⟨secondFits, rfl⟩ := made second input secondLeaf
    exact body_unique first second firstFits secondFits (Tag.append_inj eq).2
  empty_ne_leaf := tags.1
  empty_ne_node := tags.2.1
  leaf_ne_node := tags.2.2

theorem tokenKind_lawful : tokenKind.Lawful (LedgerRoot.tokens.Before) := by
  refine .of_body (fun _ _ => guarded_eq_some) (fun _ _ => decide_eq_true_iff)
    (fun _ _ _ => lt_trans) (by decide) fun first second firstFits secondFits eq => ?_
  rw [tokenStrMax] at firstFits secondFits
  obtain ⟨tokenId, eq⟩ := Digest.append_inj eq
  obtain ⟨decimals, eq⟩ := cons.inj eq
  obtain ⟨flags, eq⟩ := cons.inj eq
  obtain ⟨supply, eq⟩ := Layout.be64.append_inj eq
  obtain ⟨blockHeight, eq⟩ := Layout.be64.append_inj eq
  obtain ⟨name, eq⟩ := sized_append_inj (by omega) (by omega) eq
  obtain ⟨symbol, eq⟩ := sized_append_inj (by omega) (by omega) eq
  have creatorFp := sized_inj (by omega) (by omega) eq
  exact TokenLeaf.ext tokenId name symbol creatorFp decimals flags supply blockHeight

theorem vsetKind_lawful : vsetKind.Lawful (LedgerRoot.validatorSet.Before) := by
  refine .of_body (fun _ _ made => ⟨trivial, Option.some.inj made⟩)
    (fun _ _ => decide_eq_true_iff) (fun _ _ _ => UInt64.lt_trans) (by decide)
    fun first second _ _ eq => ?_
  obtain ⟨epoch, eq⟩ := Layout.be64.append_inj eq
  exact VsetRow.ext epoch (Subtype.ext eq)

theorem accrualKind_lawful : accrualKind.Lawful (LedgerRoot.accrual.Before) := by
  refine .of_body (fun _ _ made => ⟨trivial, Option.some.inj made⟩)
    (fun _ _ => decide_eq_true_iff) (fun _ _ _ => lt_trans) (by decide)
    fun first second _ _ eq => ?_
  obtain ⟨ownerFp, eq⟩ := Digest.append_inj eq
  exact AccrualRow.ext ownerFp (Layout.be64.write_inj eq)

theorem namesKind_lawful : namesKind.Lawful (LedgerRoot.names.Before) := by
  refine .of_body (fun _ _ => guarded_eq_some) (fun _ _ => decide_eq_true_iff)
    (fun _ _ _ => lt_trans) (by decide) fun first second firstFits secondFits eq => ?_
  rw [nameMaxLen] at firstFits secondFits
  obtain ⟨name, eq⟩ := sized_append_inj (by omega) (by omega) eq
  obtain ⟨owner, eq⟩ := Digest.append_inj eq
  exact NameRow.ext name owner (Layout.be64.write_inj eq)

theorem treasuryKind_lawful : treasuryKind.Lawful (LedgerRoot.treasury.Before) := by
  refine .of_body (fun _ _ made => ⟨trivial, Option.some.inj made⟩)
    (fun _ _ => decide_eq_true_iff) (fun _ _ _ => UInt32.lt_trans) (by decide)
    fun first second _ _ eq => ?_
  obtain ⟨poolId, eq⟩ := Layout.be32.append_inj eq
  exact TreasuryRow.ext poolId (Layout.be64.write_inj eq)

theorem storageRegistryKind_lawful :
    storageRegistryKind.Lawful (LedgerRoot.storageRegistry.Before) := by
  refine .of_body (fun _ _ => guarded_eq_some) (fun _ _ => decide_eq_true_iff)
    (fun _ _ _ => lt_trans) (by decide) fun first second _ _ eq => ?_
  obtain ⟨nodeFp, eq⟩ := Digest.append_inj eq
  obtain ⟨payeeFp, eq⟩ := Digest.append_inj eq
  obtain ⟨bond, eq⟩ := Layout.be64.append_inj eq
  obtain ⟨status, eq⟩ := cons.inj eq
  obtain ⟨registeredHeight, eq⟩ := Layout.be64.append_inj eq
  obtain ⟨exitHeight, eq⟩ := Layout.be64.append_inj eq
  obtain ⟨failStreak, eq⟩ := Layout.be32.append_inj eq
  exact StorageNodeRow.ext nodeFp payeeFp bond status registeredHeight exitHeight failStreak
    (Layout.be64.write_inj eq)

theorem storageReportsKind_lawful :
    storageReportsKind.Lawful (LedgerRoot.storageReports.Before) := by
  refine .of_body (fun _ _ => guarded_eq_some) ?_ ?_ (by decide) ?_
  · intro first second
    simp only [storageReportsKind, LedgerRoot.Before, Bool.and_eq_true, Bool.not_eq_true',
      decide_eq_false_iff_not, Bool.and_eq_false_iff, beq_eq_false_iff_ne, ne_eq,
      UInt64.lt_iff_toNat_lt, UInt32.lt_iff_toNat_lt, UInt32.le_iff_toNat_le, ← UInt64.toNat_inj]
    omega
  · intro first second third
    simp only [LedgerRoot.Before, UInt64.lt_iff_toNat_lt, UInt32.lt_iff_toNat_lt,
      ← UInt64.toNat_inj]
    omega
  · intro first second firstFits secondFits eq
    rw [storageBitmapMax] at firstFits secondFits
    obtain ⟨epochStart, eq⟩ := Layout.be64.append_inj eq
    obtain ⟨seat, eq⟩ := Layout.be32.append_inj eq
    obtain ⟨setHash, eq⟩ := Digest.append_inj eq
    exact StorageReport.ext epochStart seat setHash (sized_inj (by omega) (by omega) eq)

namespace LedgerRoot

theorem kind_lawful : (which : LedgerRoot) → which.kind.Lawful which.Before
  | tokens => tokenKind_lawful
  | validatorSet => vsetKind_lawful
  | accrual => accrualKind_lawful
  | names => namesKind_lawful
  | treasury => treasuryKind_lawful
  | storageRegistry => storageRegistryKind_lawful
  | storageReports => storageReportsKind_lawful

theorem root_eq (sha3 : Hash) (which : LedgerRoot) : which.root sha3 = which.kind.root sha3 := by
  cases which <;> rfl

def inputs (sha3 : Hash) (which : LedgerRoot) (rows : List which.Row) : Set Bytes :=
  which.kind.inputs sha3 rows

/-- No tag of a row or of an inner node is used by two kinds. -/
theorem tags_disjoint : ∀ which other : LedgerRoot, which ≠ other →
    which.kind.leafTag ≠ other.kind.leafTag ∧ which.kind.leafTag ≠ other.kind.nodeTag ∧
      which.kind.nodeTag ≠ other.kind.leafTag ∧ which.kind.nodeTag ≠ other.kind.nodeTag := by
  intro which other
  cases which <;> cases other <;> decide

end LedgerRoot

/-- Without a collision the root of each kind binds its rows, takes them only in strictly
ascending order of their keys, and is no root of another kind. -/
theorem ledgerRoots_bind (sha3 : Hash) :
    (∀ (which : LedgerRoot) (first second : List which.Row) (digest : Digest),
      which.root sha3 first = some digest → which.root sha3 second = some digest →
      Set.InjOn sha3 (which.inputs sha3 first ∪ which.inputs sha3 second) → first = second) ∧
    (∀ (which : LedgerRoot) (rows : List which.Row),
      ¬ rows.Pairwise which.Before → which.root sha3 rows = none) ∧
    ∀ (which other : LedgerRoot) (first : List which.Row) (second : List other.Row)
      (digest digest' : Digest), which ≠ other → first ≠ [] → second ≠ [] →
      which.root sha3 first = some digest → other.root sha3 second = some digest' →
      Set.InjOn sha3 (which.inputs sha3 first ∪ other.inputs sha3 second) →
      digest ≠ digest' := by
  simp only [LedgerRoot.root_eq]
  refine ⟨?_, ?_, ?_⟩
  · intro which first second digest firstRoot secondRoot free
    exact RootKind.root_unique which.kind_lawful firstRoot secondRoot free
  · intro which rows unordered
    match rows with
    | [] => exact absurd Pairwise.nil unordered
    | row :: rest =>
      have lawful := which.kind_lawful
      rw [RootKind.root, if_neg]
      intro ordered
      exact unordered (pairwise_of_ascending lawful.precedes_iff lawful.trans _ ordered)
  · intro which other first second digest digest' apart firstRows secondRows firstRoot
      secondRoot free eq
    obtain ⟨row, rest, rfl⟩ := exists_cons_of_ne_nil firstRows
    obtain ⟨row', rest', rfl⟩ := exists_cons_of_ne_nil secondRows
    obtain ⟨mark, body, tagged, mem, rfl⟩ := RootKind.exists_top which.kind_lawful firstRoot
    obtain ⟨mark', body', tagged', mem', rfl⟩ :=
      RootKind.exists_top other.kind_lawful secondRoot
    obtain ⟨rfl, -⟩ := Tag.append_inj (free (Or.inl mem) (Or.inr mem') eq)
    obtain ⟨leaves, leafNode, nodeLeaf, nodes⟩ := LedgerRoot.tags_disjoint which other apart
    rcases tagged with leaf | node <;> rcases tagged' with leaf' | node'
    · exact leaves (leaf.symm.trans leaf')
    · exact leafNode (leaf.symm.trans node')
    · exact nodeLeaf (node.symm.trans leaf')
    · exact nodes (node.symm.trans node')

def samplePools (balance : UInt64) : List TreasuryRow := [⟨1, 5⟩, ⟨2, balance⟩]

def sampleSnapshots : List VsetRow := [⟨1, default⟩, ⟨2, default⟩]

def pairInputs (which : LedgerRoot) (leaf leaf' : Bytes) : List Bytes :=
  (rootScheme residueHash which.kind.nodeTag).inputList (.node (.leaf leaf) (.leaf leaf'))

def poolInputs (balance : UInt64) : List Bytes :=
  pairInputs .treasury (treasuryLeafInput ⟨1, 5⟩) (treasuryLeafInput ⟨2, balance⟩)

/-- Two lists of pools, one out of order, and pools against snapshots. -/
theorem ledgerRoots_bind_pairs :
    LedgerRoot.treasury.root residueHash (samplePools 5) ≠
      LedgerRoot.treasury.root residueHash (samplePools 6) ∧
    LedgerRoot.treasury.root residueHash (samplePools 5).reverse = none ∧
    LedgerRoot.treasury.root residueHash (samplePools 5) ≠
      LedgerRoot.validatorSet.root residueHash sampleSnapshots := by
  obtain ⟨unique, ordered, apart⟩ := ledgerRoots_bind residueHash
  obtain ⟨digest, root⟩ := Option.isSome_iff_exists.mp
    (by decide +kernel : (LedgerRoot.treasury.root residueHash (samplePools 5)).isSome = true)
  have pools (balance : UInt64) : ∀ input ∈ LedgerRoot.treasury.inputs residueHash
      (samplePools balance), input ∈ poolInputs balance :=
    fun _ => RootKind.listed_pair rfl rfl
  have snapshots : ∀ input ∈ LedgerRoot.validatorSet.inputs residueHash sampleSnapshots,
      input ∈ pairInputs .validatorSet (vsetLeafInput ⟨1, default⟩) (vsetLeafInput ⟨2, default⟩) :=
    fun _ => RootKind.listed_pair rfl rfl
  rw [root]
  refine ⟨?_, ?_, ?_⟩
  · intro eq
    refine absurd (unique .treasury _ _ _ root eq.symm ?_) (by simp [samplePools])
    exact injOn_of_listed (poolInputs 5 ++ poolInputs 6) (by decide +kernel)
      fun input mem => mem_append.mpr (mem.imp (pools 5 input) (pools 6 input))
  · apply ordered
    intro pairwise
    have before : (2 : UInt32) < 1 := rel_of_pairwise_cons pairwise mem_cons_self
    exact absurd before (by decide)
  · intro eq
    refine apart .treasury .validatorSet _ _ _ _ (by decide) ?_ ?_ root eq.symm ?_ rfl
    · simp [samplePools]
    · simp [sampleSnapshots]
    · exact injOn_of_listed (poolInputs 5 ++ _) (by decide +kernel)
        fun input mem => mem_append.mpr (mem.imp (pools 5 input) (snapshots input))

end DnaLedger.Ledger
