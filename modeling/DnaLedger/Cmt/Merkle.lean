import DnaLedger.Foundation.Bytes
import DnaLedger.Foundation.Program
import Mathlib.Algebra.Ring.Nat

/-!
# Merkle trees

Model of `cmt_merkle.c`: the root of a list of byte strings, by recursion and by pairing neighbours
in place, the proofs for its items, and their verification.
-/

namespace DnaLedger.Cmt

def merkleMaxAunts : Nat := 100

section

variable (tmhash : Hash)

def emptyHash : Digest :=
  tmhash []

def leafHash (leaf : Bytes) : Digest :=
  tmhash (0 :: leaf)

def innerHash (left right : Digest) : Digest :=
  tmhash (1 :: (left.val ++ right.val))

end

/-- The number of bits of a word; the fuel is its width. -/
def bitLength : Nat → UInt64 → Nat
  | 0, _ => 0
  | fuel + 1, word => if word = 0 then 0 else bitLength fuel (word >>> 1) + 1

@[irreducible] def getSplitPoint (length : Int64) : Int64 :=
  if length < 1 then -1
  else
    let k := (1 <<< UInt64.ofNat (bitLength 64 length.toUInt64 - 1)).toInt64
    if k = length then k / 2 else k

/-- Where a list of `n` items is split; the callers refuse a point outside the list. -/
@[irreducible] def splitIndex (n : Nat) : Option Nat :=
  if (getSplitPoint (Int64.ofNat n)).toInt < 1 ∨ n ≤ (getSplitPoint (Int64.ofNat n)).toInt then none
  else some (getSplitPoint (Int64.ofNat n)).toInt.toNat

theorem splitIndex_lt {n k : Nat} (split : splitIndex n = some k) : 0 < k ∧ k < n := by
  unfold splitIndex at split
  split at split
  next => cases split
  next inside =>
    cases split
    omega

section

variable (tmhash : Hash)

def hashFromByteSlices (items : List Bytes) : Except Failure Digest :=
  match items with
  | [] => .ok (emptyHash tmhash)
  | [item] => .ok (leafHash tmhash item)
  | first :: second :: rest =>
    match _split : splitIndex (first :: second :: rest).length with
    | none => .error .fault
    | some k => do
        let left ← hashFromByteSlices ((first :: second :: rest).take k)
        let right ← hashFromByteSlices ((first :: second :: rest).drop k)
        .ok (innerHash tmhash left right)
termination_by items.length
decreasing_by
  · have inside := splitIndex_lt _split
    rw [List.length_take]
    omega
  · have inside := splitIndex_lt _split
    rw [List.length_drop]
    omega

/-- The inner loop of `cmt_merkle_hash_from_byte_slices_iterative`, which reads at `rp` and writes
at `wp`. -/
def levelPass (size : Nat) (hashes : List Digest) (rp wp : Nat) :
    Except Failure (List Digest × Nat) :=
  if rp < size then
    if rp + 1 < size then
      match hashes[rp]?, hashes[rp + 1]? with
      | some left, some right =>
        levelPass size (hashes.set wp (innerHash tmhash left right)) (rp + 2) (wp + 1)
      | _, _ => .error .fault
    else
      match hashes[rp]? with
      | some last => levelPass size (hashes.set wp last) (rp + 1) (wp + 1)
      | none => .error .fault
  else .ok (hashes, wp)
termination_by size - rp

/-- The outer loop, until one hash is left. Each pass makes the level smaller, so the fuel is
enough. -/
def levelLoop : Nat → List Digest → Nat → Except Failure Digest
  | 0, _, _ => .error .fault
  | fuel + 1, hashes, size =>
    if size = 1 then
      match hashes[0]? with
      | some root => .ok root
      | none => .error .fault
    else do
      let (hashes, size) ← levelPass tmhash size hashes 0 0
      levelLoop fuel hashes size

def hashFromByteSlicesIterative (items : List Bytes) : Except Failure Digest :=
  if items = [] then .ok (emptyHash tmhash)
  else if (2 ^ 64 - 1) / digestSize < items.length then .error .fault
  else levelLoop tmhash items.length (items.map (leafHash tmhash)) items.length

end

/-- `cmt_proof_node_t`; the pointers are places in the arena. -/
structure ProofNode where
  hash : Digest
  parent : Option Nat
  left : Option Nat
  right : Option Nat

/-- The size of a `cmt_proof_node_t`: a digest and three pointers. -/
def proofNodeSize : Nat := 88

/-- `cmt_merkle_trails_t`: the arena, the nodes of the leaves and the root. -/
structure Trails where
  arena : List ProofNode
  trails : List Nat
  root : Nat

/-- `cmt_arena_take`, which also fills in the hash. -/
def arenaTake (cap : Nat) (arena : List ProofNode) (hash : Digest) :
    Except Failure (List ProofNode × Nat) :=
  if cap ≤ arena.length then .error .fault
  else .ok (arena ++ [⟨hash, none, none, none⟩], arena.length)

/-- The links that make two nodes the children of a third. -/
def linkSiblings (arena : List ProofNode) (left right node : Nat) : List ProofNode :=
  (arena.modify left fun entry => { entry with parent := some node, right := some right }).modify
    right fun entry => { entry with parent := some node, left := some left }

section

variable (tmhash : Hash) (cap : Nat)

/-- The end of `cmt_trails_rec`: a new node over two subtrees. -/
def joinTrails (left right : Trails) : Except Failure Trails :=
  match right.arena[left.root]?, right.arena[right.root]? with
  | some leftRoot, some rightRoot => do
      let (arena, node) ← arenaTake cap right.arena
        (innerHash tmhash leftRoot.hash rightRoot.hash)
      .ok ⟨linkSiblings arena left.root right.root node, left.trails ++ right.trails, node⟩
  | _, _ => .error .fault

def trailsRec (items : List Bytes) (arena : List ProofNode) : Except Failure Trails :=
  match items with
  | [] => do
      let (arena, node) ← arenaTake cap arena (emptyHash tmhash)
      .ok ⟨arena, [], node⟩
  | [item] => do
      let (arena, node) ← arenaTake cap arena (leafHash tmhash item)
      .ok ⟨arena, [node], node⟩
  | first :: second :: rest =>
    match _split : splitIndex (first :: second :: rest).length with
    | none => .error .fault
    | some k => do
        let left ← trailsRec ((first :: second :: rest).take k) arena
        let right ← trailsRec ((first :: second :: rest).drop k) left.arena
        joinTrails tmhash cap left right
termination_by items.length
decreasing_by
  · have inside := splitIndex_lt _split
    rw [List.length_take]
    omega
  · have inside := splitIndex_lt _split
    rw [List.length_drop]
    omega

def trailsFromByteSlices (items : List Bytes) : Except Failure Trails :=
  if items ≠ [] ∧ ((2 ^ 64 - 1) / 2 < items.length ∨
      (2 ^ 64 - 1) / proofNodeSize < 2 * items.length - 1) then
    .error .fault
  else trailsRec tmhash (if items = [] then 1 else 2 * items.length - 1) items []

end

/-- The sibling of a node: the left one, or else the right one. -/
def ProofNode.aunt (arena : List ProofNode) (spn : ProofNode) : Option Digest :=
  (spn.left.or spn.right).bind fun sibling => arena[sibling]?.map ProofNode.hash

/-- `cmt_proof_node_flatten_aunts`, from a node on. A walk visits each node of the arena once at
most, so its size is enough fuel. -/
def flattenAunts (arena : List ProofNode) (cap : Nat) :
    Nat → Option Nat → List Digest → Except Failure (List Digest)
  | _, none, out => .ok out
  | 0, some _, _ => .error .fault
  | fuel + 1, some place, out =>
    match arena[place]? with
    | none => .error .fault
    | some spn =>
      match spn.aunt arena with
      | none => flattenAunts arena cap fuel spn.parent out
      | some hash =>
        if cap ≤ out.length then .error .reject
        else flattenAunts arena cap fuel spn.parent (out ++ [hash])

/-- `cmt_proof_t` -/
structure MerkleProof where
  total : Int64
  index : Int64
  leafHash : Digest
  leafHashLen : Nat
  aunts : List Digest
  auntLen : List Nat

def proofAt (trails : Trails) (total i place : Nat) : Except Failure MerkleProof :=
  match trails.arena[place]? with
  | none => .error .fault
  | some leaf =>
    match flattenAunts trails.arena merkleMaxAunts trails.arena.length (some place) [] with
    | .error _ => .error .fault
    | .ok aunts =>
      .ok ⟨Int64.ofNat total, Int64.ofNat i, leaf.hash, digestSize, aunts,
        List.replicate aunts.length digestSize⟩

/-- The root and the proofs. -/
def proofsFromByteSlices (tmhash : Hash) (items : List Bytes) :
    Except Failure (Digest × List MerkleProof) :=
  if Int64.maxValue.toInt < items.length then .error .fault
  else do
    let trails ← trailsFromByteSlices tmhash items
    match trails.arena[trails.root]? with
    | none => .error .fault
    | some root => do
        let proofs ← trails.trails.zipIdx.mapM fun (place, i) =>
          proofAt trails items.length i place
        .ok (root.hash, proofs)

section

variable (tmhash : Hash)

/-- The first `nInner` aunts are those of the subtree. -/
def computeHashFromAunts (leaf : Digest) (aunts : List Digest) :
    Int64 → Int64 → Nat → Except Failure Digest
  | index, total, nInner =>
    if total ≤ index ∨ index < 0 ∨ total ≤ 0 then .error .reject
    else if total = 1 then if nInner ≠ 0 then .error .reject else .ok leaf
    else
      match nInner with
      | 0 => .error .reject
      | rest + 1 =>
        let numLeft := getSplitPoint total
        if numLeft < 1 ∨ total ≤ numLeft then .error .fault
        else
          match aunts[rest]? with
          | none => .error .fault
          | some aunt =>
            if index < numLeft then do
              let sub ← computeHashFromAunts leaf aunts index numLeft rest
              .ok (innerHash tmhash sub aunt)
            else do
              let sub ← computeHashFromAunts leaf aunts (index - numLeft) (total - numLeft)
                rest
              .ok (innerHash tmhash aunt sub)

def MerkleProof.computeRootHash (sp : MerkleProof) : Except Failure Digest :=
  computeHashFromAunts tmhash sp.leafHash sp.aunts sp.index sp.total sp.aunts.length

def MerkleProof.verify (sp : MerkleProof) (rootHash : Digest) (leaf : Bytes) :
    Except Failure Unit :=
  if sp.total < 0 then .error .reject
  else if sp.index < 0 then .error .reject
  else if sp.leafHashLen ≠ digestSize ∨ sp.leafHash ≠ Cmt.leafHash tmhash leaf then
    .error .reject
  else do
    let computed ← sp.computeRootHash tmhash
    if computed ≠ rootHash then .error .reject else .ok ()

end

def MerkleProof.validateBasic (sp : MerkleProof) : Bool :=
  0 ≤ sp.total && 0 ≤ sp.index && sp.leafHashLen = digestSize &&
    sp.aunts.length ≤ merkleMaxAunts && sp.auntLen.all fun len => len = digestSize

end DnaLedger.Cmt
