import DnaLedger.Foundation.MixedTree
import DnaLedger.Foundation.Outcome

/-!
# Commitments to matrices of mixed heights

A batch of matrices is committed to by one hash tree. The rows of the tallest matrices are its
leaves; a matrix of half the height enters one level up. The permutation of the sponge is a
parameter.
-/

namespace DnaLedger.Zk

def goldilocksP : UInt64 := 0xFFFFFFFF00000001

/-- The word is the one by which its field element is stored. -/
def Canonical (x : UInt64) : Prop := x < goldilocksP

instance (x : UInt64) : Decidable (Canonical x) := inferInstanceAs (Decidable (x < goldilocksP))

structure Lanes (α : Type) where
  lane0 : α
  lane1 : α
  lane2 : α
  lane3 : α
  deriving DecidableEq

/-- `dnac_p2_digest_t`: the lanes are plain words. -/
abbrev P2Digest := Lanes UInt64

/-- `dnac_p2_proof_t`; the depth is the number of siblings. -/
structure P2Proof where
  leafIndex : UInt64
  numMatrices : UInt32
  siblings : List P2Digest
  deriving DecidableEq

/-- `dnac_p2_mmcs_status_t`, without allocation failures. -/
inductive MmcsStatus where
  | param
  | noncanonical
  | badIndex
  | badDepth
  | rootMismatch
  deriving DecidableEq

/-- A permutation of the eight lanes of the sponge: the rate and the capacity. -/
abbrev Permutation := P2Digest × P2Digest → P2Digest × P2Digest

/-- Blocks of four cells overwrite the rate; what is missing from the last one is kept. -/
def absorb (permute : Permutation) (state : P2Digest × P2Digest) : List UInt64 → P2Digest × P2Digest
  | [] => state
  | [a] => permute ({ state.1 with lane0 := a }, state.2)
  | [a, b] => permute ({ state.1 with lane0 := a, lane1 := b }, state.2)
  | [a, b, c] => permute ({ state.1 with lane0 := a, lane1 := b, lane2 := c }, state.2)
  | a :: b :: c :: d :: rest => absorb permute (permute (⟨a, b, c, d⟩, state.2)) rest

def zeroDigest : P2Digest := ⟨0, 0, 0, 0⟩

def hashIter (permute : Permutation) (elems : List UInt64) : P2Digest :=
  (absorb permute (zeroDigest, zeroDigest) elems).1

def mmcsCompress (permute : Permutation) (left right : P2Digest) : P2Digest :=
  (permute (left, right)).1

def p2mIsPow2 (x : Nat) : Bool := x ≠ 0 && x &&& (x - 1) = 0

/-- How often a number is halved until at most one is left. -/
def p2mLog2 (x : Nat) : Nat := Nat.log2 x

def p2mAllCanonical (v : List UInt64) : Bool := v.all fun x => decide (Canonical x)

structure Matrix where
  width : Nat
  height : Nat
  cells : List UInt64
  sized : cells.length = height * width

def Matrix.row (matrix : Matrix) (r : Nat) : List UInt64 :=
  (matrix.cells.drop (r * matrix.width)).take matrix.width

/-- The row of every matrix of a batch at one index, with the height of the matrix. -/
def rowsAt (matrices : List Matrix) (r : Nat) : List (Nat × List UInt64) :=
  matrices.map fun matrix => (matrix.height, matrix.row r)

/-- The rows of the matrices of one height. -/
def groupRowConcat (rows : List (Nat × List UInt64)) (groupH : Nat) : List UInt64 :=
  (rows.filter fun row => row.1 = groupH).flatMap Prod.snd

def maxHeight (heights : List Nat) : Nat := heights.foldl max 0

/-- `dnac_p2_mmcs_tree_t`.  Only a tree over mixed heights keeps the heights. -/
structure MmcsTree where
  numRows : Nat
  depth : Nat
  layers : List (List P2Digest)
  matrices : List Matrix
  heights : Option (List Nat)

def layersUpTo (base : List P2Digest) (next : Nat → List P2Digest → List P2Digest) :
    Nat → List (List P2Digest)
  | 0 => [base]
  | l + 1 =>
    let below := layersUpTo base next l
    below ++ [next (l + 1) (below.getD l [])]

section
variable (permute : Permutation)

variable (matrices : List Matrix)

def leafLayer (maxH : Nat) : List P2Digest :=
  (List.range maxH).map fun r => hashIter permute (groupRowConcat (rowsAt matrices r) maxH)

/-- A layer of `n` nodes from the one below, which takes in the matrices of that height. -/
def nextLayer (maxH n : Nat) (below : List P2Digest) : List P2Digest :=
  let inject := matrices.any fun matrix => matrix.height = n && n ≠ maxH
  (List.range n).map fun i =>
    let d := mmcsCompress permute (below.getD (2 * i) zeroDigest)
      (below.getD (2 * i + 1) zeroDigest)
    if inject then
      mmcsCompress permute d (hashIter permute (groupRowConcat (rowsAt matrices i) n))
    else
      d

def mixedLayers (maxH depth : Nat) : List (List P2Digest) :=
  layersUpTo (leafLayer permute matrices maxH)
    (fun l => nextLayer permute matrices maxH (maxH / 2 ^ l)) depth

def checkMatrix (width height : Nat) (cells : List UInt64) : Except MmcsStatus Unit := do
  failWhen .param (width = 0 ∨ p2mIsPow2 height = false)
  failWhen .noncanonical (p2mAllCanonical cells = false)

def commitMixed : Except MmcsStatus (P2Digest × MmcsTree) := do
  failWhen .param (matrices = [])
  matrices.forM fun matrix => checkMatrix matrix.width matrix.height matrix.cells
  let heights := matrices.map Matrix.height
  let maxH := maxHeight heights
  let depth := p2mLog2 maxH
  let layers := mixedLayers permute matrices maxH depth
  return ((layers.getD depth []).getD 0 zeroDigest,
    { numRows := maxH, depth, layers, matrices, heights := some heights })

/-- The rows of all matrices. -/
def leafDigest (r : Nat) : P2Digest :=
  hashIter permute (matrices.flatMap fun matrix => matrix.row r)

/-- A layer of `n` nodes from the one below. -/
def pairLayer (n : Nat) (below : List P2Digest) : List P2Digest :=
  (List.range n).map fun i =>
    mmcsCompress permute (below.getD (2 * i) zeroDigest) (below.getD (2 * i + 1) zeroDigest)

def plainLayers (numRows depth : Nat) : List (List P2Digest) :=
  layersUpTo ((List.range numRows).map (leafDigest permute matrices))
    (fun l => pairLayer permute (numRows / 2 ^ l)) depth

def commit (numRows : Nat) : Except MmcsStatus (P2Digest × MmcsTree) := do
  failWhen .param (matrices = [] ∨ p2mIsPow2 numRows = false)
  matrices.forM fun matrix => do
    failWhen .param (matrix.width = 0)
    failWhen .noncanonical (p2mAllCanonical (matrix.cells.take (numRows * matrix.width)) = false)
  let depth := p2mLog2 numRows
  let layers := plainLayers permute matrices numRows depth
  return ((layers.getD depth []).getD 0 zeroDigest,
    { numRows, depth, layers, matrices, heights := none })

end

/-- The siblings on the way up from layer `l`. -/
def siblingsFrom (layers : List (List P2Digest)) : Nat → Nat → Nat → List P2Digest
  | _, _, 0 => []
  | l, idx, count + 1 =>
    (layers.getD l []).getD (idx ^^^ 1) zeroDigest :: siblingsFrom layers (l + 1) (idx / 2) count

/-- A row of every matrix, and the path. -/
def openMixed (tree : MmcsTree) (index : UInt64) :
    Except MmcsStatus (List (List UInt64) × P2Proof) := do
  let heights ← orFail .param tree.heights
  failWhen .badIndex (tree.numRows ≤ index.toNat)
  let rows := List.zipWith (fun (matrix : Matrix) height =>
    matrix.row (index.toNat / 2 ^ (tree.depth - p2mLog2 height))) tree.matrices heights
  return (rows, {
    leafIndex := index
    numMatrices := UInt32.ofNat tree.matrices.length
    siblings := siblingsFrom tree.layers 0 index.toNat tree.depth })

/-- A row that is claimed to be opened, with the width and the height of its matrix. -/
structure OpenedRow where
  width : Nat
  height : Nat
  row : List UInt64
  sized : row.length = width

def OpenedRow.entry (opened : OpenedRow) : Nat × List UInt64 := (opened.height, opened.row)

variable (permute : Permutation)

/-- Up along the siblings; a matrix of the height that is reached is taken in. -/
def verifyLoop (rows : List (Nat × List UInt64)) : Nat → Nat → P2Digest → List P2Digest → P2Digest
  | _, _, digest, [] => digest
  | idx, cur, digest, sibling :: siblings =>
    let next :=
      if idx % 2 = 0 then mmcsCompress permute digest sibling
      else mmcsCompress permute sibling digest
    let hasGroup := rows.any fun row => row.1 = cur / 2
    verifyLoop rows (idx / 2) (cur / 2)
      (if hasGroup then
        mmcsCompress permute next (hashIter permute (groupRowConcat rows (cur / 2)))
      else next) siblings

def verifyMixed (root : P2Digest) (opened : List OpenedRow) (index : UInt64) (proof : P2Proof) :
    Except MmcsStatus Unit := do
  failWhen .param (opened = [])
  opened.forM fun o => checkMatrix o.width o.height o.row
  let maxH := maxHeight (opened.map OpenedRow.height)
  failWhen .badIndex (maxH ≤ index.toNat)
  failWhen .badDepth (proof.siblings.length ≠ p2mLog2 maxH)
  let rows := opened.map OpenedRow.entry
  let leaf := hashIter permute (groupRowConcat rows maxH)
  failWhen .rootMismatch (verifyLoop permute rows index.toNat maxH leaf proof.siblings ≠ root)

def plainLoop : Nat → P2Digest → List P2Digest → P2Digest
  | _, digest, [] => digest
  | idx, digest, sibling :: siblings =>
    plainLoop (idx / 2)
      (if idx % 2 = 0 then mmcsCompress permute digest sibling
      else mmcsCompress permute sibling digest) siblings

def mmcsVerify (root : P2Digest) (opened : List OpenedRow) (numRows : Nat) (leafIndex : UInt64)
    (proof : P2Proof) : Except MmcsStatus Unit := do
  failWhen .param (opened = [] ∨ p2mIsPow2 numRows = false)
  failWhen .badIndex (numRows ≤ leafIndex.toNat)
  failWhen .badDepth (proof.siblings.length ≠ p2mLog2 numRows)
  opened.forM fun o => do
    failWhen .param (o.width = 0)
    failWhen .noncanonical (p2mAllCanonical o.row = false)
  let leaf := hashIter permute (opened.flatMap OpenedRow.row)
  failWhen .rootMismatch (plainLoop permute leafIndex.toNat leaf proof.siblings ≠ root)

end DnaLedger.Zk
