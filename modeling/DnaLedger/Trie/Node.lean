import DnaLedger.Foundation.Program
import DnaLedger.Trie.Rlp

/-!
# The persistent trie

`evm_trie.c` keeps a trie of paths of 128 nibbles. A NULL pointer is `null`. The hash function and
the store are parameters; a store may answer anything. A call that fails leaves the handle faulty,
and a faulty handle refuses every later call.
-/

namespace DnaLedger.Trie

abbrev Nibble := Fin 16

def pathNibbles : Nat := 128

/-- An encoding of this size or more is referred to by its digest. -/
def inlineLimit : Nat := digestSize

def highNibble (byte : UInt8) : Nibble :=
  ⟨byte.toNat / 16, Nat.div_lt_of_lt_mul byte.toNat_lt⟩

def lowNibble (byte : UInt8) : Nibble :=
  ⟨byte.toNat % 16, Nat.mod_lt _ (by decide)⟩

def byteNibbles (byte : UInt8) : List Nibble := [highNibble byte, lowNibble byte]

def pathToNibbles (path : Digest) : List Nibble := path.val.flatMap byteNibbles

/-- Whether a node was modified since it was loaded, and the digest it had then, if large. -/
structure Mark where
  dirty : Bool
  digest : Option Digest

def Mark.touched : Mark := ⟨true, none⟩

def Mark.clean : Mark := ⟨false, none⟩

inductive TNode where
  | null
  | ref (digest : Digest) (isRoot mustBranch : Bool)
  | leaf (mark : Mark) (nib : List Nibble) (val : Bytes)
  | ext (mark : Mark) (nib : List Nibble) (child : TNode)
  | branch (mark : Mark) (child : Nibble → TNode)

namespace TNode

def present : TNode → Bool
  | null => false
  | _ => true

def isBranch : TNode → Bool
  | branch _ _ => true
  | _ => false

/-- The digest by which a node can be referred to without encoding it. -/
def knownDigest : TNode → Option Digest
  | null => none
  | ref digest _ _ => some digest
  | leaf mark _ _ | ext mark _ _ | branch mark _ => if mark.dirty then none else mark.digest

/-- The decoded content of a reference with the mark it gets there. -/
def withMark (mark : Mark) : TNode → TNode
  | leaf _ nib val => leaf mark nib val
  | ext _ nib child => ext mark nib child
  | branch _ child => branch mark child
  | node => node

/-- `nib_prepend` on the two kinds of node that have nibbles. -/
def nibPrepend (pre : List Nibble) : TNode → TNode
  | leaf _ nib val => leaf .touched (pre ++ nib) val
  | ext _ nib child => ext .touched (pre ++ nib) child
  | node => node

end TNode

def pairs : List Nibble → Bytes
  | high :: low :: rest => UInt8.ofNat (16 * high.val + low.val) :: pairs rest
  | _ => []

def compactFlag (isLeaf : Bool) : Nat := if isLeaf then 2 else 0

/-- The bytes of `put_compact`: a flag nibble, with the first nibble beside it when their
number is odd. -/
def compact (nib : List Nibble) (isLeaf : Bool) : Bytes :=
  if nib.length % 2 = 0 then
    UInt8.ofNat (16 * compactFlag isLeaf) :: pairs nib
  else
    UInt8.ofNat (16 * (compactFlag isLeaf + 1) + (nib.headD 0).val) :: pairs nib.tail

def putCompact (nib : List Nibble) (isLeaf : Bool) : Except Failure Bytes :=
  if pathNibbles < nib.length then .error .fault else .ok (putBytes (compact nib isLeaf))

/-- A store of encoded nodes.  A call of either kind may change the state of the store. -/
structure NodeStore (σ : Type) where
  get : σ → Digest → Option Bytes × σ
  put : σ → Digest → Bytes → Bool × σ

section

variable {σ : Type} (hash : Hash) (store : NodeStore σ)

/-- The check of `resolve` that the store answered. -/
def checkAnswer : Option Bytes → Except Failure Bytes
  | none => .error .fault
  | some rlp => if rlp.length = 0 then .error .fault else .ok rlp

def fetch (digest : Digest) : Program σ Bytes := do
  let state ← get
  set (store.get state digest).2
  liftM (checkAnswer (store.get state digest).1)

/-- `store.put` with the check of its result. -/
def deposit (digest : Digest) (rlp : Bytes) : Program σ Unit := do
  let state ← get
  set (store.put state digest rlp).2
  if (store.put state digest rlp).1 then pure () else throw .fault

/-- What a parent holds for a child: its encoding when it is small, and its digest otherwise. -/
def embed (write : Bool) (enc : Bytes) : Program σ Bytes := do
  if enc.length < inlineLimit then
    pure enc
  else do
    if write then deposit store (hash enc) enc
    pure (putBytes (hash enc).val)

/-- What a parent holds for a child, given how to encode the child. -/
def putChildRef (write : Bool) (child : TNode) (encode : Program σ Bytes) : Program σ Bytes :=
  if child.present then
    match child.knownDigest with
    | some digest => pure (putBytes digest.val)
    | none => encode >>= embed hash store write
  else
    pure (putBytes [])

def nodeEncode (write : Bool) : TNode → Program σ Bytes
  | .leaf _ nib val => do
      let key ← putCompact nib true
      pure (wrapList (key ++ putBytes val))
  | .ext _ nib child => do
      let key ← putCompact nib false
      let below ← putChildRef hash store write child (nodeEncode write child)
      pure (wrapList (key ++ below))
  | .branch _ child => do
      let below ← (List.finRange 16).mapM fun k =>
        putChildRef hash store write (child k) (nodeEncode write (child k))
      pure (wrapList (below.flatten ++ putBytes []))
  | _ => throw .fault

end

/-- The items of a list, at most `max`, which consume its payload exactly. -/
def splitList : Nat → Bytes → Option (List Item)
  | 0, payload => if payload.length = 0 then some [] else none
  | max + 1, payload =>
    if payload.length = 0 then some []
    else
      match decodeItem payload with
      | none => none
      | some item => (splitList max (payload.drop item.raw.length)).map (item :: ·)

/-- The nibble beside the flag of a compact string. -/
def oddNibble (first : UInt8) : List Nibble :=
  if first.toNat / 16 % 2 = 1 then [lowNibble first] else []

/-- The nibbles of a compact string and whether they are a leaf's. -/
def readCompact (item : Item) : Option (List Nibble × Bool) :=
  match item.payload with
  | [] => none
  | first :: rest =>
    let flag := first.toNat / 16
    let nib := oddNibble first ++ rest.flatMap byteNibbles
    if item.isList ∨ 3 < flag then none
    else if flag % 2 = 0 ∧ first.toNat % 16 ≠ 0 then none
    else if pathNibbles < nib.length then none
    else some (nib, flag / 2 % 2 = 1)

/-- A child inside a stored node, given how to decode an embedded one. -/
def decodeChild (decode : Bytes → Option TNode) (expectBranch : Bool) (item : Item) :
    Option TNode :=
  if item.isList then
    if inlineLimit ≤ item.raw.length then none else decode item.raw
  else if item.payload.length = 0 then
    if expectBranch then none else some .null
  else if fits : item.payload.length = digestSize then
    some (.ref ⟨item.payload, fits⟩ false expectBranch)
  else none

def decodePair (decode : Nat → Bytes → Option TNode) (depth : Nat) (key value : Item) :
    Option TNode :=
  match readCompact key with
  | none => none
  | some (nib, true) =>
    if nib.length ≠ pathNibbles - depth ∨ value.isList ∨ value.payload.length = 0 then none
    else some (.leaf .clean nib value.payload)
  | some (nib, false) =>
    if nib.length = 0 ∨ pathNibbles ≤ depth + nib.length then none
    else
      match decodeChild (decode (depth + nib.length)) true value with
      | none => none
      | some .null => none
      | some child => some (.ext .clean nib child)

/-- A branch from its sixteen children and its value, which is empty. -/
def decodeBranch (decode : Nat → Bytes → Option TNode) (depth : Nat) (items : List Item) :
    Option TNode :=
  if pathNibbles ≤ depth then none
  else
    match items.drop 16 with
    | [value] =>
      if value.isList ∨ value.payload.length ≠ 0 then none
      else
        match (items.take 16).mapM (decodeChild (decode (depth + 1)) false) with
        | none => none
        | some children =>
          if children.countP TNode.present < 2 then none
          else some (.branch .clean fun k => children.getD k .null)
    | _ => none

def decodeItems (decode : Bool → Nat → Bytes → Option TNode) (expectBranch : Bool) (depth : Nat)
    (items : List Item) : Option TNode :=
  match items with
  | [key, value] => if expectBranch then none else decodePair (decode true) depth key value
  | items => decodeBranch (decode false) depth items

/-- Decode one node from exactly these bytes. The source stops at a depth above the length of a
path. -/
def decodeNode : Nat → Bool → Nat → Bytes → Option TNode
  | 0, _, _, _ => none
  | room + 1, expectBranch, depth, bytes =>
    if pathNibbles < depth then none
    else
      match decodeItem bytes with
      | none => none
      | some top =>
        if !top.isList || top.raw.length != bytes.length then none
        else
          match splitList 17 top.payload with
          | none => none
          | some items => decodeItems (decodeNode room) expectBranch depth items

/-- The calls that fit above the end of a path. -/
def roomAt (depth : Nat) : Nat := pathNibbles + 1 - depth

/-! ## Loading, inserting, deleting and looking up -/

section

variable {σ : Type} (hash : Hash) (store : NodeStore σ)

/-- Load a reference in its place: fetch the node, check digest and size, decode it, and compare
its encoding. -/
def resolve (depth : Nat) : TNode → Program σ TNode
  | .ref digest isRoot mustBranch => do
      let rlp ← fetch store digest
      if hash rlp ≠ digest then throw .fault
      if !isRoot && rlp.length < inlineLimit then throw .fault
      match decodeNode (roomAt depth) mustBranch depth rlp with
      | none => throw .fault
      | some node => do
          let again ← nodeEncode hash store false node
          if again ≠ rlp then throw .fault
          pure (node.withMark ⟨false, if inlineLimit ≤ rlp.length then some digest else none⟩)
  | node => pure node

def commonPrefix : List Nibble → List Nibble → Nat
  | first :: rest, second :: rest' => if first = second then commonPrefix rest rest' + 1 else 0
  | _, _ => 0

/-- A branch with an old node and a new leaf, below the nibbles they share. -/
def splitNode (shared : List Nibble) (oldNib : Nibble) (old : TNode) (newNib : Nibble)
    (leaf : TNode) : TNode :=
  let br := TNode.branch .touched
    (Function.update (Function.update (fun _ => .null) oldNib old) newNib leaf)
  if shared.length = 0 then br else .ext .touched shared br

/-- Insert below a node that is loaded, given how to insert below its children. -/
def insLoaded (below : TNode → List Nibble → Program σ TNode) (rest : List Nibble) (val : Bytes) :
    TNode → Program σ TNode
  | .branch _ child =>
    match rest with
    | [] => throw .fault
    | digit :: rest' => do
        let next ← below (child digit) rest'
        pure (.branch .touched (Function.update child digit next))
  | .leaf _ nib old =>
    let cp := commonPrefix nib rest
    if cp = rest.length then
      pure (.leaf .touched nib val)
    else
      match nib.drop cp, rest.drop cp with
      | oldNib :: nib', newNib :: rest' =>
        pure (splitNode (rest.take cp) oldNib (.leaf .touched nib' old) newNib
          (.leaf .touched rest' val))
      | _, _ => throw .fault
  | .ext _ nib child =>
    let cp := commonPrefix nib rest
    if cp = nib.length then do
      let next ← below child (rest.drop nib.length)
      pure (.ext .touched nib next)
    else
      match nib.drop cp, rest.drop cp with
      | oldNib :: nib', newNib :: rest' =>
        pure (splitNode (nib.take cp) oldNib
          (if 0 < nib'.length then .ext .touched nib' child else child) newNib
          (.leaf .touched rest' val))
      | _, _ => throw .fault
  | _ => throw .fault

/-- Insert below a node. Every step shortens the rest of the path, so there are at most as many as
it has nibbles, and one more. -/
def ins (val : Bytes) : Nat → TNode → List Nibble → Program σ TNode
  | 0, _, _ => throw .fault
  | _ + 1, .null, rest => pure (.leaf .touched rest val)
  | steps + 1, node, rest => do
      let node ← resolve hash store (pathNibbles - rest.length) node
      insLoaded (ins val steps) rest val node

def kids (child : Nibble → TNode) : List Nibble :=
  (List.finRange 16).filter fun k => (child k).present

/-- A branch after a deletion below it: one child left takes its place. -/
def collapse (depth : Nat) (child : Nibble → TNode) : Program σ TNode :=
  match kids child with
  | [] => throw .fault
  | [last] => do
      let node ← resolve hash store (depth + 1) (child last)
      pure (if node.isBranch then .ext .touched [last] node else node.nibPrepend [last])
  | _ => pure (.branch .touched child)

/-- Delete below a node that is loaded, given how to delete below its children. -/
def delLoaded (below : TNode → List Nibble → Program σ (TNode × Bool)) (rest : List Nibble) :
    TNode → Program σ (TNode × Bool)
  | .leaf mark nib val =>
    if nib = rest then pure (.null, true) else pure (.leaf mark nib val, false)
  | .ext mark nib child =>
    if rest.length ≤ nib.length ∨ ¬ nib <+: rest then
      pure (.ext mark nib child, false)
    else do
      let (next, found) ← below child (rest.drop nib.length)
      if !found then
        pure (.ext mark nib next, false)
      else if !next.present then
        throw .fault
      else
        pure (if next.isBranch then .ext .touched nib next else next.nibPrepend nib, true)
  | .branch mark child =>
    match rest with
    | [] => throw .fault
    | digit :: rest' => do
        let (next, found) ← below (child digit) rest'
        if !found then
          pure (.branch mark (Function.update child digit next), false)
        else do
          let node ← collapse hash store (pathNibbles - rest.length)
            (Function.update child digit next)
          pure (node, true)
  | _ => throw .fault

/-- Delete below a node; the flag says whether the key was there. -/
def del : Nat → TNode → List Nibble → Program σ (TNode × Bool)
  | 0, _, _ => throw .fault
  | _ + 1, .null, _ => pure (.null, false)
  | steps + 1, node, rest => do
      let node ← resolve hash store (pathNibbles - rest.length) node
      delLoaded hash store (del steps) rest node

/-- Look up below a node that is loaded, given how to look up below its children. -/
def getLoaded (below : TNode → List Nibble → Program σ (TNode × Option Bytes))
    (rest : List Nibble) : TNode → Program σ (TNode × Option Bytes)
  | .leaf mark nib val => pure (.leaf mark nib val, if nib = rest then some val else none)
  | .ext mark nib child =>
    if rest.length ≤ nib.length ∨ ¬ nib <+: rest then
      pure (.ext mark nib child, none)
    else do
      let (next, value) ← below child (rest.drop nib.length)
      pure (.ext mark nib next, value)
  | .branch mark child =>
    match rest with
    | [] => throw .fault
    | digit :: rest' => do
        let (next, value) ← below (child digit) rest'
        pure (.branch mark (Function.update child digit next), value)
  | _ => throw .fault

/-- Look a path up.  The nodes that were loaded on the way stay loaded. -/
def getPath : Nat → TNode → List Nibble → Program σ (TNode × Option Bytes)
  | 0, _, _ => throw .fault
  | _ + 1, .null, _ => pure (.null, none)
  | steps + 1, node, rest => do
      let node ← resolve hash store (pathNibbles - rest.length) node
      getLoaded (getPath steps) rest node

def walkSteps : Nat := pathNibbles + 1

def emptyRoot : Digest := hash [0x80]

/-- Encode and store what was modified; only the new root stays in memory. -/
def commit (root : TNode) : Program σ (TNode × Digest) :=
  if root.present then
    match root.knownDigest with
    | some digest => pure (.ref digest true false, digest)
    | none => do
        let enc ← nodeEncode hash store true root
        deposit store (hash enc) enc
        pure (.ref (hash enc) true false, hash enc)
  else
    pure (.null, emptyRoot hash)

end

structure Handle (σ : Type) where
  root : TNode
  fault : Bool
  store : σ

variable {σ : Type} (hash : Hash) (store : NodeStore σ)

def evmTrieOpen (state : σ) (root : Digest) : Handle σ :=
  { root := if root = emptyRoot hash then .null else .ref root true false
    fault := false
    store := state }

/-- Run a walk from the root of a handle.  A walk that fails leaves the handle faulty. -/
def onRoot {α : Type} (walk : TNode → Program σ (TNode × α)) : Program (Handle σ) α := do
  let t ← get
  if t.fault then
    throw .fault
  else
    match (walk t.root).exec t.store with
    | (.ok (root, value), state) => do
        set { t with root := root, store := state }
        pure value
    | (.error _, state) => do
        set { t with fault := true, store := state }
        throw .fault

/-- An empty value deletes. -/
def evmTrieSetPath (path : Digest) (value : Bytes) : Program (Handle σ) Unit :=
  if value.length = 0 then
    onRoot fun root => do
      let (root, _) ← del hash store walkSteps root (pathToNibbles path)
      pure (root, ())
  else
    onRoot fun root => do
      let root ← ins hash store value walkSteps root (pathToNibbles path)
      pure (root, ())

def evmTrieSet (key value : Bytes) : Program (Handle σ) Unit :=
  evmTrieSetPath hash store (hash key) value

def evmTrieDelete (key : Bytes) : Program (Handle σ) Unit :=
  evmTrieSet hash store key []

def evmTrieGetPath (path : Digest) : Program (Handle σ) (Option Bytes) :=
  onRoot fun root => getPath hash store walkSteps root (pathToNibbles path)

def evmTrieGet (key : Bytes) : Program (Handle σ) (Option Bytes) :=
  evmTrieGetPath hash store (hash key)

def evmTrieCommit : Program (Handle σ) Digest :=
  onRoot (commit hash store)

end DnaLedger.Trie
