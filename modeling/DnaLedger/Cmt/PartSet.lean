import DnaLedger.Cmt.Merkle
import DnaLedger.Cmt.Types

/-!
# Part sets

Model of `cmt_part_set.c`: a block is cut into parts with a Merkle proof each, the parts are
collected again, and a reader goes over a complete set.
-/

namespace DnaLedger.Cmt

def blockPartSizeBytes : Nat := 65536

def maxBlockSizeBytes : Nat := 104857600

def partSetMaxParts : Nat := maxBlockSizeBytes / blockPartSizeBytes + 1

structure Part where
  index : UInt32
  bytes : Bytes
  proof : MerkleProof

def Part.validateBasic (part : Part) : Bool :=
  part.bytes.length ≤ blockPartSizeBytes &&
    !(Int64.ofNat part.index.toNat < part.proof.total - 1 &&
      part.bytes.length ≠ blockPartSizeBytes) &&
    Int64.ofNat part.index.toNat = part.proof.index && part.proof.validateBasic

/-- What the `bytes` of a part in the set point to. -/
inductive Payload where
  | caller (bytes : Bytes)
  | slot (offset length : Nat)

/-- A `cmt_part_t` as the set keeps it. -/
structure HeldPart where
  index : UInt32
  payload : Payload
  proof : MerkleProof

def HeldPart.init : HeldPart where
  index := 0
  payload := .caller []
  proof := ⟨0, 0, default, 0, [], []⟩

/-- The store of `cmt_part_set_bind_payload_store`; `payload_cap` is the length of the buffer. -/
structure PayloadStore where
  payloadBuf : Bytes
  partSize : UInt32

/-- `cmt_part_set_t`.  The bit array of a set without parts is the empty list. -/
structure PartSet where
  total : UInt32
  hash : Bytes
  parts : List HeldPart
  partsCap : Nat
  partsBitArray : List Bool
  count : UInt32
  byteSize : Int64
  store : Option PayloadStore

/-- The bytes of the part at an index, up to the next part or the end of the data. -/
def partBytes (data : Bytes) (partSize i : Nat) : Bytes :=
  (data.drop (i * partSize)).take (min (i * partSize + partSize) data.length - i * partSize)

def splitData (data : Bytes) (partSize total : Nat) : List Bytes :=
  (List.range total).map (partBytes data partSize)

def newPartSetFromData (tmhash : Hash) (data : Bytes) (partSize : UInt32) (partsCap : Nat) :
    Except Failure PartSet :=
  if partSize = 0 then .error .reject
  else
    let total := (data.length + partSize.toNat - 1) / partSize.toNat
    if partSetMaxParts < total then .error .reject
    else if total ≠ 0 ∧ partsCap < total then .error .reject
    else do
      let items := splitData data partSize.toNat total
      let (hash, proofs) ← proofsFromByteSlices tmhash items
      .ok {
        total := UInt32.ofNat total
        hash := hash.val
        parts := List.zipWith (fun (bytes, i) proof => ⟨UInt32.ofNat i, .caller bytes, proof⟩)
          items.zipIdx proofs
        partsCap := partsCap
        partsBitArray := List.replicate total true
        count := UInt32.ofNat total
        byteSize := Int64.ofNat data.length
        store := none }

def newPartSetFromHeader (header : PartSetHeader) (partsCap : Nat) : Except Failure PartSet :=
  if partSetMaxParts < header.total.toNat then .error .reject
  else if header.total ≠ 0 ∧ partsCap < header.total.toNat then .error .reject
  else if tmhashSize < header.hash.length then .error .reject
  else
    .ok {
      total := header.total
      hash := header.hash
      parts := List.replicate header.total.toNat .init
      partsCap := partsCap
      partsBitArray := List.replicate header.total.toNat false
      count := 0
      byteSize := 0
      store := none }

namespace PartSet

section

variable (ps : PartSet)

def bindPayloadStore (store : PayloadStore) : Except Failure PartSet :=
  if store.partSize = 0 then .error .fault else .ok { ps with store := some store }

def header : PartSetHeader :=
  ⟨ps.total, ps.hash⟩

def isComplete : Bool :=
  ps.count = ps.total

def bytesOf (held : HeldPart) : Bytes :=
  match held.payload, ps.store with
  | .caller bytes, _ => bytes
  | .slot offset length, some store => (store.payloadBuf.drop offset).take length
  | .slot _ _, none => []

def getPart (index : Nat) : Option Part :=
  if ps.total.toNat ≤ index ∨ ps.partsCap ≤ index then none
  else if ps.partsBitArray[index]? = some true then
    ps.parts[index]?.map fun held => ⟨held.index, ps.bytesOf held, held.proof⟩
  else none

/-- `memcpy` into a buffer. -/
def copyAt (buf : Bytes) (offset : Nat) (bytes : Bytes) : Bytes :=
  buf.take offset ++ bytes ++ buf.drop (offset + bytes.length)

/-- The end of `cmt_part_set_add_part`, for a part that may be stored. -/
def storePart (part : Part) (payload : Payload) (store : Option PayloadStore) : PartSet :=
  { ps with
    parts := ps.parts.set part.index.toNat ⟨part.index, payload, part.proof⟩
    partsBitArray := ps.partsBitArray.set part.index.toNat true
    count := ps.count + 1
    byteSize := ps.byteSize + Int64.ofNat part.bytes.length
    store := store }

end

/-- The flag is `added`. -/
def addPart (tmhash : Hash) (ps : PartSet) (part : Part) : Except Failure (PartSet × Bool) :=
  if ps.total ≤ part.index then .error .reject
  else if ps.partsCap ≤ part.index.toNat then .error .fault
  else if ps.partsBitArray[part.index.toNat]? = some true then .ok (ps, false)
  else if part.proof.total ≠ Int64.ofNat ps.total.toNat then .error .reject
  else if sized : ps.hash.length ≠ digestSize then .error .reject
  else do
    part.proof.verify tmhash ⟨ps.hash, not_not.mp sized⟩ part.bytes
    match ps.store with
    | none => .ok (ps.storePart part (.caller part.bytes) none, true)
    | some store =>
      let slotOff := part.index.toNat * store.partSize.toNat
      if store.partSize.toNat < part.bytes.length then .error .fault
      else if store.payloadBuf.length < slotOff ∨
          store.payloadBuf.length - slotOff < part.bytes.length then
        .error .fault
      else
        .ok (ps.storePart part (.slot slotOff part.bytes.length)
          (some { store with payloadBuf := copyAt store.payloadBuf slotOff part.bytes }), true)

/-- One part is offered.  A refused part and a fault leave the set as it was. -/
def offer (tmhash : Hash) (ps : PartSet) (part : Part) : PartSet × List Part :=
  match ps.addPart tmhash part with
  | .error _ => (ps, [])
  | .ok (next, added) => (next, if added then [part] else [])

/-- Parts are offered one after the other.  The list has those that were added. -/
def offerAll (tmhash : Hash) (ps : PartSet) : List Part → PartSet × List Part
  | [] => (ps, [])
  | part :: rest =>
    let (next, added) := ps.offer tmhash part
    let (last, others) := next.offerAll tmhash rest
    (last, added ++ others)

end PartSet

/-- `cmt_part_set_reader_t`, with the bytes of the parts: the set does not change
while it is read. -/
structure PartSetReader where
  parts : List Bytes
  i : Nat
  off : Nat

def newPartSetReader (parts : List Bytes) : Except Failure PartSetReader :=
  if parts.length = 0 then .error .reject else .ok ⟨parts, 0, 0⟩

def PartSet.getReader (ps : PartSet) : Except Failure PartSetReader :=
  if ps.isComplete then newPartSetReader (ps.parts.map ps.bytesOf) else .error .reject

namespace PartSetReader

/-- What a read returned: `CMT_OK` with bytes, or `CMT_PART_SET_EOF`. -/
inductive Read where
  | bytes (bytes : Bytes)
  | eof
  deriving DecidableEq

/-- The loop of `cmt_part_set_reader_read`, with room for `room` more bytes. -/
def readLoop (psr : PartSetReader) (room : Nat) : Bytes × PartSetReader :=
  if 0 < room then
    match _held : psr.parts[psr.i]? with
    | none => ([], psr)
    | some part =>
      let remaining := part.length - psr.off
      if remaining = 0 then readLoop { psr with i := psr.i + 1, off := 0 } room
      else
        let taken := min remaining room
        let (more, last) := readLoop { psr with off := psr.off + taken } (room - taken)
        ((part.drop psr.off).take taken ++ more, last)
  else ([], psr)
termination_by (psr.parts.length - psr.i, room)
decreasing_by
  · have inside := (List.getElem?_eq_some_iff.mp _held).1
    exact Prod.Lex.left _ _ (by omega)
  · exact Prod.Lex.right _ (by omega)

/-- `cmt_part_set_reader_read` into a buffer of `len` bytes. -/
def read (psr : PartSetReader) (len : Nat) : Read × PartSetReader :=
  if len = 0 then (.bytes [], psr)
  else
    let (bytes, last) := psr.readLoop len
    (if bytes.length = 0 then .eof else .bytes bytes, last)

/-- Reads into buffers of the given sizes, one after the other. -/
def readAll (psr : PartSetReader) : List Nat → List Read
  | [] => []
  | len :: rest =>
    let (result, next) := psr.read len
    result :: next.readAll rest

end PartSetReader

end DnaLedger.Cmt
