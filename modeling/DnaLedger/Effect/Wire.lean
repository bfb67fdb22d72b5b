import DnaLedger.Foundation.Sections
import DnaLedger.Foundation.Sorting

/-!
# Effect results on the wire

Model of the codec of `effect_wire.c`. A result is a fixed head, a table of effect records, all keys
and then all values. An effect for the encoder carries as many bytes as its record says.
-/

namespace DnaLedger.Effect

def resultVersion : UInt8 := 1

def fixedHead : Nat := 23

def recordLen : Nat := 84

def maxCount : Nat := 64

def maxKeyLen : Nat := 128

def maxValueLen : Nat := 8192

def maxTotalLen : Nat := 65536

def kindCreate : UInt8 := 1

def kindSet : UInt8 := 2

def kindDelete : UInt8 := 3

def preAbsent : UInt8 := 1

def preExists : UInt8 := 2

def preExistsVersion : UInt8 := 3

def preExistsVhash : UInt8 := 4

def effFamily : Tag := tag "NDS.EFFRES.v1"

@[ext] structure EffectHdr where
  opId : UInt32
  effectKind : UInt8
  precondTag : UInt8
  expectedVersion : UInt64
  expectedVhash : Digest
  keyLen : UInt16
  valueLen : UInt32
  deriving DecidableEq

def effectHdrLayout : Layout EffectHdr :=
  (Layout.be32.both <| Layout.byte.both <| Layout.byte.both <| Layout.be64.both <|
    (Layout.raw digestSize).both <| Layout.be16.both Layout.be32).record
    (fun (opId, effectKind, precondTag, expectedVersion, expectedVhash, keyLen, valueLen) =>
      ⟨opId, effectKind, precondTag, expectedVersion, expectedVhash, keyLen, valueLen⟩)
    (fun hdr => (hdr.opId, hdr.effectKind, hdr.precondTag, hdr.expectedVersion,
      hdr.expectedVhash, hdr.keyLen, hdr.valueLen))
    (fun _ => rfl) (fun _ => rfl)

@[ext] structure EffectHead where
  family : Tag
  version : UInt8
  effectCount : UInt16
  reserved : UInt32

def effectHeadLayout : Layout EffectHead :=
  ((Layout.raw 16).both <| Layout.byte.both <| Layout.be16.both Layout.be32).record
    (fun (family, version, effectCount, reserved) => ⟨family, version, effectCount, reserved⟩)
    (fun head => (head.family, head.version, head.effectCount, head.reserved))
    (fun _ => rfl) (fun _ => rfl)

def allZero (bytes : Bytes) : Bool :=
  bytes.foldl (fun acc byte => acc ||| byte) 0 == 0

def effectHdrOk (hdr : EffectHdr) : Bool :=
  if hdr.effectKind ≠ kindCreate ∧ hdr.effectKind ≠ kindSet ∧ hdr.effectKind ≠ kindDelete then
    false
  else if hdr.precondTag ≠ preAbsent ∧ hdr.precondTag ≠ preExists ∧
      hdr.precondTag ≠ preExistsVersion ∧ hdr.precondTag ≠ preExistsVhash then false
  else if hdr.effectKind = kindCreate ∧ hdr.precondTag ≠ preAbsent then false
  else if hdr.precondTag = preAbsent ∧ hdr.effectKind ≠ kindCreate then false
  else if hdr.precondTag ≠ preExistsVersion ∧ hdr.expectedVersion ≠ 0 then false
  else if hdr.precondTag ≠ preExistsVhash ∧ !allZero hdr.expectedVhash.val then false
  else if hdr.keyLen = 0 ∨ maxKeyLen < hdr.keyLen.toNat then false
  else if maxValueLen < hdr.valueLen.toNat then false
  else if hdr.effectKind = kindDelete ∧ hdr.valueLen ≠ 0 then false
  else true

/-- `eff_order_cmp` of a record and its key is negative: by kind, then by operation, then by key. -/
def effPrecedes (first second : EffectHdr × Bytes) : Bool :=
  if first.1.effectKind ≠ second.1.effectKind then first.1.effectKind < second.1.effectKind
  else if first.1.opId ≠ second.1.opId then first.1.opId < second.1.opId
  else first.2 < second.2

/-- No two records have the same operation and the same key. -/
def logicalKeysUnique : List (EffectHdr × Bytes) → Bool
  | [] => true
  | first :: rest =>
    rest.all (fun second => !(first.1.opId == second.1.opId && first.2 == second.2)) &&
      logicalKeysUnique rest

def effOrderOk (records : List (EffectHdr × Bytes)) : Bool :=
  Sorting.ascending effPrecedes records && logicalKeysUnique records

/-- Records state the lengths of their key and of their value. -/
def effectSections : Sections EffectHdr where
  layout := effectHdrLayout
  firstLen hdr := hdr.keyLen.toNat
  secondLen hdr := hdr.valueLen.toNat

abbrev EffectIn := effectSections.Item

def EffectIn.key (effect : EffectIn) : Bytes := effect.first

def EffectIn.value (effect : EffectIn) : Bytes := effect.second

section

variable (effects : List EffectIn)

def encodedSize : Option Nat :=
  if maxCount < effects.length then none
  else do
    let acc ← (effects.map fun effect => effect.hdr.keyLen.toNat).foldlM
      (fun acc len => if len = 0 ∨ maxKeyLen < len then none else accAdd maxTotalLen acc len)
      (fixedHead + effects.length * recordLen)
    (effects.map fun effect => effect.hdr.valueLen.toNat).foldlM
      (fun acc len => if maxValueLen < len then none else accAdd maxTotalLen acc len) acc

/-- What `dna_effect_result_encode` writes. -/
def resultBytes : Bytes :=
  effectHeadLayout.write ⟨effFamily, resultVersion, UInt16.ofNat effects.length, 0⟩ ++
    Sections.body effects

/-- `dna_effect_result_encode` into a buffer of a given capacity. -/
def encode (dstCap : Nat) : Option Bytes :=
  if maxCount < effects.length then none
  else if !effects.all (fun effect => effectHdrOk effect.hdr) then none
  else if !effOrderOk (effects.map fun effect => (effect.hdr, effect.key)) then none
  else do
    let need ← encodedSize effects
    if dstCap < need then none
    else if (resultBytes effects).length ≠ need then none
    else some (resultBytes effects)

end

/-- `dna_effect_view_t`; no buffer is the null pointer. -/
structure EffectView where
  resultVersion : UInt8
  effectCount : UInt16
  eff : List EffectHdr
  keyOff : List UInt32
  valOff : List UInt32
  buf : Option Bytes
  resLen : Nat

def EffectView.zero : EffectView :=
  ⟨0, 0, [], [], [], none, 0⟩

/-- The key of every effect, at its offset in the buffer. -/
def EffectView.keys (view : EffectView) : List Bytes :=
  List.zipWith (fun offset hdr => slice (view.buf.getD []) offset.toNat hdr.keyLen.toNat)
    view.keyOff view.eff

def EffectView.values (view : EffectView) : List Bytes :=
  List.zipWith (fun offset hdr => slice (view.buf.getD []) offset.toNat hdr.valueLen.toNat)
    view.valOff view.eff

/-- The loop of `dna_effect_result_decode` over the records. -/
def readEffects : Nat → Bytes → Option (List EffectHdr)
  | 0, _ => some []
  | count + 1, p => do
      let hdr := effectHdrLayout.read p
      if !effectHdrOk hdr then none
      else
        let rest ← readEffects count (p.drop recordLen)
        return hdr :: rest

/-- The end of `dna_effect_result_decode`: the exact length, the order, and the last value. -/
def finishView (src : Bytes) (head : EffectHead) (eff : List EffectHdr)
    (keyOff valOff : List Nat) (acc : Nat) : Option EffectView :=
  if src.length ≠ acc then none
  else
    let view : EffectView :=
      { resultVersion := head.version
        effectCount := head.effectCount
        eff := eff
        keyOff := keyOff.map UInt32.ofNat
        valOff := valOff.map UInt32.ofNat
        buf := some src
        resLen := acc }
    if !effOrderOk (view.eff.zip view.keys) then none
    else
      match view.valOff.getLast?, view.eff.getLast? with
      | some offset, some hdr =>
        if offset.toNat + hdr.valueLen.toNat ≠ view.resLen then none
        else some view
      | _, _ => some view

/-- `dna_effect_result_decode` from the records on, where every refusal clears the view. -/
def decodeEffects (src : Bytes) (head : EffectHead) : Option EffectView := do
  let eff ← readEffects head.effectCount.toNat (src.drop fixedHead)
  let (keyOff, acc) ← walk maxTotalLen (fixedHead + head.effectCount.toNat * recordLen)
    (eff.map fun hdr => hdr.keyLen.toNat)
  let (valOff, acc) ← walk maxTotalLen acc (eff.map fun hdr => hdr.valueLen.toNat)
  finishView src head eff keyOff valOff acc

/-- Whether the bytes are accepted, and the view left in `out`, which is cleared first. -/
def decode (src : Bytes) (_out : EffectView) : Bool × EffectView :=
  let out := EffectView.zero
  if src.length < fixedHead then (false, out)
  else
    let head := effectHeadLayout.read src
    if head.family ≠ effFamily then (false, out)
    else if head.version ≠ resultVersion then (false, out)
    else if maxCount < head.effectCount.toNat then (false, out)
    else if head.reserved ≠ 0 then (false, out)
    else if src.length < fixedHead + head.effectCount.toNat * recordLen then (false, out)
    else
      match decodeEffects src head with
      | some view => (true, view)
      | none => (false, EffectView.zero)

def effValue : Tag := tag "NDS.EFFVAL.v1"

/-- `dna_effect_value_hash` of a value of at most `DNA_EFFECT_MAX_VALUE_LEN` bytes. -/
def valueHash (hash : Hash) (value : Bytes) : Digest :=
  hash (effValue.val ++ Layout.be32.write (UInt32.ofNat value.length) ++ value)

end DnaLedger.Effect
