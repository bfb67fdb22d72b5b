import DnaLedger.Foundation.Sections

/-!
# Envelopes on the wire

Model of the codec of `env_wire.c`. The decoder returns a view: the fields, and for every blob its
offset. A leg for the encoder carries as many bytes as its header says.
-/

namespace DnaLedger.Envelope

def envVersion : UInt8 := 1

def fixedHead : Nat := 43

def legHdrLen : Nat := 30

def maxTotalLen : Nat := 1048576

def maxLegs : Nat := 64

def maxRuntimeOp : UInt32 := 255

def accessRead : UInt8 := 1

def accessInvoke : UInt8 := 2

def envFamily : Tag := tag "NDS.ENVWIRE.v1"

@[ext] structure LegHdr where
  domainId : UInt32
  runtimeOp : UInt32
  rulesetVersion : UInt32
  accessMode : UInt8
  authKind : UInt8
  callLen : UInt32
  authLen : UInt32
  resMaxEffects : UInt32
  resMaxEffectBytes : UInt32
  deriving DecidableEq

def legHdrLayout : Layout LegHdr :=
  (Layout.be32.both <| Layout.be32.both <| Layout.be32.both <| Layout.byte.both <|
    Layout.byte.both <| Layout.be32.both <| Layout.be32.both <|
      Layout.be32.both Layout.be32).record
    (fun (domainId, runtimeOp, rulesetVersion, accessMode, authKind, callLen, authLen,
        resMaxEffects, resMaxEffectBytes) =>
      ⟨domainId, runtimeOp, rulesetVersion, accessMode, authKind, callLen, authLen,
        resMaxEffects, resMaxEffectBytes⟩)
    (fun hdr => (hdr.domainId, hdr.runtimeOp, hdr.rulesetVersion, hdr.accessMode, hdr.authKind,
      hdr.callLen, hdr.authLen, hdr.resMaxEffects, hdr.resMaxEffectBytes))
    (fun _ => rfl) (fun _ => rfl)

@[ext] structure EnvHead where
  family : Tag
  version : UInt8
  expiryHeight : UInt64
  feeAmount : UInt64
  resMaxTotalUnits : UInt64
  legCount : UInt16

def envHeadLayout : Layout EnvHead :=
  ((Layout.raw 16).both <| Layout.byte.both <| Layout.be64.both <| Layout.be64.both <|
    Layout.be64.both Layout.be16).record
    (fun (family, version, expiryHeight, feeAmount, resMaxTotalUnits, legCount) =>
      ⟨family, version, expiryHeight, feeAmount, resMaxTotalUnits, legCount⟩)
    (fun head => (head.family, head.version, head.expiryHeight, head.feeAmount,
      head.resMaxTotalUnits, head.legCount))
    (fun _ => rfl) (fun _ => rfl)

def legHdrOk (hdr : LegHdr) : Bool :=
  if hdr.accessMode ≠ accessRead ∧ hdr.accessMode ≠ accessInvoke then false
  else if hdr.authKind = 0 then false
  else if maxRuntimeOp < hdr.runtimeOp then false
  else true

/-- Every header is in order, and the domains ascend strictly. -/
def legsOk : Option UInt32 → List LegHdr → Bool
  | _, [] => true
  | previous, hdr :: rest =>
    legHdrOk hdr && previous.all (fun domainId => domainId < hdr.domainId) &&
      legsOk (some hdr.domainId) rest

/-- Leg headers state the lengths of their call data and of their authorization data. -/
def legSections : Sections LegHdr where
  layout := legHdrLayout
  firstLen hdr := hdr.callLen.toNat
  secondLen hdr := hdr.authLen.toNat

abbrev LegIn := legSections.Item

def LegIn.callData (leg : LegIn) : Bytes := leg.first

def LegIn.authData (leg : LegIn) : Bytes := leg.second

@[ext] structure EnvIn where
  expiryHeight : UInt64
  feeAmount : UInt64
  resMaxTotalUnits : UInt64
  legs : List LegIn

def encodedSize (legs : List LegIn) : Option Nat :=
  if legs.length = 0 ∨ maxLegs < legs.length then none
  else do
    let acc ← (legs.map fun leg => leg.hdr.callLen.toNat).foldlM (accAdd maxTotalLen)
      (fixedHead + legs.length * legHdrLen)
    (legs.map fun leg => leg.hdr.authLen.toNat).foldlM (accAdd maxTotalLen) acc

/-- What `dna_env_encode` writes. -/
def EnvIn.bytes (input : EnvIn) : Bytes :=
  envHeadLayout.write ⟨envFamily, envVersion, input.expiryHeight, input.feeAmount,
    input.resMaxTotalUnits, UInt16.ofNat input.legs.length⟩ ++ Sections.body input.legs

/-- `dna_env_encode` into a buffer of a given capacity. -/
def encode (input : EnvIn) (dstCap : Nat) : Option Bytes :=
  if input.legs.length = 0 ∨ maxLegs < input.legs.length then none
  else if !legsOk none (input.legs.map fun leg => leg.hdr) then none
  else do
    let need ← encodedSize input.legs
    if dstCap < need then none
    else if input.bytes.length ≠ need then none
    else some input.bytes

/-- `dna_env_view_t`; no buffer is the null pointer. -/
structure EnvView where
  envelopeVersion : UInt8
  expiryHeight : UInt64
  feeAmount : UInt64
  resMaxTotalUnits : UInt64
  legCount : UInt16
  leg : List LegHdr
  callOff : List UInt32
  authOff : List UInt32
  buf : Option Bytes
  envLen : Nat

def EnvView.zero : EnvView :=
  ⟨0, 0, 0, 0, 0, [], [], [], none, 0⟩

/-- The call data of every leg, at its offset in the buffer. -/
def EnvView.callData (view : EnvView) : List Bytes :=
  List.zipWith (fun offset hdr => slice (view.buf.getD []) offset.toNat hdr.callLen.toNat)
    view.callOff view.leg

def EnvView.authData (view : EnvView) : List Bytes :=
  List.zipWith (fun offset hdr => slice (view.buf.getD []) offset.toNat hdr.authLen.toNat)
    view.authOff view.leg

/-- The loop of `dna_env_decode` over the leg headers. -/
def readLegs : Nat → Option UInt32 → Bytes → Option (List LegHdr)
  | 0, _, _ => some []
  | count + 1, previous, p => do
      let hdr := legHdrLayout.read p
      if !legHdrOk hdr then none
      else if !previous.all (fun domainId => domainId < hdr.domainId) then none
      else
        let rest ← readLegs count (some hdr.domainId) (p.drop legHdrLen)
        return hdr :: rest

/-- The end of `dna_env_decode`: the exact length, and the end of the last blob. -/
def finishView (src : Bytes) (head : EnvHead) (leg : List LegHdr) (callOff authOff : List Nat)
    (acc : Nat) : Option EnvView :=
  if src.length ≠ acc then none
  else
    let view : EnvView :=
      { envelopeVersion := head.version
        expiryHeight := head.expiryHeight
        feeAmount := head.feeAmount
        resMaxTotalUnits := head.resMaxTotalUnits
        legCount := head.legCount
        leg := leg
        callOff := callOff.map UInt32.ofNat
        authOff := authOff.map UInt32.ofNat
        buf := some src
        envLen := acc }
    match view.authOff.getLast?, view.leg.getLast? with
    | some offset, some hdr =>
      if offset.toNat + hdr.authLen.toNat ≠ view.envLen then none
      else some view
    | _, _ => none

/-- `dna_env_decode` from the leg headers on, where every refusal clears the view. -/
def decodeLegs (src : Bytes) (head : EnvHead) : Option EnvView := do
  let leg ← readLegs head.legCount.toNat none (src.drop fixedHead)
  let (callOff, acc) ← walk maxTotalLen (fixedHead + head.legCount.toNat * legHdrLen)
    (leg.map fun hdr => hdr.callLen.toNat)
  let (authOff, acc) ← walk maxTotalLen acc (leg.map fun hdr => hdr.authLen.toNat)
  finishView src head leg callOff authOff acc

/-- Whether the bytes are accepted, and the view left in `out`, which is cleared first. -/
def decode (src : Bytes) (_out : EnvView) : Bool × EnvView :=
  let out := EnvView.zero
  if src.length < fixedHead then (false, out)
  else
    let head := envHeadLayout.read src
    if head.family ≠ envFamily then (false, out)
    else if head.version ≠ envVersion then (false, out)
    else if head.legCount = 0 ∨ maxLegs < head.legCount.toNat then (false, out)
    else if src.length < fixedHead + head.legCount.toNat * legHdrLen then (false, out)
    else
      match decodeLegs src head with
      | some view => (true, view)
      | none => (false, EnvView.zero)

end DnaLedger.Envelope
