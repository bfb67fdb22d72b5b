import DnaLedger.Envelope.Wire
import DnaLedger.Foundation.Program

/-!
# The identities of an envelope

Model of the commitments of `env_wire.c` and of `dna_env_preflight`, which decodes an envelope and
derives all of them. The ruleset hash of a leg and the identifier of the chain are supplied by the
caller.
-/

namespace DnaLedger.Envelope

abbrev ChainId := { bytes : Bytes // bytes.length = 32 }

/-- What `dna_env_call_commit` hashes. -/
def callPreimage (hdr : LegHdr) (rulesetHash : Digest) (callData : Bytes) : Bytes :=
  (tag "NDS.ENVCALL.v1").val ++ (Layout.be32.write hdr.domainId ++
    (Layout.be32.write hdr.runtimeOp ++ (Layout.be32.write hdr.rulesetVersion ++
      (rulesetHash.val ++ (hdr.accessMode :: (Layout.be32.write hdr.callLen ++ callData))))))

/-- The fields in front of the legs in the contexts that are hashed. -/
@[ext] structure ContextHead where
  family : Tag
  version : UInt8
  chainId : ChainId
  expiryHeight : UInt64
  feeAmount : UInt64
  resMaxTotalUnits : UInt64
  legCount : UInt16

def contextHeadLayout : Layout ContextHead :=
  ((Layout.raw 16).both <| Layout.byte.both <| (Layout.raw 32).both <| Layout.be64.both <|
    Layout.be64.both <| Layout.be64.both Layout.be16).record
    (fun (family, version, chainId, expiryHeight, feeAmount, resMaxTotalUnits, legCount) =>
      ⟨family, version, chainId, expiryHeight, feeAmount, resMaxTotalUnits, legCount⟩)
    (fun head => (head.family, head.version, head.chainId, head.expiryHeight, head.feeAmount,
      head.resMaxTotalUnits, head.legCount))
    (fun _ => rfl) (fun _ => rfl)

/-- A leg in the authorization context: its header and its call commitment. -/
def contextLegLayout : Layout (LegHdr × Digest) :=
  legHdrLayout.both (Layout.raw digestSize)

/-- What `dna_env_auth_context_commit` hashes. -/
def authContextPreimage (head : ContextHead) (legs : List (LegHdr × Digest)) : Bytes :=
  (tag "NDS.ENVCTX.v1").val ++ (contextHeadLayout.write head ++ legs.flatMap contextLegLayout.write)

/-- What `dna_env_auth_digest` hashes. -/
def authDigestPreimage (authContextCommit : Digest) (legIndex : UInt16)
    (domainId runtimeOp : UInt32) : Bytes :=
  (tag "NDS.ENVAUTH.v1").val ++ (authContextCommit.val ++ (Layout.be16.write legIndex ++
    (Layout.be32.write domainId ++ Layout.be32.write runtimeOp)))

/-- What `dna_env_tx_id` hashes. -/
def txIdPreimage (authContextCommit : Digest) (envBytes : Bytes) : Bytes :=
  (tag "NDS.ENVTXID.v1").val ++ (authContextCommit.val ++
    (Layout.be32.write (UInt32.ofNat envBytes.length) ++ envBytes))

/-- What `dna_env_intent_leg_commit` hashes. -/
def intentLegPreimage (hdr : LegHdr) (callCommit : Digest) : Bytes :=
  (tag "NDS.ENVILEG.v1").val ++ (Layout.be32.write hdr.domainId ++
    (Layout.be32.write hdr.runtimeOp ++ (Layout.be32.write hdr.rulesetVersion ++
      (hdr.accessMode :: hdr.authKind :: (Layout.be32.write hdr.resMaxEffects ++
        (Layout.be32.write hdr.resMaxEffectBytes ++ callCommit.val))))))

/-- What `dna_env_intent_id` hashes. -/
def intentIdPreimage (head : ContextHead) (intentLegCommits : List Digest) : Bytes :=
  (tag "NDS.ENVINTID.v1").val ++ (contextHeadLayout.write head ++
    intentLegCommits.flatMap (Layout.raw digestSize).write)

def viewSliceOk (view : EnvView) (offset len : UInt32) : Bool :=
  if view.envLen < offset.toNat then false
  else if view.envLen - offset.toNat < len.toNat then false
  else true

/-- The fields of a view that the contexts begin with. -/
def contextHead (view : EnvView) (chainId : ChainId) : ContextHead :=
  ⟨envFamily, view.envelopeVersion, chainId, view.expiryHeight, view.feeAmount,
    view.resMaxTotalUnits, view.legCount⟩

section

variable (sha3 : Hash) (view : EnvView)

def callCommit (legIndex : UInt16) (rulesetHash : Digest) : Option Digest := do
  let buf ← view.buf
  if view.legCount = 0 ∨ maxLegs < view.legCount.toNat then none
  else if view.legCount ≤ legIndex then none
  else
    let hdr ← view.leg[legIndex.toNat]?
    let callOff ← view.callOff[legIndex.toNat]?
    if !viewSliceOk view callOff hdr.callLen then none
    else if maxTotalLen < hdr.callLen.toNat then none
    else some (sha3 (callPreimage hdr rulesetHash (slice buf callOff.toNat hdr.callLen.toNat)))

def authContextCommit (chainId : ChainId) (callCommits : List Digest) :
    Option Digest := do
  let _ ← view.buf
  if view.legCount = 0 ∨ maxLegs < view.legCount.toNat then none
  else some (sha3 (authContextPreimage (contextHead view chainId) (view.leg.zip callCommits)))

def authDigest (authContextCommit : Digest) (legIndex : UInt16) (domainId runtimeOp : UInt32) :
    Option Digest :=
  if maxLegs ≤ legIndex.toNat then none
  else if maxRuntimeOp < runtimeOp then none
  else some (sha3 (authDigestPreimage authContextCommit legIndex domainId runtimeOp))

def txId (authContextCommit : Digest) (envBytes : Bytes) : Option Digest :=
  if envBytes.length < fixedHead then none
  else if maxTotalLen < envBytes.length then none
  else some (sha3 (txIdPreimage authContextCommit envBytes))

def intentLegCommit (legIndex : UInt16) (callCommit : Digest) :
    Option Digest := do
  let _ ← view.buf
  if view.legCount = 0 ∨ maxLegs < view.legCount.toNat then none
  else if view.legCount ≤ legIndex then none
  else
    let hdr ← view.leg[legIndex.toNat]?
    some (sha3 (intentLegPreimage hdr callCommit))

def intentId (chainId : ChainId) (intentLegCommits : List Digest) :
    Option Digest := do
  let _ ← view.buf
  if view.legCount = 0 ∨ maxLegs < view.legCount.toNat then none
  else some (sha3 (intentIdPreimage (contextHead view chainId) intentLegCommits))

end

/-- `dna_env_leg_ctx_t`: what the caller knows about the ruleset of a leg. -/
structure LegCtx where
  domainId : UInt32
  rulesetVersion : UInt32
  rulesetHash : Digest

/-- The refusals of `dna_env_preflight`. -/
inductive PreflightError where
  | decode
  | expired
  | ctxCount
  | ctxDomain
  | ctxVersion
  | hash
  deriving DecidableEq

@[ext] structure Preflight where
  view : EnvView
  callCommit : List Digest
  authContextCommit : Digest
  authDigest : List Digest
  wireId : Digest
  intentLegCommit : List Digest
  intentId : Digest

/-- The contexts describe the legs, position by position. -/
def checkContexts : List LegCtx → List LegHdr → Except PreflightError Unit
  | ctx :: ctxs, hdr :: hdrs =>
    if ctx.domainId ≠ hdr.domainId then .error .ctxDomain
    else if ctx.rulesetVersion ≠ hdr.rulesetVersion then .error .ctxVersion
    else checkContexts ctxs hdrs
  | _, _ => .ok ()

/-- The commitments of `dna_env_preflight`, each of which ends it when it is refused. -/
def commitments (sha3 : Hash) (envBytes : Bytes) (chainId : ChainId) (view : EnvView)
    (legCtx : List LegCtx) : Option Preflight := do
  let callCommits ← legCtx.zipIdx.mapM fun (ctx, i) =>
    callCommit sha3 view (UInt16.ofNat i) ctx.rulesetHash
  let context ← authContextCommit sha3 view chainId callCommits
  let authDigests ← view.leg.zipIdx.mapM fun (hdr, i) =>
    authDigest sha3 context (UInt16.ofNat i) hdr.domainId hdr.runtimeOp
  let wireId ← txId sha3 context envBytes
  let intentLegs ← callCommits.zipIdx.mapM fun (commit, i) =>
    intentLegCommit sha3 view (UInt16.ofNat i) commit
  let intent ← intentId sha3 view chainId intentLegs
  return ⟨view, callCommits, context, authDigests, wireId, intentLegs, intent⟩

def preflight (sha3 : Hash) (envBytes : Bytes) (chainId : ChainId) (proposedGlobalHeight : UInt64)
    (legCtx : List LegCtx) : Except PreflightError Preflight :=
  let (accepted, view) := decode envBytes EnvView.zero
  if !accepted then .error .decode
  else if view.expiryHeight ≠ 0 ∧ view.expiryHeight < proposedGlobalHeight then .error .expired
  else if legCtx.length ≠ view.legCount.toNat then .error .ctxCount
  else
    match checkContexts legCtx view.leg with
    | .error refused => .error refused
    | .ok () =>
      match commitments sha3 envBytes chainId view legCtx with
      | some out => .ok out
      | none => .error .hash

end DnaLedger.Envelope
