import DnaLedger.Envelope.Identity
import DnaLedger.Envelope.WireCodec
import Mathlib.Data.Set.Function

/-!
# What the identities of an envelope bind

Every layout that is hashed can be read back, so without a collision the transaction identity binds
the bytes and the chain, the digest for an authorizer everything but the authorization data, and the
intent identity everything but these data and their lengths.
-/

namespace DnaLedger.Envelope

open Sections List UInt16

/-- The ruleset hashes of the domain registry. -/
abbrev Registry := UInt32 → UInt32 → Digest

namespace EnvIn

variable (input : EnvIn) (sha3 : Hash) (registry : Registry) (chainId : ChainId)

def contexts : List LegCtx :=
  input.legs.map fun leg => ⟨leg.hdr.domainId, leg.hdr.rulesetVersion,
    registry leg.hdr.domainId leg.hdr.rulesetVersion⟩

def callInput (leg : LegIn) : Bytes :=
  callPreimage leg.hdr (registry leg.hdr.domainId leg.hdr.rulesetVersion) leg.callData

def callCommits : List Digest :=
  input.legs.map fun leg => sha3 (callInput registry leg)

def contextHead : ContextHead :=
  ⟨envFamily, envVersion, chainId, input.expiryHeight, input.feeAmount, input.resMaxTotalUnits,
    ofNat input.legs.length⟩

def contextInput : Bytes :=
  authContextPreimage (input.contextHead chainId)
    (input.legs.map fun leg => (leg.hdr, sha3 (callInput registry leg)))

def authInput (leg : LegIn) (i : Nat) : Bytes :=
  authDigestPreimage (sha3 (input.contextInput sha3 registry chainId)) (ofNat i)
    leg.hdr.domainId leg.hdr.runtimeOp

def txIdInput : Bytes :=
  txIdPreimage (sha3 (input.contextInput sha3 registry chainId)) input.bytes

def intentLegInput (leg : LegIn) : Bytes :=
  intentLegPreimage leg.hdr (sha3 (callInput registry leg))

def intentInput : Bytes :=
  intentIdPreimage (input.contextHead chainId)
    (input.legs.map fun leg => sha3 (intentLegInput sha3 registry leg))

def identities : Preflight where
  view := input.view
  callCommit := input.callCommits sha3 registry
  authContextCommit := sha3 (input.contextInput sha3 registry chainId)
  authDigest := input.legs.zipIdx.map fun (leg, i) =>
    sha3 (input.authInput sha3 registry chainId leg i)
  wireId := sha3 (input.txIdInput sha3 registry chainId)
  intentLegCommit := input.legs.map fun leg => sha3 (intentLegInput sha3 registry leg)
  intentId := sha3 (input.intentInput sha3 registry chainId)

end EnvIn

inductive IdentityKind where
  | call
  | context
  | auth
  | txId
  | intentLeg
  | intent
  deriving DecidableEq

/-- The tag in front of what is hashed for an identity of each kind. -/
def IdentityKind.tag : IdentityKind → Tag
  | call => DnaLedger.tag "NDS.ENVCALL.v1"
  | context => DnaLedger.tag "NDS.ENVCTX.v1"
  | auth => DnaLedger.tag "NDS.ENVAUTH.v1"
  | txId => DnaLedger.tag "NDS.ENVTXID.v1"
  | intentLeg => DnaLedger.tag "NDS.ENVILEG.v1"
  | intent => DnaLedger.tag "NDS.ENVINTID.v1"

/-- Whatever can be hashed for an identity of each kind. -/
inductive Preimage : IdentityKind → Bytes → Prop where
  | call (hdr : LegHdr) (rulesetHash : Digest) (callData : Bytes) :
      Preimage .call (callPreimage hdr rulesetHash callData)
  | context (head : ContextHead) (legs : List (LegHdr × Digest)) :
      Preimage .context (authContextPreimage head legs)
  | auth (context : Digest) (legIndex : UInt16) (domainId runtimeOp : UInt32) :
      Preimage .auth (authDigestPreimage context legIndex domainId runtimeOp)
  | txId (context : Digest) (envBytes : Bytes) : Preimage .txId (txIdPreimage context envBytes)
  | intentLeg (hdr : LegHdr) (callCommit : Digest) :
      Preimage .intentLeg (intentLegPreimage hdr callCommit)
  | intent (head : ContextHead) (intentLegCommits : List Digest) :
      Preimage .intent (intentIdPreimage head intentLegCommits)

theorem IdentityKind.tag_injective : Function.Injective IdentityKind.tag := by
  intro first second eq
  cases first <;> cases second <;> first | rfl | exact absurd eq (by decide)

variable {kind kind' : IdentityKind} {input : EnvIn} {i : Nat} {leg : LegIn}

theorem Preimage.tagged {input : Bytes} (preimage : Preimage kind input) :
    ∃ rest, input = kind.tag.val ++ rest := by
  cases preimage <;> exact ⟨_, rfl⟩

theorem Preimage.kind_unique {input : Bytes}
    (first : Preimage kind input) (second : Preimage kind' input) : kind = kind' := by
  obtain ⟨rest, rfl⟩ := first.tagged
  obtain ⟨rest', eq⟩ := second.tagged
  exact IdentityKind.tag_injective (Tag.append_inj eq).1

/-- All inputs that are hashed for the identities of an envelope. -/
inductive EnvIn.Hashed (input : EnvIn) (sha3 : Hash) (registry : Registry) (chainId : ChainId) :
    IdentityKind → Bytes → Prop where
  | call (leg : LegIn) (member : leg ∈ input.legs) :
      Hashed input sha3 registry chainId .call (callInput registry leg)
  | context : Hashed input sha3 registry chainId .context
      (input.contextInput sha3 registry chainId)
  | auth (leg : LegIn) (i : Nat) (found : input.legs[i]? = some leg) :
      Hashed input sha3 registry chainId .auth (input.authInput sha3 registry chainId leg i)
  | txId : Hashed input sha3 registry chainId .txId (input.txIdInput sha3 registry chainId)
  | intentLeg (leg : LegIn) (member : leg ∈ input.legs) :
      Hashed input sha3 registry chainId .intentLeg (intentLegInput sha3 registry leg)
  | intent : Hashed input sha3 registry chainId .intent
      (input.intentInput sha3 registry chainId)

/-! ## The preflight -/

theorem runtimeOp_of_legsOk {previous : Option UInt32} {hdrs : List LegHdr}
    (ok : legsOk previous hdrs = true) {hdr : LegHdr} (mem : hdr ∈ hdrs) :
    ¬ maxRuntimeOp < hdr.runtimeOp := by
  induction hdrs generalizing previous with
  | nil => cases mem
  | cons first rest ih =>
    rw [legsOk, Bool.and_eq_true, Bool.and_eq_true] at ok
    rcases mem_cons.mp mem with rfl | later
    · have single := ok.1.1
      rw [legHdrOk] at single
      split_ifs at single with _ _ op
      exact op
    · exact ih ok.2 later

theorem EnvIn.Valid.callOff_at (valid : input.Valid) (found : input.legs[i]? = some leg) :
    ∃ callOff : UInt32, input.view.callOff[i]? = some callOff ∧
      slice input.bytes callOff.toNat leg.hdr.callLen.toNat = leg.callData ∧
      callOff.toNat + leg.hdr.callLen.toNat ≤ input.bytes.length := by
  have inside : i < input.legs.length := (List.getElem?_eq_some_iff.mp found).1
  have size : input.hdrs.length = input.legs.length := length_map _
  have length := input.length_bytes
  have fits := valid.fits
  have atHdr : input.hdrs[i]? = some leg.hdr := by
    rw [EnvIn.hdrs, getElem?_map, found]
    rfl
  have atLen : (input.hdrs.map fun hdr => hdr.callLen.toNat)[i]? = some leg.hdr.callLen.toNat := by
    rw [getElem?_map, atHdr]
    rfl
  obtain ⟨offset, atOffset⟩ : ∃ offset,
      (offsets (fixedHead + input.hdrs.length * legHdrLen)
        (input.hdrs.map fun hdr => hdr.callLen.toNat))[i]? = some offset := by
    refine ⟨_, getElem?_eq_getElem ?_⟩
    rw [length_offsets, length_map, size]
    exact inside
  have ends : offset + leg.hdr.callLen.toNat ≤
      fixedHead + input.hdrs.length * legHdrLen + callTotal input.hdrs :=
    offset_add_le atOffset atLen
  rw [size] at ends
  have word : (UInt32.ofNat offset).toNat = offset := toNat_offset (by omega)
  have atWord : input.view.callOff[i]? = some (UInt32.ofNat offset) := by
    rw [EnvIn.view, viewAt, getElem?_map, atOffset]
    rfl
  refine ⟨UInt32.ofNat offset, atWord, ?_, by omega⟩
  have blobs := congrArg (fun blobs => blobs[i]?) valid.holds_view.callData
  rw [EnvView.callData, getElem?_zipWith, atWord, getElem?_map, found] at blobs
  have atView : input.view.leg[i]? = some leg.hdr := atHdr
  rw [atView] at blobs
  exact Option.some.inj blobs

section

variable {input : EnvIn} (valid : input.Valid) (sha3 : Hash)

include valid

theorem EnvIn.Valid.legCount_ok :
    ¬ (input.view.legCount = 0 ∨ maxLegs < input.view.legCount.toNat) := by
  have count := valid.holds_view.legCount
  have some_leg := valid.some_leg
  have few := valid.few_legs
  rintro (zero | many)
  · rw [zero] at count
    exact some_leg count.symm
  · omega

variable {i : Nat}

theorem EnvIn.Valid.index_ok (inside : i < input.legs.length) :
    (ofNat i).toNat = i ∧ ¬ input.view.legCount ≤ ofNat i := by
  have count := valid.holds_view.legCount
  have few := valid.few_legs
  have word : (ofNat i).toNat = i :=
    toNat_ofNat_of_lt' (Nat.lt_of_lt_of_le inside (few.trans (by decide)))
  refine ⟨word, ?_⟩
  rw [le_iff_toNat_le, word]
  omega

variable {leg : LegIn}

omit valid in
theorem EnvIn.buf_view : input.view.buf = some input.bytes := rfl

section

variable (found : input.legs[i]? = some leg)

include found

theorem EnvIn.Valid.leg_view : input.view.leg[i]? = some leg.hdr := by
  rw [valid.holds_view.leg, getElem?_map, found]
  rfl

theorem EnvIn.Valid.callCommit_eq (rulesetHash : Digest) :
    callCommit sha3 input.view (ofNat i) rulesetHash =
      some (sha3 (callPreimage leg.hdr rulesetHash leg.callData)) := by
  obtain ⟨word, below⟩ := valid.index_ok (List.getElem?_eq_some_iff.mp found).1
  obtain ⟨callOff, atOffset, data, ends⟩ := valid.callOff_at found
  have fits := valid.fits
  have sliceOk : viewSliceOk input.view callOff leg.hdr.callLen = true := by
    have length : input.view.envLen = input.bytes.length := rfl
    rw [viewSliceOk, length, if_neg (by omega), if_neg (by omega)]
  rw [callCommit, EnvIn.buf_view, Option.bind_eq_bind, Option.bind_some,
    if_neg valid.legCount_ok, if_neg below, word, valid.leg_view found, atOffset]
  simp only [Option.bind_eq_bind, Option.bind_some]
  rw [sliceOk, if_neg (by decide), if_neg (by omega), data]

theorem EnvIn.Valid.intentLegCommit_eq (commit : Digest) :
    intentLegCommit sha3 input.view (ofNat i) commit =
      some (sha3 (intentLegPreimage leg.hdr commit)) := by
  obtain ⟨word, below⟩ := valid.index_ok (List.getElem?_eq_some_iff.mp found).1
  rw [intentLegCommit, EnvIn.buf_view, Option.bind_eq_bind, Option.bind_some,
    if_neg valid.legCount_ok, if_neg below, word, valid.leg_view found]
  rfl

theorem EnvIn.Valid.authDigest_eq (context : Digest) :
    authDigest sha3 context (ofNat i) leg.hdr.domainId leg.hdr.runtimeOp =
      some (sha3 (authDigestPreimage context (ofNat i) leg.hdr.domainId leg.hdr.runtimeOp)) := by
  obtain ⟨inside, -⟩ := List.getElem?_eq_some_iff.mp found
  obtain ⟨word, -⟩ := valid.index_ok inside
  have few := valid.few_legs
  have op : ¬ maxRuntimeOp < leg.hdr.runtimeOp :=
    runtimeOp_of_legsOk valid.legs_ok (mem_map_of_mem (mem_of_getElem? found))
  rw [authDigest, if_neg (by omega), if_neg op]

end

variable (registry : Registry) (chainId : ChainId)

theorem EnvIn.Valid.authContextCommit_eq (callCommits : List Digest) :
    authContextCommit sha3 input.view chainId callCommits =
      some (sha3 (authContextPreimage (input.contextHead chainId)
        (input.hdrs.zip callCommits))) := by
  rw [authContextCommit, EnvIn.buf_view, Option.bind_eq_bind, Option.bind_some,
    if_neg valid.legCount_ok]
  rfl

theorem EnvIn.Valid.intentId_eq (intentLegCommits : List Digest) :
    intentId sha3 input.view chainId intentLegCommits =
      some (sha3 (intentIdPreimage (input.contextHead chainId) intentLegCommits)) := by
  rw [intentId, EnvIn.buf_view, Option.bind_eq_bind, Option.bind_some, if_neg valid.legCount_ok]
  rfl

theorem EnvIn.Valid.txId_eq (context : Digest) :
    txId sha3 context input.bytes = some (sha3 (txIdPreimage context input.bytes)) := by
  have length := input.length_bytes
  have fits := valid.fits
  rw [txId, if_neg (by omega), if_neg (by omega)]

omit valid in
theorem checkContexts_contexts (legs : List LegIn) :
    checkContexts (legs.map fun leg => ⟨leg.hdr.domainId, leg.hdr.rulesetVersion,
      registry leg.hdr.domainId leg.hdr.rulesetVersion⟩) (legs.map Item.hdr) = .ok () := by
  induction legs with
  | nil => rfl
  | cons leg rest ih =>
    rw [map_cons, map_cons, checkContexts, if_neg (by simp), if_neg (by simp), ih]

theorem EnvIn.Valid.callCommits_eq :
    (input.contexts registry).zipIdx.mapM (fun (ctx, i) =>
      callCommit sha3 input.view (ofNat i) ctx.rulesetHash) =
        some (input.callCommits sha3 registry) := by
  rw [EnvIn.callCommits, ← map_zipIdx_fst]
  refine mapM_zipIdx_map _ (fun leg _ => sha3 (EnvIn.callInput registry leg)) ?_
  intro i leg found
  exact valid.callCommit_eq sha3 found _

theorem EnvIn.Valid.authDigests_eq (context : Digest) :
    input.view.leg.zipIdx.mapM (fun (hdr, i) =>
      authDigest sha3 context (ofNat i) hdr.domainId hdr.runtimeOp) =
        some (input.legs.zipIdx.map fun (leg, i) => sha3 (authDigestPreimage context
          (ofNat i) leg.hdr.domainId leg.hdr.runtimeOp)) := by
  let image (leg : LegIn) (i : Nat) : Digest := sha3 (authDigestPreimage context
    (ofNat i) leg.hdr.domainId leg.hdr.runtimeOp)
  let step : LegHdr × Nat → Option Digest := fun (hdr, i) =>
    authDigest sha3 context (ofNat i) hdr.domainId hdr.runtimeOp
  have each : ∀ (i : Nat) (leg : LegIn), input.legs[i]? = some leg →
      step (leg.hdr, i) = some (image leg i) := by
    intro i leg found
    exact valid.authDigest_eq sha3 found context
  rw [valid.holds_view.leg]
  exact mapM_zipIdx_map Item.hdr image each

theorem EnvIn.Valid.intentLegCommits_eq :
    (input.callCommits sha3 registry).zipIdx.mapM (fun (commit, i) =>
      intentLegCommit sha3 input.view (ofNat i) commit) =
        some (input.legs.map fun leg => sha3 (EnvIn.intentLegInput sha3 registry leg)) := by
  rw [← map_zipIdx_fst]
  refine mapM_zipIdx_map _ (fun leg _ => sha3 (EnvIn.intentLegInput sha3 registry leg)) ?_
  intro i leg found
  exact valid.intentLegCommit_eq sha3 found _

theorem EnvIn.Valid.commitments_eq :
    commitments sha3 input.bytes chainId input.view (input.contexts registry) =
      some (input.identities sha3 registry chainId) := by
  have pairs : input.hdrs.zip (input.callCommits sha3 registry) =
      input.legs.map fun leg => (leg.hdr, sha3 (EnvIn.callInput registry leg)) :=
    zip_map'
  rw [commitments, valid.callCommits_eq]
  simp only [Option.bind_eq_bind, Option.bind_some]
  rw [valid.authContextCommit_eq, pairs, Option.bind_some, valid.authDigests_eq,
    Option.bind_some, valid.txId_eq, Option.bind_some, valid.intentLegCommits_eq,
    Option.bind_some, valid.intentId_eq, Option.bind_some]
  rfl

theorem EnvIn.Valid.preflight_eq (height : UInt64) :
    preflight sha3 input.bytes chainId height (input.contexts registry) =
      if input.expiryHeight ≠ 0 ∧ input.expiryHeight < height then .error .expired
      else .ok (input.identities sha3 registry chainId) := by
  have expiry := valid.holds_view.expiryHeight
  have count : (input.contexts registry).length = input.view.legCount.toNat := by
    rw [valid.holds_view.legCount, EnvIn.contexts, length_map]
  have contexts : checkContexts (input.contexts registry) input.view.leg = .ok () := by
    rw [valid.holds_view.leg]
    exact checkContexts_contexts registry input.legs
  have committed := valid.commitments_eq sha3 registry chainId
  have read := valid.decode_bytes EnvView.zero
  generalize input.view = view at *
  rw [preflight, read]
  dsimp only
  rw [if_neg (by decide), expiry]
  split
  next => rfl
  next => rw [if_neg (not_not.mpr count), contexts, committed]

end

namespace EnvIn

/-- The envelopes differ at most in their authorization data. -/
structure SameUnsigned (input input' : EnvIn) : Prop where
  expiryHeight : input.expiryHeight = input'.expiryHeight
  feeAmount : input.feeAmount = input'.feeAmount
  resMaxTotalUnits : input.resMaxTotalUnits = input'.resMaxTotalUnits
  legs : (input.legs.map fun leg => (leg.hdr, leg.callData)) =
    input'.legs.map fun leg => (leg.hdr, leg.callData)

/-- The header of a leg without the length of its authorization data. -/
def intentHdr (leg : LegIn) : LegHdr :=
  { leg.hdr with authLen := 0 }

/-- The envelopes differ at most in their authorization data and the lengths of these. -/
structure SameIntent (input input' : EnvIn) : Prop where
  expiryHeight : input.expiryHeight = input'.expiryHeight
  feeAmount : input.feeAmount = input'.feeAmount
  resMaxTotalUnits : input.resMaxTotalUnits = input'.resMaxTotalUnits
  legs : (input.legs.map fun leg => (intentHdr leg, leg.callData)) =
    input'.legs.map fun leg => (intentHdr leg, leg.callData)

def inputs (input : EnvIn) (sha3 : Hash) (registry : Registry) (chainId : ChainId) : Set Bytes :=
  { hashed | ∃ kind, input.Hashed sha3 registry chainId kind hashed }

theorem callInput_inj {registry registry' : Registry} {leg' : LegIn}
    (eq : callInput registry leg = callInput registry' leg') :
    leg.hdr.callLen = leg'.hdr.callLen ∧ leg.callData = leg'.callData := by
  obtain ⟨-, eq⟩ := Tag.append_inj eq
  obtain ⟨-, eq⟩ := Layout.be32.append_inj eq
  obtain ⟨-, eq⟩ := Layout.be32.append_inj eq
  obtain ⟨-, eq⟩ := Layout.be32.append_inj eq
  obtain ⟨-, eq⟩ := Digest.append_inj eq
  obtain ⟨-, eq⟩ := cons.inj eq
  exact Layout.be32.append_inj eq

section

variable {input input' : EnvIn} {sha3 : Hash} {registry registry' : Registry}
  {chainId chainId' : ChainId}
  (free : Set.InjOn sha3
    (input.inputs sha3 registry chainId ∪ input'.inputs sha3 registry' chainId'))

include free

theorem hash_inj {first second : Bytes} (hashed : input.Hashed sha3 registry chainId kind first)
    (hashed' : input'.Hashed sha3 registry' chainId' kind' second)
    (eq : sha3 first = sha3 second) : first = second :=
  free (Or.inl ⟨kind, hashed⟩) (Or.inr ⟨kind', hashed'⟩) eq

variable {leg leg' : LegIn}

theorem call_inj (mem : leg ∈ input.legs) (mem' : leg' ∈ input'.legs)
    (eq : sha3 (callInput registry leg) = sha3 (callInput registry' leg')) :
    leg.hdr.callLen = leg'.hdr.callLen ∧ leg.callData = leg'.callData :=
  callInput_inj (hash_inj free (.call leg mem) (.call leg' mem') eq)

theorem context_inj (eq : sha3 (input.contextInput sha3 registry chainId) =
      sha3 (input'.contextInput sha3 registry' chainId')) :
    chainId = chainId' ∧ input.SameUnsigned input' := by
  have inputs := hash_inj free .context .context eq
  obtain ⟨-, inputs⟩ := Tag.append_inj inputs
  obtain ⟨heads, legs⟩ := contextHeadLayout.append_inj inputs
  have pairs := contextLegLayout.flatMap_write_inj (by decide) legs
  obtain ⟨-, -, chain, expiryHeight, feeAmount, units, -⟩ := ContextHead.mk.inj heads
  refine ⟨chain, expiryHeight, feeAmount, units, map_eq_map_of_map_eq ?_ pairs⟩
  intro leg mem leg' mem' pair
  obtain ⟨hdr, commit⟩ := Prod.mk.inj pair
  exact Prod.ext hdr (call_inj free mem mem' commit).2

theorem intentLeg_inj (mem : leg ∈ input.legs) (mem' : leg' ∈ input'.legs)
    (eq : sha3 (intentLegInput sha3 registry leg) = sha3 (intentLegInput sha3 registry' leg')) :
    intentHdr leg = intentHdr leg' ∧ leg.callData = leg'.callData := by
  have inputs := hash_inj free (.intentLeg leg mem) (.intentLeg leg' mem') eq
  obtain ⟨-, inputs⟩ := Tag.append_inj inputs
  obtain ⟨domainId, inputs⟩ := Layout.be32.append_inj inputs
  obtain ⟨runtimeOp, inputs⟩ := Layout.be32.append_inj inputs
  obtain ⟨rulesetVersion, inputs⟩ := Layout.be32.append_inj inputs
  obtain ⟨accessMode, inputs⟩ := cons.inj inputs
  obtain ⟨authKind, inputs⟩ := cons.inj inputs
  obtain ⟨resMaxEffects, inputs⟩ := Layout.be32.append_inj inputs
  obtain ⟨resMaxEffectBytes, commit⟩ := Layout.be32.append_inj inputs
  obtain ⟨callLen, callData⟩ := call_inj free mem mem' (Subtype.ext commit)
  exact ⟨LegHdr.ext domainId runtimeOp rulesetVersion accessMode authKind callLen rfl
    resMaxEffects resMaxEffectBytes, callData⟩

theorem intent_inj (eq : sha3 (input.intentInput sha3 registry chainId) =
      sha3 (input'.intentInput sha3 registry' chainId')) :
    chainId = chainId' ∧ input.SameIntent input' := by
  have inputs := hash_inj free .intent .intent eq
  obtain ⟨-, inputs⟩ := Tag.append_inj inputs
  obtain ⟨heads, legs⟩ := contextHeadLayout.append_inj inputs
  have commits := (Layout.raw digestSize).flatMap_write_inj (by decide) legs
  obtain ⟨-, -, chain, expiryHeight, feeAmount, units, -⟩ := ContextHead.mk.inj heads
  refine ⟨chain, expiryHeight, feeAmount, units, map_eq_map_of_map_eq ?_ commits⟩
  intro leg mem leg' mem' commit
  obtain ⟨hdr, callData⟩ := intentLeg_inj free mem mem' commit
  exact Prod.ext hdr callData

theorem txId_inj (eq : sha3 (input.txIdInput sha3 registry chainId) =
      sha3 (input'.txIdInput sha3 registry' chainId')) :
    input.bytes = input'.bytes ∧ chainId = chainId' := by
  have inputs := hash_inj free .txId .txId eq
  obtain ⟨-, inputs⟩ := Tag.append_inj inputs
  obtain ⟨context, inputs⟩ := Digest.append_inj inputs
  obtain ⟨-, bytes⟩ := Layout.be32.append_inj inputs
  exact ⟨bytes, (context_inj free context).1⟩

theorem auth_inj {j : Nat} (found : input.legs[i]? = some leg)
    (found' : input'.legs[j]? = some leg')
    (eq : sha3 (input.authInput sha3 registry chainId leg i) = sha3 (input'.authInput sha3
      registry' chainId' leg' j)) :
    chainId = chainId' ∧ ofNat i = ofNat j ∧ input.SameUnsigned input' := by
  have inputs := hash_inj free (.auth leg i found) (.auth leg' j found') eq
  obtain ⟨-, inputs⟩ := Tag.append_inj inputs
  obtain ⟨context, inputs⟩ := Digest.append_inj inputs
  obtain ⟨position, -⟩ := Layout.be16.append_inj inputs
  obtain ⟨chain, unsigned⟩ := context_inj free context
  exact ⟨chain, position, unsigned⟩

end

section

variable {input input' : EnvIn} (sha3 : Hash) (registry : Registry) (chainId : ChainId)

theorem contextHead_congr {α : Type} {read : LegIn → α}
    (expiryHeight : input.expiryHeight = input'.expiryHeight)
    (feeAmount : input.feeAmount = input'.feeAmount)
    (resMaxTotalUnits : input.resMaxTotalUnits = input'.resMaxTotalUnits)
    (legs : input.legs.map read = input'.legs.map read) :
    input.contextHead chainId = input'.contextHead chainId := by
  have count := congrArg length legs
  rw [length_map, length_map] at count
  rw [contextHead, contextHead, expiryHeight, feeAmount, resMaxTotalUnits, count]

theorem SameUnsigned.contextInput_eq (eq : input.SameUnsigned input') :
    input.contextInput sha3 registry chainId = input'.contextInput sha3 registry chainId := by
  -- The commitment of a call reads the header and the call data only.
  let pair (leg : LegHdr × Bytes) : LegHdr × Digest :=
    (leg.1, sha3 (callPreimage leg.1 (registry leg.1.domainId leg.1.rulesetVersion) leg.2))
  have pairs := congrArg (map pair) eq.legs
  rw [map_map, map_map] at pairs
  rw [contextInput, contextInput, contextHead_congr chainId eq.expiryHeight eq.feeAmount
    eq.resMaxTotalUnits eq.legs]
  exact congrArg _ pairs

theorem SameUnsigned.authDigest_eq (eq : input.SameUnsigned input') :
    (input.identities sha3 registry chainId).authDigest =
      (input'.identities sha3 registry chainId).authDigest := by
  let digest (entry : (LegHdr × Bytes) × Nat) : Digest :=
    sha3 (authDigestPreimage (sha3 (input'.contextInput sha3 registry chainId))
      (ofNat entry.2) entry.1.1.domainId entry.1.1.runtimeOp)
  have digests := congrArg (fun legs => (zipIdx legs).map digest) eq.legs
  simp only [zipIdx_map, map_map] at digests
  simp only [identities, authInput, eq.contextInput_eq sha3 registry chainId]
  exact digests

theorem SameIntent.intentInput_eq (eq : input.SameIntent input') :
    input.intentInput sha3 registry chainId = input'.intentInput sha3 registry chainId := by
  -- Neither the commitment of a call nor that of a leg reads the length of the authorization.
  let commit (leg : LegHdr × Bytes) : Digest :=
    sha3 (intentLegPreimage leg.1
      (sha3 (callPreimage leg.1 (registry leg.1.domainId leg.1.rulesetVersion) leg.2)))
  have commits := congrArg (map commit) eq.legs
  rw [map_map, map_map] at commits
  rw [intentInput, intentInput, contextHead_congr chainId eq.expiryHeight eq.feeAmount
    eq.resMaxTotalUnits eq.legs]
  exact congrArg _ commits

end

theorem authDigest_at {sha3 : Hash} {registry : Registry} {chainId : ChainId} {digest : Digest}
    (found : (input.identities sha3 registry chainId).authDigest[i]? = some digest) :
    ∃ leg, input.legs[i]? = some leg ∧
      digest = sha3 (input.authInput sha3 registry chainId leg i) := by
  rw [identities, getElem?_map, getElem?_zipIdx, Nat.zero_add] at found
  obtain ⟨entry, atEntry, rfl⟩ := Option.map_eq_some_iff.mp found
  obtain ⟨leg, atLeg, rfl⟩ := Option.map_eq_some_iff.mp atEntry
  exact ⟨leg, atLeg, rfl⟩

theorem Valid.position_inj {input' : EnvIn} (valid : input.Valid) (valid' : input'.Valid)
    {j : Nat} (inside : i < input.legs.length) (inside' : j < input'.legs.length)
    (eq : ofNat i = ofNat j) : i = j := by
  have words := congrArg toNat eq
  rwa [(valid.index_ok inside).1, (valid'.index_ok inside').1] at words

end EnvIn

theorem eq_identities_of_preflight (valid : input.Valid) {sha3 : Hash}
    {registry : Registry} {chainId : ChainId} {height : UInt64} {result : Preflight}
    (passed : preflight sha3 input.bytes chainId height (input.contexts registry) = .ok result) :
    result = input.identities sha3 registry chainId := by
  rw [valid.preflight_eq, ite_error_eq_ok] at passed
  exact (Except.ok.inj passed.2).symm

/-- Without a collision, the transaction identity binds the bytes and the chain, the intent identity
everything but the authorization data, and no identity of one kind is one of another. -/
theorem envelope_identities (sha3 : Hash) {input input' : EnvIn} (valid : input.Valid)
    (valid' : input'.Valid) (registry registry' : Registry) (chainId chainId' : ChainId)
    {height height' : UInt64} {result result' : Preflight}
    (passed : preflight sha3 input.bytes chainId height (input.contexts registry) = .ok result)
    (accepted' : preflight sha3 input'.bytes chainId' height' (input'.contexts registry') =
      .ok result')
    (free : Set.InjOn sha3
      (input.inputs sha3 registry chainId ∪ input'.inputs sha3 registry' chainId')) :
    (result.wireId = result'.wireId → input.bytes = input'.bytes ∧ chainId = chainId') ∧
    (result.intentId = result'.intentId → chainId = chainId' ∧ input.SameIntent input') ∧
    (registry = registry' → chainId = chainId' → input.SameIntent input' →
      result.intentId = result'.intentId) ∧
    (registry = registry' → chainId = chainId' → input.SameUnsigned input' →
      result.authDigest = result'.authDigest) ∧
    (∀ (i j : Nat) digest, result.authDigest[i]? = some digest →
      result'.authDigest[j]? = some digest →
        chainId = chainId' ∧ i = j ∧ input.SameUnsigned input') ∧
    ∀ kind kind' hashed, Preimage kind hashed → Preimage kind' hashed → kind = kind' := by
  obtain rfl := eq_identities_of_preflight valid passed
  obtain rfl := eq_identities_of_preflight valid' accepted'
  refine ⟨EnvIn.txId_inj free, EnvIn.intent_inj free, ?_, ?_, ?_, ?_⟩
  · rintro rfl rfl eq
    exact congrArg sha3 (eq.intentInput_eq sha3 registry chainId)
  · rintro rfl rfl eq
    exact eq.authDigest_eq sha3 registry chainId
  · intro i j digest found found'
    obtain ⟨leg, atLeg, rfl⟩ := EnvIn.authDigest_at found
    obtain ⟨leg', atLeg', eq⟩ := EnvIn.authDigest_at found'
    obtain ⟨chain, position, unsigned⟩ := EnvIn.auth_inj free atLeg atLeg' eq
    exact ⟨chain, valid.position_inj valid' (List.getElem?_eq_some_iff.mp atLeg).1
      (List.getElem?_eq_some_iff.mp atLeg').1 position, unsigned⟩
  · intro kind kind' hashed first second
    exact first.kind_unique second

def sampleRegistry : Registry := fun _ _ => default

def sampleChain : ChainId := ⟨List.replicate 32 7, rfl⟩

def EnvIn.hashedList (input : EnvIn) : List Bytes :=
  input.contextInput residueHash sampleRegistry sampleChain ::
    input.txIdInput residueHash sampleRegistry sampleChain ::
    input.intentInput residueHash sampleRegistry sampleChain ::
    input.legs.zipIdx.flatMap fun (leg, i) =>
      [callInput sampleRegistry leg, intentLegInput residueHash sampleRegistry leg,
        input.authInput residueHash sampleRegistry sampleChain leg i]

theorem EnvIn.Hashed.listed {bytes : Bytes}
    (hashed : input.Hashed residueHash sampleRegistry sampleChain kind bytes) :
    bytes ∈ input.hashedList := by
  have inner : ∀ {leg i}, input.legs[i]? = some leg → ∀ bytes ∈
      [callInput sampleRegistry leg, intentLegInput residueHash sampleRegistry leg,
        input.authInput residueHash sampleRegistry sampleChain leg i],
      bytes ∈ input.hashedList := by
    intro leg i found bytes mem
    refine mem_cons_of_mem _ (mem_cons_of_mem _ (mem_cons_of_mem _ (mem_flatMap.mpr ?_)))
    exact ⟨(leg, i), mk_mem_zipIdx_iff_getElem?.mpr found, mem⟩
  cases hashed with
  | context | txId | intent => simp [hashedList]
  | call leg mem | intentLeg leg mem =>
    obtain ⟨i, found⟩ := mem_iff_getElem?.mp mem
    exact inner found _ (by simp)
  | auth leg i found => exact inner found _ (by simp)

/-- Two envelopes that differ in the authorization of a leg have different transaction identities,
and the same intent and digests to sign, one for each leg. -/
theorem envelope_identities_two_legs :
    ∃ result result', preflight residueHash (sampleEnvelope 1).bytes sampleChain 1
        ((sampleEnvelope 1).contexts sampleRegistry) = .ok result ∧
      preflight residueHash (sampleEnvelope 2).bytes sampleChain 100
        ((sampleEnvelope 2).contexts sampleRegistry) = .ok result' ∧
      result.wireId ≠ result'.wireId ∧ result.intentId = result'.intentId ∧
      result.authDigest = result'.authDigest ∧
      ∀ (i j : Nat) digest, result.authDigest[i]? = some digest →
        result'.authDigest[j]? = some digest → i = j := by
  have first := (sampleEnvelope_valid 1).preflight_eq residueHash sampleRegistry sampleChain 1
  have second := (sampleEnvelope_valid 2).preflight_eq residueHash sampleRegistry sampleChain 100
  rw [if_neg (by decide)] at first second
  have free : Set.InjOn residueHash
      ((sampleEnvelope 1).inputs residueHash sampleRegistry sampleChain ∪
        (sampleEnvelope 2).inputs residueHash sampleRegistry sampleChain) := by
    apply injOn_of_listed ((sampleEnvelope 1).hashedList ++ (sampleEnvelope 2).hashedList)
    · decide +kernel
    · rintro bytes (⟨kind, hashed⟩ | ⟨kind, hashed⟩)
      · exact mem_append_left _ hashed.listed
      · exact mem_append_right _ hashed.listed
  obtain ⟨wire, -, intent, digests, positions, -⟩ := envelope_identities residueHash
    (sampleEnvelope_valid 1) (sampleEnvelope_valid 2) sampleRegistry sampleRegistry sampleChain
    sampleChain first second free
  refine ⟨_, _, first, second, fun eq => absurd (wire eq).1 (by decide),
    intent rfl rfl ⟨rfl, rfl, rfl, rfl⟩, digests rfl rfl ⟨rfl, rfl, rfl, rfl⟩, ?_⟩
  exact fun i j digest found found' => (positions i j digest found found').2.1

end DnaLedger.Envelope
