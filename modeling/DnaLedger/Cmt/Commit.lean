import DnaLedger.Cmt.VoteSet

/-!
# Commits

Model of the commits of `cmt_block.c`, of making one from a vote set and a vote set from one
(`cmt_vote_set.c`), and of verifying one (`cmt_validation.c`).
-/

namespace DnaLedger.Cmt

open Ballot

def blockIdFlagAbsent : Int32 := 1

def blockIdFlagCommit : Int32 := 2

def blockIdFlagNil : Int32 := 3

structure CommitSig where
  blockIdFlag : Int32
  validatorAddress : Bytes
  timestamp : Time
  signature : Bytes
  deriving DecidableEq

structure ExtendedCommitSig where
  commitSig : CommitSig
  extension : Bytes
  extensionSignature : Bytes
  deriving DecidableEq

def CommitSig.absent : CommitSig :=
  ⟨blockIdFlagAbsent, [], Time.zero, []⟩

def ExtendedCommitSig.absent : ExtendedCommitSig :=
  ⟨CommitSig.absent, [], []⟩

def CommitSig.blockId (sig : CommitSig) (commitBlockId : BlockId) : Except Failure BlockId :=
  if sig.blockIdFlag = blockIdFlagAbsent then .ok BlockId.zero
  else if sig.blockIdFlag = blockIdFlagCommit then .ok commitBlockId
  else if sig.blockIdFlag = blockIdFlagNil then .ok BlockId.zero
  else .error .reject

def CommitSig.validateBasic (sig : CommitSig) : Bool :=
  if sig.blockIdFlag = blockIdFlagAbsent then
    sig.validatorAddress.length = 0 && sig.timestamp = Time.zero && sig.signature.length = 0
  else
    (sig.blockIdFlag = blockIdFlagCommit || sig.blockIdFlag = blockIdFlagNil) &&
      sig.validatorAddress.length = addressSize && sig.signature.length ≠ 0 &&
      sig.signature.length ≤ maxSignatureSize

/-- Only votes for the block carry extensions, and where enabled they must. -/
def ExtendedCommitSig.ensureExtension (sig : ExtendedCommitSig) (extEnabled : Bool) : Bool :=
  if extEnabled then
    if sig.commitSig.blockIdFlag = blockIdFlagCommit then sig.extensionSignature.length ≠ 0
    else sig.extension.length = 0 && sig.extensionSignature.length = 0
  else sig.extension.length = 0 && sig.extensionSignature.length = 0

def commitSig : Option Vote → Except Failure CommitSig
  | none => .ok CommitSig.absent
  | some vote =>
    if addressSize < vote.validatorAddress.length ∨ maxSignatureSize < vote.signature.length then
      .error .reject
    else if vote.blockId.isComplete then
      .ok ⟨blockIdFlagCommit, vote.validatorAddress, vote.timestamp, vote.signature⟩
    else if vote.blockId.isZero then
      .ok ⟨blockIdFlagNil, vote.validatorAddress, vote.timestamp, vote.signature⟩
    else .error .reject

def extendedCommitSig : Option Vote → Except Failure ExtendedCommitSig
  | none => .ok ExtendedCommitSig.absent
  | some vote =>
    if maxSignatureSize < vote.extensionSignature.length then .error .reject
    else do
      let sig ← commitSig (some vote)
      .ok ⟨sig, vote.extension, vote.extensionSignature⟩

structure Commit where
  height : Int64
  round : Int32
  blockId : BlockId
  signatures : List CommitSig
  deriving DecidableEq

structure ExtendedCommit where
  height : Int64
  round : Int32
  blockId : BlockId
  extendedSignatures : List ExtendedCommitSig
  deriving DecidableEq

def ExtendedCommit.ensureExtensions (commit : ExtendedCommit) (extEnabled : Bool) : Bool :=
  commit.extendedSignatures.all fun sig => sig.ensureExtension extEnabled

/-- `cmt_extended_commit_to_commit`, into a list with room for `sigsCap` entries. -/
def ExtendedCommit.toCommit (commit : ExtendedCommit) (sigsCap : Nat) : Except Failure Commit :=
  if sigsCap < commit.extendedSignatures.length then .error .reject
  else .ok ⟨commit.height, commit.round, commit.blockId,
    commit.extendedSignatures.map ExtendedCommitSig.commitSig⟩

/-- The precommit that an entry stands for. -/
def CommitSig.vote (sig : CommitSig) (height : Int64) (round : Int32) (blockId : BlockId)
    (valIdx : Int32) : Vote :=
  ⟨precommitType, height, round, blockId, sig.timestamp, sig.validatorAddress, valIdx,
    sig.signature, [], []⟩

def Commit.getVote (commit : Commit) (valIdx : Int32) : Except Failure Vote :=
  if valIdx < 0 then .error .reject
  else
    match commit.signatures[valIdx.toInt.toNat]? with
    | none => .error .reject
    | some sig =>
      if addressSize < sig.validatorAddress.length ∨ maxSignatureSize < sig.signature.length then
        .error .reject
      else do
        let blockId ← sig.blockId commit.blockId
        .ok (sig.vote commit.height commit.round blockId valIdx)

def ExtendedCommit.getExtendedVote (commit : ExtendedCommit) (valIdx : Int32) :
    Except Failure Vote :=
  if valIdx < 0 then .error .reject
  else
    match commit.extendedSignatures[valIdx.toInt.toNat]? with
    | none => .error .reject
    | some sig =>
      if addressSize < sig.commitSig.validatorAddress.length ∨
          maxSignatureSize < sig.commitSig.signature.length ∨
          maxSignatureSize < sig.extensionSignature.length then
        .error .reject
      else do
        let blockId ← sig.commitSig.blockId commit.blockId
        .ok { sig.commitSig.vote commit.height commit.round blockId valIdx with
          extension := sig.extension
          extensionSignature := sig.extensionSignature }

def Commit.voteSignBytes (commit : Commit) (chainId : Bytes) (valIdx : Int32) :
    Except Failure Bytes := do
  let vote ← commit.getVote valIdx
  Cmt.voteSignBytes chainId vote

structure AbciParams where
  voteExtensionsEnableHeight : Int64
  deriving DecidableEq

def AbciParams.voteExtensionsEnabled (params : AbciParams) (height : Int64) : Except Failure Bool :=
  if height < 1 then .error .reject
  else if params.voteExtensionsEnableHeight = 0 then .ok false
  else .ok (params.voteExtensionsEnableHeight ≤ height)

/-- One entry of the commit for a block: a vote for another block counts as absent. -/
def commitEntry (maj23 : BlockId) (vote : Option Vote) : Except Failure ExtendedCommitSig :=
  match extendedCommitSig vote with
  | .error _ => .error .fault
  | .ok sig =>
    if sig.commitSig.blockIdFlag = blockIdFlagCommit ∧ vote.map Vote.blockId ≠ some maj23 then
      .ok ExtendedCommitSig.absent
    else .ok sig

/-- `cmt_vote_set_make_extended_commit`, into a list with room for `sigsCap` entries. -/
def VoteSet.makeExtendedCommit (vs : VoteSet) (params : AbciParams) (sigsCap : Nat) :
    Except Failure ExtendedCommit :=
  if vs.signedMsgType ≠ precommitType then .error .fault
  else
    match vs.maj23 with
    | none => .error .fault
    | some maj23 =>
      if sigsCap < vs.votes.length then .error .reject
      else do
        let sigs ← vs.votes.mapM (commitEntry maj23)
        let commit : ExtendedCommit := ⟨vs.height, vs.round, maj23, sigs⟩
        match params.voteExtensionsEnabled commit.height with
        | .error _ => .error .fault
        | .ok extEnabled =>
          if commit.ensureExtensions extEnabled then .ok commit else .error .fault

/-- The loop of `add_sigs_to_vote_set` and `cmt_commit_to_vote_set`: the votes of the entries from
`idx` on are added one by one. -/
def addSigs (crypto : Crypto) (getVote : Int32 → Except Failure Vote) :
    Nat → List CommitSig → VoteSet → Except Failure VoteSet
  | _, [], vs => .ok vs
  | idx, sig :: rest, vs =>
    if sig.blockIdFlag = blockIdFlagAbsent then addSigs crypto getVote (idx + 1) rest vs
    else if Int32.maxValue.toInt < idx then .error .fault
    else
      match getVote (Int32.ofNat idx) with
      | .error _ => .error .fault
      | .ok vote =>
        if !vote.validateBasic then .error .fault
        else
          match vs.addVote crypto vote with
          | (⟨.ok (), true, _, _⟩, next) => addSigs crypto getVote (idx + 1) rest next
          | _ => .error .fault

section

variable (crypto : Crypto)

def addSigsToVoteSet (commit : ExtendedCommit) (vs : VoteSet) : Except Failure VoteSet :=
  addSigs crypto commit.getExtendedVote 0
    (commit.extendedSignatures.map ExtendedCommitSig.commitSig) vs

def ExtendedCommit.toExtendedVoteSet (commit : ExtendedCommit) (chainId : Bytes)
    (vals : ValidatorSet) : Except Failure VoteSet := do
  let vs ← newVoteSet chainId commit.height commit.round precommitType vals true
  addSigsToVoteSet crypto commit vs

def Commit.toVoteSet (commit : Commit) (chainId : Bytes) (vals : ValidatorSet) :
    Except Failure VoteSet := do
  let vs ← newVoteSet chainId commit.height commit.round precommitType vals false
  addSigs crypto commit.getVote 0 commit.signatures vs

/-- `cmt_vs_error_t` -/
inductive CommitError where
  | none
  | notEnoughVotingPowerSigned (got needed : Int64)
  deriving DecidableEq

inductive SigPolicy where
  | commit
  | light
  deriving DecidableEq

def SigPolicy.ignored (policy : SigPolicy) (sig : CommitSig) : Bool :=
  match policy with
  | .commit => sig.blockIdFlag = blockIdFlagAbsent
  | .light => sig.blockIdFlag ≠ blockIdFlagCommit

def SigPolicy.counted (policy : SigPolicy) (sig : CommitSig) : Bool :=
  match policy with
  | .commit => sig.blockIdFlag = blockIdFlagCommit
  | .light => true

/-- The validator of an entry, with those seen so far; none when the address is not in the set. -/
def signerOf (vals : ValidatorSet) (lookUpByIndex : Bool) (seen : List Nat) (i : Nat)
    (sig : CommitSig) : Except Failure (Option (Validator × List Nat)) :=
  if lookUpByIndex then
    match vals.validators[i]? with
    | none => .error .reject
    | some val =>
      if sig.validatorAddress ≠ val.address then .error .reject else .ok (some (val, seen))
  else
    match vals.validators.findIdx? fun val => val.address == sig.validatorAddress with
    | none => .ok none
    | some idx =>
      match vals.validators[idx]? with
      | none => .error .fault
      | some val => if idx ∈ seen then .error .reject else .ok (some (val, idx :: seen))

def verifyCommitSig (chainId : Bytes) (commit : Commit) (i : Nat)
    (sig : CommitSig) (val : Validator) : Except Failure Unit :=
  match val.pubKey with
  | none => .error .reject
  | some pubKey => do
      let signBytes ← commit.voteSignBytes chainId (Int32.ofNat i)
      if maxSignatureSize < sig.signature.length then .error .fault
      else if !crypto.verify sig.signature signBytes pubKey then .error .reject
      else .ok ()

end

section

variable (crypto : Crypto) (chainId : Bytes) (vals : ValidatorSet) (commit : Commit)
  (votingPowerNeeded : Int64) (policy : SigPolicy) (countAllSignatures lookUpByIndex : Bool)

/-- The loop of `cmt_verify_commit_single` over the entries from `i` on. -/
def verifySignatures :
    Nat → List CommitSig → List Nat → Int64 → Except (Failure × CommitError) Unit
  | _, [], _, tallied =>
    if tallied ≤ votingPowerNeeded then
      .error (.reject, .notEnoughVotingPowerSigned tallied votingPowerNeeded)
    else .ok ()
  | i, sig :: rest, seen, tallied =>
    if policy.ignored sig then verifySignatures (i + 1) rest seen tallied
    else if !sig.validateBasic then .error (.reject, .none)
    else
      match signerOf vals lookUpByIndex seen i sig with
      | .error code => .error (code, .none)
      | .ok none => verifySignatures (i + 1) rest seen tallied
      | .ok (some (val, seen)) =>
        match verifyCommitSig crypto chainId commit i sig val with
        | .error code => .error (code, .none)
        | .ok () =>
          let tallied := if policy.counted sig then tallied + val.votingPower else tallied
          if !countAllSignatures && votingPowerNeeded < tallied then .ok ()
          else verifySignatures (i + 1) rest seen tallied

def verifyCommitSingle : Except (Failure × CommitError) Unit :=
  verifySignatures crypto chainId vals commit votingPowerNeeded policy countAllSignatures
    lookUpByIndex 0 commit.signatures [] 0

end

def verifyBasicValsAndCommit (vals : ValidatorSet) (commit : Commit) (height : Int64)
    (blockId : BlockId) : Bool :=
  vals.validators.length = commit.signatures.length && height = commit.height &&
    blockId = commit.blockId

variable (crypto : Crypto) (chainId : Bytes)

def verifyCommit (vals : ValidatorSet) (blockId : BlockId)
    (height : Int64) (commit : Commit) : Except (Failure × CommitError) Unit :=
  if !verifyBasicValsAndCommit vals commit height blockId then .error (.reject, .none)
  else
    match vals.totalPower with
    | .error code => .error (code, .none)
    | .ok total =>
      if maxTotalVotingPower < total ∨ total < 0 then .error (.fault, .none)
      else verifyCommitSingle crypto chainId vals commit (total * 2 / 3) .commit true true

def verifyCommitLightInternal (vals : ValidatorSet)
    (blockId : BlockId) (height : Int64) (commit : Commit) (countAllSignatures : Bool) :
    Except (Failure × CommitError) Unit :=
  if !verifyBasicValsAndCommit vals commit height blockId then .error (.reject, .none)
  else
    match vals.totalPower with
    | .error code => .error (code, .none)
    | .ok total =>
      if maxTotalVotingPower < total ∨ total < 0 then .error (.fault, .none)
      else
        verifyCommitSingle crypto chainId vals commit (total * 2 / 3) .light countAllSignatures
          true

def verifyCommitLight (vals : ValidatorSet)
    (blockId : BlockId) (height : Int64) (commit : Commit) : Except (Failure × CommitError) Unit :=
  verifyCommitLightInternal crypto chainId vals blockId height commit false

def verifyCommitLightAllSignatures (vals : ValidatorSet)
    (blockId : BlockId) (height : Int64) (commit : Commit) : Except (Failure × CommitError) Unit :=
  verifyCommitLightInternal crypto chainId vals blockId height commit true

structure Fraction where
  numerator : UInt64
  denominator : UInt64
  deriving DecidableEq

/-- There is no product when it would overflow. -/
def safeMul (a b : Int64) : Option Int64 :=
  if a = 0 ∨ b = 0 then some 0
  else
    match goDiv Int64.maxValue (if b < 0 then -b else b) with
    | .error _ => none
    | .ok limit => if limit < (if a < 0 then -a else a) then none else some (a * b)

def verifyCommitLightTrustingInternal (vals : ValidatorSet)
    (commit : Commit) (trustLevel : Fraction) (countAllSignatures : Bool) :
    Except (Failure × CommitError) Unit :=
  if trustLevel.denominator = 0 then .error (.reject, .none)
  else
    match vals.totalPower with
    | .error code => .error (code, .none)
    | .ok total =>
      match safeMul total trustLevel.numerator.toInt64 with
      | none => .error (.reject, .none)
      | some totalMulNum =>
        let den := trustLevel.denominator.toInt64
        let needed :=
          if den = -1 ∧ totalMulNum = Int64.minValue then Int64.minValue
          else totalMulNum / den
        verifyCommitSingle crypto chainId vals commit needed .light countAllSignatures false

def verifyCommitLightTrusting (vals : ValidatorSet)
    (commit : Commit) (trustLevel : Fraction) : Except (Failure × CommitError) Unit :=
  verifyCommitLightTrustingInternal crypto chainId vals commit trustLevel false

def verifyCommitLightTrustingAllSignatures
    (vals : ValidatorSet) (commit : Commit) (trustLevel : Fraction) :
    Except (Failure × CommitError) Unit :=
  verifyCommitLightTrustingInternal crypto chainId vals commit trustLevel true

end DnaLedger.Cmt
