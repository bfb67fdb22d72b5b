import DnaLedger.Cmt.ChangeSet
import DnaLedger.Cmt.Vote
import DnaLedger.Foundation.Ballot

/-!
# Vote sets

Model of `cmt_vote_set.c`: the votes of one type at one height and round. A vote array is a table
with one optional entry for each validator. The slots of tracked blocks and of claims are filled in
order and never freed, so they are lists.
-/

namespace DnaLedger.Cmt

open Ballot

def peerMax : Nat := 128

def voteSetMaxBlocks : Nat := valsetMax + peerMax

abbrev PeerId := Bytes

/-- `cmt_vote_set_err_t` -/
inductive VoteSetError where
  | none
  | nil
  | invalidValidatorIndex
  | invalidValidatorAddress
  | unexpectedStep
  | nonDeterministicSignature
  | verifyFailed
  | unexpectedExtension
  | conflictingVotes
  | peerMaj23Conflict
  | gotVoteFromUnwantedRound
  | invalidVoteType
  | peerCapacity
  | blockCapacity
  deriving DecidableEq

/-- `cmt_block_votes_t`, with the key it is filed under. -/
structure BlockVotes where
  key : Bytes
  peerMaj23 : Bool
  bitArray : List Bool
  votes : List (Option Vote)
  sum : Int64
  deriving DecidableEq

/-- `cmt_peer_maj23_entry_t` -/
structure PeerMaj23 where
  peer : PeerId
  blockId : BlockId
  deriving DecidableEq

structure VoteSet where
  chainId : Bytes
  height : Int64
  round : Int32
  signedMsgType : Int32
  valSet : ValidatorSet
  extensionsEnabled : Bool
  votesBitArray : List Bool
  votes : List (Option Vote)
  sum : Int64
  maj23 : Option BlockId
  votesByBlock : List BlockVotes
  peerMaj23s : List PeerMaj23
  deriving DecidableEq

/-- What `cmt_vote_set_add_vote` hands back: the return code, whether the vote was added, the error
and a conflicting vote. -/
structure AddOutcome where
  code : Except Failure Unit
  added : Bool
  error : VoteSetError
  conflicting : Option Vote

def AddOutcome.failed (code : Failure) (error : VoteSetError) : AddOutcome :=
  ⟨.error code, false, error, none⟩

def Vote.index (vote : Vote) : Nat :=
  vote.validatorIndex.toInt.toNat

/-- `cmt_validator_set_total_voting_power`, which writes only its cache. -/
def ValidatorSet.totalPower (valSet : ValidatorSet) : Except Failure Int64 :=
  (Cmt.totalVotingPower.exec valSet).1

/-- The first vote of a validator stays. -/
def BlockVotes.addVerifiedVote (blockVotes : BlockVotes) (vote : Vote) (votingPower : Int64) :
    BlockVotes :=
  match entry blockVotes.votes vote.index with
  | some _ => blockVotes
  | none =>
    { blockVotes with
      bitArray := blockVotes.bitArray.set vote.index true
      votes := blockVotes.votes.set vote.index (some vote)
      sum := blockVotes.sum + votingPower }

/-- `votes_by_block_find` -/
def findBlock (key : Bytes) (blocks : List BlockVotes) : Option BlockVotes :=
  blocks.find? fun blockVotes => blockVotes.key == key

/-- Write to the block that `findBlock` finds. -/
def replaceBlock (key : Bytes) (blockVotes : BlockVotes) : List BlockVotes → List BlockVotes
  | [] => []
  | head :: tail =>
    if head.key == key then blockVotes :: tail else head :: replaceBlock key blockVotes tail

section

variable (vs : VoteSet)

def newBlockVotes (peerMaj23 : Bool) (key : Bytes) : Except Failure (BlockVotes × VoteSet) :=
  if voteSetMaxBlocks ≤ vs.votesByBlock.length then .error .reject
  else if blockIdMaxBytes < key.length then .error .fault
  else
    let blockVotes : BlockVotes :=
      ⟨key, peerMaj23, List.replicate vs.votes.length false, List.replicate vs.votes.length none, 0⟩
    .ok (blockVotes, { vs with votesByBlock := vs.votesByBlock ++ [blockVotes] })

/-- `cmt_vote_set_new` and `cmt_new_extended_vote_set`. -/
def newVoteSet (chainId : Bytes) (height : Int64) (round : Int32) (signedMsgType : Int32)
    (valSet : ValidatorSet) (extensionsEnabled : Bool) : Except Failure VoteSet :=
  if height = 0 then .error .reject
  else if chainIdMax < chainId.length then .error .reject
  else
    let size := valSet.validators.length
    .ok ⟨chainId, height, round, signedMsgType, valSet, extensionsEnabled,
      List.replicate size false, List.replicate size none, 0, none, [], []⟩

/-- The vote of a validator for a block, canonical or not. -/
def VoteSet.getVote (index : Nat) (key : Bytes) : Option Vote :=
  let tracked := (findBlock key vs.votesByBlock).bind fun blockVotes => entry blockVotes.votes index
  match entry vs.votes index with
  | some existing => if existing.blockId.key = .ok key then some existing else tracked
  | none => tracked

/-- The first half of `add_verified_vote`: the canonical vote and a conflicting one. Only a vote
for the majority block replaces a canonical one. -/
def VoteSet.placeVote (vote : Vote) (key : Bytes) (votingPower : Int64) :
    Except Failure (VoteSet × Option Vote) :=
  let stored : VoteSet :=
    { vs with
      votes := vs.votes.set vote.index (some vote)
      votesBitArray := vs.votesBitArray.set vote.index true }
  match entry vs.votes vote.index with
  | some existing =>
    if existing.blockId = vote.blockId then .error .fault
    else
      match vs.maj23 with
      | none => .ok (vs, some existing)
      | some maj23 =>
        match maj23.key with
        | .error _ => .error .fault
        | .ok majorityKey =>
          .ok (if majorityKey = key then stored else vs, some existing)
  | none => .ok ({ stored with sum := vs.sum + votingPower }, none)

def quorumOf (total : Int64) : Int64 :=
  total * 2 / 3 + 1

/-- The second half of `add_verified_vote`: the vote joins those for its block, and the first block
with a quorum becomes the majority block. -/
def VoteSet.recordVote (blockVotes : BlockVotes) (vote : Vote)
    (votingPower : Int64) (conflicting : Option Vote) : AddOutcome × VoteSet :=
  match vs.valSet.totalPower with
  | .error _ => (.failed .fault .none, vs)
  | .ok total =>
    let quorum := quorumOf total
    let recorded := blockVotes.addVerifiedVote vote votingPower
    let vs := { vs with votesByBlock := replaceBlock blockVotes.key recorded vs.votesByBlock }
    let vs :=
      if blockVotes.sum < quorum ∧ quorum ≤ recorded.sum ∧ vs.maj23 = none then
        { vs with maj23 := some vote.blockId, votes := overlay recorded.votes vs.votes }
      else vs
    (⟨.ok (), true, .none, conflicting⟩, vs)

def VoteSet.addVerifiedVote (vote : Vote) (key : Bytes) (votingPower : Int64) :
    AddOutcome × VoteSet :=
  match vs.placeVote vote key votingPower with
  | .error code => (.failed code .none, vs)
  | .ok (placed, conflicting) =>
    match findBlock key placed.votesByBlock with
    | some blockVotes =>
      if conflicting.isSome ∧ !blockVotes.peerMaj23 then
        (⟨.ok (), false, .none, conflicting⟩, placed)
      else placed.recordVote blockVotes vote votingPower conflicting
    | none =>
      if conflicting.isSome then (⟨.ok (), false, .none, conflicting⟩, placed)
      else
        match newBlockVotes placed false key with
        | .error .reject => (.failed .reject .blockCapacity, placed)
        | .error .fault => (.failed .fault .none, placed)
        | .ok (blockVotes, tracked) =>
          tracked.recordVote blockVotes vote votingPower conflicting

/-- The signature check of `add_vote`. -/
def verifyVote (crypto : Crypto) (chainId : Bytes) (extensionsEnabled : Bool) (vote : Vote)
    (pubKey : Bytes) : Except (Failure × VoteSetError) Unit :=
  let checked :=
    if extensionsEnabled then
      voteVerifyVoteAndExtension crypto chainId vote pubKey (80 + vote.extension.length)
    else voteVerify crypto chainId vote pubKey
  match checked with
  | .error .reject => .error (.reject, .verifyFailed)
  | .error .fault => .error (.fault, .none)
  | .ok () =>
    if !extensionsEnabled ∧
        (0 < vote.extensionSignature.length ∨ 0 < vote.extension.length) then
      .error (.reject, .unexpectedExtension)
    else .ok ()

/-- The checks of `add_vote` before the signature: the key of the vote's block and the
validator. -/
def VoteSet.checkVote (vote : Vote) : Except (Failure × VoteSetError) (Bytes × Validator) :=
  match vote.blockId.key with
  | .error _ => .error (.fault, .none)
  | .ok key =>
    if vote.validatorIndex < 0 then .error (.reject, .invalidValidatorIndex)
    else if vote.validatorAddress.length = 0 then .error (.reject, .invalidValidatorAddress)
    else if vote.height ≠ vs.height ∨ vote.round ≠ vs.round ∨ vote.type ≠ vs.signedMsgType then
      .error (.reject, .unexpectedStep)
    else
      match vs.valSet.validators[vote.index]? with
      | none => .error (.reject, .invalidValidatorIndex)
      | some val =>
        if vs.votes.length ≤ vote.index then .error (.reject, .invalidValidatorIndex)
        else if val.address ≠ vote.validatorAddress then
          .error (.reject, .invalidValidatorAddress)
        else .ok (key, val)

end

def VoteSet.addVote (crypto : Crypto) (vs : VoteSet) (vote : Vote) : AddOutcome × VoteSet :=
  match vs.checkVote vote with
  | .error (code, error) => (.failed code error, vs)
  | .ok (key, val) =>
    match vs.getVote vote.index key with
    | some existing =>
      if maxSignatureSize < existing.signature.length ∨
          maxSignatureSize < vote.signature.length then
        (.failed .fault .none, vs)
      else if existing.signature = vote.signature then (⟨.ok (), false, .none, none⟩, vs)
      else (.failed .reject .nonDeterministicSignature, vs)
    | none =>
      match val.pubKey with
      | none => (.failed .fault .none, vs)
      | some pubKey =>
        match verifyVote crypto vs.chainId vs.extensionsEnabled vote pubKey with
        | .error (code, error) => (.failed code error, vs)
        | .ok () =>
          match vs.addVerifiedVote vote key val.votingPower with
          | (⟨.error code, added, error, conflicting⟩, next) =>
            (⟨.error code, added, error, conflicting⟩, next)
          | (⟨.ok (), added, _, some conflicting⟩, next) =>
            (⟨.error .reject, added, .conflictingVotes, some conflicting⟩, next)
          | (⟨.ok (), added, error, none⟩, next) =>
            (if added then ⟨.ok (), true, error, none⟩ else .failed .fault error, next)

variable (vs : VoteSet)

def VoteSet.setPeerMaj23 (peer : PeerId) (blockId : BlockId) :
    (Except Failure Unit × VoteSetError) × VoteSet :=
  match blockId.key with
  | .error _ => ((.error .fault, .none), vs)
  | .ok key =>
    match vs.peerMaj23s.find? fun claim => claim.peer == peer with
    | some claim =>
      if claim.blockId = blockId then ((.ok (), .none), vs)
      else ((.error .reject, .peerMaj23Conflict), vs)
    | none =>
      if peerMax ≤ vs.peerMaj23s.length then ((.error .reject, .peerCapacity), vs)
      else
        let vs := { vs with peerMaj23s := vs.peerMaj23s ++ [⟨peer, blockId⟩] }
        match findBlock key vs.votesByBlock with
        | some blockVotes =>
          let claimed := { blockVotes with peerMaj23 := true }
          ((.ok (), .none), { vs with votesByBlock := replaceBlock key claimed vs.votesByBlock })
        | none =>
          match newBlockVotes vs true key with
          | .error .reject => ((.error .reject, .blockCapacity), vs)
          | .error .fault => ((.error .fault, .none), vs)
          | .ok (_, tracked) => ((.ok (), .none), tracked)

def VoteSet.isCommit : Bool :=
  vs.signedMsgType = precommitType && vs.maj23.isSome

def VoteSet.hasTwoThirdsAny : Except Failure Bool :=
  match vs.valSet.totalPower with
  | .error _ => .error .fault
  | .ok total => .ok (total * 2 / 3 < vs.sum)

def VoteSet.hasAll : Except Failure Bool :=
  match vs.valSet.totalPower with
  | .error _ => .error .fault
  | .ok total => .ok (vs.sum = total)

end DnaLedger.Cmt
