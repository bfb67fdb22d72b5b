import DnaLedger.Cmt.CommitQuorum
import DnaLedger.Cmt.CommitRoundTrip
import DnaLedger.Cmt.DoubleSign
import DnaLedger.Cmt.SignedMessages

/-!
# Agreement in a round

Validators that vote through their signer vote once, so while the others have less than one third of
the power all nodes see the same block.
-/

namespace DnaLedger.Cmt

open Ballot ValidatorSet

/-- What verifies under the key as a vote has the sign bytes of a vote that left the signer. -/
def SignsOnly (crypto : Crypto) (pubKey : Bytes) (released : List Released) : Prop :=
  ∀ {chainId vote bytes signature}, voteSignBytes chainId vote = .ok bytes →
    crypto.verify signature bytes pubKey = true →
    ∃ signed ∈ released, ∃ chainId vote, signed.message = .vote chainId vote ∧
      voteSignBytes chainId vote = .ok bytes

/-- The validator votes through its signer, which may restart but is asked for nothing after a
failed save before it does. -/
def Correct (crypto : Crypto) (header : VoteSetHeader) (i : Nat) : Prop :=
  ∃ (σ : Type) (host : SignerHost σ) (inner : σ) (events : List (Event σ)),
    Careful host events (startFrom inner .reset) ∧
    ∀ {val pubKey}, header.valSet.validators[i]? = some val → val.pubKey = some pubKey →
      SignsOnly crypto pubKey (serveAll host events (startFrom inner .reset)).1

/-- A vote of the validator for the block verifies. -/
def VotedFor (crypto : Crypto) (header : VoteSetHeader) (id : BlockId) (i : Nat) : Prop :=
  ∃ val pubKey vote bytes, header.valSet.validators[i]? = some val ∧ val.pubKey = some pubKey ∧
    vote.type = header.signedMsgType ∧ vote.height = header.height ∧
    vote.round = header.round ∧ vote.blockId = id ∧
    voteSignBytes header.chainId vote = .ok bytes ∧
    crypto.verify vote.signature bytes pubKey = true

/-- What shows a node that the block was chosen. -/
inductive Chosen (crypto : Crypto) (header : VoteSetHeader) (id : BlockId) : Prop
  | majority {start : VoteSet} {calls : List VoteSetCall}
    (new : newVoteSet header.chainId header.height header.round header.signedMsgType header.valSet
      header.extensionsEnabled = .ok start)
    (valid : ∀ vote, .addVote vote ∈ calls → vote.validateBasic = true)
    (set : (start.run crypto calls).maj23 = some id)
  | commit {commit : Commit} (type : header.signedMsgType = precommitType)
    (round : commit.round = header.round)
    (accepted : verifyCommitLight crypto header.chainId header.valSet id header.height commit =
      .ok ())

variable {crypto : Crypto} {header : VoteSetHeader} {id first second : BlockId} {i : Nat}

theorem Commit.SignedAt.votedFor {commit : Commit} {sig : CommitSig}
    (signed : commit.SignedAt crypto header.chainId header.valSet i sig)
    (found : commit.signatures[i]? = some sig) (flag : sig.blockIdFlag = blockIdFlagCommit)
    (type : header.signedMsgType = precommitType) (height : header.height = commit.height)
    (round : commit.round = header.round) : VotedFor crypto header commit.blockId i := by
  obtain ⟨val, pubKey, bytes, validator, -, keyed, signBytes, good⟩ := signed.signed
  have inside := (List.getElem?_eq_some_iff.mp validator).1
  have small : i < 128 := inside.trans_le (header.valSet.length_le.trans header.valSet.cap_le)
  have index : (Int32.ofNat i).toInt = i := Int32.toInt_ofNat_of_lt (by omega)
  obtain ⟨vote, read, signBytes⟩ := bind_eq_ok.mp signBytes
  obtain ⟨other, otherFound, -, blockId, named, rfl⟩ := Commit.getVote_eq_ok read
  rw [index, Int.toNat_natCast, found] at otherFound
  cases otherFound
  rw [CommitSig.blockId, flag] at named
  cases named
  exact ⟨val, pubKey, _, bytes, validator, keyed, type.symm, height.symm, round, rfl, signBytes,
    good⟩

/-- Behind a block that was chosen there is a supermajority. -/
theorem Chosen.votedFor (sound : header.valSet.Sound) (chosen : Chosen crypto header id) :
    ∃ members, Supermajority header.valSet.powerOf header.valSet.indices members ∧
      ∀ i ∈ members, VotedFor crypto header id i := by
  cases chosen with
  | @majority start calls new valid set =>
    obtain ⟨fresh, -, eq⟩ :=
      newVoteSet_bookkeeping crypto (fun vote => vote.validateBasic = true) sound new
    obtain ⟨kept, grown⟩ := run_bookkeeping fresh valid
    have eq := grown.header.trans eq
    have sameSet : (start.run crypto calls).valSet = header.valSet :=
      congrArg VoteSetHeader.valSet eq
    obtain ⟨members, votes, quorum⟩ := kept.supermajority set
    refine ⟨members, sameSet ▸ quorum, fun i mem => ?_⟩
    obtain ⟨vote, held, names⟩ := votes i mem
    obtain ⟨verified, -⟩ := kept.keptVote held
    rw [eq] at verified
    obtain ⟨val, pubKey, found, keyed, -, good⟩ := verified.signed
    obtain ⟨-, -, -, bytes, signBytes, good⟩ := voteVerify_eq_ok.mp (verifyVote_eq_ok good).1
    exact ⟨val, pubKey, vote, bytes, found, keyed, verified.type, verified.height, verified.round,
      names, signBytes, good⟩
  | @commit commit type round passed =>
    obtain ⟨last, light⟩ := (verifyCommitLightInternal_iff sound).mp passed
    refine ⟨commit.forBlock last, light.quorum, fun i mem => ?_⟩
    obtain ⟨sig, found, flag⟩ := Option.map_eq_some_iff.mp (Commit.mem_forBlock.mp mem).2
    rw [light.blockId]
    exact (light.signed i mem sig found).votedFor found flag type light.height round

theorem VotedFor.mem_indices (voted : VotedFor crypto header id i) : i ∈ header.valSet.indices := by
  obtain ⟨val, pubKey, vote, bytes, found, -⟩ := voted
  exact Finset.mem_range.mpr (List.getElem?_eq_some_iff.mp found).1

theorem hrs_of_signBytes {chainId chainId' bytes : Bytes} {vote vote' : Vote}
    (signed : voteSignBytes chainId vote = .ok bytes)
    (again : voteSignBytes chainId' vote' = .ok bytes) :
    (Request.vote chainId vote).hrs = (Request.vote chainId' vote').hrs := by
  obtain ⟨type, height, round, -⟩ := CanonicalVote.mk.inj (voteSignBytes_injective signed again)
  simp only [Request.hrs, voteToStep, type, height, toInt64_injective round]

/-- A validator that votes through its signer votes for one block in a round. -/
theorem Correct.votedFor_unique (correct : Correct crypto header i)
    (firstVoted : VotedFor crypto header first i) (secondVoted : VotedFor crypto header second i) :
    first = second := by
  obtain ⟨σ, host, inner, events, careful, only⟩ := correct
  obtain ⟨_, _, vote, bytes, found, keyed, type, height, round, rfl, signed, good⟩ := firstVoted
  obtain ⟨_, _, vote', bytes', found', keyed', type', height', round', rfl, signed', good'⟩ :=
    secondVoted
  obtain ⟨r, released, chainId, v, message, again⟩ := only found keyed signed good
  obtain ⟨r', released', chainId', v', message', again'⟩ := only found' keyed' signed' good'
  have hrs : r.message.hrs = r'.message.hrs := by
    rw [message, message', ← hrs_of_signBytes signed again, ← hrs_of_signBytes signed' again']
    simp only [Request.hrs, voteToStep, type, type', height, height', round, round']
  have sane : Sane (startFrom inner .reset) := by
    refine ⟨?_, fun _ => rfl⟩
    intro bytes held
    cases held
  obtain ⟨-, run⟩ := serveAll_run host events _ sane careful
  obtain ⟨-, both, bytesEq, bytesEq'⟩ := signed_alike run _ (List.mem_map_of_mem released) _
    (List.mem_map_of_mem released') hrs
  rw [message] at bytesEq
  rw [message'] at bytesEq'
  cases again.symm.trans bytesEq
  cases again'.symm.trans bytesEq'
  obtain ⟨-, -, -, block, -, -⟩ := CanonicalVote.mk.inj (voteSignBytes_injective signed signed')
  exact canonicalBlockId_injective block

/-- While the validators that do not vote through their signer have less than one third of the
power, whatever two nodes see of a round shows the same block. -/
theorem chosen_agree (sound : header.valSet.Sound) {faulty : Finset Nat}
    (few : 3 * weight header.valSet.powerOf faulty < header.valSet.totalVotingPower.toInt)
    (correct : ∀ i ∉ faulty, Correct crypto header i) (firstChosen : Chosen crypto header first)
    (secondChosen : Chosen crypto header second) : first = second := by
  obtain ⟨members, quorum, voted⟩ := firstChosen.votedFor sound
  obtain ⟨members', quorum', voted'⟩ := secondChosen.votedFor sound
  rw [← weight_indices sound] at few
  obtain ⟨i, mem, mem', good⟩ := quorum.exists_common (powerOf_nonneg sound)
    (fun i mem => (voted i mem).mem_indices)
    (fun i mem => (voted' i mem).mem_indices) quorum' few
  exact (correct i good).votedFor_unique (voted i mem) (voted' i mem')

/-- The precommits as the signer returns them. -/
def blockPrecommit : Vote :=
  { precommitBy 1 fiveBlock with extensionSignature := [1] }

def nilPrecommit : Vote :=
  precommitBy 4 .zero

/-- The third signs anything, the fourth nil, the fifth nothing, the others the block. -/
def onceCrypto : Crypto :=
  ⟨fiveCrypto.address, fun _ bytes key => key = [3] ∨ key ≠ [5] ∧
    voteSignBytes [] (if key = [4] then nilPrecommit else blockPrecommit) = .ok bytes⟩

def onceHost : SignerHost Unit :=
  ⟨fun _ => pure [1], fun _ => pure (), pure Time.zero⟩

def fiveHeader : VoteSetHeader :=
  ⟨[], 1, 0, precommitType, fiveSet, false⟩

theorem served_once {vote : Vote} (signed : vote = blockPrecommit ∨ vote = nilPrecommit) :
    Careful onceHost [.request (.vote [] vote)] (startFrom () .reset) ∧
      ∃ given ∈ (serveAll onceHost [.request (.vote [] vote)] (startFrom () .reset)).1,
        given.message = .vote [] vote := by
  rcases signed with rfl | rfl <;> decide +kernel

theorem correct_once {i : Nat} (good : i ∉ ({2} : Finset Nat)) :
    Correct onceCrypto fiveHeader i := by
  obtain ⟨careful, given, mem, eq⟩ :=
    @served_once (if i = 3 then nilPrecommit else blockPrecommit) (by split <;> simp)
  refine ⟨Unit, onceHost, (), _, careful, ?_⟩
  intro val pubKey found keyed chainId vote bytes signature _ verified
  refine ⟨given, mem, [], _, eq, ?_⟩
  obtain ⟨inside, rfl⟩ := List.getElem?_eq_some_iff.mp found
  have inside : i < 5 := inside
  obtain rfl | rfl | rfl | rfl | rfl : i = 0 ∨ i = 1 ∨ i = 2 ∨ i = 3 ∨ i = 4 := by omega
  all_goals
    cases keyed
    simp_all [onceCrypto]

theorem chosen_agree_five :
    Chosen onceCrypto fiveHeader fiveBlock ∧ ¬ Chosen onceCrypto fiveHeader otherBlock := by
  have chosen : Chosen onceCrypto fiveHeader fiveBlock :=
    @Chosen.majority _ _ _ fiveVoteSet fiveCalls rfl fiveCalls_valid (by decide +kernel)
  exact ⟨chosen, fun other => absurd (chosen_agree fiveSet_valid.toSound (by decide)
    (fun _ => correct_once) chosen other) (by decide)⟩

end DnaLedger.Cmt
