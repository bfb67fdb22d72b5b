import DnaLedger.Cmt.VoteTally

/-!
# Runs of a vote set

After any votes and claims the books of a vote set are right, and its majority block is the first
one that reached the quorum.
-/

namespace DnaLedger.Cmt

open Ballot List VoteSet

inductive VoteSetCall where
  | addVote (vote : Vote)
  | setPeerMaj23 (peer : PeerId) (blockId : BlockId)

/-- The set after a call, whatever the call returned. -/
def VoteSet.call (crypto : Crypto) (vs : VoteSet) : VoteSetCall → VoteSet
  | .addVote vote => (vs.addVote crypto vote).2
  | .setPeerMaj23 peer blockId => (vs.setPeerMaj23 peer blockId).2

def VoteSet.run (crypto : Crypto) (vs : VoteSet) (calls : List VoteSetCall) : VoteSet :=
  calls.foldl (call crypto) vs

theorem VoteSet.run_append (crypto : Crypto) (vs : VoteSet) (first second : List VoteSetCall) :
    vs.run crypto (first ++ second) = (vs.run crypto first).run crypto second :=
  foldl_append

variable {vs : VoteSet}
variable {crypto : Crypto} {Accepted : Vote → Prop}

theorem call_bookkeeping (kept : Bookkeeping crypto Accepted vs) {call : VoteSetCall}
    (passed : ∀ vote, call = .addVote vote → Accepted vote) :
    Bookkeeping crypto Accepted (vs.call crypto call) ∧ vs.Extends (vs.call crypto call) := by
  cases call with
  | addVote vote => exact addVote_bookkeeping kept vote (passed vote rfl)
  | setPeerMaj23 peer blockId => exact setPeerMaj23_bookkeeping kept peer blockId

/-- Every sequence of calls with accepted votes keeps the books. -/
theorem run_bookkeeping (kept : Bookkeeping crypto Accepted vs) {calls : List VoteSetCall}
    (passed : ∀ vote, .addVote vote ∈ calls → Accepted vote) :
    Bookkeeping crypto Accepted (vs.run crypto calls) ∧ vs.Extends (vs.run crypto calls) := by
  induction calls generalizing vs with
  | nil => exact ⟨kept, .refl vs⟩
  | cons call calls ih =>
    have first : ∀ vote, call = .addVote vote → Accepted vote := by
      intro vote eq
      exact passed vote (eq ▸ mem_cons_self)
    obtain ⟨callKept, grown⟩ := call_bookkeeping kept first
    obtain ⟨runKept, more⟩ := ih callKept fun vote given =>
      passed vote (mem_cons_of_mem call given)
    exact ⟨runKept, grown.trans more⟩

theorem newVoteSet_bookkeeping (crypto : Crypto) (Accepted : Vote → Prop) {chainId : Bytes}
    {height : Int64} {round signedMsgType : Int32} {valSet : ValidatorSet} (sound : valSet.Sound)
    {extensionsEnabled : Bool}
    (new : newVoteSet chainId height round signedMsgType valSet extensionsEnabled = .ok vs) :
    Bookkeeping crypto Accepted vs ∧ vs.maj23 = none ∧
      vs.header = ⟨chainId, height, round, signedMsgType, valSet, extensionsEnabled⟩ := by
  simp only [newVoteSet, ite_error_eq_ok] at new
  obtain ⟨-, -, ⟨⟩⟩ := new
  exact ⟨⟨sound, Tallied.empty crypto Accepted _ rfl, by simp, nodup_nil, by simp,
    by simp⟩, rfl, rfl⟩

/-! ## The first block to reach the quorum -/

section

variable {vs : VoteSet} {vote : Vote} {key : Bytes} {votingPower : Int64} {other : BlockVotes}
variable {conflicting : Option Vote} {blockVotes : BlockVotes}

theorem rest_placeVote {placed : VoteSet}
    (place : vs.placeVote vote key votingPower = .ok (placed, conflicting)) :
    placed.votesByBlock = vs.votesByBlock ∧ placed.maj23 = vs.maj23 := by
  unfold placeVote at place
  split at place
  next =>
    obtain ⟨-, place⟩ := ite_error_eq_ok.mp place
    split at place
    next =>
      cases place
      exact ⟨rfl, rfl⟩
    next =>
      split at place
      next => cases place
      next =>
        cases place
        split <;> exact ⟨rfl, rfl⟩
  next =>
    cases place
    exact ⟨rfl, rfl⟩

theorem newBlockVotes_eq_ok {peerMaj23 : Bool} {tracked : VoteSet}
    (new : newBlockVotes vs peerMaj23 key = .ok (blockVotes, tracked)) :
    tracked = { vs with votesByBlock := vs.votesByBlock ++ [blockVotes] } ∧
      blockVotes.key = key := by
  simp only [newBlockVotes, ite_error_eq_ok] at new
  obtain ⟨-, -, ⟨⟩⟩ := new
  exact ⟨rfl, rfl⟩

theorem BlockVotes.key_addVerifiedVote (blockVotes : BlockVotes) (vote : Vote)
    (votingPower : Int64) : (blockVotes.addVerifiedVote vote votingPower).key = blockVotes.key := by
  rw [BlockVotes.addVerifiedVote]
  split <;> rfl

theorem mem_of_mem_recordVote (mem :
      other ∈ (vs.recordVote blockVotes vote votingPower conflicting).2.votesByBlock)
    (apart : other.key ≠ blockVotes.key) : other ∈ vs.votesByBlock := by
  rw [recordVote] at mem
  split at mem
  next => exact mem
  next total _ =>
    have replaced : other ∈ replaceBlock blockVotes.key
        (blockVotes.addVerifiedVote vote votingPower) vs.votesByBlock := by
      dsimp only at mem
      split at mem <;> exact mem
    rcases mem_of_mem_replaceBlock replaced with new | old
    · exact absurd (new ▸ blockVotes.key_addVerifiedVote vote votingPower) apart
    · exact old

theorem mem_of_mem_addVerifiedVote
    (mem : other ∈ (vs.addVerifiedVote vote key votingPower).2.votesByBlock)
    (apart : other.key ≠ key) : other ∈ vs.votesByBlock := by
  rw [addVerifiedVote] at mem
  split at mem
  next => exact mem
  next placed conflicting place =>
    rw [← (rest_placeVote place).1]
    split at mem
    next blockVotes found =>
      split at mem
      next => exact mem
      next =>
        apply mem_of_mem_recordVote mem
        rw [(findBlock_eq_some found).2]
        exact apart
    next =>
      split at mem
      next => exact mem
      next =>
        split at mem
        next => exact mem
        next => exact mem
        next blockVotes tracked new =>
          obtain ⟨blocks, sameKey⟩ := newBlockVotes_eq_ok new
          have old := mem_of_mem_recordVote mem (sameKey ▸ apart)
          rw [blocks] at old
          rcases mem_append.mp old with old | new
          · exact old
          · rw [mem_singleton.mp new] at apart
            exact absurd sameKey apart

end

theorem mem_of_mem_call (crypto : Crypto) (vs : VoteSet) (call : VoteSetCall) :
    ∃ key, ∀ other ∈ (vs.call crypto call).votesByBlock, other.key ≠ key →
      other ∈ vs.votesByBlock := by
  cases call with
  | addVote vote =>
    rw [call]
    obtain ⟨eq, -⟩ | ⟨key, val, -, -, -, -, -, eq, -⟩ := addVote_cases crypto vs vote
    · rw [eq]
      exact ⟨[], fun other mem _ => mem⟩
    · rw [eq]
      exact ⟨key, fun other => mem_of_mem_addVerifiedVote⟩
  | setPeerMaj23 peer blockId =>
    cases keyed : blockId.key with
    | error code =>
      refine ⟨[], ?_⟩
      intro other mem _
      simpa [call, setPeerMaj23, keyed] using mem
    | ok key =>
      refine ⟨key, ?_⟩
      intro other mem apart
      simp only [call, setPeerMaj23, keyed] at mem
      split at mem
      next => split at mem <;> exact mem
      next =>
        split at mem
        next => exact mem
        next =>
          split at mem
          next blockVotes found =>
            rcases mem_of_mem_replaceBlock mem with new | old
            · exact absurd (new ▸ (findBlock_eq_some found).2) apart
            · exact old
          next =>
            split at mem
            next => exact mem
            next => exact mem
            next blockVotes tracked new =>
              obtain ⟨blocks, sameKey⟩ := newBlockVotes_eq_ok new
              rw [blocks] at mem
              rcases mem_append.mp mem with old | added
              · exact old
              · rw [mem_singleton.mp added] at apart
                exact absurd sameKey apart

/-- The block reached the quorum at some call, before which no block had and at which no other one
did. -/
def FirstToReach (crypto : Crypto) (start : VoteSet) (calls : List VoteSetCall) (id : BlockId) :
    Prop :=
  ∃ before call after, calls = before ++ call :: after ∧
    (start.run crypto before).maj23 = none ∧
    (∀ other ∈ (start.run crypto before).votesByBlock,
      other.sum < quorumOf start.valSet.totalVotingPower) ∧
    (start.run crypto (before ++ [call])).maj23 = some id ∧
    ∃ reached ∈ (start.run crypto (before ++ [call])).votesByBlock,
      id.key = .ok reached.key ∧ quorumOf start.valSet.totalVotingPower ≤ reached.sum ∧
      ∀ other ∈ (start.run crypto (before ++ [call])).votesByBlock, other.key ≠ reached.key →
        other.sum < quorumOf start.valSet.totalVotingPower

section

variable {crypto : Crypto} {Accepted : Vote → Prop} {start : VoteSet}
  (kept : Bookkeeping crypto Accepted start) {calls : List VoteSetCall} {id : BlockId}

include kept

theorem firstToReach_of_call {call : VoteSetCall}
    (passed : ∀ vote, .addVote vote ∈ calls ++ [call] → Accepted vote)
    (unset : (start.run crypto calls).maj23 = none)
    (set : (start.run crypto (calls ++ [call])).maj23 = some id) :
    FirstToReach crypto start (calls ++ [call]) id := by
  obtain ⟨before, beforeExtends⟩ := run_bookkeeping kept fun vote given =>
    passed vote (mem_append_left [call] given)
  obtain ⟨after, afterExtends⟩ := run_bookkeeping kept passed
  have sameBefore : (start.run crypto calls).valSet = start.valSet :=
    congrArg VoteSetHeader.valSet beforeExtends.header
  have sameAfter : (start.run crypto (calls ++ [call])).valSet = start.valSet :=
    congrArg VoteSetHeader.valSet afterExtends.header
  have below := before.unset unset
  obtain ⟨reached, mem, majority⟩ := after.majority id set
  have enough := majority.reached
  rw [sameBefore] at below
  rw [sameAfter] at enough
  refine ⟨calls, call, [], rfl, unset, below, set, reached, mem, majority.keyed, enough, ?_⟩
  obtain ⟨key, others⟩ := mem_of_mem_call crypto (start.run crypto calls) call
  rw [run_append] at mem ⊢
  intro other inside apart
  by_cases otherKey : other.key = key
  · -- then the block that reached the quorum did not change at this call
    have old := below reached (others reached mem (otherKey ▸ apart.symm))
    exact absurd enough (Int64.not_le.mpr old)
  · exact below other (others other inside otherKey)

theorem majority_of_append {more : List VoteSetCall}
    (passed : ∀ vote, .addVote vote ∈ calls ++ more → Accepted vote)
    (set : (start.run crypto calls).maj23 = some id) :
    (start.run crypto (calls ++ more)).maj23 = some id := by
  obtain ⟨runKept, -⟩ := run_bookkeeping kept fun vote given =>
    passed vote (mem_append_left more given)
  rw [run_append]
  exact (run_bookkeeping runKept fun vote given =>
    passed vote (mem_append_right calls given)).2.majority id set

theorem firstToReach_of_run (fresh : start.maj23 = none)
    (passed : ∀ vote, .addVote vote ∈ calls → Accepted vote)
    (set : (start.run crypto calls).maj23 = some id) : FirstToReach crypto start calls id := by
  induction calls using reverseRecOn with
  | nil =>
    rw [show start.run crypto [] = start from rfl, fresh] at set
    cases set
  | append_singleton calls call ih =>
    cases earlier : (start.run crypto calls).maj23 with
    | none => exact firstToReach_of_call kept passed earlier set
    | some other =>
      have stays := majority_of_append kept passed earlier
      rw [set] at stays
      cases stays
      obtain ⟨before, crossing, after, split, rest⟩ := ih
        (fun vote given => passed vote (mem_append_left [call] given)) earlier
      exact ⟨before, crossing, after ++ [call], by rw [split]; simp, rest⟩

end

/-- After any votes and claims the books of a vote set are right, and a majority block stays and is
the first that reached the quorum. -/
theorem run_newVoteSet_bookkeeping (crypto : Crypto) {chainId : Bytes} {height : Int64}
    {round signedMsgType : Int32} {valSet : ValidatorSet} (sound : valSet.Sound)
    {extensionsEnabled : Bool} {start : VoteSet}
    (new : newVoteSet chainId height round signedMsgType valSet extensionsEnabled = .ok start)
    (calls : List VoteSetCall) :
    (start.run crypto calls).header =
      ⟨chainId, height, round, signedMsgType, valSet, extensionsEnabled⟩ ∧
    Bookkeeping crypto (fun vote => .addVote vote ∈ calls) (start.run crypto calls) ∧
    (∀ blockVotes ∈ (start.run crypto calls).votesByBlock, ∀ i vote id,
      entry blockVotes.votes i = some vote → vote.blockId.Votable → id.Votable →
        id.key = .ok blockVotes.key → vote.blockId = id) ∧
    (∀ before after id, calls = before ++ after → (start.run crypto before).maj23 = some id →
      (start.run crypto calls).maj23 = some id) ∧
    ∀ id, (start.run crypto calls).maj23 = some id → FirstToReach crypto start calls id := by
  obtain ⟨kept, fresh, header⟩ :=
    newVoteSet_bookkeeping crypto (fun vote => .addVote vote ∈ calls) sound new
  have passed : ∀ vote, .addVote vote ∈ calls → .addVote vote ∈ calls := fun _ given => given
  obtain ⟨runKept, grown⟩ := run_bookkeeping kept passed
  refine ⟨grown.header.trans header, runKept, ?_, ?_,
    fun id => firstToReach_of_run kept fresh passed⟩
  · intro blockVotes mem i vote id recorded votable idVotable keyed
    have voteKeyed := (runKept.tracked blockVotes mem).keyed i vote recorded
    exact BlockId.key_injective votable idVotable voteKeyed keyed
  · intro before after id split set
    subst split
    exact majority_of_append kept passed set

def seat (k : UInt8) (power : Int64) : Validator :=
  ⟨replicate 32 k, some [k], power, 0⟩

def fiveSet : ValidatorSet where
  validators := [seat 1 10, seat 2 10, seat 3 10, seat 4 10, seat 5 1]
  validatorsCap := 128
  proposer := none
  totalVotingPower := 41
  allKeysHaveSameType := true
  cap_le := Nat.le_refl 128
  length_le := Nat.le_of_ble_eq_true rfl

theorem fiveSet_valid : fiveSet.Valid where
  distinct := by decide
  positive := by decide
  total_eq := by decide
  total_le := by decide
  nonempty := by decide
  keyed := by decide

/-- The address of a key repeats its byte, and every signature is good. -/
def fiveCrypto : Crypto :=
  ⟨fun key => replicate 32 (key.headD 0), fun _ _ _ => true⟩

def fiveBlock : BlockId :=
  ⟨replicate 64 7, 1, replicate 64 9⟩

def precommitBy (k : UInt8) (id : BlockId) : Vote :=
  ⟨precommitType, 1, 0, id, Time.zero, replicate 32 k, Int32.ofNat (k.toNat - 1), [1], [], []⟩

def fiveVoteSet : VoteSet :=
  ⟨[], 1, 0, precommitType, fiveSet, false, replicate 5 false, replicate 5 none, 0, none, [], []⟩

/-- The third validator votes nil and, once a peer claims the block, for the block too. The fourth
votes nil and the fifth not at all. -/
def fiveCalls : List VoteSetCall :=
  [.addVote (precommitBy 3 .zero), .setPeerMaj23 [1] fiveBlock,
    .addVote (precommitBy 1 fiveBlock), .addVote (precommitBy 3 fiveBlock),
    .addVote (precommitBy 4 .zero), .addVote (precommitBy 2 fiveBlock)]

theorem run_newVoteSet_bookkeeping_five :
    newVoteSet [] 1 0 precommitType fiveSet false = .ok fiveVoteSet ∧
      (fiveVoteSet.run fiveCrypto fiveCalls).maj23 = some fiveBlock ∧
      FirstToReach fiveCrypto fiveVoteSet fiveCalls fiveBlock := by
  have new : newVoteSet [] 1 0 precommitType fiveSet false = .ok fiveVoteSet := rfl
  have set : (fiveVoteSet.run fiveCrypto fiveCalls).maj23 = some fiveBlock := by
    decide +kernel
  obtain ⟨-, -, -, -, first⟩ := run_newVoteSet_bookkeeping fiveCrypto fiveSet_valid.toSound new
    fiveCalls
  exact ⟨new, set, first fiveBlock set⟩

def headless : BlockId :=
  ⟨[], 0, replicate 62 7 ++ [8, 5]⟩

def partless : BlockId :=
  ⟨[0x12, 0x40] ++ replicate 62 7, 5, []⟩

def mixedCalls : List VoteSetCall :=
  [.addVote (precommitBy 1 headless), .addVote (precommitBy 2 headless),
    .addVote (precommitBy 3 partless)]

/-- Two incomplete identifiers have one key: the votes for both are under one block, and the one
that becomes the majority block has a quarter of the power. -/
theorem run_newVoteSet_mixed_block :
    headless ≠ partless ∧ fiveSet.Valid ∧
      newVoteSet [] 1 0 precommitType fiveSet false = .ok fiveVoteSet ∧
      (fiveVoteSet.run fiveCrypto mixedCalls).votesByBlock.map BlockVotes.votes =
        [[some (precommitBy 1 headless), some (precommitBy 2 headless),
          some (precommitBy 3 partless), none, none]] ∧
      (fiveVoteSet.run fiveCrypto mixedCalls).maj23 = some partless := by
  exact ⟨by decide, fiveSet_valid, rfl, by decide +kernel, by decide +kernel⟩

/-! ## Queries -/

section

variable {crypto : Crypto} {vs : VoteSet}

theorem Bookkeeping.quorum_le_sum {Accepted : Vote → Prop} (kept : Bookkeeping crypto Accepted vs)
    {id : BlockId} (set : vs.maj23 = some id) :
    quorumOf vs.valSet.totalVotingPower ≤ vs.sum := by
  obtain ⟨blockVotes, tracked, majority⟩ := kept.majority id set
  refine Int64.le_trans majority.reached (Int64.le_iff_toInt_le.mpr ?_)
  have block := kept.tracked blockVotes tracked
  rw [block.tallied.sum_eq, kept.canonical.sum_eq]
  exact weight_mono (ValidatorSet.powerOf_nonneg kept.sound) block.covered

/-- After any calls, a set answers rightly whether two thirds or all of the power has voted, and
a commit has two thirds. -/
theorem run_newVoteSet_queries {chainId : Bytes} {height : Int64} {round signedMsgType : Int32}
    {valSet : ValidatorSet} {extensionsEnabled : Bool} (sound : valSet.Sound)
    (new : newVoteSet chainId height round signedMsgType valSet extensionsEnabled = .ok vs)
    (calls : List VoteSetCall) :
    ((vs.run crypto calls).hasTwoThirdsAny = .ok true ↔ Supermajority valSet.powerOf
      valSet.indices (holders (vs.run crypto calls).votes)) ∧
    ((vs.run crypto calls).hasAll = .ok true ↔
      holders (vs.run crypto calls).votes = valSet.indices) ∧
    ((vs.run crypto calls).isCommit = true → (vs.run crypto calls).hasTwoThirdsAny = .ok true) := by
  obtain ⟨fresh, -, header⟩ := newVoteSet_bookkeeping crypto (fun _ => True) sound new
  obtain ⟨kept, grown⟩ := run_bookkeeping fresh fun vote (_ : .addVote vote ∈ calls) => trivial
  obtain rfl : (vs.run crypto calls).valSet = valSet :=
    congrArg VoteSetHeader.valSet (grown.header.trans header)
  have tally := kept.canonical.sum_eq
  have any : (vs.run crypto calls).hasTwoThirdsAny = .ok true ↔
      quorumOf (vs.run crypto calls).valSet.totalVotingPower ≤ (vs.run crypto calls).sum := by
    obtain ⟨lower, upper⟩ := ValidatorSet.total_range sound
    rw [hasTwoThirdsAny, ValidatorSet.totalPower_eq sound, Except.ok.injEq, decide_eq_true_iff,
      Int64.lt_iff_toInt_lt, toInt_twoThirds lower upper, Int64.le_iff_toInt_le,
      toInt_quorumOf lower upper]
    omega
  refine ⟨?_, ?_, fun commit => any.mpr ?_⟩
  · rw [any, quorumOf_le_iff sound, tally]
    rfl
  · rw [hasAll, ValidatorSet.totalPower_eq sound, Except.ok.injEq, decide_eq_true_iff,
      ← Int64.toInt_inj, tally]
    exact ValidatorSet.weight_eq_total sound (holders_subset_indices kept.canonical.length)
  · obtain ⟨-, set⟩ := Bool.and_eq_true_iff.mp commit
    obtain ⟨id, set⟩ := Option.isSome_iff_exists.mp set
    exact kept.quorum_le_sum set

end

/-- Three votes for a block and a nil vote are two thirds, but the fifth vote is missing. -/
theorem run_newVoteSet_queries_five :
    newVoteSet [] 1 0 precommitType fiveSet false = .ok fiveVoteSet ∧
      (fiveVoteSet.run fiveCrypto fiveCalls).hasTwoThirdsAny = .ok true ∧
      holders (fiveVoteSet.run fiveCrypto fiveCalls).votes ≠ fiveSet.indices := by
  have new : newVoteSet [] 1 0 precommitType fiveSet false = .ok fiveVoteSet := rfl
  obtain ⟨-, all, commit⟩ := run_newVoteSet_queries fiveSet_valid.toSound new fiveCalls
  exact ⟨new, commit (by decide +kernel), fun eq => absurd (all.mpr eq) (by decide +kernel)⟩

/-! ## Slots for tracked blocks -/

section

variable {vs : VoteSet} {vote : Vote} {key : Bytes} {conflicting : Option Vote}
variable {blockVotes : BlockVotes}

/-- No more tracked blocks than validators with a vote and peers with a claim; the slack is for a
block that is not tracked yet. -/
structure Tracking (slack : Nat) (vs : VoteSet) : Prop where
  size : vs.votes.length = vs.valSet.validators.length
  sizes : ∀ blockVotes ∈ vs.votesByBlock, blockVotes.votes.length = vs.votes.length
  peers : (vs.peerMaj23s.map PeerMaj23.peer).Nodup
  claims : vs.peerMaj23s.length ≤ peerMax
  blocks : vs.votesByBlock.length + slack ≤ (holders vs.votes).card + vs.peerMaj23s.length

theorem Tracking.weaken {slack : Nat} (kept : Tracking slack vs) : Tracking 0 vs :=
  { kept with blocks := (Nat.le_add_right _ slack).trans kept.blocks }

theorem newBlockVotes_tracking (kept : Tracking 1 vs) (peerMaj23 : Bool) (key : Bytes) :
    newBlockVotes vs peerMaj23 key ≠ .error .reject ∧
      ∀ blockVotes tracked, newBlockVotes vs peerMaj23 key = .ok (blockVotes, tracked) →
        Tracking 0 tracked ∧ blockVotes ∈ tracked.votesByBlock := by
  have voters : (holders vs.votes).card ≤ (Finset.range vs.votes.length).card :=
    Finset.card_filter_le _ _
  rw [Finset.card_range] at voters
  have members := vs.valSet.length_le.trans vs.valSet.cap_le
  obtain ⟨size, sizes, peers, claims, blocks⟩ := kept
  have room : ¬ voteSetMaxBlocks ≤ vs.votesByBlock.length := by
    rw [voteSetMaxBlocks]
    omega
  rw [newBlockVotes, if_neg room]
  split
  next => exact ⟨by simp, by simp⟩
  next =>
    refine ⟨by simp, ?_⟩
    rintro _ _ ⟨⟩
    refine ⟨⟨size, ?_, peers, claims, by simpa using blocks⟩, by simp⟩
    simpa [or_imp, forall_and] using sizes

theorem recordVote_tracking (kept : Tracking 0 vs) (tracked : blockVotes ∈ vs.votesByBlock)
    (votingPower : Int64) :
    Tracking 0 (vs.recordVote blockVotes vote votingPower conflicting).2 ∧
      (vs.recordVote blockVotes vote votingPower conflicting).1.error ≠ .blockCapacity := by
  have ⟨size, sizes, peers, claims, blocks⟩ := kept
  have eq : (blockVotes.addVerifiedVote vote votingPower).votes.length = vs.votes.length := by
    rw [← sizes blockVotes tracked, BlockVotes.addVerifiedVote]
    split
    next => rfl
    next => exact length_set
  have replaced : ∀ other ∈ replaceBlock blockVotes.key
      (blockVotes.addVerifiedVote vote votingPower) vs.votesByBlock,
      other.votes.length = vs.votes.length := by
    intro other inside
    obtain new | old := mem_of_mem_replaceBlock inside
    · rw [new, eq]
    · exact sizes other old
  have grow : holders vs.votes ⊆
      holders (overlay (blockVotes.addVerifiedVote vote votingPower).votes vs.votes) := by
    intro i held
    rw [mem_holders] at held ⊢
    rw [entry_overlay eq, Option.isSome_or, held, Bool.or_true]
  have more := Finset.card_le_card grow
  rw [recordVote]
  split
  next => exact ⟨kept, by simp [AddOutcome.failed]⟩
  next =>
    refine ⟨?_, by simp⟩
    dsimp only
    split
    next =>
      exact ⟨(length_overlay eq).trans size, fun other inside =>
        (replaced other inside).trans (length_overlay eq).symm, peers, claims,
        by dsimp only; rw [length_replaceBlock]; omega⟩
    next => exact ⟨size, replaced, peers, claims, by rwa [length_replaceBlock]⟩

theorem placeVote_tracking (kept : Tracking 0 vs) (inside : vote.index < vs.votes.length)
    {votingPower : Int64} {placed : VoteSet}
    (place : vs.placeVote vote key votingPower = .ok (placed, conflicting)) :
    Tracking (if conflicting.isSome then 0 else 1) placed := by
  have ⟨size, sizes, peers, claims, blocks⟩ := kept
  have written := holders_set inside vote
  have stored : ∀ slack, vs.votesByBlock.length + slack ≤
      (insert vote.index (holders vs.votes)).card + vs.peerMaj23s.length →
      Tracking slack { vs with
        votes := vs.votes.set vote.index (some vote)
        votesBitArray := vs.votesBitArray.set vote.index true } := by
    intro slack blocks
    exact ⟨length_set.trans size, by simpa using sizes, peers, claims, written ▸ blocks⟩
  unfold placeVote at place
  split at place
  next =>
    obtain ⟨-, place⟩ := ite_error_eq_ok.mp place
    have more := Finset.card_le_card (Finset.subset_insert vote.index (holders vs.votes))
    split at place
    next =>
      cases place
      exact kept
    next =>
      split at place
      next => cases place
      next =>
        cases place
        change Tracking 0 _
        split
        next => exact stored 0 (by omega)
        next => exact kept
  next free =>
    cases place
    have fresh : vote.index ∉ holders vs.votes := by simp [free]
    have counted := stored 1 (by rw [Finset.card_insert_of_notMem fresh]; omega)
    exact { counted with }

theorem addVerifiedVote_tracking (kept : Tracking 0 vs) (inside : vote.index < vs.votes.length)
    (key : Bytes) (votingPower : Int64) :
    Tracking 0 (vs.addVerifiedVote vote key votingPower).2 ∧
      (vs.addVerifiedVote vote key votingPower).1.error ≠ .blockCapacity := by
  rw [addVerifiedVote]
  split
  next => exact ⟨kept, by simp [AddOutcome.failed]⟩
  next placed conflicting place =>
    have counted := placeVote_tracking kept inside place
    have placedKept := counted.weaken
    split
    next blockVotes found =>
      split
      next => exact ⟨placedKept, by simp⟩
      next => exact recordVote_tracking placedKept (findBlock_eq_some found).1 votingPower
    next =>
      split
      next => exact ⟨placedKept, by simp⟩
      next first =>
        rw [if_neg first] at counted
        obtain ⟨room, new⟩ := newBlockVotes_tracking counted false key
        split
        next full => exact absurd full room
        next => exact ⟨placedKept, by simp [AddOutcome.failed]⟩
        next blockVotes tracked made =>
          obtain ⟨trackedKept, mem⟩ := new blockVotes tracked made
          exact recordVote_tracking trackedKept mem votingPower

theorem addVote_tracking (crypto : Crypto) (kept : Tracking 0 vs) (vote : Vote) :
    Tracking 0 (vs.addVote crypto vote).2 ∧
      (vs.addVote crypto vote).1.error ≠ .blockCapacity := by
  obtain ⟨eq, other⟩ | ⟨key, val, -, fine, -, -, -, eq, capacity⟩ :=
    addVote_cases crypto vs vote
  · exact ⟨eq.symm ▸ kept, other⟩
  · obtain ⟨-, -, -, -, -, found, -⟩ := checkVote_eq_ok fine
    have inside : vote.index < vs.votes.length := by
      rw [kept.size]
      exact (List.getElem?_eq_some_iff.mp found).1
    obtain ⟨added, other⟩ := addVerifiedVote_tracking kept inside key val.votingPower
    exact ⟨eq.symm ▸ added, fun full => other (capacity full)⟩

theorem setPeerMaj23_tracking (kept : Tracking 0 vs) (peer : PeerId) (id : BlockId) :
    Tracking 0 (vs.setPeerMaj23 peer id).2 ∧
      (vs.setPeerMaj23 peer id).1.2 ≠ .blockCapacity := by
  rw [setPeerMaj23]
  split
  next => exact ⟨kept, by simp⟩
  next key keyed =>
    split
    next => split <;> exact ⟨kept, by simp⟩
    next first =>
      split
      next => exact ⟨kept, by simp⟩
      next room =>
        obtain ⟨size, sizes, peers, claims, blocks⟩ := kept
        have counted : Tracking 1 { vs with peerMaj23s := vs.peerMaj23s ++ [⟨peer, id⟩] } := by
          refine ⟨size, sizes, ?_, ?_, by simpa [← Nat.add_assoc] using blocks⟩
          · have new := find?_eq_none.mp first
            simpa [nodup_append, peers] using new
          · rw [length_append]
            exact Nat.not_le.mp room
        dsimp only
        split
        next blockVotes found =>
          refine ⟨{ counted.weaken with
            sizes := fun other inside => ?_
            blocks := by rw [length_replaceBlock]; exact counted.weaken.blocks }, by simp⟩
          obtain rfl | old := mem_of_mem_replaceBlock inside
          · exact sizes blockVotes (findBlock_eq_some found).1
          · exact sizes other old
        next =>
          obtain ⟨room, new⟩ := newBlockVotes_tracking counted true key
          split
          next full => exact absurd full room
          next => exact ⟨counted.weaken, by simp⟩
          next blockVotes tracked made => exact ⟨(new blockVotes tracked made).1, by simp⟩

end

theorem run_tracking (crypto : Crypto) {vs : VoteSet} (kept : Tracking 0 vs)
    (calls : List VoteSetCall) : Tracking 0 (vs.run crypto calls) := by
  induction calls generalizing vs with
  | nil => exact kept
  | cons call calls ih =>
    cases call with
    | addVote vote => exact ih (addVote_tracking crypto kept vote).1
    | setPeerMaj23 peer id => exact ih (setPeerMaj23_tracking kept peer id).1

/-- A peer has one claim, the tracked blocks are no more than the validators with a vote and the
peers with a claim, and there is a slot for one more. -/
theorem run_newVoteSet_tracking (crypto : Crypto) {chainId : Bytes} {height : Int64}
    {round signedMsgType : Int32} {valSet : ValidatorSet} {extensionsEnabled : Bool}
    {start : VoteSet}
    (new : newVoteSet chainId height round signedMsgType valSet extensionsEnabled = .ok start)
    (calls : List VoteSetCall) :
    ((start.run crypto calls).peerMaj23s.map PeerMaj23.peer).Nodup ∧
    (start.run crypto calls).votesByBlock.length ≤
      (holders (start.run crypto calls).votes).card + (start.run crypto calls).peerMaj23s.length ∧
    (∀ vote, ((start.run crypto calls).addVote crypto vote).1.error ≠ .blockCapacity) ∧
    ∀ peer id, ((start.run crypto calls).setPeerMaj23 peer id).1.2 ≠ .blockCapacity := by
  have fresh : Tracking 0 start := by
    simp only [newVoteSet, ite_error_eq_ok] at new
    obtain ⟨-, -, ⟨⟩⟩ := new
    exact ⟨length_replicate, by simp, nodup_nil, Nat.zero_le _, Nat.zero_le _⟩
  have kept := run_tracking crypto fresh calls
  exact ⟨kept.peers, kept.blocks, fun vote => (addVote_tracking crypto kept vote).2,
    fun peer id => (setPeerMaj23_tracking kept peer id).2⟩

/-- Votes and claims for two blocks, one of them by a validator with two votes, leave a slot. -/
theorem run_newVoteSet_tracking_five :
    newVoteSet [] 1 0 precommitType fiveSet false = .ok fiveVoteSet ∧
      ∀ vote, ((fiveVoteSet.run fiveCrypto fiveCalls).addVote fiveCrypto vote).1.error ≠
        .blockCapacity := by
  have new : newVoteSet [] 1 0 precommitType fiveSet false = .ok fiveVoteSet := rfl
  exact ⟨new, (run_newVoteSet_tracking fiveCrypto new _).2.2.1⟩

end DnaLedger.Cmt
