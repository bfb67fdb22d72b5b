import DnaLedger.Cmt.CommitVerify
import DnaLedger.Cmt.VoteSetRuns

/-!
# The round trip of a commit

A vote set with a majority block makes a commit that passes verification, and the vote set rebuilt
from it has the same majority block: all three tallies count the canonical votes for it.
-/

namespace DnaLedger.Cmt

open Ballot SInt64 VoteSet ValidatorSet BlockId List Vote Int32 ExtendedCommit

/-! ## Sets without conflicting votes -/

/-- The votes under the tracked blocks are the canonical votes. -/
structure Undisputed (vs : VoteSet) : Prop where
  canonical : ∀ blockVotes ∈ vs.votesByBlock, ∀ i vote,
    entry blockVotes.votes i = some vote → entry vs.votes i = some vote
  recorded : ∀ i vote, entry vs.votes i = some vote → ∃ blockVotes ∈ vs.votesByBlock,
    vote.blockId.key = .ok blockVotes.key ∧ entry blockVotes.votes i = some vote

section

variable {crypto : Crypto} {Accepted : Vote → Prop} {vs : VoteSet} {vote : Vote} {key : Bytes}
  {val : Validator} (kept : Bookkeeping crypto Accepted vs)

include kept

theorem recordVote_undisputed {blockVotes : BlockVotes}
    (admitted : Admitted crypto Accepted vs vote key val)
    (found : findBlock key vs.votesByBlock = some blockVotes)
    (placed : entry vs.votes vote.index = some vote)
    (canonical : ∀ tracked ∈ vs.votesByBlock, ∀ i other,
      entry tracked.votes i = some other → entry vs.votes i = some other)
    (recorded : ∀ i other, i ≠ vote.index → entry vs.votes i = some other →
      ∃ tracked ∈ vs.votesByBlock,
        other.blockId.key = .ok tracked.key ∧ entry tracked.votes i = some other) :
    ∃ next, vs.recordVote blockVotes vote val.votingPower none =
        (⟨.ok (), true, .none, none⟩, next) ∧
      Bookkeeping crypto Accepted next ∧ Undisputed next ∧ next.header = vs.header ∧
      next.votesByBlock.length = vs.votesByBlock.length ∧
      ∀ i, entry next.votes i = entry vs.votes i := by
  have held : (entry vs.votes vote.index).isSome := by
    rw [placed]
    rfl
  obtain ⟨nextKept, grown, outcome⟩ :=
    recordVote_bookkeeping kept admitted found held (fun _ _ _ => placed) none
  obtain ⟨mem, sameKey⟩ := findBlock_eq_some found
  have free := admitted.untracked blockVotes found
  have written := entry_addVerifiedVote_self kept admitted found
  have own := trackedBy_addVerifiedVote kept admitted found held
  -- the votes of the block are canonical, so writing them over the canonical ones is idle
  have ownCanonical : ∀ i other,
      entry (blockVotes.addVerifiedVote vote val.votingPower).votes i = some other →
        entry vs.votes i = some other := by
    intro i other there
    rw [BlockVotes.addVerifiedVote_eq free] at there
    obtain ⟨rfl, rfl⟩ | ⟨-, old⟩ := entry_set_eq_some there
    · exact placed
    · exact canonical blockVotes mem i other old
  have same : (blockVotes.addVerifiedVote vote val.votingPower).votes.length =
      vs.votes.length := by
    rw [own.tallied.length, kept.canonical.length]
  have idle : ∀ i, entry (overlay (blockVotes.addVerifiedVote vote val.votingPower).votes
      vs.votes) i = entry vs.votes i := by
    intro i
    rw [entry_overlay same]
    cases there : entry (blockVotes.addVerifiedVote vote val.votingPower).votes i with
    | none => rfl
    | some other => rw [ownCanonical i other there]; rfl
  have blocks : (vs.recordVote blockVotes vote val.votingPower none).2.votesByBlock =
      replaceBlock key (blockVotes.addVerifiedVote vote val.votingPower) vs.votesByBlock := by
    simp only [recordVote, totalPower_eq kept.sound, sameKey]
    split <;> rfl
  have votes : ∀ i, entry (vs.recordVote blockVotes vote val.votingPower none).2.votes i =
      entry vs.votes i := by
    intro i
    simp only [recordVote, totalPower_eq kept.sound]
    split
    next => exact idle i
    next => rfl
  have recordedKey : (blockVotes.addVerifiedVote vote val.votingPower).key = key := by
    rw [BlockVotes.addVerifiedVote_eq free]
    exact sameKey
  refine ⟨_, Prod.ext outcome rfl, nextKept, ⟨?_, ?_⟩, grown.header, ?_, votes⟩
  · intro tracked inside i other there
    rw [votes]
    rw [blocks] at inside
    rcases mem_of_mem_replaceBlock inside with new | old
    · rw [new] at there
      exact ownCanonical i other there
    · exact canonical tracked old i other there
  · intro i other there
    rw [votes] at there
    rw [blocks]
    have self : blockVotes.addVerifiedVote vote val.votingPower ∈
        replaceBlock key (blockVotes.addVerifiedVote vote val.votingPower) vs.votesByBlock :=
      mem_replaceBlock_self found
    by_cases same : i = vote.index
    · rw [same, placed] at there
      cases there
      exact ⟨_, self, recordedKey.symm ▸ admitted.keyed, same ▸ written⟩
    · obtain ⟨tracked, inside, keyed, stays⟩ := recorded i other same there
      by_cases mine : tracked.key = key
      · have eq := kept.unique inside mem (mine.trans sameKey.symm)
        rw [eq] at stays
        exact ⟨_, self, recordedKey.symm ▸ mine ▸ keyed, entry_addVerifiedVote_of_some _ free stays⟩
      · exact ⟨tracked, mem_replaceBlock_of_ne inside mine, keyed, stays⟩
  · rw [blocks, length_replaceBlock]

theorem addVerifiedVote_undisputed (clear : Undisputed vs)
    (admitted : Admitted crypto Accepted vs vote key val) (free : entry vs.votes vote.index = none)
    (room : vs.votesByBlock.length < voteSetMaxBlocks) :
    ∃ next, vs.addVerifiedVote vote key val.votingPower =
        (⟨.ok (), true, .none, none⟩, next) ∧
      Bookkeeping crypto Accepted next ∧ Undisputed next ∧ next.header = vs.header ∧
      next.votesByBlock.length ≤ vs.votesByBlock.length + 1 ∧
      ∀ i, entry next.votes i = if i = vote.index then some vote else entry vs.votes i := by
  obtain ⟨placed, place⟩ : ∃ placed,
      vs.placeVote vote key val.votingPower = .ok (placed, none) := by
    rw [placeVote, free]
    exact ⟨_, rfl⟩
  have placement := placed_of_placeVote kept admitted place
  obtain ⟨placedKept, -⟩ := placement.bookkeeping kept admitted
  have placedAdmitted := placement.admitted admitted
  have written := placement.fresh rfl
  have blocks : placed.votesByBlock = vs.votesByBlock := by rw [placement.rest]
  have header : placed.header = vs.header := by rw [placement.rest]; rfl
  have entries : ∀ i, entry placed.votes i =
      if i = vote.index then some vote else entry vs.votes i := by
    intro i
    split
    next eq => rw [eq, written]
    next apart => exact placement.others i apart
  have canonical : ∀ tracked ∈ vs.votesByBlock, ∀ i other,
      entry tracked.votes i = some other → entry placed.votes i = some other := by
    intro tracked inside i other there
    have old := clear.canonical tracked inside i other there
    have apart : i ≠ vote.index := by
      intro eq
      rw [eq, free] at old
      cases old
    exact (placement.others i apart).trans old
  have recorded : ∀ i other, i ≠ vote.index → entry placed.votes i = some other →
      ∃ tracked ∈ vs.votesByBlock,
        other.blockId.key = .ok tracked.key ∧ entry tracked.votes i = some other := by
    intro i other apart there
    exact clear.recorded i other ((placement.others i apart).symm.trans there)
  rw [addVerifiedVote, place]
  dsimp only
  cases found : findBlock key placed.votesByBlock with
  | some blockVotes =>
    obtain ⟨next, outcome, nextKept, nextClear, nextHeader, size, votes⟩ :=
      recordVote_undisputed placedKept placedAdmitted found written (blocks ▸ canonical)
        (blocks ▸ recorded)
    refine ⟨next, by simpa using outcome, nextKept, nextClear, nextHeader.trans header, ?_,
      fun i => (votes i).trans (entries i)⟩
    rw [size, blocks]
    exact Nat.le_succ _
  | none =>
    have short : key.length ≤ blockIdMaxBytes := length_key admitted.keyed
    obtain ⟨blockVotes, tracked, new⟩ : ∃ blockVotes tracked,
        newBlockVotes placed false key = .ok (blockVotes, tracked) := by
      rw [newBlockVotes, blocks, if_neg (Nat.not_le.mpr room), if_neg (Nat.not_lt.mpr short)]
      exact ⟨_, _, rfl⟩
    obtain ⟨trackedKept, -, rest, sameKey, empty⟩ :=
      newBlockVotes_bookkeeping placedKept found new
    have trackedFound : findBlock key tracked.votesByBlock = some blockVotes := by
      rw [rest]
      exact findBlock_append_new found sameKey
    have trackedAdmitted : Admitted crypto Accepted tracked vote key val := by
      refine ⟨admitted.keyed, rest ▸ placedAdmitted.found, rest ▸ placedAdmitted.verified, ?_⟩
      intro other otherFound
      rw [trackedFound] at otherFound
      cases otherFound
      exact empty vote.index
    have trackedBlocks : tracked.votesByBlock = vs.votesByBlock ++ [blockVotes] := by
      rw [rest, ← blocks]
    have trackedVotes : tracked.votes = placed.votes := by rw [rest]
    obtain ⟨next, outcome, nextKept, nextClear, nextHeader, size, votes⟩ :=
      recordVote_undisputed trackedKept trackedAdmitted trackedFound (trackedVotes ▸ written)
        (by
          intro other inside i there held
          rw [trackedBlocks] at inside
          rcases mem_append.mp inside with old | fresh
          · exact trackedVotes ▸ canonical other old i there held
          · rw [mem_singleton.mp fresh, empty i] at held
            cases held)
        (by
          intro i other apart there
          obtain ⟨block, inside, keyed, held⟩ :=
            recorded i other apart (trackedVotes ▸ there)
          exact ⟨block, trackedBlocks ▸ mem_append_left _ inside, keyed, held⟩)
    refine ⟨next, by simpa [new] using outcome, nextKept, nextClear,
      nextHeader.trans (by rw [rest]; exact header), ?_, ?_⟩
    · rw [size, trackedBlocks]
      simp
    · intro i
      rw [votes i, trackedVotes, entries i]

theorem addVote_undisputed (clear : Undisputed vs) {i : Nat}
    (good : Verified crypto Accepted vs.header i vote) (valid : vote.validateBasic = true)
    (free : entry vs.votes i = none) (room : vs.votesByBlock.length < voteSetMaxBlocks) :
    ∃ next, vs.addVote crypto vote = (⟨.ok (), true, .none, none⟩, next) ∧
      Bookkeeping crypto Accepted next ∧ Undisputed next ∧ next.header = vs.header ∧
      next.votesByBlock.length ≤ vs.votesByBlock.length + 1 ∧
      ∀ j, entry next.votes j = if j = i then some vote else entry vs.votes j := by
  obtain ⟨val, pubKey, found, there, address, fine⟩ := good.signed
  have index : vote.index = i := by
    rw [index, good.index]
    exact Int.toNat_natCast i
  subst index
  obtain ⟨key, keyed⟩ := exists_key (validateBasic_blockId valid)
  have nonneg : ¬ vote.validatorIndex < 0 := by
    rw [Int32.not_lt, le_iff_toInt_le, good.index, toInt_zero]
    exact Int.natCast_nonneg _
  have long : vote.validatorAddress.length ≠ 0 := by
    rw [validateBasic_address valid]
    decide
  have inside : ¬ vs.votes.length ≤ vote.index := by
    rw [kept.canonical.length]
    exact Nat.not_le.mpr (List.getElem?_eq_some_iff.mp found).1
  have check : vs.checkVote vote = .ok (key, val) := by
    have step : ¬ (vote.height ≠ vs.height ∨ vote.round ≠ vs.round ∨
        vote.type ≠ vs.signedMsgType) := by
      rw [not_or, not_or]
      exact ⟨not_not.mpr good.height, not_not.mpr good.round, not_not.mpr good.type⟩
    rw [checkVote, keyed]
    simp only [if_neg nonneg, if_neg long, if_neg step]
    rw [show vs.valSet.validators[vote.index]? = some val from found]
    simp only [if_neg inside, address, ne_eq, not_true_eq_false, if_false]
  have absent : vs.getVote vote.index key = none := by
    rw [getVote, free]
    dsimp only
    cases tracked : findBlock key vs.votesByBlock with
    | none => rfl
    | some blockVotes =>
      cases recorded : entry blockVotes.votes vote.index with
      | none => simp [recorded]
      | some other =>
        have canonical := clear.canonical blockVotes (findBlock_eq_some tracked).1 _ other
          recorded
        rw [free] at canonical
        cases canonical
  have admitted : Admitted crypto Accepted vs vote key val :=
    ⟨keyed, found, good, untracked_of_getVote absent⟩
  obtain ⟨next, outcome, rest⟩ := addVerifiedVote_undisputed kept clear admitted free room
  refine ⟨next, ?_, rest⟩
  rw [addVote, check]
  simp only [absent, there]
  rw [show verifyVote crypto vs.chainId vs.extensionsEnabled vote pubKey = .ok () from fine]
  simp only [outcome, if_true]

end

/-- The entries of a commit and the votes that they stand for. -/
structure StandsFor (crypto : Crypto) (header : VoteSetHeader)
    (getVote : Int32 → Except Failure Vote) (sigs : List CommitSig)
    (table : List (Option Vote)) : Prop where
  length : sigs.length = table.length
  size : table.length = header.valSet.validators.length
  absent : ∀ i sig, sigs[i]? = some sig → entry table i = none →
    sig.blockIdFlag = blockIdFlagAbsent
  present : ∀ i sig vote, sigs[i]? = some sig → entry table i = some vote →
    sig.blockIdFlag ≠ blockIdFlagAbsent ∧ getVote (ofNat i) = .ok vote
  valid : ∀ i vote, entry table i = some vote →
    Verified crypto (fun vote => vote.validateBasic = true) header i vote

/-- The set after the first `count` entries. -/
structure Rebuilt (crypto : Crypto) (header : VoteSetHeader) (table : List (Option Vote))
    (count : Nat) (vs : VoteSet) : Prop where
  kept : Bookkeeping crypto (fun vote => vote.validateBasic = true) vs
  clear : Undisputed vs
  header : vs.header = header
  blocks : vs.votesByBlock.length ≤ count
  entries : ∀ i, entry vs.votes i = if i < count then entry table i else none

section

variable {crypto : Crypto} {header : VoteSetHeader} {getVote : Int32 → Except Failure Vote}
  {sigs : List CommitSig} {table : List (Option Vote)}

theorem StandsFor.length_le (stands : StandsFor crypto header getVote sigs table) :
    sigs.length ≤ valsetMax := by
  rw [stands.length, stands.size]
  exact header.valSet.length_le.trans header.valSet.cap_le

theorem addSigs_eq_ok (stands : StandsFor crypto header getVote sigs table)
    {rest : List CommitSig} {count : Nat} (drop : sigs.drop count = rest)
    (bound : count ≤ sigs.length) {vs : VoteSet}
    (rebuilt : Rebuilt crypto header table count vs) :
    ∃ whole, addSigs crypto getVote count rest vs = .ok whole ∧
      Rebuilt crypto header table sigs.length whole := by
  induction rest generalizing count vs with
  | nil =>
    have all : count = sigs.length := by
      have short := drop_eq_nil_iff.mp drop
      omega
    exact ⟨vs, rfl, all ▸ rebuilt⟩
  | cons sig rest ih =>
    have inside : count < sigs.length := by
      by_contra outside
      rw [drop_eq_nil_of_le (Nat.not_lt.mp outside)] at drop
      cases drop
    rw [drop_eq_getElem_cons inside] at drop
    obtain ⟨first, later⟩ := cons.inj drop
    have atCount : sigs[count]? = some sig := by
      rw [getElem?_eq_getElem inside, first]
    have free : entry vs.votes count = none := by
      rw [rebuilt.entries, if_neg (Nat.lt_irrefl count)]
    have small := stands.length_le
    have max : valsetMax = 128 := rfl
    cases held : entry table count with
    | none =>
      have absent := stands.absent count sig atCount held
      rw [addSigs, if_pos absent]
      apply ih later inside
      refine ⟨rebuilt.kept, rebuilt.clear, rebuilt.header, rebuilt.blocks.trans (by omega), ?_⟩
      intro i
      rw [rebuilt.entries]
      by_cases here : i = count
      · rw [here, held]
        simp
      · simp only [show i < count + 1 ↔ i < count from by omega]
    | some vote =>
      obtain ⟨flagged, read⟩ := stands.present count sig vote atCount held
      have good := stands.valid count vote held
      obtain ⟨next, added, nextKept, nextClear, nextHeader, nextBlocks, nextEntries⟩ :=
        addVote_undisputed rebuilt.kept rebuilt.clear (rebuilt.header.symm ▸ good)
          good.accepted free
          (Nat.lt_of_le_of_lt rebuilt.blocks (by rw [voteSetMaxBlocks]; omega))
      have low : ¬ maxValue.toInt < (count : Int) := by
        rw [toInt_maxValue]
        omega
      obtain ⟨whole, done, wholeRebuilt⟩ := ih later inside
        ⟨nextKept, nextClear, nextHeader.trans rebuilt.header,
          nextBlocks.trans (Nat.succ_le_succ rebuilt.blocks), by
            intro i
            rw [nextEntries, rebuilt.entries]
            by_cases here : i = count
            · simp [here, held]
            · simp only [here, if_false, show i < count + 1 ↔ i < count from by omega]⟩
      refine ⟨whole, ?_, wholeRebuilt⟩
      rw [addSigs, if_neg flagged, if_neg low, read]
      simp only [good.accepted, Bool.not_true, Bool.false_eq_true, if_false, added]
      exact done

/-- A block with a quorum of the votes is the majority block of the rebuilt set. -/
theorem Rebuilt.majority {vs : VoteSet} (rebuilt : Rebuilt crypto header table table.length vs)
    {id : BlockId} (votable : id.Votable) {members : Finset Nat}
    (votes : ∀ i ∈ members, ∃ vote, entry table i = some vote ∧ vote.blockId = id)
    (quorum : Supermajority header.valSet.powerOf header.valSet.indices members) :
    vs.maj23 = some id := by
  have sound : header.valSet.Sound := rebuilt.header ▸ rebuilt.kept.sound
  have sameSet : vs.valSet = header.valSet := congrArg VoteSetHeader.valSet rebuilt.header
  have nonneg := powerOf_nonneg sound
  have everyone := weight_nonneg nonneg header.valSet.indices
  -- the votes of the members are canonical, so they are recorded under the block
  have recorded : ∀ i ∈ members, ∃ vote, vote.blockId = id ∧ ∃ blockVotes ∈ vs.votesByBlock,
      vote.blockId.key = .ok blockVotes.key ∧ entry blockVotes.votes i = some vote := by
    intro i mem
    obtain ⟨vote, held, names⟩ := votes i mem
    have canonical : entry vs.votes i = some vote := by
      rw [rebuilt.entries, if_pos (lt_length_of_entry held), held]
    exact ⟨vote, names, rebuilt.clear.recorded i vote canonical⟩
  obtain ⟨someone, mem⟩ : members.Nonempty := by
    by_contra empty
    rw [Finset.not_nonempty_iff_eq_empty.mp empty, Supermajority, weight_empty] at quorum
    omega
  obtain ⟨vote, names, own, ownTracked, ownKeyed, -⟩ := recorded someone mem
  rw [names] at ownKeyed
  have ownHolds : members ⊆ holders own.votes := by
    intro i inside
    obtain ⟨other, otherNames, block, tracked, keyed, held⟩ := recorded i inside
    rw [otherNames, ownKeyed] at keyed
    rw [rebuilt.kept.unique tracked ownTracked (Except.ok.inj keyed).symm] at held
    rw [mem_holders, held]
    rfl
  have reached : ∀ blockVotes ∈ vs.votesByBlock,
      quorumOf vs.valSet.totalVotingPower ≤ blockVotes.sum →
      Supermajority header.valSet.powerOf header.valSet.indices (holders blockVotes.votes) := by
    intro blockVotes tracked enough
    have tallied := (rebuilt.kept.tracked blockVotes tracked).tallied
    rw [sameSet, quorumOf_le_iff sound, tallied.sum_eq, rebuilt.header] at enough
    exact enough
  have ownQuorum : quorumOf vs.valSet.totalVotingPower ≤ own.sum := by
    have tallied := (rebuilt.kept.tracked own ownTracked).tallied
    rw [sameSet, quorumOf_le_iff sound, tallied.sum_eq, rebuilt.header]
    have more := weight_mono nonneg ownHolds
    rw [Supermajority] at quorum
    omega
  cases set : vs.maj23 with
  | none => exact absurd ownQuorum (Int64.not_le.mpr (rebuilt.kept.unset set own ownTracked))
  | some other =>
    obtain ⟨block, tracked, majority⟩ := rebuilt.kept.majority other set
    have inside : ∀ blockVotes ∈ vs.votesByBlock,
        holders blockVotes.votes ⊆ header.valSet.indices := by
      intro blockVotes blockTracked
      have tallied := (rebuilt.kept.tracked blockVotes blockTracked).tallied
      exact sameSet ▸ holders_subset_indices tallied.length
    have ownSuper := reached own ownTracked ownQuorum
    obtain ⟨i, inOwn, inBlock, -⟩ := Supermajority.exists_common nonneg (inside own ownTracked)
      (inside block tracked) ownSuper (reached block tracked majority.reached)
      (show 3 * weight header.valSet.powerOf ∅ < _ by
        have upper := weight_mono nonneg (inside own ownTracked)
        rw [Supermajority] at ownSuper
        rw [weight_empty]
        omega)
    -- a common validator has one canonical vote, so the two blocks have one key
    obtain ⟨ownVote, ownHeld⟩ := Option.isSome_iff_exists.mp (mem_holders.mp inOwn)
    obtain ⟨blockVote, blockHeld⟩ := Option.isSome_iff_exists.mp (mem_holders.mp inBlock)
    have sameVote : ownVote = blockVote := by
      have first := rebuilt.clear.canonical own ownTracked i ownVote ownHeld
      have second := rebuilt.clear.canonical block tracked i blockVote blockHeld
      exact Option.some.inj (first.symm.trans second)
    have ownKey := (rebuilt.kept.tracked own ownTracked).keyed i ownVote ownHeld
    have blockKey := (rebuilt.kept.tracked block tracked).keyed i blockVote blockHeld
    rw [← sameVote, ownKey] at blockKey
    obtain ⟨j, named, namedHeld, namesOther⟩ := majority.named
    have tallied := (rebuilt.kept.tracked block tracked).tallied
    have valid := (tallied.verified j named namedHeld).accepted
    have otherVotable : other.Votable := namesOther ▸ validateBasic_votable valid
    have otherKey := majority.keyed
    rw [← Except.ok.inj blockKey] at otherKey
    rw [key_injective otherVotable votable otherKey ownKeyed]

end

/-! ## From a vote set to its commit -/

/-- The vote that the commit for a block keeps: one for the block, or a nil vote. -/
def keptVote (id : BlockId) (vote : Option Vote) : Option Vote :=
  vote.filter fun vote => vote.blockId.isZero || vote.blockId = id

def entryOf : Option Vote → ExtendedCommitSig
  | none => ExtendedCommitSig.absent
  | some vote =>
    ⟨⟨if vote.blockId.isZero then blockIdFlagNil else blockIdFlagCommit, vote.validatorAddress,
      vote.timestamp, vote.signature⟩, vote.extension, vote.extensionSignature⟩

def Vote.strip (vote : Vote) : Vote :=
  { vote with extension := [], extensionSignature := [] }

variable {id : BlockId}

theorem keptVote_eq_some {vote : Option Vote} {kept : Vote} :
    keptVote id vote = some kept ↔
      vote = some kept ∧ (kept.blockId.isZero = true ∨ kept.blockId = id) := by
  rw [keptVote, Option.filter_eq_some_iff]
  simp

variable {vote : Vote}

theorem Vote.validateBasic_strip (valid : vote.validateBasic = true) :
    vote.strip.validateBasic = true := by
  grind [validateBasic, strip]

theorem isZero_eq_false (complete : id.isComplete = true) : id.isZero = false := by
  have length := length_hash_of_isComplete complete
  simp [isZero, length, tmhashSize]

theorem commitEntry_eq_ok {vote : Option Vote}
    (valid : ∀ given, vote = some given → given.validateBasic = true) :
    commitEntry id vote = .ok (entryOf (keptVote id vote)) := by
  cases vote with
  | none => rfl
  | some vote =>
    have basic := valid vote rfl
    have address := validateBasic_address basic
    have signature := (validateBasic_signature basic).2
    have extension := validateBasic_extensionSignature basic
    have fits : ¬ (addressSize < vote.validatorAddress.length ∨
        maxSignatureSize < vote.signature.length) := by omega
    rw [commitEntry, extendedCommitSig, if_neg (Nat.not_lt.mpr extension), commitSig, if_neg fits]
    rcases validateBasic_votable basic with zero | complete
    · have incomplete : ¬ vote.blockId.isComplete = true := fun complete => by
        rw [isZero_eq_false complete] at zero
        cases zero
      have kept : keptVote id (some vote) = some vote :=
        keptVote_eq_some.mpr ⟨rfl, Or.inl zero⟩
      have flags : ¬ (blockIdFlagNil = blockIdFlagCommit) := by decide
      rw [kept, entryOf, if_neg incomplete, if_pos zero, if_pos zero]
      simp [bind, Except.bind, flags]
    · have ne := isZero_eq_false complete
      rw [if_pos complete]
      by_cases eq : vote.blockId = id
      · have kept : keptVote id (some vote) = some vote :=
          keptVote_eq_some.mpr ⟨rfl, Or.inr eq⟩
        rw [kept, entryOf, if_neg (by rw [ne]; decide)]
        simp [bind, Except.bind, eq]
      · have dropped : keptVote id (some vote) = none := by
          simp [keptVote, ne, eq]
        rw [dropped, entryOf]
        simp [bind, Except.bind, eq]

variable {chainId : Bytes} {extensionsEnabled : Bool}

/-- What a verified vote is: its own signature is good, and it carries an extension signature where
extensions are enabled and it is for a block, and nothing where they are not enabled. -/
theorem verifyVote_eq_ok {crypto : Crypto} {pubKey : Bytes}
    (good : verifyVote crypto chainId extensionsEnabled vote pubKey = .ok ()) :
    voteVerify crypto chainId vote pubKey = .ok () ∧
      (extensionsEnabled = false → vote.extension = [] ∧ vote.extensionSignature = []) ∧
      (extensionsEnabled = true → vote.type = precommitType → vote.blockId.isZero = false →
        vote.extensionSignature.length ≠ 0) := by
  unfold verifyVote at good
  cases extensionsEnabled with
  | false =>
    simp only [Bool.false_eq_true, if_false] at good
    split at good
    next => cases good
    next => cases good
    next fine =>
      obtain ⟨empty, good⟩ := ite_error_eq_ok.mp good
      refine ⟨fine, fun _ => ?_, (fun absent => nomatch absent)⟩
      simp only [Bool.not_false, true_and, not_or, Nat.not_lt, Nat.le_zero,
        length_eq_zero_iff] at empty
      exact ⟨empty.2, empty.1⟩
  | true =>
    simp only [if_true] at good
    split at good
    next => cases good
    next => cases good
    next fine =>
      obtain ⟨_, plain, extension⟩ := bind_eq_ok.mp fine
      refine ⟨plain, (fun absent => nomatch absent), fun _ type block => ?_⟩
      rw [if_neg (by simp [type, block])] at extension
      exact (ite_error_eq_ok.mp extension).1

theorem verifyVote_strip {crypto : Crypto} {pubKey : Bytes}
    (good : voteVerify crypto chainId vote pubKey = .ok ()) :
    verifyVote crypto chainId false vote.strip pubKey = .ok () := by
  have stripped : voteVerify crypto chainId vote.strip pubKey = .ok () := good
  simp only [verifyVote, Bool.false_eq_true, if_false, stripped]
  simp [strip]

section

variable {crypto : Crypto} {vs : VoteSet} {id : BlockId}
  (kept : Bookkeeping crypto (fun vote => vote.validateBasic = true) vs)

def VoteSet.keptVotes (vs : VoteSet) (id : BlockId) : List (Option Vote) :=
  vs.votes.map (keptVote id)

def VoteSet.extendedCommit (vs : VoteSet) (id : BlockId) : ExtendedCommit :=
  ⟨vs.height, vs.round, id, (vs.keptVotes id).map entryOf⟩

def VoteSet.commit (vs : VoteSet) (id : BlockId) : Commit :=
  ⟨vs.height, vs.round, id, (vs.keptVotes id).map fun vote => (entryOf vote).commitSig⟩

theorem VoteSet.entry_keptVotes (i : Nat) :
    entry (vs.keptVotes id) i = keptVote id (entry vs.votes i) := by
  rw [keptVotes, entry, entry, getElem?_map]
  cases vs.votes[i]? with
  | none => rfl
  | some vote => rfl

theorem VoteSet.signatures_extendedCommit :
    (vs.extendedCommit id).extendedSignatures.map ExtendedCommitSig.commitSig =
      (vs.commit id).signatures := by
  rw [extendedCommit, commit, map_map]
  rfl

theorem getElem?_commit {i : Nat} {sig : CommitSig}
    (found : (vs.commit id).signatures[i]? = some sig) :
    sig = (entryOf (entry (vs.keptVotes id) i)).commitSig := by
  rw [commit, getElem?_map, Option.map_eq_some_iff] at found
  obtain ⟨vote, held, rfl⟩ := found
  rw [entry, held]
  rfl

include kept

theorem Bookkeeping.keptVote {i : Nat} (held : entry (vs.keptVotes id) i = some vote) :
    Verified crypto (fun vote => vote.validateBasic = true) vs.header i vote ∧
      (vote.blockId.isZero = true ∨ vote.blockId = id) := by
  rw [entry_keptVotes, keptVote_eq_some] at held
  exact ⟨kept.canonical.verified i vote held.1, held.2⟩

theorem Bookkeeping.votable (set : vs.maj23 = some id) : id.Votable := by
  obtain ⟨blockVotes, tracked, majority⟩ := kept.majority id set
  obtain ⟨i, vote, held, names⟩ := majority.named
  have valid := ((kept.tracked blockVotes tracked).tallied.verified i vote held).accepted
  exact names ▸ validateBasic_votable valid

/-- More than two thirds of the power is behind the kept votes for the majority block. -/
theorem Bookkeeping.supermajority (set : vs.maj23 = some id) :
    ∃ members, (∀ i ∈ members, ∃ vote, entry (vs.keptVotes id) i = some vote ∧ vote.blockId = id) ∧
      Supermajority vs.valSet.powerOf vs.valSet.indices members := by
  have votable := kept.votable set
  obtain ⟨blockVotes, tracked, majority⟩ := kept.majority id set
  obtain ⟨tallied, keyed, -⟩ := kept.tracked blockVotes tracked
  refine ⟨holders blockVotes.votes, ?_, ?_⟩
  · intro i mem
    obtain ⟨vote, held⟩ := Option.isSome_iff_exists.mp (mem_holders.mp mem)
    have valid := (tallied.verified i vote held).accepted
    have names : vote.blockId = id := key_injective (validateBasic_votable valid)
      votable (keyed i vote held) majority.keyed
    refine ⟨vote, ?_, names⟩
    rw [entry_keptVotes, majority.canonical i vote held, keptVote_eq_some]
    exact ⟨rfl, Or.inr names⟩
  · have reached := (quorumOf_le_iff kept.sound).mp majority.reached
    rw [tallied.sum_eq] at reached
    exact reached

theorem makeExtendedCommit_eq_ok (type : vs.signedMsgType = precommitType)
    (set : vs.maj23 = some id) {params : AbciParams}
    (enabled : params.voteExtensionsEnabled vs.height = .ok vs.extensionsEnabled)
    {sigsCap : Nat} (room : vs.votes.length ≤ sigsCap) :
    vs.makeExtendedCommit params sigsCap = .ok (vs.extendedCommit id) := by
  have canonical : ∀ vote, some vote ∈ vs.votes →
      ∃ i, Verified crypto (fun vote => vote.validateBasic = true) vs.header i vote := by
    intro vote mem
    obtain ⟨i, found⟩ := mem_iff_getElem?.mp mem
    exact ⟨i, kept.canonical.verified i vote (by rw [entry, found]; rfl)⟩
  have sigs : vs.votes.mapM (commitEntry id) = .ok ((vs.keptVotes id).map entryOf) := by
    rw [keptVotes, map_map]
    apply mapM_eq_ok
    intro vote mem
    apply commitEntry_eq_ok
    rintro given rfl
    obtain ⟨i, verified⟩ := canonical given mem
    exact verified.accepted
  have extensions : (vs.extendedCommit id).ensureExtensions vs.extensionsEnabled = true := by
    rw [ensureExtensions, all_eq_true]
    intro sig mem
    obtain ⟨held, inside, rfl⟩ := mem_map.mp mem
    obtain ⟨vote, canonicalVote, rfl⟩ := mem_map.mp inside
    cases there : keptVote id vote with
    | none => cases vs.extensionsEnabled <;> rfl
    | some keptVote =>
      rw [keptVote_eq_some] at there
      rw [there.1] at canonicalVote
      obtain ⟨i, verified⟩ := canonical keptVote canonicalVote
      obtain ⟨val, pubKey, -, -, -, fine⟩ := verified.signed
      obtain ⟨-, disabled, carried⟩ := verifyVote_eq_ok fine
      have sameType : keptVote.type = precommitType := verified.type.trans type
      have nilEmpty := validateBasic_extension verified.accepted
      rw [show vs.header.extensionsEnabled = vs.extensionsEnabled from rfl] at disabled carried
      cases flag : vs.extensionsEnabled with
      | false =>
        obtain ⟨noExtension, noSignature⟩ := disabled flag
        simp [ExtendedCommitSig.ensureExtension, entryOf, noExtension, noSignature]
      | true =>
        cases zero : keptVote.blockId.isZero with
        | true =>
          obtain ⟨noExtension, noSignature⟩ := nilEmpty zero
          simp [ExtendedCommitSig.ensureExtension, entryOf, zero, noExtension, noSignature,
            blockIdFlagNil, blockIdFlagCommit]
        | false =>
          have signature := carried flag sameType zero
          simpa [ExtendedCommitSig.ensureExtension, entryOf, zero] using signature
  rw [makeExtendedCommit, if_neg (not_not.mpr type), set]
  simp only [if_neg (Nat.not_lt.mpr room), sigs]
  simp only [extendedCommit] at extensions
  simp [bind, Except.bind, enabled, extensions, extendedCommit]

end

theorem blockId_entryOf (names : vote.blockId.isZero = true ∨ vote.blockId = id) :
    (entryOf (some vote)).commitSig.blockId id = .ok vote.blockId := by
  cases zero : vote.blockId.isZero with
  | true =>
    simp [entryOf, CommitSig.blockId, zero, blockIdFlagAbsent, blockIdFlagCommit,
      blockIdFlagNil, (isZero_iff.mp zero).symm]
  | false =>
    have eq : vote.blockId = id := names.resolve_left (by simp [zero])
    simp [entryOf, CommitSig.blockId, zero, blockIdFlagAbsent, blockIdFlagCommit, eq.symm]

section

variable {crypto : Crypto} {vs : VoteSet} {id : BlockId}
  (kept : Bookkeeping crypto (fun vote => vote.validateBasic = true) vs)
  (type : vs.signedMsgType = precommitType)

theorem VoteSet.length_keptVotes : (vs.keptVotes id).length = vs.votes.length :=
  length_map _

theorem VoteSet.length_commit : (vs.commit id).signatures.length = vs.votes.length := by
  rw [commit, length_map, length_keptVotes]

include kept

variable {i : Nat} {vote : Vote} (held : entry (vs.keptVotes id) i = some vote)

include held

theorem Bookkeeping.index_eq :
    (ofNat i).toInt = i ∧ vote.validatorIndex = ofNat i ∧ ¬ ofNat i < 0 := by
  have inside := lt_length_of_entry held
  rw [length_keptVotes, kept.canonical.length] at inside
  have small : vs.header.valSet.validators.length ≤ valsetMax :=
    vs.valSet.length_le.trans vs.valSet.cap_le
  rw [valsetMax] at small
  have index : (ofNat i).toInt = i := toInt_ofNat_of_lt (by omega)
  refine ⟨index, toInt_inj.mp ?_, ?_⟩
  · rw [(kept.keptVote held).1.index, index]
  · rw [Int32.not_lt, le_iff_toInt_le, index, toInt_zero]
    omega

include type

theorem Bookkeeping.eq_vote :
    vote.strip = (entryOf (some vote)).commitSig.vote vs.height vs.round vote.blockId
      (ofNat i) := by
  obtain ⟨good, -⟩ := kept.keptVote held
  rw [← (kept.index_eq held).2.1, ← show vote.height = vs.height from good.height, ← show
    vote.round = vs.round from good.round, CommitSig.vote, ← good.type.trans type]
  rfl

theorem getVote_commit : (vs.commit id).getVote (ofNat i) = .ok vote.strip := by
  obtain ⟨good, names⟩ := kept.keptVote held
  obtain ⟨index, -, nonneg⟩ := kept.index_eq held
  have found : (vs.commit id).signatures[i]? = some (entryOf (some vote)).commitSig := by
    have there : (vs.keptVotes id)[i]? = some (some vote) := Option.join_eq_some_iff.mp held
    rw [commit, getElem?_map, there]
    rfl
  have fits : ¬ (addressSize < (entryOf (some vote)).commitSig.validatorAddress.length ∨
      maxSignatureSize < (entryOf (some vote)).commitSig.signature.length) := by
    have address := validateBasic_address good.accepted
    have signature := (validateBasic_signature good.accepted).2
    simp only [entryOf]
    omega
  rw [Commit.getVote, if_neg nonneg, index, Int.toNat_natCast, found]
  simp only [if_neg fits]
  rw [show (vs.commit id).blockId = id from rfl, blockId_entryOf names, kept.eq_vote type held]
  rfl

theorem getExtendedVote_extendedCommit :
    (vs.extendedCommit id).getExtendedVote (ofNat i) = .ok vote := by
  obtain ⟨good, names⟩ := kept.keptVote held
  obtain ⟨index, -, nonneg⟩ := kept.index_eq held
  have found : (vs.extendedCommit id).extendedSignatures[i]? = some (entryOf (some vote)) := by
    have there : (vs.keptVotes id)[i]? = some (some vote) := Option.join_eq_some_iff.mp held
    rw [extendedCommit, getElem?_map, there]
    rfl
  have fits : ¬ (addressSize < (entryOf (some vote)).commitSig.validatorAddress.length ∨
      maxSignatureSize < (entryOf (some vote)).commitSig.signature.length ∨
      maxSignatureSize < (entryOf (some vote)).extensionSignature.length) := by
    have address := validateBasic_address good.accepted
    have signature := (validateBasic_signature good.accepted).2
    have extension := validateBasic_extensionSignature good.accepted
    simp only [entryOf]
    omega
  rw [getExtendedVote, if_neg nonneg, index, Int.toNat_natCast, found]
  simp only [if_neg fits]
  rw [show (vs.extendedCommit id).blockId = id from rfl, blockId_entryOf names]
  simp only [bind, Except.bind]
  rw [show (vs.extendedCommit id).height = vs.height from rfl,
    show (vs.extendedCommit id).round = vs.round from rfl, ← kept.eq_vote type held]
  rfl

end

/-! ## The round trip -/

section

variable {crypto : Crypto} {vs : VoteSet} {id : BlockId}
  (kept : Bookkeeping crypto (fun vote => vote.validateBasic = true) vs)
  (type : vs.signedMsgType = precommitType)

include kept type

variable (id) in
theorem standsFor_extendedCommit :
    StandsFor crypto vs.header (vs.extendedCommit id).getExtendedVote
      (vs.commit id).signatures (vs.keptVotes id) where
  length := by rw [length_commit, length_keptVotes]
  size := by rw [length_keptVotes, kept.canonical.length]
  absent := by
    intro i sig found empty
    rw [getElem?_commit found, empty]
    rfl
  present := by
    intro i sig vote found held
    refine ⟨?_, getExtendedVote_extendedCommit kept type held⟩
    rw [getElem?_commit found, held, entryOf]
    dsimp only
    split <;> decide
  valid := fun i vote held => (kept.keptVote held).1

variable (id) in
theorem standsFor_commit :
    StandsFor crypto { vs.header with extensionsEnabled := false } (vs.commit id).getVote
      (vs.commit id).signatures ((vs.keptVotes id).map (Option.map strip)) where
  length := by rw [length_commit, length_map, length_keptVotes]
  size := by rw [length_map, length_keptVotes]; exact kept.canonical.length
  absent := by
    intro i sig found empty
    rw [entry_map, Option.map_eq_none_iff] at empty
    rw [getElem?_commit found, empty]
    rfl
  present := by
    intro i sig vote found held
    rw [entry_map, Option.map_eq_some_iff] at held
    obtain ⟨full, held, rfl⟩ := held
    refine ⟨?_, getVote_commit kept type held⟩
    rw [getElem?_commit found, held, entryOf]
    dsimp only
    split <;> decide
  valid := by
    intro i vote held
    rw [entry_map, Option.map_eq_some_iff] at held
    obtain ⟨full, held, rfl⟩ := held
    obtain ⟨good, -⟩ := kept.keptVote held
    obtain ⟨val, pubKey, found, there, address, fine⟩ := good.signed
    exact ⟨validateBasic_strip good.accepted, good.index, good.height,
      good.round, good.type, val, pubKey, found, there, address,
      verifyVote_strip (verifyVote_eq_ok fine).1⟩

theorem signedAt_commit {i : Nat} {sig : CommitSig}
    (found : (vs.commit id).signatures[i]? = some sig)
    (flagged : sig.blockIdFlag ≠ blockIdFlagAbsent) :
    (vs.commit id).SignedAt crypto vs.chainId vs.valSet i sig := by
  have eq := getElem?_commit found
  cases held : entry (vs.keptVotes id) i with
  | none =>
    rw [held] at eq
    exact absurd (eq ▸ rfl) flagged
  | some vote =>
    rw [held] at eq
    obtain ⟨verified, -⟩ := kept.keptVote held
    obtain ⟨val, pubKey, validator, there, address, fine⟩ := verified.signed
    obtain ⟨-, -, short, signBytes, bytes, good⟩ :=
      voteVerify_eq_ok.mp (verifyVote_eq_ok fine).1
    have long := validateBasic_address verified.accepted
    have filled := (validateBasic_signature verified.accepted).1
    refine ⟨?_, eq ▸ short, val, pubKey, signBytes, validator, eq ▸ address, there, ?_,
      eq ▸ good⟩
    · rw [eq]
      cases zero : vote.blockId.isZero <;>
        simp [CommitSig.validateBasic, entryOf, zero, blockIdFlagAbsent, blockIdFlagCommit,
          blockIdFlagNil, long, length_eq_zero_iff.not.mp filled, short]
    · rw [Commit.voteSignBytes, getVote_commit kept type held]
      exact bytes

theorem verifyCommit_commit (set : vs.maj23 = some id) (nonNil : id.isZero = false) :
    verifyCommit crypto vs.chainId vs.valSet id vs.height (vs.commit id) = .ok () := by
  obtain ⟨members, votes, quorum⟩ := kept.supermajority set
  have sizes : vs.valSet.validators.length = (vs.commit id).signatures.length := by
    rw [length_commit, kept.canonical.length]
    rfl
  refine (verifyCommit_iff kept.sound).mpr
    ⟨sizes, rfl, rfl, fun _ _ => signedAt_commit kept type, ?_⟩
  · have counted : members ⊆ (vs.commit id).forBlock (vs.commit id).signatures.length := by
      intro i mem
      obtain ⟨vote, held, names⟩ := votes i mem
      have inside := lt_length_of_entry held
      rw [length_keptVotes,
        ← show (vs.commit id).signatures.length = _ from length_commit] at inside
      refine Commit.mem_forBlock.mpr ⟨inside, ?_⟩
      rw [getElem?_eq_getElem inside, Option.map_some,
        getElem?_commit (getElem?_eq_getElem inside), held, entryOf, names, nonNil]
      rfl
    have more := weight_mono (powerOf_nonneg kept.sound) counted
    rw [Supermajority] at quorum ⊢
    omega

end

theorem rebuilt_newVoteSet (crypto : Crypto) {height : Int64} {round signedMsgType : Int32}
    {valSet : ValidatorSet} (sound : valSet.Sound) {start : VoteSet}
    (new : newVoteSet chainId height round signedMsgType valSet extensionsEnabled = .ok start)
    (table : List (Option Vote)) :
    Rebuilt crypto ⟨chainId, height, round, signedMsgType, valSet, extensionsEnabled⟩ table 0
      start := by
  obtain ⟨kept, -, header⟩ :=
    newVoteSet_bookkeeping crypto (fun vote => vote.validateBasic = true) sound new
  simp only [newVoteSet, ite_error_eq_ok] at new
  obtain ⟨-, -, ⟨⟩⟩ := new
  exact ⟨kept, ⟨by simp, by simp⟩, header, Nat.le_refl 0, by simp⟩

theorem exists_newVoteSet {height : Int64} {round signedMsgType : Int32} {valSet : ValidatorSet}
    {start : VoteSet}
    (new : newVoteSet chainId height round signedMsgType valSet extensionsEnabled = .ok start)
    (otherEnabled : Bool) :
    ∃ other, newVoteSet chainId height round signedMsgType valSet otherEnabled = .ok other := by
  simp only [newVoteSet, ite_error_eq_ok] at new
  exact ⟨_, by rw [newVoteSet, if_neg new.1, if_neg new.2.1]⟩

/-- A precommit set of valid votes with a majority for a block makes a commit that passes
verification, and a set with that majority is rebuilt from it. -/
theorem commit_roundTrip (crypto : Crypto) {chainId : Bytes} {height : Int64} {round : Int32}
    {valSet : ValidatorSet} (sound : valSet.Sound) {extensionsEnabled : Bool} {start : VoteSet}
    (new : newVoteSet chainId height round precommitType valSet extensionsEnabled = .ok start)
    {params : AbciParams} (enabled : params.voteExtensionsEnabled height = .ok extensionsEnabled)
    (calls : List VoteSetCall)
    (valid : ∀ vote, .addVote vote ∈ calls → vote.validateBasic = true)
    {id : BlockId} (set : (start.run crypto calls).maj23 = some id) (nonNil : id.isZero = false)
    {sigsCap : Nat} (room : valSet.validators.length ≤ sigsCap) :
    ∃ extended commit rebuilt,
      (start.run crypto calls).makeExtendedCommit params sigsCap = .ok extended ∧
      extended.toCommit sigsCap = .ok commit ∧
      verifyCommit crypto chainId valSet id height commit = .ok () ∧
      commit.toVoteSet crypto chainId valSet = .ok rebuilt ∧ rebuilt.maj23 = some id ∧
      (extensionsEnabled = true → ∃ extendedRebuilt,
        extended.toExtendedVoteSet crypto chainId valSet = .ok extendedRebuilt ∧
        extendedRebuilt.maj23 = some id) := by
  obtain ⟨startKept, -, startHeader⟩ :=
    newVoteSet_bookkeeping crypto (fun vote => vote.validateBasic = true) sound new
  obtain ⟨kept, grown⟩ := run_bookkeeping startKept valid
  have header := grown.header.trans startHeader
  generalize start.run crypto calls = vs at set kept header
  have sameChain : vs.chainId = chainId := congrArg VoteSetHeader.chainId header
  have sameHeight : vs.height = height := congrArg VoteSetHeader.height header
  have sameRound : vs.round = round := congrArg VoteSetHeader.round header
  have type : vs.signedMsgType = precommitType := congrArg VoteSetHeader.signedMsgType header
  have sameSet : vs.valSet = valSet := congrArg VoteSetHeader.valSet header
  have sameFlag : vs.extensionsEnabled = extensionsEnabled :=
    congrArg VoteSetHeader.extensionsEnabled header
  subst sameChain sameHeight sameRound sameSet sameFlag
  have size : vs.votes.length = vs.valSet.validators.length := kept.canonical.length
  have votable := kept.votable set
  obtain ⟨members, votes, quorum⟩ := kept.supermajority set
  -- the set without extensions
  obtain ⟨fresh, freshNew⟩ := exists_newVoteSet new false
  have stands := standsFor_commit id kept type
  obtain ⟨rebuilt, added, done⟩ := addSigs_eq_ok stands rfl (Nat.zero_le _)
    (type ▸ rebuilt_newVoteSet crypto sound freshNew _)
  refine ⟨vs.extendedCommit id, vs.commit id, rebuilt, makeExtendedCommit_eq_ok kept type set
    enabled (size ▸ room), ?_, verifyCommit_commit kept type set nonNil, ?_, ?_, ?_⟩
  · rw [toCommit, if_neg, signatures_extendedCommit]
    · rfl
    · rw [extendedCommit, length_map, length_keptVotes, size]
      exact Nat.not_lt.mpr room
  · rw [Commit.toVoteSet, show (vs.commit id).height = vs.height from rfl,
      show (vs.commit id).round = vs.round from rfl, freshNew]
    exact added
  · rw [stands.length] at done
    apply done.majority votable _ quorum
    intro i mem
    obtain ⟨vote, held, names⟩ := votes i mem
    exact ⟨vote.strip, by rw [entry_map, held]; rfl, names⟩
  · intro extensions
    obtain ⟨extendedFresh, extendedNew⟩ := exists_newVoteSet new true
    have extendedStands := standsFor_extendedCommit id kept type
    have extendedHeader : vs.header =
        ⟨vs.chainId, vs.height, vs.round, precommitType, vs.valSet, true⟩ := by
      rw [← extensions]
      exact header
    obtain ⟨extendedRebuilt, extendedAdded, extendedDone⟩ := addSigs_eq_ok extendedStands rfl
      (Nat.zero_le _) (extendedHeader ▸ rebuilt_newVoteSet crypto sound extendedNew _)
    refine ⟨extendedRebuilt, ?_, ?_⟩
    · rw [toExtendedVoteSet, show (vs.extendedCommit id).height = vs.height from rfl,
        show (vs.extendedCommit id).round = vs.round from rfl, extendedNew]
      simp only [bind, Except.bind]
      rw [addSigsToVoteSet, signatures_extendedCommit]
      exact extendedAdded
    · rw [extendedStands.length] at extendedDone
      exact extendedDone.majority votable votes quorum

theorem fiveCalls_valid (vote : Vote) (given : .addVote vote ∈ fiveCalls) :
    vote.validateBasic = true := by
  simp only [fiveCalls, mem_cons, VoteSetCall.addVote.injEq, not_mem_nil, or_false, reduceCtorEq,
    false_or] at given
  rcases given with rfl | rfl | rfl | rfl | rfl <;> decide +kernel

/-- The commit has three entries for the block, a nil and an absent one. -/
theorem commit_roundTrip_five :
    (fiveVoteSet.run fiveCrypto fiveCalls).maj23 = some fiveBlock ∧
      ∃ extended commit rebuilt,
        (fiveVoteSet.run fiveCrypto fiveCalls).makeExtendedCommit ⟨0⟩ 5 = .ok extended ∧
        extended.toCommit 5 = .ok commit ∧
        verifyCommit fiveCrypto [] fiveSet fiveBlock 1 commit = .ok () ∧
        commit.toVoteSet fiveCrypto [] fiveSet = .ok rebuilt ∧ rebuilt.maj23 = some fiveBlock := by
  have set : (fiveVoteSet.run fiveCrypto fiveCalls).maj23 = some fiveBlock := by
    decide +kernel
  have new : newVoteSet [] 1 0 precommitType fiveSet false = .ok fiveVoteSet := rfl
  have enabled : (⟨0⟩ : AbciParams).voteExtensionsEnabled 1 = .ok false := by decide
  have nonNil : fiveBlock.isZero = false := by decide +kernel
  have room : fiveSet.validators.length ≤ 5 := by decide
  obtain ⟨extended, commit, rebuilt, made, converted, good, again, eq, -⟩ :=
    commit_roundTrip fiveCrypto fiveSet_valid.toSound new enabled fiveCalls fiveCalls_valid set
      nonNil room
  exact ⟨set, extended, commit, rebuilt, made, converted, good, again, eq⟩

def pairSet : ValidatorSet :=
  { fiveSet with
    validators := [seat 1 10, seat 2 1]
    totalVotingPower := 11
    length_le := Nat.le_of_ble_eq_true rfl }

/-- A precommit of the second validator for an identifier without parts. -/
def partlessPrecommit : Vote :=
  precommitBy 2 ⟨replicate 64 7, 0, []⟩

def pairVoteSet : VoteSet :=
  ⟨[], 1, 0, precommitType, pairSet, false, [false, false], [none, none], 0, none, [], []⟩

/-- `cmt_vote_set_add_vote` takes a signed vote that `cmt_vote_validate_basic` refuses, and
then the set makes no commit. -/
theorem makeExtendedCommit_partless_fault :
    pairSet.Valid ∧ newVoteSet [] 1 0 precommitType pairSet false = .ok pairVoteSet ∧
      partlessPrecommit.validateBasic = false ∧
      (pairVoteSet.run fiveCrypto
        [.addVote partlessPrecommit, .addVote (precommitBy 1 fiveBlock)]).maj23 = some fiveBlock ∧
      (pairVoteSet.run fiveCrypto [.addVote partlessPrecommit,
        .addVote (precommitBy 1 fiveBlock)]).makeExtendedCommit ⟨0⟩ 128 = .error .fault := by
  refine ⟨⟨⟨by decide, by decide, by decide, by decide⟩, by decide, by decide⟩, rfl,
    by decide +kernel, by decide +kernel, by decide +kernel⟩

end DnaLedger.Cmt
