import DnaLedger.Cmt.VoteSet
import Mathlib.Algebra.BigOperators.Fin

/-!
# What a vote set counts

The invariant of a vote set: its tables hold verified votes, its sums are the powers of the
validators in its tables, and its majority block is the one whose votes reached the quorum.
-/

namespace DnaLedger.Cmt

open Ballot SInt64 ValidatorSet List BlockVotes

def ValidatorSet.powerOf (valSet : ValidatorSet) (i : Nat) : Int :=
  (valSet.validators[i]?).elim 0 fun val => val.votingPower.toInt

def ValidatorSet.indices (valSet : ValidatorSet) : Finset Nat :=
  Finset.range valSet.validators.length

variable {valSet : ValidatorSet}
  {i : Nat} {val : Validator} {total : Int64} {other first second : BlockVotes}

theorem ValidatorSet.powerOf_eq
    (found : valSet.validators[i]? = some val) : valSet.powerOf i = val.votingPower.toInt := by
  rw [powerOf, found]
  rfl

section

variable (sound : valSet.Sound)

include sound

theorem ValidatorSet.powerOf_nonneg (i : Nat) : 0 ≤ valSet.powerOf i := by
  rw [powerOf]
  cases found : valSet.validators[i]? with
  | none => exact Int.le_refl 0
  | some val =>
    have positive := Int64.lt_iff_toInt_lt.mp (sound.positive val (mem_of_getElem? found))
    exact Int.le_of_lt positive

theorem ValidatorSet.weight_indices :
    weight valSet.powerOf valSet.indices = valSet.totalVotingPower.toInt := by
  rw [sound.total_eq, power, weight, indices, Finset.sum_range]
  rw [← sum_ofFn]
  congr 1
  apply ext_getElem
  · simp
  · intro i inside other
    rw [length_ofFn] at inside
    simp [powerOf]

theorem ValidatorSet.total_range :
    0 ≤ valSet.totalVotingPower.toInt ∧ valSet.totalVotingPower.toInt < 2 ^ 60 := by
  have upper := Int64.le_iff_toInt_le.mp sound.total_le
  have maximum : maxTotalVotingPower.toInt < 2 ^ 60 := by decide
  rw [← weight_indices sound]
  constructor
  · exact weight_nonneg (powerOf_nonneg sound) _
  · rw [weight_indices sound]
    omega

theorem ValidatorSet.weight_le_total {members : Finset Nat} (inside : members ⊆ valSet.indices) :
    weight valSet.powerOf members ≤ valSet.totalVotingPower.toInt := by
  rw [← weight_indices sound]
  exact weight_mono (powerOf_nonneg sound) inside

theorem ValidatorSet.weight_eq_total {members : Finset Nat} (inside : members ⊆ valSet.indices) :
    weight valSet.powerOf members = valSet.totalVotingPower.toInt ↔ members = valSet.indices := by
  rw [← weight_indices sound]
  refine ⟨fun eq => ?_, fun eq => by rw [eq]⟩
  -- a validator that is missing has some power
  by_contra apart
  obtain ⟨i, index, missing⟩ := Finset.exists_of_ssubset (inside.ssubset_of_ne apart)
  have positive : 0 < valSet.powerOf i := by
    have found := getElem?_eq_getElem (Finset.mem_range.mp index)
    rw [powerOf_eq found]
    exact Int64.lt_iff_toInt_lt.mp (sound.positive _ (mem_of_getElem? found))
  exact (Finset.sum_lt_sum_of_subset inside index missing positive
    fun j _ _ => powerOf_nonneg sound j).ne eq

theorem ValidatorSet.totalPower_eq : valSet.totalPower = .ok valSet.totalVotingPower := by
  rw [totalPower, exec_totalVotingPower sound]

end

theorem toInt_twoThirds (lower : 0 ≤ total.toInt)
    (upper : total.toInt < 2 ^ 60) : (total * 2 / 3).toInt = total.toInt * 2 / 3 := by
  have two : (2 : Int64).toInt = 2 := by decide
  have three : (3 : Int64).toInt = 3 := by decide
  have double : (total * 2).toInt = total.toInt * 2 := by
    rw [toInt_mul, two]
    rw [two]
    constructor <;> omega
  rw [toInt_div (by rw [three]; omega), double, three, Int.tdiv_eq_ediv_of_nonneg (by omega)]

theorem toInt_quorumOf (lower : 0 ≤ total.toInt) (upper : total.toInt < 2 ^ 60) :
    (quorumOf total).toInt = total.toInt * 2 / 3 + 1 := by
  have one : (1 : Int64).toInt = 1 := by decide
  have third := toInt_twoThirds lower upper
  rw [quorumOf, toInt_add, third, one]
  rw [third, one]
  constructor <;> omega

/-- A sum reaches the quorum exactly when it is more than two thirds of the total. -/
theorem quorumOf_le_iff (sound : valSet.Sound) {sum : Int64} :
    quorumOf valSet.totalVotingPower ≤ sum ↔
      2 * weight valSet.powerOf valSet.indices < 3 * sum.toInt := by
  obtain ⟨lower, upper⟩ := total_range sound
  rw [Int64.le_iff_toInt_le, toInt_quorumOf lower upper, weight_indices sound]
  omega

/-! ## Tables of votes -/

/-- What a vote set is for; no call changes it. -/
structure VoteSetHeader where
  chainId : Bytes
  height : Int64
  round : Int32
  signedMsgType : Int32
  valSet : ValidatorSet
  extensionsEnabled : Bool

def VoteSet.header (vs : VoteSet) : VoteSetHeader :=
  ⟨vs.chainId, vs.height, vs.round, vs.signedMsgType, vs.valSet, vs.extensionsEnabled⟩

/-- A vote of the validator at this index that was accepted and passed the checks. -/
structure Verified (crypto : Crypto) (Accepted : Vote → Prop) (header : VoteSetHeader) (i : Nat)
    (vote : Vote) : Prop where
  accepted : Accepted vote
  index : vote.validatorIndex.toInt = i
  height : vote.height = header.height
  round : vote.round = header.round
  type : vote.type = header.signedMsgType
  signed : ∃ val pubKey, header.valSet.validators[i]? = some val ∧ val.pubKey = some pubKey ∧
    val.address = vote.validatorAddress ∧
    verifyVote crypto header.chainId header.extensionsEnabled vote pubKey = .ok ()

/-- A table of verified votes with its bit array and its sum. -/
structure Tallied (crypto : Crypto) (Accepted : Vote → Prop) (header : VoteSetHeader)
    (votes : List (Option Vote)) (bitArray : List Bool) (sum : Int64) : Prop where
  length : votes.length = header.valSet.validators.length
  bits : bitArray = votes.map Option.isSome
  sum_eq : sum.toInt = weight header.valSet.powerOf (holders votes)
  verified : ∀ i vote, entry votes i = some vote → Verified crypto Accepted header i vote

theorem holders_subset_indices {header : VoteSetHeader} {votes : List (Option Vote)}
    (length : votes.length = header.valSet.validators.length) :
    holders votes ⊆ header.valSet.indices := by
  intro i mem
  rw [indices, ← length]
  exact (Finset.mem_filter.mp mem).1

theorem Tallied.empty (crypto : Crypto) (Accepted : Vote → Prop) (header : VoteSetHeader)
    {size : Nat} (length : size = header.valSet.validators.length) :
    Tallied crypto Accepted header (replicate size none) (replicate size false) 0 where
  length := by rw [length_replicate, length]
  bits := by rw [map_replicate]; rfl
  sum_eq := by rw [holders_replicate, weight_empty]; rfl
  verified := by simp

section

variable {crypto : Crypto} {Accepted : Vote → Prop} {header : VoteSetHeader}
  {votes : List (Option Vote)} {bitArray : List Bool} {sum : Int64} {vote : Vote}

theorem Tallied.add (sound : header.valSet.Sound)
    (tallied : Tallied crypto Accepted header votes bitArray sum)
    (found : header.valSet.validators[i]? = some val)
    (free : entry votes i = none) (verified : Verified crypto Accepted header i vote) :
    Tallied crypto Accepted header (votes.set i (some vote)) (bitArray.set i true)
      (sum + val.votingPower) := by
  have inside : i < votes.length := by
    rw [tallied.length]
    exact (List.getElem?_eq_some_iff.mp found).1
  have fresh : i ∉ holders votes := by
    rw [mem_holders, free]
    simp
  have total : weight header.valSet.powerOf (holders (votes.set i (some vote))) =
      sum.toInt + val.votingPower.toInt := by
    rw [holders_set inside, weight_insert fresh, tallied.sum_eq, powerOf_eq found]
  have length : (votes.set i (some vote)).length = header.valSet.validators.length := by
    rw [length_set, tallied.length]
  refine ⟨length, ?_, ?_, ?_⟩
  · rw [tallied.bits, map_set]
    rfl
  · have upper := weight_le_total sound (holders_subset_indices length)
    have lower := weight_nonneg (powerOf_nonneg sound)
      (holders (votes.set i (some vote)))
    have range := total_range sound
    rw [total] at upper lower ⊢
    exact toInt_add ⟨by omega, by omega⟩
  · intro j other held
    obtain ⟨rfl, rfl⟩ | ⟨-, old⟩ := entry_set_eq_some held
    · exact verified
    · exact tallied.verified j other old

theorem Tallied.replace (tallied : Tallied crypto Accepted header votes bitArray sum)
    {old : Vote} (held : entry votes i = some old)
    (verified : Verified crypto Accepted header i vote) :
    Tallied crypto Accepted header (votes.set i (some vote)) (bitArray.set i true) sum := by
  have inside := lt_length_of_entry held
  refine ⟨by rw [length_set, tallied.length], ?_, ?_, ?_⟩
  · rw [tallied.bits, map_set]
    rfl
  · rw [tallied.sum_eq, holders_set inside, Finset.insert_eq_of_mem]
    rw [mem_holders, held]
    rfl
  · intro j other there
    obtain ⟨rfl, rfl⟩ | ⟨-, old⟩ := entry_set_eq_some there
    · exact verified
    · exact tallied.verified j other old

theorem Tallied.overlay {top : List (Option Vote)} {topBits : List Bool} {topSum : Int64}
    (topTallied : Tallied crypto Accepted header top topBits topSum)
    (tallied : Tallied crypto Accepted header votes bitArray sum)
    (covered : holders top ⊆ holders votes) :
    Tallied crypto Accepted header (overlay top votes) bitArray sum := by
  have eq : top.length = votes.length := by rw [topTallied.length, tallied.length]
  have holdersSame := holders_overlay eq covered
  refine ⟨by rw [length_overlay eq, tallied.length], ?_, by rw [holdersSame, tallied.sum_eq], ?_⟩
  · rw [tallied.bits]
    apply ext_getElem
    · simp [length_overlay eq]
    · intro i inside other
      rw [length_map] at inside
      have iff : i ∈ holders (Ballot.overlay top votes) ↔ i ∈ holders votes := by rw [holdersSame]
      rw [mem_holders, mem_holders] at iff
      rw [length_map] at other
      rw [getElem_map, getElem_map]
      simp only [entry, getElem?_eq_getElem inside, getElem?_eq_getElem other,
        Option.join_some] at iff
      exact Bool.eq_iff_iff.mpr iff.symm
  · intro i vote held
    rw [entry_overlay eq] at held
    cases top : entry top i with
    | none =>
      rw [top] at held
      exact tallied.verified i vote held
    | some other =>
      rw [top] at held
      cases held
      exact topTallied.verified i vote top

end

variable {key : Bytes} {blocks : List BlockVotes} {blockVotes : BlockVotes}

theorem findBlock_eq_some (found : findBlock key blocks = some blockVotes) :
    blockVotes ∈ blocks ∧ blockVotes.key = key := by
  have matched : (blockVotes.key == key) = true :=
    find?_some (p := fun blockVotes : BlockVotes => blockVotes.key == key) found
  exact ⟨mem_of_find?_eq_some found, eq_of_beq matched⟩

theorem findBlock_eq_none (absent : findBlock key blocks = none) :
    ∀ blockVotes ∈ blocks, blockVotes.key ≠ key := by
  intro blockVotes mem eq
  have unequal := find?_eq_none.mp absent blockVotes mem
  exact unequal (beq_iff_eq.mpr eq)

theorem map_key_replaceBlock (same : blockVotes.key = key) (blocks : List BlockVotes) :
    (replaceBlock key blockVotes blocks).map BlockVotes.key = blocks.map BlockVotes.key := by
  induction blocks with
  | nil => rfl
  | cons head tail ih =>
    rw [replaceBlock]
    split
    next eq => rw [map_cons, map_cons, same, eq_of_beq eq]
    next => rw [map_cons, map_cons, ih]

theorem length_replaceBlock : (replaceBlock key blockVotes blocks).length = blocks.length := by
  induction blocks with
  | nil => rfl
  | cons head tail ih =>
    rw [replaceBlock]
    split
    next => rfl
    next => rw [length_cons, ih, length_cons]

theorem mem_of_mem_replaceBlock (mem : other ∈ replaceBlock key blockVotes blocks) :
    other = blockVotes ∨ other ∈ blocks := by
  induction blocks with
  | nil => cases mem
  | cons head tail ih =>
    rw [replaceBlock] at mem
    split at mem
    next =>
      rcases mem_cons.mp mem with new | old
      · exact Or.inl new
      · exact Or.inr (mem_cons_of_mem head old)
    next =>
      rcases mem_cons.mp mem with first | later
      · exact Or.inr (first ▸ mem_cons_self)
      · rcases ih later with new | old
        · exact Or.inl new
        · exact Or.inr (mem_cons_of_mem head old)

theorem mem_replaceBlock_self {old : BlockVotes} (found : findBlock key blocks = some old) :
    blockVotes ∈ replaceBlock key blockVotes blocks := by
  induction blocks with
  | nil => cases found
  | cons head tail ih =>
    rw [replaceBlock]
    split
    next => exact mem_cons_self
    next unequal =>
      have later : findBlock key tail = some old := by
        simpa [findBlock, find?_cons, unequal] using found
      exact mem_cons_of_mem head (ih later)

theorem mem_replaceBlock_of_ne (mem : other ∈ blocks) (apart : other.key ≠ key) :
    other ∈ replaceBlock key blockVotes blocks := by
  induction blocks with
  | nil => cases mem
  | cons head tail ih =>
    rw [replaceBlock]
    split
    next eq =>
      rcases mem_cons.mp mem with first | later
      · exact absurd (first ▸ eq_of_beq eq) apart
      · exact mem_cons_of_mem blockVotes later
    next =>
      rcases mem_cons.mp mem with first | later
      · exact first ▸ mem_cons_self
      · exact mem_cons_of_mem head (ih later)

/-- The votes for a tracked block are verified, and their validators have canonical votes. -/
structure TrackedBy (crypto : Crypto) (Accepted : Vote → Prop) (vs : VoteSet)
    (blockVotes : BlockVotes) : Prop where
  tallied : Tallied crypto Accepted vs.header blockVotes.votes blockVotes.bitArray blockVotes.sum
  keyed : ∀ i vote, entry blockVotes.votes i = some vote → vote.blockId.key = .ok blockVotes.key
  covered : holders blockVotes.votes ⊆ holders vs.votes

/-- The majority block: it is the block of a vote for it, has reached the quorum, and its votes are
canonical. -/
structure MajorityBlock (vs : VoteSet) (id : BlockId) (blockVotes : BlockVotes) : Prop where
  keyed : id.key = .ok blockVotes.key
  named : ∃ i vote, entry blockVotes.votes i = some vote ∧ vote.blockId = id
  reached : quorumOf vs.valSet.totalVotingPower ≤ blockVotes.sum
  canonical : ∀ i vote, entry blockVotes.votes i = some vote → entry vs.votes i = some vote

structure Bookkeeping (crypto : Crypto) (Accepted : Vote → Prop) (vs : VoteSet) : Prop where
  sound : vs.valSet.Sound
  canonical : Tallied crypto Accepted vs.header vs.votes vs.votesBitArray vs.sum
  tracked : ∀ blockVotes ∈ vs.votesByBlock, TrackedBy crypto Accepted vs blockVotes
  distinct : (vs.votesByBlock.map BlockVotes.key).Nodup
  unset : vs.maj23 = none → ∀ blockVotes ∈ vs.votesByBlock,
    blockVotes.sum < quorumOf vs.valSet.totalVotingPower
  majority : ∀ id, vs.maj23 = some id → ∃ blockVotes ∈ vs.votesByBlock,
    MajorityBlock vs id blockVotes

/-- A call gives validators canonical votes and takes none, and a majority block stays. -/
structure VoteSet.Extends (before after : VoteSet) : Prop where
  header : after.header = before.header
  holders : holders before.votes ⊆ holders after.votes
  majority : ∀ id, before.maj23 = some id → after.maj23 = some id

theorem VoteSet.Extends.refl (vs : VoteSet) : vs.Extends vs :=
  ⟨rfl, Finset.Subset.refl _, fun _ set => set⟩

theorem VoteSet.Extends.trans {first second third : VoteSet} (before : first.Extends second)
    (after : second.Extends third) : first.Extends third where
  header := after.header.trans before.header
  holders := before.holders.trans after.holders
  majority := fun id set => after.majority id (before.majority id set)

variable {crypto : Crypto} {Accepted : Vote → Prop} {vs : VoteSet}

theorem Bookkeeping.unique (kept : Bookkeeping crypto Accepted vs)
    (firstTracked : first ∈ vs.votesByBlock) (secondTracked : second ∈ vs.votesByBlock)
    (eq : first.key = second.key) :
    first = second :=
  inj_on_of_nodup_map kept.distinct firstTracked secondTracked eq

/-! ## One vote -/

/-- What `add_vote` has established when it adds a vote. -/
structure Admitted (crypto : Crypto) (Accepted : Vote → Prop) (vs : VoteSet) (vote : Vote)
    (key : Bytes) (val : Validator) : Prop where
  keyed : vote.blockId.key = .ok key
  found : vs.valSet.validators[vote.index]? = some val
  verified : Verified crypto Accepted vs.header vote.index vote
  untracked : ∀ blockVotes, findBlock key vs.votesByBlock = some blockVotes →
    entry blockVotes.votes vote.index = none

/-- What placing a vote does to the canonical votes. -/
structure Placed (crypto : Crypto) (Accepted : Vote → Prop) (vs placed : VoteSet) (vote : Vote)
    (key : Bytes) (conflicting : Option Vote) : Prop where
  rest : placed =
    { vs with votes := placed.votes, votesBitArray := placed.votesBitArray, sum := placed.sum }
  canonical : Tallied crypto Accepted vs.header placed.votes placed.votesBitArray placed.sum
  others : ∀ j, j ≠ vote.index → entry placed.votes j = entry vs.votes j
  held : (entry placed.votes vote.index).isSome
  fresh : conflicting = none → entry placed.votes vote.index = some vote
  chosen : ∀ id, vs.maj23 = some id → id.key = .ok key → entry placed.votes vote.index = some vote
  kept : (entry vs.votes vote.index).isSome →
    (∀ id, vs.maj23 = some id → id.key ≠ .ok key) →
      entry placed.votes vote.index = entry vs.votes vote.index

section

variable {crypto : Crypto} {Accepted : Vote → Prop} {vs : VoteSet} {vote : Vote} {key : Bytes}
  {val : Validator} {placed : VoteSet} {conflicting : Option Vote}

section

variable (kept : Bookkeeping crypto Accepted vs)

include kept

theorem placed_of_placeVote (admitted : Admitted crypto Accepted vs vote key val)
    (place : vs.placeVote vote key val.votingPower = .ok (placed, conflicting)) :
    Placed crypto Accepted vs placed vote key conflicting := by
  have inside : vote.index < vs.votes.length := by
    rw [kept.canonical.length]
    exact (List.getElem?_eq_some_iff.mp admitted.found).1
  have others : ∀ j, j ≠ vote.index →
      entry (vs.votes.set vote.index (some vote)) j = entry vs.votes j := by
    intro j apart
    exact entry_set_ne _ (Ne.symm apart) _
  have written := entry_set_self inside (some vote)
  unfold VoteSet.placeVote at place
  cases there : entry vs.votes vote.index with
  | none =>
    simp only [there] at place
    cases place
    exact {
      rest := rfl
      canonical := kept.canonical.add kept.sound admitted.found there admitted.verified
      others := others
      held := Option.isSome_iff_exists.mpr ⟨vote, written⟩
      fresh := fun _ => written
      chosen := fun _ _ _ => written
      kept := fun held => by rw [there] at held; cases held }
  | some existing =>
    have unchanged : (∀ id, vs.maj23 = some id → id.key ≠ .ok key) →
        Placed crypto Accepted vs vs vote key (some existing) := by
      intro apart
      exact {
        rest := rfl
        canonical := kept.canonical
        others := fun _ _ => rfl
        held := by rw [there]; rfl
        fresh := fun absent => by cases absent
        chosen := fun id set eq => absurd eq (apart id set)
        kept := fun _ _ => rfl }
    simp only [there] at place
    obtain ⟨-, place⟩ := ite_error_eq_ok.mp place
    split at place
    next unset =>
      cases place
      exact unchanged fun id set => by rw [unset] at set; cases set
    next maj23 set =>
      split at place
      next => cases place
      next majorityKey keyed =>
        split at place
        next eq =>
          cases place
          exact {
            rest := rfl
            canonical := kept.canonical.replace there admitted.verified
            others := others
            held := Option.isSome_iff_exists.mpr ⟨vote, written⟩
            fresh := fun absent => by cases absent
            chosen := fun _ _ _ => written
            kept := fun _ apart => absurd (eq ▸ keyed) (apart maj23 set) }
        next apart =>
          cases place
          apply unchanged
          intro id other eq
          rw [set] at other
          cases other
          rw [keyed] at eq
          exact apart (Except.ok.inj eq)

theorem Placed.bookkeeping (admitted : Admitted crypto Accepted vs vote key val)
    (place : Placed crypto Accepted vs placed vote key conflicting) :
    Bookkeeping crypto Accepted placed ∧ vs.Extends placed := by
  have rest := place.rest
  have grow : holders vs.votes ⊆ holders placed.votes := by
    intro j mem
    by_cases same : j = vote.index
    · rw [same, mem_holders]
      exact place.held
    · rw [mem_holders, place.others j same]
      exact mem_holders.mp mem
  rw [rest]
  refine ⟨⟨kept.sound, place.canonical, ?_, kept.distinct, kept.unset, ?_⟩, rfl, grow,
    fun _ set => set⟩
  · intro blockVotes mem
    have tracked := kept.tracked blockVotes mem
    exact ⟨tracked.tallied, tracked.keyed, tracked.covered.trans grow⟩
  · intro id set
    obtain ⟨blockVotes, mem, majority⟩ := kept.majority id set
    refine ⟨blockVotes, mem, majority.keyed, majority.named, majority.reached, ?_⟩
    intro j other recorded
    have canonical := majority.canonical j other recorded
    by_cases same : j = vote.index
    · subst same
      have apart : ∀ majorityId, vs.maj23 = some majorityId →
          majorityId.key ≠ .ok key := by
        intro majorityId alsoSet sameKey
        rw [set] at alsoSet
        cases alsoSet
        rw [majority.keyed] at sameKey
        -- the majority block would be the tracked block of this vote
        cases found : findBlock key vs.votesByBlock with
        | none => exact findBlock_eq_none found blockVotes mem (Except.ok.inj sameKey)
        | some own =>
          obtain ⟨ownTracked, ownKey⟩ := findBlock_eq_some found
          have eq := kept.unique mem ownTracked
            ((Except.ok.inj sameKey).trans ownKey.symm)
          have free := admitted.untracked own found
          rw [← eq, recorded] at free
          cases free
      have held : (entry vs.votes vote.index).isSome := by
        rw [canonical]
        rfl
      exact (place.kept held apart).trans canonical
    · exact (place.others j same).trans canonical

variable {blockVotes : BlockVotes}

theorem newBlockVotes_bookkeeping {peerMaj23 : Bool} (absent : findBlock key vs.votesByBlock = none)
    {tracked : VoteSet} (new : newBlockVotes vs peerMaj23 key = .ok (blockVotes, tracked)) :
    Bookkeeping crypto Accepted tracked ∧ vs.Extends tracked ∧
      tracked = { vs with votesByBlock := vs.votesByBlock ++ [blockVotes] } ∧
      blockVotes.key = key ∧ ∀ i, entry blockVotes.votes i = none := by
  simp only [newBlockVotes, ite_error_eq_ok] at new
  obtain ⟨-, -, new⟩ := new
  cases new
  have pos : (0 : Int64) < quorumOf vs.valSet.totalVotingPower := by
    obtain ⟨lower, upper⟩ := total_range kept.sound
    rw [Int64.lt_iff_toInt_lt, toInt_quorumOf lower upper, Int64.toInt_zero]
    omega
  refine ⟨⟨kept.sound, kept.canonical, ?_, ?_, ?_, ?_⟩,
    ⟨rfl, Finset.Subset.refl _, fun _ set => set⟩, rfl, rfl, by simp⟩
  · intro other mem
    rcases mem_append.mp mem with old | new
    · have tracked := kept.tracked other old
      exact ⟨tracked.tallied, tracked.keyed, tracked.covered⟩
    · cases mem_singleton.mp new
      exact ⟨Tallied.empty crypto Accepted _ kept.canonical.length, by simp, by simp⟩
  · rw [map_append, nodup_append]
    refine ⟨kept.distinct, by simp, ?_⟩
    intro first firstKey second secondKey
    obtain ⟨other, mem, rfl⟩ := mem_map.mp firstKey
    rw [map_singleton, mem_singleton] at secondKey
    rw [secondKey]
    exact findBlock_eq_none absent other mem
  · intro unset other mem
    rcases mem_append.mp mem with old | new
    · exact kept.unset unset other old
    · cases mem_singleton.mp new
      exact pos
  · intro id set
    obtain ⟨other, mem, majority⟩ := kept.majority id set
    exact ⟨other, mem_append_left _ mem, majority.keyed, majority.named,
      majority.reached, majority.canonical⟩

end

theorem BlockVotes.addVerifiedVote_eq (free : entry blockVotes.votes vote.index = none)
    (votingPower : Int64) :
    blockVotes.addVerifiedVote vote votingPower =
      { blockVotes with
        bitArray := blockVotes.bitArray.set vote.index true
        votes := blockVotes.votes.set vote.index (some vote)
        sum := blockVotes.sum + votingPower } := by
  rw [addVerifiedVote, free]

theorem entry_addVerifiedVote_of_some (votingPower : Int64) {other : Vote}
    (free : entry blockVotes.votes vote.index = none)
    (recorded : entry blockVotes.votes i = some other) :
    entry (blockVotes.addVerifiedVote vote votingPower).votes i = some other := by
  have apart : vote.index ≠ i := by
    intro eq
    rw [← eq, free] at recorded
    cases recorded
  rw [addVerifiedVote_eq free]
  exact (entry_set_ne _ apart _).trans recorded

section

variable {blockVotes : BlockVotes} (kept : Bookkeeping crypto Accepted vs)
  (admitted : Admitted crypto Accepted vs vote key val)
  (found : findBlock key vs.votesByBlock = some blockVotes)
  (held : (entry vs.votes vote.index).isSome)

include kept admitted found held

theorem trackedBy_addVerifiedVote :
    TrackedBy crypto Accepted vs (blockVotes.addVerifiedVote vote val.votingPower) := by
  obtain ⟨mem, sameKey⟩ := findBlock_eq_some found
  have free := admitted.untracked blockVotes found
  have tracked := kept.tracked blockVotes mem
  have inside : vote.index < blockVotes.votes.length := by
    rw [tracked.tallied.length]
    exact (List.getElem?_eq_some_iff.mp admitted.found).1
  rw [addVerifiedVote_eq free]
  refine ⟨tracked.tallied.add kept.sound admitted.found free admitted.verified, ?_, ?_⟩
  · intro j other there
    obtain ⟨-, rfl⟩ | ⟨-, old⟩ := entry_set_eq_some there
    · rw [admitted.keyed, ← sameKey]
    · exact tracked.keyed j other old
  · change holders (blockVotes.votes.set vote.index (some vote)) ⊆ _
    rw [holders_set inside]
    exact Finset.insert_subset (mem_holders.mpr held) tracked.covered

omit held in
theorem entry_addVerifiedVote_self :
    entry (blockVotes.addVerifiedVote vote val.votingPower).votes vote.index = some vote := by
  have free := admitted.untracked blockVotes found
  rw [addVerifiedVote_eq free]
  apply entry_set_self
  rw [(kept.tracked blockVotes (findBlock_eq_some found).1).tallied.length]
  exact (List.getElem?_eq_some_iff.mp admitted.found).1

theorem sum_le_addVerifiedVote :
    blockVotes.sum ≤ (blockVotes.addVerifiedVote vote val.votingPower).sum := by
  have before := (kept.tracked blockVotes (findBlock_eq_some found).1).tallied
  have after := (trackedBy_addVerifiedVote kept admitted found held).tallied
  rw [Int64.le_iff_toInt_le, before.sum_eq, after.sum_eq]
  apply weight_mono (powerOf_nonneg kept.sound)
  intro j mem
  obtain ⟨other, recorded⟩ := Option.isSome_iff_exists.mp (mem_holders.mp mem)
  rw [mem_holders, entry_addVerifiedVote_of_some _ (admitted.untracked blockVotes found) recorded]
  rfl

theorem tracked_replaceBlock
    (mem : other ∈ replaceBlock key (blockVotes.addVerifiedVote vote val.votingPower)
      vs.votesByBlock) : TrackedBy crypto Accepted vs other := by
  rcases mem_of_mem_replaceBlock mem with new | old
  · exact new ▸ trackedBy_addVerifiedVote kept admitted found held
  · exact kept.tracked other old

theorem recordVote_bookkeeping
    (chosen : ∀ id, vs.maj23 = some id → id.key = .ok key → entry vs.votes vote.index = some vote)
    (conflicting : Option Vote) :
    Bookkeeping crypto Accepted (vs.recordVote blockVotes vote val.votingPower conflicting).2 ∧
      vs.Extends (vs.recordVote blockVotes vote val.votingPower conflicting).2 ∧
      (vs.recordVote blockVotes vote val.votingPower conflicting).1 =
        ⟨.ok (), true, .none, conflicting⟩ := by
  obtain ⟨mem, sameKey⟩ := findBlock_eq_some found
  have free := admitted.untracked blockVotes found
  have recordedKey : (blockVotes.addVerifiedVote vote val.votingPower).key = key := by
    rw [addVerifiedVote_eq free]
    exact sameKey
  have recorded := trackedBy_addVerifiedVote kept admitted found held
  have rises := sum_le_addVerifiedVote kept admitted found held
  have written := entry_addVerifiedVote_self kept admitted found
  have distinct : ((replaceBlock key (blockVotes.addVerifiedVote vote val.votingPower)
      vs.votesByBlock).map BlockVotes.key).Nodup := by
    rw [map_key_replaceBlock recordedKey]
    exact kept.distinct
  simp only [VoteSet.recordVote, totalPower_eq kept.sound, sameKey]
  split
  next crossing =>
    obtain ⟨-, reached, unset⟩ := crossing
    have same : (blockVotes.addVerifiedVote vote val.votingPower).votes.length =
        vs.votes.length := by
      rw [recorded.tallied.length, kept.canonical.length]
    have holdersSame := holders_overlay same recorded.covered
    refine ⟨⟨kept.sound, recorded.tallied.overlay kept.canonical recorded.covered, ?_, distinct,
      (fun absent => nomatch absent), ?_⟩, ⟨rfl, holdersSame.symm ▸ Finset.Subset.refl _, ?_⟩,
      trivial⟩
    · intro other inside
      have tracked := tracked_replaceBlock kept admitted found held inside
      exact ⟨tracked.tallied, tracked.keyed, holdersSame.symm ▸ tracked.covered⟩
    · intro id set
      cases set
      refine ⟨_, mem_replaceBlock_self found, ?_, ⟨vote.index, vote, written, rfl⟩, reached, ?_⟩
      · rw [recordedKey]
        exact admitted.keyed
      · intro j other there
        change entry (overlay _ _) j = _
        rw [entry_overlay same, there]
        rfl
    · intro id set
      rw [show vs.maj23 = none from unset] at set
      cases set
  next staying =>
    refine ⟨⟨kept.sound, kept.canonical, ?_, distinct, ?_, ?_⟩,
      ⟨rfl, Finset.Subset.refl _, fun _ set => set⟩, trivial⟩
    · intro other inside
      have tracked := tracked_replaceBlock kept admitted found held inside
      exact ⟨tracked.tallied, tracked.keyed, tracked.covered⟩
    · intro unset other inside
      rcases mem_of_mem_replaceBlock inside with new | old
      · rw [new]
        have below := kept.unset unset blockVotes mem
        exact Int64.not_le.mp fun reached => staying ⟨below, reached, unset⟩
      · exact kept.unset unset other old
    · intro id set
      obtain ⟨majorityVotes, inside, majority⟩ := kept.majority id set
      by_cases own : majorityVotes.key = key
      · have eq := kept.unique inside mem (own.trans sameKey.symm)
        subst eq
        refine ⟨_, mem_replaceBlock_self found, ?_, ?_, Int64.le_trans majority.reached rises, ?_⟩
        · rw [recordedKey, ← own]
          exact majority.keyed
        · obtain ⟨j, other, there, names⟩ := majority.named
          exact ⟨j, other, entry_addVerifiedVote_of_some _ free there, names⟩
        · intro j other there
          rw [addVerifiedVote_eq free] at there
          obtain ⟨rfl, rfl⟩ | ⟨-, old⟩ := entry_set_eq_some there
          · exact chosen id set (own ▸ majority.keyed)
          · exact majority.canonical j other old
      · exact ⟨majorityVotes, mem_replaceBlock_of_ne inside own, majority.keyed, majority.named,
          majority.reached, majority.canonical⟩

end

theorem Placed.admitted (admitted : Admitted crypto Accepted vs vote key val)
    (place : Placed crypto Accepted vs placed vote key conflicting) :
    Admitted crypto Accepted placed vote key val := by
  rw [place.rest]
  exact ⟨admitted.keyed, admitted.found, admitted.verified, admitted.untracked⟩

theorem findBlock_append_new (absent : findBlock key blocks = none) (eq : blockVotes.key = key) :
    findBlock key (blocks ++ [blockVotes]) = some blockVotes := by
  rw [findBlock] at absent
  rw [findBlock, find?_append, absent]
  simp [eq]

theorem addVerifiedVote_bookkeeping (kept : Bookkeeping crypto Accepted vs)
    (admitted : Admitted crypto Accepted vs vote key val) :
    Bookkeeping crypto Accepted (vs.addVerifiedVote vote key val.votingPower).2 ∧
      vs.Extends (vs.addVerifiedVote vote key val.votingPower).2 := by
  rw [VoteSet.addVerifiedVote]
  split
  next => exact ⟨kept, .refl vs⟩
  next placed conflicting place =>
    have place := placed_of_placeVote kept admitted place
    obtain ⟨placedKept, grown⟩ := place.bookkeeping kept admitted
    have placedAdmitted := place.admitted admitted
    have chosen : ∀ id, placed.maj23 = some id → id.key = .ok key →
        entry placed.votes vote.index = some vote := by
      intro id set
      rw [place.rest] at set
      exact place.chosen id set
    split
    next blockVotes found =>
      split
      next => exact ⟨placedKept, grown⟩
      next =>
        obtain ⟨recorded, more, -⟩ := recordVote_bookkeeping placedKept placedAdmitted found
          place.held chosen conflicting
        exact ⟨recorded, grown.trans more⟩
    next absent =>
      split
      next => exact ⟨placedKept, grown⟩
      next =>
        split
        next => exact ⟨placedKept, grown⟩
        next => exact ⟨placedKept, grown⟩
        next blockVotes tracked new =>
          obtain ⟨trackedKept, trackedExtends, rest, sameKey, empty⟩ :=
            newBlockVotes_bookkeeping placedKept absent new
          have found : findBlock key tracked.votesByBlock = some blockVotes := by
            rw [rest]
            exact findBlock_append_new absent sameKey
          have trackedAdmitted : Admitted crypto Accepted tracked vote key val := by
            refine ⟨admitted.keyed, rest ▸ placedAdmitted.found, rest ▸ placedAdmitted.verified, ?_⟩
            intro other otherFound
            rw [found] at otherFound
            cases otherFound
            exact empty vote.index
          have sameVotes : tracked.votes = placed.votes := by rw [rest]
          have sameMajority : tracked.maj23 = placed.maj23 := by rw [rest]
          obtain ⟨recorded, more, -⟩ := recordVote_bookkeeping trackedKept trackedAdmitted found
            (sameVotes ▸ place.held) (sameVotes ▸ sameMajority ▸ chosen) conflicting
          exact ⟨recorded, (grown.trans trackedExtends).trans more⟩

theorem checkVote_eq_ok (fine : vs.checkVote vote = .ok (key, val)) :
    vote.blockId.key = .ok key ∧ vote.validatorIndex.toInt = vote.index ∧
      vote.height = vs.height ∧ vote.round = vs.round ∧ vote.type = vs.signedMsgType ∧
      vs.valSet.validators[vote.index]? = some val ∧ val.address = vote.validatorAddress := by
  unfold VoteSet.checkVote at fine
  split at fine
  next => cases fine
  next blockKey keyed =>
    simp only [ite_error_eq_ok] at fine
    obtain ⟨nonneg, -, step, fine⟩ := fine
    split at fine
    next => cases fine
    next found =>
      simp only [ite_error_eq_ok] at fine
      obtain ⟨-, address, fine⟩ := fine
      cases fine
      have lower := Int32.le_iff_toInt_le.mp (Int32.not_lt.mp nonneg)
      rw [Int32.toInt_zero] at lower
      simp only [not_or, not_not] at step
      exact ⟨keyed, (Int.toNat_of_nonneg lower).symm, step.1, step.2.1, step.2.2, found,
        not_not.mp address⟩

theorem untracked_of_getVote (absent : vs.getVote i key = none) :
    ∀ blockVotes, findBlock key vs.votesByBlock = some blockVotes →
      entry blockVotes.votes i = none := by
  intro blockVotes found
  unfold VoteSet.getVote at absent
  simp only [found, Option.bind_some] at absent
  split at absent
  next =>
    split at absent
    next => cases absent
    next => exact absent
  next => exact absent

theorem addVote_cases (crypto : Crypto) (vs : VoteSet) (vote : Vote) :
    ((vs.addVote crypto vote).2 = vs ∧ (vs.addVote crypto vote).1.error ≠ .blockCapacity) ∨
      ∃ key val pubKey, vs.checkVote vote = .ok (key, val) ∧
        vs.getVote vote.index key = none ∧ val.pubKey = some pubKey ∧
        verifyVote crypto vs.chainId vs.extensionsEnabled vote pubKey = .ok () ∧
        (vs.addVote crypto vote).2 = (vs.addVerifiedVote vote key val.votingPower).2 ∧
        ((vs.addVote crypto vote).1.error = .blockCapacity →
          (vs.addVerifiedVote vote key val.votingPower).1.error = .blockCapacity) := by
  rw [VoteSet.addVote]
  split
  next refused => exact .inl ⟨rfl, by grind [VoteSet.checkVote, AddOutcome.failed]⟩
  next key val fine =>
    split
    next => exact .inl (by split_ifs <;> exact ⟨rfl, nofun⟩)
    next absent =>
      split
      next => exact .inl ⟨rfl, nofun⟩
      next pubKey there =>
        split
        next refused => exact .inl ⟨rfl, by grind [verifyVote, AddOutcome.failed]⟩
        next good =>
          refine .inr ⟨key, val, pubKey, fine, absent, there, good, ?_⟩
          split <;> rename_i eq <;> rw [eq] <;> refine ⟨rfl, ?_⟩
          · exact id
          · nofun
          · split <;> exact id

theorem addVote_bookkeeping (kept : Bookkeeping crypto Accepted vs) (vote : Vote)
    (passed : Accepted vote) :
    Bookkeeping crypto Accepted (vs.addVote crypto vote).2 ∧
      vs.Extends (vs.addVote crypto vote).2 := by
  obtain ⟨eq, -⟩ | ⟨key, val, pubKey, fine, absent, there, good, eq, -⟩ :=
    addVote_cases crypto vs vote
  · rw [eq]
    exact ⟨kept, .refl vs⟩
  · obtain ⟨keyed, index, height, round, type, found, address⟩ := checkVote_eq_ok fine
    have admitted : Admitted crypto Accepted vs vote key val :=
      ⟨keyed, found, ⟨passed, index, height, round, type, val, pubKey, found, there,
        address, good⟩, untracked_of_getVote absent⟩
    rw [eq]
    exact addVerifiedVote_bookkeeping kept admitted

end

/-- A tracked block without the mark that a peer has claimed it. -/
def BlockVotes.unclaimed (blockVotes : BlockVotes) : BlockVotes :=
  { blockVotes with peerMaj23 := false }

theorem BlockVotes.unclaimed_eq (eq : first.unclaimed = second.unclaimed) :
    first.key = second.key ∧ first.bitArray = second.bitArray ∧ first.votes = second.votes ∧
      first.sum = second.sum := by
  rw [unclaimed, unclaimed, mk.injEq] at eq
  exact ⟨eq.1, eq.2.2.1, eq.2.2.2.1, eq.2.2.2.2⟩

theorem map_unclaimed_replaceBlock (found : findBlock key blocks = some blockVotes) :
    (replaceBlock key { blockVotes with peerMaj23 := true } blocks).map unclaimed =
      blocks.map unclaimed := by
  induction blocks with
  | nil => rfl
  | cons head tail ih =>
    rw [replaceBlock]
    split
    next eq =>
      have same : head = blockVotes := by
        simpa [findBlock, find?_cons, eq] using found
      rw [map_cons, map_cons, same]
      rfl
    next unequal =>
      have later : findBlock key tail = some blockVotes := by
        simpa [findBlock, find?_cons, unequal] using found
      rw [map_cons, map_cons, ih later]

theorem Bookkeeping.of_unclaimed (kept : Bookkeeping crypto Accepted vs) (claims : List PeerMaj23)
    (same : blocks.map unclaimed = vs.votesByBlock.map unclaimed) :
    Bookkeeping crypto Accepted { vs with votesByBlock := blocks, peerMaj23s := claims } := by
  have counterpart : ∀ {first second : List BlockVotes},
      first.map unclaimed = second.map unclaimed →
      ∀ blockVotes ∈ first, ∃ other ∈ second, other.unclaimed = blockVotes.unclaimed := by
    intro first second eq blockVotes mem
    have mapped := mem_map_of_mem (f := unclaimed) mem
    rw [eq] at mapped
    exact mem_map.mp mapped
  refine ⟨kept.sound, kept.canonical, ?_, ?_, ?_, ?_⟩
  · intro blockVotes mem
    obtain ⟨other, inside, eq⟩ := counterpart same blockVotes mem
    obtain ⟨tallied, keyed, covered⟩ := kept.tracked other inside
    obtain ⟨sameKey, sameBits, sameVotes, sameSum⟩ := unclaimed_eq eq
    rw [sameBits, sameVotes, sameSum] at tallied
    rw [sameKey, sameVotes] at keyed
    rw [sameVotes] at covered
    exact ⟨tallied, keyed, covered⟩
  · have keys := congrArg (map key) same
    rw [map_map, map_map] at keys
    exact (show blocks.map key = vs.votesByBlock.map key from keys) ▸
      kept.distinct
  · intro unset blockVotes mem
    obtain ⟨other, inside, eq⟩ := counterpart same blockVotes mem
    have below := kept.unset unset other inside
    rwa [(unclaimed_eq eq).2.2.2] at below
  · intro id set
    obtain ⟨blockVotes, mem, majority⟩ := kept.majority id set
    obtain ⟨other, inside, eq⟩ := counterpart same.symm blockVotes mem
    obtain ⟨sameKey, -, sameVotes, sameSum⟩ := unclaimed_eq eq
    refine ⟨other, inside, sameKey ▸ majority.keyed, ?_, sameSum ▸ majority.reached, ?_⟩
    · rw [sameVotes]
      exact majority.named
    · rw [sameVotes]
      exact majority.canonical

theorem setPeerMaj23_bookkeeping (kept : Bookkeeping crypto Accepted vs) (peer : PeerId)
    (id : BlockId) :
    Bookkeeping crypto Accepted (vs.setPeerMaj23 peer id).2 ∧
      vs.Extends (vs.setPeerMaj23 peer id).2 := by
  rw [VoteSet.setPeerMaj23]
  split
  next => exact ⟨kept, .refl vs⟩
  next key keyed =>
    split
    next => split <;> exact ⟨kept, .refl vs⟩
    next =>
      split
      next => exact ⟨kept, .refl vs⟩
      next =>
        have claimed := kept.of_unclaimed (vs.peerMaj23s ++ [⟨peer, id⟩]) rfl
        have grown : vs.Extends { vs with peerMaj23s := vs.peerMaj23s ++ [⟨peer, id⟩] } :=
          ⟨rfl, Finset.Subset.refl _, fun _ set => set⟩
        dsimp only
        split
        next blockVotes found =>
          refine ⟨kept.of_unclaimed _ (map_unclaimed_replaceBlock found), ?_⟩
          exact ⟨rfl, Finset.Subset.refl _, fun _ set => set⟩
        next absent =>
          split
          next => exact ⟨claimed, grown⟩
          next => exact ⟨claimed, grown⟩
          next blockVotes tracked new =>
            obtain ⟨trackedKept, more, -⟩ := newBlockVotes_bookkeeping claimed absent new
            exact ⟨trackedKept, grown.trans more⟩

end DnaLedger.Cmt
