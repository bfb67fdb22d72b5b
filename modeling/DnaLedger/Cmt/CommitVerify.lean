import DnaLedger.Cmt.Commit
import DnaLedger.Cmt.VoteTally

/-!
# What verification accepts

By index the loop accepts exactly the commits with a good prefix: every entry in it that the mode
does not ignore is signed by its validator, and those for the block hold more than the power needed.
-/

namespace DnaLedger.Cmt

open Ballot SInt64 SigPolicy ValidatorSet Int64 Commit

/-- An entry at the index of a validator that carries its address and verifies with its key. -/
abbrev Commit.VerifiesAt (crypto : Crypto) (chainId : Bytes) (vals : ValidatorSet)
    (commit : Commit) (i : Nat) (sig : CommitSig) : Prop :=
  ∃ val pubKey signBytes, vals.validators[i]? = some val ∧
    val.address = sig.validatorAddress ∧ val.pubKey = some pubKey ∧
    commit.voteSignBytes chainId (Int32.ofNat i) = .ok signBytes ∧
    crypto.verify sig.signature signBytes pubKey = true

/-- A good entry: it is well formed and verifies at its index. -/
structure Commit.SignedAt (crypto : Crypto) (chainId : Bytes) (vals : ValidatorSet)
    (commit : Commit) (i : Nat) (sig : CommitSig) : Prop where
  valid : sig.validateBasic = true
  short : sig.signature.length ≤ maxSignatureSize
  signed : commit.VerifiesAt crypto chainId vals i sig

/-- The validators among the first `count` that voted for the block. -/
def Commit.forBlock (commit : Commit) (count : Nat) : Finset Nat :=
  (Finset.range count).filter fun i =>
    commit.signatures[i]?.map CommitSig.blockIdFlag = some blockIdFlagCommit

theorem Commit.mem_forBlock {commit : Commit} {count i : Nat} :
    i ∈ commit.forBlock count ↔
      i < count ∧ commit.signatures[i]?.map CommitSig.blockIdFlag = some blockIdFlagCommit := by
  rw [forBlock, Finset.mem_filter, Finset.mem_range]

theorem Commit.forBlock_succ {commit : Commit} {count : Nat} {sig : CommitSig}
    (found : commit.signatures[count]? = some sig) :
    commit.forBlock (count + 1) =
      if sig.blockIdFlag = blockIdFlagCommit then insert count (commit.forBlock count)
      else commit.forBlock count := by
  rw [forBlock, Finset.range_add_one, Finset.filter_insert, found]
  simp only [Option.map_some, Option.some.injEq]
  rfl

variable {crypto : Crypto} {chainId : Bytes} {vals : ValidatorSet} {commit : Commit}
  {seen : List Nat} {i : Nat} {sig : CommitSig} {val : Validator}

theorem Commit.SignedAt.verifyCommitSig (signed : commit.SignedAt crypto chainId vals i sig)
    (found : vals.validators[i]? = some val) :
    verifyCommitSig crypto chainId commit i sig val = .ok () := by
  obtain ⟨other, pubKey, signBytes, otherFound, -, keyed, bytes, good⟩ := signed.signed
  rw [found] at otherFound
  cases otherFound
  simp [Cmt.verifyCommitSig, keyed, bytes, Nat.not_lt.mpr signed.short, good, bind, Except.bind]

theorem signedAt_iff (crypto : Crypto) (chainId : Bytes) (commit : Commit) (seen : List Nat)
    (flagged : sig.blockIdFlag ≠ blockIdFlagAbsent) (found : vals.validators[i]? = some val) :
    commit.SignedAt crypto chainId vals i sig ↔
      sig.validateBasic = true ∧ signerOf vals true seen i sig = .ok (some (val, seen)) ∧
        verifyCommitSig crypto chainId commit i sig val = .ok () := by
  constructor
  · intro signed
    obtain ⟨other, -, -, otherFound, address, -⟩ := signed.signed
    rw [found] at otherFound
    cases otherFound
    exact ⟨signed.valid, by simp [signerOf, found, address], signed.verifyCommitSig found⟩
  · rintro ⟨valid, signer, fine⟩
    have address : val.address = sig.validatorAddress := by
      by_contra apart
      simp [signerOf, found, Ne.symm apart] at signer
    have short : sig.signature.length ≤ maxSignatureSize := by
      simp only [CommitSig.validateBasic, flagged, if_false, Bool.and_eq_true,
        decide_eq_true_eq] at valid
      exact valid.2
    unfold verifyCommitSig at fine
    split at fine
    next => cases fine
    next pubKey keyed =>
      obtain ⟨signBytes, bytes, rest⟩ := bind_eq_ok.mp fine
      rw [if_neg (Nat.not_lt.mpr short)] at rest
      obtain ⟨good, rest⟩ := ite_error_eq_ok.mp rest
      exact ⟨valid, short, val, pubKey, signBytes, found, address, keyed, bytes,
        by simpa using good⟩

theorem Commit.getVote_eq_ok {valIdx : Int32} {vote : Vote}
    (read : commit.getVote valIdx = .ok vote) :
    ∃ sig, commit.signatures[valIdx.toInt.toNat]? = some sig ∧
      sig.signature.length ≤ maxSignatureSize ∧
      ∃ blockId, sig.blockId commit.blockId = .ok blockId ∧
        vote = sig.vote commit.height commit.round blockId valIdx := by
  unfold getVote at read
  obtain ⟨-, read⟩ := ite_error_eq_ok.mp read
  split at read
  next => cases read
  next sig found =>
    obtain ⟨short, read⟩ := ite_error_eq_ok.mp read
    obtain ⟨blockId, named, rest⟩ := bind_eq_ok.mp read
    cases rest
    exact ⟨sig, found, Nat.not_lt.mp (not_or.mp short).2, blockId, named, rfl⟩

/-- Only without a proper address, or with a key that takes the empty signature, does an entry
verify without being well formed. -/
theorem Commit.VerifiesAt.signedAt
    (addressed : ∀ val ∈ vals.validators, val.address.length = addressSize)
    (unsigned : ∀ signBytes pubKey, crypto.verify [] signBytes pubKey = false)
    (found : commit.signatures[i]? = some sig) (flagged : sig.blockIdFlag ≠ blockIdFlagAbsent)
    (verifies : commit.VerifiesAt crypto chainId vals i sig) :
    commit.SignedAt crypto chainId vals i sig := by
  obtain ⟨val, pubKey, signBytes, validator, address, keyed, bytes, good⟩ := verifies
  have small : i < valsetMax := by
    have inside := (List.getElem?_eq_some_iff.mp validator).1
    exact Nat.lt_of_lt_of_le inside (vals.length_le.trans vals.cap_le)
  have index : (Int32.ofNat i).toInt = i := by
    apply Int32.toInt_ofNat_of_lt
    rw [valsetMax] at small
    omega
  obtain ⟨vote, read, -⟩ := bind_eq_ok.mp bytes
  obtain ⟨other, otherFound, short, blockId, named, -⟩ := getVote_eq_ok read
  rw [index, Int.toNat_natCast, found] at otherFound
  cases otherFound
  have long : sig.validatorAddress.length = addressSize :=
    address ▸ addressed val (List.mem_of_getElem? validator)
  have filled : sig.signature ≠ [] := by
    intro empty
    rw [empty, unsigned] at good
    cases good
  have known : sig.blockIdFlag = blockIdFlagCommit ∨ sig.blockIdFlag = blockIdFlagNil := by
    by_contra unknown
    rw [not_or] at unknown
    simp [CommitSig.blockId, flagged, unknown] at named
  refine ⟨?_, short, val, pubKey, signBytes, validator, address, keyed, bytes, good⟩
  simp [CommitSig.validateBasic, flagged, known, long, filled, short]

/-! ## The loop -/

theorem SigPolicy.ignored_of_absent (policy : SigPolicy)
    (absent : sig.blockIdFlag = blockIdFlagAbsent) : policy.ignored sig = true := by
  cases policy <;> simp [ignored, absent, blockIdFlagAbsent, blockIdFlagCommit]

variable {policy : SigPolicy}

theorem SigPolicy.not_commit_of_ignored (ignored : policy.ignored sig = true) :
    sig.blockIdFlag ≠ blockIdFlagCommit := by
  cases policy with
  | commit =>
    have absent : sig.blockIdFlag = blockIdFlagAbsent := by
      simpa [SigPolicy.ignored] using ignored
    rw [absent]
    decide
  | light => simpa [SigPolicy.ignored] using ignored

theorem counted_iff (kept : policy.ignored sig = false) :
    policy.counted sig = true ↔ sig.blockIdFlag = blockIdFlagCommit := by
  cases policy with
  | commit => simp [counted]
  | light =>
    have flagged : sig.blockIdFlag = blockIdFlagCommit := by
      simpa [ignored] using kept
    simp [counted, flagged]

variable {count : Nat}

theorem Commit.forBlock_subset_indices (sizes : vals.validators.length = commit.signatures.length)
    (bound : count ≤ commit.signatures.length) :
    commit.forBlock count ⊆ vals.indices := by
  intro i mem
  rw [indices, Finset.mem_range, sizes]
  exact Nat.lt_of_lt_of_le (mem_forBlock.mp mem).1 bound

variable {tallied : Int64}

theorem tally_succ (sound : vals.Sound) (sizes : vals.validators.length = commit.signatures.length)
    (atCount : commit.signatures[count]? = some sig) (found : vals.validators[count]? = some val)
    (kept : policy.ignored sig = false)
    (tally : tallied.toInt = weight vals.powerOf (commit.forBlock count)) :
    (if policy.counted sig then tallied + val.votingPower else tallied).toInt =
      weight vals.powerOf (commit.forBlock (count + 1)) := by
  have inside := (List.getElem?_eq_some_iff.mp atCount).1
  rw [forBlock_succ atCount]
  by_cases flagged : sig.blockIdFlag = blockIdFlagCommit
  · have fresh : count ∉ commit.forBlock count := by
      rw [mem_forBlock]
      omega
    have total : weight vals.powerOf (insert count (commit.forBlock count)) =
        tallied.toInt + val.votingPower.toInt := by
      rw [weight_insert fresh, tally, powerOf_eq found]
    have subset : insert count (commit.forBlock count) ⊆ vals.indices := by
      have all := forBlock_subset_indices sizes (Nat.succ_le_of_lt inside)
      rw [forBlock_succ atCount, if_pos flagged] at all
      exact all
    have upper := weight_le_total sound subset
    have lower := weight_nonneg (powerOf_nonneg sound)
      (insert count (commit.forBlock count))
    have range := total_range sound
    rw [total] at upper lower
    rw [if_pos flagged, if_pos ((counted_iff kept).mpr flagged), total]
    exact toInt_add ⟨by omega, by omega⟩
  · rw [if_neg flagged, if_neg (fun counted => flagged ((counted_iff kept).mp counted)), tally]

/-- The entries from `count` to some end that the mode does not ignore are good, and those for the
block hold more than the power needed. -/
structure Commit.GoodPrefix (crypto : Crypto) (chainId : Bytes) (vals : ValidatorSet)
    (commit : Commit) (policy : SigPolicy) (needed : Int64) (count last : Nat) : Prop where
  lower : count ≤ last
  upper : last ≤ commit.signatures.length
  signed : ∀ i sig, count ≤ i → i < last → commit.signatures[i]? = some sig →
    policy.ignored sig = false → commit.SignedAt crypto chainId vals i sig
  enough : needed.toInt < weight vals.powerOf (commit.forBlock last)

variable {needed : Int64} {last : Nat}

theorem Commit.GoodPrefix.extend
    (good : commit.GoodPrefix crypto chainId vals policy needed (count + 1) last)
    (atCount : commit.signatures[count]? = some sig)
    (first : policy.ignored sig = false → commit.SignedAt crypto chainId vals count sig) :
    commit.GoodPrefix crypto chainId vals policy needed count last where
  lower := Nat.le_of_succ_le good.lower
  upper := good.upper
  enough := good.enough
  signed := by
    intro i other lower upper found kept
    by_cases eq : i = count
    · rw [eq] at found ⊢
      rw [atCount] at found
      cases found
      exact first kept
    · exact good.signed i other (by omega) upper found kept

theorem Commit.GoodPrefix.shrink
    (good : commit.GoodPrefix crypto chainId vals policy needed count last) (past : count < last) :
    commit.GoodPrefix crypto chainId vals policy needed (count + 1) last where
  lower := past
  upper := good.upper
  enough := good.enough
  signed := fun i other lower => good.signed i other (by omega)

variable {countAll : Bool}

theorem verifySignatures_cons_iff {rest : List CommitSig}
    (flagged : sig.blockIdFlag ≠ blockIdFlagAbsent) (kept : policy.ignored sig = false)
    (found : vals.validators[count]? = some val) :
    verifySignatures crypto chainId vals commit needed policy countAll true count (sig :: rest) seen
        tallied = .ok () ↔
      commit.SignedAt crypto chainId vals count sig ∧
        ((countAll = false ∧
            needed < if policy.counted sig then tallied + val.votingPower else tallied) ∨
          verifySignatures crypto chainId vals commit needed policy countAll true (count + 1) rest
            seen (if policy.counted sig then tallied + val.votingPower else tallied) = .ok ()) := by
  rw [signedAt_iff crypto chainId commit seen flagged found, verifySignatures, kept]
  cases sig.validateBasic with
  | false => simp
  | true =>
    cases signer : signerOf vals true seen count sig with
    | error code => simp
    | ok answer =>
      have eq : answer = some (val, seen) := by
        simp only [signerOf, if_true, found] at signer
        split at signer <;> cases signer
        rfl
      rw [eq]
      cases fine : verifyCommitSig crypto chainId commit count sig val with
      | error code => simp [fine]
      | ok _ =>
        cases countAll with
        | true => simp [fine]
        | false =>
          simp only [fine, Bool.not_false, Bool.true_and, decide_eq_true_eq]
          generalize (if policy.counted sig then tallied + val.votingPower else tallied) =
            next
          by_cases above : needed < next <;> simp [above]

variable (sound : vals.Sound)

include sound

theorem verifySignatures_index_iff (sizes : vals.validators.length = commit.signatures.length)
    {rest : List CommitSig} (drop : commit.signatures.drop count = rest)
    (bound : count ≤ commit.signatures.length) (seen : List Nat)
    (tally : tallied.toInt = weight vals.powerOf (commit.forBlock count))
    (short : countAll = true ∨ tallied ≤ needed) :
    verifySignatures crypto chainId vals commit needed policy countAll true count rest seen
        tallied = .ok () ↔
      ∃ last, (countAll = true → last = commit.signatures.length) ∧
        commit.GoodPrefix crypto chainId vals policy needed count last := by
  induction rest generalizing count tallied with
  | nil =>
    have all : count = commit.signatures.length := by
      have short := List.drop_eq_nil_iff.mp drop
      omega
    subst all
    rw [verifySignatures]
    constructor
    · intro passed
      obtain ⟨above, passed⟩ := ite_error_eq_ok.mp passed
      refine ⟨_, fun _ => rfl, Nat.le_refl _, Nat.le_refl _, fun i _ lower upper => ?_, ?_⟩
      · omega
      · rw [Int64.not_le, lt_iff_toInt_lt, tally] at above
        exact above
    · rintro ⟨last, -, good⟩
      have eq : last = commit.signatures.length := by
        have lower := good.lower
        have upper := good.upper
        omega
      have enough := good.enough
      rw [eq, ← tally, ← lt_iff_toInt_lt] at enough
      rw [if_neg (Int64.not_le.mpr enough)]
  | cons sig rest ih =>
    have inside : count < commit.signatures.length := by
      by_contra outside
      rw [List.drop_eq_nil_of_le (Nat.not_lt.mp outside)] at drop
      cases drop
    rw [List.drop_eq_getElem_cons inside] at drop
    obtain ⟨first, later⟩ := List.cons.inj drop
    have atCount : commit.signatures[count]? = some sig := by
      rw [List.getElem?_eq_getElem inside, first]
    -- An open tally is not enough, so a good prefix ends behind this entry.
    have past : ∀ {last}, (countAll = true → last = commit.signatures.length) →
        commit.GoodPrefix crypto chainId vals policy needed count last → count < last := by
      intro last whole good
      rcases short with all | below
      · rw [whole all]
        exact inside
      · apply Nat.lt_of_le_of_ne good.lower
        intro eq
        have enough := good.enough
        rw [← eq, ← tally, ← lt_iff_toInt_lt] at enough
        exact Int64.not_le.mpr enough below
    cases ignored : policy.ignored sig with
    | true =>
      have unchanged : commit.forBlock (count + 1) = commit.forBlock count := by
        rw [forBlock_succ atCount, if_neg (not_commit_of_ignored ignored)]
      rw [verifySignatures, if_pos ignored, ih later inside (unchanged ▸ tally) short]
      constructor
      · rintro ⟨last, whole, good⟩
        refine ⟨last, whole, good.extend atCount ?_⟩
        intro kept
        rw [ignored] at kept
        cases kept
      · rintro ⟨last, whole, good⟩
        exact ⟨last, whole, good.shrink (past whole good)⟩
    | false =>
      have flagged : sig.blockIdFlag ≠ blockIdFlagAbsent := by
        intro absent
        rw [policy.ignored_of_absent absent] at ignored
        cases ignored
      obtain ⟨val, found⟩ : ∃ val, vals.validators[count]? = some val :=
        ⟨_, List.getElem?_eq_getElem (sizes ▸ inside)⟩
      have step := tally_succ sound sizes atCount found ignored tally
      rw [verifySignatures_cons_iff flagged ignored found]
      generalize (if policy.counted sig then tallied + val.votingPower else tallied) = next
        at step ⊢
      have stillOpen : ¬ (countAll = false ∧ needed < next) →
          countAll = true ∨ next ≤ needed := by
        intro running
        cases countAll with
        | true => exact Or.inl rfl
        | false => exact Or.inr (Int64.not_lt.mp fun above => running ⟨rfl, above⟩)
      constructor
      · rintro ⟨signed, passed⟩
        by_cases stop : countAll = false ∧ needed < next
        · -- The tally is enough: the prefix ends with this entry.
          have single : commit.GoodPrefix crypto chainId vals policy needed (count + 1)
              (count + 1) :=
            ⟨Nat.le_refl _, inside, fun i _ lower upper => absurd lower (Nat.not_le.mpr upper),
              by rw [← step, ← lt_iff_toInt_lt]; exact stop.2⟩
          refine ⟨count + 1, ?_, single.extend atCount fun _ => signed⟩
          intro all
          rw [stop.1] at all
          cases all
        · obtain ⟨last, whole, good⟩ :=
            (ih later inside step (stillOpen stop)).mp (passed.resolve_left stop)
          exact ⟨last, whole, good.extend atCount fun _ => signed⟩
      · rintro ⟨last, whole, good⟩
        have further := past whole good
        refine ⟨good.signed count sig (Nat.le_refl _) further atCount ignored, ?_⟩
        by_cases stop : countAll = false ∧ needed < next
        · exact Or.inl stop
        · exact Or.inr ((ih later inside step (stillOpen stop)).mpr
            ⟨last, whole, good.shrink further⟩)

theorem ValidatorSet.total_guard :
    ¬ (maxTotalVotingPower < vals.totalVotingPower ∨ vals.totalVotingPower < 0) := by
  obtain ⟨lower, -⟩ := total_range sound
  rw [not_or, Int64.not_lt, Int64.not_lt, le_iff_toInt_le, le_iff_toInt_le, toInt_zero]
  exact ⟨Int64.le_iff_toInt_le.mp sound.total_le, lower⟩

/-- The power needed is two thirds of the total: what is more is a supermajority. -/
theorem twoThirds_lt_iff (members : Finset Nat) :
    (vals.totalVotingPower * 2 / 3).toInt < weight vals.powerOf members ↔
      Supermajority vals.powerOf vals.indices members := by
  obtain ⟨lower, upper⟩ := total_range sound
  rw [toInt_twoThirds lower upper, Supermajority, weight_indices sound]
  omega

variable {height : Int64} {blockId : BlockId}

omit sound in
theorem verifyBasicValsAndCommit_iff :
    verifyBasicValsAndCommit vals commit height blockId = true ↔
      vals.validators.length = commit.signatures.length ∧ height = commit.height ∧
        blockId = commit.blockId := by
  simp [verifyBasicValsAndCommit, and_assoc]

theorem verifyCommitSingle_index_iff (sizes : vals.validators.length = commit.signatures.length) :
    verifyCommitSingle crypto chainId vals commit (vals.totalVotingPower * 2 / 3) policy countAll
        true = .ok () ↔
      ∃ last, (countAll = true → last = commit.signatures.length) ∧
        commit.GoodPrefix crypto chainId vals policy (vals.totalVotingPower * 2 / 3) 0 last := by
  obtain ⟨lower, upper⟩ := total_range sound
  apply verifySignatures_index_iff sound sizes rfl (Nat.zero_le _)
  · rfl
  · right
    rw [le_iff_toInt_le, toInt_twoThirds lower upper, toInt_zero]
    omega

/-- What `cmt_verify_commit` accepts. -/
structure Commit.Accepted (crypto : Crypto) (chainId : Bytes) (vals : ValidatorSet)
    (blockId : BlockId) (height : Int64) (commit : Commit) : Prop where
  sizes : vals.validators.length = commit.signatures.length
  height : height = commit.height
  blockId : blockId = commit.blockId
  signed : ∀ i sig, commit.signatures[i]? = some sig → sig.blockIdFlag ≠ blockIdFlagAbsent →
    commit.SignedAt crypto chainId vals i sig
  quorum : Supermajority vals.powerOf vals.indices (commit.forBlock commit.signatures.length)

theorem verifyCommit_iff :
    verifyCommit crypto chainId vals blockId height commit = .ok () ↔
      commit.Accepted crypto chainId vals blockId height := by
  unfold verifyCommit
  rw [totalPower_eq sound]
  cases basic : verifyBasicValsAndCommit vals commit height blockId with
  | false =>
    constructor
    · intro passed
      cases passed
    · intro passed
      rw [verifyBasicValsAndCommit_iff.mpr ⟨passed.sizes, passed.height, passed.blockId⟩] at basic
      cases basic
  | true =>
    obtain ⟨sizes, sameHeight, sameId⟩ := verifyBasicValsAndCommit_iff.mp basic
    simp only [Bool.not_true, Bool.false_eq_true, if_false, if_neg (total_guard sound)]
    rw [verifyCommitSingle_index_iff sound sizes]
    constructor
    · rintro ⟨last, whole, good⟩
      have all := whole rfl
      subst all
      refine ⟨sizes, sameHeight, sameId, ?_, (twoThirds_lt_iff sound _).mp good.enough⟩
      intro i sig found flagged
      apply good.signed i sig (Nat.zero_le i) (List.getElem?_eq_some_iff.mp found).1 found
      simpa [ignored] using flagged
    · intro passed
      refine ⟨_, fun _ => rfl, Nat.zero_le _, Nat.le_refl _, ?_,
        (twoThirds_lt_iff sound _).mpr passed.quorum⟩
      intro i sig _ _ found kept
      exact passed.signed i sig found (by simpa [ignored] using kept)

/-- What the light modes accept: the entries for the block up to some point are good and enough. -/
structure Commit.LightAccepted (crypto : Crypto) (chainId : Bytes) (vals : ValidatorSet)
    (blockId : BlockId) (height : Int64) (countAll : Bool) (commit : Commit) (last : Nat) :
    Prop where
  sizes : vals.validators.length = commit.signatures.length
  height : height = commit.height
  blockId : blockId = commit.blockId
  upper : last ≤ commit.signatures.length
  whole : countAll = true → last = commit.signatures.length
  signed : ∀ i ∈ commit.forBlock last, ∀ sig, commit.signatures[i]? = some sig →
    commit.SignedAt crypto chainId vals i sig
  quorum : Supermajority vals.powerOf vals.indices (commit.forBlock last)

theorem verifyCommitLightInternal_iff :
    verifyCommitLightInternal crypto chainId vals blockId height commit countAll = .ok () ↔
      ∃ last, commit.LightAccepted crypto chainId vals blockId height countAll last := by
  unfold verifyCommitLightInternal
  rw [totalPower_eq sound]
  cases basic : verifyBasicValsAndCommit vals commit height blockId with
  | false =>
    constructor
    · intro passed
      cases passed
    · rintro ⟨last, passed⟩
      rw [verifyBasicValsAndCommit_iff.mpr ⟨passed.sizes, passed.height, passed.blockId⟩] at basic
      cases basic
  | true =>
    obtain ⟨sizes, sameHeight, sameId⟩ := verifyBasicValsAndCommit_iff.mp basic
    simp only [Bool.not_true, Bool.false_eq_true, if_false, if_neg (total_guard sound)]
    rw [verifyCommitSingle_index_iff sound sizes]
    constructor
    · rintro ⟨last, whole, good⟩
      refine ⟨last, sizes, sameHeight, sameId, good.upper, whole, ?_,
        (twoThirds_lt_iff sound _).mp good.enough⟩
      intro i mem sig found
      obtain ⟨inside, flagged⟩ := mem_forBlock.mp mem
      apply good.signed i sig (Nat.zero_le i) inside found
      rw [found] at flagged
      simpa [ignored] using flagged
    · rintro ⟨last, passed⟩
      refine ⟨last, passed.whole, Nat.zero_le _, passed.upper, ?_,
        (twoThirds_lt_iff sound _).mpr passed.quorum⟩
      intro i sig _ inside found kept
      apply passed.signed i (mem_forBlock.mpr ⟨inside, ?_⟩) sig found
      rw [found]
      simpa [ignored] using kept

omit sound in
/-- What verification accepts, the light modes accept. -/
theorem Commit.Accepted.light (passed : commit.Accepted crypto chainId vals blockId height)
    (countAll : Bool) :
    commit.LightAccepted crypto chainId vals blockId height countAll
      commit.signatures.length where
  sizes := passed.sizes
  height := passed.height
  blockId := passed.blockId
  upper := Nat.le_refl _
  whole := fun _ => rfl
  quorum := passed.quorum
  signed := by
    intro i mem sig found
    have flag := (mem_forBlock.mp mem).2
    rw [found, Option.map_some, Option.some.injEq] at flag
    apply passed.signed i sig found
    rw [flag]
    decide

omit sound in
theorem Commit.forBlock_mono (le : count ≤ last) :
    commit.forBlock count ⊆ commit.forBlock last := by
  intro i mem
  obtain ⟨inside, flag⟩ := mem_forBlock.mp mem
  exact mem_forBlock.mpr ⟨Nat.lt_of_lt_of_le inside le, flag⟩

/-- The quorums of two commits that the light mode accepts overlap in more than one third
of the power. -/
theorem Commit.LightAccepted.overlap {first second : Commit} {firstId secondId : BlockId}
    {firstHeight secondHeight : Int64} {firstAll secondAll : Bool} {firstLast secondLast : Nat}
    (firstAccepted : first.LightAccepted crypto chainId vals firstId firstHeight firstAll firstLast)
    (secondAccepted :
      second.LightAccepted crypto chainId vals secondId secondHeight secondAll secondLast) :
    vals.totalVotingPower.toInt <
      3 * weight vals.powerOf (first.forBlock firstLast ∩ second.forBlock secondLast) := by
  rw [← weight_indices sound]
  exact firstAccepted.quorum.weight_inter (powerOf_nonneg sound)
    (forBlock_subset_indices firstAccepted.sizes firstAccepted.upper)
    (forBlock_subset_indices secondAccepted.sizes secondAccepted.upper)
    secondAccepted.quorum

end DnaLedger.Cmt
