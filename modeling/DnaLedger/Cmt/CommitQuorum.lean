import DnaLedger.Cmt.CommitVerify
import DnaLedger.Cmt.VoteSetRuns

/-!
# Trusting another set, and the quorum of a commit

The trusting modes look validators up by address and count each once, so what they accept is signed
by distinct validators of the set with more than the power needed.
-/

namespace DnaLedger.Cmt

open Ballot SInt64 ValidatorSet Int

theorem safeMul_eq {a b : Int64} (lower : 0 ≤ a.toInt) (pos : 0 < b.toInt) :
    safeMul a b = if a.toInt * b.toInt < 2 ^ 63 then some (a * b) else none := by
  have nonneg : ¬ b < 0 := by
    rw [Int64.not_lt, Int64.le_iff_toInt_le, Int64.toInt_zero]
    exact le_of_lt pos
  have ne : b ≠ 0 := by
    rintro rfl
    exact absurd pos (by decide)
  have limit : (Int64.maxValue / b).toInt = (2 ^ 63 - 1) / b.toInt := by
    rw [toInt_div pos, tdiv_eq_ediv_of_nonneg (by decide)]
    rfl
  by_cases zero : a = 0
  · subst zero
    simp [safeMul]
  · have low : ¬ a < 0 := by
      rw [Int64.not_lt, Int64.le_iff_toInt_le, Int64.toInt_zero]
      exact lower
    have beyond : Int64.maxValue / b < a ↔ ¬ a.toInt * b.toInt < 2 ^ 63 := by
      rw [Int64.lt_iff_toInt_lt, limit, Int.ediv_lt_iff_lt_mul pos]
      omega
    simp only [safeMul, zero, ne, or_self, if_false, if_neg nonneg, if_neg low, goDiv, beyond,
      ite_not]

section

variable {crypto : Crypto} {chainId : Bytes} {vals : ValidatorSet} {commit : Commit}

/-- A trust level that keeps its meaning as a pair of signed words. -/
structure Fraction.Fits (level : Fraction) : Prop where
  numerator_pos : 0 < level.numerator.toNat
  numerator_lt : level.numerator.toNat < 2 ^ 63
  denominator_pos : 0 < level.denominator.toNat
  denominator_lt : level.denominator.toNat < 2 ^ 63

variable (sound : vals.Sound)

include sound

variable {level : Fraction} {countAll : Bool} {seen : List Nat}

/-- The power needed in the trusting modes is the trust level's share of the total, rounded down,
whose product has to fit. -/
theorem verifyCommitLightTrustingInternal_iff (fits : level.Fits) :
    verifyCommitLightTrustingInternal crypto chainId vals commit level countAll = .ok () ↔
      vals.totalVotingPower.toInt * level.numerator.toNat < 2 ^ 63 ∧
        ∃ needed : Int64, needed.toInt =
            vals.totalVotingPower.toInt * level.numerator.toNat / level.denominator.toNat ∧
          verifyCommitSingle crypto chainId vals commit needed .light countAll false =
            .ok () := by
  obtain ⟨lower, upper⟩ := total_range sound
  have num := toInt_toInt64 fits.numerator_lt
  have den := toInt_toInt64 fits.denominator_lt
  have numPos := fits.numerator_pos
  have denPos := fits.denominator_pos
  have ne : level.denominator ≠ 0 := by
    intro zero
    rw [zero] at denPos
    exact absurd denPos (by decide)
  have notMinusOne : level.denominator.toInt64 ≠ -1 := by
    intro minus
    rw [minus] at den
    have : (-1 : Int64).toInt = -1 := by decide
    omega
  rw [verifyCommitLightTrustingInternal, if_neg ne, totalPower_eq sound]
  dsimp only
  rw [safeMul_eq lower (by omega), num]
  by_cases small : vals.totalVotingPower.toInt * level.numerator.toNat < 2 ^ 63
  · have product : (vals.totalVotingPower * level.numerator.toInt64).toInt =
        vals.totalVotingPower.toInt * level.numerator.toNat := by
      rw [← num] at small ⊢
      apply toInt_mul
      have nonneg := mul_nonneg lower (le_of_lt (show 0 < level.numerator.toInt64.toInt by
        omega))
      exact ⟨by omega, small⟩
    have quotient : (vals.totalVotingPower * level.numerator.toInt64 /
        level.denominator.toInt64).toInt =
          vals.totalVotingPower.toInt * level.numerator.toNat / level.denominator.toNat := by
      rw [toInt_div (by omega), product, den, tdiv_eq_ediv_of_nonneg]
      exact mul_nonneg lower (natCast_nonneg _)
    rw [if_pos small]
    simp only [notMinusOne, false_and, if_false, small, true_and]
    constructor
    · intro passed
      exact ⟨_, quotient, passed⟩
    · rintro ⟨needed, eq, passed⟩
      rw [← quotient] at eq
      rw [← Int64.toInt_inj.mp eq]
      exact passed
  · rw [if_neg small]
    constructor
    · intro passed
      cases passed
    · rintro ⟨fitting, -⟩
      exact absurd fitting small

theorem signerOf_address {i k : Nat} {sig : CommitSig} {val : Validator}
    (found : vals.validators[k]? = some val) (address : val.address = sig.validatorAddress)
    (fresh : k ∉ seen) :
    signerOf vals false seen i sig = .ok (some (val, k :: seen)) := by
  obtain ⟨inside, same⟩ := List.getElem?_eq_some_iff.mp found
  have index : vals.validators.findIdx? (fun val => val.address == sig.validatorAddress) =
      some k := by
    apply List.findIdx?_eq_some_iff_getElem.mpr
    refine ⟨inside, by simp [same, address], ?_⟩
    intro j earlier eq
    have distinct := sound.distinct
    rw [List.nodup_iff_injective_getElem] at distinct
    have sameIndex := @distinct ⟨j, by simp; omega⟩ ⟨k, by simpa using inside⟩
      (by simpa [same, address] using eq)
    exact Nat.ne_of_lt earlier (Fin.mk.inj sameIndex)
  simp [signerOf, index, found, fresh]

/-- What the loop accepts by index, it accepts by address: it can only have seen validators before
the entry. -/
theorem verifySignatures_address {needed : Int64} {rest : List CommitSig}
    {count : Nat} (unused : List Nat) {tallied : Int64}
    (below : ∀ k ∈ seen, k < count)
    (passed : verifySignatures crypto chainId vals commit needed .light countAll true count rest
      unused tallied = .ok ()) :
    verifySignatures crypto chainId vals commit needed .light countAll false count rest seen
      tallied = .ok () := by
  induction rest generalizing count seen tallied with
  | nil => exact passed
  | cons sig rest ih =>
    have later : ∀ k ∈ seen, k < count + 1 := fun k mem =>
      Nat.lt_succ_of_lt (below k mem)
    cases ignored : SigPolicy.light.ignored sig with
    | true =>
      rw [verifySignatures, if_pos ignored] at passed ⊢
      exact ih later passed
    | false =>
      have flagged : sig.blockIdFlag ≠ blockIdFlagAbsent := by
        intro absent
        rw [SigPolicy.ignored_of_absent _ absent] at ignored
        cases ignored
      obtain ⟨val, found⟩ : ∃ val, vals.validators[count]? = some val := by
        cases found : vals.validators[count]? with
        | some val => exact ⟨val, rfl⟩
        | none =>
          rw [verifySignatures, ignored] at passed
          simp only [signerOf, found, if_true] at passed
          split at passed
          next clash => cases clash
          next => split at passed <;> cases passed
      obtain ⟨signed, further⟩ :=
        (verifySignatures_cons_iff flagged ignored found).mp passed
      obtain ⟨other, -, -, otherFound, address, -⟩ := signed.signed
      rw [found] at otherFound
      cases otherFound
      have fresh : count ∉ seen := fun mem => Nat.lt_irrefl _ (below count mem)
      have nextBelow : ∀ k ∈ count :: seen, k < count + 1 := by
        intro k mem
        rcases List.mem_cons.mp mem with eq | old
        · omega
        · exact later k old
      rw [verifySignatures, ignored, signed.valid, signerOf_address sound found address fresh]
      simp only [signed.verifyCommitSig found, Bool.not_true, Bool.false_eq_true, if_false,
        Bool.and_eq_true, Bool.not_eq_true', decide_eq_true_eq]
      simp only [SigPolicy.counted, if_true] at further ⊢
      split
      next => rfl
      next short => exact ih nextBelow (further.resolve_left short)

theorem Commit.Accepted.trusting {blockId : BlockId} {height : Int64}
    (passed : commit.Accepted crypto chainId vals blockId height)
    (fits : level.Fits) (share : 3 * level.numerator.toNat ≤ 2 * level.denominator.toNat)
    (small : vals.totalVotingPower.toInt * level.numerator.toNat < 2 ^ 63) (countAll : Bool) :
    verifyCommitLightTrustingInternal crypto chainId vals commit level countAll = .ok () := by
  obtain ⟨lower, upper⟩ := total_range sound
  have denPos : (0 : Int) < level.denominator.toNat := by exact_mod_cast fits.denominator_pos
  have product := Int.mul_nonneg lower (Int.natCast_nonneg level.numerator.toNat)
  -- the share rounded down is at most two thirds
  have quotient : 3 * (vals.totalVotingPower.toInt * level.numerator.toNat /
      level.denominator.toNat) ≤ 2 * vals.totalVotingPower.toInt := by
    have floor := Int.ediv_mul_le (vals.totalVotingPower.toInt * level.numerator.toNat)
      (Int.ne_of_gt denPos)
    have scaled : vals.totalVotingPower.toInt * (3 * level.numerator.toNat) ≤
        vals.totalVotingPower.toInt * (2 * level.denominator.toNat) :=
      Int.mul_le_mul_of_nonneg_left (by exact_mod_cast share) lower
    apply Int.le_of_mul_le_mul_right _ denPos
    calc
      3 * (vals.totalVotingPower.toInt * level.numerator.toNat / level.denominator.toNat) *
          level.denominator.toNat
        ≤ 3 * (vals.totalVotingPower.toInt * level.numerator.toNat) := by
          rw [Int.mul_assoc]
          omega
      _ = vals.totalVotingPower.toInt * (3 * level.numerator.toNat) := Int.mul_left_comm ..
      _ ≤ vals.totalVotingPower.toInt * (2 * level.denominator.toNat) := scaled
      _ = 2 * vals.totalVotingPower.toInt * level.denominator.toNat := by
          rw [Int.mul_left_comm, Int.mul_assoc]
  have nonneg : 0 ≤ vals.totalVotingPower.toInt * level.numerator.toNat /
      level.denominator.toNat := Int.ediv_nonneg product (Int.le_of_lt denPos)
  obtain ⟨needed, eq⟩ : ∃ needed : Int64, needed.toInt =
      vals.totalVotingPower.toInt * level.numerator.toNat / level.denominator.toNat :=
    ⟨Int64.ofInt _, Int64.toInt_ofInt_of_le (by omega) (by omega)⟩
  have light := passed.light countAll
  have enough : needed.toInt < weight vals.powerOf
      (commit.forBlock commit.signatures.length) := by
    have quorum := passed.quorum
    rw [Supermajority, weight_indices sound] at quorum
    omega
  rw [verifyCommitLightTrustingInternal_iff sound fits]
  refine ⟨small, needed, eq, ?_⟩
  apply verifySignatures_address sound [] (by simp)
  apply (verifySignatures_index_iff sound passed.sizes rfl (Nat.zero_le _) [] rfl ?_).mpr
  · refine ⟨_, fun _ => rfl, Nat.zero_le _, Nat.le_refl _, ?_, enough⟩
    intro i sig _ inside found kept
    apply light.signed i (Commit.mem_forBlock.mpr ⟨inside, ?_⟩) sig found
    rw [found]
    simpa [SigPolicy.ignored] using kept
  · right
    rw [Int64.le_iff_toInt_le, eq, Int64.toInt_zero]
    exact nonneg

end

/-- What verification accepts, the light modes accept, and the trusting modes for a trust level of
up to two thirds. The validators for the block in two accepted commits overlap in more than one
third of the power. -/
theorem verifyCommit_quorum (crypto : Crypto) (chainId : Bytes) {vals : ValidatorSet}
    (sound : vals.Sound) :
    (∀ blockId height commit,
      (verifyCommit crypto chainId vals blockId height commit = .ok () ↔
        vals.validators.length = commit.signatures.length ∧ height = commit.height ∧
        blockId = commit.blockId ∧
        (∀ i sig, commit.signatures[i]? = some sig → sig.blockIdFlag ≠ blockIdFlagAbsent →
          commit.SignedAt crypto chainId vals i sig) ∧
        Supermajority vals.powerOf vals.indices (commit.forBlock commit.signatures.length)) ∧
      ((∀ val ∈ vals.validators, val.address.length = addressSize) →
        (∀ signBytes pubKey, crypto.verify [] signBytes pubKey = false) →
        ∀ i sig, commit.signatures[i]? = some sig → sig.blockIdFlag ≠ blockIdFlagAbsent →
          (commit.SignedAt crypto chainId vals i sig ↔
            commit.VerifiesAt crypto chainId vals i sig)) ∧
      (verifyCommit crypto chainId vals blockId height commit = .ok () →
        verifyCommitLight crypto chainId vals blockId height commit = .ok () ∧
        verifyCommitLightAllSignatures crypto chainId vals blockId height commit = .ok () ∧
        ∀ level : Fraction, level.Fits →
          3 * level.numerator.toNat ≤ 2 * level.denominator.toNat →
          vals.totalVotingPower.toInt * level.numerator.toNat < 2 ^ 63 →
          verifyCommitLightTrusting crypto chainId vals commit level = .ok () ∧
          verifyCommitLightTrustingAllSignatures crypto chainId vals commit level = .ok ())) ∧
    ∀ height firstId secondId first second,
      verifyCommitLight crypto chainId vals firstId height first = .ok () →
      verifyCommitLight crypto chainId vals secondId height second = .ok () →
      vals.totalVotingPower.toInt < 3 * weight vals.powerOf
        (first.forBlock first.signatures.length ∩ second.forBlock second.signatures.length) ∧
      ∃ signers ⊆ first.forBlock first.signatures.length ∩
          second.forBlock second.signatures.length,
        vals.totalVotingPower.toInt < 3 * weight vals.powerOf signers ∧
        ∀ i ∈ signers, ∀ commit ∈ [first, second], ∀ sig, commit.signatures[i]? = some sig →
          commit.SignedAt crypto chainId vals i sig := by
  constructor
  · intro blockId height commit
    refine ⟨?_, ?_, ?_⟩
    · rw [verifyCommit_iff sound]
      constructor
      · intro passed
        exact ⟨passed.sizes, passed.height, passed.blockId, passed.signed, passed.quorum⟩
      · rintro ⟨sizes, sameHeight, sameId, signed, quorum⟩
        exact ⟨sizes, sameHeight, sameId, signed, quorum⟩
    · intro addressed unsigned i sig found flagged
      constructor
      · intro signed
        exact signed.signed
      · intro verifies
        exact verifies.signedAt addressed unsigned found flagged
    · intro passed
      have whole := (verifyCommit_iff sound).mp passed
      refine ⟨(verifyCommitLightInternal_iff sound).mpr ⟨_, whole.light false⟩,
        (verifyCommitLightInternal_iff sound).mpr ⟨_, whole.light true⟩, ?_⟩
      intro level fits share small
      exact ⟨whole.trusting sound fits share small false,
        whole.trusting sound fits share small true⟩
  · intro height firstId secondId first second firstLight secondLight
    obtain ⟨firstLast, firstAccepted⟩ := (verifyCommitLightInternal_iff sound).mp firstLight
    obtain ⟨secondLast, secondAccepted⟩ := (verifyCommitLightInternal_iff sound).mp secondLight
    have overlap := firstAccepted.overlap sound secondAccepted
    have subset : first.forBlock firstLast ∩ second.forBlock secondLast ⊆
        first.forBlock first.signatures.length ∩ second.forBlock second.signatures.length :=
      Finset.inter_subset_inter (Commit.forBlock_mono firstAccepted.upper)
        (Commit.forBlock_mono secondAccepted.upper)
    have larger := weight_mono (powerOf_nonneg sound) subset
    refine ⟨by omega, _, subset, overlap, ?_⟩
    intro i mem commit either sig found
    obtain ⟨inFirst, inSecond⟩ := Finset.mem_inter.mp mem
    rcases List.mem_pair.mp either with isFirst | isSecond
    · subst isFirst
      exact firstAccepted.signed i inFirst sig found
    · subst isSecond
      exact secondAccepted.signed i inSecond sig found

/-- As `fiveCrypto`, but no empty signature is good. -/
def contentCrypto : Crypto :=
  { fiveCrypto with verify := fun signature _ _ => signature ≠ [] }

def entryBy (flag : Int32) (k : UInt8) : CommitSig :=
  ⟨flag, List.replicate 32 k, Time.zero, [1]⟩

/-- The second and third validator have signed both blocks, the first and fourth one of them and a
nil vote, and the fifth is absent. -/
def firstCommit : Commit :=
  ⟨1, 0, fiveBlock, [entryBy blockIdFlagCommit 1, entryBy blockIdFlagCommit 2,
    entryBy blockIdFlagCommit 3, entryBy blockIdFlagNil 4, CommitSig.absent]⟩

def otherBlock : BlockId :=
  ⟨List.replicate 64 8, 1, List.replicate 64 9⟩

def secondCommit : Commit :=
  ⟨1, 0, otherBlock, [entryBy blockIdFlagNil 1, entryBy blockIdFlagCommit 2,
    entryBy blockIdFlagCommit 3, entryBy blockIdFlagCommit 4, CommitSig.absent]⟩

theorem verifyCommit_quorum_two_blocks :
    fiveBlock ≠ otherBlock ∧
      verifyCommit contentCrypto [] fiveSet fiveBlock 1 firstCommit = .ok () ∧
      verifyCommitLight contentCrypto [] fiveSet fiveBlock 1 firstCommit = .ok () ∧
      verifyCommitLight contentCrypto [] fiveSet otherBlock 1 secondCommit = .ok () ∧
      verifyCommitLightTrusting contentCrypto [] fiveSet firstCommit ⟨1, 3⟩ = .ok () ∧
      fiveSet.totalVotingPower.toInt < 3 * weight fiveSet.powerOf
        (firstCommit.forBlock 5 ∩ secondCommit.forBlock 5) ∧
      ∀ sig, firstCommit.signatures[3]? = some sig →
        (firstCommit.SignedAt contentCrypto [] fiveSet 3 sig ↔
          firstCommit.VerifiesAt contentCrypto [] fiveSet 3 sig) := by
  obtain ⟨modes, common⟩ := verifyCommit_quorum contentCrypto [] fiveSet_valid.toSound
  obtain ⟨-, entries, light⟩ := modes fiveBlock 1 firstCommit
  obtain ⟨-, -, otherLight⟩ := modes otherBlock 1 secondCommit
  have passed : verifyCommit contentCrypto [] fiveSet fiveBlock 1 firstCommit = .ok () := by
    decide +kernel
  have otherAccepted :
      verifyCommit contentCrypto [] fiveSet otherBlock 1 secondCommit = .ok () := by
    decide +kernel
  obtain ⟨one, -, trusting⟩ := light passed
  obtain ⟨other, -⟩ := otherLight otherAccepted
  have third : Fraction.Fits ⟨1, 3⟩ :=
    ⟨by decide, by decide, by decide, by decide⟩
  refine ⟨by decide +kernel, passed, one, other, (trusting ⟨1, 3⟩ third (by decide) (by
    decide)).1, (common 1 fiveBlock otherBlock _ _ one other).1, ?_⟩
  intro sig found
  apply entries (by decide) (fun _ _ => rfl) 3 sig found
  cases found
  decide

end DnaLedger.Cmt
