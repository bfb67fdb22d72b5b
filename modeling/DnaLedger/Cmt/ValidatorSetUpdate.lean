import DnaLedger.Cmt.ChangeSet
import Mathlib.Data.Prod.Lex

/-!
# What an update of a validator set does

Behind the passes over the change list nothing can fail, so an update either does what the changes
plainly mean or leaves the set as it was.
-/

namespace DnaLedger.Cmt

open Sorting SInt64 List Validator Program

theorem toInt_priorityWindow {tvp : Int64} (nonneg : 0 ≤ tvp.toInt)
    (bound : tvp.toInt ≤ maxTotalVotingPower.toInt) :
    (priorityWindowSizeFactor * tvp).toInt = 2 * tvp.toInt := by
  have factor : priorityWindowSizeFactor.toInt = 2 := rfl
  rw [toInt_maxTotalVotingPower] at bound
  rw [toInt_mul, factor]
  rw [factor]
  constructor <;> omega

section

variable {vals : ValidatorSet}

theorem identity_mapPriority (change : Validator → Int64) :
    (vals.mapPriority change).validators.map identity =
      vals.validators.map identity := by
  rw [ValidatorSet.mapPriority, map_map]
  rfl

theorem mapPriority_self : vals.mapPriority proposerPriority = vals := by
  simp [ValidatorSet.mapPriority]

/-- A window of at most twice the maximal total never yields the ratio zero: a sum that wraps is
still far from zero. -/
theorem ratio_ne_zero {diff diffMax : Int64} (pos : 0 < diffMax.toInt)
    (window : diffMax.toInt ≤ 2 ^ 61) (beyond : diffMax < diff) :
    (diff + diffMax - 1) / diffMax ≠ 0 := by
  intro zero
  have value := congrArg Int64.toInt zero
  rw [toInt_div pos, Int64.toInt_zero] at value
  have parts := Int.mul_tdiv_add_tmod (diff + diffMax - 1).toInt diffMax.toInt
  have below := Int.tmod_lt_of_pos (diff + diffMax - 1).toInt pos
  have above := Int.lt_tmod_of_pos (diff + diffMax - 1).toInt pos
  rw [value, mul_zero, zero_add] at parts
  have beyond := Int64.lt_iff_toInt_lt.mp beyond
  have upper := diff.toInt_lt
  have sum := Int64.toInt_add diff diffMax
  have minus := Int64.toInt_sub (diff + diffMax) 1
  rw [show (1 : Int64).toInt = 1 from rfl] at minus
  rw [Int.bmod_def] at sum minus
  omega

theorem exec_rescalePriorities {diffMax : Int64} (filled : vals.validators ≠ [])
    (window : diffMax.toInt ≤ 2 ^ 61) :
    ∃ change, (rescalePriorities diffMax).exec vals = (.ok (), vals.mapPriority change) := by
  by_cases idle : diffMax ≤ 0
  · refine ⟨proposerPriority, ?_⟩
    simp [rescalePriorities, exec_bind, filled, idle, mapPriority_self]
  have pos : 0 < diffMax.toInt := Int64.lt_iff_toInt_lt.mp (Int64.not_le.mp idle)
  have divisor : diffMax ≠ 0 := by
    rintro rfl
    exact absurd pos (by decide)
  have diff : ∃ diff, computeMaxMinPriorityDiff vals.validators = .ok diff := by
    rw [computeMaxMinPriorityDiff, if_neg filled]
    exact ⟨_, rfl⟩
  obtain ⟨diff, diff_eq⟩ := diff
  by_cases beyond : diffMax < diff
  · refine ⟨fun v => v.proposerPriority / ((diff + diffMax - 1) / diffMax), ?_⟩
    simp [rescalePriorities, exec_bind, filled, idle, diff_eq, goDiv, divisor, beyond,
      ratio_ne_zero pos window beyond]
  · refine ⟨proposerPriority, ?_⟩
    simp [rescalePriorities, exec_bind, filled, idle, diff_eq, goDiv, divisor, beyond,
      mapPriority_self]

theorem computeAvgProposerPriority_eq_ok {validators : List Validator} (filled : validators ≠ []) :
    ∃ avg : Int64, avg.toInt =
        (validators.map fun v => v.proposerPriority.toInt).sum / validators.length ∧
      computeAvgProposerPriority validators = .ok avg := by
  have range : InRange
      ((validators.map fun v => v.proposerPriority.toInt).sum / validators.length) := by
    have average := inRange_average
      (show validators.map (fun v => v.proposerPriority.toInt) ≠ [] by simpa using filled)
      fun value mem => by
        obtain ⟨v, -, rfl⟩ := mem_map.mp mem
        exact inRange_toInt _
    simpa using average
  refine ⟨_, Int64.toInt_ofInt_of_le range.1 range.2, ?_⟩
  rw [computeAvgProposerPriority, if_neg filled]
  exact if_pos range

theorem exec_shiftByAvgProposerPriority (filled : vals.validators ≠ []) :
    ∃ change, shiftByAvgProposerPriority.exec vals = (.ok (), vals.mapPriority change) := by
  obtain ⟨avg, -, run⟩ := computeAvgProposerPriority_eq_ok filled
  refine ⟨fun v => safeSubClip v.proposerPriority avg, ?_⟩
  simp [shiftByAvgProposerPriority, exec_bind, run]

end

/-- Larger powers first, then smaller addresses. -/
def powerKey (v : Validator) : ℤ ×ₗ Bytes :=
  toLex (-v.votingPower.toInt, v.address)

theorem byVotingPowerLess_compares : ComparesBy byVotingPowerLess powerKey := by
  intro a b
  rw [byVotingPowerLess, powerKey, powerKey, Prod.Lex.toLex_lt_toLex]
  split
  next eq => simp [eq]
  next apart =>
    have apart : a.votingPower.toInt ≠ b.votingPower.toInt := mt Int64.toInt_inj.mp apart
    simp [Int64.lt_iff_toInt_lt, apart]

theorem powerKey_lt_iff {a b : Validator} :
    powerKey a < powerKey b ↔ b.votingPower < a.votingPower ∨
      (a.votingPower = b.votingPower ∧ a.address < b.address) := by
  simp [powerKey, Prod.Lex.toLex_lt_toLex, Int64.lt_iff_toInt_lt, Int64.toInt_inj]

theorem sortedBy_sortByVotingPower {validators : List Validator}
    (nodup : (validators.map address).Nodup) :
    SortedBy powerKey (sortByVotingPower validators) := by
  refine sortedBy_insertionSort byVotingPowerLess_compares ?_
  have keys : (validators.map powerKey).map (fun key => (ofLex key).2) =
      validators.map address := by
    simp [powerKey]
  exact Nodup.of_map _ (keys ▸ nodup)

theorem keysPresentFrom_of_keyed {validators : List Validator} {haveFirst : Bool}
    (keyed : ∀ v ∈ validators, v.pubKey.isSome) :
    keysPresentFrom haveFirst validators = true := by
  induction validators generalizing haveFirst with
  | nil => rfl
  | cons v rest ih =>
    obtain ⟨first, restKeyed⟩ := forall_mem_cons.mp keyed
    rw [keysPresentFrom, if_pos first]
    exact ih restKeyed

theorem power_eq_identity (validators : List Validator) :
    power validators = ((validators.map identity).map fun i => i.2.2.toInt).sum := by
  rw [map_map]
  rfl

variable {first second : List Validator}

section

variable (perm : (first.map identity).Perm (second.map identity))

include perm

theorem power_of_identity : power first = power second := by
  rw [power_eq_identity, power_eq_identity, (perm.map _).sum_eq]

theorem addresses_of_identity : (first.map address).Perm (second.map address) := by
  have firsts := perm.map Prod.fst
  rw [map_map, map_map] at firsts
  exact firsts

end

theorem forall_of_identity (property : Bytes × Option Bytes × Int64 → Prop)
    (perm : (first.map identity).Perm (second.map identity))
    (holds : ∀ v ∈ second, property v.identity) : ∀ v ∈ first, property v.identity := by
  intro v mem
  obtain ⟨w, w_mem, eq⟩ := mem_map.mp (perm.mem_iff.mp (mem_map_of_mem mem))
  exact eq ▸ holds w w_mem

/-- The members after an update: the given ones up to their priorities, by power and then by
address, with the total cached. -/
structure Settled (members : List Validator) (after : ValidatorSet) : Prop where
  identity : (after.validators.map Validator.identity).Perm (members.map Validator.identity)
  sorted : SortedBy powerKey after.validators
  total_eq : after.totalVotingPower.toInt = power after.validators

variable {vals : ValidatorSet}

theorem exec_settleChangeSet (filled : vals.validators ≠ [])
    (nodup : (vals.validators.map address).Nodup)
    (keyed : keysPresentFrom false vals.validators = true)
    (pos : ∀ v ∈ vals.validators, 0 < v.votingPower)
    (bound : power vals.validators ≤ maxTotalVotingPower.toInt) :
    ∃ after, settleChangeSet.exec vals = (.ok (), after) ∧ Settled vals.validators after := by
  let cleared : ValidatorSet := { vals with allKeysHaveSameType := true, totalVotingPower := 0 }
  obtain ⟨total, total_eq, computed⟩ :=
    exec_updateTotalVotingPower (show ∀ v ∈ cleared.validators, _ from pos) bound
  let counted : ValidatorSet := { cleared with totalVotingPower := total }
  have sound : counted.Sound :=
    ⟨nodup, pos, total_eq, Int64.le_iff_toInt_le.mpr (total_eq ▸ bound)⟩
  have window : (priorityWindowSizeFactor * total).toInt ≤ 2 ^ 61 := by
    have nonneg := power_nonneg pos
    have total_eq : total.toInt = power vals.validators := total_eq
    rw [toInt_priorityWindow (by omega) (by omega)]
    rw [toInt_maxTotalVotingPower] at bound
    omega
  obtain ⟨scale, rescaled⟩ :=
    exec_rescalePriorities (show counted.validators ≠ [] from filled) window
  obtain ⟨shift, shifted⟩ := exec_shiftByAvgProposerPriority
    (show (counted.mapPriority scale).validators ≠ [] by
      simpa [ValidatorSet.mapPriority] using filled)
  let centred := (counted.mapPriority scale).mapPriority shift
  have written : (centred.validators.map identity) =
      vals.validators.map identity :=
    (identity_mapPriority shift).trans (identity_mapPriority scale)
  have identity : ((sortByVotingPower centred.validators).map identity).Perm
      (vals.validators.map identity) :=
    written ▸ (insertionSort_perm byVotingPowerLess centred.validators).map identity
  refine ⟨{ centred with
      validators := sortByVotingPower centred.validators
      length_le := by simpa [sortByVotingPower] using centred.length_le },
    ?_, identity, ?_, ?_⟩
  · have fresh : totalVotingPower.exec counted = (.ok total, counted) :=
      exec_totalVotingPower sound
    simp only [settleChangeSet, checkAllKeysHaveSameType, exec_bind, exec_get,
      keyed, if_true, exec_modify, exec_tryCatch]
    rw [show updateTotalVotingPower.exec _ = (.ok (), counted) from computed]
    simp only [fresh, rescaled, shifted]
    rfl
  · refine sortedBy_sortByVotingPower ?_
    exact (addresses_of_identity (.of_eq written)).nodup_iff.mpr nodup
  · exact total_eq.trans (power_of_identity identity).symm

/-- The members that an accepted list leaves are fit to be written. -/
structure Writable (members : List Validator) : Prop where
  nonempty : members ≠ []
  distinct : (members.map address).Nodup
  positive : ∀ v ∈ members, 0 < v.votingPower
  bounded : power members ≤ maxTotalVotingPower.toInt

variable {changes : List Validator}

theorem staged_writable (sound : vals.Sound) (acceptable : Acceptable vals changes) (tvp : Int64) :
    Writable (staged vals.validators changes tvp) := by
  have wellFormed := acceptable.toWellFormed
  have identity := identity_staged sound.distinct wellFormed tvp
  refine ⟨fun empty => ?_, (sortedBy_staged sound.distinct wellFormed tvp).nodup, ?_, ?_⟩
  · have length := length_staged sound.distinct wellFormed tvp
    rw [empty] at length
    exact acceptable.nonempty (length_eq_zero_iff.mp length.symm)
  · refine forall_of_identity (fun i => 0 < i.2.2) identity fun v mem => ?_
    rcases mem_append.mp mem with kept | changed
    · exact sound.positive v (mem_of_mem_filter kept)
    · exact updatesOf_positive wellFormed ((updatesOf_perm changes).mem_iff.mpr changed)
  · exact power_of_identity identity ▸ acceptable.bounded

/-- An update that is accepted settles on the plain meaning of the changes. -/
theorem exec_updateWithChangeSet_accepted (valid : vals.Valid)
    (keyed : ∀ c ∈ changes, c.pubKey.isSome) (full : changes ≠ [])
    (acceptable : Acceptable vals changes) :
    ∃ after, (updateWithChangeSet changes).exec vals = (.ok (), after) ∧
      Settled (overridden vals.validators changes) after := by
  obtain ⟨tvp, -, stage⟩ := exec_stageChangeSet_accepted valid.toSound acceptable
    (show true = true ∨ removalsOf changes = [] from .inl rfl)
  have writable := staged_writable valid.toSound acceptable tvp
  have identity := identity_staged valid.distinct acceptable.toWellFormed tvp
  have length := length_staged valid.distinct acceptable.toWellFormed tvp
  have fits : (staged vals.validators changes tvp).length =
      (overridden vals.validators changes).length ∧
      (staged vals.validators changes tvp).length ≤ vals.validatorsCap :=
    ⟨length, length ▸ acceptable.fits⟩
  have keys : ∀ v ∈ staged vals.validators changes tvp, v.pubKey.isSome := by
    refine forall_of_identity (fun i => i.2.1.isSome) identity fun v mem => ?_
    rcases mem_append.mp mem with kept | changed
    · exact valid.keyed v (mem_of_mem_filter kept)
    · exact keyed v (mem_of_mem_filter changed)
  let written : ValidatorSet :=
    { vals with validators := staged vals.validators changes tvp, length_le := fits.2 }
  obtain ⟨after, settle, settled⟩ := exec_settleChangeSet
    (show written.validators ≠ [] from writable.nonempty) writable.distinct
    (keysPresentFrom_of_keyed keys) writable.positive writable.bounded
  refine ⟨after, ?_, settled.identity.trans identity, settled.sorted, settled.total_eq⟩
  simp only [updateWithChangeSet, updateWithChangeSetEx, if_neg full, exec_bind, stage,
    exec_get, dif_pos fits, exec_set]
  exact settle

theorem overridden_distinct {members : List Validator}
    (distinct : (members.map address).Nodup) (wellFormed : WellFormed changes) :
    ((overridden members changes).map address).Nodup :=
  (addresses_of_identity (identity_staged distinct wellFormed 0)).nodup_iff.mp
    (sortedBy_staged distinct wellFormed 0).nodup

theorem overridden_nil (members : List Validator) : overridden members [] = members := by
  simp [overridden]

theorem acceptable_nil (valid : vals.Valid) : Acceptable vals [] where
  distinct := .nil
  addressed := by simp
  range := by simp
  removable := by simp
  nonempty := (overridden_nil _).symm ▸ valid.nonempty
  fits := (overridden_nil _).symm ▸ vals.length_le
  bounded := by
    rw [overridden_nil, ← valid.total_eq]
    exact Int64.le_iff_toInt_le.mp valid.total_le

/-- What an accepted update leaves behind. -/
structure Updated (before : ValidatorSet) (changes : List Validator) (after : ValidatorSet) :
    Prop where
  members : (after.validators.map identity).Perm
    ((overridden before.validators changes).map identity)
  distinct : (after.validators.map address).Nodup
  total_eq : after.totalVotingPower.toInt = power after.validators
  sorted : changes ≠ [] → after.validators.Pairwise fun a b =>
    b.votingPower < a.votingPower ∨ (a.votingPower = b.votingPower ∧ a.address < b.address)

/-- An update of a valid set succeeds exactly on the acceptable change lists, does then
what they plainly mean, and leaves the set as it was on every other outcome. -/
theorem updateWithChangeSet_spec (vals : ValidatorSet) (changes : List Validator)
    (valid : vals.Valid) (keyed : ∀ c ∈ changes, c.pubKey.isSome) :
    (((updateWithChangeSet changes).exec vals).1 = .ok () ↔ Acceptable vals changes) ∧
    (((updateWithChangeSet changes).exec vals).1 = .ok () →
      Updated vals changes ((updateWithChangeSet changes).exec vals).2) ∧
    (((updateWithChangeSet changes).exec vals).1 ≠ .ok () →
      ((updateWithChangeSet changes).exec vals).2 = vals) := by
  by_cases empty : changes = []
  · subst empty
    have run : (updateWithChangeSet []).exec vals = (.ok (), vals) := by
      simp [updateWithChangeSet, updateWithChangeSetEx]
    rw [run]
    refine ⟨iff_of_true rfl (acceptable_nil valid), fun _ => ?_, fun failed => absurd rfl failed⟩
    exact ⟨(overridden_nil vals.validators).symm ▸ .refl _, valid.distinct, valid.total_eq,
      fun full => absurd rfl full⟩
  by_cases acceptable : Acceptable vals changes
  · obtain ⟨after, run, settled⟩ :=
      exec_updateWithChangeSet_accepted valid keyed empty acceptable
    rw [run]
    refine ⟨iff_of_true rfl acceptable, fun _ => ?_, fun failed => absurd rfl failed⟩
    refine ⟨settled.identity, ?_, settled.total_eq, fun _ => ?_⟩
    · exact (addresses_of_identity settled.identity).nodup_iff.mpr
        (overridden_distinct valid.distinct acceptable.toWellFormed)
    · exact settled.sorted.imp powerKey_lt_iff.mp
  · obtain ⟨code, stage⟩ := exec_stageChangeSet_refused valid.toSound
      (show ¬ (Acceptable vals changes ∧ (true = true ∨ removalsOf changes = [])) from
        fun both => acceptable both.1)
    have run : (updateWithChangeSet changes).exec vals = (.error code, vals) := by
      simp only [updateWithChangeSet, updateWithChangeSetEx, if_neg empty, exec_bind, stage]
    rw [run]
    exact ⟨iff_of_false (by simp) acceptable, by simp, fun _ => rfl⟩

def ascendingSet : ValidatorSet where
  validators := [⟨[1], some [], 1, 0⟩, ⟨[2], some [], 2, 0⟩]
  validatorsCap := 128
  proposer := none
  totalVotingPower := 3
  allKeysHaveSameType := true
  cap_le := by decide
  length_le := by decide

theorem ascendingSet_valid : ascendingSet.Valid where
  distinct := by decide
  positive := by decide
  total_eq := by decide
  total_le := by decide
  nonempty := by decide
  keyed := by decide

/-- On a set of two members: one removed, one changed and one added. -/
theorem updateWithChangeSet_spec_ascending :
    ((updateWithChangeSet [⟨[1], some [], 0, 0⟩, ⟨[2], some [], 5, 0⟩,
        ⟨[3], some [], 7, 0⟩]).exec ascendingSet).1 = .ok () ∧
      Acceptable ascendingSet [⟨[1], some [], 0, 0⟩, ⟨[2], some [], 5, 0⟩, ⟨[3], some [], 7, 0⟩] :=
  have passed : ((updateWithChangeSet [⟨[1], some [], 0, 0⟩, ⟨[2], some [], 5, 0⟩,
      ⟨[3], some [], 7, 0⟩]).exec ascendingSet).1 = .ok () := by decide +kernel
  ⟨passed, (updateWithChangeSet_spec ascendingSet _ ascendingSet_valid (by decide)).1.mp passed⟩

/-- A single change with an empty address is refused although no address occurs twice,
and an empty list leaves the members in whatever order they were. -/
theorem updateWithChangeSet_edges :
    ascendingSet.Valid ∧
    (∃ changes : List Validator,
      (∀ c ∈ changes, c.pubKey.isSome) ∧
      (changes.map address).Nodup ∧
      (∀ c ∈ changes, 0 ≤ c.votingPower ∧ c.votingPower ≤ maxTotalVotingPower) ∧
      (∀ c ∈ changes, c.votingPower = 0 → c.address ∈ ascendingSet.validators.map address) ∧
      overridden ascendingSet.validators changes ≠ [] ∧
      (overridden ascendingSet.validators changes).length ≤ valsetMax ∧
      power (overridden ascendingSet.validators changes) ≤ maxTotalVotingPower.toInt ∧
      ((updateWithChangeSet changes).exec ascendingSet).1 ≠ .ok ()) ∧
    ((updateWithChangeSet []).exec ascendingSet).1 = .ok () ∧
    ¬ ((updateWithChangeSet []).exec ascendingSet).2.validators.Pairwise fun a b =>
      b.votingPower < a.votingPower ∨ (a.votingPower = b.votingPower ∧ a.address < b.address) := by
  refine ⟨ascendingSet_valid, ⟨[⟨[], some [], 1, 0⟩], ?_⟩, ?_, ?_⟩
  · decide +kernel
  · decide +kernel
  · decide +kernel

end DnaLedger.Cmt
