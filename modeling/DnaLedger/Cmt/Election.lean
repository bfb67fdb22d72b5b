import DnaLedger.Cmt.ValidatorSetUpdate

/-!
# The election of proposers

Updates and elections keep a set valid, so no election fails.
-/

namespace DnaLedger.Cmt

open List Validator Program

/-- Larger priorities first, then smaller addresses. -/
def priorityKey (v : Validator) : ℤ ×ₗ Bytes :=
  toLex (-v.proposerPriority.toInt, v.address)

/-- The member at the index comes first. -/
def Leader (members : List Validator) (best : Nat × Validator) : Prop :=
  members[best.1]? = some best.2 ∧ ∀ v ∈ members, priorityKey best.2 ≤ priorityKey v

def Validator.lower (total : Int64) (v : Validator) : Validator :=
  { v with proposerPriority := safeSubClip v.proposerPriority total }

/-- The sets differ in priorities, and in who was proposer. -/
structure SameMembers (before after : ValidatorSet) : Prop where
  identity : after.validators.map identity = before.validators.map identity
  total : after.totalVotingPower = before.totalVotingPower

/-- The proposer came first before its priority was lowered by the total power. -/
structure Elects (before after : ValidatorSet) (proposer : Validator) : Prop
    extends SameMembers before after where
  leader : ∃ raised best, Leader raised best ∧
    after.validators = raised.modify best.1 (lower before.totalVotingPower) ∧
    proposer = lower before.totalVotingPower best.2

inductive SetCall where
  | update (changes : List Validator)
  | elect (times : Int32)

def ValidatorSet.serve (vals : ValidatorSet) : SetCall → ValidatorSet
  | .update changes => ((updateWithChangeSet changes).exec vals).2
  | .elect times => ((incrementProposerPriority times).exec vals).2

variable {vals middle after : ValidatorSet} {members rest changes : List Validator}
  {times : Int32} {v other proposer : Validator} {calls : List SetCall}

theorem compareProposerPriority_eq (apart : v.address ≠ other.address) :
    ∃ winner, compareProposerPriority v other = .ok winner ∧ (winner = v ∨ winner = other) ∧
      priorityKey winner ≤ priorityKey v ∧ priorityKey winner ≤ priorityKey other := by
  have order := lt_or_gt_of_ne apart
  grind [compareProposerPriority, priorityKey, Prod.Lex.toLex_le_toLex, Int64.lt_iff_toInt_lt]

theorem mostPriorityFrom_eq {best : Nat × Validator} (leads : Leader members best)
    (nodup : ((members ++ rest).map address).Nodup) :
    ∃ last, mostPriorityFrom best members.length rest = .ok last ∧
      Leader (members ++ rest) last := by
  induction rest generalizing members best with
  | nil => exact ⟨best, rfl, by simpa using leads⟩
  | cons v rest ih =>
    obtain ⟨found, first⟩ := leads
    have apart : best.2.address ≠ v.address := by
      rw [map_append, nodup_append] at nodup
      exact nodup.2.2 _ (mem_map_of_mem (mem_of_getElem? found)) _ (by simp)
    obtain ⟨winner, compared, either, left, right⟩ := compareProposerPriority_eq apart
    have next : Leader (members ++ [v])
        (if winner = best.2 then best else (members.length, winner)) := by
      split
      next eq =>
        have inside := (List.getElem?_eq_some_iff.mp found).1
        exact ⟨(getElem?_append_left inside).trans found,
          forall_mem_append.mpr ⟨first, by simpa [eq] using right⟩⟩
      next changed =>
        obtain rfl := either.resolve_left changed
        exact ⟨by simp, forall_mem_append.mpr
          ⟨fun w mem => left.trans (first w mem), by simp⟩⟩
    obtain ⟨last, rest_eq, leads⟩ := ih next (by simpa using nodup)
    refine ⟨last, ?_, by simpa using leads⟩
    rw [mostPriorityFrom, compared]
    rw [length_append] at rest_eq
    exact rest_eq

theorem mostPriorityIndex_eq (filled : members ≠ []) (nodup : (members.map address).Nodup) :
    ∃ best, mostPriorityIndex members = .ok best ∧ Leader members best := by
  cases members with
  | nil => exact absurd rfl filled
  | cons v rest =>
    have alone : Leader [v] (0, v) := ⟨rfl, by simp⟩
    exact mostPriorityFrom_eq alone nodup

theorem valid_of_perm (writable : Writable members) (keyed : ∀ v ∈ members, v.pubKey.isSome)
    (perm : (after.validators.map identity).Perm (members.map identity))
    (total_eq : after.totalVotingPower.toInt = power after.validators) : after.Valid where
  distinct := (addresses_of_identity perm).nodup_iff.mpr writable.distinct
  positive := forall_of_identity (fun i => 0 < i.2.2) perm writable.positive
  total_eq := total_eq
  total_le := Int64.le_iff_toInt_le.mpr (total_eq ▸ power_of_identity perm ▸ writable.bounded)
  nonempty := fun empty => writable.nonempty (by simpa [empty] using perm.symm)
  keyed := forall_of_identity (fun i => i.2.1.isSome) perm keyed

theorem SameMembers.valid (eq : SameMembers vals after) (valid : vals.Valid) : after.Valid := by
  have bound := Int64.le_iff_toInt_le.mp valid.total_le
  rw [valid.total_eq] at bound
  refine valid_of_perm ⟨valid.nonempty, valid.distinct, valid.positive, bound⟩ valid.keyed
    (.of_eq eq.identity) ?_
  rw [eq.total, valid.total_eq, power_of_identity (.of_eq eq.identity)]

theorem sameMembers_mapPriority (change : Validator → Int64) :
    SameMembers vals (vals.mapPriority change) :=
  ⟨identity_mapPriority change, rfl⟩

theorem Elects.trans (eq : SameMembers vals middle) (elects : Elects middle after proposer) :
    Elects vals after proposer :=
  ⟨⟨elects.identity.trans eq.identity, elects.total.trans eq.total⟩, eq.total ▸ elects.leader⟩

theorem identity_modify (i : Nat) (total : Int64) :
    (members.modify i (lower total)).map identity = members.map identity := by
  refine ext_getElem? fun j => ?_
  rw [getElem?_map, getElem?_map, getElem?_modify]
  cases members[j]? <;> simp [apply_ite, identity, lower]

section

variable (valid : vals.Valid)

include valid

theorem exec_incrementProposerPriorityOnce :
    ∃ after proposer, incrementProposerPriorityOnce.exec vals = (.ok proposer, after) ∧
      Elects vals after proposer := by
  let raised := vals.mapPriority fun v => safeAddClip v.proposerPriority v.votingPower
  have eq : SameMembers vals raised := sameMembers_mapPriority _
  have raisedValid := eq.valid valid
  obtain ⟨best, chosen, leader⟩ := mostPriorityIndex_eq raisedValid.nonempty raisedValid.distinct
  refine ⟨raised.modifyPriority best.1 fun priority => safeSubClip priority vals.totalVotingPower,
    lower vals.totalVotingPower best.2, ?_,
    ⟨(identity_modify best.1 vals.totalVotingPower).trans eq.identity, rfl⟩,
    raised.validators, best, leader, rfl, rfl⟩
  have total := exec_totalVotingPower raisedValid.toSound
  simp only [incrementProposerPriorityOnce, exec_bind, exec_get, valid.nonempty, if_false,
    exec_modify]
  rw [show mostPriorityIndex (vals.mapPriority _).validators = .ok best from chosen]
  simp only [exec_liftExcept]
  rw [show totalVotingPower.exec (vals.mapPriority _) = _ from total]
  rfl

theorem exec_incrementRounds (rounds : Nat) :
    ∃ after proposer, (incrementRounds (rounds + 1)).exec vals = (.ok (some proposer), after) ∧
      Elects vals after proposer := by
  induction rounds with
  | zero =>
    obtain ⟨after, proposer, once, elects⟩ := exec_incrementProposerPriorityOnce valid
    exact ⟨after, proposer, by simp [incrementRounds, once], elects⟩
  | succ rounds ih =>
    obtain ⟨middle, _, earlier, kept⟩ := ih
    have eq := kept.toSameMembers
    obtain ⟨after, proposer, once, elects⟩ := exec_incrementProposerPriorityOnce (eq.valid valid)
    refine ⟨after, proposer, ?_, elects.trans eq⟩
    rw [incrementRounds, exec_bind, earlier]
    simp [once]

theorem exec_incrementProposerPriority (positive : 0 < times) :
    ∃ after proposer, (incrementProposerPriority times).exec vals = (.ok (), after) ∧
      after.proposer = some proposer ∧ Elects vals after proposer := by
  have window : (priorityWindowSizeFactor * vals.totalVotingPower).toInt ≤ 2 ^ 61 := by
    have nonneg := power_nonneg valid.positive
    have bound := Int64.le_iff_toInt_le.mp valid.total_le
    rw [toInt_priorityWindow (valid.total_eq ▸ nonneg) bound]
    rw [toInt_maxTotalVotingPower] at bound
    omega
  obtain ⟨scale, rescaled⟩ := exec_rescalePriorities valid.nonempty window
  have scaledValid := (sameMembers_mapPriority scale).valid valid
  obtain ⟨shift, shifted⟩ := exec_shiftByAvgProposerPriority scaledValid.nonempty
  have eq : SameMembers vals ((vals.mapPriority scale).mapPriority shift) :=
    ⟨(identity_mapPriority shift).trans (identity_mapPriority scale), rfl⟩
  obtain ⟨rounds, count⟩ : ∃ rounds, times.toInt.toNat = rounds + 1 := by
    have := Int32.lt_iff_toInt_lt.mp positive
    exact ⟨times.toInt.toNat - 1, by simp at this; omega⟩
  obtain ⟨after, proposer, run, elects⟩ := exec_incrementRounds (eq.valid valid) rounds
  have elects := elects.trans eq
  refine ⟨{ after with proposer := some proposer }, proposer, ?_, rfl,
    ⟨elects.identity, elects.total⟩, elects.leader⟩
  simp only [incrementProposerPriority, exec_bind, exec_get, valid.nonempty, if_false,
    Int32.not_le.mpr positive, exec_totalVotingPower valid.toSound, rescaled, shifted, count, run,
    exec_modify]

theorem exec_updateWithChangeSet_valid (keyed : ∀ c ∈ changes, c.pubKey.isSome) :
    ((updateWithChangeSet changes).exec vals).2.Valid := by
  by_cases empty : changes = []
  · subst empty
    simpa [updateWithChangeSet, updateWithChangeSetEx] using valid
  by_cases acceptable : Acceptable vals changes
  · obtain ⟨after, run, settled⟩ := exec_updateWithChangeSet_accepted valid keyed empty acceptable
    have staged := identity_staged valid.distinct acceptable.toWellFormed 0
    rw [run]
    refine valid_of_perm (staged_writable valid.toSound acceptable 0) ?_
      (settled.identity.trans staged.symm) settled.total_eq
    refine forall_of_identity (fun i => i.2.1.isSome) staged fun v mem => ?_
    rcases mem_append.mp mem with kept | changed
    · exact valid.keyed v (mem_of_mem_filter kept)
    · exact keyed v (mem_of_mem_filter changed)
  · obtain ⟨code, stage⟩ := exec_stageChangeSet_refused valid.toSound
      (show ¬ (Acceptable vals changes ∧ (true = true ∨ removalsOf changes = [])) from
        fun both => acceptable both.1)
    simpa [updateWithChangeSet, updateWithChangeSetEx, empty, exec_bind, stage] using valid

theorem foldl_serve_valid
    (keyed : ∀ changes, .update changes ∈ calls → ∀ c ∈ changes, c.pubKey.isSome) :
    (calls.foldl ValidatorSet.serve vals).Valid := by
  induction calls generalizing vals with
  | nil => exact valid
  | cons call calls ih =>
    refine ih ?_ fun changes mem => keyed changes (mem_cons_of_mem _ mem)
    cases call with
    | update changes => exact exec_updateWithChangeSet_valid valid (keyed changes (by simp))
    | elect times =>
      by_cases pos : 0 < times
      · obtain ⟨after, _, run, -, elects⟩ := exec_incrementProposerPriority valid pos
        rw [ValidatorSet.serve, run]
        exact elects.valid valid
      · simpa [ValidatorSet.serve, incrementProposerPriority, exec_bind, valid.nonempty,
          Int32.not_lt.mp pos] using valid

/-- After any updates and elections, accepted or refused, the set is valid, and the next election
succeeds with a member as its proposer. -/
theorem foldl_serve_elects
    (keyed : ∀ changes, .update changes ∈ calls → ∀ c ∈ changes, c.pubKey.isSome)
    (pos : 0 < times) :
    (calls.foldl ValidatorSet.serve vals).Valid ∧
      ∃ after proposer, (incrementProposerPriority times).exec
          (calls.foldl ValidatorSet.serve vals) = (.ok (), after) ∧
        after.proposer = some proposer ∧ proposer ∈ after.validators ∧
        Elects (calls.foldl ValidatorSet.serve vals) after proposer := by
  have now := foldl_serve_valid valid keyed
  obtain ⟨after, proposer, run, set, elects⟩ := exec_incrementProposerPriority now pos
  refine ⟨now, after, proposer, run, set, ?_, elects⟩
  obtain ⟨raised, best, ⟨found, -⟩, lowered, rfl⟩ := elects.leader
  rw [lowered]
  exact mem_of_getElem? (show (raised.modify best.1 _)[best.1]? = _ by simp [found])

end

theorem foldl_serve_elects_ascending :
    ((incrementProposerPriority 1).exec
      ([.update [⟨[3], some [], 7, 0⟩], .elect 2].foldl ValidatorSet.serve ascendingSet)).1 =
        .ok () := by
  obtain ⟨-, _, _, run, -⟩ := @foldl_serve_elects _ 1
    [.update [⟨[3], some [], 7, 0⟩], .elect 2] ascendingSet_valid (by simp) (by decide)
  rw [run]

end DnaLedger.Cmt
