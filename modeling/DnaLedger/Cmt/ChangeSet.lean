import DnaLedger.Cmt.ValidatorSet

/-!
# The passes over a change list

The passes of `stageChangeSet` compared with the plain meaning of the update: the old members,
overridden by the changes with a positive power and without those that a change with power zero
names.
-/

namespace DnaLedger.Cmt

open Sorting SInt64 Program Validator Int64
open List hiding insertionSort mem_insertionSort

/-- What an update decides of a member; the priority is recomputed. -/
def Validator.identity (v : Validator) : Bytes × Option Bytes × Int64 :=
  (v.address, v.pubKey, v.votingPower)

def power (validators : List Validator) : Int :=
  (validators.map fun v => v.votingPower.toInt).sum

/-- Members with distinct addresses and positive powers that add up to the cached total, which is
within the maximum. -/
structure ValidatorSet.Sound (vals : ValidatorSet) : Prop where
  distinct : (vals.validators.map address).Nodup
  positive : ∀ v ∈ vals.validators, 0 < v.votingPower
  total_eq : vals.totalVotingPower.toInt = power vals.validators
  total_le : vals.totalVotingPower ≤ maxTotalVotingPower

structure ValidatorSet.Valid (vals : ValidatorSet) : Prop extends vals.Sound where
  nonempty : vals.validators ≠ []
  keyed : ∀ v ∈ vals.validators, v.pubKey.isSome

/-- The plain meaning of a change list: the members it does not name, and its entries with a
power. -/
def overridden (members changes : List Validator) : List Validator :=
  members.filter (fun v => decide (v.address ∉ changes.map address)) ++
    changes.filter fun c => decide (c.votingPower ≠ 0)

/-- What a change list must be by itself. -/
structure WellFormed (changes : List Validator) : Prop where
  distinct : (changes.map address).Nodup
  addressed : ∀ c ∈ changes, c.address ≠ []
  range : ∀ c ∈ changes, 0 ≤ c.votingPower ∧ c.votingPower ≤ maxTotalVotingPower

/-- What a change list must be for a set. -/
structure Acceptable (vals : ValidatorSet) (changes : List Validator) : Prop
    extends WellFormed changes where
  removable : ∀ c ∈ changes, c.votingPower = 0 →
    c.address ∈ vals.validators.map address
  nonempty : overridden vals.validators changes ≠ []
  fits : (overridden vals.validators changes).length ≤ vals.validatorsCap
  bounded : power (overridden vals.validators changes) ≤ maxTotalVotingPower.toInt

/-! ## Splitting the changes -/

theorem byAddressLess_compares : ComparesBy byAddressLess address := by
  intro a b
  simp [byAddressLess]

theorem sortByAddress_perm (validators : List Validator) :
    (sortByAddress validators).Perm validators :=
  insertionSort_perm _ validators

variable {validators : List Validator}

theorem mem_sortByAddress {v : Validator} : v ∈ sortByAddress validators ↔ v ∈ validators :=
  mem_insertionSort

theorem sortedBy_sortByAddress (distinct : (validators.map address).Nodup) :
    SortedBy address (sortByAddress validators) :=
  sortedBy_insertionSort byAddressLess_compares distinct

/-- The changes with and without a power, in the order of their addresses. -/
def updatesOf (changes : List Validator) : List Validator :=
  (sortByAddress changes).filter fun c => decide (c.votingPower ≠ 0)

def removalsOf (changes : List Validator) : List Validator :=
  (sortByAddress changes).filter fun c => decide (c.votingPower = 0)

variable {changes : List Validator}

theorem splitChanges_eq_ok {prevAddr : Bytes} {result : List Validator × List Validator} :
    splitChanges prevAddr changes = .ok result ↔
      (prevAddr :: changes.map Validator.address).IsChain (· ≠ ·) ∧
      (∀ c ∈ changes, 0 ≤ c.votingPower ∧ c.votingPower ≤ maxTotalVotingPower) ∧
      result = (changes.filter fun c => decide (c.votingPower ≠ 0),
        changes.filter fun c => decide (c.votingPower = 0)) := by
  induction changes generalizing prevAddr result with
  | nil => simp [splitChanges, eq_comm]
  | cons u rest ih =>
    rw [splitChanges]
    split
    next same => simp [same]
    next apart =>
      split
      next negative =>
        have outside : ¬ 0 ≤ u.votingPower := by grind
        simp [outside]
      next nonneg =>
        split
        next large =>
          have outside : ¬ u.votingPower ≤ maxTotalVotingPower := by grind
          simp [outside]
        next small =>
          have inside : 0 ≤ u.votingPower ∧ u.votingPower ≤ maxTotalVotingPower := by grind
          rw [bind_eq_ok, map_cons, isChain_cons_cons, forall_mem_cons]
          constructor
          · rintro ⟨⟨updates, removals⟩, run, result⟩
            obtain ⟨chain, range, eq⟩ := ih.mp run
            cases eq
            cases result
            refine ⟨⟨Ne.symm apart, chain⟩, ⟨inside, range⟩, ?_⟩
            by_cases zero : u.votingPower = 0 <;> simp [zero]
          · rintro ⟨⟨-, chain⟩, ⟨-, range⟩, eq⟩
            refine ⟨_, ih.mpr ⟨chain, range, rfl⟩, ?_⟩
            rw [eq]
            by_cases zero : u.votingPower = 0 <;> simp [zero] <;> rfl

/-- No address of the sorted changes repeats the one before it exactly when none occurs twice and
none is empty. -/
theorem isChain_sortByAddress :
    (([] : Bytes) :: (sortByAddress changes).map Validator.address).IsChain (· ≠ ·) ↔
      (changes.map Validator.address).Nodup ∧ ∀ c ∈ changes, c.address ≠ [] := by
  have ordered : (([] : Bytes) :: (sortByAddress changes).map address).Pairwise
      (· ≤ ·) := by
    refine pairwise_cons.mpr ⟨fun address _ => ?_, pairwise_map.mpr ?_⟩
    · exact not_lt.mp (not_lt_nil address)
    · exact (insertionSort_sorted byAddressLess_compares.strictWeak changes).imp
        byAddressLess_compares.eq_false.mp
  have perm := (sortByAddress_perm changes).map address
  constructor
  · intro chain
    have strict : (([] : Bytes) :: (sortByAddress changes).map address).IsChain
        (· < ·) := by
      have ordered := ordered.isChain
      rw [isChain_iff_getElem] at chain ordered ⊢
      exact fun index bound => lt_of_le_of_ne (ordered index bound) (chain index bound)
    have nodup : (([] : Bytes) :: (sortByAddress changes).map address).Nodup :=
      (isChain_iff_pairwise.mp strict).imp ne_of_lt
    obtain ⟨notEmpty, nodup⟩ := nodup_cons.mp nodup
    refine ⟨perm.nodup_iff.mp nodup, fun c mem empty => notEmpty ?_⟩
    exact perm.mem_iff.mpr (mem_map.mpr ⟨c, mem, empty⟩)
  · rintro ⟨nodup, addressed⟩
    refine Pairwise.isChain (nodup_cons.mpr ⟨?_, perm.nodup_iff.mpr nodup⟩)
    intro mem
    obtain ⟨c, c_mem, empty⟩ := mem_map.mp (perm.mem_iff.mp mem)
    exact addressed c c_mem empty

theorem processChanges_eq_ok {result : List Validator × List Validator} :
    processChanges changes = .ok result ↔
      changes.length ≤ valsetMaxChanges ∧ WellFormed changes ∧
      result = (updatesOf changes, removalsOf changes) := by
  have members : (∀ c ∈ sortByAddress changes,
      0 ≤ c.votingPower ∧ c.votingPower ≤ maxTotalVotingPower) ↔
      ∀ c ∈ changes, 0 ≤ c.votingPower ∧ c.votingPower ≤ maxTotalVotingPower := by
    simp only [sortByAddress, mem_insertionSort]
  rw [processChanges]
  split
  next long => simp [Nat.not_le.mpr long]
  next short =>
    rw [splitChanges_eq_ok, isChain_sortByAddress, members]
    constructor
    · rintro ⟨⟨distinct, addressed⟩, range, eq⟩
      exact ⟨Nat.not_lt.mp short, ⟨distinct, addressed, range⟩, eq⟩
    · rintro ⟨-, ⟨distinct, addressed, range⟩, eq⟩
      exact ⟨⟨distinct, addressed⟩, range, eq⟩

theorem mem_updatesOf {c : Validator} :
    c ∈ updatesOf changes ↔ c ∈ changes ∧ c.votingPower ≠ 0 := by
  simp [updatesOf, sortByAddress]

theorem mem_removalsOf {c : Validator} :
    c ∈ removalsOf changes ↔ c ∈ changes ∧ c.votingPower = 0 := by
  simp [removalsOf, sortByAddress]

theorem updatesOf_perm (changes : List Validator) :
    (updatesOf changes).Perm (changes.filter fun c => decide (c.votingPower ≠ 0)) :=
  (sortByAddress_perm changes).filter _

theorem removalsOf_perm (changes : List Validator) :
    (removalsOf changes).Perm (changes.filter fun c => decide (c.votingPower = 0)) :=
  (sortByAddress_perm changes).filter _

section

variable {changes : List Validator} (wellFormed : WellFormed changes)

include wellFormed

theorem sortedBy_updatesOf : SortedBy address (updatesOf changes) :=
  (sortedBy_sortByAddress wellFormed.distinct).filter _

theorem sortedBy_removalsOf : SortedBy address (removalsOf changes) :=
  (sortedBy_sortByAddress wellFormed.distinct).filter _

theorem updatesOf_positive {u : Validator} (update : u ∈ updatesOf changes) :
    0 < u.votingPower := by
  obtain ⟨mem, hasPower⟩ := mem_updatesOf.mp update
  have := (wellFormed.range u mem).1
  grind

theorem updatesOf_disjoint {u r : Validator} (update : u ∈ updatesOf changes)
    (removal : r ∈ removalsOf changes) : u.address ≠ r.address := by
  obtain ⟨u_mem, hasPower⟩ := mem_updatesOf.mp update
  obtain ⟨r_mem, zero⟩ := mem_removalsOf.mp removal
  intro same
  have eq := inj_on_of_nodup_map wellFormed.distinct u_mem r_mem same
  exact hasPower (eq ▸ zero)

end

theorem toInt_maxTotalVotingPower : maxTotalVotingPower.toInt = 2 ^ 60 - 1 := by
  decide

def powerAt (members : List Validator) (address : Bytes) : Int :=
  weightAt Validator.address (fun v => v.votingPower.toInt) members address

variable {members : List Validator}

theorem getByAddress_eq_none {address : Bytes} :
    getByAddress members address = none ↔ address ∉ members.map Validator.address := by
  simp [getByAddress]

theorem powerAt_of_getByAddress {address : Bytes} {v : Validator}
    (found : getByAddress members address = some v) :
    powerAt members address = v.votingPower.toInt := by
  rw [getByAddress] at found
  rw [powerAt, weightAt, found]
  rfl

theorem powerAt_nonneg (positive : ∀ v ∈ members, 0 < v.votingPower) (address : Bytes) :
    0 ≤ powerAt members address := by
  cases found : getByAddress members address with
  | none =>
    have absent := getByAddress_eq_none.mp found
    exact (weightAt_eq_zero absent).ge
  | some v =>
    have bound := Int64.lt_iff_toInt_lt.mp (positive v (List.mem_of_find?_eq_some found))
    rw [powerAt_of_getByAddress found]
    exact bound.le

theorem removedPower_eq_ok {deletes : List Validator} {removed : Int64}
    (positive : ∀ v ∈ members, 0 < v.votingPower)
    (known : ∀ gone ∈ deletes, gone.address ∈ members.map address)
    (nonneg : 0 ≤ removed.toInt)
    (bound : removed.toInt + (deletes.map fun g => powerAt members g.address).sum < 2 ^ 63) :
    ∃ total, removedPower members removed deletes = .ok total ∧
      total.toInt = removed.toInt + (deletes.map fun g => powerAt members g.address).sum := by
  induction deletes generalizing removed with
  | nil => exact ⟨removed, rfl, by simp⟩
  | cons gone rest ih =>
    obtain ⟨goneKnown, restKnown⟩ := forall_mem_cons.mp known
    rw [map_cons, sum_cons] at bound ⊢
    have restNonneg : 0 ≤ (rest.map fun g => powerAt members g.address).sum :=
      sum_nonneg (by simp [powerAt_nonneg positive])
    have goneNonneg := powerAt_nonneg positive gone.address
    rw [removedPower]
    split
    next missing => exact absurd goneKnown (getByAddress_eq_none.mp missing)
    next found lookup =>
      rw [powerAt_of_getByAddress lookup] at bound goneNonneg ⊢
      have step : (removed + found.votingPower).toInt =
          removed.toInt + found.votingPower.toInt :=
        toInt_add ⟨by omega, by omega⟩
      obtain ⟨total, run, eq⟩ :=
        ih restKnown (show 0 ≤ (removed + found.votingPower).toInt by omega) (by omega)
      exact ⟨total, run, by omega⟩

theorem removedPower_eq_reject {deletes : List Validator} (removed : Int64) {gone : Validator}
    (mem : gone ∈ deletes) (unknown : gone.address ∉ members.map address) :
    removedPower members removed deletes = .error .reject := by
  induction deletes generalizing removed with
  | nil => cases mem
  | cons first rest ih =>
    rw [removedPower]
    split
    next => rfl
    next found lookup =>
      rcases mem_cons.mp mem with rfl | later
      · exact absurd (getByAddress_eq_none.mpr unknown) (by simp [lookup])
      · exact ih _ later

/-- Adding ascending deltas passes the maximum on the way only if it ends beyond it. -/
theorem addDeltas_spec {sum : Int64} {deltas : List Int64} (ascending : deltas.Pairwise (· ≤ ·))
    (small : ∀ delta ∈ deltas, delta ≤ maxTotalVotingPower)
    (upper : sum ≤ maxTotalVotingPower)
    (lower : 0 ≤ sum.toInt + (deltas.map fun delta => min delta.toInt 0).sum) :
    if sum.toInt + (deltas.map Int64.toInt).sum ≤ maxTotalVotingPower.toInt then
      ∃ total, addDeltas sum deltas = .ok total ∧
        total.toInt = sum.toInt + (deltas.map Int64.toInt).sum
    else addDeltas sum deltas = .error .reject := by
  induction deltas generalizing sum with
  | nil =>
    rw [if_pos (by simpa using le_iff_toInt_le.mp upper)]
    exact ⟨sum, rfl, by simp⟩
  | cons delta rest ih =>
    obtain ⟨first, restAscending⟩ := pairwise_cons.mp ascending
    obtain ⟨deltaSmall, restSmall⟩ := forall_mem_cons.mp small
    have restLower : (rest.map fun delta => min delta.toInt 0).sum ≤ 0 := by
      simpa using
        sum_le_sum fun (delta : Int64) (_ : delta ∈ rest) => min_le_right delta.toInt 0
    have bound := le_iff_toInt_le.mp deltaSmall
    have sumBound := le_iff_toInt_le.mp upper
    simp only [map_cons, sum_cons] at lower ⊢
    rw [toInt_maxTotalVotingPower] at bound sumBound
    have step : (sum + delta).toInt = sum.toInt + delta.toInt :=
      toInt_add ⟨by omega, by omega⟩
    rw [addDeltas, ← add_assoc, ← step]
    by_cases past : maxTotalVotingPower < sum + delta
    · -- A positive delta took the sum beyond the maximum, and the later ones are larger.
      have pastInt := lt_iff_toInt_lt.mp past
      rw [toInt_maxTotalVotingPower] at pastInt ⊢
      have restNonneg : 0 ≤ (rest.map toInt).sum := by
        refine sum_nonneg fun value mem => ?_
        obtain ⟨other, other_mem, rfl⟩ := mem_map.mp mem
        have := le_iff_toInt_le.mp (first other other_mem)
        omega
      rw [if_neg (by omega), if_pos past]
    · have within : sum + delta ≤ maxTotalVotingPower := Int64.not_lt.mp past
      rw [if_neg past]
      exact ih restAscending restSmall within (by omega)

/-! ## Sizes and sums of the result -/

section

variable {members changes : List Validator}

def kept (members changes : List Validator) : List Validator :=
  members.filter fun v => decide (v.address ∉ changes.map address)

theorem sum_members_split (weight : Validator → Int)
    (distinct : (members.map address).Nodup) (wellFormed : WellFormed changes) :
    (members.map weight).sum =
      ((kept members changes).map weight).sum +
      ((updatesOf changes).map fun u =>
        weightAt address weight members u.address).sum +
      ((removalsOf changes).map fun r =>
        weightAt address weight members r.address).sum := by
  let named := (updatesOf changes ++ removalsOf changes).map address
  have perm : (updatesOf changes ++ removalsOf changes).Perm changes := by
    have parts := (updatesOf_perm changes).append (removalsOf_perm changes)
    refine parts.trans ?_
    simpa using filter_append_perm (fun c : Validator => decide (c.votingPower ≠ 0)) changes
  have namedPerm : named.Perm (changes.map address) := perm.map _
  have lookups := sum_weightAt address weight distinct
    (namedPerm.nodup_iff.mpr wellFormed.distinct)
  have known : (members.filter fun v => named.contains v.address) =
      members.filter fun v => decide (v.address ∈ changes.map address) := by
    refine filter_congr fun v _ => ?_
    rw [Bool.eq_iff_iff, contains_iff_mem, decide_eq_true_eq]
    exact namedPerm.mem_iff
  have halves := (filter_append_perm
    (fun v : Validator => decide (v.address ∈ changes.map address)) members).map weight
  rw [known] at lookups
  simp only [named, map_append, sum_append, map_map, Function.comp_def] at lookups
  rw [← halves.sum_eq, map_append, sum_append, ← lookups]
  simp only [kept, decide_not]
  omega

theorem power_append (first second : List Validator) :
    power (first ++ second) = power first + power second := by
  simp [power]

theorem power_perm {first second : List Validator} (perm : first.Perm second) :
    power first = power second :=
  (perm.map _).sum_eq

theorem power_nonneg (positive : ∀ v ∈ validators, 0 < v.votingPower) : 0 ≤ power validators := by
  refine sum_nonneg fun value mem => ?_
  obtain ⟨v, v_mem, rfl⟩ := mem_map.mp mem
  exact (lt_iff_toInt_lt.mp (positive v v_mem)).le

theorem power_overridden : power (overridden members changes) =
    power (kept members changes) + power (updatesOf changes) := by
  rw [overridden, power_append, power_perm (updatesOf_perm changes), kept]

def removedSum (members changes : List Validator) : Int :=
  ((removalsOf changes).map fun r => powerAt members r.address).sum

def updatedSum (members changes : List Validator) : Int :=
  ((updatesOf changes).map fun u => powerAt members u.address).sum

theorem removedSum_nonneg (changes : List Validator) (positive : ∀ v ∈ members, 0 < v.votingPower) :
    0 ≤ removedSum members changes :=
  sum_nonneg (by simp [powerAt_nonneg positive])

theorem updatedSum_nonneg (changes : List Validator) (positive : ∀ v ∈ members, 0 < v.votingPower) :
    0 ≤ updatedSum members changes :=
  sum_nonneg (by simp [powerAt_nonneg positive])

theorem power_kept_nonneg (changes : List Validator) (positive : ∀ v ∈ members, 0 < v.votingPower) :
    0 ≤ power (kept members changes) :=
  power_nonneg fun v mem => positive v (mem_of_mem_filter mem)

theorem power_members_split (distinct : (members.map address).Nodup)
    (wellFormed : WellFormed changes) :
    power members = power (kept members changes) + updatedSum members changes +
      removedSum members changes :=
  sum_members_split (fun v => v.votingPower.toInt) distinct wellFormed

theorem hasAddress_iff {address : Bytes} :
    hasAddress members address = true ↔ address ∈ members.map Validator.address := by
  simp [hasAddress]

theorem weightAt_one (address : Bytes) :
    weightAt Validator.address (fun _ => 1) members address =
      if hasAddress members address then 1 else 0 := by
  induction members with
  | nil => rfl
  | cons v rest ih =>
    rw [weightAt_cons, ih]
    by_cases eq : v.address = address <;> simp [hasAddress, eq]

theorem sum_known_updates (members updates : List Validator) :
    (updates.map fun u => weightAt address (fun _ => 1) members u.address).sum +
      numNewValidators updates members = updates.length := by
  induction updates with
  | nil => rfl
  | cons u rest ih =>
    rw [map_cons, sum_cons, numNewValidators, countP_cons, ← numNewValidators,
      weightAt_one, length_cons]
    cases hasAddress members u.address <;> simp <;> omega

theorem length_overridden (distinct : (members.map address).Nodup) (wellFormed : WellFormed changes)
    (removable : ∀ r ∈ removalsOf changes, r.address ∈ members.map address) :
    (overridden members changes).length + (removalsOf changes).length =
      members.length + numNewValidators (updatesOf changes) members := by
  have split := sum_members_split (fun _ => 1) distinct wellFormed
  have updates := sum_known_updates members (updatesOf changes)
  have removals : (removalsOf changes).map (fun r =>
      weightAt address (fun _ => 1) members r.address) =
      (removalsOf changes).map fun _ => 1 := by
    refine map_congr_left fun r mem => ?_
    rw [weightAt_one, if_pos (hasAddress_iff.mpr (removable r mem))]
  have length : (overridden members changes).length =
      (kept members changes).length + (updatesOf changes).length := by
    rw [overridden, length_append, (updatesOf_perm changes).length_eq, kept]
  rw [removals] at split
  simp only [map_const', sum_replicate, nsmul_eq_mul] at split
  omega

end

theorem sumVotingPower_eq_ok {sum : Int64} (positive : ∀ v ∈ validators, 0 < v.votingPower)
    (nonneg : 0 ≤ sum.toInt) (bound : sum.toInt + power validators ≤ maxTotalVotingPower.toInt) :
    ∃ total, sumVotingPower sum validators = .ok total ∧
      total.toInt = sum.toInt + power validators := by
  induction validators generalizing sum with
  | nil => exact ⟨sum, rfl, by simp [power]⟩
  | cons v rest ih =>
    obtain ⟨first, restPositive⟩ := forall_mem_cons.mp positive
    have head : power (v :: rest) = v.votingPower.toInt + power rest := by
      simp [power]
    have firstInt := lt_iff_toInt_lt.mp first
    have restNonneg := power_nonneg restPositive
    rw [toInt_zero] at firstInt
    rw [head] at bound ⊢
    rw [toInt_maxTotalVotingPower] at bound
    have step : (safeAddClip sum v.votingPower).toInt = sum.toInt + v.votingPower.toInt :=
      toInt_safeAddClip ⟨by omega, by omega⟩
    have within : ¬ maxTotalVotingPower < safeAddClip sum v.votingPower := by
      rw [lt_iff_toInt_lt, toInt_maxTotalVotingPower, step]
      omega
    obtain ⟨total, run, eq⟩ :=
      ih restPositive (show 0 ≤ (safeAddClip sum v.votingPower).toInt by omega)
        (by rw [toInt_maxTotalVotingPower]; omega)
    refine ⟨total, ?_, by omega⟩
    rw [sumVotingPower]
    exact (if_neg within).trans run

variable {vals : ValidatorSet}

theorem exec_updateTotalVotingPower (positive : ∀ v ∈ vals.validators, 0 < v.votingPower)
    (bound : power vals.validators ≤ maxTotalVotingPower.toInt) :
    ∃ total : Int64, total.toInt = power vals.validators ∧
      updateTotalVotingPower.exec vals = (.ok (), { vals with totalVotingPower := total }) := by
  obtain ⟨total, run, eq⟩ := sumVotingPower_eq_ok positive
    (show 0 ≤ (0 : Int64).toInt by decide) (by simpa using bound)
  refine ⟨total, by simpa using eq, ?_⟩
  simp [updateTotalVotingPower, exec_bind, run]

theorem exec_totalVotingPower (sound : vals.Sound) :
    totalVotingPower.exec vals = (.ok vals.totalVotingPower, vals) := by
  have bound := le_iff_toInt_le.mp sound.total_le
  rw [sound.total_eq] at bound
  obtain ⟨total, eq, run⟩ := exec_updateTotalVotingPower sound.positive bound
  have same : total = vals.totalVotingPower :=
    toInt_inj.mp (eq.trans sound.total_eq.symm)
  subst same
  replace run : updateTotalVotingPower.exec vals = (.ok (), vals) := run
  by_cases zero : vals.totalVotingPower = 0
  · simp [totalVotingPower, exec_bind, exec_tryCatch, zero, run]
  · simp [totalVotingPower, exec_bind, zero]

theorem toInt_updateDelta (positive : ∀ v ∈ members, 0 < v.votingPower) {u : Validator}
    (nonneg : 0 ≤ u.votingPower) :
    (updateDelta members u).toInt = u.votingPower.toInt - powerAt members u.address := by
  have lower := le_iff_toInt_le.mp nonneg
  have oldNonneg := powerAt_nonneg positive u.address
  rw [toInt_zero] at lower
  rw [updateDelta]
  split
  next v found =>
    have upper := u.votingPower.toInt_lt
    have oldUpper := v.votingPower.toInt_lt
    rw [powerAt_of_getByAddress found] at oldNonneg ⊢
    exact toInt_sub ⟨by omega, by omega⟩
  next missing =>
    rw [powerAt, weightAt_eq_zero (getByAddress_eq_none.mp missing), sub_zero]

section

variable {members updates : List Validator} (positive : ∀ v ∈ members, 0 < v.votingPower)
  (range : ∀ u ∈ updates, 0 ≤ u.votingPower ∧ u.votingPower ≤ maxTotalVotingPower)

include positive range

theorem sum_updateDelta :
    ((updates.map (updateDelta members)).map Int64.toInt).sum +
      (updates.map fun u => powerAt members u.address).sum = power updates := by
  rw [map_map, ← sum_map_add, power]
  congr 1
  refine map_congr_left fun u mem => ?_
  rw [Function.comp_apply, toInt_updateDelta positive (range u mem).1]
  omega

theorem sum_min_updateDelta :
    0 ≤ ((updates.map (updateDelta members)).map fun delta => min delta.toInt 0).sum +
      (updates.map fun u => powerAt members u.address).sum := by
  rw [map_map, ← sum_map_add]
  refine sum_nonneg fun value mem => ?_
  obtain ⟨u, u_mem, rfl⟩ := mem_map.mp mem
  have nonneg := le_iff_toInt_le.mp (range u u_mem).1
  have oldNonneg := powerAt_nonneg positive u.address
  rw [toInt_zero] at nonneg
  rw [Function.comp_apply, toInt_updateDelta positive (range u u_mem).1]
  omega

theorem updateDelta_le {delta : Int64} (mem : delta ∈ updates.map (updateDelta members)) :
    delta ≤ maxTotalVotingPower := by
  obtain ⟨u, u_mem, rfl⟩ := mem_map.mp mem
  have upper := le_iff_toInt_le.mp (range u u_mem).2
  have oldNonneg := powerAt_nonneg positive u.address
  rw [le_iff_toInt_le, toInt_updateDelta positive (range u u_mem).1]
  omega

end

theorem int64Less_compares : ComparesBy (fun a b : Int64 => decide (a < b)) Int64.toInt := by
  intro a b
  simp [lt_iff_toInt_lt]

theorem exec_verifyUpdates {removed : Int64} (sound : vals.Sound) (wellFormed : WellFormed changes)
    (removed_eq : removed.toInt = removedSum vals.validators changes) :
    if power (overridden vals.validators changes) ≤ maxTotalVotingPower.toInt then
      ∃ tvp : Int64, tvp.toInt = power (overridden vals.validators changes) + removed.toInt ∧
        (verifyUpdates (updatesOf changes) removed).exec vals = (.ok tvp, vals)
    else (verifyUpdates (updatesOf changes) removed).exec vals = (.error .reject, vals) := by
  have range : ∀ u ∈ updatesOf changes,
      0 ≤ u.votingPower ∧ u.votingPower ≤ maxTotalVotingPower := fun u mem =>
    wellFormed.range u (mem_updatesOf.mp mem).1
  have split := power_members_split sound.distinct wellFormed
  have kept := power_kept_nonneg changes sound.positive
  have updated := updatedSum_nonneg changes sound.positive
  have removedNonneg := removedSum_nonneg changes sound.positive
  have updatesNonneg : 0 ≤ power (updatesOf changes) :=
    power_nonneg fun u => updatesOf_positive wellFormed
  have deltaSum := sum_updateDelta sound.positive range
  have minSum := sum_min_updateDelta sound.positive range
  rw [← updatedSum] at deltaSum minSum
  have total := sound.total_eq
  have bound := le_iff_toInt_le.mp sound.total_le
  have start : (vals.totalVotingPower - removed).toInt =
      vals.totalVotingPower.toInt - removed.toInt := by
    rw [toInt_maxTotalVotingPower] at bound
    exact toInt_sub ⟨by omega, by omega⟩
  have small : ∀ delta ∈ (updatesOf changes).map (updateDelta vals.validators),
      delta ≤ maxTotalVotingPower := fun delta => updateDelta_le sound.positive range
  have run : (verifyUpdates (updatesOf changes) removed).exec vals =
      (do
        let sum ← addDeltas (vals.totalVotingPower - removed) (insertionSort
          (fun a b => decide (a < b)) ((updatesOf changes).map (updateDelta vals.validators)))
        return sum + removed, vals) := by
    simp only [verifyUpdates, exec_bind, exec_get, exec_totalVotingPower sound, exec_liftExcept]
    cases addDeltas (vals.totalVotingPower - removed) (insertionSort
      (fun a b => decide (a < b)) ((updatesOf changes).map (updateDelta vals.validators))) <;> rfl
  generalize (updatesOf changes).map (updateDelta vals.validators) = deltas at *
  have perm := insertionSort_perm (fun a b : Int64 => decide (a < b)) deltas
  have ascending := (insertionSort_sorted int64Less_compares.strictWeak deltas).imp
    fun {a b} ordered => le_iff_toInt_le.mpr (int64Less_compares.eq_false.mp ordered)
  have spec := addDeltas_spec ascending (fun delta mem =>
      small delta (perm.mem_iff.mp mem))
    (show vals.totalVotingPower - removed ≤ maxTotalVotingPower from
      le_iff_toInt_le.mpr (by omega))
    (by rw [(perm.map _).sum_eq]; omega)
  rw [(perm.map toInt).sum_eq, start] at spec
  have final : power (overridden vals.validators changes) =
      vals.totalVotingPower.toInt - removed.toInt + (deltas.map toInt).sum := by
    rw [power_overridden]
    omega
  rw [final, run]
  split at spec
  next within =>
    obtain ⟨sum, passed, sum_eq⟩ := spec
    rw [if_pos within, passed]
    refine ⟨sum + removed, ?_, rfl⟩
    rw [toInt_maxTotalVotingPower] at within bound
    rw [← sum_eq]
    exact toInt_add ⟨by omega, by omega⟩
  next beyond =>
    rw [if_neg beyond, spec]
    rfl

/-! ## The new members -/

/-- The members overridden by the updates, in the order of their addresses. -/
def mergedOf (members changes : List Validator) (tvp : Int64) : List Validator :=
  overrideMerge address (sortByAddress members)
    (computeNewPriorities (updatesOf changes) members tvp)

/-- The members that the two sorted passes leave, in the order of their addresses. -/
def staged (members changes : List Validator) (tvp : Int64) : List Validator :=
  (mergedOf members changes tvp).filter
    fun v => decide (v.address ∉ (removalsOf changes).map address)

theorem identity_computeNewPriorities (updates members : List Validator) (tvp : Int64) :
    (computeNewPriorities updates members tvp).map identity =
      updates.map identity := by
  rw [computeNewPriorities, map_map]
  refine map_congr_left fun u _ => ?_
  rw [Function.comp_apply]
  split <;> rfl

theorem address_computeNewPriorities (updates members : List Validator) (tvp : Int64) :
    (computeNewPriorities updates members tvp).map address =
      updates.map address := by
  have eq := congrArg (map Prod.fst) (identity_computeNewPriorities updates members tvp)
  rw [map_map, map_map] at eq
  exact eq

section

variable {members changes : List Validator}
  (distinct : (members.map address).Nodup) (wellFormed : WellFormed changes)

include wellFormed

variable (tvp : Int64)

theorem sortedBy_computeNewPriorities :
    SortedBy address (computeNewPriorities (updatesOf changes) members tvp) := by
  have sorted := sortedBy_updatesOf wellFormed
  rw [SortedBy, ← pairwise_map, address_computeNewPriorities, pairwise_map]
  exact sorted

include distinct

theorem sortedBy_mergedOf : SortedBy address (mergedOf members changes tvp) :=
  sortedBy_overrideMerge address (sortedBy_sortByAddress distinct)
    (sortedBy_computeNewPriorities wellFormed tvp)

theorem sortedBy_staged : SortedBy address (staged members changes tvp) :=
  (sortedBy_mergedOf distinct wellFormed tvp).filter _

theorem mem_mergedOf {tvp : Int64} {v : Validator} :
    v ∈ mergedOf members changes tvp ↔
      (v ∈ members ∧ v.address ∉ (updatesOf changes).map address) ∨
      v ∈ computeNewPriorities (updatesOf changes) members tvp := by
  rw [mergedOf, mem_overrideMerge address (sortedBy_sortByAddress distinct)
    (sortedBy_computeNewPriorities wellFormed tvp), address_computeNewPriorities, mem_sortByAddress]

theorem mem_staged {tvp : Int64} {v : Validator} :
    v ∈ staged members changes tvp ↔
      (v ∈ members ∧ v.address ∉ changes.map Validator.address) ∨
      v ∈ computeNewPriorities (updatesOf changes) members tvp := by
  have named : ∀ address, address ∈ changes.map Validator.address ↔
      address ∈ (updatesOf changes).map Validator.address ∨
      address ∈ (removalsOf changes).map Validator.address := by
    intro address
    simp only [List.mem_map, mem_updatesOf, mem_removalsOf]
    constructor
    · rintro ⟨c, mem, rfl⟩
      by_cases zero : c.votingPower = 0
      · exact .inr ⟨c, ⟨mem, zero⟩, rfl⟩
      · exact .inl ⟨c, ⟨mem, zero⟩, rfl⟩
    · rintro (⟨c, ⟨mem, -⟩, rfl⟩ | ⟨c, ⟨mem, -⟩, rfl⟩) <;>
        exact ⟨c, mem, rfl⟩
  have fresh : v ∈ computeNewPriorities (updatesOf changes) members tvp →
      v.address ∉ (removalsOf changes).map Validator.address := by
    intro mem removed
    have updated : v.address ∈ (updatesOf changes).map Validator.address :=
      address_computeNewPriorities (updatesOf changes) members tvp ▸
        List.mem_map_of_mem mem
    obtain ⟨u, u_mem, u_eq⟩ := List.mem_map.mp updated
    obtain ⟨r, r_mem, r_eq⟩ := List.mem_map.mp removed
    exact updatesOf_disjoint wellFormed u_mem r_mem (u_eq.trans r_eq.symm)
  rw [staged, List.mem_filter, decide_eq_true_eq, mem_mergedOf distinct wellFormed, named]
  tauto

/-- The sorted passes compute the plain meaning of the changes. -/
theorem staged_perm :
    (staged members changes tvp).Perm
      (kept members changes ++ computeNewPriorities (updatesOf changes) members tvp) := by
  refine perm_of_keys (sortedBy_staged distinct wellFormed tvp).nodup ?_ fun v => ?_
  · rw [map_append, address_computeNewPriorities]
    refine Nodup.append (distinct.sublist (filter_sublist.map _))
      (sortedBy_updatesOf wellFormed).nodup ?_
    intro address kept updated
    obtain ⟨v, v_mem, rfl⟩ := mem_map.mp kept
    obtain ⟨u, u_mem, eq⟩ := mem_map.mp updated
    have unnamed : v.address ∉ changes.map address := by
      simpa using (mem_filter.mp v_mem).2
    exact unnamed (mem_map.mpr ⟨u, (mem_updatesOf.mp u_mem).1, eq⟩)
  · rw [mem_staged distinct wellFormed, mem_append, kept, mem_filter, decide_eq_true_eq]

theorem identity_staged :
    ((staged members changes tvp).map identity).Perm
      ((overridden members changes).map identity) := by
  have perm := (staged_perm distinct wellFormed tvp).map identity
  rw [map_append, identity_computeNewPriorities] at perm
  rw [overridden, map_append]
  exact perm.trans (((updatesOf_perm changes).map _).append_left _)

theorem length_staged :
    (staged members changes tvp).length = (overridden members changes).length := by
  simpa using (identity_staged distinct wellFormed tvp).length_eq

end

variable {vals : ValidatorSet} {changes : List Validator}

theorem numNewValidators_le (vals : ValidatorSet) (changes : List Validator) :
    numNewValidators (updatesOf changes) vals.validators ≤
      (overridden vals.validators changes).length := by
  have new : numNewValidators (updatesOf changes) vals.validators ≤ (updatesOf changes).length :=
    countP_le_length
  have length := (updatesOf_perm changes).length_eq
  rw [overridden, length_append]
  omega

theorem verifyRemovals_eq_ok (sound : vals.Sound) (wellFormed : WellFormed changes)
    (removable : ∀ r ∈ removalsOf changes, r.address ∈ vals.validators.map address) :
    ∃ removed : Int64, removed.toInt = removedSum vals.validators changes ∧
      verifyRemovals (removalsOf changes) vals.validators = .ok removed := by
  have split := power_members_split sound.distinct wellFormed
  have kept := power_kept_nonneg changes sound.positive
  have updated := updatedSum_nonneg changes sound.positive
  have bound := le_iff_toInt_le.mp sound.total_le
  rw [sound.total_eq, toInt_maxTotalVotingPower] at bound
  obtain ⟨removed, run, eq⟩ := removedPower_eq_ok sound.positive removable
    (show 0 ≤ (0 : Int64).toInt by decide) (by rw [← removedSum, toInt_zero]; omega)
  have short : ¬ vals.validators.length < (removalsOf changes).length := by
    have length := length_overridden sound.distinct wellFormed removable
    have new := numNewValidators_le vals changes
    omega
  refine ⟨removed, ?_, ?_⟩
  · rw [eq, toInt_zero, zero_add, removedSum]
  · rw [verifyRemovals, run]
    exact if_neg short

theorem overridden_eq_nil_iff (sound : vals.Sound) (wellFormed : WellFormed changes)
    (removable : ∀ r ∈ removalsOf changes, r.address ∈ vals.validators.map address) :
    overridden vals.validators changes = [] ↔
      numNewValidators (updatesOf changes) vals.validators = 0 ∧
        vals.validators.length = (removalsOf changes).length := by
  have length := length_overridden sound.distinct wellFormed removable
  have new := numNewValidators_le vals changes
  rw [← length_eq_zero_iff]
  omega

theorem Acceptable.removals_known (acceptable : Acceptable vals changes) (r : Validator)
    (mem : r ∈ removalsOf changes) :
    r.address ∈ vals.validators.map address :=
  acceptable.removable r (mem_removalsOf.mp mem).1 (mem_removalsOf.mp mem).2

variable (sound : vals.Sound)

include sound

section

variable (acceptable : Acceptable vals changes)

include acceptable

theorem Acceptable.length_le : changes.length ≤ valsetMaxChanges := by
  have length := length_overridden sound.distinct acceptable.toWellFormed
    acceptable.removals_known
  have new := numNewValidators_le vals changes
  have updates := (updatesOf_perm changes).length_eq
  have removals := (removalsOf_perm changes).length_eq
  have parts : (overridden vals.validators changes).length = _ := length_append
  have halves := length_eq_countP_add_countP (fun c : Validator => decide (c.votingPower = 0))
    (l := changes)
  have fits := acceptable.fits
  have members := vals.length_le
  have cap : vals.validatorsCap ≤ 128 := vals.cap_le
  simp only [countP_eq_length_filter, decide_eq_true_eq] at halves
  simp only [ne_eq] at updates parts
  rw [valsetMaxChanges]
  omega

theorem applyUpdates_eq_ok (tvp : Int64) :
    applyUpdates vals.validators
      (computeNewPriorities (updatesOf changes) vals.validators tvp) =
        .ok (mergedOf vals.validators changes tvp) := by
  have length := length_overrideMerge_le address (sortByAddress vals.validators)
    (computeNewPriorities (updatesOf changes) vals.validators tvp)
  have sorted : (sortByAddress vals.validators).length = vals.validators.length :=
    length_insertionSort ..
  have short := acceptable.length_le sound
  have members := vals.length_le.trans vals.cap_le
  have new : (computeNewPriorities (updatesOf changes) vals.validators tvp).length ≤
      changes.length := by
    rw [computeNewPriorities, length_map, (updatesOf_perm changes).length_eq]
    exact length_filter_le ..
  exact if_neg (by omega)

theorem applyRemovals_eq_ok (tvp : Int64) :
    applyRemovals (mergedOf vals.validators changes tvp) (removalsOf changes) =
      .ok (staged vals.validators changes tvp) := by
  have wellFormed := acceptable.toWellFormed
  have sorted := sortedBy_removalsOf wellFormed
  have known : ∀ r ∈ removalsOf changes,
      r.address ∈ (mergedOf vals.validators changes tvp).map address := by
    intro r mem
    obtain ⟨v, v_mem, eq⟩ := mem_map.mp (acceptable.removals_known r mem)
    refine mem_map.mpr ⟨v, ?_, eq⟩
    refine (mem_mergedOf sound.distinct wellFormed).mpr (.inl ⟨v_mem, fun updated => ?_⟩)
    obtain ⟨u, u_mem, u_eq⟩ := mem_map.mp updated
    exact updatesOf_disjoint wellFormed u_mem mem (u_eq.trans eq)
  have enough : (removalsOf changes).length ≤ (mergedOf vals.validators changes tvp).length := by
    have subset : (removalsOf changes).map address ⊆
        (mergedOf vals.validators changes tvp).map address := by
      intro address mem
      obtain ⟨r, r_mem, rfl⟩ := mem_map.mp mem
      exact known r r_mem
    simpa using (subperm_of_subset sorted.nodup subset).length_le
  rw [applyRemovals, if_neg (Nat.not_lt.mpr enough), removeKeys_eq _
    (sortedBy_mergedOf sound.distinct wellFormed tvp) sorted known]
  exact congrArg Except.ok (filter_congr fun v _ => decide_eq_decide.mpr Iff.rfl)

theorem exec_stageChangeSet_accepted {allowDeletes : Bool}
    (allowed : allowDeletes = true ∨ removalsOf changes = []) :
    ∃ tvp : Int64,
      tvp.toInt = power (overridden vals.validators changes) +
        removedSum vals.validators changes ∧
      (stageChangeSet changes allowDeletes).exec vals =
        (.ok (staged vals.validators changes tvp,
          (overridden vals.validators changes).length), vals) := by
  have wellFormed := acceptable.toWellFormed
  have length := length_overridden sound.distinct wellFormed acceptable.removals_known
  have size : vals.validators.length + numNewValidators (updatesOf changes) vals.validators -
      (removalsOf changes).length = (overridden vals.validators changes).length := by
    omega
  have split : processChanges changes = .ok (updatesOf changes, removalsOf changes) :=
    processChanges_eq_ok.mpr ⟨acceptable.length_le sound, wellFormed, rfl⟩
  have deletes : ¬ (!allowDeletes && !(removalsOf changes).isEmpty) = true := by
    rcases allowed with rfl | empty <;> simp [*]
  have members := mt (overridden_eq_nil_iff sound wellFormed acceptable.removals_known).mpr
    acceptable.nonempty
  obtain ⟨removed, removed_eq, removals⟩ :=
    verifyRemovals_eq_ok sound wellFormed acceptable.removals_known
  have updates := exec_verifyUpdates sound wellFormed removed_eq
  rw [if_pos acceptable.bounded] at updates
  obtain ⟨tvp, tvp_eq, updates⟩ := updates
  have cap := vals.cap_le
  have fits := acceptable.fits
  have room : ¬ (valsetMax < (overridden vals.validators changes).length ∨
      vals.validatorsCap < (overridden vals.validators changes).length) := by
    omega
  refine ⟨tvp, removed_eq ▸ tvp_eq, ?_⟩
  simp only [stageChangeSet, exec_bind, split, exec_liftExcept, exec_get,
    if_neg deletes, if_neg members, removals, updates, size, if_neg room,
    exec_pure, applyUpdates_eq_ok sound acceptable, applyRemovals_eq_ok sound acceptable]

end

theorem exec_stageChangeSet_refused {allowDeletes : Bool} (refused : ¬ (Acceptable vals changes ∧
      (allowDeletes = true ∨ removalsOf changes = []))) :
    ∃ code, (stageChangeSet changes allowDeletes).exec vals = (.error code, vals) := by
  cases split : processChanges changes with
  | error code => exact ⟨code, by simp [stageChangeSet, exec_bind, split]⟩
  | ok lists =>
    obtain ⟨-, wellFormed, rfl⟩ := processChanges_eq_ok.mp split
    simp only [stageChangeSet, exec_bind, split, exec_liftExcept, exec_get]
    by_cases deletes : (!allowDeletes && !(removalsOf changes).isEmpty) = true
    · exact ⟨.reject, by rw [if_pos deletes, exec_throw]⟩
    by_cases emptied : numNewValidators (updatesOf changes) vals.validators = 0 ∧
        vals.validators.length = (removalsOf changes).length
    · exact ⟨.reject, by rw [if_neg deletes, if_pos emptied, exec_throw]⟩
    rw [if_neg deletes, if_neg emptied]
    by_cases removable : ∀ r ∈ removalsOf changes,
        r.address ∈ vals.validators.map address
    · obtain ⟨removed, removed_eq, removals⟩ := verifyRemovals_eq_ok sound wellFormed removable
      have updates := exec_verifyUpdates sound wellFormed removed_eq
      simp only [exec_bind, exec_liftExcept, removals]
      split at updates
      next bound =>
        obtain ⟨tvp, -, updates⟩ := updates
        have length := length_overridden sound.distinct wellFormed removable
        have large : valsetMax < vals.validators.length +
            numNewValidators (updatesOf changes) vals.validators -
              (removalsOf changes).length ∨
            vals.validatorsCap < vals.validators.length +
              numNewValidators (updatesOf changes) vals.validators -
                (removalsOf changes).length := by
          -- Every other requirement has been met by now.
          by_contra fits
          refine refused ⟨⟨wellFormed, fun c mem zero => ?_, ?_, by omega, bound⟩, ?_⟩
          · exact removable c (mem_removalsOf.mpr ⟨mem, zero⟩)
          · exact mt (overridden_eq_nil_iff sound wellFormed removable).mp emptied
          · cases allowDeletes
            · exact .inr (by simpa using deletes)
            · exact .inl rfl
        exact ⟨.reject, by simp only [updates, exec_get, if_pos large, exec_throw]⟩
      next beyond => exact ⟨.reject, by simp only [updates]⟩
    · push Not at removable
      obtain ⟨gone, mem, unknown⟩ := removable
      have removals : verifyRemovals (removalsOf changes) vals.validators = .error .reject := by
        rw [verifyRemovals, removedPower_eq_reject 0 mem unknown]
        rfl
      exact ⟨.reject, by simp only [exec_bind, exec_liftExcept, removals]⟩

end DnaLedger.Cmt
