import DnaLedger.Arith.SInt64
import DnaLedger.Foundation.Bytes
import DnaLedger.Foundation.Program
import DnaLedger.Foundation.Sorting

/-!
# Validator sets and proposer priorities

Model of `cmt_validator_set.c`: the set, the election of a proposer by priority and the
update with a list of changes.  `int64_t` is `Int64`, whose operations wrap as `go_add` and
its like do; the 128-bit accumulator of the average is an `Int`.  A set lives in storage of
its caller with `validatorsCap` slots.
-/

namespace DnaLedger.Cmt

open Sorting SInt64

/-- An eighth of the largest signed word. -/
def maxTotalVotingPower : Int64 := 1152921504606846975

def priorityWindowSizeFactor : Int64 := 2

def valsetMax : Nat := 128

def valsetMaxChanges : Nat := 256

/-- `cmt_validator_t`; a key that is not present is `none`. -/
structure Validator where
  address : Bytes
  pubKey : Option Bytes
  votingPower : Int64
  proposerPriority : Int64
  deriving DecidableEq

structure ValidatorSet where
  validators : List Validator
  validatorsCap : Nat
  proposer : Option Validator
  /-- The cached total; `0` when it has not been computed. -/
  totalVotingPower : Int64
  allKeysHaveSameType : Bool
  cap_le : validatorsCap ≤ valsetMax
  length_le : validators.length ≤ validatorsCap
  deriving DecidableEq

/-- An overflow is `none`. -/
def safeAdd (a b : Int64) : Option Int64 :=
  if 0 < b ∧ Int64.maxValue - b < a then none
  else if b < 0 ∧ a < Int64.minValue - b then none
  else some (a + b)

/-- An overflow is `none`. -/
def safeSub (a b : Int64) : Option Int64 :=
  if 0 < b ∧ a < Int64.minValue + b then none
  else if b < 0 ∧ Int64.maxValue + b < a then none
  else some (a - b)

def safeAddClip (a b : Int64) : Int64 :=
  (safeAdd a b).getD (if b < 0 then Int64.minValue else Int64.maxValue)

def safeSubClip (a b : Int64) : Int64 :=
  (safeSub a b).getD (if 0 < b then Int64.minValue else Int64.maxValue)

theorem safeAdd_of_inRange {a b : Int64} (range : InRange (a.toInt + b.toInt)) :
    safeAdd a b = some (a + b) := by
  obtain ⟨lower, upper⟩ := range
  have bound := b.toInt_lt
  have lowerBound := b.le_toInt
  rw [safeAdd, if_neg, if_neg]
  · rintro ⟨negative, under⟩
    rw [Int64.lt_iff_toInt_lt, Int64.toInt_zero] at negative
    rw [Int64.lt_iff_toInt_lt, toInt_sub, Int64.toInt_minValue] at under
    · omega
    · rw [Int64.toInt_minValue]
      constructor <;> omega
  · rintro ⟨pos, above⟩
    rw [Int64.lt_iff_toInt_lt, Int64.toInt_zero] at pos
    rw [Int64.lt_iff_toInt_lt, toInt_sub, Int64.toInt_maxValue] at above
    · omega
    · rw [Int64.toInt_maxValue]
      constructor <;> omega

theorem toInt_safeAddClip {a b : Int64} (range : InRange (a.toInt + b.toInt)) :
    (safeAddClip a b).toInt = a.toInt + b.toInt := by
  rw [safeAddClip, safeAdd_of_inRange range]
  exact toInt_add range

/-- Truncating division, refused for a zero divisor. -/
def goDiv (a b : Int64) : Except Failure Int64 :=
  if b = 0 then .error .reject else .ok (a / b)

def byVotingPowerLess (a b : Validator) : Bool :=
  if a.votingPower = b.votingPower then decide (a.address < b.address)
  else decide (b.votingPower < a.votingPower)

def byAddressLess (a b : Validator) : Bool :=
  decide (a.address < b.address)

def sortByVotingPower (validators : List Validator) : List Validator :=
  insertionSort byVotingPowerLess validators

def sortByAddress (validators : List Validator) : List Validator :=
  insertionSort byAddressLess validators

/-- The higher priority wins, then the lower address. -/
def compareProposerPriority (v other : Validator) : Except Failure Validator :=
  if other.proposerPriority < v.proposerPriority then .ok v
  else if v.proposerPriority < other.proposerPriority then .ok other
  else if v.address < other.address then .ok v
  else if other.address < v.address then .ok other
  else .error .reject

def hasAddress (validators : List Validator) (address : Bytes) : Bool :=
  validators.any fun v => v.address == address

/-- The first member with the address. -/
def getByAddress (validators : List Validator) (address : Bytes) : Option Validator :=
  validators.find? fun v => v.address == address

/-- The loop of `cmt_validator_set_update_total_voting_power`. -/
def sumVotingPower (sum : Int64) : List Validator → Except Failure Int64
  | [] => .ok sum
  | v :: rest =>
    let sum := safeAddClip sum v.votingPower
    if maxTotalVotingPower < sum then .error .reject else sumVotingPower sum rest

def updateTotalVotingPower : Program ValidatorSet Unit := do
  match sumVotingPower 0 (← get).validators with
  | .error code => throw code
  | .ok sum => modify fun vals => { vals with totalVotingPower := sum }

/-- The cached total, computed when it is zero; one beyond the maximum is a defect. -/
def totalVotingPower : Program ValidatorSet Int64 := do
  if (← get).totalVotingPower = 0 then
    tryCatch updateTotalVotingPower fun _ => throw .fault
  return (← get).totalVotingPower

/-- Floor division of the exact sum. -/
def computeAvgProposerPriority (validators : List Validator) : Except Failure Int64 :=
  if validators = [] then .error .reject
  else
    let avg := (validators.map fun v => v.proposerPriority.toInt).sum / validators.length
    if -(2 ^ 63) ≤ avg ∧ avg < 2 ^ 63 then .ok (Int64.ofInt avg) else .error .reject

/-- The loop of `cmt_validator_set_compute_max_min_priority_diff`. -/
def maxMinPriority (validators : List Validator) : Int64 × Int64 :=
  validators.foldl (fun (mx, mn) v =>
    (if mx < v.proposerPriority then v.proposerPriority else mx,
     if v.proposerPriority < mn then v.proposerPriority else mn))
    (Int64.minValue, Int64.maxValue)

def computeMaxMinPriorityDiff (validators : List Validator) : Except Failure Int64 :=
  if validators = [] then .error .reject
  else
    let (mx, mn) := maxMinPriority validators
    let diff := mx - mn
    .ok (if diff < 0 then -diff else diff)

def ValidatorSet.mapPriority (vals : ValidatorSet) (change : Validator → Int64) : ValidatorSet :=
  { vals with
    validators := vals.validators.map fun v => { v with proposerPriority := change v }
    length_le := by simpa using vals.length_le }

/-- Give the member at `index` a new priority. -/
def ValidatorSet.modifyPriority (vals : ValidatorSet) (index : Nat) (change : Int64 → Int64) :
    ValidatorSet :=
  { vals with
    validators := vals.validators.modify index fun v =>
      { v with proposerPriority := change v.proposerPriority }
    length_le := by simpa using vals.length_le }

def rescalePriorities (diffMax : Int64) : Program ValidatorSet Unit := do
  let vals ← get
  if vals.validators = [] then throw .reject
  else if diffMax ≤ 0 then return ()
  else
    let diff ← computeMaxMinPriorityDiff vals.validators
    let ratio ← goDiv (diff + diffMax - 1) diffMax
    if diffMax < diff then
      -- A zero ratio already fails at the first member, before any is written.
      if ratio = 0 then throw .reject
      else set (vals.mapPriority fun v => v.proposerPriority / ratio)

def shiftByAvgProposerPriority : Program ValidatorSet Unit := do
  let vals ← get
  let avg ← computeAvgProposerPriority vals.validators
  set (vals.mapPriority fun v => safeSubClip v.proposerPriority avg)

/-- The loop of `most_priority_index`, from a best member and the next index. -/
def mostPriorityFrom (best : Nat × Validator) (index : Nat) :
    List Validator → Except Failure (Nat × Validator)
  | [] => .ok best
  | v :: rest => do
      let winner ← compareProposerPriority best.2 v
      mostPriorityFrom (if winner = best.2 then best else (index, winner)) (index + 1) rest

/-- The index of the member with the most priority, and the member. -/
def mostPriorityIndex : List Validator → Except Failure (Nat × Validator)
  | [] => .error .reject
  | v :: rest => mostPriorityFrom (0, v) 1 rest

/-- Returns the proposer. -/
def incrementProposerPriorityOnce : Program ValidatorSet Validator := do
  if (← get).validators = [] then throw .reject
  else
    modify fun vals => vals.mapPriority fun v => safeAddClip v.proposerPriority v.votingPower
    let (best, mostest) ← mostPriorityIndex (← get).validators
    let tvp ← totalVotingPower
    modify fun vals => vals.modifyPriority best fun priority => safeSubClip priority tvp
    return { mostest with proposerPriority := safeSubClip mostest.proposerPriority tvp }

/-- The election loop; the proposer of the last round, if there was one. -/
def incrementRounds : Nat → Program ValidatorSet (Option Validator)
  | 0 => return none
  | rounds + 1 => do
      let _ ← incrementRounds rounds
      return some (← incrementProposerPriorityOnce)

def incrementProposerPriority (times : Int32) : Program ValidatorSet Unit := do
  if (← get).validators = [] then throw .reject
  else if times ≤ 0 then throw .reject
  else
    let tvp ← totalVotingPower
    rescalePriorities (priorityWindowSizeFactor * tvp)
    shiftByAvgProposerPriority
    let proposer ← incrementRounds times.toInt.toNat
    modify fun vals => { vals with proposer }

/-- The loop of `cmt_validator_set_process_changes` over the sorted changes. The previous address
starts out empty, so a first empty address counts as a duplicate. -/
def splitChanges (prevAddr : Bytes) :
    List Validator → Except Failure (List Validator × List Validator)
  | [] => .ok ([], [])
  | u :: rest =>
    if u.address = prevAddr then .error .reject
    else if u.votingPower < 0 then .error .reject
    else if maxTotalVotingPower < u.votingPower then .error .reject
    else do
      let (updates, removals) ← splitChanges u.address rest
      return if u.votingPower = 0 then (updates, u :: removals) else (u :: updates, removals)

/-- The updates and the removals, each sorted by address. -/
def processChanges (changes : List Validator) : Except Failure (List Validator × List Validator) :=
  if valsetMaxChanges < changes.length then .error .reject
  else splitChanges [] (sortByAddress changes)

def updateDelta (validators : List Validator) (update : Validator) : Int64 :=
  match getByAddress validators update.address with
  | some v => update.votingPower - v.votingPower
  | none => update.votingPower

/-- The loop of `cmt_validator_set_verify_updates` over the sorted deltas. -/
def addDeltas (sum : Int64) : List Int64 → Except Failure Int64
  | [] => .ok sum
  | delta :: rest =>
    if maxTotalVotingPower < sum + delta then .error .reject else addDeltas (sum + delta) rest

/-- The total power before the removals. -/
def verifyUpdates (updates : List Validator) (removedPower : Int64) :
    Program ValidatorSet Int64 := do
  let deltas := updates.map (updateDelta (← get).validators)
  let sorted := insertionSort (fun a b => decide (a < b)) deltas
  let tvp ← totalVotingPower
  let tvpAfterRemovals ← addDeltas (tvp - removedPower) sorted
  return tvpAfterRemovals + removedPower

def numNewValidators (updates validators : List Validator) : Nat :=
  updates.countP fun u => !hasAddress validators u.address

/-- A new member starts at `-1.125` times the total before the removals; an old one keeps its
priority. -/
def computeNewPriorities (updates validators : List Validator)
    (updatedTotalVotingPower : Int64) : List Validator :=
  updates.map fun u =>
    match getByAddress validators u.address with
    | none =>
      { u with proposerPriority :=
          -(updatedTotalVotingPower + (updatedTotalVotingPower >>> (3 : Int64))) }
    | some found => { u with proposerPriority := found.proposerPriority }

/-- The members by address, overridden by the updates. -/
def applyUpdates (existing updates : List Validator) : Except Failure (List Validator) :=
  let merged := overrideMerge Validator.address (sortByAddress existing) updates
  if valsetMax + valsetMaxChanges < merged.length then .error .reject else .ok merged

/-- The loop of `cmt_validator_set_verify_removals`: the power that is removed. -/
def removedPower (validators : List Validator) (removed : Int64) :
    List Validator → Except Failure Int64
  | [] => .ok removed
  | gone :: rest =>
    match getByAddress validators gone.address with
    | none => .error .reject
    | some found => removedPower validators (removed + found.votingPower) rest

def verifyRemovals (deletes validators : List Validator) : Except Failure Int64 := do
  let removed ← removedPower validators 0 deletes
  if validators.length < deletes.length then .error .reject else return removed

def applyRemovals (merged deletes : List Validator) : Except Failure (List Validator) :=
  if merged.length < deletes.length then .error .reject
  else
    match removeKeys Validator.address merged deletes with
    | none => .error .reject
    | some kept => .ok kept

/-- The loop of `cmt_validator_set_check_all_keys_have_same_type`: after a key, every member has
one. -/
def keysPresentFrom (haveFirst : Bool) : List Validator → Bool
  | [] => true
  | v :: rest =>
    if v.pubKey.isSome then keysPresentFrom true rest
    else !haveFirst && keysPresentFrom false rest

def checkAllKeysHaveSameType : Program ValidatorSet Unit := do
  if keysPresentFrom false (← get).validators then
    modify fun vals => { vals with allKeysHaveSameType := true }
  else throw .reject

/-- What `cmt_validator_set_update_with_change_set_ex` computes before it writes: the new members
by address, and their predicted number. -/
def stageChangeSet (changes : List Validator) (allowDeletes : Bool) :
    Program ValidatorSet (List Validator × Nat) := do
  let (updates, removals) ← processChanges changes
  let existing := (← get).validators
  let numNew := numNewValidators updates existing
  if !allowDeletes && !removals.isEmpty then throw .reject
  else if numNew = 0 ∧ existing.length = removals.length then throw .reject
  else
    let removed ← verifyRemovals removals existing
    let tvpBeforeRemovals ← verifyUpdates updates removed
    let newSize := existing.length + numNew - removals.length
    if valsetMax < newSize ∨ (← get).validatorsCap < newSize then throw .reject
    else
      let updates := computeNewPriorities updates existing tvpBeforeRemovals
      let merged ← applyUpdates existing updates
      let final ← applyRemovals merged removals
      return (final, newSize)

/-- `cmt_validator_set_update_with_change_set_ex` after the new members have been written. -/
def settleChangeSet : Program ValidatorSet Unit := do
  checkAllKeysHaveSameType
  modify fun vals => { vals with totalVotingPower := 0 }
  tryCatch updateTotalVotingPower fun _ => throw .fault
  let tvp ← totalVotingPower
  rescalePriorities (priorityWindowSizeFactor * tvp)
  shiftByAvgProposerPriority
  modify fun vals =>
    { vals with
      validators := sortByVotingPower vals.validators
      length_le := by simpa [sortByVotingPower] using vals.length_le }

def updateWithChangeSetEx (changes : List Validator) (allowDeletes : Bool) :
    Program ValidatorSet Unit := do
  if changes = [] then return ()
  else
    let (final, newSize) ← stageChangeSet changes allowDeletes
    let vals ← get
    if fits : final.length = newSize ∧ final.length ≤ vals.validatorsCap then
      set { vals with validators := final, length_le := fits.2 }
      settleChangeSet
    else throw .reject

def updateWithChangeSet (changes : List Validator) : Program ValidatorSet Unit :=
  updateWithChangeSetEx changes true

end DnaLedger.Cmt
