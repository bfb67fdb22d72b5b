import DnaLedger.Arith.U128
import DnaLedger.Foundation.Bytes
import Mathlib.Data.List.Sort

/-!
# The epoch reward distribution

Model of `nodus_witness_v2_settlement_apply` and of the functions it is made of. The tables that are
only read are the fields of `Reads`. The return code `-2` is `EconError.fault`; the caller then
rolls the transaction back, so a failed run has no resulting tables.
-/

namespace DnaLedger.Econ

open List

/-- How a run ends without a result: the `-2` of the source, or `abort()`. -/
inductive EconError where
  | fault
  | aborted
  deriving DecidableEq

def epochLength : UInt64 := 720

def rewardDivisorLog2 : UInt64 := 16

def genStorage : UInt32 := 4

def rulesetTopnV2 : UInt32 := 2

def commissionBpsMax : UInt16 := 5000

/-- The largest amount a signed 64-bit column holds. -/
def storeMax : UInt64 := 0x7FFFFFFFFFFFFFFF

def InColumn (value : Int) : Prop :=
  -(2 ^ 63) ≤ value ∧ value < 2 ^ 63

/-- The cast `(sqlite3_int64)x` of an unsigned word. -/
def stored (x : UInt64) : Int :=
  if x.toNat < 2 ^ 63 then x.toNat else x.toNat - 2 ^ 64

theorem stored_inColumn (x : UInt64) : InColumn (stored x) := by
  have bound := x.toNat_lt
  rw [InColumn, stored]
  split <;> omega

theorem stored_of_le {x : UInt64} (le : x ≤ storeMax) : stored x = x.toNat := by
  have le : x.toNat ≤ 2 ^ 63 - 1 := le
  rw [stored, if_pos (by omega)]

/-- A row of `v2_reward_accrual`. -/
structure AccrualRow where
  ownerFp : Bytes
  amount : Int
  deriving DecidableEq

/-- The table `v2_reward_accrual`; `owner_fp` is its primary key. -/
structure AccrualTable where
  rows : List AccrualRow
  inColumn : ∀ row ∈ rows, InColumn row.amount
  key : (rows.map AccrualRow.ownerFp).Nodup

/-- The row of `supply_tracking`, of which the distribution uses the pool. -/
structure SupplyRow where
  rewardPool : Int
  inColumn : InColumn rewardPool

/-- The tables that a distribution writes. -/
structure Db where
  accrual : AccrualTable
  supply : Option SupplyRow

/-- A row of `v2_balance_copy`. -/
structure BalanceCopyRow where
  epochStart : UInt64
  validatorFp : Bytes
  ownerFp : Bytes
  kind : Int
  amount : Int

/-- `dna_vset_entry_t`, without the voter id that no function here reads. -/
structure VsetEntry where
  pubkey : Bytes
  totalStake : UInt64
  selfBond : UInt64
  commissionBps : UInt16
  validatorId : Bytes
  ownerFp : Bytes

/-- `dna_vset_snapshot_t`: the ruleset and the `active_count` entries. -/
structure VsetSnapshot where
  selectionRuleset : UInt32
  entries : List VsetEntry

/-- The columns of a version-2 validator row that the distribution compares. -/
structure ValidatorRow where
  ownerFp : Bytes
  pubkey : Bytes

/-- Everything a distribution only reads; `none` is a value that could not be read or derived. -/
structure Reads where
  /-- `nodus_witness_v2_epoch_authority_for_epoch` -/
  authorityForEpoch : UInt64 → Option VsetSnapshot
  /-- `nodus_witness_v2_chain_id` -/
  chainId : Option Bytes
  /-- `nodus_witness_vset_powers`, indexed by entry. -/
  vsetPowers : VsetSnapshot → Option (Nat → UInt64)
  /-- `nodus_validator_v2_get` -/
  validatorV2Get : Bytes → Option (Option ValidatorRow)
  /-- `nodus_validator_get`, of which only the presence of a row is used. -/
  validatorGet : Bytes → Option Bool
  /-- `qgp_sha3_512` -/
  sha3 : Bytes → Option Bytes
  /-- `dna_validator_id_migrated` -/
  validatorIdMigrated : Bytes → Bytes → Option Bytes
  /-- `nodus_witness_v2_attendance_meets_bar` -/
  attendanceMeetsBar : Bytes → UInt64 → Option Bool
  /-- The rows of `v2_balance_copy`. -/
  balanceCopy : List BalanceCopyRow
  /-- The injected failures at `DIST_ACCRUED` and `DIST_APPLIED`. -/
  faultAccrued : Bool
  faultApplied : Bool

/-- Continue with a value that was read, or end the run with `fault`. -/
def orFault {α : Type} : Option α → Except EconError α
  | some value => .ok value
  | none => .error .fault

/-- A checked condition; the run ends with `fault` where it does not hold. -/
def require (condition : Prop) [Decidable condition] : Except EconError Unit :=
  if condition then .ok () else .error .fault

def ckAddU64 (a b : UInt64) : Except EconError UInt64 :=
  if b > 0xFFFFFFFFFFFFFFFF - a then .error .fault else .ok (a + b)

/-- `floor(a × b / d)` through a 128-bit product, of which the low limb is returned. -/
def v2ecMuldiv (a b d : UInt64) : Except EconError UInt64 :=
  match U128.mulU64 (U128.fromU64 a) b with
  | none => .error .aborted
  | some product =>
    match U128.divU64 product d with
    | none => .error .aborted
    | some (quot, _) => .ok quot.lo

namespace AccrualTable

variable (table : AccrualTable)

/-- `SELECT amount … WHERE owner_fp = ?1` -/
def select (owner : Bytes) : Option Int :=
  (table.rows.find? fun row => row.ownerFp = owner).map AccrualRow.amount

/-- `UPDATE … SET amount = ?1 WHERE owner_fp = ?2 AND amount = ?3` -/
def update (owner : Bytes) (current : Int) (amount : UInt64) : AccrualTable where
  rows := table.rows.map fun row =>
    if row.ownerFp = owner ∧ row.amount = current then
      { row with amount := stored amount } else row
  inColumn := by
    intro row membership
    obtain ⟨before, beforeMem, rfl⟩ := mem_map.mp membership
    split
    · exact stored_inColumn amount
    · exact table.inColumn before beforeMem
  key := by
    have keys : ∀ row : AccrualRow, (if row.ownerFp = owner ∧ row.amount = current then
        { row with amount := stored amount } else row).ownerFp = row.ownerFp := by
      intro row
      split <;> rfl
    simpa [map_map, Function.comp_def, keys] using table.key

/-- `INSERT INTO v2_reward_accrual`, for an owner without a row. -/
def insert (owner : Bytes) (amount : UInt64)
    (absent : table.select owner = none) : AccrualTable where
  rows := table.rows ++ [⟨owner, stored amount⟩]
  inColumn := by
    intro row membership
    rcases mem_append.mp membership with old | new
    · exact table.inColumn row old
    · rw [mem_singleton.mp new]
      exact stored_inColumn amount
  key := by
    have fresh : ∀ row ∈ table.rows, row.ownerFp ≠ owner := by
      simpa [select] using absent
    simp only [map_append, map_cons, map_nil]
    refine nodup_append.mpr ⟨table.key, by simp, ?_⟩
    intro fp membership other otherMem
    obtain ⟨row, rowMem, rfl⟩ := mem_map.mp membership
    rw [mem_singleton.mp otherMem]
    exact fresh row rowMem

end AccrualTable

/-- Read, then one write bound to the value that was read. A zero credit writes nothing. -/
def v2ecAccrue (table : AccrualTable) (owner : Bytes) (x : UInt64) :
    Except EconError AccrualTable :=
  if x = 0 then .ok table
  else
    match found : table.select owner with
    | some current => do
        require (0 < current)
        let amount ← ckAddU64 (UInt64.ofNat current.toNat) x
        require (amount ≤ storeMax)
        require (table.rows.countP (fun row => row.ownerFp = owner ∧ row.amount = current) = 1)
        .ok (table.update owner current amount)
    | none => do
        let amount ← ckAddU64 0 x
        require (amount ≤ storeMax)
        .ok (table.insert owner amount found)

/-- `V2EC_KIND_SELF` and `V2EC_KIND_DELEG`. -/
inductive RowKind where
  | self
  | deleg
  deriving DecidableEq

/-- `v2ec_row_t`: one checked row of the balance copy. -/
structure V2ecRow where
  fp : Bytes
  kind : RowKind
  amount : UInt64

structure V2ecMember where
  hasRow : Bool
  vfp : Bytes
  ownerFp : Bytes
  copy : List V2ecRow
  sumD : UInt64
  power : UInt64

/-- The checks that `v2ec_member_copy` makes on one row. -/
def v2ecCopyRow (vfp : Bytes) (row : BalanceCopyRow) : Except EconError V2ecRow := do
  require (row.ownerFp.length = 64 ∧ 0 ≤ row.amount)
  if row.kind = 0 then
    require (row.ownerFp = vfp)
    .ok ⟨row.ownerFp, .self, UInt64.ofNat row.amount.toNat⟩
  else
    require (row.kind = 1)
    .ok ⟨row.ownerFp, .deleg, UInt64.ofNat row.amount.toNat⟩

/-- The order `owner_fp ASC, kind ASC` of the copy reader. -/
def copyOrder (left right : BalanceCopyRow) : Prop :=
  left.ownerFp < right.ownerFp ∨ left.ownerFp = right.ownerFp ∧ left.kind ≤ right.kind

instance : DecidableRel copyOrder := fun left right =>
  inferInstanceAs (Decidable (left.ownerFp < right.ownerFp ∨
    left.ownerFp = right.ownerFp ∧ left.kind ≤ right.kind))

/-- The rows of one member in one copy. -/
def v2ecMemberCopy (reads : Reads) (epochStart : UInt64) (vfp : Bytes) :
    Except EconError (List V2ecRow) :=
  ((reads.balanceCopy.filter fun row =>
    row.epochStart = epochStart ∧ row.validatorFp = vfp).insertionSort copyOrder).mapM
      (v2ecCopyRow vfp)

def v2ecSourceCopy (boundaryHeight : UInt64) : UInt64 :=
  if 3 * epochLength ≤ boundaryHeight then boundaryHeight - 3 * epochLength else 0

/-- The loop of `v2ec_member_load` over the copy rows: the bond and the sum of the delegations. -/
def v2ecCopyTotals : List V2ecRow → UInt64 → UInt64 → Except EconError (UInt64 × UInt64)
  | [], self, sumD => .ok (self, sumD)
  | row :: rows, self, sumD =>
    match row.kind with
    | .self => v2ecCopyTotals rows row.amount sumD
    | .deleg => do
        let sumD ← ckAddU64 sumD row.amount
        v2ecCopyTotals rows self sumD

/-- The first half of `v2ec_member_load`: the copy key, the presence of a row and the payee. -/
def v2ecMemberIdentity (reads : Reads) (entry : VsetEntry) (ruleset gen : UInt32)
    (chain32 : Bytes) : Except EconError (Bool × Bytes × Bytes) :=
  if ruleset = rulesetTopnV2 ∨ genStorage ≤ gen then do
    let vfp ← if ruleset = rulesetTopnV2 then .ok entry.validatorId
      else orFault (reads.validatorIdMigrated chain32 entry.pubkey)
    let found ← orFault (reads.validatorV2Get vfp)
    match found with
    | none =>
      .ok (false, vfp, if ruleset = rulesetTopnV2 then entry.ownerFp else replicate 64 0)
    | some row =>
      if ruleset = rulesetTopnV2 then do
        require (row.ownerFp = entry.ownerFp ∧ row.pubkey = entry.pubkey)
        .ok (true, vfp, entry.ownerFp)
      else .ok (true, vfp, row.ownerFp)
  else do
    let hasRow ← orFault (reads.validatorGet entry.pubkey)
    let vfp ← orFault (reads.sha3 entry.pubkey)
    .ok (hasRow, vfp, vfp)

/-- `v2ec_member_load`, with the power that the settlement fills in after it. -/
def v2ecMemberLoad (reads : Reads) (src : UInt64) (entry : VsetEntry)
    (ruleset gen : UInt32) (chain32 : Bytes) (power : UInt64) :
    Except EconError V2ecMember := do
  let (hasRow, vfp, ownerFp) ← v2ecMemberIdentity reads entry ruleset gen chain32
  require (entry.selfBond ≤ entry.totalStake)
  let copy ← v2ecMemberCopy reads src vfp
  let (self, sumD) ← v2ecCopyTotals copy 0 0
  require (self = entry.selfBond ∧ sumD = entry.totalStake - entry.selfBond)
  .ok ⟨hasRow, vfp, ownerFp, copy, sumD, power⟩

/-- Pass 1 of `settlement_apply` from entry `index` on: the members and the checked sum of their
powers. -/
def loadMembers (reads : Reads) (src : UInt64) (ruleset gen : UInt32) (chain32 : Bytes)
    (powers : Nat → UInt64) : List VsetEntry → Nat → UInt64 →
    Except EconError (List (VsetEntry × V2ecMember) × UInt64)
  | [], _, sumPower => .ok ([], sumPower)
  | entry :: entries, index, sumPower => do
      let member ← v2ecMemberLoad reads src entry ruleset gen chain32 (powers index)
      let sumPower ← ckAddU64 sumPower member.power
      let (members, sumPower) ←
        loadMembers reads src ruleset gen chain32 powers entries (index + 1) sumPower
      .ok ((entry, member) :: members, sumPower)

/-- The loop of `v2ec_pay_member` over the delegation rows. -/
def payDelegations (net sumD : UInt64) : List V2ecRow → UInt64 → AccrualTable →
    Except EconError (UInt64 × AccrualTable)
  | [], credited, table => .ok (credited, table)
  | row :: rows, credited, table =>
    match row.kind with
    | .self => payDelegations net sumD rows credited table
    | .deleg => do
        let x ← v2ecMuldiv net row.amount sumD
        let table ← v2ecAccrue table row.fp x
        let credited ← ckAddU64 credited x
        payDelegations net sumD rows credited table

/-- What `v2ec_pay_member` does with `net`: it stays in the pool when there is no
delegation to pay. -/
def payNet (member : V2ecMember) (net credited : UInt64) (table : AccrualTable) :
    Except EconError (UInt64 × AccrualTable) :=
  if 0 < net ∧ 0 < member.sumD then
    payDelegations net member.sumD member.copy credited table
  else .ok (credited, table)

/-- The inner split of `v2ec_pay_member`, once a member is to be paid. -/
def paySplit (entry : VsetEntry) (member : V2ecMember) (share : UInt64)
    (table : AccrualTable) : Except EconError (UInt64 × AccrualTable) := do
  require (entry.commissionBps ≤ commissionBpsMax)
  require (entry.totalStake ≠ 0)
  let base ← v2ecMuldiv share entry.selfBond entry.totalStake
  let gross := share - base
  let commission ← v2ecMuldiv gross entry.commissionBps.toUInt64 10000
  let net := gross - commission
  let vx ← ckAddU64 base commission
  let table ← v2ecAccrue table member.ownerFp vx
  let (credited, table) ← payNet member net vx table
  require (credited ≤ share)
  .ok (credited, table)

/-- The credited amount and the new accrual table. -/
def v2ecPayMember (reads : Reads) (boundaryHeight : UInt64) (entry : VsetEntry)
    (member : V2ecMember) (share : UInt64) (table : AccrualTable) :
    Except EconError (UInt64 × AccrualTable) :=
  if share = 0 then .ok (0, table)
  else if member.hasRow = false then .ok (0, table)
  else do
    let meets ← orFault (reads.attendanceMeetsBar entry.pubkey boundaryHeight)
    if meets then paySplit entry member share table else .ok (0, table)

/-- Pass 2 of `settlement_apply`. -/
def payMembers (reads : Reads) (boundaryHeight payout sumPower : UInt64) :
    List (VsetEntry × V2ecMember) → UInt64 → AccrualTable →
    Except EconError (UInt64 × AccrualTable)
  | [], total, table => .ok (total, table)
  | (entry, member) :: members, total, table => do
      let share ← v2ecMuldiv payout member.power sumPower
      let (got, table) ← v2ecPayMember reads boundaryHeight entry member share table
      let total ← ckAddU64 total got
      payMembers reads boundaryHeight payout sumPower members total table

/-- `nodus_witness_supply_get`, reduced to the pool it returns. -/
def supplyGet (db : Db) : Except EconError UInt64 :=
  match db.supply with
  | none => .error .fault
  | some row => do
      require (0 ≤ row.rewardPool)
      .ok (UInt64.ofNat row.rewardPool.toNat)

/-- `UPDATE supply_tracking SET reward_pool = ?1 WHERE reward_pool = ?2`, of one row. -/
def updatePool (db : Db) (observed newPool : UInt64) : Except EconError Db :=
  match db.supply with
  | none => .error .fault
  | some row => do
      require (row.rewardPool = stored observed)
      .ok { db with supply := some ⟨stored newPool, stored_inColumn newPool⟩ }

/-- The pool debit at the end of `settlement_apply`; a zero total writes nothing. -/
def debitPool (db : Db) (pool total : UInt64) : Except EconError Db :=
  if 0 < total then do
    require (total ≤ pool)
    updatePool db pool (pool - total)
  else .ok db

variable (reads : Reads)

/-- The chain id that the bridge derives identifiers from. Below the storage generation it is
unused, and a ruleset-2 snapshot is refused. -/
def bridgeChainId (keyGeneration ruleset : UInt32) : Except EconError Bytes :=
  if genStorage ≤ keyGeneration then orFault reads.chainId
  else if ruleset = rulesetTopnV2 then .error .fault
  else .ok (replicate 32 0)

/-- The powers of the governing set; an empty set asks for none. -/
def governingPowers (snap : VsetSnapshot) : Except EconError (Nat → UInt64) :=
  if snap.entries.isEmpty then .ok fun _ => 0 else orFault (reads.vsetPowers snap)

/-- The governing set of a boundary: pass 1 with everything it reads before. -/
def governingMembers (boundaryHeight : UInt64) (keyGeneration : UInt32) :
    Except EconError (List (VsetEntry × V2ecMember) × UInt64) := do
  let snap ← orFault (reads.authorityForEpoch (boundaryHeight - epochLength))
  let chain32 ← bridgeChainId reads keyGeneration snap.selectionRuleset
  let powers ← governingPowers reads snap
  loadMembers reads (v2ecSourceCopy boundaryHeight) snap.selectionRuleset keyGeneration
    chain32 powers snap.entries 0 0

/-- `*accrued_out` and the tables after it. -/
def settlementApply (boundaryHeight : UInt64) (keyGeneration : UInt32)
    (db : Db) : Except EconError (UInt64 × Db) := do
  require (epochLength ≤ boundaryHeight ∧ boundaryHeight % epochLength = 0)
  let pool ← supplyGet db
  let payout := pool >>> rewardDivisorLog2
  if payout = 0 then .ok (0, db)
  else do
    let (members, sumPower) ← governingMembers reads boundaryHeight keyGeneration
    if sumPower = 0 then .ok (0, db)
    else do
      let (total, accrual) ←
        payMembers reads boundaryHeight payout sumPower members 0 db.accrual
      require (total ≤ payout)
      require (reads.faultAccrued = false)
      let db ← debitPool { db with accrual := accrual } pool total
      require (reads.faultApplied = false)
      .ok (total, db)

end DnaLedger.Econ
