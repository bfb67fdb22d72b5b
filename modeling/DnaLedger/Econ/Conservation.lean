import DnaLedger.Foundation.Program
import DnaLedger.Econ.Settlement
import Mathlib.Algebra.Order.BigOperators.Group.List

/-!
# Conservation of the epoch reward

Every credit of a distribution goes through `v2ec_accrue`, so a run is described by the list of
payments it makes. The parts are floors as long as no division loses a carry.
-/

namespace DnaLedger.Econ

open List UInt64

@[simp] theorem require_eq_ok {condition : Prop} [Decidable condition] {value : Unit} :
    require condition = .ok value ↔ condition := by
  rw [require]
  split <;> simp [*]

variable {α : Type}

@[simp] theorem orFault_eq_ok {read : Option α} {value : α} :
    orFault read = .ok value ↔ read = some value := by
  cases read <;> simp [orFault]

variable {a b : UInt64}

theorem ckAddU64_eq_ok {sum : UInt64} (added : ckAddU64 a b = .ok sum) :
    sum.toNat = a.toNat + b.toNat := by
  rw [ckAddU64] at added
  obtain ⟨fits, added⟩ := ite_error_eq_ok.mp added
  cases added
  have bound := a.toNat_lt
  have complement : (0xFFFFFFFFFFFFFFFF - a : UInt64).toNat = 2 ^ 64 - 1 - a.toNat :=
    UInt64.toNat_sub_of_le _ _ (UInt64.le_iff_toNat_le.mpr (Nat.le_sub_one_of_lt bound))
  rw [gt_iff_lt, UInt64.lt_iff_toNat_lt, complement] at fits
  rw [UInt64.toNat_add]
  exact Nat.mod_eq_of_lt (by omega)

/-- `v2ec_muldiv` never rounds up, and where the floor fits a word it is the floor exactly when no
carry is lost. -/
theorem v2ecMuldiv_eq_ok {d quot : UInt64} (run : v2ecMuldiv a b d = .ok quot) :
    quot.toNat ≤ a.toNat * b.toNat / d.toNat ∧ (a.toNat * b.toNat / d.toNat < 2 ^ 64 →
      (quot.toNat = a.toNat * b.toNat / d.toNat ↔
        U128.Carryless (a.toNat * b.toNat) d.toNat 0)) := by
  obtain ⟨product, productRun, productEq⟩ := U128.mulU64_fromU64 a b
  simp only [v2ecMuldiv, productRun] at run
  by_cases zero : d = 0
  · simp [U128.divU64, zero] at run
  · obtain ⟨whole, rem, divRun, le, exactIff⟩ := U128.divU64_spec product zero
    simp only [divRun, Except.ok.injEq] at run
    subst quot
    rw [productEq] at le exactIff
    have limbs : whole.toNat = whole.hi.toNat * 2 ^ 64 + whole.lo.toNat := rfl
    refine ⟨by omega, fun fits => ?_⟩
    rw [← exactIff]
    omega

namespace AccrualTable

def total (table : AccrualTable) : Int :=
  (table.rows.map AccrualRow.amount).sum

/-- What one owner has accrued; an owner without a row has nothing. -/
def accrued (table : AccrualTable) (owner : Bytes) : Int :=
  (table.select owner).getD 0

variable {table : AccrualTable} {owner : Bytes} {current : Int}

theorem select_inColumn (found : table.select owner = some current) : InColumn current := by
  obtain ⟨row, rowFound, rfl⟩ := Option.map_eq_some_iff.mp found
  exact table.inColumn row (mem_of_find?_eq_some rowFound)

private theorem sum_replace (rows : List AccrualRow) (owner : Bytes) (current new : Int) :
    ((rows.map fun row => if row.ownerFp = owner ∧ row.amount = current then
        { row with amount := new } else row).map AccrualRow.amount).sum =
      (rows.map AccrualRow.amount).sum +
        (rows.countP fun row => row.ownerFp = owner ∧ row.amount = current) *
          (new - current) := by
  induction rows with
  | nil => simp
  | cons row rows ih =>
    by_cases hit : row.ownerFp = owner ∧ row.amount = current
    · simp only [map_cons, sum_cons, ih, hit, and_self, if_true,
        countP_cons, decide_true, Nat.cast_add, Nat.cast_one]
      ring
    · simp only [map_cons, sum_cons, ih, hit, if_false, countP_cons,
        decide_false, Bool.false_eq_true, Nat.add_zero]
      ring

variable {amount : UInt64}

theorem accrued_update (found : table.select owner = some current) (other : Bytes) :
    (table.update owner current amount).accrued other =
      table.accrued other + if other = owner then stored amount - current else 0 := by
  have keyKept : ∀ row : AccrualRow, (if row.ownerFp = owner ∧ row.amount = current then
      { row with amount := stored amount } else row).ownerFp = row.ownerFp := by
    intro row
    split <;> rfl
  simp only [accrued, select, update, find?_map, Function.comp_def, keyKept] at found ⊢
  obtain ⟨row, rowFound, amountEq⟩ := Option.map_eq_some_iff.mp found
  have rowOwner : row.ownerFp = owner := by simpa using find?_some rowFound
  by_cases eq : other = owner
  · subst other
    simp [rowFound, rowOwner, amountEq]
  · cases lookup : table.rows.find? fun row => row.ownerFp = other with
    | none => simp [eq]
    | some kept =>
      have keptOwner : kept.ownerFp = other := by simpa using find?_some lookup
      simp [eq, keptOwner]

theorem total_insert (absent : table.select owner = none) :
    (table.insert owner amount absent).total = table.total + stored amount := by
  simp [total, insert]

theorem accrued_insert (absent : table.select owner = none) (other : Bytes) :
    (table.insert owner amount absent).accrued other =
      table.accrued other + if other = owner then stored amount else 0 := by
  simp only [accrued, select, insert, find?_append, find?_cons, find?_nil]
  by_cases same : other = owner
  · subst other
    have noRow : table.rows.find? (fun row => row.ownerFp = owner) = none := by
      simpa [select] using absent
    simp [noRow]
  · have differ : ¬owner = other := fun eq => same eq.symm
    cases lookup : table.rows.find? fun row => row.ownerFp = other <;> simp [same, differ]

end AccrualTable

section

variable (owner : Bytes)

def paidTo (payments : List (Bytes × Nat)) : Nat :=
  (payments.map fun payment => if payment.1 = owner then payment.2 else 0).sum

@[simp] theorem paidTo_nil : paidTo owner [] = 0 := rfl

@[simp] theorem paidTo_cons (payment : Bytes × Nat) (payments : List (Bytes × Nat)) :
    paidTo owner (payment :: payments) =
      (if payment.1 = owner then payment.2 else 0) + paidTo owner payments := by
  simp [paidTo]

@[simp] theorem paidTo_append (left right : List (Bytes × Nat)) :
    paidTo owner (left ++ right) = paidTo owner left + paidTo owner right := by
  simp [paidTo]

end

def paidOut (payments : List (Bytes × Nat)) : Nat :=
  (payments.map Prod.snd).sum

@[simp] theorem paidOut_nil : paidOut [] = 0 := rfl

@[simp] theorem paidOut_cons (payment : Bytes × Nat) (payments : List (Bytes × Nat)) :
    paidOut (payment :: payments) = payment.2 + paidOut payments := by
  simp [paidOut]

@[simp] theorem paidOut_append (left right : List (Bytes × Nat)) :
    paidOut (left ++ right) = paidOut left + paidOut right := by
  simp [paidOut]

/-- `after` is `before` with exactly these payments credited. -/
structure Credits (before after : AccrualTable) (payments : List (Bytes × Nat)) : Prop where
  total : after.total = before.total + paidOut payments
  accrued : ∀ owner, after.accrued owner = before.accrued owner + paidTo owner payments

theorem Credits.refl (table : AccrualTable) : Credits table table [] :=
  ⟨by simp, by simp⟩

theorem Credits.trans {first second third : AccrualTable} {left right : List (Bytes × Nat)}
    (firstHalf : Credits first second left) (secondHalf : Credits second third right) :
    Credits first third (left ++ right) := by
  constructor
  · rw [secondHalf.total, firstHalf.total, paidOut_append]
    push_cast
    ring
  · intro owner
    rw [secondHalf.accrued, firstHalf.accrued, paidTo_append]
    push_cast
    ring

variable {table after : AccrualTable}

theorem v2ecAccrue_credits {owner : Bytes} {x : UInt64}
    (run : v2ecAccrue table owner x = .ok after) :
    Credits table after [(owner, x.toNat)] := by
  rw [v2ecAccrue] at run
  split at run
  next zero =>
    cases run
    simp only [zero]
    exact ⟨by simp, by simp⟩
  next ne =>
    split at run
    next current found =>
      simp only [bind_eq_ok, require_eq_ok, Except.ok.injEq] at run
      obtain ⟨-, pos, amount, added, -, fits, -, one, rfl⟩ := run
      have column := AccrualTable.select_inColumn found
      have raise : stored amount - current = x.toNat := by
        have sum := ckAddU64_eq_ok added
        rw [toNat_ofNat', Nat.mod_eq_of_lt (by rw [InColumn] at column; omega)] at sum
        rw [stored_of_le fits, sum]
        omega
      constructor
      · rw [AccrualTable.total, AccrualTable.update, AccrualTable.sum_replace, one,
          AccrualTable.total, raise]
        simp
      · intro other
        rw [AccrualTable.accrued_update found, raise]
        simp [eq_comm]
    next absent =>
      simp only [bind_eq_ok, require_eq_ok, Except.ok.injEq] at run
      obtain ⟨amount, added, -, fits, rfl⟩ := run
      have amountEq : stored amount = x.toNat := by
        have sum := ckAddU64_eq_ok added
        rw [stored_of_le fits, sum]
        simp
      constructor
      · rw [AccrualTable.total_insert, amountEq]
        simp
      · intro other
        rw [AccrualTable.accrued_insert, amountEq]
        simp [eq_comm]

/-- How `a × b / d` is rounded to a whole number. -/
abbrev Rounding := UInt64 → UInt64 → UInt64 → Nat

def floor : Rounding := fun a b d => a.toNat * b.toNat / d.toNat

/-- The word that `v2ec_muldiv` returns, as a number. -/
def quotient : Rounding := fun a b d =>
  match v2ecMuldiv a b d with
  | .ok quot => quot.toNat
  | .error _ => 0

/-- `v2ec_muldiv` loses no carry on these words. -/
def Lossless (a b d : UInt64) : Prop :=
  U128.Carryless (a.toNat * b.toNat) d.toNat 0

theorem quotient_of_ok {d quot : UInt64} (run : v2ecMuldiv a b d = .ok quot) :
    quotient a b d = quot.toNat := by
  rw [quotient, run]

theorem quotient_le (a b d : UInt64) : quotient a b d ≤ a.toNat * b.toNat / d.toNat := by
  cases run : v2ecMuldiv a b d with
  | ok quot =>
    rw [quotient_of_ok run]
    exact (v2ecMuldiv_eq_ok run).1
  | error code => simp [quotient, run]

/-- Where `b ≤ d`, as in every call, the result is the floor exactly when no carry is lost. -/
theorem quotient_eq_floor_iff {d : UInt64} (le : b ≤ d) :
    quotient a b d = floor a b d ↔ Lossless a b d := by
  cases run : v2ecMuldiv a b d with
  | ok quot =>
    rw [quotient_of_ok run]
    have below : a.toNat * b.toNat / d.toNat ≤ a.toNat :=
      Nat.div_le_of_le_mul (Nat.mul_comm d.toNat _ ▸ Nat.mul_le_mul_left _ le)
    exact (v2ecMuldiv_eq_ok run).2 (below.trans_lt a.toNat_lt)
  | error code =>
    -- only a zero divisor aborts, and then `b` is zero too
    obtain ⟨product, productRun, -⟩ := U128.mulU64_fromU64 a b
    have zero : d = 0 := by
      by_contra ne
      obtain ⟨whole, rem, divRun, -⟩ := U128.divU64_spec product ne
      simp [v2ecMuldiv, productRun, divRun] at run
    subst zero
    have empty : b.toNat = 0 := Nat.le_zero.mp le
    simp [quotient, run, floor, empty, Lossless, U128.Carryless]

theorem floor_of_lossless {d : UInt64} (le : b ≤ d) (lossless : Lossless a b d) :
    quotient a b d = floor a b d :=
  (quotient_eq_floor_iff le).mpr lossless

/-- How a member's share is split: for the own bond, as commission, and to each delegation row. -/
structure MemberParts where
  payee : Bytes
  base : Nat
  commission : Nat
  delegations : List (Bytes × Nat)

namespace MemberParts

variable (parts : MemberParts)

/-- The payments of one member, in the order they are made. -/
def payments : List (Bytes × Nat) :=
  (parts.payee, parts.base + parts.commission) :: parts.delegations

/-- All that is credited on account of one member. -/
def credited : Nat :=
  paidOut parts.payments

def toOwner (owner : Bytes) : Nat :=
  (if parts.payee = owner then parts.base + parts.commission else 0) +
    paidTo owner parts.delegations

theorem paidTo_payments (owner : Bytes) : paidTo owner parts.payments = parts.toOwner owner := by
  simp [payments, toOwner]

end MemberParts

section

variable (div : Rounding)

/-- The delegation parts of a copy: `net × a_d / Σ a_d`, rounded, to each row's owner. -/
def delegationParts (net sumD : UInt64) (rows : List V2ecRow) : List (Bytes × Nat) :=
  (rows.filter fun row => row.kind = .deleg).map fun row => (row.fp, div net row.amount sumD)

/-- What is left of a share for the delegators, behind the base and the commission. -/
def netPart (entry : VsetEntry) (share : UInt64) : UInt64 :=
  let gross := share - ofNat (div share entry.selfBond entry.totalStake)
  gross - ofNat (div gross entry.commissionBps.toUInt64 10000)

def splitParts (entry : VsetEntry) (member : V2ecMember) (share : UInt64) : MemberParts :=
  let base := div share entry.selfBond entry.totalStake
  let gross := share - ofNat base
  let net := netPart div entry share
  { payee := member.ownerFp, base, commission := div gross entry.commissionBps.toUInt64 10000,
    delegations := if 0 < net ∧ 0 < member.sumD then
      delegationParts div net member.sumD member.copy else [] }

/-- A member is paid only with a row and when it meets the attendance bar. -/
abbrev Paid (reads : Reads) (boundaryHeight : UInt64) (entry : VsetEntry) (member : V2ecMember)
    (share : UInt64) : Prop :=
  share ≠ 0 ∧ member.hasRow = true ∧
    reads.attendanceMeetsBar entry.pubkey boundaryHeight = some true

def memberParts (reads : Reads) (boundaryHeight : UInt64) (entry : VsetEntry)
    (member : V2ecMember) (share : UInt64) : MemberParts :=
  if Paid reads boundaryHeight entry member share then splitParts div entry member share
  else ⟨member.ownerFp, 0, 0, []⟩

end

variable {credited : UInt64}

theorem payDelegations_credits {net sumD : UInt64} {rows : List V2ecRow} {credited' : UInt64}
    (run : payDelegations net sumD rows credited table = .ok (credited', after)) :
    Credits table after (delegationParts quotient net sumD rows) ∧
      credited'.toNat = credited.toNat + paidOut (delegationParts quotient net sumD rows) := by
  induction rows generalizing credited table with
  | nil =>
    simp only [payDelegations, Except.ok.injEq, Prod.mk.injEq] at run
    obtain ⟨rfl, rfl⟩ := run
    exact ⟨Credits.refl table, rfl⟩
  | cons row rows ih =>
    rw [payDelegations] at run
    split at run
    next kind =>
      simpa [delegationParts, kind] using ih run
    next kind =>
      simp only [bind_eq_ok] at run
      obtain ⟨x, split, middle, accrue, sum, added, rest⟩ := run
      obtain ⟨tail, tailSum⟩ := ih rest
      have head := v2ecAccrue_credits accrue
      have sumEq := ckAddU64_eq_ok added
      have parts : delegationParts quotient net sumD (row :: rows) =
          [(row.fp, x.toNat)] ++ delegationParts quotient net sumD rows := by
        simp [delegationParts, kind, quotient_of_ok split]
      rw [parts]
      refine ⟨head.trans tail, ?_⟩
      rw [tailSum, sumEq, paidOut_append]
      simp
      omega

variable {entry : VsetEntry} {member : V2ecMember} {share total : UInt64} {row : SupplyRow}
variable {keyGeneration : UInt32}

theorem paySplit_credits (run : paySplit entry member share table = .ok (credited, after)) :
    Credits table after (splitParts quotient entry member share).payments ∧
      credited.toNat = (splitParts quotient entry member share).credited ∧
      credited.toNat ≤ share.toNat := by
  simp only [paySplit, bind_eq_ok, require_eq_ok, Except.ok.injEq, Prod.mk.injEq,
    Prod.exists] at run
  obtain ⟨-, -, -, -, base, baseRun, commission, commissionRun, own, ownRun, middle,
    accrue, paid, final, rest, -, le, rfl, rfl⟩ := run
  have ownEq := ckAddU64_eq_ok ownRun
  have first := v2ecAccrue_credits accrue
  rw [ownEq] at first
  -- the parts of the split are the words that the run computed
  have parts : splitParts quotient entry member share =
      { payee := member.ownerFp, base := base.toNat, commission := commission.toNat,
        delegations := if 0 < share - base - commission ∧ 0 < member.sumD then
          delegationParts quotient (share - base - commission) member.sumD member.copy
          else [] } := by
    simp [splitParts, netPart, quotient_of_ok baseRun, quotient_of_ok commissionRun]
  rw [parts]
  simp only [MemberParts.credited, MemberParts.payments, paidOut_cons]
  rw [payNet] at rest
  split at rest
  next paying =>
    obtain ⟨tail, tailSum⟩ := payDelegations_credits rest
    rw [if_pos paying]
    exact ⟨first.trans tail, by omega, le_iff_toNat_le.mp le⟩
  next idle =>
    simp only [Except.ok.injEq, Prod.mk.injEq] at rest
    obtain ⟨rfl, rfl⟩ := rest
    rw [if_neg idle]
    exact ⟨first, by simpa using ownEq, le_iff_toNat_le.mp le⟩

theorem Credits.nothing (table : AccrualTable) (owner : Bytes) :
    Credits table table (MemberParts.mk owner 0 0 []).payments :=
  ⟨by simp [MemberParts.payments], by simp [MemberParts.payments]⟩

variable {reads : Reads} {boundaryHeight : UInt64}

section

variable (run : v2ecPayMember reads boundaryHeight entry member share table = .ok (credited, after))

include run

theorem v2ecPayMember_credits :
    Credits table after (memberParts quotient reads boundaryHeight entry member share).payments ∧
      credited.toNat = (memberParts quotient reads boundaryHeight entry member share).credited ∧
      credited.toNat ≤ share.toNat := by
  have unpaid (returned : Except.ok (ε := EconError) (0, table) = .ok (credited, after)) :
      Credits table after (MemberParts.mk member.ownerFp 0 0 []).payments ∧
        credited.toNat = (MemberParts.mk member.ownerFp 0 0 []).credited ∧
        credited.toNat ≤ share.toNat := by
    cases returned
    exact ⟨Credits.nothing table _, rfl, Nat.zero_le _⟩
  rw [v2ecPayMember] at run
  split at run
  next zero =>
    rw [memberParts, if_neg (by simp [zero])]
    exact unpaid run
  next ne =>
    split at run
    next noRow =>
      rw [memberParts, if_neg (by simp [noRow])]
      exact unpaid run
    next hasRow =>
      simp only [bind_eq_ok, orFault_eq_ok] at run
      obtain ⟨meets, attendance, run⟩ := run
      cases meets with
      | true =>
        rw [memberParts, if_pos ⟨ne, by simpa using hasRow, attendance⟩]
        exact paySplit_credits (by simpa using run)
      | false =>
        rw [memberParts, if_neg (by simp [attendance])]
        exact unpaid (by simpa using run)

theorem commission_le_of_paid (paid : Paid reads boundaryHeight entry member share) :
    entry.commissionBps ≤ commissionBpsMax := by
  obtain ⟨ne, hasRow, meets⟩ := paid
  rw [v2ecPayMember, if_neg ne, if_neg (by simp [hasRow])] at run
  simp only [meets, bind_eq_ok, orFault_eq_ok, Option.some.injEq, exists_eq_left', if_true,
    paySplit, require_eq_ok] at run
  obtain ⟨-, admitted, -⟩ := run
  exact admitted

end

/-! ## The whole distribution -/

/-- The parts of one governing member when `payout` is shared by power. -/
def boundaryParts (div : Rounding) (reads : Reads) (boundaryHeight payout sumPower : UInt64)
    (governing : VsetEntry × V2ecMember) : MemberParts :=
  memberParts div reads boundaryHeight governing.1 governing.2
    (ofNat (div payout governing.2.power sumPower))

variable {sumPower : UInt64} {members : List (VsetEntry × V2ecMember)}

theorem payMembers_credits {payout : UInt64} {total' : UInt64}
    (run : payMembers reads boundaryHeight payout sumPower members total table = .ok (total',
      after)) :
    Credits table after (members.flatMap fun governing =>
        (boundaryParts quotient reads boundaryHeight payout sumPower governing).payments) ∧
      total'.toNat = total.toNat + (members.map fun governing =>
        (boundaryParts quotient reads boundaryHeight payout sumPower governing).credited).sum ∧
      ∀ governing ∈ members,
        (boundaryParts quotient reads boundaryHeight payout sumPower governing).credited ≤
            quotient payout governing.2.power sumPower ∧
          (Paid reads boundaryHeight governing.1 governing.2
              (UInt64.ofNat (quotient payout governing.2.power sumPower)) →
            governing.1.commissionBps ≤ commissionBpsMax) := by
  induction members generalizing total table with
  | nil =>
    simp only [payMembers, Except.ok.injEq, Prod.mk.injEq] at run
    obtain ⟨rfl, rfl⟩ := run
    exact ⟨Credits.refl table, by simp, by simp⟩
  | cons governing members ih =>
    obtain ⟨entry, member⟩ := governing
    simp only [payMembers, bind_eq_ok, Prod.exists] at run
    obtain ⟨share, shareRun, got, middle, payRun, sum, added, rest⟩ := run
    obtain ⟨tail, tailTotal, tailBound⟩ := ih rest
    obtain ⟨head, gotEq, gotLe⟩ := v2ecPayMember_credits payRun
    have sumEq := ckAddU64_eq_ok added
    have parts : boundaryParts quotient reads boundaryHeight payout sumPower (entry, member) =
        memberParts quotient reads boundaryHeight entry member share := by
      simp [boundaryParts, quotient_of_ok shareRun]
    refine ⟨?_, ?_, ?_⟩
    · rw [flatMap_cons, parts]
      exact head.trans tail
    · simp only [map_cons, sum_cons, parts]
      omega
    · refine forall_mem_cons.mpr ⟨?_, tailBound⟩
      rw [parts, quotient_of_ok shareRun, UInt64.ofNat_toNat]
      exact ⟨by omega, commission_le_of_paid payRun⟩

theorem paidTo_flatMap (owner : Bytes) (items : List α) (payments : α → List (Bytes × Nat)) :
    paidTo owner (items.flatMap payments) =
      (items.map fun item => paidTo owner (payments item)).sum := by
  induction items with
  | nil => rfl
  | cons item items ih => simp [ih]

theorem paidOut_flatMap (items : List α) (payments : α → List (Bytes × Nat)) :
    paidOut (items.flatMap payments) = (items.map fun item => paidOut (payments item)).sum := by
  induction items with
  | nil => rfl
  | cons item items ih => simp [ih]

/-- What pass 1 leaves of a member: no dividend of the inner split is above its divisor. -/
structure Loaded (governing : VsetEntry × V2ecMember) : Prop where
  bond_le : governing.1.selfBond ≤ governing.1.totalStake
  delegation_le : ∀ row ∈ governing.2.copy, row.kind = .deleg → row.amount ≤ governing.2.sumD

theorem v2ecCopyTotals_le {rows : List V2ecRow} {self sumD self' sumD' : UInt64}
    (run : v2ecCopyTotals rows self sumD = .ok (self', sumD')) :
    sumD ≤ sumD' ∧ ∀ row ∈ rows, row.kind = .deleg → row.amount ≤ sumD' := by
  induction rows generalizing self sumD with
  | nil =>
    cases run
    exact ⟨UInt64.le_refl _, by simp⟩
  | cons row rows ih =>
    rw [v2ecCopyTotals] at run
    split at run
    next kind =>
      obtain ⟨le, all⟩ := ih run
      exact ⟨le, forall_mem_cons.mpr ⟨by simp [kind], all⟩⟩
    next kind =>
      obtain ⟨sum, added, rest⟩ := bind_eq_ok.mp run
      obtain ⟨le, all⟩ := ih rest
      have sumEq := ckAddU64_eq_ok added
      have le' : sum.toNat ≤ sumD'.toNat := le
      exact ⟨UInt64.le_iff_toNat_le.mpr (by omega),
        forall_mem_cons.mpr ⟨fun _ => le_iff_toNat_le.mpr (by omega), all⟩⟩

theorem v2ecMemberLoad_loaded {src : UInt64} {ruleset gen : UInt32} {chain32 : Bytes}
    {power : UInt64}
    (run : v2ecMemberLoad reads src entry ruleset gen chain32 power = .ok member) :
    Loaded (entry, member) := by
  simp only [v2ecMemberLoad, bind_eq_ok, require_eq_ok, Prod.exists, Except.ok.injEq] at run
  obtain ⟨_, _, _, -, -, bond, _, -, _, _, totals, -, -, rfl⟩ := run
  exact ⟨bond, (v2ecCopyTotals_le totals).2⟩

theorem loadMembers_eq_ok {src : UInt64} {ruleset gen : UInt32} {chain32 : Bytes}
    {powers : Nat → UInt64} {entries : List VsetEntry} {index : Nat} {start : UInt64}
    (run : loadMembers reads src ruleset gen chain32 powers entries index start = .ok (members,
      sumPower)) :
    sumPower.toNat = start.toNat + (members.map fun governing => governing.2.power.toNat).sum ∧
      ∀ governing ∈ members, Loaded governing := by
  induction entries generalizing index start members with
  | nil =>
    simp only [loadMembers, Except.ok.injEq, Prod.mk.injEq] at run
    obtain ⟨rfl, rfl⟩ := run
    simp
  | cons entry entries ih =>
    simp only [loadMembers, bind_eq_ok, Prod.exists, Except.ok.injEq, Prod.mk.injEq] at run
    obtain ⟨member, load, sum, added, rest, final, restRun, rfl, rfl⟩ := run
    have sumEq := ckAddU64_eq_ok added
    obtain ⟨tail, loaded⟩ := ih restRun
    refine ⟨?_, forall_mem_cons.mpr ⟨v2ecMemberLoad_loaded load, loaded⟩⟩
    simp only [map_cons, sum_cons]
    omega

/-- The members that a boundary pays: none when the payout or the total power is zero. -/
def paidMembers (reads : Reads) (boundaryHeight : UInt64) (keyGeneration : UInt32)
    (pool : UInt64) : List (VsetEntry × V2ecMember) :=
  match governingMembers reads boundaryHeight keyGeneration with
  | .ok (members, sumPower) =>
    if pool >>> rewardDivisorLog2 = 0 ∨ sumPower = 0 then [] else members
  | .error _ => []

def totalPower (members : List (VsetEntry × V2ecMember)) : Nat :=
  (members.map fun governing => governing.2.power.toNat).sum

variable {db : Db} {pool : UInt64}

theorem debitPool_eq_ok {db' : Db} (supply : db.supply = some row)
    (poolEq : stored pool = row.rewardPool) (poolFits : pool ≤ storeMax)
    (run : debitPool db pool total = .ok db') :
    db'.accrual = db.accrual ∧ ∃ row', db'.supply = some row' ∧
      row.rewardPool - row'.rewardPool = total.toNat := by
  rw [debitPool] at run
  split at run
  next pos =>
    simp only [bind_eq_ok, require_eq_ok, updatePool, supply, Except.ok.injEq] at run
    obtain ⟨-, le, -, -, rfl⟩ := run
    refine ⟨rfl, _, rfl, ?_⟩
    have difference : (pool - total).toNat = pool.toNat - total.toNat :=
      UInt64.toNat_sub_of_le _ _ le
    have total_le : total.toNat ≤ pool.toNat := le_iff_toNat_le.mp le
    have pool_le : pool.toNat ≤ storeMax.toNat := le_iff_toNat_le.mp poolFits
    have stillFits : pool - total ≤ storeMax := le_iff_toNat_le.mpr (by omega)
    change row.rewardPool - stored (pool - total) = total.toNat
    rw [← poolEq, stored_of_le poolFits, stored_of_le stillFits, difference]
    omega
  next zero =>
    cases run
    have zero : total.toNat = 0 := by
      have le := UInt64.le_iff_toNat_le.mp (UInt64.not_lt.mp zero)
      simpa using le
    exact ⟨rfl, row, supply, by rw [zero]; simp⟩

theorem supplyGet_eq_ok (run : supplyGet db = .ok pool) :
    ∃ row, db.supply = some row ∧ stored pool = row.rewardPool ∧ pool ≤ storeMax := by
  rw [supplyGet] at run
  split at run
  next => cases run
  next row supply =>
    simp only [bind_eq_ok, require_eq_ok, Except.ok.injEq] at run
    obtain ⟨-, nonnegative, rfl⟩ := run
    have column := row.inColumn
    rw [InColumn] at column
    have word : (ofNat row.rewardPool.toNat).toNat = row.rewardPool.toNat := by
      rw [toNat_ofNat']
      exact Nat.mod_eq_of_lt (by omega)
    have fits : ofNat row.rewardPool.toNat ≤ storeMax := by
      apply le_iff_toNat_le.mpr
      rw [word]
      change row.rewardPool.toNat ≤ 2 ^ 63 - 1
      omega
    refine ⟨row, supply, ?_, fits⟩
    rw [stored_of_le fits, word]
    omega

theorem governingMembers_eq_ok
    (run : governingMembers reads boundaryHeight keyGeneration = .ok (members, sumPower)) :
    sumPower.toNat = totalPower members ∧ ∀ governing ∈ members, Loaded governing := by
  simp only [governingMembers, bind_eq_ok] at run
  obtain ⟨snap, -, chain32, -, powers, -, loaded⟩ := run
  simpa [totalPower] using loadMembers_eq_ok loaded

/-- No division for this member loses a carry. -/
def LosslessFor (reads : Reads) (boundaryHeight payout sumPower : UInt64)
    (governing : VsetEntry × V2ecMember) : Prop :=
  let share := ofNat (floor payout governing.2.power sumPower)
  Lossless payout governing.2.power sumPower ∧
    (Paid reads boundaryHeight governing.1 governing.2 share →
      Lossless share governing.1.selfBond governing.1.totalStake ∧
        ∀ row ∈ governing.2.copy, row.kind = .deleg →
          Lossless (netPart floor governing.1 share) row.amount governing.2.sumD)

theorem splitParts_floor (loaded : Loaded (entry, member))
    (admitted : entry.commissionBps ≤ commissionBpsMax)
    (base : Lossless share entry.selfBond entry.totalStake)
    (rows : ∀ row ∈ member.copy, row.kind = .deleg →
      Lossless (netPart floor entry share) row.amount member.sumD) :
    splitParts quotient entry member share = splitParts floor entry member share := by
  have baseEq := floor_of_lossless loaded.bond_le base
  -- the divisor of the commission is small
  have commissionEq (gross : UInt64) : quotient gross entry.commissionBps.toUInt64 10000 =
      floor gross entry.commissionBps.toUInt64 10000 := by
    apply floor_of_lossless _ (U128.carryless_of_le (by decide) (by decide))
    have admitted : entry.commissionBps.toNat ≤ 5000 := admitted
    exact le_iff_toNat_le.mpr (by simp; omega)
  have netEq : netPart quotient entry share = netPart floor entry share := by
    simp only [netPart, baseEq, commissionEq]
  have rowsEq : delegationParts quotient (netPart floor entry share) member.sumD member.copy =
      delegationParts floor (netPart floor entry share) member.sumD member.copy := by
    apply map_congr_left
    intro row found
    obtain ⟨found, kind⟩ := mem_filter.mp found
    have kind : row.kind = .deleg := by simpa using kind
    rw [floor_of_lossless (loaded.delegation_le row found kind) (rows row found kind)]
  simp only [splitParts, netEq, baseEq, commissionEq, rowsEq]

theorem boundaryParts_floor {payout : UInt64} {governing : VsetEntry × V2ecMember}
    (loaded : Loaded governing) (power_le : governing.2.power ≤ sumPower)
    (admitted : Paid reads boundaryHeight governing.1 governing.2
        (UInt64.ofNat (quotient payout governing.2.power sumPower)) →
      governing.1.commissionBps ≤ commissionBpsMax)
    (lossless : LosslessFor reads boundaryHeight payout sumPower governing) :
    boundaryParts quotient reads boundaryHeight payout sumPower governing =
      boundaryParts floor reads boundaryHeight payout sumPower governing := by
  obtain ⟨shareLossless, split⟩ := lossless
  rw [floor_of_lossless power_le shareLossless] at admitted
  rw [boundaryParts, boundaryParts, floor_of_lossless power_le shareLossless, memberParts,
    memberParts]
  split_ifs with paid
  · obtain ⟨base, rows⟩ := split paid
    exact splitParts_floor loaded (admitted paid) base rows
  · rfl

/-- What a distribution does to the tables, for the pool, the payout and the paid members, with
parts rounded by `div`. -/
structure Conserves (div : Rounding) (reads : Reads) (boundaryHeight : UInt64)
    (keyGeneration : UInt32) (db db' : Db) (accrued pool payout sumPower : UInt64)
    (members : List (VsetEntry × V2ecMember)) : Prop where
  /-- The pool falls by exactly what the sum of all accrual rows rises, which is
  the amount the run reports. -/
  pool_fall : ∃ before after : SupplyRow, db.supply = some before ∧
    db'.supply = some after ∧ before.rewardPool = pool.toNat ∧
    before.rewardPool - after.rewardPool = db'.accrual.total - db.accrual.total ∧
    before.rewardPool - after.rewardPool = accrued.toNat
  /-- The payout is the pool shifted by the reward divisor, and bounds the fall. -/
  payout_eq : payout.toNat = pool.toNat / 2 ^ 16
  accrued_le : accrued.toNat ≤ payout.toNat
  /-- The members are those of the governing set, the divisor is their power. -/
  members_eq : members = paidMembers reads boundaryHeight keyGeneration pool
  sumPower_eq : sumPower.toNat = totalPower members
  /-- A member is credited at most its floored share. -/
  credited_le : ∀ governing ∈ members,
    (boundaryParts div reads boundaryHeight payout sumPower governing).credited ≤
      payout.toNat * governing.2.power.toNat / totalPower members
  /-- A member without a row, or below the bar, is credited nothing. -/
  credited_eq_zero : ∀ governing ∈ members, governing.2.hasRow = false ∨
      reads.attendanceMeetsBar governing.1.pubkey boundaryHeight ≠ some true →
    (boundaryParts div reads boundaryHeight payout sumPower governing).credited = 0
  /-- Each owner's accrual rises by its base, commission and delegation parts. -/
  accrued_owner : ∀ owner, db'.accrual.accrued owner = db.accrual.accrued owner +
    ((members.map fun governing =>
      (boundaryParts div reads boundaryHeight payout sumPower governing).toOwner owner).sum : Nat)

theorem payout_eq_div (pool : UInt64) :
    (pool >>> rewardDivisorLog2).toNat = pool.toNat / 2 ^ 16 := by
  rw [UInt64.toNat_shiftRight, ← Nat.shiftRight_eq_div_pow]
  rfl

theorem Conserves.idle (supply : db.supply = some row) (poolEq : row.rewardPool = pool.toNat)
    (nobody : paidMembers reads boundaryHeight keyGeneration pool = []) :
    Conserves quotient reads boundaryHeight keyGeneration db db 0 pool
      (pool >>> rewardDivisorLog2) 0 [] where
  pool_fall := ⟨row, row, supply, supply, poolEq, by simp, by simp⟩
  payout_eq := payout_eq_div pool
  accrued_le := by simp
  members_eq := nobody.symm
  sumPower_eq := rfl
  credited_le := by simp
  credited_eq_zero := by simp
  accrued_owner := by simp

theorem Conserves.congr {div div' : Rounding} {db' : Db} {accrued payout : UInt64}
    (eq : ∀ governing ∈ members,
      boundaryParts div reads boundaryHeight payout sumPower governing =
      boundaryParts div' reads boundaryHeight payout sumPower governing)
    (conserves : Conserves div reads boundaryHeight keyGeneration db db' accrued pool payout
      sumPower members) :
    Conserves div' reads boundaryHeight keyGeneration db db' accrued pool payout sumPower
      members where
  pool_fall := conserves.pool_fall
  payout_eq := conserves.payout_eq
  accrued_le := conserves.accrued_le
  members_eq := conserves.members_eq
  sumPower_eq := conserves.sumPower_eq
  credited_le governing found := eq governing found ▸ conserves.credited_le governing found
  credited_eq_zero governing found unpaid :=
    eq governing found ▸ conserves.credited_eq_zero governing found unpaid
  accrued_owner owner := by
    rw [conserves.accrued_owner, map_congr_left fun governing found => by rw [eq governing found]]

/-- A distribution that succeeds conserves the reward, and its parts are floors when no division
loses a carry. -/
theorem settlementApply_conserves {reads : Reads} {boundaryHeight : UInt64}
    {keyGeneration : UInt32} {db db' : Db} {accrued : UInt64}
    (run : settlementApply reads boundaryHeight keyGeneration db = .ok (accrued, db')) :
    ∃ pool payout sumPower members,
      Conserves quotient reads boundaryHeight keyGeneration db db' accrued pool payout sumPower
        members ∧
      ((∀ governing ∈ members, LosslessFor reads boundaryHeight payout sumPower governing) →
        Conserves floor reads boundaryHeight keyGeneration db db' accrued pool payout sumPower
          members) := by
  simp only [settlementApply, bind_eq_ok, require_eq_ok] at run
  obtain ⟨-, -, pool, poolRun, run⟩ := run
  obtain ⟨row, supply, poolStored, poolFits⟩ := supplyGet_eq_ok poolRun
  have poolEq : row.rewardPool = pool.toNat := by
    rw [← poolStored, stored_of_le poolFits]
  split at run
  next zero =>
    have nobody : paidMembers reads boundaryHeight keyGeneration pool = [] := by
      rw [paidMembers]
      cases governingMembers reads boundaryHeight keyGeneration <;> simp [zero]
    cases run
    have idle := Conserves.idle supply poolEq nobody
    exact ⟨_, _, _, _, idle, fun _ => idle.congr (by simp)⟩
  next ne =>
    simp only [bind_eq_ok, Prod.exists] at run
    obtain ⟨members, sumPower, loaded, run⟩ := run
    split at run
    next zero =>
      have nobody : paidMembers reads boundaryHeight keyGeneration pool = [] := by
        simp [paidMembers, loaded, zero]
      cases run
      have idle := Conserves.idle supply poolEq nobody
      exact ⟨_, _, _, _, idle, fun _ => idle.congr (by simp)⟩
    next someone =>
      simp only [bind_eq_ok, require_eq_ok, Prod.exists, Except.ok.injEq, Prod.mk.injEq] at run
      obtain ⟨total, table, payRun, -, le, -, -, final, debitRun, -, -, rfl, rfl⟩ := run
      obtain ⟨credits, totalEq, bounds⟩ := payMembers_credits payRun
      obtain ⟨sameAccrual, after, supplyAfter, fall⟩ :=
        debitPool_eq_ok (show ({ db with accrual := table } : Db).supply = some row from supply)
          poolStored poolFits debitRun
      obtain ⟨powerEq, allLoaded⟩ := governingMembers_eq_ok loaded
      have rise : final.accrual.total - db.accrual.total = total.toNat := by
        rw [sameAccrual, credits.total, paidOut_flatMap, totalEq]
        simp [MemberParts.credited]
      have conserves : Conserves quotient reads boundaryHeight keyGeneration db final total pool
          (pool >>> rewardDivisorLog2) sumPower members := {
        pool_fall := ⟨row, after, supply, supplyAfter, poolEq, by rw [fall, rise], fall⟩
        payout_eq := payout_eq_div pool
        accrued_le := le_iff_toNat_le.mp le
        members_eq := by simp [paidMembers, loaded, ne, someone]
        sumPower_eq := powerEq
        credited_le := fun governing inside =>
          (bounds governing inside).1.trans (powerEq ▸ quotient_le _ _ _)
        credited_eq_zero := by
          intro governing inside unpaid
          rw [boundaryParts, memberParts, if_neg]
          · rfl
          · rintro ⟨-, hasRow, meets⟩
            rcases unpaid with noRow | missed
            · simp [noRow] at hasRow
            · exact missed meets
        accrued_owner := by
          intro owner
          rw [sameAccrual, credits.accrued, paidTo_flatMap]
          simp [MemberParts.paidTo_payments] }
      refine ⟨_, _, _, _, conserves, fun lossless => conserves.congr fun governing found => ?_⟩
      have power_le : governing.2.power.toNat ≤ totalPower members :=
        le_sum_of_mem (mem_map_of_mem found)
      exact boundaryParts_floor (allLoaded governing found)
        (le_iff_toNat_le.mpr (powerEq ▸ power_le)) (bounds governing found).2
        (lossless governing found)

/-- A boundary with one member, which has a bond and one delegator. -/
def sampleReads (bond delegated : UInt64) : Reads where
  authorityForEpoch := fun _ => some ⟨1, [⟨[1], bond + delegated, bond, 1000, [], []⟩]⟩
  chainId := none
  vsetPowers := fun _ => some fun _ => 5
  validatorV2Get := fun _ => none
  validatorGet := fun _ => some true
  sha3 := fun _ => some (replicate 64 7)
  validatorIdMigrated := fun _ _ => none
  attendanceMeetsBar := fun _ _ => some true
  balanceCopy := [⟨0, replicate 64 7, replicate 64 9, 1, delegated.toNat⟩,
    ⟨0, replicate 64 7, replicate 64 7, 0, bond.toNat⟩]
  faultAccrued := false
  faultApplied := false

/-- An empty accrual table and a pool whose payout is 100. -/
def sampleDb : Db where
  accrual := ⟨[], by simp, by simp⟩
  supply := some ⟨6553600, by simp [InColumn]⟩

theorem settlementApply_conserves_sample :
    ∃ db', settlementApply (sampleReads 600 400) 720 1 sampleDb = .ok (100, db') ∧
      ∃ pool payout sumPower members, Conserves floor (sampleReads 600 400) 720 1 sampleDb db'
        100 pool payout sumPower members := by
  have succeeds : ((settlementApply (sampleReads 600 400) 720 1 sampleDb).map Prod.fst).toOption =
      some 100 := by
    decide +kernel
  cases run : settlementApply (sampleReads 600 400) 720 1 sampleDb with
  | error code => simp [run, Except.map, Except.toOption] at succeeds
  | ok result =>
    obtain ⟨accrued, db'⟩ := result
    have accruedEq : accrued = 100 := by
      simpa [run, Except.map, Except.toOption] using succeeds
    subst accruedEq
    obtain ⟨pool, payout, sumPower, members, conserves, floors⟩ := settlementApply_conserves run
    refine ⟨db', rfl, pool, payout, sumPower, members, floors fun governing found => ?_⟩
    obtain ⟨before, -, supply, -, poolEq, -⟩ := conserves.pool_fall
    cases supply
    have poolEq : pool = 6553600 := UInt64.toNat_inj.mp (Int.ofNat_inj.mp poolEq.symm)
    have membersEq := conserves.members_eq
    rw [poolEq] at membersEq
    have power : sumPower.toNat = 5 := by
      rw [conserves.sumPower_eq, membersEq]
      decide +kernel
    have divisors : ∀ governing ∈ paidMembers (sampleReads 600 400) 720 1 6553600,
        governing.1.totalStake = 1000 ∧ governing.2.sumD = 400 := by
      decide +kernel
    obtain ⟨stake, delegated⟩ := divisors governing (membersEq ▸ found)
    exact ⟨U128.carryless_of_le (by omega) (by omega), fun _ =>
      ⟨U128.carryless_of_le (by simp [stake]) (by simp [stake]), fun _ _ _ =>
        U128.carryless_of_le (by simp [delegated]) (by simp [delegated])⟩⟩

/-- A bond and a delegation of `2 ^ 63 - 1` each: the member should have a base of 50 and a
commission of 5, and is credited less. -/
theorem settlementApply_wide_short :
    ((settlementApply (sampleReads storeMax storeMax) 720 1 sampleDb).toOption.map fun result =>
        result.2.accrual.accrued (replicate 64 7)) = some 10 ∧
      ((paidMembers (sampleReads storeMax storeMax) 720 1 6553600).map fun governing =>
        (boundaryParts floor (sampleReads storeMax storeMax) 720 100 5 governing).toOwner
          (replicate 64 7)).sum = 55 := by
  decide +kernel

end DnaLedger.Econ
