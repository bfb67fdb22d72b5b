import DnaLedger.Arith.Checked
import DnaLedger.Effect.Wire
import DnaLedger.Envelope.Wire

/-!
# Resource meters

Model of `res_meter.c`. The counters of a meter for each leg are functions of its position. The
pointer of a meter to the one budget is a flag.
-/

namespace DnaLedger.Metering

open Envelope Effect

/-- The refusals of `dna_meter_status_t`. -/
inductive Err where
  | errArg
  | errPolicy
  | errOpWeight
  | errDecl
  | errOverflow
  | errCeiling
  | errGlobalBudget
  | errDomainBudget
  | errDomain
  | errLimit
  | errState
  | errFault
  deriving DecidableEq

abbrev Status := Except Err Unit

def orFail {α : Type} (err : Err) : Option α → Except Err α
  | some value => .ok value
  | none => .error err

def refuseWhen (refused : Prop) [Decidable refused] (err : Err) : Except Err Unit :=
  if refused then .error err else .ok ()

structure Policy where
  policyVersion : UInt32
  wBase : UInt64
  wCallbyte : UInt64
  wAuthbyte : UInt64
  wEffect : UInt64
  wEffectbyte : UInt64
  wRead : UInt64
  wWrite : UInt64
  maxBlockEnvBytes : UInt64
  wOp : Vector UInt64 256
  opPresent : Vector UInt64 4
  sealDigest : Digest

def policyVersion : UInt32 := 2

/-- What `policy_hash_tagged` hashes. -/
def policyPreimage (mark : Tag) (policy : Policy) : Bytes :=
  mark.val ++ Layout.be32.write policy.policyVersion ++
    [policy.wBase, policy.wCallbyte, policy.wAuthbyte, policy.wEffect, policy.wEffectbyte,
      policy.wRead, policy.wWrite, policy.maxBlockEnvBytes].flatMap Layout.be64.write ++
    policy.wOp.toList.flatMap Layout.be64.write ++
    policy.opPresent.toList.flatMap Layout.be64.write

def policyShapeOk (policy : Policy) : Bool :=
  if policy.policyVersion ≠ policyVersion then false
  else if policy.maxBlockEnvBytes = 0 then false
  else true

def policyCheck (sha3 : Hash) (policy : Policy) : Bool :=
  policyShapeOk policy && sha3 (policyPreimage (tag "NDS.METPOL.v1") policy) == policy.sealDigest

def opWeight (policy : Policy) (runtimeOp : UInt32) : Option UInt64 :=
  if inside : runtimeOp.toNat < 256 then
    if (policy.opPresent[runtimeOp.toNat / 64] >>> UInt64.ofNat (runtimeOp.toNat % 64)) &&& 1 = 0
    then none
    else some policy.wOp[runtimeOp.toNat]
  else none

structure DomainBudget where
  domainId : UInt32
  unbounded : UInt8
  remainingUnits : UInt64

structure Budget where
  globalRemaining : UInt64
  globalUnbounded : UInt8
  dom : List DomainBudget

def maxDomains : Nat := maxLegs

section

variable (budget : Budget)

def budgetCheck : Bool :=
  if maxDomains < budget.dom.length then false
  else if 1 < budget.globalUnbounded then false
  else if budget.dom.any (fun slot => 1 < slot.unbounded) then false
  else Sorting.ascending (fun first second => first.domainId < second.domainId) budget.dom

def budgetDomIndex (domainId : UInt32) : Option Nat :=
  budget.dom.findIdx? fun slot => slot.domainId == domainId

def Budget.domAt (di : Nat) : DomainBudget :=
  budget.dom.getD di ⟨0, 0, 0⟩

/-- The new value of a slot.  A slot that is flagged unbounded is not computed. -/
def unlessUnbounded (unbounded : UInt8) (err : Err) (value : Option UInt64) : Except Err UInt64 :=
  if unbounded = 0 then orFail err value else .ok 0

/-- A write of a commit.  A slot that is flagged unbounded is not written. -/
def DomainBudget.write (units : UInt64) (slot : DomainBudget) : DomainBudget :=
  if slot.unbounded = 0 then { slot with remainingUnits := units } else slot

/-- The writes of a commit, each at its index. -/
def writeSlots (dom : List DomainBudget) (writes : List (Nat × UInt64)) : List DomainBudget :=
  writes.foldl (fun dom (di, units) => dom.modify di (DomainBudget.write units)) dom

def Budget.writeAll (writes : List (Nat × UInt64)) : Budget :=
  { budget with dom := writeSlots budget.dom writes }

def Budget.writeGlobal (units : UInt64) : Budget :=
  if budget.globalUnbounded = 0 then { budget with globalRemaining := units } else budget

end

structure LegPlan where
  domainId : UInt32
  runtimeOp : UInt32
  staticUnits : UInt64
  fixedUnits : UInt64
  resMaxEffects : UInt32
  resMaxEffectBytes : UInt32

structure Plan where
  totalCeiling : UInt64
  staticTotal : UInt64
  baseUnits : UInt64
  wEffect : UInt64
  wEffectbyte : UInt64
  wRead : UInt64
  wWrite : UInt64
  streamLeg : UInt16
  leg : List LegPlan

def Plan.zero : Plan :=
  ⟨0, 0, 0, 0, 0, 0, 0, 0, []⟩

def Plan.legAt (plan : Plan) (li : Nat) : LegPlan :=
  plan.leg.getD li ⟨0, 0, 0, 0, 0, 0⟩

def streamMaxEffects : Nat := 16384

def streamMaxEffectBytes : Nat := 4 * 1024 * 1024

/-- The declared effects of a leg fit the caps of the codec, or of a stream. -/
def declarationOk (streamed : Bool) (hdr : LegHdr) : Bool :=
  if streamed then
    hdr.resMaxEffects.toNat ≤ streamMaxEffects && hdr.resMaxEffectBytes.toNat ≤ streamMaxEffectBytes
  else hdr.resMaxEffects.toNat ≤ maxCount && hdr.resMaxEffectBytes.toNat ≤ Effect.maxTotalLen

/-- The plan of one leg in `dna_meter_plan_build_ex`. -/
def planLeg (policy : Policy) (streamed : Bool) (hdr : LegHdr) : Except Err LegPlan := do
  refuseWhen (!declarationOk streamed hdr) .errDecl
  let wOp ← orFail .errOpWeight (opWeight policy hdr.runtimeOp)
  let tCall ← orFail .errOverflow (ckMul policy.wCallbyte hdr.callLen.toUInt64)
  let tAuth ← orFail .errOverflow (ckMul policy.wAuthbyte hdr.authLen.toUInt64)
  let tEff ← orFail .errOverflow (ckMul policy.wEffect hdr.resMaxEffects.toUInt64)
  let tEffb ← orFail .errOverflow (ckMul policy.wEffectbyte hdr.resMaxEffectBytes.toUInt64)
  let s ← orFail .errOverflow (ckAdd wOp tCall)
  let s ← orFail .errOverflow (ckAdd s tAuth)
  let s ← orFail .errOverflow (ckAdd s tEff)
  let s ← orFail .errOverflow (ckAdd s tEffb)
  let f ← orFail .errOverflow (ckAdd wOp tCall)
  let f ← orFail .errOverflow (ckAdd f tAuth)
  return ⟨hdr.domainId, hdr.runtimeOp, s, f, hdr.resMaxEffects, hdr.resMaxEffectBytes⟩

/-- The loop of `dna_meter_plan_build_ex`, with the last domain and the static units so far. -/
def planLegs (policy : Policy) (streamLeg : UInt16) :
    Nat → Option UInt32 → UInt64 → List LegHdr → Except Err (List LegPlan × UInt64)
  | _, _, total, [] => .ok ([], total)
  | i, previous, total, hdr :: rest => do
      refuseWhen (previous.any fun before => hdr.domainId ≤ before) .errArg
      let leg ← planLeg policy (streamLeg != 0 && i == streamLeg.toNat - 1) hdr
      let total ← orFail .errOverflow (ckAdd total leg.staticUnits)
      let (legs, total) ← planLegs policy streamLeg (i + 1) (some hdr.domainId) total rest
      return (leg :: legs, total)

/-- `dna_meter_plan_build_ex` -/
def planBuild (sha3 : Hash) (policy : Policy) (view : EnvView) (streamLeg : UInt16) :
    Except Err Plan := do
  refuseWhen (view.buf.isNone ∨ view.legCount = 0 ∨ maxLegs < view.legCount.toNat) .errArg
  refuseWhen (view.legCount < streamLeg) .errArg
  refuseWhen (!policyCheck sha3 policy) .errPolicy
  let (legs, total) ←
    planLegs policy streamLeg 0 none policy.wBase (view.leg.take view.legCount.toNat)
  refuseWhen (view.resMaxTotalUnits < total) .errCeiling
  return ⟨view.resMaxTotalUnits, total, policy.wBase, policy.wEffect, policy.wEffectbyte,
    policy.wRead, policy.wWrite, streamLeg, legs⟩

/-! ## Meter -/

inductive State where
  | zero
  | reserved
  | active
  | finalized
  | aborted
  deriving DecidableEq

structure Meter where
  state : State
  plan : Plan
  budget : Bool
  gReserved : UInt64
  gConsumed : UInt64
  gReleased : UInt64
  domDyn : Nat → UInt64
  domConsumed : Nat → UInt64
  domReleased : Nat → UInt64
  effectsCharged : Nat → Bool

def Meter.zero : Meter :=
  ⟨.zero, Plan.zero, false, 0, 0, 0, fun _ => 0, fun _ => 0, fun _ => 0, fun _ => false⟩

/-- What a call works on: a meter and the budget it is bound to. -/
structure Books where
  meter : Meter
  budget : Budget

/-- The temporaries of `dna_meter_reserve_ex`. -/
def reserveChecks (sha3 : Hash) (policy : Policy) (view : EnvView) (streamLeg : UInt16)
    (budget : Budget) : Except Err (Plan × UInt64 × List (Nat × UInt64)) := do
  let plan ← planBuild sha3 policy view streamLeg
  refuseWhen (!budgetCheck budget) .errDomain
  let newGlobal ← unlessUnbounded budget.globalUnbounded .errGlobalBudget
    (ckSub budget.globalRemaining plan.totalCeiling)
  let writes ← plan.leg.mapM fun leg => do
    let di ← orFail .errDomain (budgetDomIndex budget leg.domainId)
    let slot := budget.domAt di
    let domNew ← unlessUnbounded slot.unbounded .errDomainBudget
      (ckSub slot.remainingUnits leg.staticUnits)
    return (di, domNew)
  return (plan, newGlobal, writes)

/-- `dna_meter_reserve_ex` -/
def reserve (sha3 : Hash) (policy : Policy) (view : EnvView) (streamLeg : UInt16)
    (books : Books) : Status × Books :=
  if books.meter.state ≠ .zero then (.error .errState, books)
  else
    match reserveChecks sha3 policy view streamLeg books.budget with
    -- Every refusal from here on zeroes the meter.
    | .error err => (.error err, { books with meter := Meter.zero })
    | .ok (plan, newGlobal, writes) =>
      (.ok (), {
        meter := { Meter.zero with
          state := .reserved, plan := plan, budget := true, gReserved := plan.totalCeiling }
        budget := (books.budget.writeGlobal newGlobal).writeAll writes })

def planLegIndex (plan : Plan) (domainId : UInt32) : Option Nat :=
  plan.leg.findIdx? fun leg => leg.domainId == domainId

section

variable (books : Books)

/-- The temporaries of `meter_charge_commit`: the new consumption and, when the static units and
the earlier claims do not suffice, the slot to claim from, its value and the claim. -/
def chargeChecks (li : Nat) (amount : UInt64) :
    Except Err (UInt64 × UInt64 × Option (Nat × UInt64 × UInt64)) := do
  let meter := books.meter
  let newGc ← orFail .errOverflow (ckAdd meter.gConsumed amount)
  refuseWhen (meter.gReserved < newGc) .errCeiling
  let held ← orFail .errFault (ckAdd (meter.plan.legAt li).staticUnits (meter.domDyn li))
  let avail ← orFail .errFault (ckSub held (meter.domConsumed li))
  let newDc ← orFail .errOverflow (ckAdd (meter.domConsumed li) amount)
  if avail < amount then
    let need := amount - avail
    let di ← orFail .errFault (budgetDomIndex books.budget (meter.plan.legAt li).domainId)
    let slot := books.budget.domAt di
    let newBud ← unlessUnbounded slot.unbounded .errDomainBudget
      (ckSub slot.remainingUnits need)
    let newDyn ← orFail .errOverflow (ckAdd (meter.domDyn li) need)
    return (newGc, newDc, some (di, newBud, newDyn))
  else return (newGc, newDc, none)

/-- The commit of `meter_charge_commit`. -/
def chargeWrite (li : Nat) (newGc newDc : UInt64) :
    Option (Nat × UInt64 × UInt64) → Books
  | none =>
    { books with meter := { books.meter with
        gConsumed := newGc
        domConsumed := Function.update books.meter.domConsumed li newDc } }
  | some (di, newBud, newDyn) =>
    { meter := { books.meter with
        gConsumed := newGc
        domConsumed := Function.update books.meter.domConsumed li newDc
        domDyn := Function.update books.meter.domDyn li newDyn }
      budget := books.budget.writeAll [(di, newBud)] }

def meterChargeCommit (li : Nat) (amount : UInt64) (commit : Bool) : Status × Books :=
  match chargeChecks books li amount with
  | .error err => (.error err, books)
  | .ok (newGc, newDc, claim) =>
    if !commit then (.ok (), books) else (.ok (), chargeWrite books li newGc newDc claim)

def meterCharge (li : Nat) (amount : UInt64) : Status × Books :=
  meterChargeCommit books li amount true

/-- The entries of an array that a loop has written, in front of the old ones. -/
def overwrite {α : Type} (old : Nat → α) (new : List α) : Nat → α :=
  fun i => new.getD i (old i)

/-- The loop of `dna_meter_activate` over the legs. -/
def fixedCharges (consumed : Nat → UInt64) :
    Nat → UInt64 → List LegPlan → Except Err (UInt64 × List UInt64)
  | _, gc, [] => .ok (gc, [])
  | i, gc, leg :: rest => do
      let gc ← orFail .errFault (ckAdd gc leg.fixedUnits)
      let domNew ← orFail .errFault (ckAdd (consumed i) leg.fixedUnits)
      refuseWhen (leg.staticUnits < domNew) .errFault
      let (gc, domNews) ← fixedCharges consumed (i + 1) gc rest
      return (gc, domNew :: domNews)

/-- The temporaries of `dna_meter_activate`. -/
def activateChecks (meter : Meter) : Except Err (UInt64 × List UInt64) := do
  refuseWhen (meter.state ≠ .reserved) .errState
  refuseWhen (!meter.budget) .errFault
  let newGc ← orFail .errFault (ckAdd meter.gConsumed meter.plan.baseUnits)
  let (newGc, domNew) ← fixedCharges meter.domConsumed 0 newGc meter.plan.leg
  refuseWhen (meter.gReserved < newGc) .errFault
  return (newGc, domNew)

def activate : Status × Books :=
  match activateChecks books.meter with
  | .error err => (.error err, books)
  | .ok (newGc, domNew) =>
    (.ok (), { books with meter := { books.meter with
      gConsumed := newGc
      domConsumed := overwrite books.meter.domConsumed domNew
      state := .active } })

/-- What every charge asks of a meter first. -/
def requireActive (meter : Meter) : Except Err Unit := do
  refuseWhen (meter.state ≠ .active) .errState
  refuseWhen (!meter.budget) .errFault

/-- The length that the canonical encoding of a result has. -/
def canonicalLen (view : EffectView) : Nat :=
  Effect.fixedHead + view.effectCount.toNat * recordLen +
    ((view.eff.take view.effectCount.toNat).map fun hdr =>
      hdr.keyLen.toNat + hdr.valueLen.toNat).sum

/-- A decoded view that was not rejected, with its exact canonical length. -/
def effectViewOk (view : EffectView) : Bool :=
  view.buf.isSome && view.resultVersion == resultVersion &&
    view.effectCount.toNat ≤ maxCount && view.resLen ≤ Effect.maxTotalLen &&
    view.resLen == canonicalLen view

/-- The checks of `dna_meter_charge_effects` in front of the charge: the leg and the amount. -/
def effectsAmount (meter : Meter) (domainId : UInt32) (view : EffectView) :
    Except Err (Nat × UInt64) := do
  requireActive meter
  refuseWhen (!effectViewOk view) .errArg
  let li ← orFail .errDomain (planLegIndex meter.plan domainId)
  refuseWhen (meter.effectsCharged li) .errState
  let leg := meter.plan.legAt li
  refuseWhen (leg.resMaxEffects.toNat < view.effectCount.toNat ∨
    leg.resMaxEffectBytes.toNat < view.resLen) .errLimit
  let tCnt ← orFail .errOverflow (ckMul meter.plan.wEffect view.effectCount.toUInt64)
  let tLen ← orFail .errOverflow (ckMul meter.plan.wEffectbyte (UInt64.ofNat view.resLen))
  let amount ← orFail .errOverflow (ckAdd tCnt tLen)
  return (li, amount)

/-- A leg is charged for its effects once. -/
def markCharged (li : Nat) : Books :=
  { books with meter := { books.meter with
      effectsCharged := Function.update books.meter.effectsCharged li true } }

/-- The charge and the mark at the end of `dna_meter_charge_effects`. -/
def chargeAndMark (li : Nat) (amount : UInt64) : Status × Books :=
  match meterCharge books li amount with
  | (.ok (), charged) => (.ok (), markCharged charged li)
  | (status, left) => (status, left)

end

def chargeEffects (domainId : UInt32) (view : EffectView) (books : Books) : Status × Books :=
  match effectsAmount books.meter domainId view with
  | .error err => (.error err, books)
  | .ok (li, amount) => chargeAndMark books li amount

def chargedLeg (meter : Meter) (domainId : UInt32) : Except Err Nat := do
  requireActive meter
  orFail .errDomain (planLegIndex meter.plan domainId)

section

variable (domainId : UInt32)

def chargeRw (w : UInt64) (books : Books) : Status × Books :=
  match chargedLeg books.meter domainId with
  | .error err => (.error err, books)
  | .ok li => meterCharge books li w

def chargeRead (books : Books) : Status × Books :=
  chargeRw domainId books.meter.plan.wRead books

/-- `dna_meter_charge_write` -/
def chargeWriteUnits (books : Books) : Status × Books :=
  chargeRw domainId books.meter.plan.wWrite books

def evmWGas : UInt64 := 1

def chargeEvmGas (gas : UInt64) (books : Books) : Status × Books :=
  match chargedLeg books.meter domainId with
  | .error err => (.error err, books)
  | .ok li =>
    match ckMul gas evmWGas with
    | none => (.error .errOverflow, books)
    | some amount => meterCharge books li amount

end

structure Stream where
  isOpen : Bool
  leg : UInt16
  expectCount : UInt64
  expectBytes : UInt64
  seenCount : UInt64
  seenBody : UInt64

/-- The checks of `dna_meter_charge_effects_begin` before the charge: the leg and the amounts. -/
def beginAmounts (meter : Meter) (domainId : UInt32) (count bytes extraUnits : UInt64)
    (stream : Stream) : Except Err (Nat × UInt64 × UInt64) := do
  requireActive meter
  refuseWhen stream.isOpen .errState
  let li ← orFail .errDomain (planLegIndex meter.plan domainId)
  refuseWhen (meter.plan.streamLeg = 0 ∨ li ≠ meter.plan.streamLeg.toNat - 1) .errArg
  refuseWhen (meter.effectsCharged li) .errState
  let records ← orFail .errArg (ckMul count (UInt64.ofNat recordLen))
  let floorLen ← orFail .errArg (ckAdd records (UInt64.ofNat Effect.fixedHead))
  refuseWhen (bytes < floorLen) .errArg
  let leg := meter.plan.legAt li
  refuseWhen (leg.resMaxEffects.toNat < count.toNat ∨
    leg.resMaxEffectBytes.toNat < bytes.toNat ∨ streamMaxEffects < count.toNat ∨
    streamMaxEffectBytes < bytes.toNat) .errLimit
  let tCnt ← orFail .errOverflow (ckMul meter.plan.wEffect count)
  let tLen ← orFail .errOverflow (ckMul meter.plan.wEffectbyte bytes)
  let amount ← orFail .errOverflow (ckAdd tCnt tLen)
  let withExtra ← orFail .errOverflow (ckAdd amount extraUnits)
  return (li, amount, withExtra)

def chargeEffectsBegin (domainId : UInt32) (count bytes extraUnits : UInt64) (books : Books)
    (stream : Stream) : Status × Books × Stream :=
  match beginAmounts books.meter domainId count bytes extraUnits stream with
  | .error err => (.error err, books, stream)
  | .ok (li, amount, withExtra) =>
    match meterChargeCommit books li withExtra false with
    | (.ok (), fitted) =>
      match chargeAndMark fitted li amount with
      | (.ok (), charged) => (.ok (), charged, ⟨true, UInt16.ofNat li, count, bytes, 0, 0⟩)
      | (status, left) => (status, left, stream)
    | (status, left) => (status, left, stream)

/-- The temporaries of `dna_meter_charge_effects_page`. -/
def pageChecks (meter : Meter) (view : EffectView) (stream : Stream) :
    Except Err (UInt64 × UInt64) := do
  refuseWhen (meter.state ≠ .active) .errState
  refuseWhen (!stream.isOpen) .errState
  refuseWhen (meter.plan.leg.length ≤ stream.leg.toNat ∨
    !meter.effectsCharged stream.leg.toNat) .errFault
  refuseWhen (!effectViewOk view ∨ view.resLen < Effect.fixedHead) .errArg
  let newCnt ← orFail .errFault (ckAdd stream.seenCount view.effectCount.toUInt64)
  let newBody ← orFail .errFault
    (ckAdd stream.seenBody (UInt64.ofNat view.resLen - UInt64.ofNat Effect.fixedHead))
  refuseWhen (stream.expectCount < newCnt ∨
    stream.expectBytes - UInt64.ofNat Effect.fixedHead < newBody) .errFault
  return (newCnt, newBody)

def chargeEffectsPage (view : EffectView) (meter : Meter) (stream : Stream) : Status × Stream :=
  match pageChecks meter view stream with
  | .error err => (.error err, stream)
  | .ok (newCnt, newBody) => (.ok (), { stream with seenCount := newCnt, seenBody := newBody })

def chargeEffectsFinish (meter : Meter) (stream : Stream) : Status × Stream :=
  if meter.state ≠ .active then (.error .errState, stream)
  else if !stream.isOpen then (.error .errState, stream)
  else if stream.seenCount ≠ stream.expectCount ∨
      stream.seenBody + UInt64.ofNat Effect.fixedHead ≠ stream.expectBytes then
    (.error .errFault, stream)
  else (.ok (), { stream with isOpen := false })

section

variable (books : Books)

/-- The temporaries of `dna_meter_finalize` for a leg: the slot, its value and what is released. -/
def finalizeLeg (leg : LegPlan) (i : Nat) :
    Except Err ((Nat × UInt64) × UInt64) := do
  let di ← orFail .errFault (budgetDomIndex books.budget leg.domainId)
  let taken ← orFail .errFault (ckAdd leg.staticUnits (books.meter.domDyn i))
  let domRel ← orFail .errFault (ckSub taken (books.meter.domConsumed i))
  let slot := books.budget.domAt di
  let domNew ← unlessUnbounded slot.unbounded .errFault (ckAdd slot.remainingUnits domRel)
  return ((di, domNew), domRel)

/-- The temporaries of `dna_meter_finalize`. -/
def finalizeChecks :
    Except Err (UInt64 × UInt64 × List ((Nat × UInt64) × UInt64)) := do
  requireActive books.meter
  let gRel ← orFail .errFault (ckSub books.meter.gReserved books.meter.gConsumed)
  let newGlobal ← unlessUnbounded books.budget.globalUnbounded .errFault
    (ckAdd books.budget.globalRemaining gRel)
  let rows ← books.meter.plan.leg.zipIdx.mapM fun (leg, i) => finalizeLeg books leg i
  return (gRel, newGlobal, rows)

def finalize : Status × Books :=
  match finalizeChecks books with
  | .error err => (.error err, books)
  | .ok (gRel, newGlobal, rows) =>
    (.ok (), {
      meter := { books.meter with
        gReleased := gRel
        domReleased := overwrite books.meter.domReleased (rows.map Prod.snd)
        state := .finalized }
      budget := (books.budget.writeGlobal newGlobal).writeAll (rows.map Prod.fst) })

/-- The temporaries of `dna_meter_abort` for one leg: the slot and its new value. -/
def abortLeg (leg : LegPlan) (i : Nat) : Except Err (Nat × UInt64) := do
  let di ← orFail .errFault (budgetDomIndex books.budget leg.domainId)
  let taken ← orFail .errFault (ckAdd leg.staticUnits (books.meter.domDyn i))
  let slot := books.budget.domAt di
  let domNew ← unlessUnbounded slot.unbounded .errFault (ckAdd slot.remainingUnits taken)
  return (di, domNew)

/-- The temporaries of `dna_meter_abort`. -/
def abortChecks : Except Err (UInt64 × List (Nat × UInt64)) := do
  refuseWhen (books.meter.state ≠ .reserved ∧ books.meter.state ≠ .active) .errState
  refuseWhen (!books.meter.budget) .errFault
  let newGlobal ← unlessUnbounded books.budget.globalUnbounded .errFault
    (ckAdd books.budget.globalRemaining books.meter.gReserved)
  let writes ← books.meter.plan.leg.zipIdx.mapM fun (leg, i) => abortLeg books leg i
  return (newGlobal, writes)

def abort : Status × Books :=
  match abortChecks books with
  | .error err => (.error err, books)
  | .ok (newGlobal, writes) =>
    (.ok (), {
      meter := { books.meter with state := .aborted }
      budget := (books.budget.writeGlobal newGlobal).writeAll writes })

end

/-- The meters that share the budget of a block, and the streams of their callers. -/
structure Block (ι κ : Type) where
  budget : Budget
  meters : ι → Meter
  streams : κ → Stream

inductive Call (ι κ : Type) where
  | reserve (meter : ι) (policy : Policy) (view : EnvView) (streamLeg : UInt16)
  | activate (meter : ι)
  | chargeEffects (meter : ι) (domainId : UInt32) (view : EffectView)
  | chargeRead (meter : ι) (domainId : UInt32)
  | chargeWrite (meter : ι) (domainId : UInt32)
  | chargeEffectsBegin (meter : ι) (stream : κ) (domainId : UInt32)
      (count bytes extraUnits : UInt64)
  | chargeEffectsPage (meter : ι) (stream : κ) (view : EffectView)
  | chargeEffectsFinish (meter : ι) (stream : κ)
  | chargeEvmGas (meter : ι) (domainId : UInt32) (gas : UInt64)
  | finalize (meter : ι)
  | abort (meter : ι)

namespace Block

variable {ι κ : Type} [DecidableEq ι] [DecidableEq κ]

section

variable (block : Block ι κ)

def books (meter : ι) : Books :=
  ⟨block.meters meter, block.budget⟩

def onBooks (meter : ι) (call : Books → Status × Books) : Status × Block ι κ :=
  let (status, books) := call (block.books meter)
  (status, { block with
    budget := books.budget
    meters := Function.update block.meters meter books.meter })

/-- A call that only reads the meter and works on a stream. -/
def onStream (stream : κ) (call : Stream → Status × Stream) : Status × Block ι κ :=
  let (status, next) := call (block.streams stream)
  (status, { block with streams := Function.update block.streams stream next })

end

def step (sha3 : Hash) (block : Block ι κ) : Call ι κ → Status × Block ι κ
  | .reserve meter policy view streamLeg =>
    block.onBooks meter (reserve sha3 policy view streamLeg)
  | .activate meter => block.onBooks meter activate
  | .chargeEffects meter domainId view => block.onBooks meter (chargeEffects domainId view)
  | .chargeRead meter domainId => block.onBooks meter (chargeRead domainId)
  | .chargeWrite meter domainId => block.onBooks meter (chargeWriteUnits domainId)
  | .chargeEffectsBegin meter stream domainId count bytes extraUnits =>
    let (status, books, next) := chargeEffectsBegin domainId count bytes extraUnits
      (block.books meter) (block.streams stream)
    (status, {
      budget := books.budget
      meters := Function.update block.meters meter books.meter
      streams := Function.update block.streams stream next })
  | .chargeEffectsPage meter stream view =>
    block.onStream stream (chargeEffectsPage view (block.meters meter))
  | .chargeEffectsFinish meter stream =>
    block.onStream stream (chargeEffectsFinish (block.meters meter))
  | .chargeEvmGas meter domainId gas => block.onBooks meter (chargeEvmGas domainId gas)
  | .finalize meter => block.onBooks meter finalize
  | .abort meter => block.onBooks meter abort

def run (sha3 : Hash) (block : Block ι κ) (calls : List (Call ι κ)) : Block ι κ :=
  calls.foldl (fun block call => (block.step sha3 call).2) block

def start (budget : Budget) (streams : κ → Stream) : Block ι κ :=
  ⟨budget, fun _ => Meter.zero, streams⟩

end Block

end DnaLedger.Metering
