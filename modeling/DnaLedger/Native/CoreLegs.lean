import DnaLedger.Native.AuthSound
import DnaLedger.Native.CoreSpec

/-!
# CORE legs from the plan to the result

With a verdict of the authorizer, `nodus_rt_core_exec` never faults, and what it accepts is a
transfer that the leg asks for.
-/

namespace DnaLedger.Native

open DnaLedger.Envelope (EnvView LegHdr)
open DnaLedger.Effect Outcome Option

/-- A call with as many coins as the executors have room for. -/
structure SpendCall.Fits (c : SpendCall) : Prop where
  ins : c.ins.length ≤ spendMaxIn
  outs : c.outs.length ≤ spendMaxOut

section

variable {p : Bytes} {c : SpendCall} {maxIn maxOut minOut : Nat}

theorem fits_of_xferSectionParse {used : Nat}
    (maxIn_le : maxIn ≤ spendMaxIn) (maxOut_le : maxOut ≤ spendMaxOut)
    (parsed : xferSectionParse p maxIn maxOut minOut = some (c, used)) : c.Fits := by
  simp only [xferSectionParse, ite_none_left_eq_some] at parsed
  obtain ⟨-, countIn, -, countOut, -, parsed⟩ := parsed
  obtain ⟨ok, made⟩ := dite_none_right_eq_some.mp parsed
  cases made
  constructor
  · show (Layout.table _ _ _).length ≤ _
    rw [Layout.length_table]
    omega
  · show (Layout.table _ _ _).length ≤ _
    rw [Layout.length_table]
    omega

theorem fits_of_wholeSection (maxIn_le : maxIn ≤ spendMaxIn)
    (maxOut_le : maxOut ≤ spendMaxOut) (parsed : wholeSection p maxIn maxOut minOut = some c) :
    c.Fits := by
  obtain ⟨⟨other, used⟩, taken, whole⟩ := bind_eq_some_iff.mp parsed
  obtain ⟨-, eq⟩ := ite_none_left_eq_some.mp whole
  cases eq
  exact fits_of_xferSectionParse maxIn_le maxOut_le taken

theorem fits_of_spendParse (parsed : spendParse p = some c) : c.Fits :=
  fits_of_wholeSection le_rfl le_rfl parsed

theorem fits_of_burnParse {burn : UInt64} (parsed : burnParse p = some (c, burn)) :
    c.Fits ∧ 0 < burn := by
  obtain ⟨⟨other, used⟩, taken, parsed⟩ := bind_eq_some_iff.mp parsed
  simp only [ite_none_left_eq_some] at parsed
  obtain ⟨-, some_burn, eq⟩ := parsed
  cases eq
  refine ⟨fits_of_xferSectionParse le_rfl le_rfl taken, ?_⟩
  by_contra nothing
  exact some_burn (eq_zero_of_not_pos nothing)

theorem toSpendCall_of_nativeOnly {nc : NativeCall} (native : nativeOnly c = some nc) :
    nc.toSpendCall = c := by
  obtain ⟨_, eq⟩ := dite_none_right_eq_some.mp native
  cases eq
  rfl

theorem fits_of_sysfundParse {c : NativeCall} (parsed : sysfundParse p = some c) :
    c.toSpendCall.Fits := by
  obtain ⟨whole, taken, native⟩ := bind_eq_some_iff.mp parsed
  rw [toSpendCall_of_nativeOnly native]
  exact fits_of_wholeSection le_rfl le_rfl taken

theorem fits_of_tcParse {t : TcCall} (parsed : tcParse p = some t) : t.xfer.Fits := by
  rw [tcParse] at parsed
  obtain ⟨-, parsed⟩ := ite_none_left_eq_some.mp parsed
  obtain ⟨_, parsed⟩ := dite_none_left_eq_some.mp parsed
  obtain ⟨⟨name, rest⟩, -, parsed⟩ := bind_eq_some_iff.mp parsed
  obtain ⟨⟨sym, rest⟩, -, parsed⟩ := bind_eq_some_iff.mp parsed
  simp only [ite_none_left_eq_some] at parsed
  obtain ⟨-, -, parsed⟩ := parsed
  obtain ⟨c, taken, parsed⟩ := bind_eq_some_iff.mp parsed
  split at parsed
  next => cases parsed
  next =>
    obtain ⟨_, parsed⟩ := dite_none_left_eq_some.mp parsed
    obtain ⟨-, parsed⟩ := ite_none_left_eq_some.mp parsed
    obtain ⟨_, eq⟩ := dite_none_right_eq_some.mp parsed
    cases eq
    exact fits_of_wholeSection (by decide) le_rfl taken

theorem fits_of_nameParse {nc : NameCall} (parsed : nameParse p = some nc) :
    nc.xfer.toSpendCall.Fits := by
  simp only [nameParse, ite_none_left_eq_some] at parsed
  obtain ⟨-, -, -, parsed⟩ := parsed
  obtain ⟨_, parsed⟩ := dite_none_right_eq_some.mp parsed
  obtain ⟨c, taken, parsed⟩ := bind_eq_some_iff.mp parsed
  obtain ⟨xfer, native, eq⟩ := bind_eq_some_iff.mp parsed
  cases eq
  show xfer.toSpendCall.Fits
  rw [toSpendCall_of_nativeOnly native]
  exact fits_of_wholeSection (by decide) le_rfl taken

theorem fits_of_evmfundParse {f : EvmfundCall} (parsed : evmfundParse p = some f) :
    f.xfer.toSpendCall.Fits := by
  simp only [evmfundParse, ite_none_left_eq_some] at parsed
  obtain ⟨-, countIn, -, -, countOut, -, parsed⟩ := parsed
  obtain ⟨ok, parsed⟩ := dite_none_right_eq_some.mp parsed
  obtain ⟨role, -, parsed⟩ := bind_eq_some_iff.mp parsed
  obtain ⟨xfer, native, eq⟩ := bind_eq_some_iff.mp parsed
  cases eq
  show xfer.toSpendCall.Fits
  rw [toSpendCall_of_nativeOnly native]
  constructor
  · show (Layout.table _ _ _).length ≤ _
    rw [Layout.length_table]
    omega
  · show (Layout.table _ _ _).length ≤ _
    rw [Layout.length_table]
    omega

end

def verdictOwners (v : AuthVerdict) : Owners :=
  ⟨v.signerFp.map fpHex, v.msig.map fun m => ⟨fpHex m.addr, m.satisfied, false⟩⟩

section

variable {hash : Hash} {verify : Verify} {leg : LegView} {digest : Digest} {v : AuthVerdict}

theorem ensures_ownersInit :
    Ensures (Verdict hash verify leg digest v) (ownersInit leg.hdr.authKind v)
      fun own => own = verdictOwners v := by
  refine (ensures_faultWhen ?_).bind fun _ _ => ?_
  · intro wrong verdict
    have low := verdict.some_signer
    have high := verdict.few_signers
    omega
  refine (ensures_faultWhen ?_).bind fun _ _ => ?_
  · rintro ⟨isMsig, wrong⟩ verdict
    have counts := verdict.some_msig isMsig
    omega
  refine (ensures_faultWhen ?_).bind fun _ _ => ?_
  · rintro ⟨other, wrong⟩ verdict
    rw [verdict.no_msig other] at wrong
    exact wrong rfl
  exact ensures_pure rfl

theorem owned_of_grants (verdict : Verdict hash verify leg digest v) {owner : OwnerHex}
    (granted : (verdictOwners v).Grants owner) :
    Owned hash verify leg.auth digest owner := by
  rcases granted with signer | descriptor
  · obtain ⟨fp, mem, rfl⟩ := List.mem_map.mp signer
    obtain ⟨pk, good, rfl⟩ := verdict.signers fp mem
    exact Or.inl ⟨pk, good, rfl⟩
  · rw [verdictOwners, List.map_map] at descriptor
    obtain ⟨m, mem, eq⟩ := List.mem_map.mp descriptor
    obtain ⟨rfl, satisfied⟩ := Prod.mk.inj eq
    obtain ⟨bytes, desc, place, parsed, addr, met⟩ := verdict.msig m mem satisfied
    exact Or.inr ⟨bytes, desc, place, parsed, congrArg fpHex addr, met⟩

end

/-! ## What a leg asks for -/

/-- The transfer that a leg asks for, read off its call and the leg that it pays for. -/
def transferOf (generation : Nat) (env : EnvView) (legIndex : Nat) (leg : LegView)
    (ctx : ExecCtx) : Option Transfer :=
  let fee := env.feeAmount.toNat
  if leg.hdr.runtimeOp = Corerule.spend then do
    let c ← spendParse leg.call
    return ⟨c, none, ⟨fee, 0, 0, 0, 0⟩⟩
  else if leg.hdr.runtimeOp = Corerule.burn then do
    let (c, burn) ← burnParse leg.call
    return ⟨c, none, ⟨fee, 0, burn.toNat, 0, 0⟩⟩
  else if leg.hdr.runtimeOp = Corerule.tokenCreate then do
    let t ← tcParse leg.call
    return ⟨t.xfer, some (.token t), ⟨fee, 0, 0, 0, 0⟩⟩
  else if leg.hdr.runtimeOp = Corerule.sysfund then do
    let sys ← sysfundShape env legIndex generation
    let c ← sysfundParse leg.call
    let flow ← sysCallFlow sys.hdr.runtimeOp sys.call generation
    return ⟨c.toSpendCall, none, ⟨fee, 0, 0, flow.lock.toNat, flow.release.toNat⟩⟩
  else if leg.hdr.runtimeOp = Corerule.evmfund then do
    let evm ← evmfundShape env legIndex generation
    let f ← evmfundParse leg.call
    let head ← evmCallHead evm.hdr.runtimeOp evm.call
    let flow ← evmFlow f.role head
    return ⟨f.xfer.toSpendCall, none, ⟨fee, 0, 0, flow.lock.toNat, flow.release.toNat⟩⟩
  else if leg.hdr.runtimeOp = Corerule.nameRegister then do
    let owner ← nameOwner leg ctx
    let nc ← nameParse leg.call
    return ⟨nc.xfer.toSpendCall, some (.name nc.name owner), ⟨fee, nc.price.toNat, 0, 0, 0⟩⟩
  else none

section

variable {hash : Hash} {verify : Verify} {generation : Nat} {env : EnvView} {legIndex : Nat}
  {leg : LegView} {ctx : ExecCtx} {own : Owners} {reads : List ReadRes} {resCap maxReqs : Nat}
  {reqs : List ReadReq} {digest : Digest}

theorem of_planned {asked : List ReadReq} (plan : planned asked maxReqs = .ok reqs) :
    reqs = asked := by
  obtain ⟨-, -, eq⟩ := bind_eq_ok.mp plan
  exact (Except.ok.inj eq).symm

/-- The answers to the plan of a leg, and room for a result. -/
structure Planned (hash : Hash) (generation : Nat) (env : EnvView) (legIndex : Nat)
    (leg : LegView) (ctx : ExecCtx) (reads : List ReadRes) (resCap : Nat) : Prop where
  answers : ∃ reqs maxReqs, legReadPlan hash generation env legIndex leg ctx maxReqs = .ok reqs ∧
    List.Forall₂ Answers reqs reads
  room : maxTotalLen ≤ resCap

variable {c : SpendCall} {rest : List ReadReq}

theorem Planned.reliable (planned : Planned hash generation env legIndex leg ctx reads resCap)
    (known : ∀ reqs maxReqs,
      legReadPlan hash generation env legIndex leg ctx maxReqs = .ok reqs → reqs = planFor c rest) :
    Reliable c rest reads resCap := by
  obtain ⟨reqs, maxReqs, plan, all⟩ := planned.answers
  exact ⟨known reqs maxReqs plan ▸ all, planned.room⟩

/-- What an accepted leg does: the transfer that it asks for, on the coins that its plan
asks for. -/
def Transfers (hash : Hash) (generation : Nat) (env : EnvView) (legIndex : Nat) (leg : LegView)
    (ctx : ExecCtx) (own : Owners) (reads : List ReadRes) (bytes : Bytes) : Prop :=
  ∃ transfer, transferOf generation env legIndex leg ctx = some transfer ∧
    (∀ reqs maxReqs, legReadPlan hash generation env legIndex leg ctx maxReqs = .ok reqs →
      ∃ rest, reqs = planFor transfer.call rest) ∧
    ∃ w, Accepts hash ctx own reads transfer w bytes

/-- An executor that answers the plan of its leg does what the leg asks for. -/
theorem ensures_of_executor {entry : Option Entry} {moves : Moves} {outcome : Except Failure Bytes}
    (known : ∀ reqs maxReqs,
      legReadPlan hash generation env legIndex leg ctx maxReqs = .ok reqs → reqs = planFor c rest)
    (asks : transferOf generation env legIndex leg ctx = some ⟨c, entry, moves⟩)
    (ensures : Ensures (Reliable c rest reads resCap) outcome
      fun bytes => ∃ w, Accepts hash ctx own reads ⟨c, entry, moves⟩ w bytes) :
    Ensures (Planned hash generation env legIndex leg ctx reads resCap) outcome
      (Transfers hash generation env legIndex leg ctx own reads) :=
  (ensures.relying fun planned => planned.reliable known).mono
    fun _ passed => ⟨_, asks, fun reqs maxReqs plan => ⟨rest, known reqs maxReqs plan⟩, passed⟩

variable (hash generation env legIndex leg ctx own reads resCap) in
/-- With answers to its plan, a leg is refused or does what it asks for. -/
def Dispatched : Prop :=
    Ensures (Planned hash generation env legIndex leg ctx reads resCap)
      (coreDispatch hash generation env legIndex leg ctx own reads resCap)
      (Transfers hash generation env legIndex leg ctx own reads)

theorem ensures_spend (op : leg.hdr.runtimeOp = Corerule.spend) :
    Dispatched hash generation env legIndex leg ctx own reads resCap := by
  rw [Dispatched, coreDispatch, if_pos op]
  refine ensures_given fun c parsed => ?_
  have fits := fits_of_spendParse parsed
  refine ensures_of_executor ?_ ?_ (ensures_xferExec fits.ins fits.outs 0)
  · intro reqs maxReqs plan
    rw [legReadPlan, if_pos op, parsed] at plan
    rw [of_planned plan, xferReads_eq]
    rfl
  · unfold transferOf
    rw [if_pos op, parsed]
    rfl

theorem ensures_burn (op : leg.hdr.runtimeOp = Corerule.burn) :
    Dispatched hash generation env legIndex leg ctx own reads resCap := by
  have other : leg.hdr.runtimeOp ≠ Corerule.spend := op.trans_ne (by decide)
  rw [Dispatched, coreDispatch, if_neg other, if_pos op]
  refine ensures_given fun ⟨c, burn⟩ parsed => ?_
  obtain ⟨fits, pos⟩ := fits_of_burnParse parsed
  refine ensures_of_executor ?_ ?_ (ensures_xferExec fits.ins fits.outs burn)
  · intro reqs maxReqs plan
    rw [legReadPlan, if_neg other, if_pos op, parsed] at plan
    rw [of_planned plan, xferReads_eq, transferRest, if_pos pos]
    rfl
  · unfold transferOf
    rw [if_neg other, if_pos op, parsed]
    rfl

theorem ensures_tokenCreate (op : leg.hdr.runtimeOp = Corerule.tokenCreate) :
    Dispatched hash generation env legIndex leg ctx own reads resCap := by
  simp +decide only [Dispatched, coreDispatch, op, ↓reduceIte]
  refine ensures_given fun t parsed => ?_
  have fits := fits_of_tcParse parsed
  refine ensures_of_executor ?_ ?_ (ensures_tcExec fits.ins fits.outs)
  · intro reqs maxReqs plan
    simp +decide only [legReadPlan, op, parsed, ↓reduceIte] at plan
    rw [of_planned plan, xferReads_eq, planFor_append]
    rfl
  · unfold transferOf
    simp +decide only [op, parsed, ↓reduceIte]
    rfl

theorem ensures_sysfund (op : leg.hdr.runtimeOp = Corerule.sysfund) :
    Dispatched hash generation env legIndex leg ctx own reads resCap := by
  simp +decide only [Dispatched, coreDispatch, op, ↓reduceIte]
  refine ensures_given fun sys shaped => ?_
  refine ensures_given fun c parsed => ?_
  have fits := fits_of_sysfundParse parsed
  have known : ∀ reqs maxReqs,
      legReadPlan hash generation env legIndex leg ctx maxReqs = .ok reqs →
        ∃ gate, sysfundNameGate hash sys ctx generation = .ok gate ∧
          reqs = planFor c.toSpendCall (supplyReq SupplySel.pool :: gateReqs gate) := by
    intro reqs maxReqs plan
    simp +decide only [legReadPlan, op, shaped, parsed, ↓reduceIte] at plan
    change (sysfundNameGate hash sys ctx generation >>= _) = _ at plan
    obtain ⟨gate, gated, plan⟩ := bind_eq_ok.mp plan
    obtain ⟨-, -, plan⟩ := bind_eq_ok.mp plan
    refine ⟨gate, gated, ?_⟩
    rw [of_planned plan, xferReads_eq, planFor_append]
    rfl
  refine ((ensures_sysfundExec fits.ins fits.outs).relying ?_).mono ?_
  · intro planned
    obtain ⟨reqs, maxReqs, plan, all⟩ := planned.answers
    obtain ⟨gate, gated, rfl⟩ := known reqs maxReqs plan
    exact ⟨gate, gated, all, planned.room⟩
  · rintro bytes ⟨flow, moved, passed⟩
    refine ⟨_, ?_, fun reqs maxReqs plan => ?_, passed⟩
    · unfold transferOf
      simp +decide only [op, shaped, parsed, ↓reduceIte]
      show (sysCallFlow sys.hdr.runtimeOp sys.call generation >>= _) = _
      rw [moved]
      rfl
    · obtain ⟨gate, -, eq⟩ := known reqs maxReqs plan
      exact ⟨_, eq⟩

theorem ensures_evmfund (op : leg.hdr.runtimeOp = Corerule.evmfund) :
    Dispatched hash generation env legIndex leg ctx own reads resCap := by
  simp +decide only [Dispatched, coreDispatch, op, ↓reduceIte]
  refine ensures_given fun evm shaped => ?_
  refine ensures_given fun f parsed => ?_
  have fits := fits_of_evmfundParse parsed
  have known : ∀ reqs maxReqs,
      legReadPlan hash generation env legIndex leg ctx maxReqs = .ok reqs →
        reqs = planFor f.xfer.toSpendCall (supplyReq SupplySel.pool :: reserveReqs f.role) := by
    intro reqs maxReqs plan
    simp +decide only [legReadPlan, op, shaped, parsed, ↓reduceIte] at plan
    rw [of_planned plan, xferReads_eq, planFor_append]
    rfl
  refine ((ensures_evmfundExec fits.ins fits.outs).relying
    fun planned => planned.reliable known).mono ?_
  rintro bytes ⟨head, headed, flow, moved, passed⟩
  refine ⟨_, ?_, fun reqs maxReqs plan => ⟨_, known reqs maxReqs plan⟩, passed⟩
  unfold transferOf
  simp +decide only [op, shaped, parsed, ↓reduceIte]
  show (evmCallHead evm.hdr.runtimeOp evm.call >>= _) = _
  rw [headed]
  show (evmFlow f.role head >>= _) = _
  rw [moved]
  rfl

theorem ensures_coreDispatch :
    Dispatched hash generation env legIndex leg ctx own reads resCap := by
  by_cases spend : leg.hdr.runtimeOp = Corerule.spend
  · exact ensures_spend spend
  by_cases burn : leg.hdr.runtimeOp = Corerule.burn
  · exact ensures_burn burn
  by_cases token : leg.hdr.runtimeOp = Corerule.tokenCreate
  · exact ensures_tokenCreate token
  by_cases sysfund : leg.hdr.runtimeOp = Corerule.sysfund
  · exact ensures_sysfund sysfund
  by_cases evmfund : leg.hdr.runtimeOp = Corerule.evmfund
  · exact ensures_evmfund evmfund
  rw [Dispatched, coreDispatch, if_neg spend, if_neg burn, if_neg token, if_neg sysfund,
    if_neg evmfund]
  exact ensures_reject

theorem ensures_coreExec (verify : Verify) (digest : Digest)
    (found : legAt env legIndex = some leg) :
    Ensures (Planned hash generation env legIndex leg ctx reads resCap ∧
        Verdict hash verify leg digest ctx.auth)
      (coreExec hash generation env legIndex ctx reads resCap)
      (Transfers hash generation env legIndex leg ctx (verdictOwners ctx.auth) reads) := by
  rw [coreExec, found]
  refine Ensures.after_ok ?_
  split
  next op =>
    refine ensures_unless fun _ => ?_
    refine ensures_given fun owner owned => ?_
    refine ensures_given fun nc parsed => ?_
    refine (ensures_ownersInit.relying And.right).bind ?_
    rintro _ rfl
    have fits := fits_of_nameParse parsed
    refine (ensures_of_executor ?_ ?_ (ensures_nameExec fits.ins fits.outs)).relying And.left
    · intro reqs maxReqs plan
      simp +decide only [legReadPlan, op, ↓reduceIte] at plan
      obtain ⟨-, -, plan⟩ := bind_eq_ok.mp plan
      rw [parsed, owned] at plan
      rw [of_planned plan, xferReads_eq, planFor_append]
      rfl
    · unfold transferOf
      simp +decide only [op, parsed, owned, ↓reduceIte]
      rfl
  next =>
    refine (ensures_ownersInit.relying And.right).bind ?_
    rintro _ rfl
    exact ensures_coreDispatch.relying And.left

theorem transfers_of_coreExec (found : legAt env legIndex = some leg) {bytes : Bytes}
    (passed : coreExec hash generation env legIndex ctx reads resCap = .ok bytes) :
    Transfers hash generation env legIndex leg ctx (verdictOwners ctx.auth) reads bytes :=
  -- Which signatures verify does not matter for what is passed.
  (ensures_coreExec (fun _ _ _ => true) default found).good bytes passed

theorem verdict_of_authDsa87 {committee : Option Committee} {v : AuthVerdict}
    (found : legAt env legIndex = some leg)
    (authorized : authDsa87 hash verify env legIndex digest committee = .ok v) :
    Verdict hash verify leg digest v := by
  unfold authDsa87 at authorized
  rw [found] at authorized
  exact verdict_of_authLeg authorized

theorem exists_leg_of_plan
    (plan : coreReadPlan hash generation env legIndex ctx maxReqs = .ok reqs) :
    ∃ leg, legAt env legIndex = some leg ∧
      legReadPlan hash generation env legIndex leg ctx maxReqs = .ok reqs := by
  obtain ⟨leg, found, plan⟩ := bind_eq_ok.mp plan
  exact ⟨leg, orFail_eq_ok.mp found, plan⟩

/-- No input faults the executor: with a verdict of the authorizer and answers to the plan, the
leg is accepted or refused, and what is accepted passes the codec and the adapter. -/
theorem coreExec_never_faults {committee : Option Committee} {out : EffectView}
    (authorized : authDsa87 hash verify env legIndex digest committee = .ok ctx.auth)
    (plan : coreReadPlan hash generation env legIndex ctx rtMaxReads = .ok reqs)
    (answered : List.Forall₂ Answers reqs reads) :
    coreExec hash generation env legIndex ctx reads maxTotalLen ≠ .error .fault ∧
      ∀ bytes, coreExec hash generation env legIndex ctx reads maxTotalLen = .ok bytes →
        ∃ view, decode bytes out = (true, view) ∧ effectsValidate coreOps view = .ok () := by
  obtain ⟨leg, found, legPlan⟩ := exists_leg_of_plan plan
  have planned : Planned hash generation env legIndex leg ctx reads maxTotalLen :=
    ⟨⟨reqs, rtMaxReads, legPlan, answered⟩, le_rfl⟩
  have verdict := verdict_of_authDsa87 found authorized
  constructor
  · intro faulted
    exact (ensures_coreExec verify digest found).sound faulted ⟨planned, verdict⟩
  · intro bytes passed
    obtain ⟨transfer, -, -, w, accepts⟩ := transfers_of_coreExec found passed
    refine ⟨viewOf (w.effects hash ctx), ?_, w.validated hash ctx⟩
    rw [accepts.bytes_eq]
    exact (w.valid hash ctx).decode_bytes out

end

def oneKey : Pubkey := ⟨List.replicate pubkeySize 1, List.length_replicate⟩

def payment (amount : UInt64) : SpendOut where
  owner := fpHex (residueHash oneKey.val)
  amount := amount
  token := nativeToken
  seed := ⟨List.replicate 32 amount.toUInt8, List.length_replicate⟩

/-- An envelope with one leg that spends a coin. -/
def paymentOf (id : Digest) (amount : UInt64) : EnvView where
  envelopeVersion := 1
  expiryHeight := 100
  feeAmount := 1000000
  resMaxTotalUnits := 0
  legCount := 1
  leg := [⟨domainCore, Corerule.spend, 1, 0, authkindMulti, 298, 7220, 0, 0⟩]
  callOff := [0]
  authOff := [298]
  buf := some ([1] ++ id.val ++ [1] ++ spendOutLayout.write (payment amount) ++
    ([1] ++ oneKey.val ++ List.replicate sigSize 0))
  envLen := 7518

/-- The coin has an id of zeros. -/
def paymentEnv : EnvView := paymentOf nativeToken 4000000

def paymentCtx : ExecCtx where
  intentId := default
  globalHeight := 10
  auth := ⟨[residueHash oneKey.val], 0, 0, [], 0, 0⟩
  governed :=
    { tokenCreateFee := minTokenCreateFee
      namePrice := List.replicate 4 minNamePrice
      tokenCreateFee_ok := by decide
      length_namePrice := rfl
      namePrice_ok := fun price member => by
        rw [List.eq_of_mem_replicate member]
        decide }
  delegateNameRequired := false

def heldCoin : UtxoRec :=
  ⟨fpHex (residueHash oneKey.val), 5000000, nativeToken, default, 0, 1, 0⟩

def paymentReads : List ReadRes := [foundCoin heldCoin, ⟨true, Layout.be64.write 0⟩]

theorem payment_authorized :
    authDsa87 residueHash (fun _ _ _ => true) paymentEnv 0 default none = .ok paymentCtx.auth := by
  decide +kernel

theorem payment_planned :
    coreReadPlan residueHash 1 paymentEnv 0 paymentCtx rtMaxReads =
      .ok [utxoReq nativeToken, supplyReq SupplySel.pool] := by
  decide +kernel

def paymentStore : CoreStore where
  utxoSet := AList.singleton nativeToken ⟨domainCore, heldCoin⟩
  supplyTracking := some ⟨0, 0⟩
  evmReserve := some 0
  tokens := ∅
  names := ∅

theorem payment_answered :
    [utxoReq nativeToken, supplyReq SupplySel.pool].mapM
      (readOne (coreAdapter residueHash domainCore) paymentStore) = .ok paymentReads := by
  decide +kernel

theorem payment_never_faults :
    (coreExec residueHash 1 paymentEnv 0 paymentCtx paymentReads maxTotalLen).isOk = true ∧
      ∀ bytes, coreExec residueHash 1 paymentEnv 0 paymentCtx paymentReads maxTotalLen =
        .ok bytes → ∃ view, decode bytes .zero = (true, view) ∧
          effectsValidate coreOps view = .ok () :=
  ⟨by decide +kernel,
    (coreExec_never_faults payment_authorized payment_planned
      ((forall₂_of_mapM_eq_ok payment_answered).imp fun _ _ => answers_of_readOne rfl)).2⟩

end DnaLedger.Native
