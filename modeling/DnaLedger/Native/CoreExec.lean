import DnaLedger.Native.Coins

/-!
# Execution of CORE legs

Model of the read plan and of the executors of the CORE domain in `nodus_witness_rt_native.c`. The
number of the generation is 0 where no runtime is given.
-/

namespace DnaLedger.Native

open DnaLedger.Envelope DnaLedger.Effect

def sysIsStakeOp (op : UInt32) : Bool :=
  op = Sysrule.stake ∨ op = Sysrule.delegate ∨ op = Sysrule.unstake ∨ op = Sysrule.undelegate ∨
    op = Sysrule.validatorUpdate

def sysIsStorageOp (op : UInt32) : Bool :=
  op = Sysrule.storageRegister ∨ op = Sysrule.storageExit

/-- The SYSTEM leg that the SYSFUND leg pays for. -/
def sysfundShape (env : EnvView) (legIndex generation : Nat) : Option LegView :=
  if env.legCount ≠ 2 ∨ legIndex ≠ 1 then none
  else do
    let sys ← legAt env 0
    if sys.hdr.domainId ≠ domainSystem then none
    else if sysIsStakeOp sys.hdr.runtimeOp then some sys
    else if genStorage ≤ generation ∧ sysIsStorageOp sys.hdr.runtimeOp then some sys
    else none

/-- Under auth kind 3 every descriptor is the owner's. -/
def sysfundPayerBound (sys core : LegView) (ctx : ExecCtx) : Bool :=
  if core.hdr.authKind ≠ authkindMsig then true
  else if ctx.auth.msig.length < 1 ∨ msigMaxDesc < ctx.auth.msig.length then false
  else
    match sysCallOwnerV2 sys.hdr.runtimeOp sys.call with
    | none => false
    | some owner => ctx.auth.msig.all fun m => m.addr == owner

/-- The fingerprint that has to own a name, if there is one. -/
def sysfundNameGate (hash : Hash) (sys : LegView) (ctx : ExecCtx) (generation : Nat) :
    Except Failure (Option Digest) :=
  if !ctx.delegateNameRequired then .ok none
  else if sys.hdr.runtimeOp ≠ Sysrule.delegate then .ok none
  else if genRoles generation then do
    let _ ← orFail .reject (delegParseV2 sys.call)
    return none
  else do
    let d ← orFail .reject (delegParse sys.call)
    -- A validator may delegate to itself without a name.
    if d.delegatorPubkey = d.validatorPubkey then return none
    else return some (hash d.delegatorPubkey.val)

/-- The EVM leg that the EVMFUND leg pays for. -/
def evmfundShape (env : EnvView) (legIndex generation : Nat) : Option LegView :=
  if generation < genEvm then none
  else if legIndex ≠ 0 then none
  else if !evmPairCheck env then none
  else legAt env 1

/-- Who registers a name. -/
def nameOwner (leg : LegView) (ctx : ExecCtx) : Option Digest :=
  if leg.hdr.authKind = authkindMulti then
    if ctx.auth.signerFp.length ≠ 1 ∨ ctx.auth.msig.length ≠ 0 then none
    else ctx.auth.signerFp.head?
  else if leg.hdr.authKind = authkindMsig then
    if !ctx.delegateNameRequired then none
    else if ctx.auth.signerFp.length < 1 ∨ ctx.auth.msig.length ≠ 1 then none
    else do
      let m ← ctx.auth.msig.head?
      if !m.satisfied || !m.signersInDesc then none else some m.addr
  else none

def rtMaxReads : Nat := 16

def sysfundDlgMaxIn : Nat := 14

def xferReads (c : SpendCall) (withBurned : Bool) : List ReadReq :=
  c.ins.map (fun id => ⟨CoreOp.utxo, id.val⟩) ++
    (if withBurned then [⟨CoreOp.supply, [SupplySel.burned]⟩] else []) ++
      [⟨CoreOp.supply, [SupplySel.pool]⟩]

def planned (reqs : List ReadReq) (maxReqs : Nat) : Except Failure (List ReadReq) := do
  failWhen .reject (maxReqs < reqs.length)
  return reqs

/-- The switch of `nodus_rt_core_read_plan` on a leg that exists. -/
def legReadPlan (hash : Hash) (generation : Nat) (env : EnvView) (legIndex : Nat)
    (leg : LegView) (ctx : ExecCtx) (maxReqs : Nat) : Except Failure (List ReadReq) := do
  if leg.hdr.runtimeOp = Corerule.spend then
    let c ← orFail .reject (spendParse leg.call)
    planned (xferReads c false) maxReqs
  else if leg.hdr.runtimeOp = Corerule.burn then
    let (c, _) ← orFail .reject (burnParse leg.call)
    planned (xferReads c true) maxReqs
  else if leg.hdr.runtimeOp = Corerule.tokenCreate then
    let t ← orFail .reject (tcParse leg.call)
    planned (xferReads t.xfer false ++ [⟨CoreOp.token, t.tokenId.val⟩]) maxReqs
  else if leg.hdr.runtimeOp = Corerule.sysfund then
    let sys ← orFail .reject (sysfundShape env legIndex generation)
    let c ← orFail .reject (sysfundParse leg.call)
    let gate ← sysfundNameGate hash sys ctx generation
    failWhen .reject (gate.isSome ∧ sysfundDlgMaxIn < c.ins.length)
    planned (xferReads c.toSpendCall false ++
      (gate.map fun fp => (⟨CoreOp.nameown, fp.val⟩ : ReadReq)).toList) maxReqs
  else if leg.hdr.runtimeOp = Corerule.evmfund then
    let _ ← orFail .reject (evmfundShape env legIndex generation)
    let f ← orFail .reject (evmfundParse leg.call)
    planned (xferReads f.xfer.toSpendCall false ++
      if f.role = .fee then [] else [⟨CoreOp.supply, [SupplySel.evmReserve]⟩]) maxReqs
  else if leg.hdr.runtimeOp = Corerule.nameRegister then
    failWhen .reject (generation < gen2)
    let nc ← orFail .reject (nameParse leg.call)
    let owner ← orFail .reject (nameOwner leg ctx)
    planned (xferReads nc.xfer.toSpendCall false ++
      [⟨CoreOp.name, nc.name.val⟩, ⟨CoreOp.nameown, owner.val⟩]) maxReqs
  else .error .reject

def coreReadPlan (hash : Hash) (generation : Nat) (env : EnvView) (legIndex : Nat)
    (ctx : ExecCtx) (maxReqs : Nat) : Except Failure (List ReadReq) := do
  let leg ← orFail .fault (legAt env legIndex)
  legReadPlan hash generation env legIndex leg ctx maxReqs

/-! ## The executors -/

def minFeeRaw : UInt64 := 1000000

def baseTxFee : UInt64 := 1000000

section

variable (hash : Hash) (fee : UInt64) (ctx : ExecCtx) (own : Owners) (reads : List ReadRes)
  (resCap : Nat)

def readAt (reads : List ReadRes) (index : Nat) : ReadRes :=
  reads.getD index .absent

def xferExec (c : SpendCall) (burnAmount : UInt64) : Except Failure Bytes := do
  let nSup := if 0 < burnAmount then 2 else 1
  failWhen .fault (reads.length ≠ c.ins.length + nSup)
  let (own, toks) ← spendInputs ctx.globalHeight countToken own [⟨nativeToken, 0, 0⟩]
    (reads.take c.ins.length)
  failWhen .reject (!own.allUsed)
  let toks ← orFail .reject (c.outs.foldlM countMade toks)
  failWhen .reject (fee < minFeeRaw ∨ fee < baseTxFee)
  let destroyed ← orFail .reject (ckAdd fee burnAmount)
  failWhen .reject (!toks.all (tokBalanced destroyed))
  let coins ← sortCoins (coinsOf hash c.outs)
  let burned ← if 0 < burnAmount then
      List.singleton <$> supplyAddEff (readAt reads c.ins.length) burnAmount SupplySel.burned
    else .ok []
  let pool ← supplyAddEff (readAt reads (c.ins.length + nSup - 1)) fee SupplySel.pool
  resultEncode (coins.map (utxoCreateEff ctx) ++ (burned ++ [pool]) ++
    utxoDeletes hash c.ins reads) resCap

def TcCall.toRec (t : TcCall) : TokenRec where
  supply := t.minted.amount
  decimals := t.decimals
  flags := 0
  blockHeight := ctx.globalHeight
  creator := t.minted.owner
  nameLen := UInt8.ofNat t.name.val.length
  name := padded tcNameMax t.name.val
  symLen := UInt8.ofNat t.sym.val.length
  sym := padded tcSymMax t.sym.val

/-- The effect of `rtn_tc_exec` that registers the token. -/
def tokenCreateEff (t : TcCall) : EffectIn :=
  effectIn CoreOp.token kindCreate preAbsent 0 default t.tokenId.val
    (tokenLayout.write (t.toRec ctx)) (length_digest_lt t.tokenId)
    (by rw [tokenLayout.length_write]; decide)

def tcExec (t : TcCall) : Except Failure Bytes := do
  let c := t.xfer
  failWhen .fault (reads.length ≠ c.ins.length + 2)
  failWhen .reject (readAt reads (c.ins.length + 1)).present
  let (own, nativeIn) ← spendInputs ctx.globalHeight countNative own 0 (reads.take c.ins.length)
  failWhen .reject (!own.allUsed)
  failWhen .fault (ctx.governed.tokenCreateFee < minTokenCreateFee)
  failWhen .reject (fee < ctx.governed.tokenCreateFee)
  let nativeOut ← orFail .reject (sumOuts t.change)
  let need ← orFail .reject (ckAdd nativeOut fee)
  failWhen .reject (nativeIn ≠ need)
  let coins ← sortCoins (coinsOf hash c.outs)
  let pool ← supplyAddEff (readAt reads c.ins.length) fee SupplySel.pool
  resultEncode (coins.map (utxoCreateEff ctx) ++ ([tokenCreateEff ctx t] ++ [pool]) ++
    utxoDeletes hash c.ins reads) resCap

/-- The highest price among the tier of the length and longer ones. -/
def namePriceForLen (prices : List UInt64) (len : Nat) : UInt64 :=
  if len < nameMinLen ∨ nameMaxLen < len then 0
  else
    match prices.drop (if 6 ≤ len then 3 else len - 3) with
    | [] => 0
    | first :: rest => rest.foldl (fun most price => if most < price then price else most) first

theorem length_name (name : NameText) : nameMinLen ≤ name.val.length ∧
    name.val.length ≤ nameMaxLen := by
  have ok := name.property
  rw [nameBytesOk] at ok
  split at ok
  next => cases ok
  next fits => omega

theorem length_name_lt (name : NameText) : name.val.length < 2 ^ 16 :=
  Nat.lt_of_le_of_lt (length_name name).2 (by decide)

/-- The effect of `rtn_name_exec` that registers the name. -/
def nameCreateEff (name : NameText) (owner : Digest) : EffectIn :=
  effectIn CoreOp.name kindCreate preAbsent 0 default name.val
    (nameLayout.write ⟨owner, ctx.globalHeight⟩) (length_name_lt name)
    (by rw [nameLayout.length_write]; decide)

def nameExec (legCount : UInt16) (nc : NameCall) (owner : Digest) : Except Failure Bytes := do
  let c := nc.xfer
  failWhen .fault (reads.length ≠ c.ins.length + 3)
  failWhen .reject (legCount ≠ 1)
  failWhen .reject (readAt reads (c.ins.length + 1)).present
  failWhen .reject (readAt reads (c.ins.length + 2)).present
  failWhen .reject (fee < minFeeRaw ∨ fee < baseTxFee)
  failWhen .fault (ctx.governed.namePrice.any fun price =>
    price < minNamePrice || maxNamePrice < price)
  let price := namePriceForLen ctx.governed.namePrice nc.name.val.length
  failWhen .fault (price = 0)
  failWhen .reject (nc.price ≠ price)
  let (own, nativeIn) ← spendInputs ctx.globalHeight (countOwn (fpHex owner)) own 0
    (reads.take c.ins.length)
  failWhen .reject (!own.allUsed)
  let nativeOut ← orFail .reject (sumOuts c.outs)
  let credit ← orFail .reject (ckAdd fee price)
  let need ← orFail .reject (ckAdd nativeOut credit)
  failWhen .reject (nativeIn ≠ need)
  let coins ← sortCoins (coinsOf hash c.outs)
  let pool ← supplyAddEff (readAt reads c.ins.length) credit SupplySel.pool
  resultEncode (coins.map (utxoCreateEff ctx) ++ ([nameCreateEff ctx nc.name owner] ++ [pool]) ++
    utxoDeletes hash c.ins reads) resCap

/-- `DNAC_EPOCH_LENGTH` -/
def rtEpochLength : UInt64 := 720

def undelegateLockEpochs : UInt64 := 12

/-- Two epochs behind the next boundary. -/
def powerExitBoundary (h : UInt64) : Option UInt64 := do
  let nb ← if h % rtEpochLength ≠ 0 then ckMul (h / rtEpochLength + 1) rtEpochLength else some h
  let l ← ckAdd nb rtEpochLength
  ckAdd l rtEpochLength

def releaseId (intentId : Digest) (kind : UInt8) (index : UInt32) : Digest :=
  hash (intentId.val ++ [kind] ++ Layout.be32.write index)

def sysfundRelIndex : UInt32 := 100

def evmfundRelIndex : UInt32 := 101

def delegatorFp (sys : LegView) (generation : Nat) : Option Digest :=
  if genRoles generation then (delegParseV2 sys.call).map Deleg2Call.delegatorFp
  else (delegParse sys.call).map fun d => hash d.delegatorPubkey.val

def sysfundReleaseCoin (sys : LegView) (generation : Nat) (release : UInt64) :
    Option NewCoin := do
  let exit ← powerExitBoundary ctx.globalHeight
  let unlock ← ckAdd exit (undelegateLockEpochs * rtEpochLength)
  if int64Max < unlock.toNat then none
  else
    let ofp ← delegatorFp hash sys generation
    return ⟨releaseId hash ctx.intentId 1 sysfundRelIndex, fpHex ofp, release, nativeToken,
      sysfundRelIndex, unlock⟩

/-- The coin that a SYSFUND leg releases, if it releases an amount. -/
def sysfundReleased (sys : LegView) (generation : Nat) (release : UInt64) :
    Except Failure (List NewCoin) :=
  if 0 < release then
    List.singleton <$> orFail .reject (sysfundReleaseCoin hash ctx sys generation release)
  else .ok []

def sysfundExec (core sys : LegView) (generation : Nat) (c : NativeCall) :
    Except Failure Bytes := do
  let gate ← sysfundNameGate hash sys ctx generation
  failWhen .fault (reads.length ≠ c.ins.length + 1 + if gate.isSome then 1 else 0)
  failWhen .reject (gate.isSome ∧ sysfundDlgMaxIn < c.ins.length)
  let named := readAt reads (c.ins.length + 1)
  failWhen .reject (gate.isSome ∧ !named.present)
  failWhen .fault (gate.isSome ∧
    (named.value.length < nameMinLen ∨ nameMaxLen < named.value.length))
  let flow ← orFail .reject (sysCallFlow sys.hdr.runtimeOp sys.call generation)
  failWhen .reject (genRoles generation ∧ !sysfundPayerBound sys core ctx)
  let (own, nativeIn) ← spendInputs ctx.globalHeight countNative own 0 (reads.take c.ins.length)
  failWhen .reject (!own.allUsed)
  failWhen .reject (fee < minFeeRaw ∨ fee < baseTxFee)
  let changeOut ← orFail .reject (sumOuts c.outs)
  let rhs ← orFail .reject (ckAdd changeOut fee)
  let rhs ← orFail .reject (ckAdd rhs flow.lock)
  failWhen .reject (nativeIn ≠ rhs)
  let released ← sysfundReleased hash ctx sys generation flow.release
  let coins ← sortCoins (coinsOf hash c.outs ++ released)
  let pool ← supplyAddEff (readAt reads c.ins.length) fee SupplySel.pool
  resultEncode (coins.map (utxoCreateEff ctx) ++ [pool] ++ utxoDeletes hash c.ins reads) resCap

def evmfundReleaseCoin (destFp : Digest) (release : UInt64) : NewCoin :=
  ⟨releaseId hash ctx.intentId 2 evmfundRelIndex, fpHex destFp, release, nativeToken,
    evmfundRelIndex, 0⟩

/-- What an EVMFUND leg moves by its role; a release needs a destination. -/
def evmFlow (role : Role) (head : EvmHead) : Option Flow :=
  match role with
  | .fee => some ⟨0, 0⟩
  | .deposit => if head.amountRaw = 0 then none else some ⟨head.amountRaw, 0⟩
  | .release =>
    if head.amountRaw = 0 ∨ head.destFp.isNone then none else some ⟨0, head.amountRaw⟩

/-- The reserve behind an EVMFUND leg that locks or releases. -/
def reserveEff (r : ReadRes) (role : Role) (flow : Flow) : Except Failure EffectIn := do
  failWhen .fault (!r.present)
  failWhen .fault (r.value.length ≠ 8)
  let old := Layout.be64.read r.value
  let new ← orFail .reject <|
    if role = .deposit then (ckAdd old flow.lock).filter fun new => new.toNat ≤ int64Max
    else ckSub old flow.release
  return supplySetEff SupplySel.evmReserve old new

/-- A leg that pays a fee only leaves the reserve alone. -/
def reserveEffs (r : ReadRes) (role : Role) (flow : Flow) : Except Failure (List EffectIn) :=
  if role = .fee then .ok [] else List.singleton <$> reserveEff r role flow

def evmfundExec (evm : LegView) (f : EvmfundCall) : Except Failure Bytes := do
  let c := f.xfer
  failWhen .fault (reads.length ≠ c.ins.length + 1 + if f.role = .fee then 0 else 1)
  let head ← orFail .reject (evmCallHead evm.hdr.runtimeOp evm.call)
  let flow ← orFail .reject (evmFlow f.role head)
  let (own, nativeIn) ← spendInputs ctx.globalHeight countNative own 0 (reads.take c.ins.length)
  failWhen .reject (!own.allUsed)
  failWhen .reject (fee < minFeeRaw ∨ fee < baseTxFee)
  let changeOut ← orFail .reject (sumOuts c.outs)
  let rhs ← orFail .reject (ckAdd changeOut fee)
  let rhs ← orFail .reject (ckAdd rhs flow.lock)
  failWhen .reject (nativeIn ≠ rhs)
  let reserve ← reserveEffs (readAt reads (c.ins.length + 1)) f.role flow
  let released := (head.destFp.filter fun _ => 0 < flow.release).map fun destFp =>
    evmfundReleaseCoin hash ctx destFp flow.release
  let coins ← sortCoins (coinsOf hash c.outs ++ released.toList)
  let pool ← supplyAddEff (readAt reads c.ins.length) fee SupplySel.pool
  resultEncode (coins.map (utxoCreateEff ctx) ++ ([pool] ++ reserve) ++
    utxoDeletes hash c.ins reads) resCap

end

/-- The switch of `nodus_rt_core_exec`, once the owners are known. -/
def coreDispatch (hash : Hash) (generation : Nat) (env : EnvView) (legIndex : Nat) (leg : LegView)
    (ctx : ExecCtx) (own : Owners) (reads : List ReadRes) (resCap : Nat) :
    Except Failure Bytes :=
  if leg.hdr.runtimeOp = Corerule.spend then do
    let c ← orFail .reject (spendParse leg.call)
    xferExec hash env.feeAmount ctx own reads resCap c 0
  else if leg.hdr.runtimeOp = Corerule.burn then do
    let (c, burn) ← orFail .reject (burnParse leg.call)
    xferExec hash env.feeAmount ctx own reads resCap c burn
  else if leg.hdr.runtimeOp = Corerule.tokenCreate then do
    let t ← orFail .reject (tcParse leg.call)
    tcExec hash env.feeAmount ctx own reads resCap t
  else if leg.hdr.runtimeOp = Corerule.sysfund then do
    let sys ← orFail .reject (sysfundShape env legIndex generation)
    let c ← orFail .reject (sysfundParse leg.call)
    sysfundExec hash env.feeAmount ctx own reads resCap leg sys generation c
  else if leg.hdr.runtimeOp = Corerule.evmfund then do
    let evm ← orFail .reject (evmfundShape env legIndex generation)
    let f ← orFail .reject (evmfundParse leg.call)
    evmfundExec hash env.feeAmount ctx own reads resCap evm f
  else .error .reject

/-- The owner and the call of a name are settled before the owners. -/
def coreExec (hash : Hash) (generation : Nat) (env : EnvView) (legIndex : Nat) (ctx : ExecCtx)
    (reads : List ReadRes) (resCap : Nat) : Except Failure Bytes := do
  let leg ← orFail .fault (legAt env legIndex)
  if leg.hdr.runtimeOp = Corerule.nameRegister then
    failWhen .reject (generation < gen2)
    let owner ← orFail .reject (nameOwner leg ctx)
    let nc ← orFail .reject (nameParse leg.call)
    let own ← ownersInit leg.hdr.authKind ctx.auth
    nameExec hash env.feeAmount ctx own reads resCap env.legCount nc owner
  else
    let own ← ownersInit leg.hdr.authKind ctx.auth
    coreDispatch hash generation env legIndex leg ctx own reads resCap

end DnaLedger.Native
