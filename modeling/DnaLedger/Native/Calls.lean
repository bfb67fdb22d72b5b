import DnaLedger.Native.Authority

/-!
# Calls of the native domains

Model of the parsers of `nodus_witness_rt_native.c` for the calls of the CORE domain and for the
calls of the SYSTEM and EVM legs that a CORE leg pays for. A parser that returns a length of zero or
-1 returns `none`.
-/

namespace DnaLedger.Native

open DnaLedger.Envelope

def domainSystem : UInt32 := 0

def domainCore : UInt32 := 1

def domainEvm : UInt32 := 2

namespace Corerule

def spend : UInt32 := 1

def burn : UInt32 := 2

def tokenCreate : UInt32 := 3

def sysfund : UInt32 := 7

def nameRegister : UInt32 := 8

def evmfund : UInt32 := 9

end Corerule

namespace Sysrule

def stake : UInt32 := 1

def delegate : UInt32 := 2

def unstake : UInt32 := 3

def undelegate : UInt32 := 4

def validatorUpdate : UInt32 := 5

def storageRegister : UInt32 := 7

def storageExit : UInt32 := 8

end Sysrule

namespace EvmOp

def call : UInt32 := 1

def create : UInt32 := 2

def deposit : UInt32 := 3

def withdraw : UInt32 := 4

def redeem : UInt32 := 5

end EvmOp

def gen2 : Nat := 2

def genEvm : Nat := 3

def genStorage : Nat := 4

def int64Max : Nat := 2 ^ 63 - 1

/-- The lowercase hexadecimal text of a fingerprint. -/
abbrev OwnerHex := { bytes : Bytes // bytes.length = 128 }

abbrev Seed := { bytes : Bytes // bytes.length = 32 }

/-- The token id of the native coin: all of its bytes are zero. -/
def nativeToken : Digest := default

/-- A coin to be made, as the call lists it. -/
structure SpendOut where
  owner : OwnerHex
  amount : UInt64
  token : Digest
  seed : Seed
  deriving DecidableEq

/-- The `RTN_SPEND_OUT_LEN` bytes of an output. -/
def spendOutLayout : Layout SpendOut :=
  ((Layout.raw 128).both <| Layout.be64.both <| (Layout.raw digestSize).both (Layout.raw 32)).record
    (fun (owner, amount, token, seed) => ⟨owner, amount, token, seed⟩)
    (fun out => (out.owner, out.amount, out.token, out.seed)) (fun _ => rfl) (fun _ => rfl)

def hexLowerOk (bytes : Bytes) : Bool :=
  bytes.all fun c => (48 ≤ c && c ≤ 57) || (97 ≤ c && c ≤ 102)

/-- The loops of `rtn_xfer_section_parse`: spent coins ascend strictly, made coins have an owner in
hexadecimal and an amount. -/
def sectionOk (ins : List Digest) (outs : List SpendOut) : Bool :=
  Sorting.ascending (fun first second => decide (first.val < second.val)) ins &&
    outs.all fun out => hexLowerOk out.owner.val && out.amount != 0

structure SpendCall where
  ins : List Digest
  outs : List SpendOut
  ok : sectionOk ins outs = true

section

variable (p : Bytes)

/-- The section, and how many bytes it takes. -/
def xferSectionParse (maxIn maxOut minOut : Nat) : Option (SpendCall × Nat) :=
  if p.length < 2 then none
  else
    let ic := (p.getD 0 0).toNat
    if ic < 1 ∨ maxIn < ic then none
    else
      let off := 1 + ic * digestSize
      if p.length < off + 1 then none
      else
        let oc := (p.getD off 0).toNat
        if oc < minOut ∨ maxOut < oc then none
        else
          let need := off + 1 + oc * spendOutLayout.width
          if p.length < need then none
          else
            let ins := (Layout.raw digestSize).table ic (p.drop 1)
            let outs := spendOutLayout.table oc (p.drop (off + 1))
            if ok : sectionOk ins outs then some (⟨ins, outs, ok⟩, need) else none

def spendMaxIn : Nat := 15

def spendMaxOut : Nat := 16

def wholeSection (maxIn maxOut minOut : Nat) : Option SpendCall := do
  let (c, used) ← xferSectionParse p maxIn maxOut minOut
  if used ≠ p.length then none else some c

def spendParse : Option SpendCall :=
  wholeSection p spendMaxIn spendMaxOut 1

/-- The section, and the amount that is burned. -/
def burnParse : Option (SpendCall × UInt64) := do
  let (c, used) ← xferSectionParse p spendMaxIn spendMaxOut 0
  if p.length ≠ used + 8 then none
  else
    let burn := Layout.be64.read (p.drop used)
    if burn = 0 then none else some (c, burn)

def nativeOuts (outs : List SpendOut) : Bool :=
  outs.all fun out => out.token == nativeToken

structure NativeCall extends SpendCall where
  native : nativeOuts outs = true

def nativeOnly (c : SpendCall) : Option NativeCall :=
  if native : nativeOuts c.outs then some ⟨c, native⟩ else none

def sysfundParse : Option NativeCall := do
  let c ← wholeSection p spendMaxIn spendMaxOut 0
  nativeOnly c

end

def tcNameMax : Nat := 32

def tcSymMax : Nat := 8

def tcDecimalsMax : UInt8 := 18

/-- Printable, without a colon. -/
def tcTextOk (text : Bytes) : Bool :=
  text.all fun c => !(c < 0x20 || 0x7e < c || c == 58)

/-- A text of one to `most` bytes. -/
abbrev ShortText (most : Nat) := { text : Bytes // 1 ≤ text.length ∧ text.length ≤ most }

/-- A text behind its length byte, and what follows it; one more byte has to follow. -/
def shortText (most : Nat) (p : Bytes) : Option (ShortText most × Bytes) :=
  let len := (p.getD 0 0).toNat
  if fits : 1 ≤ len ∧ len ≤ most ∧ len + 2 ≤ p.length then
    some (⟨(p.drop 1).take len, by
      rw [List.length_take, List.length_drop]
      omega⟩, p.drop (1 + len))
  else none

/-- `rtn_tc_call_t`.  The first coin that is made is the supply of the new token. -/
structure TcCall where
  tokenId : Digest
  name : ShortText tcNameMax
  sym : ShortText tcSymMax
  decimals : UInt8
  minted : SpendOut
  change : List SpendOut
  xfer : SpendCall
  tokenId_ne : tokenId ≠ nativeToken
  outs_eq : xfer.outs = minted :: change
  minted_token : minted.token = tokenId
  native_change : nativeOuts change = true

def tcParse (p : Bytes) : Option TcCall :=
  if p.length < digestSize + 2 then none
  else
    let tokenId := (Layout.raw digestSize).read p
    if isNative : tokenId = nativeToken then none
    else do
      let (name, p) ← shortText tcNameMax (p.drop digestSize)
      let (sym, p) ← shortText tcSymMax p
      let decimals := p.getD 0 0
      if tcDecimalsMax < decimals then none
      else if !tcTextOk name.val || !tcTextOk sym.val then none
      else
        let c ← wholeSection (p.drop 1) 14 16 1
        match outs_eq : c.outs with
        | [] => none
        | minted :: change =>
          if other : minted.token ≠ tokenId then none
          else if int64Max < minted.amount.toNat then none
          else if native : nativeOuts change then
            some ⟨tokenId, name, sym, decimals, minted, change, c, isNative, outs_eq,
              of_not_not other, native⟩
          else none

def nameMinLen : Nat := 3

def nameMaxLen : Nat := 36

def nameHexlikeMinLen : Nat := 8

def nameBytesOk (name : Bytes) : Bool :=
  if name.length < nameMinLen ∨ nameMaxLen < name.length then false
  else if !name.all (fun c => (48 ≤ c && c ≤ 57) || (97 ≤ c && c ≤ 122)) then false
  else !(hexLowerOk name && nameHexlikeMinLen ≤ name.length)

abbrev NameText := { name : Bytes // nameBytesOk name = true }

structure NameCall where
  name : NameText
  price : UInt64
  xfer : NativeCall

def nameParse (p : Bytes) : Option NameCall :=
  if p.length < 1 then none
  else
    let nl := (p.getD 0 0).toNat
    if nl < nameMinLen ∨ nameMaxLen < nl then none
    else if p.length < 1 + nl + 8 then none
    else
      let name := (p.drop 1).take nl
      if ok : nameBytesOk name then do
        let price := Layout.be64.read (p.drop (1 + nl))
        let c ← wholeSection (p.drop (1 + nl + 8)) 13 16 0
        let xfer ← nativeOnly c
        return ⟨⟨name, ok⟩, price, xfer⟩
      else none

inductive Role where
  | fee
  | deposit
  | release
  deriving DecidableEq

/-- `fund_role_ok` -/
def roleOf (byte : UInt8) : Option Role :=
  if byte = 1 then some .fee
  else if byte = 2 then some .deposit
  else if byte = 3 then some .release
  else none

structure EvmfundCall where
  role : Role
  xfer : NativeCall

/-- `dna_evmfund_decode`, with the checks of `fund_sections_ok`. -/
def evmfundParse (p : Bytes) : Option EvmfundCall :=
  if p.length < 3 ∨ p.getD 0 0 ≠ 1 then none
  else
    let nIn := (p.getD 2 0).toNat
    if nIn < 1 ∨ spendMaxIn < nIn then none
    else if (p.length - 3) / digestSize < nIn then none
    else
      let off := 3 + nIn * digestSize
      if p.length - off < 1 then none
      else
        let nOut := (p.getD off 0).toNat
        if spendMaxOut < nOut then none
        else if p.length - (off + 1) ≠ nOut * spendOutLayout.width then none
        else
          let ins := (Layout.raw digestSize).table nIn (p.drop 3)
          let outs := spendOutLayout.table nOut (p.drop (off + 1))
          if ok : sectionOk ins outs then do
            let role ← roleOf (p.getD 1 0)
            let xfer ← nativeOnly ⟨ins, outs, ok⟩
            return ⟨role, xfer⟩
          else none

/-! ## Calls of the SYSTEM leg -/

/-- A call that is one record, of exactly its width. -/
def exactly {α : Type} (layout : Layout α) (p : Bytes) : Option α :=
  if p.length ≠ layout.width then none else some (layout.read p)

structure StakeCall where
  stakerPubkey : Pubkey
  commissionBps : UInt16
  bond : UInt64
  destFp : Digest

def stakeLayout : Layout StakeCall :=
  ((Layout.raw pubkeySize).both <| Layout.be16.both <| Layout.be64.both
    (Layout.raw digestSize)).record
    (fun (stakerPubkey, commissionBps, bond, destFp) =>
      ⟨stakerPubkey, commissionBps, bond, destFp⟩)
    (fun c => (c.stakerPubkey, c.commissionBps, c.bond, c.destFp))
    (fun _ => rfl) (fun _ => rfl)

section

variable (p : Bytes)

def stakeParse : Option StakeCall := exactly stakeLayout p

structure DelegCall where
  delegatorPubkey : Pubkey
  validatorPubkey : Pubkey
  amount : UInt64

def delegLayout : Layout DelegCall :=
  ((Layout.raw pubkeySize).both <| (Layout.raw pubkeySize).both Layout.be64).record
    (fun (delegatorPubkey, validatorPubkey, amount) =>
      ⟨delegatorPubkey, validatorPubkey, amount⟩)
    (fun c => (c.delegatorPubkey, c.validatorPubkey, c.amount)) (fun _ => rfl) (fun _ => rfl)

def delegParse : Option DelegCall := exactly delegLayout p

def commissionBpsMax : UInt16 := 5000

structure VupdCall where
  validatorPubkey : Pubkey
  newCommissionBps : UInt16

def vupdLayout : Layout VupdCall :=
  ((Layout.raw pubkeySize).both Layout.be16).record
    (fun (validatorPubkey, newCommissionBps) => ⟨validatorPubkey, newCommissionBps⟩)
    (fun c => (c.validatorPubkey, c.newCommissionBps)) (fun _ => rfl) (fun _ => rfl)

def vupdParse : Option VupdCall := do
  let c ← exactly vupdLayout p
  if c.validatorPubkey.val.all (· == 0) then none
  else if commissionBpsMax < c.newCommissionBps then none
  else some c

structure Stake2Call where
  ownerFp : Digest
  consensusPk : Pubkey
  consentSig : Signature
  consentExpiry : UInt64
  commissionBps : UInt16
  bond : UInt64

def stake2Layout : Layout Stake2Call :=
  ((Layout.raw digestSize).both <| (Layout.raw pubkeySize).both <| (Layout.raw sigSize).both <|
    Layout.be64.both <| Layout.be16.both Layout.be64).record
    (fun (ownerFp, consensusPk, consentSig, consentExpiry, commissionBps, bond) =>
      ⟨ownerFp, consensusPk, consentSig, consentExpiry, commissionBps, bond⟩)
    (fun c => (c.ownerFp, c.consensusPk, c.consentSig, c.consentExpiry, c.commissionBps, c.bond))
    (fun _ => rfl) (fun _ => rfl)

def stake2Parse : Option Stake2Call := exactly stake2Layout p

structure Deleg2Call where
  delegatorFp : Digest
  validatorId : Digest
  amount : UInt64

def deleg2Layout : Layout Deleg2Call :=
  ((Layout.raw digestSize).both <| (Layout.raw digestSize).both Layout.be64).record
    (fun (delegatorFp, validatorId, amount) => ⟨delegatorFp, validatorId, amount⟩)
    (fun c => (c.delegatorFp, c.validatorId, c.amount)) (fun _ => rfl) (fun _ => rfl)

def delegParseV2 : Option Deleg2Call := exactly deleg2Layout p

structure Unstake2Call where
  validatorId : Digest
  ownerFp : Digest

def unstake2Layout : Layout Unstake2Call :=
  ((Layout.raw digestSize).both (Layout.raw digestSize)).record
    (fun (validatorId, ownerFp) => ⟨validatorId, ownerFp⟩)
    (fun c => (c.validatorId, c.ownerFp)) (fun _ => rfl) (fun _ => rfl)

def unstakeParseV2 : Option Unstake2Call := exactly unstake2Layout p

structure Vupd2Call where
  validatorId : Digest
  ownerFp : Digest
  newCommissionBps : UInt16

def vupd2Layout : Layout Vupd2Call :=
  ((Layout.raw digestSize).both <| (Layout.raw digestSize).both Layout.be16).record
    (fun (validatorId, ownerFp, newCommissionBps) => ⟨validatorId, ownerFp, newCommissionBps⟩)
    (fun c => (c.validatorId, c.ownerFp, c.newCommissionBps)) (fun _ => rfl) (fun _ => rfl)

def vupdParseV2 : Option Vupd2Call := do
  let c ← exactly vupd2Layout p
  if c.validatorId.val.all (· == 0) then none
  else if commissionBpsMax < c.newCommissionBps then none
  else some c

structure Streg2Call where
  ownerFp : Digest
  nodePk : Pubkey
  consentSig : Signature
  consentExpiry : UInt64
  bond : UInt64

def streg2Layout : Layout Streg2Call :=
  ((Layout.raw digestSize).both <| (Layout.raw pubkeySize).both <| (Layout.raw sigSize).both <|
    Layout.be64.both Layout.be64).record
    (fun (ownerFp, nodePk, consentSig, consentExpiry, bond) =>
      ⟨ownerFp, nodePk, consentSig, consentExpiry, bond⟩)
    (fun c => (c.ownerFp, c.nodePk, c.consentSig, c.consentExpiry, c.bond))
    (fun _ => rfl) (fun _ => rfl)

def streg2Parse : Option Streg2Call := exactly streg2Layout p

structure Stexit2Call where
  nodeFp : Digest
  ownerFp : Digest

def stexit2Layout : Layout Stexit2Call :=
  ((Layout.raw digestSize).both (Layout.raw digestSize)).record
    (fun (nodeFp, ownerFp) => ⟨nodeFp, ownerFp⟩)
    (fun c => (c.nodeFp, c.ownerFp)) (fun _ => rfl) (fun _ => rfl)

def stexit2Parse : Option Stexit2Call := exactly stexit2Layout p

end

/-- What a SYSTEM call moves between coins and stakes. -/
structure Flow where
  lock : UInt64
  release : UInt64
  deriving DecidableEq

def genRoles (generation : Nat) : Bool := genStorage ≤ generation

section

variable (op : UInt32)

/-- The second switch of `rtn_sys_call_flow`. -/
def legacyFlow (p : Bytes) : Option Flow :=
  if op = Sysrule.stake then do
    let c ← stakeParse p
    return ⟨c.bond, 0⟩
  else if op = Sysrule.delegate then do
    let c ← delegParse p
    return ⟨c.amount, 0⟩
  else if op = Sysrule.unstake then
    if p.length = pubkeySize then some ⟨0, 0⟩ else none
  else if op = Sysrule.undelegate then do
    let c ← delegParse p
    return ⟨0, c.amount⟩
  else if op = Sysrule.validatorUpdate then do
    let _ ← vupdParse p
    return ⟨0, 0⟩
  else none

def sysCallFlow (p : Bytes) (generation : Nat) : Option Flow :=
  if !genRoles generation then legacyFlow op p
  else if op = Sysrule.stake then do
    let c ← stake2Parse p
    return ⟨c.bond, 0⟩
  else if op = Sysrule.delegate then do
    let c ← delegParseV2 p
    return ⟨c.amount, 0⟩
  else if op = Sysrule.unstake then do
    let _ ← unstakeParseV2 p
    return ⟨0, 0⟩
  else if op = Sysrule.undelegate then do
    let c ← delegParseV2 p
    return ⟨0, c.amount⟩
  else if op = Sysrule.validatorUpdate then do
    let _ ← vupdParseV2 p
    return ⟨0, 0⟩
  else if op = Sysrule.storageRegister then do
    let c ← streg2Parse p
    return ⟨c.bond, 0⟩
  else if op = Sysrule.storageExit then do
    let _ ← stexit2Parse p
    return ⟨0, 0⟩
  else legacyFlow op p

def sysCallOwnerV2 (p : Bytes) : Option Digest :=
  if op = Sysrule.stake then (stake2Parse p).map Stake2Call.ownerFp
  else if op = Sysrule.delegate ∨ op = Sysrule.undelegate then
    (delegParseV2 p).map Deleg2Call.delegatorFp
  else if op = Sysrule.unstake then (unstakeParseV2 p).map Unstake2Call.ownerFp
  else if op = Sysrule.validatorUpdate then (vupdParseV2 p).map Vupd2Call.ownerFp
  else if op = Sysrule.storageRegister then (streg2Parse p).map Streg2Call.ownerFp
  else if op = Sysrule.storageExit then (stexit2Parse p).map Stexit2Call.ownerFp
  else none

/-- The fields of `dna_evm_head_t` that the CORE domain reads. -/
structure EvmHead where
  amountRaw : UInt64
  destFp : Option Digest

def evmCallHead (c : Bytes) : Option EvmHead :=
  if c.length < 1 ∨ c.getD 0 0 ≠ 1 then none
  else if op = EvmOp.call then
    if c.length < 81 then none else some ⟨0, none⟩
  else if op = EvmOp.create then
    if c.length < 49 then none else some ⟨0, none⟩
  else if op = EvmOp.deposit then
    if c.length ≠ 17 then none else some ⟨Layout.be64.read (c.drop 1), none⟩
  else if op = EvmOp.withdraw then
    if c.length ≠ 81 then none
    else some ⟨Layout.be64.read (c.drop 1), some ((Layout.raw digestSize).read (c.drop 17))⟩
  else if op = EvmOp.redeem then
    if c.length ≠ 137 then none
    else some ⟨Layout.be64.read (c.drop 65), some ((Layout.raw digestSize).read (c.drop 73))⟩
  else none

def evmfundRoleForOp : Option Role :=
  if op = EvmOp.call ∨ op = EvmOp.create then some .fee
  else if op = EvmOp.deposit then some .deposit
  else if op = EvmOp.withdraw ∨ op = EvmOp.redeem then some .release
  else none

end

def evmPairCheck (env : EnvView) : Bool :=
  match legAt env 0, legAt env 1 with
  | some core, some evm =>
    env.legCount = 2 && core.hdr.domainId = domainCore &&
      core.hdr.runtimeOp = Corerule.evmfund && evm.hdr.domainId = domainEvm &&
      2 ≤ core.call.length && core.call.getD 0 0 = 1 &&
      (evmfundRoleForOp evm.hdr.runtimeOp).isSome &&
      roleOf (core.call.getD 1 0) = evmfundRoleForOp evm.hdr.runtimeOp
  | _, _ => false

end DnaLedger.Native
