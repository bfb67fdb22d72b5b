import DnaLedger.Effect.Wire
import DnaLedger.Foundation.Outcome
import DnaLedger.Native.Calls

/-!
# Coins

Model of the helpers that the executors of the CORE domain share in
`nodus_witness_rt_native.c`: the record of a coin, who may spend it, the sums over what is
spent and made, the ids of the coins that are made, and the effects that make and delete
coins and move the counters.
-/

namespace DnaLedger.Native

open DnaLedger.Effect

def minTokenCreateFee : UInt64 := 100000000

def minNamePrice : UInt64 := 100000000

def maxNamePrice : UInt64 := 1000000000000000

/-- The configuration that the executors read. Values out of range are not voted in, and the
defaults are in range. -/
structure Governed where
  tokenCreateFee : UInt64
  namePrice : List UInt64
  tokenCreateFee_ok : minTokenCreateFee ≤ tokenCreateFee
  length_namePrice : namePrice.length = 4
  namePrice_ok : ∀ price ∈ namePrice, minNamePrice ≤ price ∧ price ≤ maxNamePrice

/-- The fields of `nodus_rt_exec_ctx_t` that the CORE domain reads. -/
structure ExecCtx where
  intentId : Digest
  globalHeight : UInt64
  auth : AuthVerdict
  governed : Governed
  delegateNameRequired : Bool

structure ReadReq where
  opId : UInt32
  key : Bytes
  deriving DecidableEq

structure ReadRes where
  present : Bool
  value : Bytes
  deriving DecidableEq

def ReadRes.absent : ReadRes := ⟨false, []⟩

namespace CoreOp

def utxo : UInt32 := 1

def utxdel : UInt32 := 2

def supply : UInt32 := 3

def token : UInt32 := 4

def name : UInt32 := 5

def nameown : UInt32 := 6

end CoreOp

namespace SupplySel

def burned : UInt8 := 2

def pool : UInt8 := 3

def evmReserve : UInt8 := 4

end SupplySel

structure UtxoRec where
  owner : OwnerHex
  amount : UInt64
  token : Digest
  txHash : Digest
  outputIndex : UInt32
  blockHeight : UInt64
  unlockBlock : UInt64
  deriving DecidableEq

/-- The `RTN_UTXO_REC_LEN` bytes of a coin. -/
def utxoLayout : Layout UtxoRec :=
  ((Layout.raw 128).both <| Layout.be64.both <| (Layout.raw digestSize).both <|
    (Layout.raw digestSize).both <| Layout.be32.both <| Layout.be64.both Layout.be64).record
    (fun (owner, amount, token, txHash, outputIndex, blockHeight, unlockBlock) =>
      ⟨owner, amount, token, txHash, outputIndex, blockHeight, unlockBlock⟩)
    (fun coin => (coin.owner, coin.amount, coin.token, coin.txHash, coin.outputIndex,
      coin.blockHeight, coin.unlockBlock))
    (fun _ => rfl) (fun _ => rfl)

def utxoRecLen : Nat := 284

structure TokenRec where
  supply : UInt64
  decimals : UInt8
  flags : UInt8
  blockHeight : UInt64
  creator : OwnerHex
  nameLen : UInt8
  name : { bytes : Bytes // bytes.length = tcNameMax }
  symLen : UInt8
  sym : { bytes : Bytes // bytes.length = tcSymMax }
  deriving DecidableEq

/-- The `RTN_TOKEN_REC_LEN` bytes of a token. -/
def tokenLayout : Layout TokenRec :=
  (Layout.be64.both <| Layout.byte.both <| Layout.byte.both <| Layout.be64.both <|
    (Layout.raw 128).both <| Layout.byte.both <| (Layout.raw tcNameMax).both <|
      Layout.byte.both (Layout.raw tcSymMax)).record
    (fun (supply, decimals, flags, blockHeight, creator, nameLen, name, symLen, sym) =>
      ⟨supply, decimals, flags, blockHeight, creator, nameLen, name, symLen, sym⟩)
    (fun token => (token.supply, token.decimals, token.flags, token.blockHeight, token.creator,
      token.nameLen, token.name, token.symLen, token.sym))
    (fun _ => rfl) (fun _ => rfl)

structure NameRec where
  owner : Digest
  registeredHeight : UInt64
  deriving DecidableEq

/-- The `RTN_NAME_REC_LEN` bytes of a name. -/
def nameLayout : Layout NameRec :=
  ((Layout.raw digestSize).both Layout.be64).record
    (fun (owner, registeredHeight) => ⟨owner, registeredHeight⟩)
    (fun name => (name.owner, name.registeredHeight)) (fun _ => rfl) (fun _ => rfl)

def padded (count : Nat) (text : Bytes) : { bytes : Bytes // bytes.length = count } :=
  ⟨(text ++ List.replicate count 0).take count, length_take_padded text count⟩

/-- One of `"0123456789abcdef"`. -/
def hexDigit (n : UInt8) : UInt8 :=
  if n < 10 then 48 + n else 87 + n

theorem length_flatMap_pair (bytes : Bytes) (first second : UInt8 → UInt8) :
    (bytes.flatMap fun byte => [first byte, second byte]).length = 2 * bytes.length := by
  induction bytes with
  | nil => rfl
  | cons byte rest ih =>
    rw [List.flatMap_cons, List.length_append, ih, List.length_cons]
    exact Nat.add_comm 2 _

def fpHex (raw : Digest) : OwnerHex :=
  ⟨raw.val.flatMap fun byte : UInt8 => [hexDigit (byte >>> 4), hexDigit (byte &&& 0xF)], by
    rw [length_flatMap_pair, raw.property]
    rfl⟩

/-- A descriptor's address, whether it is satisfied and whether a coin was spent under it. -/
structure MsigOwner where
  hex : OwnerHex
  sat : Bool
  used : Bool

structure Owners where
  sig : List OwnerHex
  msig : List MsigOwner

def ownersInit (authKind : UInt8) (v : AuthVerdict) : Except Failure Owners := do
  failWhen .fault (v.signerFp.length < 1 ∨ maxSigners < v.signerFp.length)
  failWhen .fault (authKind = authkindMsig ∧ (v.msig.length < 1 ∨ msigMaxDesc < v.msig.length))
  failWhen .fault (authKind ≠ authkindMsig ∧ v.msig.length ≠ 0)
  return ⟨v.signerFp.map fpHex, v.msig.map fun m => ⟨fpHex m.addr, m.satisfied, false⟩⟩

/-- The second loop of `rtn_input_owned`: the first descriptor with the address decides. -/
def msigOwned (owner : OwnerHex) : List MsigOwner → Option (List MsigOwner)
  | [] => none
  | m :: rest =>
    if owner = m.hex then
      if m.sat then some ({ m with used := true } :: rest) else none
    else (msigOwned owner rest).map (m :: ·)

/-- The descriptor under which a coin is spent is marked. -/
def inputOwned (own : Owners) (owner : OwnerHex) : Option Owners :=
  if owner ∈ own.sig then some own
  else (msigOwned owner own.msig).map fun msig => { own with msig := msig }

def Owners.allUsed (own : Owners) : Bool :=
  own.msig.all MsigOwner.used

/-- The checks of a coin that is spent, which all executors make. -/
def takeInput (height : UInt64) (own : Owners) (r : ReadRes) :
    Except Failure (Owners × UtxoRec) := do
  failWhen .reject (!r.present)
  failWhen .fault (r.value.length ≠ utxoRecLen)
  let coin := utxoLayout.read r.value
  failWhen .reject (height ≤ coin.unlockBlock)
  let own ← orFail .reject (inputOwned own coin.owner)
  return (own, coin)

/-- The loop over the coins that are spent; `count` adds a coin to the sums. -/
def spendInputs {β : Type} (height : UInt64) (count : β → UtxoRec → Option β) :
    Owners → β → List ReadRes → Except Failure (Owners × β)
  | own, sums, [] => .ok (own, sums)
  | own, sums, r :: rest => do
      let (own, coin) ← takeInput height own r
      let sums ← orFail .reject (count sums coin)
      spendInputs height count own sums rest

def countNative (sum : UInt64) (coin : UtxoRec) : Option UInt64 :=
  if coin.token ≠ nativeToken then none else ckAdd sum coin.amount

def countOwn (owner : OwnerHex) (sum : UInt64) (coin : UtxoRec) : Option UInt64 :=
  if coin.owner ≠ owner then none else countNative sum coin

structure TokSum where
  token : Digest
  inSum : UInt64
  outSum : UInt64
  deriving DecidableEq

/-- The size of the table: every coin of a transfer and the native entry. -/
def tokCap : Nat := spendMaxIn + spendMaxOut + 1

def TokSum.add (sum : TokSum) (amount : UInt64) (isIn : Bool) : Option TokSum :=
  if isIn then (ckAdd sum.inSum amount).map fun total => { sum with inSum := total }
  else (ckAdd sum.outSum amount).map fun total => { sum with outSum := total }

/-- `rtn_tok_add`, with `room` entries free behind those that are left. -/
def tokAdd (token : Digest) (amount : UInt64) (isIn : Bool) (room : Nat) :
    List TokSum → Option (List TokSum)
  | [] =>
    if room = 0 then none
    else some [⟨token, if isIn then amount else 0, if isIn then 0 else amount⟩]
  | sum :: rest =>
    if sum.token = token then (sum.add amount isIn).map (· :: rest)
    else (tokAdd token amount isIn room rest).map (sum :: ·)

def countToken (toks : List TokSum) (coin : UtxoRec) : Option (List TokSum) :=
  tokAdd coin.token coin.amount true (tokCap - toks.length) toks

def countMade (toks : List TokSum) (out : SpendOut) : Option (List TokSum) :=
  tokAdd out.token out.amount false (tokCap - toks.length) toks

/-- The loop of `rtn_xfer_exec` over the sums. -/
def tokBalanced (destroyed : UInt64) (sum : TokSum) : Bool :=
  if sum.token = nativeToken then ckAdd sum.outSum destroyed = some sum.inSum
  else sum.inSum = sum.outSum

/-- The amounts of coins that are made, added while the sum fits. -/
def sumOuts (outs : List SpendOut) : Option UInt64 :=
  outs.foldlM (fun sum out => ckAdd sum out.amount) 0

/-- A coin that is made, with its id, its index and the height that unlocks it. -/
structure NewCoin where
  id : Digest
  owner : OwnerHex
  amount : UInt64
  token : Digest
  index : UInt32
  unlock : UInt64

/-- The coins of a call, with the ids that `rtn_out_ids` computes. -/
def coinsOf (hash : Hash) (outs : List SpendOut) : List NewCoin :=
  outs.zipIdx.map fun (out, o) =>
    ⟨hash (out.owner.val ++ out.seed.val), out.owner, out.amount, out.token, UInt32.ofNat o, 0⟩

/-- The sort by id and the search for equal neighbours. -/
def sortCoins (coins : List NewCoin) : Except Failure (List NewCoin) := do
  let sorted := Sorting.insertionSort (fun key last => decide (key.id.val < last.id.val)) coins
  failWhen .reject (!Sorting.ascending (fun first second => first.id != second.id) sorted)
  return sorted

/-- An effect with the lengths of its key and of its value in the record. -/
def effectIn (opId : UInt32) (effectKind precondTag : UInt8) (expectedVersion : UInt64)
    (expectedVhash : Digest) (key value : Bytes) (keyFits : key.length < 2 ^ 16)
    (valueFits : value.length < 2 ^ 32) : EffectIn where
  hdr := ⟨opId, effectKind, precondTag, expectedVersion, expectedVhash,
    UInt16.ofNat key.length, UInt32.ofNat value.length⟩
  first := key
  second := value
  length_first := (UInt16.toNat_ofNat_of_lt' keyFits).symm
  length_second := (UInt32.toNat_ofNat_of_lt' valueFits).symm

def NewCoin.toRec (coin : NewCoin) (ctx : ExecCtx) : UtxoRec :=
  ⟨coin.owner, coin.amount, coin.token, ctx.intentId, coin.index, ctx.globalHeight, coin.unlock⟩

theorem length_digest_lt (digest : Digest) : digest.val.length < 2 ^ 16 := by
  rw [digest.property]
  decide

def utxoCreateEff (ctx : ExecCtx) (coin : NewCoin) : EffectIn :=
  effectIn CoreOp.utxo kindCreate preAbsent 0 default coin.id.val
    (utxoLayout.write (coin.toRec ctx)) (length_digest_lt coin.id)
    (by rw [utxoLayout.length_write]; decide)

/-- An effect that sets a counter whose old value is known. -/
def supplySetEff (sel : UInt8) (old new : UInt64) : EffectIn :=
  effectIn CoreOp.supply kindSet preExistsVersion old default [sel] (Layout.be64.write new)
    (by decide : 1 < 2 ^ 16) (by rw [Layout.be64.length_write]; decide)

def supplyAddEff (r : ReadRes) (delta : UInt64) (sel : UInt8) : Except Failure EffectIn := do
  failWhen .reject (!r.present)
  failWhen .fault (r.value.length ≠ 8)
  let old := Layout.be64.read r.value
  let new ← orFail .reject (ckAdd old delta)
  return supplySetEff sel old new

def utxoDeleteEff (hash : Hash) (key : Digest) (r : ReadRes) : EffectIn :=
  effectIn CoreOp.utxdel kindDelete preExistsVhash 0 (valueHash hash r.value) key.val []
    (length_digest_lt key) (by decide : 0 < 2 ^ 32)

def utxoDeletes (hash : Hash) (ins : List Digest) (reads : List ReadRes) : List EffectIn :=
  List.zipWith (utxoDeleteEff hash) ins reads

/-- `dna_effect_result_encode`, whose failure is a fault. -/
def resultEncode (effects : List EffectIn) (resCap : Nat) : Except Failure Bytes :=
  orFail .fault (encode effects resCap)

end DnaLedger.Native
