import DnaLedger.Foundation.Table
import DnaLedger.Native.Adapter

/-!
# The store of the CORE domain

Model of the CORE adapter of `nodus_witness_rt_native.c`.  A table is a finite map from its
primary key to its row.  An integer column is a 64-bit pattern, and a pattern above
`INT64_MAX` is a negative number there.  A text ends at its first zero byte.
-/

namespace DnaLedger.Native

open DnaLedger.Effect

/-- A row of `utxo_set`. -/
structure UtxoRow where
  domainId : UInt32
  coin : UtxoRec
  deriving DecidableEq

/-- The row of `supply_tracking`. -/
structure SupplyRow where
  totalBurned : UInt64
  rewardPool : UInt64
  deriving DecidableEq

/-- A row of `tokens`. -/
structure TokenRow where
  name : Bytes
  symbol : Bytes
  decimals : UInt8
  supply : UInt64
  creatorFp : OwnerHex
  flags : UInt8
  blockHeight : UInt64
  deriving DecidableEq

structure CoreStore where
  utxoSet : Table Digest UtxoRow
  supplyTracking : Option SupplyRow
  evmReserve : Option UInt64
  tokens : Table Digest TokenRow
  names : Table Bytes NameRec

/-- A text up to its first zero byte. -/
def cText (text : Bytes) : Bytes := text.takeWhile (· != 0)

def nonNegative (value : UInt64) : Bool := value.toNat ≤ int64Max

def asDigest (key : Bytes) : Option Digest :=
  if fits : key.length = digestSize then some ⟨key, fits⟩ else none

def coreRowRecord (coin : UtxoRec) : Option UtxoRec :=
  if (cText coin.owner.val).length ≠ 128 then none
  else if nonNegative coin.amount && nonNegative coin.blockHeight &&
      nonNegative coin.unlockBlock then some coin
  else none

section

variable (store : CoreStore)

def coreUtxoFetch (dom : UInt32) (key : Bytes) :
    Option (Option UtxoRec) := do
  let id ← asDigest key
  match (store.utxoSet.lookup id).filter fun row => row.domainId == dom with
  | none => return none
  | some row => return some (← coreRowRecord row.coin)

/-- The record of `rtn_core_token_fetch`. -/
def coreTokenRecord (row : TokenRow) : Option TokenRec :=
  let name := cText row.name
  let sym := cText row.symbol
  if (cText row.creatorFp.val).length = 128 ∧ 1 ≤ name.length ∧ name.length ≤ tcNameMax ∧
      1 ≤ sym.length ∧ sym.length ≤ tcSymMax ∧ nonNegative row.supply ∧
      nonNegative row.blockHeight then
    some ⟨row.supply, row.decimals, row.flags, row.blockHeight, row.creatorFp,
      UInt8.ofNat name.length, padded tcNameMax name, UInt8.ofNat sym.length,
      padded tcSymMax sym⟩
  else none

def coreTokenFetch (key : Bytes) : Option (Option TokenRec) := do
  let id ← asDigest key
  match store.tokens.lookup id with
  | none => return none
  | some row => return some (← coreTokenRecord row)

def CoreStore.counter (sel : UInt8) : Option (Option UInt64) :=
  if sel = SupplySel.burned then some (store.supplyTracking.map SupplyRow.totalBurned)
  else if sel = SupplySel.pool then some (store.supplyTracking.map SupplyRow.rewardPool)
  else if sel = SupplySel.evmReserve then some store.evmReserve
  else none

def coreSupplyFetch (sel : UInt8) : Option (Option UInt64) := do
  match ← store.counter sel with
  | none => return none
  | some value => if nonNegative value then return some value else none

def coreNameFetch (key : Bytes) : Option (Option NameRec) :=
  if key.length < nameMinLen ∨ nameMaxLen < key.length then none
  else
    match store.names.lookup key with
    | none => some none
    | some row =>
      if 1 ≤ row.registeredHeight && nonNegative row.registeredHeight then some (some row)
      else none

def coreNameownFetch (key : Bytes) : Option (Option Bytes) :=
  if key.length ≠ digestSize then none
  else
    match store.names.entries.find? fun entry => entry.2.owner.val == key with
    | none => some none
    | some entry =>
      if nameMinLen ≤ entry.1.length ∧ entry.1.length ≤ nameMaxLen then some (some entry.1)
      else none

end

def selector : Bytes → Option UInt8
  | [sel] => some sel
  | _ => none

/-- What a row says about itself: a version and the hash of its bytes. -/
def factsOf (hash : Hash) (version : UInt64) (value : Bytes) : RowFacts :=
  ⟨version, valueHash hash value⟩

variable (hash : Hash) (dom : UInt32)

section

variable (store : CoreStore)

def coreProbe (opId : UInt32) (key : Bytes) : Option (Option RowFacts) :=
  if opId = CoreOp.utxo ∨ opId = CoreOp.utxdel then do
    let found ← coreUtxoFetch store dom key
    return found.map fun coin => factsOf hash coin.amount (utxoLayout.write coin)
  else if opId = CoreOp.supply then do
    let sel ← selector key
    let found ← coreSupplyFetch store sel
    return found.map fun value => factsOf hash value (Layout.be64.write value)
  else if opId = CoreOp.token then do
    let found ← coreTokenFetch store key
    return found.map fun token => factsOf hash token.supply (tokenLayout.write token)
  else if opId = CoreOp.name then do
    let found ← coreNameFetch store key
    return found.map fun name => factsOf hash name.registeredHeight (nameLayout.write name)
  else none

def coreRead (opId : UInt32) (key : Bytes) : Option (Option Bytes) :=
  if opId = CoreOp.utxo ∨ opId = CoreOp.utxdel then do
    let found ← coreUtxoFetch store dom key
    return found.map utxoLayout.write
  else if opId = CoreOp.supply then do
    let sel ← selector key
    let found ← coreSupplyFetch store sel
    return found.map Layout.be64.write
  else if opId = CoreOp.token then do
    let found ← coreTokenFetch store key
    return found.map tokenLayout.write
  else if opId = CoreOp.name then do
    let found ← coreNameFetch store key
    return found.map nameLayout.write
  else if opId = CoreOp.nameown then coreNameownFetch store key
  else none

def tokenRecOk (token : TokenRec) : Bool :=
  let nl := token.nameLen.toNat
  let sl := token.symLen.toNat
  1 ≤ nl && nl ≤ tcNameMax && 1 ≤ sl && sl ≤ tcSymMax &&
    tcTextOk (token.name.val.take nl) && tcTextOk (token.sym.val.take sl) &&
    (token.name.val.drop nl).all (· == 0) && (token.sym.val.drop sl).all (· == 0) &&
    hexLowerOk token.creator.val && nonNegative token.supply && nonNegative token.blockHeight &&
    token.decimals ≤ tcDecimalsMax && token.flags == 0

/-- An INSERT into `utxo_set`, whose primary key is the id of the coin. -/
def CoreStore.insertUtxo (id : Digest) (coin : UtxoRec) : Option CoreStore :=
  if id ∈ store.utxoSet then none
  else some { store with utxoSet := store.utxoSet.insert id ⟨dom, coin⟩ }

/-- A DELETE from `utxo_set` of exactly one row. -/
def CoreStore.deleteUtxo (id : Digest) : Option CoreStore :=
  match (store.utxoSet.lookup id).filter fun row => row.domainId == dom with
  | none => none
  | some _ => some { store with utxoSet := store.utxoSet.erase id }

/-- An UPDATE of exactly one counter. -/
def CoreStore.setCounter (sel : UInt8) (value : UInt64) : Option CoreStore :=
  if sel = SupplySel.burned then
    store.supplyTracking.map fun row =>
      { store with supplyTracking := some { row with totalBurned := value } }
  else if sel = SupplySel.pool then
    store.supplyTracking.map fun row =>
      { store with supplyTracking := some { row with rewardPool := value } }
  else if sel = SupplySel.evmReserve then
    store.evmReserve.map fun _ => { store with evmReserve := some value }
  else none

/-- An INSERT into `tokens`. -/
def CoreStore.insertToken (id : Digest) (token : TokenRec) : Option CoreStore :=
  if id ∈ store.tokens then none
  else
    some { store with
      tokens := store.tokens.insert id
        { name := token.name.val.take token.nameLen.toNat
          symbol := token.sym.val.take token.symLen.toNat
          decimals := token.decimals
          supply := token.supply
          creatorFp := token.creator
          flags := token.flags
          blockHeight := token.blockHeight } }

/-- An INSERT into `v2_names`, where names and owners are unique. -/
def CoreStore.insertName (name : Bytes) (row : NameRec) : Option CoreStore :=
  if name ∈ store.names ∨ store.names.entries.any (fun entry => entry.2.owner == row.owner) then
    none
  else some { store with names := store.names.insert name row }

def coreMutate (opId : UInt32) (kind : UInt8) (key value : Bytes) : Option CoreStore :=
  if opId = CoreOp.utxo ∧ kind = kindCreate then do
    let id ← asDigest key
    if value.length ≠ utxoRecLen then none
    else store.insertUtxo dom id (utxoLayout.read value)
  else if opId = CoreOp.utxdel ∧ kind = kindDelete then do
    let id ← asDigest key
    store.deleteUtxo dom id
  else if opId = CoreOp.supply ∧ kind = kindSet then do
    let sel ← selector key
    if value.length ≠ 8 then none
    else if !nonNegative (Layout.be64.read value) then none
    else store.setCounter sel (Layout.be64.read value)
  else if opId = CoreOp.token ∧ kind = kindCreate then do
    let id ← asDigest key
    if value.length ≠ tokenLayout.width then none
    else if !tokenRecOk (tokenLayout.read value) then none
    else store.insertToken id (tokenLayout.read value)
  else if opId = CoreOp.name ∧ kind = kindCreate then
    if value.length ≠ nameLayout.width ∨ !nameBytesOk key then none
    else
      let row := nameLayout.read value
      if row.registeredHeight < 1 || !nonNegative row.registeredHeight then none
      else store.insertName key row
  else none

end

def coreOps : List AdapterOp :=
  [⟨CoreOp.utxo, [kindCreate], [preAbsent], 64, 64, 284, 284⟩,
    ⟨CoreOp.utxdel, [kindDelete], [preExists, preExistsVersion, preExistsVhash], 64, 64, 0, 0⟩,
    ⟨CoreOp.supply, [kindSet], [preExists, preExistsVersion], 1, 1, 8, 8⟩,
    ⟨CoreOp.token, [kindCreate], [preAbsent], 64, 64, 188, 188⟩,
    ⟨CoreOp.name, [kindCreate], [preAbsent], nameMinLen, nameMaxLen, 72, 72⟩,
    ⟨CoreOp.nameown, [], [], 64, 64, 0, nameMaxLen⟩]

/-- `NODUS_RT_CORE_ADAPTER` for the rows of a domain. -/
def coreAdapter : Adapter CoreStore where
  ops := coreOps
  probe := coreProbe hash dom
  read := coreRead dom
  mutate := coreMutate dom

theorem selfcheck_coreOps : selfcheck coreOps = true := by decide

end DnaLedger.Native
