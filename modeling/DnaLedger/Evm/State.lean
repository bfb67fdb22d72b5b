import DnaLedger.Foundation.Command
import DnaLedger.Foundation.Layout
import DnaLedger.Foundation.SearchTree

/-!
# The journaled state of the EVM

Model of `evm_state.c`: an overlay over a read-only backend, with one record for each address and
each storage slot. Addresses, keys, hashes and values are 256-bit words, and `memcmp` on their
big-endian bytes is their order. A record that was never changed or cached reads as zeros.
-/

namespace DnaLedger.Evm

open Command SearchTree

abbrev Word := BitVec 256

instance linearOrderWord : LinearOrder Word where
  le_refl word := BitVec.le_refl word
  le_trans _ _ _ first second := BitVec.le_trans first second
  le_antisymm _ _ first second := BitVec.le_antisymm first second
  le_total first second := BitVec.le_total first second
  lt_iff_le_not_ge first second := by
    simp only [BitVec.le_def, BitVec.lt_def]
    omega
  toDecidableLE := inferInstance
  toDecidableLT := inferInstance
  toDecidableEq := inferInstance

/-- What the engine returns instead of a value; a used-up counter is kept apart from other
faults. -/
inductive Stop where
  | budget
  | fault
  | exhausted
  deriving DecidableEq

def emptyCodeHash : Word :=
  0xc5d2460186f7233c927e7db2dcc703c0e500b653ca82273b7bfad8045d85a470

/-- `evm_acct_t`. Without `code`, a hash other than the empty one stands for the code of the
backend. -/
structure Acct where
  nonce : UInt64
  balance : Word
  codeHash : Word
  code : Option Bytes
  deriving DecidableEq

def Acct.empty : Acct :=
  ⟨0, 0, emptyCodeHash, none⟩

def Acct.isEmpty (acct : Acct) : Bool :=
  acct.nonce = 0 && acct.balance = 0 && acct.codeHash = emptyCodeHash

/-- `evm_account_t`: what the backend says about an address. -/
structure Account where
  present : Bool
  nonce : UInt64
  balance : Word
  codeHash : Word
  codeSize : UInt32

inductive Query where
  | account (addr : Word)
  | code (addr : Word)
  | storage (addr key : Word)
  | storageOf (addr : Word)
  | blockHash (number : UInt64)

/-- `evm_backend_t`. Whether a call is refused may depend on the calls before it, its answer does
not. -/
structure Backend where
  refuses : Nat → Query → Option Stop
  getAccount : Word → Account
  getCode : Word → Bytes
  getStorage : Word → Word → Word
  hasStorage : Word → Bool
  getBlockHash : UInt64 → Option Word

/-- `pre_exists`, `pre` and `pre_code_size`. -/
structure PreAcct where
  present : Bool
  acct : Acct
  codeSize : Nat
  deriving DecidableEq

/-- What `arec_load_pre` makes of the answer of the backend. -/
def PreAcct.ofAccount (account : Account) : Option PreAcct :=
  if account.present then
    if (account.codeHash = emptyCodeHash) ↔ account.codeSize = 0 then
      some ⟨true, ⟨account.nonce, account.balance, account.codeHash, none⟩, account.codeSize.toNat⟩
    else none
  else some ⟨false, .empty, 0⟩

/-- The account of the backend, if it exists. -/
def PreAcct.value (pre : PreAcct) : Option Acct :=
  if pre.present then some pre.acct else none

structure SlotTx where
  present : Bool
  warm : Bool
  gen : Nat
  val : Word
  transient : Word
  deriving DecidableEq

def SlotTx.blank : SlotTx :=
  ⟨false, false, 0, 0, 0⟩

/-- `pre_loaded` and `blk_has` say whether `pre` and `blk` are there. -/
structure SlotRec where
  pre : Option Word
  blk : Option Word
  txEpoch : Nat
  tx : SlotTx

def SlotRec.blank : SlotRec :=
  ⟨none, none, 0, .blank⟩

/-- The journaled part of an address: `tx_has_acct`, `tx_acct_none` and `tx` in one, with the flags
and counters. -/
structure AcctLayer where
  acct : Option (Option Acct)
  cleared : Bool
  warm : Bool
  toDelete : Bool
  gen : Nat
  nwrites : Nat
  deriving DecidableEq

/-- The part of an address that belongs to a transaction. -/
structure AcctTx extends AcctLayer where
  created : Bool
  slots : List Word

def AcctTx.blank : AcctTx :=
  ⟨⟨none, false, false, false, 0, 0⟩, false, []⟩

structure AddrRec where
  pre : Option PreAcct
  preCode : Option Bytes
  preHasStorage : Option Bool
  blkAcct : Option (Option Acct)
  blkCleared : Bool
  blkNwrites : Nat
  txEpoch : Nat
  tx : AcctTx
  slots : Map Word SlotRec

def AddrRec.blank : AddrRec :=
  ⟨none, none, none, none, false, 0, 0, .blank, .empty⟩

def AddrRec.slotOf (a : AddrRec) (key : Word) : SlotRec :=
  (a.slots.get? key).getD .blank

def AddrRec.putSlot (a : AddrRec) (key : Word) (s : SlotRec) : AddrRec :=
  { a with slots := a.slots.set key s }

structure Log where
  addr : Word
  topics : List Word
  data : Bytes
  deriving DecidableEq

structure Ticket where
  ticketId : Digest
  amountWei : Word
  destFp : Bytes
  deriving DecidableEq

/-- `evm_journal_entry`, one constructor for each kind. -/
inductive Entry where
  | acct (addr : Word) (old : Option (Option Acct))
  | clear (addr : Word) (cleared : Bool) (gen nwrites : Nat)
  | store (addr key : Word) (present : Bool) (gen : Nat) (val : Word) (nwrites : Nat)
  | transient (addr key : Word) (val : Word)
  | warmAddr (addr : Word)
  | warmSlot (addr key : Word)
  | delete (addr : Word)
  | log
  | weiDestroyed (val : Word)
  | ticket

/-- The journal has its last entry first; `calls` counts the calls of the backend. -/
structure State where
  records : Map Word AddrRec
  epoch : Nat
  genCounter : Nat
  journal : List Entry
  logs : List Log
  touched : List Word
  blockGasUsed : UInt64
  budgetHit : Bool
  weiDestroyed : Word
  tickets : List Ticket
  calls : Nat

def State.new : State :=
  ⟨.empty, 1, 0, [], [], [], 0, false, 0, [], 0⟩

namespace State

section

variable (st : State)

def recOf (addr : Word) : AddrRec :=
  (st.records.get? addr).getD .blank

def putRec (addr : Word) (a : AddrRec) : State :=
  { st with records := st.records.set addr a }

def txCur (addr : Word) : Bool :=
  (st.recOf addr).txEpoch = st.epoch

def stxCur (addr key : Word) : Bool :=
  ((st.recOf addr).slotOf key).txEpoch = st.epoch

/-- `arec_tx` -/
def touch (addr : Word) : State :=
  if st.txCur addr then st
  else
    { st.putRec addr { st.recOf addr with txEpoch := st.epoch, tx := .blank } with
      touched := st.touched ++ [addr] }

def updateTx (addr : Word) (change : AcctTx → AcctTx) : State :=
  st.putRec addr { st.recOf addr with tx := change (st.recOf addr).tx }

def updateSlotTx (addr key : Word) (change : SlotTx → SlotTx) : State :=
  st.putRec addr ((st.recOf addr).putSlot key
    { (st.recOf addr).slotOf key with tx := change ((st.recOf addr).slotOf key).tx })

/-- The end of `srec_tx`, for a slot of an earlier transaction. -/
def startSlot (addr key : Word) : State :=
  st.putRec addr
    { (st.recOf addr).putSlot key
        { (st.recOf addr).slotOf key with txEpoch := st.epoch, tx := .blank } with
      tx := { (st.recOf addr).tx with slots := (st.recOf addr).tx.slots ++ [key] } }

/-- `srec_tx` -/
def touchSlot (addr key : Word) : State :=
  if (st.touch addr).stxCur addr key then st.touch addr
  else (st.touch addr).startSlot addr key

def push (entry : Entry) : State :=
  { st with journal := entry :: st.journal }

end

/-! ## Reads -/

section

variable (be : Backend) (st : State)

/-- A call of the backend, with `be_rc`. -/
def ask (query : Query) : Except Stop Unit × State :=
  match be.refuses st.calls query with
  | none => (.ok (), { st with calls := st.calls + 1 })
  | some stop =>
    (.error stop, { st with
      calls := st.calls + 1, budgetHit := st.budgetHit || stop = .budget })

/-- A call of the backend, with `be_rc_peek`: `budget_hit` is left alone. -/
def peek (query : Query) : Except Stop Unit × State :=
  match be.refuses st.calls query with
  | none => (.ok (), { st with calls := st.calls + 1 })
  | some stop => (.error stop, { st with calls := st.calls + 1 })

def loadPre (addr : Word) : Except Stop PreAcct × State :=
  match (st.recOf addr).pre with
  | some pre => (.ok pre, st)
  | none =>
    match st.ask be (.account addr) with
    | (.error stop, st) => (.error stop, st)
    | (.ok _, st) =>
      match PreAcct.ofAccount (be.getAccount addr) with
      | none => (.error .fault, st)
      | some pre => (.ok pre, st.putRec addr { st.recOf addr with pre := some pre })

/-- The rest of `arec_load_code`, for an account that was loaded. -/
def loadCodeOf (addr : Word) (pre : PreAcct) : Except Stop Bytes × State :=
  if pre.present = false ∨ pre.codeSize = 0 then
    (.ok [], st.putRec addr { st.recOf addr with preCode := some [] })
  else
    match st.ask be (.code addr) with
    | (.error stop, st) => (.error stop, st)
    | (.ok _, st) =>
      if (be.getCode addr).length ≠ pre.codeSize then (.error .fault, st)
      else
        (.ok (be.getCode addr),
          st.putRec addr { st.recOf addr with preCode := some (be.getCode addr) })

def loadCode (addr : Word) (pre : PreAcct) : Except Stop Bytes × State :=
  match (st.recOf addr).preCode with
  | some code => (.ok code, st)
  | none => st.loadCodeOf be addr pre

/-- `srec_load_pre` -/
def loadSlot (addr key : Word) : Except Stop Word × State :=
  match ((st.recOf addr).slotOf key).pre with
  | some pre => (.ok pre, st)
  | none =>
    match st.ask be (.storage addr key) with
    | (.error stop, st) => (.error stop, st)
    | (.ok _, st) =>
      (.ok (be.getStorage addr key), st.putRec addr ((st.recOf addr).putSlot key
        { (st.recOf addr).slotOf key with pre := some (be.getStorage addr key) }))

/-- Without an account, the source fills in the empty one. -/
def getAccountOptional (addr : Word) : Except Stop (Option Acct) × State :=
  match (if st.txCur addr then (st.recOf addr).tx.acct else none), (st.recOf addr).blkAcct with
  | some write, _ => (.ok write, st)
  | none, some write => (.ok write, st)
  | none, none =>
    match st.loadPre be addr with
    | (.error stop, st) => (.error stop, st)
    | (.ok pre, st) => (.ok pre.value, st)

/-- `evm_st_peek_account`, which fills no cache. -/
def peekAccount (addr : Word) : Except Stop (Option Acct) × State :=
  match (if st.txCur addr then (st.recOf addr).tx.acct else none), (st.recOf addr).blkAcct with
  | some write, _ => (.ok write, st)
  | none, some write => (.ok write, st)
  | none, none =>
    match (st.recOf addr).pre with
    | some pre => (.ok pre.value, st)
    | none =>
      match st.peek be (.account addr) with
      | (.error stop, st) => (.error stop, st)
      | (.ok _, st) =>
        match PreAcct.ofAccount (be.getAccount addr) with
        | none => (.error .fault, st)
        | some pre => (.ok pre.value, st)

def getCode (addr : Word) (acct : Acct) : Except Stop Bytes × State :=
  if acct.codeHash = emptyCodeHash then (.ok [], st)
  else
    match acct.code with
    | some code => (.ok code, st)
    | none =>
      match st.loadPre be addr with
      | (.error stop, st) => (.error stop, st)
      | (.ok pre, st) =>
        match st.loadCode be addr pre with
        | (.error stop, st) => (.error stop, st)
        | (.ok code, st) =>
          if pre.present = false ∨ pre.acct.codeHash ≠ acct.codeHash then (.error .fault, st)
          else (.ok code, st)

def getStorageBelow (addr key : Word) : Except Stop Word × State :=
  match ((st.recOf addr).slotOf key).blk with
  | some val => (.ok val, st)
  | none => if (st.recOf addr).blkCleared then (.ok 0, st) else st.loadSlot be addr key

def txSlot (addr key : Word) : Option Word :=
  if st.txCur addr then
    let s := (st.recOf addr).slotOf key
    if st.stxCur addr key ∧ s.tx.present ∧ s.tx.gen = (st.recOf addr).tx.gen then some s.tx.val
    else if (st.recOf addr).tx.cleared then some 0
    else none
  else none

def getStorage (addr key : Word) : Except Stop Word × State :=
  match st.txSlot addr key with
  | some val => (.ok val, st)
  | none => st.getStorageBelow be addr key

def isCreated (addr : Word) : Bool :=
  st.txCur addr && (st.recOf addr).tx.created

def getStorageOriginal (addr key : Word) : Except Stop Word × State :=
  if st.isCreated addr then (.ok 0, st) else st.getStorageBelow be addr key

def getTransient (addr key : Word) : Word :=
  if st.txCur addr ∧ st.stxCur addr key then ((st.recOf addr).slotOf key).tx.transient else 0

def accountHasStorage (addr : Word) : Except Stop Bool × State :=
  if st.txCur addr ∧ 0 < (st.recOf addr).tx.nwrites then (.ok true, st)
  else if 0 < (st.recOf addr).blkNwrites then (.ok true, st)
  else
    match (st.recOf addr).preHasStorage with
    | some has => (.ok has, st)
    | none =>
      match st.ask be (.storageOf addr) with
      | (.error stop, st) => (.error stop, st)
      | (.ok _, st) =>
        (.ok (be.hasStorage addr),
          st.putRec addr { st.recOf addr with preHasStorage := some (be.hasStorage addr) })

end

def blockHash (be : Backend) (st : State) (number : UInt64) : Except Stop (Option Word) × State :=
  match st.ask be (.blockHash number) with
  | (.error stop, st) => (.error stop, st)
  | (.ok _, st) => (.ok (be.getBlockHash number), st)

section

variable (st : State)

def setAccount (addr : Word) (acct : Option Acct) : State :=
  let st := st.touch addr
  (st.push (.acct addr (st.recOf addr).tx.acct)).updateTx addr fun tx =>
    { tx with acct := some acct }

/-- `evm_st_set_storage`, once the account is known to exist. -/
def storeSlot (addr key val : Word) : State :=
  let st := st.touchSlot addr key
  let a := (st.recOf addr).tx
  let s := ((st.recOf addr).slotOf key).tx
  let st := st.push (.store addr key s.present s.gen s.val a.nwrites)
  let st := st.updateTx addr fun tx =>
    { tx with nwrites := if s.present ∧ s.gen = a.gen then a.nwrites else a.nwrites + 1 }
  st.updateSlotTx addr key fun tx => { tx with present := true, gen := a.gen, val := val }

/-- `UINT64_MAX`, where the counters of the state stop. -/
def counterMax : Nat := 2 ^ 64 - 1

def destroyStorage (addr : Word) : Except Stop Unit × State :=
  let st := st.touch addr
  if st.genCounter = counterMax then (.error .exhausted, st)
  else
    let a := (st.recOf addr).tx
    let st := { st.push (.clear addr a.cleared a.gen a.nwrites) with
      genCounter := st.genCounter + 1 }
    (.ok (), st.updateTx addr fun tx =>
      { tx with cleared := true, gen := st.genCounter, nwrites := 0 })

def markAccountCreated (addr : Word) : State :=
  (st.touch addr).updateTx addr fun tx => { tx with created := true }

def setTransient (addr key val : Word) : State :=
  let st := st.touchSlot addr key
  (st.push (.transient addr key ((st.recOf addr).slotOf key).tx.transient)).updateSlotTx addr key
    fun tx => { tx with transient := val }

/-- The flag is `was_warm`. -/
def accessAddr (addr : Word) : Bool × State :=
  if st.txCur addr ∧ (st.recOf addr).tx.warm then (true, st)
  else
    (false, ((st.touch addr).push (.warmAddr addr)).updateTx addr fun tx =>
      { tx with warm := true })

def accessSlot (addr key : Word) : Bool × State :=
  if st.txCur addr ∧ st.stxCur addr key ∧ ((st.recOf addr).slotOf key).tx.warm then (true, st)
  else
    (false, ((st.touchSlot addr key).push (.warmSlot addr key)).updateSlotTx addr key fun tx =>
      { tx with warm := true })

def addToDelete (addr : Word) : State :=
  let st := st.touch addr
  if (st.recOf addr).tx.toDelete then st
  else (st.push (.delete addr)).updateTx addr fun tx => { tx with toDelete := true }

def addLog (log : Log) : Except Stop Unit × State :=
  if 4 < log.topics.length then (.error .fault, st)
  else (.ok (), { st.push .log with logs := st.logs ++ [log] })

end

def addDestroyed (nodusProfile : Bool) (st : State) (amount : Word) : Except Stop Unit × State :=
  let sum := st.weiDestroyed.toNat + amount.toNat
  if 2 ^ 256 ≤ sum ∧ nodusProfile then (.error .fault, st)
  else
    (.ok (), { st.push (.weiDestroyed st.weiDestroyed) with
      weiDestroyed := if 2 ^ 256 ≤ sum then BitVec.allOnes 256 else BitVec.ofNat 256 sum })

/-- `NDS.EVMTKT.v1` and three zero bytes. -/
def ticketDomain : Bytes :=
  [78, 68, 83, 46, 69, 86, 77, 84, 75, 84, 46, 118, 49, 0, 0, 0]

def addTicket (sha3 : Hash) (st : State) (intentId : Bytes) (amount : Word) (destFp : Bytes) :
    Except Stop Unit × State :=
  if 2 ^ 32 - 1 ≤ st.tickets.length then (.error .fault, st)
  else
    (.ok (), { st.push .ticket with
      tickets := st.tickets ++
        [⟨sha3 (ticketDomain ++ intentId ++ bigEndian 4 st.tickets.length), amount, destFp⟩] })

def mark (st : State) : Nat :=
  st.journal.length

/-- One round of the loop of `evm_st_revert`, for an entry that was taken off the journal. -/
def undo (st : State) : Entry → State
  | .acct addr old => st.updateTx addr fun tx => { tx with acct := old }
  | .clear addr cleared gen nwrites => st.updateTx addr fun tx =>
    { tx with cleared := cleared, gen := gen, nwrites := nwrites }
  | .store addr key present gen val nwrites =>
    (st.updateSlotTx addr key fun tx =>
      { tx with present := present, gen := gen, val := val }).updateTx addr fun tx =>
        { tx with nwrites := nwrites }
  | .transient addr key val => st.updateSlotTx addr key fun tx => { tx with transient := val }
  | .warmAddr addr => st.updateTx addr fun tx => { tx with warm := false }
  | .warmSlot addr key => st.updateSlotTx addr key fun tx => { tx with warm := false }
  | .delete addr => st.updateTx addr fun tx => { tx with toDelete := false }
  | .log => { st with logs := st.logs.dropLast }
  | .weiDestroyed val => { st with weiDestroyed := val }
  | .ticket => { st with tickets := st.tickets.dropLast }

/-- The last entries of the journal are undone, the last one first. -/
def undoLast (st : State) : Nat → State
  | 0 => st
  | n + 1 =>
    match st.journal with
    | [] => st
    | entry :: rest => (undo { st with journal := rest } entry).undoLast n

variable (st : State)

def revert (mark : Nat) : State :=
  st.undoLast (st.journal.length - mark)

/-- The touched addresses that `evm_st_destroy_marked` destroys. -/
def marked : List Word :=
  st.touched.filter fun addr => (st.recOf addr).tx.toDelete

/-- A slot in the inner loop of `evm_st_commit_tx`. -/
def commitSlot (a : AddrRec) (key : Word) : AddrRec :=
  let s := a.slotOf key
  if s.tx.present ∧ s.tx.gen = a.tx.gen then
    { a.putSlot key { s with blk := some s.tx.val } with
      blkNwrites := if s.blk.isSome then a.blkNwrites else a.blkNwrites + 1 }
  else a

def dropBlock (a : AddrRec) : AddrRec :=
  { a with slots := a.slots.mapValues fun s => { s with blk := none } }

/-- An address in the loop of `evm_st_commit_tx`. -/
def commitRec (a : AddrRec) : AddrRec :=
  let a := { a with blkAcct := a.tx.acct.or a.blkAcct }
  let a := if a.tx.cleared then
      { (if 0 < a.blkNwrites then dropBlock a else a) with blkCleared := true, blkNwrites := 0 }
    else a
  a.tx.slots.foldl commitSlot a

/-- The end of `evm_st_commit_tx` and `evm_st_abort_tx`. -/
def nextTx : Except Stop Unit × State :=
  if st.epoch = counterMax then (.error .exhausted, st)
  else
    (.ok (), { st with
      epoch := st.epoch + 1, touched := [], journal := [], logs := [], tickets := [],
      weiDestroyed := 0 })

def commitTx : Except Stop Unit × State :=
  nextTx (st.touched.foldl (fun st addr => st.putRec addr (commitRec (st.recOf addr))) st)

def abortTx : Except Stop Unit × State :=
  (st.revert 0).nextTx

end State

/-- The functions that read and write records. -/
inductive Prim where
  | getAccountOptional (addr : Word)
  | peekAccount (addr : Word)
  | getCode (addr : Word) (acct : Acct)
  | getStorage (addr key : Word)
  | getStorageOriginal (addr key : Word)
  | getTransient (addr key : Word)
  | accountHasStorage (addr : Word)
  | isCreated (addr : Word)
  | marked
  | blockHash (number : UInt64)
  | setAccount (addr : Word) (acct : Option Acct)
  | storeSlot (addr key val : Word)
  | destroyStorage (addr : Word)
  | markAccountCreated (addr : Word)
  | setTransient (addr key val : Word)
  | accessAddr (addr : Word)
  | accessSlot (addr key : Word)
  | addToDelete (addr : Word)
  | addLog (log : Log)
  | addDestroyed (amount : Word)
  | addTicket (intentId : Bytes) (amount : Word) (destFp : Bytes)

@[reducible] def Prim.Result : Prim → Type
  | getAccountOptional _ | peekAccount _ => Option Acct
  | getCode _ _ => Bytes
  | getStorage _ _ | getStorageOriginal _ _ | getTransient _ _ => Word
  | accountHasStorage _ | isCreated _ | accessAddr _ | accessSlot _ _ => Bool
  | marked => List Word
  | blockHash _ => Option Word
  | setAccount _ _ | storeSlot _ _ _ | destroyStorage _ | markAccountCreated _
  | setTransient _ _ _ | addToDelete _ | addLog _ | addDestroyed _ | addTicket _ _ _ => Unit

structure Host where
  be : Backend
  nodusProfile : Bool
  keccak : Bytes → Word
  sha3 : Hash

def State.handle (host : Host) : Handler Prim Prim.Result Stop State
  | .getAccountOptional addr, st => st.getAccountOptional host.be addr
  | .peekAccount addr, st => st.peekAccount host.be addr
  | .getCode addr acct, st => st.getCode host.be addr acct
  | .getStorage addr key, st => st.getStorage host.be addr key
  | .getStorageOriginal addr key, st => st.getStorageOriginal host.be addr key
  | .getTransient addr key, st => (.ok (st.getTransient addr key), st)
  | .accountHasStorage addr, st => st.accountHasStorage host.be addr
  | .isCreated addr, st => (.ok (st.isCreated addr), st)
  | .marked, st => (.ok st.marked, st)
  | .blockHash number, st => st.blockHash host.be number
  | .setAccount addr acct, st => (.ok (), st.setAccount addr acct)
  | .storeSlot addr key val, st => (.ok (), st.storeSlot addr key val)
  | .destroyStorage addr, st => st.destroyStorage addr
  | .markAccountCreated addr, st => (.ok (), st.markAccountCreated addr)
  | .setTransient addr key val, st => (.ok (), st.setTransient addr key val)
  | .accessAddr addr, st => (.ok (st.accessAddr addr).1, (st.accessAddr addr).2)
  | .accessSlot addr key, st => (.ok (st.accessSlot addr key).1, (st.accessSlot addr key).2)
  | .addToDelete addr, st => (.ok (), st.addToDelete addr)
  | .addLog log, st => st.addLog log
  | .addDestroyed amount, st => st.addDestroyed host.nodusProfile amount
  | .addTicket intentId amount destFp, st => st.addTicket host.sha3 intentId amount destFp

end DnaLedger.Evm
