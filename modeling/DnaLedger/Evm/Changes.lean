import DnaLedger.Evm.Snapshots

/-!
# The change set

Model of `evm_state_visit_changes`: the records are walked in the order of their keys, and what the
committed transactions changed is handed to a visitor, which takes everything here.
-/

namespace DnaLedger.Evm

/-- `evm_account_change_t`.  A code that did not change is handed over as no bytes. -/
structure AccountChange where
  addr : Word
  deleted : Bool
  nonce : UInt64
  balance : Word
  codeHash : Word
  codeChanged : Bool
  code : Bytes
  storageCleared : Bool

/-- A call of `account` and the calls of `storage` that follow it. -/
structure Change where
  account : AccountChange
  slots : List (Word × Word)

namespace State

/-- A call of the backend in the walk, where every refusal is a fault; `calls` counts them. -/
def visitAsk (be : Backend) (calls : Nat) (query : Query) : Except Stop Nat :=
  match be.refuses calls query with
  | none => .ok (calls + 1)
  | some _ => .error .fault

/-- Whether `visit_slots` reports a slot. -/
def visitSlot (be : Backend) (addr : Word) (cleared : Bool) (key : Word) (s : SlotRec)
    (val : Word) (calls : Nat) : Except Stop (Bool × Nat) :=
  if cleared then .ok (decide (val ≠ 0), calls)
  else
    match s.pre with
    | some base => .ok (decide (base ≠ val), calls)
    | none => do
        let calls ← visitAsk be calls (.storage addr key)
        .ok (decide (be.getStorage addr key ≠ val), calls)

def visitSlots (be : Backend) (addr : Word) (cleared : Bool) :
    List (Word × SlotRec) → Nat → Except Stop (List (Word × Word) × Nat)
  | [], calls => .ok ([], calls)
  | (key, s) :: rest, calls =>
    match s.blk with
    | none => visitSlots be addr cleared rest calls
    | some val => do
        let (report, calls) ← visitSlot be addr cleared key s val calls
        let (reported, calls) ← visitSlots be addr cleared rest calls
        .ok (if report then (key, val) :: reported else reported, calls)

/-- The account before the block, in `visit_addrs`. -/
def visitPre (be : Backend) (addr : Word) (a : AddrRec) (calls : Nat) :
    Except Stop (Option Acct × Nat) :=
  match a.pre with
  | some pre => .ok (pre.value, calls)
  | none => do
      let calls ← visitAsk be calls (.account addr)
      let account := be.getAccount addr
      .ok (if account.present then
          some ⟨account.nonce, account.balance, account.codeHash, none⟩
        else none, calls)

/-- The account change that `visit_addrs` reports. -/
def accountChange (addr : Word) (a : AddrRec) (pre : Option Acct) : Except Stop AccountChange :=
  let preHash := (pre.map Acct.codeHash).getD emptyCodeHash
  match a.blkAcct.getD pre with
  | none => .ok ⟨addr, true, 0, 0, emptyCodeHash, false, [], a.blkCleared⟩
  | some fin =>
    if fin.codeHash = preHash then
      .ok ⟨addr, false, fin.nonce, fin.balance, fin.codeHash, false, [], a.blkCleared⟩
    else if fin.codeHash = emptyCodeHash then
      .ok ⟨addr, false, fin.nonce, fin.balance, fin.codeHash, true, [], a.blkCleared⟩
    else
      match fin.code with
      | none => .error .fault
      | some code =>
        .ok ⟨addr, false, fin.nonce, fin.balance, fin.codeHash, true, code, a.blkCleared⟩

/-- The record has something of the block. -/
def dirty (a : AddrRec) : Bool :=
  a.blkAcct.isSome || a.blkCleared || decide (0 < a.blkNwrites)

def visitAddrs (be : Backend) :
    List (Word × AddrRec) → Nat → Except Stop (List Change × Nat)
  | [], calls => .ok ([], calls)
  | (addr, a) :: rest, calls =>
    if dirty a then do
      let (pre, calls) ← visitPre be addr a calls
      let account ← accountChange addr a pre
      let (slots, calls) ← visitSlots be addr a.blkCleared a.slots.entries calls
      let (changes, calls) ← visitAddrs be rest calls
      .ok (⟨account, slots⟩ :: changes, calls)
    else visitAddrs be rest calls

def visitChanges (be : Backend) (st : State) : Except Stop (List Change) := do
  let (changes, _) ← visitAddrs be st.records.entries st.calls
  .ok changes

end State

structure Row where
  nonce : UInt64
  balance : Word
  codeHash : Word

def Acct.row (acct : Acct) : Row :=
  ⟨acct.nonce, acct.balance, acct.codeHash⟩

@[ext]
structure World where
  accounts : Word → Option Row
  codes : Word → Bytes
  slots : Word → Word → Word

def World.code (world : World) (addr : Word) : Bytes :=
  match world.accounts addr with
  | none => []
  | some row => if row.codeHash = emptyCodeHash then [] else world.codes addr

def Backend.world (be : Backend) : World where
  accounts addr :=
    let account := be.getAccount addr
    if account.present then some ⟨account.nonce, account.balance, account.codeHash⟩ else none
  codes := be.getCode
  slots := be.getStorage

theorem Backend.before_row (be : Backend) (addr : Word) :
    (be.before addr).map Acct.row = be.world.accounts addr := by
  simp only [before, world]
  split <;> rfl

namespace World

variable (world : World)

/-- Replace or delete the account, and clear its storage when so marked. -/
def applyAccount (change : AccountChange) : World where
  accounts := Function.update world.accounts change.addr
    (if change.deleted then none else some ⟨change.nonce, change.balance, change.codeHash⟩)
  codes := if change.codeChanged then Function.update world.codes change.addr change.code
    else world.codes
  slots := if change.storageCleared then Function.update world.slots change.addr fun _ => 0
    else world.slots

def applySlots (addr : Word) (slots : List (Word × Word)) : World :=
  slots.foldl (fun world slot => { world with slots := setAt world.slots addr slot.1 slot.2 }) world

def apply (change : Change) : World :=
  (world.applyAccount change.account).applySlots change.account.addr change.slots

def applyAll (changes : List Change) : World :=
  changes.foldl apply world

end World

end DnaLedger.Evm
