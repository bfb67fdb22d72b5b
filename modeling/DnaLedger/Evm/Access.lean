import DnaLedger.Evm.State

/-!
# The functions of the state

The rest of `evm_state.c`: what reads and writes several records is a program over the
functions that read and write one.  `Call` lists the functions that the interpreter and the
callers of the engine use.
-/

namespace DnaLedger.Evm

open Command

abbrev Access (α : Type) : Type :=
  Prog Prim Prim.Result Stop α

namespace Access

def prim (command : Prim) : Access command.Result :=
  Prog.perform command

def getAccountOptional (addr : Word) : Access (Option Acct) :=
  prim (.getAccountOptional addr)

section

variable (addr : Word)

def getAccount : Access Acct := do
  let found ← getAccountOptional addr
  pure (found.getD .empty)

def codeAt : Access Bytes := do
  let acct ← getAccount addr
  prim (.getCode addr acct)

def accountExists : Access Bool := do
  let found ← getAccountOptional addr
  pure found.isSome

def accountDeployable : Access Bool := do
  let acct ← getAccount addr
  if acct.nonce ≠ 0 ∨ acct.codeHash ≠ emptyCodeHash then pure false
  else do
    let has : Bool ← prim (.accountHasStorage addr)
    pure (!has)

def isAccountAlive : Access Bool := do
  let found ← getAccountOptional addr
  match found with
  | none => pure false
  | some acct => pure (!acct.isEmpty)

end

def setStorage (addr key val : Word) : Access Unit := do
  let found ← getAccountOptional addr
  if found.isNone then throw .fault
  else prim (.storeSlot addr key val)

def destroyAccount (addr : Word) : Access Unit := do
  let acct ← getAccount addr
  if acct.balance ≠ 0 then prim (.addDestroyed acct.balance) else pure ()
  prim (.destroyStorage addr)
  prim (.setAccount addr none)

def modifyCommit (addr : Word) (acct : Acct) : Access Unit := do
  prim (.setAccount addr (some acct))
  if acct.isEmpty then destroyAccount addr else pure ()

/-- A balance that is too low or too high is a fault. -/
def moveEther (source target amount : Word) : Access Unit := do
  let acct ← getAccount source
  if acct.balance < amount then throw .fault
  else do
    modifyCommit source { acct with balance := acct.balance - amount }
    let acct ← getAccount target
    if 2 ^ 256 ≤ acct.balance.toNat + amount.toNat then throw .fault
    else modifyCommit target { acct with balance := acct.balance + amount }

def createEther (addr amount : Word) : Access Unit := do
  let acct ← getAccount addr
  if 2 ^ 256 ≤ acct.balance.toNat + amount.toNat then throw .fault
  else modifyCommit addr { acct with balance := acct.balance + amount }

def setBalance (addr amount : Word) : Access Unit := do
  let acct ← getAccount addr
  modifyCommit addr { acct with balance := amount }

def incrementNonce (addr : Word) : Access Unit := do
  let acct ← getAccount addr
  if acct.nonce.toNat = 2 ^ 64 - 1 then throw .fault
  else modifyCommit addr { acct with nonce := acct.nonce + 1 }

def setCode (keccak : Bytes → Word) (addr : Word) (code : Bytes) : Access Unit := do
  let hash := keccak code
  let acct ← getAccount addr
  modifyCommit addr { acct with
    codeHash := hash, code := if hash = emptyCodeHash then none else some code }

def destroyMarked : Access Unit := do
  let marked : List Word ← prim .marked
  marked.forM destroyAccount

end Access

/-- The functions of the state that other modules call. -/
inductive Call where
  | getAccountOptional (addr : Word)
  | peekAccount (addr : Word)
  | getAccount (addr : Word)
  | getCode (addr : Word) (acct : Acct)
  | getStorage (addr key : Word)
  | getStorageOriginal (addr key : Word)
  | getTransient (addr key : Word)
  | accountExists (addr : Word)
  | accountDeployable (addr : Word)
  | isAccountAlive (addr : Word)
  | isCreated (addr : Word)
  | blockHash (number : UInt64)
  | setAccount (addr : Word) (acct : Option Acct)
  | setStorage (addr key val : Word)
  | destroyAccount (addr : Word)
  | destroyStorage (addr : Word)
  | markAccountCreated (addr : Word)
  | setTransient (addr key val : Word)
  | moveEther (source target amount : Word)
  | createEther (addr amount : Word)
  | setBalance (addr amount : Word)
  | incrementNonce (addr : Word)
  | setCode (addr : Word) (code : Bytes)
  | accessAddr (addr : Word)
  | accessSlot (addr key : Word)
  | addToDelete (addr : Word)
  | addLog (log : Log)
  | addDestroyed (amount : Word)
  | addTicket (intentId : Bytes) (amount : Word) (destFp : Bytes)
  | destroyMarked

@[reducible] def Call.Result : Call → Type
  | getAccountOptional _ | peekAccount _ => Option Acct
  | getAccount _ => Acct
  | getCode _ _ => Bytes
  | getStorage _ _ | getStorageOriginal _ _ | getTransient _ _ => Word
  | accountExists _ | accountDeployable _ | isAccountAlive _ | isCreated _ => Bool
  | accessAddr _ | accessSlot _ _ => Bool
  | blockHash _ => Option Word
  | setAccount _ _ | setStorage _ _ _ | destroyAccount _ | destroyStorage _
  | markAccountCreated _ | setTransient _ _ _ | moveEther _ _ _ | createEther _ _
  | setBalance _ _ | incrementNonce _ | setCode _ _ | addToDelete _ | addLog _
  | addDestroyed _ | addTicket _ _ _ | destroyMarked => Unit

def Call.prog (keccak : Bytes → Word) : (call : Call) → Access call.Result
  | getAccountOptional addr => Access.getAccountOptional addr
  | peekAccount addr => Access.prim (.peekAccount addr)
  | getAccount addr => Access.getAccount addr
  | getCode addr acct => Access.prim (.getCode addr acct)
  | getStorage addr key => Access.prim (.getStorage addr key)
  | getStorageOriginal addr key => Access.prim (.getStorageOriginal addr key)
  | getTransient addr key => Access.prim (.getTransient addr key)
  | accountExists addr => Access.accountExists addr
  | accountDeployable addr => Access.accountDeployable addr
  | isAccountAlive addr => Access.isAccountAlive addr
  | isCreated addr => Access.prim (.isCreated addr)
  | blockHash number => Access.prim (.blockHash number)
  | setAccount addr acct => Access.prim (.setAccount addr acct)
  | setStorage addr key val => Access.setStorage addr key val
  | destroyAccount addr => Access.destroyAccount addr
  | destroyStorage addr => Access.prim (.destroyStorage addr)
  | markAccountCreated addr => Access.prim (.markAccountCreated addr)
  | setTransient addr key val => Access.prim (.setTransient addr key val)
  | moveEther source target amount => Access.moveEther source target amount
  | createEther addr amount => Access.createEther addr amount
  | setBalance addr amount => Access.setBalance addr amount
  | incrementNonce addr => Access.incrementNonce addr
  | setCode addr code => Access.setCode keccak addr code
  | accessAddr addr => Access.prim (.accessAddr addr)
  | accessSlot addr key => Access.prim (.accessSlot addr key)
  | addToDelete addr => Access.prim (.addToDelete addr)
  | addLog log => Access.prim (.addLog log)
  | addDestroyed amount => Access.prim (.addDestroyed amount)
  | addTicket intentId amount destFp => Access.prim (.addTicket intentId amount destFp)
  | destroyMarked => Access.destroyMarked

end DnaLedger.Evm
