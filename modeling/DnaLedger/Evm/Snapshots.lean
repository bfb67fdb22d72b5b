import DnaLedger.Evm.Access
import DnaLedger.Evm.Reads

/-!
# A state of dictionaries

What the journaled state is meant to be: the writes of the running transaction are
dictionaries, a mark copies all of them, and a revert puts the copy back.  A backend answers
every read anew.

The accounts created in the transaction and the order of the touched addresses are not
copied.  The numbers of storage clears and of transactions only grow; where they would leave
64 bits both states fault.
-/

namespace DnaLedger.Evm

open Command

namespace Backend

/-- The number of calls before it does not change the answer to a call. -/
def Steady (be : Backend) : Prop :=
  ∀ calls query, be.refuses calls query = be.refuses 0 query

def call {α : Type} (be : Backend) (query : Query) (expected : Except Stop α) : Except Stop α :=
  match be.refuses 0 query with
  | none => expected
  | some stop => .error stop

theorem Answered.steady {α : Type} {be : Backend} (steady : be.Steady) {query : Query}
    {expected outcome : Except Stop α} (answered : be.Answered query expected outcome) :
    outcome = be.call query expected := by
  rcases answered with ⟨eq, calls, answered⟩ | ⟨calls, stop, refused, eq⟩
  · rw [call, ← steady calls, answered]
    exact eq
  · rw [call, ← steady calls, refused]
    exact eq

def loadCode (be : Backend) (addr : Word) (pre : PreAcct) : Except Stop Bytes :=
  if pre.present = false ∨ pre.codeSize = 0 then .ok []
  else be.call (.code addr) (be.preCode addr pre)

def codeOf (be : Backend) (addr : Word) (acct : Acct) : Except Stop Bytes :=
  if acct.codeHash = emptyCodeHash then .ok []
  else
    match acct.code with
    | some code => .ok code
    | none => do
        let pre ← be.call (.account addr) (be.preAcct addr)
        let code ← be.loadCode addr pre
        if pre.present = false ∨ pre.acct.codeHash ≠ acct.codeHash then .error .fault
        else .ok code

end Backend

/-- The writes of a transaction that a revert takes back. -/
@[ext]
structure Dicts where
  accountWrites : Word → Option (Option Acct)
  storageWrites : Word → Word → Option Word
  storageClears : Word → Bool
  transientStorage : Word → Word → Word
  accessedAddresses : Word → Bool
  accessedStorageKeys : Word → Word → Bool
  accountsToDelete : Word → Bool
  logs : List Log
  tickets : List Ticket
  weiDestroyed : Word

def Dicts.blank : Dicts where
  accountWrites _ := none
  storageWrites _ _ := none
  storageClears _ := false
  transientStorage _ _ := 0
  accessedAddresses _ := false
  accessedStorageKeys _ _ := false
  accountsToDelete _ := false
  logs := []
  tickets := []
  weiDestroyed := 0

def setAt {α : Type} (dict : Word → Word → α) (addr key : Word) (value : α) : Word → Word → α :=
  Function.update dict addr (Function.update (dict addr) key value)

theorem setAt_apply {α : Type} (dict : Word → Word → α) (addr key : Word) (value : α)
    (other key' : Word) :
    setAt dict addr key value other key' =
      if other = addr ∧ key' = key then value else dict other key' := by
  unfold setAt
  by_cases here : other = addr
  · subst here
    by_cases slot : key' = key
    · subst slot
      simp
    · simp [slot]
  · simp [here]

@[ext]
structure BlockDicts where
  accountWrites : Word → Option (Option Acct)
  storageWrites : Word → Word → Option Word
  storageClears : Word → Bool

def BlockDicts.blank : BlockDicts where
  accountWrites _ := none
  storageWrites _ _ := none
  storageClears _ := false

/-- The writes of a transaction come over those of the block. -/
def BlockDicts.incorporate (block : BlockDicts) (tx : Dicts) : BlockDicts where
  accountWrites addr := (tx.accountWrites addr).or (block.accountWrites addr)
  storageWrites addr key :=
    (tx.storageWrites addr key).or
      (if tx.storageClears addr then none else block.storageWrites addr key)
  storageClears addr := tx.storageClears addr || block.storageClears addr

/-- The state, with the dictionaries that the marks copied, the last mark first. -/
structure Snapshots where
  block : BlockDicts
  tx : Dicts
  saved : List Dicts
  createdAccounts : Word → Bool
  touched : List Word
  clears : Nat
  transactions : Nat

namespace Snapshots

def new : Snapshots :=
  ⟨.blank, .blank, [], fun _ => false, [], 0, 1⟩

variable (m : Snapshots)

def touch (addr : Word) : Snapshots :=
  { m with touched := if addr ∈ m.touched then m.touched else m.touched ++ [addr] }

def write (change : Dicts → Dicts) : Snapshots :=
  { m with tx := change m.tx }

def account (be : Backend) (addr : Word) : Except Stop (Option Acct) :=
  match (m.tx.accountWrites addr).or (m.block.accountWrites addr) with
  | some write => .ok write
  | none => be.call (.account addr) ((be.preAcct addr).map PreAcct.value)

/-- A slot before the running transaction. -/
def slotBelow (be : Backend) (addr key : Word) : Except Stop Word :=
  match m.block.storageWrites addr key with
  | some val => .ok val
  | none =>
    if m.block.storageClears addr then .ok 0
    else be.call (.storage addr key) (.ok (be.getStorage addr key))

def slot (be : Backend) (addr key : Word) : Except Stop Word :=
  match m.tx.storageWrites addr key with
  | some val => .ok val
  | none => if m.tx.storageClears addr then .ok 0 else m.slotBelow be addr key

open Classical in
/-- A slot was written, or the backend has one. -/
noncomputable def hasStorage (be : Backend) (addr : Word) : Except Stop Bool :=
  if ∃ key, m.tx.storageWrites addr key ≠ none ∨ m.block.storageWrites addr key ≠ none then
    .ok true
  else be.call (.storageOf addr) (.ok (be.hasStorage addr))

def put (addr : Word) (acct : Option Acct) : Snapshots :=
  (m.touch addr).write fun tx =>
    { tx with accountWrites := Function.update tx.accountWrites addr (some acct) }

def store (addr key val : Word) : Snapshots :=
  (m.touch addr).write fun tx =>
    { tx with storageWrites := setAt tx.storageWrites addr key (some val) }

def clear (addr : Word) : Except Stop Unit × Snapshots :=
  if m.clears = State.counterMax then (.error .exhausted, m.touch addr)
  else
    (.ok (), { (m.touch addr).write fun tx =>
        { tx with
          storageWrites := Function.update tx.storageWrites addr fun _ => none
          storageClears := Function.update tx.storageClears addr true } with
      clears := m.clears + 1 })

def log (log : Log) : Except Stop Unit × Snapshots :=
  if 4 < log.topics.length then (.error .fault, m)
  else (.ok (), m.write fun tx => { tx with logs := tx.logs ++ [log] })

def destroy (nodusProfile : Bool) (amount : Word) : Except Stop Unit × Snapshots :=
  let sum := m.tx.weiDestroyed.toNat + amount.toNat
  if 2 ^ 256 ≤ sum ∧ nodusProfile then (.error .fault, m)
  else
    (.ok (), m.write fun tx => { tx with
      weiDestroyed := if 2 ^ 256 ≤ sum then BitVec.allOnes 256 else BitVec.ofNat 256 sum })

def ticket (sha3 : Hash) (intentId : Bytes) (amount : Word) (destFp : Bytes) :
    Except Stop Unit × Snapshots :=
  if 2 ^ 32 - 1 ≤ m.tx.tickets.length then (.error .fault, m)
  else
    (.ok (), m.write fun tx => { tx with
      tickets := tx.tickets ++
        [⟨sha3 (State.ticketDomain ++ intentId ++ bigEndian 4 tx.tickets.length), amount,
          destFp⟩] })

noncomputable def handle (host : Host) : Handler Prim Prim.Result Stop Snapshots
  | .getAccountOptional addr, m | .peekAccount addr, m => (m.account host.be addr, m)
  | .getCode addr acct, m => (host.be.codeOf addr acct, m)
  | .getStorage addr key, m => (m.slot host.be addr key, m)
  | .getStorageOriginal addr key, m =>
    (if m.createdAccounts addr then .ok 0 else m.slotBelow host.be addr key, m)
  | .getTransient addr key, m => (.ok (m.tx.transientStorage addr key), m)
  | .accountHasStorage addr, m => (m.hasStorage host.be addr, m)
  | .isCreated addr, m => (.ok (m.createdAccounts addr), m)
  | .marked, m => (.ok (m.touched.filter m.tx.accountsToDelete), m)
  | .blockHash number, m =>
    (host.be.call (.blockHash number) (.ok (host.be.getBlockHash number)), m)
  | .setAccount addr acct, m => (.ok (), m.put addr acct)
  | .storeSlot addr key val, m => (.ok (), m.store addr key val)
  | .destroyStorage addr, m => m.clear addr
  | .markAccountCreated addr, m =>
    (.ok (), { m.touch addr with
      createdAccounts := Function.update m.createdAccounts addr true })
  | .setTransient addr key val, m =>
    (.ok (), (m.touch addr).write fun tx =>
      { tx with transientStorage := setAt tx.transientStorage addr key val })
  | .accessAddr addr, m =>
    (.ok (m.tx.accessedAddresses addr), (m.touch addr).write fun tx =>
      { tx with accessedAddresses := Function.update tx.accessedAddresses addr true })
  | .accessSlot addr key, m =>
    (.ok (m.tx.accessedStorageKeys addr key), (m.touch addr).write fun tx =>
      { tx with accessedStorageKeys := setAt tx.accessedStorageKeys addr key true })
  | .addToDelete addr, m =>
    (.ok (), (m.touch addr).write fun tx =>
      { tx with accountsToDelete := Function.update tx.accountsToDelete addr true })
  | .addLog log, m => m.log log
  | .addDestroyed amount, m => m.destroy host.nodusProfile amount
  | .addTicket intentId amount destFp, m => m.ticket host.sha3 intentId amount destFp

/-! ### The functions of the state -/

variable (host : Host)

/-- An account that became empty goes with its storage. -/
def settle (addr : Word) (acct : Acct) : Except Stop Unit × Snapshots :=
  if acct.isEmpty then
    match (m.put addr (some acct)).clear addr with
    | (.ok _, m) => (.ok (), m.put addr none)
    | failed => failed
  else (.ok (), m.put addr (some acct))

/-- Change an account, where the change is possible. -/
def modify (addr : Word) (change : Acct → Option Acct) : Except Stop Unit × Snapshots :=
  match m.account host.be addr with
  | .error stop => (.error stop, m)
  | .ok found =>
    match change (found.getD .empty) with
    | none => (.error .fault, m)
    | some acct => m.settle addr acct

def pay (amount : Word) (acct : Acct) : Option Acct :=
  if amount ≤ acct.balance then some { acct with balance := acct.balance - amount } else none

def receive (amount : Word) (acct : Acct) : Option Acct :=
  if acct.balance.toNat + amount.toNat < 2 ^ 256 then
    some { acct with balance := acct.balance + amount }
  else none

/-- What is left of the balance is destroyed, the storage is cleared, and the account is gone. -/
def remove (addr : Word) : Except Stop Unit × Snapshots :=
  match m.account host.be addr with
  | .error stop => (.error stop, m)
  | .ok found =>
    let balance := (found.getD .empty).balance
    match if balance = 0 then (.ok (), m) else m.destroy host.nodusProfile balance with
    | (.error stop, m) => (.error stop, m)
    | (.ok _, m) =>
      match m.clear addr with
      | (.ok _, m) => (.ok (), m.put addr none)
      | failed => failed

def removeAll (host : Host) : List Word → Snapshots → Except Stop Unit × Snapshots
  | [], m => (.ok (), m)
  | addr :: rest, m =>
    match m.remove host addr with
    | (.ok _, m) => removeAll host rest m
    | failed => failed

/-- What a function of the state does to the dictionaries. -/
noncomputable def perform : (call : Call) → Except Stop call.Result × Snapshots
  | .getAccountOptional addr | .peekAccount addr => (m.account host.be addr, m)
  | .getAccount addr => ((m.account host.be addr).map (·.getD .empty), m)
  | .getCode addr acct => handle host (.getCode addr acct) m
  | .getStorage addr key => (m.slot host.be addr key, m)
  | .getStorageOriginal addr key => handle host (.getStorageOriginal addr key) m
  | .getTransient addr key => (.ok (m.tx.transientStorage addr key), m)
  | .accountExists addr => ((m.account host.be addr).map Option.isSome, m)
  | .accountDeployable addr =>
    (do let found ← m.account host.be addr
        if found.all fun acct => acct.nonce = 0 ∧ acct.codeHash = emptyCodeHash then
          (m.hasStorage host.be addr).map not
        else .ok false, m)
  | .isAccountAlive addr => ((m.account host.be addr).map (·.any fun acct => !acct.isEmpty), m)
  | .isCreated addr => (.ok (m.createdAccounts addr), m)
  | .blockHash number => handle host (.blockHash number) m
  | .setAccount addr acct => (.ok (), m.put addr acct)
  | .setStorage addr key val =>
    match m.account host.be addr with
    | .error stop => (.error stop, m)
    | .ok none => (.error .fault, m)
    | .ok (some _) => (.ok (), m.store addr key val)
  | .destroyAccount addr => m.remove host addr
  | .destroyStorage addr => m.clear addr
  | .markAccountCreated addr => handle host (.markAccountCreated addr) m
  | .setTransient addr key val => handle host (.setTransient addr key val) m
  | .moveEther source target amount =>
    match m.modify host source (pay amount) with
    | (.ok _, m) => m.modify host target (receive amount)
    | failed => failed
  | .createEther addr amount => m.modify host addr (receive amount)
  | .setBalance addr amount => m.modify host addr fun acct => some { acct with balance := amount }
  | .incrementNonce addr => m.modify host addr fun acct =>
    if acct.nonce.toNat = 2 ^ 64 - 1 then none else some { acct with nonce := acct.nonce + 1 }
  | .setCode addr code => m.modify host addr fun acct => some { acct with
      codeHash := host.keccak code
      code := if host.keccak code = emptyCodeHash then none else some code }
  | .accessAddr addr => handle host (.accessAddr addr) m
  | .accessSlot addr key => handle host (.accessSlot addr key) m
  | .addToDelete addr => handle host (.addToDelete addr) m
  | .addLog log => m.log log
  | .addDestroyed amount => m.destroy host.nodusProfile amount
  | .addTicket intentId amount destFp => m.ticket host.sha3 intentId amount destFp
  | .destroyMarked => removeAll host (m.touched.filter m.tx.accountsToDelete) m

theorem run_prim (command : Prim) :
    (Access.prim command).run (handle host) m = handle host command m :=
  Prog.run_perform _ _ _

theorem run_getAccount {α : Type} (addr : Word) (rest : Acct → Access α) :
    (Access.getAccount addr >>= rest).run (handle host) m =
      match m.account host.be addr with
      | .error stop => (.error stop, m)
      | .ok found => (rest (found.getD .empty)).run (handle host) m := by
  rw [Access.getAccount, Prog.run_bind, Prog.run_bind, Access.getAccountOptional, run_prim, handle]
  cases m.account host.be addr <;> rfl

theorem run_destroyAccount (addr : Word) :
    (Access.destroyAccount addr).run (handle host) m = m.remove host addr := by
  rw [Access.destroyAccount, run_getAccount, remove]
  cases m.account host.be addr with
  | error stop => rfl
  | ok found =>
    have cleared (m : Snapshots) : (Access.prim (.destroyStorage addr) >>= fun _ =>
        Access.prim (.setAccount addr none)).run (handle host) m =
          match m.clear addr with
          | (.ok _, m) => (.ok (), m.put addr none)
          | failed => failed := by
      rw [Prog.run_bind, run_prim, handle]
      rcases m.clear addr with ⟨_ | _, _⟩ <;> rfl
    dsimp only
    by_cases left : (found.getD .empty).balance = 0
    · rw [if_neg (not_not.mpr left), if_pos left]
      exact cleared m
    · rw [if_pos left, if_neg left, Prog.run_bind, run_prim, handle]
      rcases m.destroy host.nodusProfile (found.getD .empty).balance with ⟨_ | _, next⟩
      · rfl
      · exact cleared next

theorem run_modifyCommit (addr : Word) (acct : Acct) :
    (Access.modifyCommit addr acct).run (handle host) m = m.settle addr acct := by
  rw [Access.modifyCommit, Prog.run_bind, run_prim, settle]
  show (if acct.isEmpty then Access.destroyAccount addr else pure ()).run (handle host)
    (m.put addr (some acct)) = _
  split
  next empty =>
    have found : (m.put addr (some acct)).account host.be addr = .ok (some acct) := by
      simp [account, put, write, touch]
    have zero : acct.balance = 0 := by
      simp only [Acct.isEmpty, Bool.and_eq_true, decide_eq_true_eq] at empty
      exact empty.1.2
    rw [run_destroyAccount, remove, found]
    simp only [Option.getD_some, zero, if_true]
  next => rfl

theorem run_modify (addr : Word) (change : Acct → Option Acct) (program : Acct → Access Unit)
    (each : ∀ acct m, (program acct).run (handle host) m =
      match change acct with
      | none => (.error .fault, m)
      | some acct => m.settle addr acct) :
    (Access.getAccount addr >>= program).run (handle host) m = m.modify host addr change := by
  rw [run_getAccount, modify]
  cases m.account host.be addr with
  | error stop => rfl
  | ok found => exact each _ _

theorem run_createEther (addr amount : Word) :
    (Access.createEther addr amount).run (handle host) m =
      m.modify host addr (receive amount) := by
  refine run_modify m host addr _ _ fun acct m => ?_
  rw [receive]
  by_cases fits : acct.balance.toNat + amount.toNat < 2 ^ 256
  · rw [if_neg (Nat.not_le.mpr fits), if_pos fits]
    exact run_modifyCommit m host addr _
  · rw [if_pos (Nat.not_lt.mp fits), if_neg fits]
    rfl

theorem run_forM (marked : List Word) :
    (marked.forM Access.destroyAccount).run (handle host) m = removeAll host marked m := by
  induction marked generalizing m with
  | nil => rfl
  | cons addr rest ih =>
    have split : (addr :: rest).forM Access.destroyAccount =
      (Access.destroyAccount addr >>= fun _ => rest.forM Access.destroyAccount) := rfl
    rw [split, Prog.run_bind, run_destroyAccount, removeAll]
    rcases m.remove host addr with ⟨_ | _, _⟩
    · rfl
    · exact ih _

theorem run_accountDeployable (addr : Word) :
    (Access.accountDeployable addr).run (handle host) m =
      m.perform host (.accountDeployable addr) := by
  have bare (acct : Acct) : (acct.nonce ≠ 0 ∨ acct.codeHash ≠ emptyCodeHash) ↔
      ¬ (acct.nonce = 0 ∧ acct.codeHash = emptyCodeHash) := not_and_or.symm
  rw [Access.accountDeployable, run_getAccount, perform]
  cases m.account host.be addr with
  | error stop => rfl
  | ok found =>
    have fresh : (found.all fun acct => acct.nonce = 0 ∧ acct.codeHash = emptyCodeHash) = true ↔
        (found.getD .empty).nonce = 0 ∧ (found.getD .empty).codeHash = emptyCodeHash := by
      cases found with
      | none => exact ⟨fun _ => ⟨rfl, rfl⟩, fun _ => rfl⟩
      | some acct => exact decide_eq_true_iff
    show _ = (if (found.all fun acct => acct.nonce = 0 ∧ acct.codeHash = emptyCodeHash) = true then
      (m.hasStorage host.be addr).map not else .ok false, m)
    dsimp only
    simp only [bare, ite_not, fresh]
    split
    · rw [Prog.run_bind, run_prim, handle]
      cases m.hasStorage host.be addr <;> rfl
    · rfl

/-- The programs of the state do on the dictionaries what the functions are for. -/
theorem run_prog (call : Call) :
    (call.prog host.keccak).run (handle host) m = m.perform host call := by
  cases call with
  | getAccount addr | accountExists addr =>
    refine (Prog.run_bind _ _ _ _).trans ?_
    rw [Access.getAccountOptional, run_prim, handle, perform]
    cases m.account host.be addr <;> rfl
  | isAccountAlive addr | setStorage addr key val =>
    refine (Prog.run_bind _ _ _ _).trans ?_
    rw [Access.getAccountOptional, run_prim, handle, perform]
    rcases m.account host.be addr with _ | _ | _ <;> rfl
  | accountDeployable addr => exact run_accountDeployable m host addr
  | destroyAccount addr => exact run_destroyAccount m host addr
  | moveEther source target amount =>
    refine (run_getAccount m host source _).trans ?_
    rw [perform, modify]
    cases m.account host.be source with
    | error stop => rfl
    | ok found =>
      dsimp only
      rw [pay]
      by_cases enough : amount ≤ (found.getD .empty).balance
      · rw [if_neg (not_lt.mpr enough), if_pos enough, Prog.run_bind, run_modifyCommit]
        dsimp only
        rcases m.settle source _ with ⟨_ | _, next⟩
        · rfl
        · exact run_createEther next host target amount
      · rw [if_pos (not_le.mp enough), if_neg enough]
        rfl
  | createEther addr amount => exact run_createEther m host addr amount
  | setBalance addr amount | setCode addr code =>
    rw [Call.prog, perform]
    refine run_modify m host addr _ _ fun acct m => ?_
    exact run_modifyCommit m host addr _
  | incrementNonce addr =>
    rw [Call.prog, perform]
    refine run_modify m host addr _ _ fun acct m => ?_
    split
    · rfl
    · exact run_modifyCommit m host addr _
  | destroyMarked => exact run_forM m host _
  | _ => exact run_prim m host _

/-! ### Marks and transactions -/

/-- A mark copies the dictionaries. -/
def mark : Snapshots :=
  { m with saved := m.tx :: m.saved }

/-- Go back to the copy of a mark; the marks after it are gone. -/
def revert (index : Nat) : Snapshots :=
  match m.saved[index]? with
  | none => m
  | some copy => { m with tx := copy, saved := m.saved.drop index }

def nextTx : Except Stop Unit × Snapshots :=
  if m.transactions = State.counterMax then (.error .exhausted, m)
  else
    (.ok (), { m with
      tx := .blank, saved := [], createdAccounts := fun _ => false, touched := [],
      transactions := m.transactions + 1 })

def commitTx : Except Stop Unit × Snapshots :=
  nextTx { m with block := m.block.incorporate m.tx }

def abortTx : Except Stop Unit × Snapshots :=
  nextTx { m with tx := .blank, saved := [] }

end Snapshots

end DnaLedger.Evm
