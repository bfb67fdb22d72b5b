import DnaLedger.Evm.Commit
import DnaLedger.Evm.Access

/-!
# What a command does

Each function that reads or writes a record is a function of the layer.
-/

namespace DnaLedger.Evm

open Command

/-- What a command does to the layer of the running transaction. -/
def Layer.perform (host : Host) (genCounter : Nat) (layer : Layer) : Prim → Layer
  | .setAccount addr acct => layer.changeAcct addr fun a => { a with acct := some acct }
  | .storeSlot addr key val => layer.store addr key val
  | .destroyStorage addr =>
    if genCounter = State.counterMax then layer
    else layer.changeAcct addr fun a =>
      { a with cleared := true, gen := genCounter + 1, nwrites := 0 }
  | .setTransient addr key val => layer.changeSlot addr key fun s => { s with transient := val }
  | .accessAddr addr => layer.changeAcct addr fun a => { a with warm := true }
  | .accessSlot addr key => layer.changeSlot addr key fun s => { s with warm := true }
  | .addToDelete addr => layer.changeAcct addr fun a => { a with toDelete := true }
  | .addLog log =>
    if 4 < log.topics.length then layer else { layer with logs := layer.logs ++ [log] }
  | .addDestroyed amount =>
    if 2 ^ 256 ≤ layer.weiDestroyed.toNat + amount.toNat ∧ host.nodusProfile = true then layer
    else { layer with
      weiDestroyed := if 2 ^ 256 ≤ layer.weiDestroyed.toNat + amount.toNat
        then BitVec.allOnes 256
        else BitVec.ofNat 256 (layer.weiDestroyed.toNat + amount.toNat) }
  | .addTicket intentId amount destFp =>
    if 2 ^ 32 - 1 ≤ layer.tickets.length then layer
    else { layer with
      tickets := layer.tickets ++
        [⟨host.sha3 (State.ticketDomain ++ intentId ++ bigEndian 4 layer.tickets.length), amount,
          destFp⟩] }
  | _ => layer

/-- The account at an address: the last that was written, or that of the backend. -/
def Layer.account (be : Backend) (committed : State.Committed) (layer : Layer) (addr : Word) :
    Option Acct :=
  ((layer.accts addr).acct.or (committed.accts addr)).getD (be.before addr)

theorem Layer.acct_changeAcct {layer : Layer} {addr : Word} {change : AcctLayer → AcctLayer}
    (kept : (change (layer.accts addr)).acct = (layer.accts addr).acct) {other : Word} :
    ((layer.changeAcct addr change).accts other).acct = (layer.accts other).acct := by
  by_cases here : other = addr
  · subst here
    simpa [changeAcct] using kept
  · simp [changeAcct, here]

theorem Layer.acct_perform (host : Host) (genCounter : Nat) (layer : Layer) (command : Prim)
    (other : Word) :
    ((layer.perform host genCounter command).accts other).acct =
      match command with
      | .setAccount addr acct => if other = addr then some acct else (layer.accts other).acct
      | _ => (layer.accts other).acct := by
  cases command with
  | setAccount addr acct =>
    simp only [perform, changeAcct, Function.update_apply]
    split <;> rfl
  | storeSlot addr key val =>
    simp only [perform, store]
    rw [acct_changeAcct rfl]
    rfl
  | destroyStorage addr =>
    simp only [perform]
    split
    · rfl
    · rw [acct_changeAcct rfl]
  | accessAddr addr =>
    simp only [perform]
    rw [acct_changeAcct rfl]
  | addToDelete addr =>
    simp only [perform]
    rw [acct_changeAcct rfl]
  | addLog log =>
    simp only [perform]
    split <;> rfl
  | addDestroyed amount =>
    simp only [perform]
    split <;> rfl
  | addTicket intentId amount destFp =>
    simp only [perform]
    split <;> rfl
  | _ => rfl

namespace State

variable {be : Backend} {st next : State}

/-- A valid state whose caches have answers of the backend. -/
structure Sound (be : Backend) (st : State) : Prop where
  valid : Valid st
  cached : Cached be st

/-- The next state keeps the layers at the marks and what was committed. -/
structure Advances (be : Backend) (st next : State) : Prop where
  sound : Sound be next
  extended : Extends st next
  committed : next.committed = st.committed
  epoch : next.epoch = st.epoch

theorem Advances.refl (sound : Sound be st) : Advances be st st :=
  ⟨sound, Extends.refl st, rfl, rfl⟩

theorem Consults.advances (consults : Consults st next) (sound : Sound be st)
    (cached : Cached be next) : Advances be st next where
  sound := ⟨consults.valid sound.valid, cached⟩
  extended := ⟨[], consults.journal, consults.layer⟩
  committed := consults.committed
  epoch := consults.epoch

theorem Writes.advances {entry : Entry} (writes : Writes st next entry) (sound : Sound be st) :
    Advances be st next where
  sound := ⟨writes.valid sound.valid, sound.cached.of_cache writes.rewritten.cache⟩
  extended := writes.extends
  committed := writes.rewritten.committed
  epoch := writes.rewritten.epoch

theorem account_of_answer {addr : Word} {outcome : Except Stop (Option Acct)} {found : Option Acct}
    (answer : AccountAnswer be st addr outcome) (read : outcome = .ok found) :
    found = st.layer.account be st.committed addr := by
  unfold Layer.account
  rcases answer with ⟨write, written, eq⟩ | ⟨unwritten, ⟨eq, -⟩ | ⟨_, _, _, refused⟩⟩
  · rw [written]
    cases read.symm.trans eq
    rfl
  · rw [unwritten]
    have loaded := read.symm.trans eq
    cases pre : be.preAcct addr with
    | error stop =>
      rw [pre] at loaded
      cases loaded
    | ok account =>
      rw [pre] at loaded
      cases loaded
      exact Backend.before_of_preAcct pre
  · cases read.symm.trans refused

theorem Rewrites.advances {addr : Word} {tx : AcctTx} (rewrites : Rewrites st next addr tx none)
    (slots : tx.slots = (st.acctAt addr).slots) (layer : next.layer = st.layer)
    (rest : SameRest st next) (sound : Sound be st) : Advances be st next where
  sound := ⟨rewrites.valid_silent slots layer rest sound.valid,
    sound.cached.of_cache rewrites.cache⟩
  extended := ⟨[], rest.journal, layer⟩
  committed := rewrites.committed
  epoch := rewrites.epoch

theorem touch_advances (sound : Sound be st) (addr : Word) : Advances be st (st.touch addr) :=
  (rewrites_touch st addr).advances rfl (rewritten_touch st addr).2 (sameRest_touch st addr) sound

theorem handle_advances {host : Host} (command : Prim) (sound : Sound host.be st) :
    Advances host.be st (handle host command st).2 ∧
      (handle host command st).2.layer = st.layer.perform host st.genCounter command := by
  have valid := sound.valid
  have cached := sound.cached
  cases command with
  | getAccountOptional addr =>
    obtain ⟨-, consults, known⟩ := getAccountOptional_spec cached addr
    exact ⟨consults.advances sound known, consults.layer⟩
  | peekAccount addr =>
    obtain ⟨-, consults, known⟩ := peekAccount_spec cached addr
    exact ⟨consults.advances sound known, consults.layer⟩
  | getCode addr acct =>
    obtain ⟨consults, known⟩ := getCode_consults cached addr acct
    exact ⟨consults.advances sound known, consults.layer⟩
  | getStorage addr key =>
    obtain ⟨-, consults, known⟩ := getStorage_spec valid.tidy cached addr key
    exact ⟨consults.advances sound known, consults.layer⟩
  | getStorageOriginal addr key =>
    obtain ⟨consults, known⟩ := getStorageOriginal_spec cached addr key
    exact ⟨consults.advances sound known, consults.layer⟩
  | accountHasStorage addr =>
    obtain ⟨-, consults, known⟩ := accountHasStorage_spec valid cached addr
    exact ⟨consults.advances sound known, consults.layer⟩
  | blockHash number =>
    obtain ⟨-, consults, known⟩ := blockHash_spec cached number
    exact ⟨consults.advances sound known, consults.layer⟩
  | getTransient addr key | isCreated addr | marked => exact ⟨Advances.refl sound, rfl⟩
  | setAccount addr acct =>
    have writes := @setAccount_writes st addr acct
    exact ⟨writes.advances sound, writes.layer_eq⟩
  | storeSlot addr key val =>
    have writes := @storeSlot_writes st addr key valid.tidy val
    exact ⟨writes.advances sound, writes.layer_eq⟩
  | destroyStorage addr =>
    simp only [handle, Layer.perform]
    by_cases used : st.genCounter = counterMax
    · have used' : (st.touch addr).genCounter = counterMax :=
        (sameRest_touch st addr).genCounter.trans used
      simp only [destroyStorage]
      rw [if_pos used, if_pos used']
      exact ⟨touch_advances sound addr, (rewritten_touch st addr).2⟩
    · obtain ⟨-, writes⟩ := @destroyStorage_writes st addr used
      rw [if_neg used]
      exact ⟨writes.advances sound, writes.layer_eq⟩
  | markAccountCreated addr =>
    obtain ⟨⟨tx, rewrites, -, slots⟩, layer, rest⟩ := @markAccountCreated_spec st addr
    exact ⟨rewrites.advances slots layer rest sound, layer⟩
  | setTransient addr key val =>
    have writes := @setTransient_writes st addr key valid.tidy val
    exact ⟨writes.advances sound, writes.layer_eq⟩
  | accessAddr addr =>
    simp only [handle, Layer.perform]
    cases flag : (st.acctAt addr).warm with
    | true =>
      rw [accessAddr_warm flag]
      refine ⟨Advances.refl sound, (Layer.changeAcct_id _ _ _ ?_).symm⟩
      exact congrArg (fun warm => { st.layer.accts addr with warm := warm }) flag.symm
    | false =>
      obtain ⟨-, writes⟩ := accessAddr_writes flag
      exact ⟨writes.advances sound, writes.layer_eq⟩
  | accessSlot addr key =>
    simp only [handle, Layer.perform]
    cases flag : (st.slotAt addr key).warm with
    | true =>
      rw [accessSlot_warm valid.tidy flag]
      refine ⟨Advances.refl sound, (Layer.changeSlot_id _ _ _ _ ?_).symm⟩
      exact congrArg (fun warm => { st.layer.slots addr key with warm := warm }) flag.symm
    | false =>
      obtain ⟨-, writes⟩ := accessSlot_writes valid.tidy flag
      exact ⟨writes.advances sound, writes.layer_eq⟩
  | addToDelete addr =>
    simp only [handle, Layer.perform]
    cases flag : (st.acctAt addr).toDelete with
    | true =>
      rw [addToDelete_again flag, (rewritten_touch st addr).2]
      refine ⟨touch_advances sound addr, (Layer.changeAcct_id _ _ _ ?_).symm⟩
      exact congrArg (fun mark => { st.layer.accts addr with toDelete := mark }) flag.symm
    | false =>
      have writes := addToDelete_writes flag
      exact ⟨writes.advances sound, writes.layer_eq⟩
  | addLog log =>
    simp only [handle, Layer.perform]
    by_cases many : 4 < log.topics.length
    · rw [addLog, if_pos many, if_pos many]
      exact ⟨Advances.refl sound, rfl⟩
    · obtain ⟨-, writes⟩ := @addLog_writes st log (Nat.not_lt.mp many)
      rw [if_neg many]
      exact ⟨writes.advances sound, writes.layer_eq⟩
  | addDestroyed amount =>
    simp only [handle, Layer.perform]
    by_cases large : 2 ^ 256 ≤ st.weiDestroyed.toNat + amount.toNat ∧ host.nodusProfile = true
    · have large' : 2 ^ 256 ≤ st.layer.weiDestroyed.toNat + amount.toNat ∧
        host.nodusProfile = true := large
      rw [addDestroyed, if_pos large, if_pos large']
      exact ⟨Advances.refl sound, rfl⟩
    · have small : ¬ (2 ^ 256 ≤ st.layer.weiDestroyed.toNat + amount.toNat ∧
        host.nodusProfile = true) := large
      obtain ⟨-, writes⟩ := addDestroyed_writes large
      rw [if_neg small]
      exact ⟨writes.advances sound, writes.layer_eq⟩
  | addTicket intentId amount destFp =>
    simp only [handle, Layer.perform]
    by_cases many : 2 ^ 32 - 1 ≤ st.tickets.length
    · have many' : 2 ^ 32 - 1 ≤ st.layer.tickets.length := many
      rw [addTicket, if_pos many, if_pos many']
      exact ⟨Advances.refl sound, rfl⟩
    · have few : ¬ 2 ^ 32 - 1 ≤ st.layer.tickets.length := many
      obtain ⟨-, writes⟩ := @addTicket_writes st amount host.sha3 intentId destFp
        (Nat.not_le.mp many)
      rw [if_neg few]
      exact ⟨writes.advances sound, writes.layer_eq⟩

end State

end DnaLedger.Evm
