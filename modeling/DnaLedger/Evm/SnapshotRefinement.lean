import DnaLedger.Evm.Commit
import DnaLedger.Evm.Snapshots

/-!
# The journaled state is a state of dictionaries

Every function of the state answers as the dictionaries do and keeps the correspondence between the
two.
-/

namespace DnaLedger.Evm

open Command Function State Snapshots

namespace Layer

def dicts (layer : Layer) : Dicts where
  accountWrites addr := (layer.accts addr).acct
  storageWrites addr key :=
    if layer.Written addr key then some (layer.slots addr key).val else none
  storageClears addr := (layer.accts addr).cleared
  transientStorage addr key := (layer.slots addr key).transient
  accessedAddresses addr := (layer.accts addr).warm
  accessedStorageKeys addr key := (layer.slots addr key).warm
  accountsToDelete addr := (layer.accts addr).toDelete
  logs := layer.logs
  tickets := layer.tickets
  weiDestroyed := layer.weiDestroyed

theorem dicts_blank : blank.dicts = .blank := by
  apply Dicts.ext <;> rfl

variable (layer : Layer) (addr key : Word)
variable {α : Type}

theorem accts_changeAcct (read : AcctLayer → α) (change : AcctLayer → AcctLayer) :
    (fun other => read ((layer.changeAcct addr change).accts other)) =
      update (fun other => read (layer.accts other)) addr
        (read (change (layer.accts addr))) := by
  funext other
  simp only [changeAcct, update_apply]
  split <;> rfl

theorem slots_changeSlot (read : SlotTx → α) (change : SlotTx → SlotTx) :
    (fun other key' => read ((layer.changeSlot addr key change).slots other key')) =
      setAt (fun other key' => read (layer.slots other key')) addr key
        (read (change (layer.slots addr key))) := by
  funext other key'
  rw [setAt_apply]
  by_cases here : other = addr
  · subst here
    by_cases slot : key' = key
    · subst slot
      simp [changeSlot]
    · simp [changeSlot, slot]
  · simp [changeSlot, here]

theorem setAt_self (dict : Word → Word → α) : setAt dict addr key (dict addr key) = dict := by
  rw [setAt, update_eq_self, update_eq_self]

theorem dicts_changeAcct (change : AcctLayer → AcctLayer)
    (gen : (change (layer.accts addr)).gen = (layer.accts addr).gen) :
    (layer.changeAcct addr change).dicts = { layer.dicts with
      accountWrites := update layer.dicts.accountWrites addr
        (change (layer.accts addr)).acct
      storageClears := update layer.dicts.storageClears addr
        (change (layer.accts addr)).cleared
      accessedAddresses := update layer.dicts.accessedAddresses addr
        (change (layer.accts addr)).warm
      accountsToDelete := update layer.dicts.accountsToDelete addr
        (change (layer.accts addr)).toDelete } := by
  have gens := accts_changeAcct layer addr AcctLayer.gen change
  rw [gen, update_eq_self] at gens
  apply Dicts.ext
  · exact accts_changeAcct layer addr AcctLayer.acct change
  · funext other key'
    have eq : ((layer.changeAcct addr change).accts other).gen = (layer.accts other).gen :=
      congrFun gens other
    simp only [dicts, Written, eq]
    rfl
  · exact accts_changeAcct layer addr AcctLayer.cleared change
  · rfl
  · exact accts_changeAcct layer addr AcctLayer.warm change
  · rfl
  · exact accts_changeAcct layer addr AcctLayer.toDelete change
  · rfl
  · rfl
  · rfl

theorem dicts_changeSlot (change : SlotTx → SlotTx)
    (stored : ∀ s, (change s).present = s.present ∧ (change s).gen = s.gen ∧
      (change s).val = s.val) :
    (layer.changeSlot addr key change).dicts = { layer.dicts with
      transientStorage := setAt layer.dicts.transientStorage addr key
        (change (layer.slots addr key)).transient
      accessedStorageKeys := setAt layer.dicts.accessedStorageKeys addr key
        (change (layer.slots addr key)).warm } := by
  have eq : ∀ {α : Type} (read : SlotTx → α), (∀ s, read (change s) = read s) → ∀ other key',
      read ((layer.changeSlot addr key change).slots other key') =
        read (layer.slots other key') := by
    intro α read kept other key'
    have := congrFun (congrFun (slots_changeSlot layer addr key read change) other) key'
    rwa [kept, setAt_self addr key fun other key' => read (layer.slots other key')] at this
  apply Dicts.ext
  · rfl
  · funext other key'
    simp only [dicts, Written, eq SlotTx.present (fun s => (stored s).1),
      eq SlotTx.gen (fun s => (stored s).2.1), eq SlotTx.val (fun s => (stored s).2.2)]
    rfl
  · rfl
  · exact slots_changeSlot layer addr key SlotTx.transient change
  · rfl
  · exact slots_changeSlot layer addr key SlotTx.warm change
  · rfl
  · rfl
  · rfl
  · rfl

theorem dicts_store (val : Word) :
    (layer.store addr key val).dicts = { layer.dicts with
      storageWrites := setAt layer.dicts.storageWrites addr key (some val) } := by
  have accts : ∀ {α : Type} (read : AcctLayer → α),
      (∀ a n, read { a with nwrites := n } = read a) →
      (fun other => read ((layer.store addr key val).accts other)) =
        fun other => read (layer.accts other) := by
    intro α read kept
    unfold store
    rw [accts_changeAcct, kept]
    exact update_eq_self addr fun other => read (layer.accts other)
  have slots : ∀ {α : Type} (read : SlotTx → α),
      (fun other key' => read ((layer.store addr key val).slots other key')) =
        setAt (fun other key' => read (layer.slots other key')) addr key
          (read { layer.slots addr key with
            present := true, gen := (layer.accts addr).gen, val := val }) :=
    fun read => slots_changeSlot layer addr key read fun s =>
      { s with present := true, gen := (layer.accts addr).gen, val := val }
  apply Dicts.ext
  · exact accts AcctLayer.acct fun _ _ => rfl
  · funext other key'
    have value : ((layer.store addr key val).slots other key').val =
        if other = addr ∧ key' = key then val else (layer.slots other key').val := by
      rw [← setAt_apply (fun other key' => (layer.slots other key').val)]
      exact congrFun (congrFun (slots SlotTx.val) other) key'
    simp only [dicts, written_store, value, setAt_apply]
    by_cases here : other = addr ∧ key' = key
    · simp [here]
    · simp [here]
  · exact accts AcctLayer.cleared fun _ _ => rfl
  · rw [dicts, slots SlotTx.transient]
    exact setAt_self addr key fun other key' => (layer.slots other key').transient
  · exact accts AcctLayer.warm fun _ _ => rfl
  · rw [dicts, slots SlotTx.warm]
    exact setAt_self addr key fun other key' => (layer.slots other key').warm
  · exact accts AcctLayer.toDelete fun _ _ => rfl
  · rfl
  · rfl
  · rfl

theorem dicts_clear {genCounter : Nat} (good : Good genCounter layer) :
    (layer.changeAcct addr fun a =>
      { a with cleared := true, gen := genCounter + 1, nwrites := 0 }).dicts = { layer.dicts with
        storageWrites := update layer.dicts.storageWrites addr fun _ => none
        storageClears := update layer.dicts.storageClears addr true } := by
  have accts := fun {α : Type} (read : AcctLayer → α) => accts_changeAcct layer addr read
    fun a => { a with cleared := true, gen := genCounter + 1, nwrites := 0 }
  apply Dicts.ext
  · exact (accts AcctLayer.acct).trans (update_eq_self _ _)
  · funext other key'
    simp only [dicts, Written, changeAcct, update_apply]
    split
    next here =>
      have older := good.slotGen other key'
      have apart : ¬ ((layer.slots other key').present = true ∧
          (layer.slots other key').gen = genCounter + 1) := by
        rintro ⟨-, eq⟩
        omega
      simp only [apart, if_false]
    next => rfl
  · exact accts AcctLayer.cleared
  · rfl
  · exact (accts AcctLayer.warm).trans (update_eq_self _ _)
  · rfl
  · exact (accts AcctLayer.toDelete).trans (update_eq_self _ _)
  · rfl
  · rfl
  · rfl

end Layer

def State.Committed.dicts (committed : State.Committed) : BlockDicts :=
  ⟨committed.accts, committed.slots, committed.cleared⟩

/-! ## The correspondence -/

/-- A state and its marks, the last one first, as dictionaries. -/
structure Follows (be : Backend) (marks : List Nat) (st : State) (m : Snapshots) : Prop where
  valid : st.Valid
  cached : State.Cached be st
  tx : m.tx = st.layer.dicts
  block : m.block = st.committed.dicts
  created : ∀ addr, m.createdAccounts addr = st.isCreated addr
  touched : m.touched = st.touched
  clears : m.clears = st.genCounter
  transactions : m.transactions = st.epoch
  saved : m.saved = marks.map fun mark => (st.layerAt mark).dicts
  old : ∀ mark ∈ marks, mark ≤ st.journal.length
  ordered : marks.Pairwise (· ≥ ·)

namespace Follows

variable {be : Backend} {marks : List Nat} {st next : State} {m m' : Snapshots}

section

variable (follows : Follows be marks st m)

include follows

theorem consults (consults : Consults st next)
    (cached : Cached be next) : Follows be marks next m where
  valid := consults.valid follows.valid
  cached := cached
  tx := follows.tx.trans (congrArg _ consults.layer.symm)
  block := follows.block.trans (congrArg _ consults.committed.symm)
  created addr := (follows.created addr).trans (consults.isCreated addr).symm
  touched := follows.touched.trans consults.touched.symm
  clears := follows.clears.trans consults.genCounter.symm
  transactions := follows.transactions.trans consults.epoch.symm
  saved := by
    rw [follows.saved]
    exact List.map_congr_left fun mark _ => congrArg _ (consults.layerAt mark).symm
  old := by
    rw [consults.journal]
    exact follows.old
  ordered := follows.ordered

theorem savedExtends (extended : Extends st next) :
    (m.saved = marks.map fun mark => (next.layerAt mark).dicts) ∧
      ∀ mark ∈ marks, mark ≤ next.journal.length := by
  refine ⟨?_, ?_⟩
  · rw [follows.saved]
    apply List.map_congr_left
    intro mark mem
    exact congrArg _ (extended.layerAt (follows.old mark mem)).symm
  · intro mark mem
    obtain ⟨entries, journal, -⟩ := extended
    rw [journal, List.length_append]
    exact (follows.old mark mem).trans (Nat.le_add_left _ _)

variable {entry : Entry} {addr : Word}

theorem writes {after : List Word} {counter : Nat} {layer : Layer}
    (writes : WritesTo st next entry after counter layer) (tx : m'.tx = layer.dicts)
    (touched : m'.touched = after) (clears : m'.clears = counter)
    (rest : m'.block = m.block ∧ m'.saved = m.saved ∧ m'.createdAccounts = m.createdAccounts ∧
      m'.transactions = m.transactions) : Follows be marks next m' := by
  obtain ⟨block, saved, created, transactions⟩ := rest
  obtain ⟨saved', old⟩ := follows.savedExtends writes.extends
  exact {
    valid := writes.valid follows.valid
    cached := follows.cached.of_cache writes.rewritten.cache
    tx := by rw [tx, writes.layer_eq]
    block := by rw [block, follows.block, writes.rewritten.committed]
    created := fun addr => by rw [created, follows.created, writes.rewritten.isCreated]
    touched := by rw [touched, writes.touched_eq]
    clears := by rw [clears, writes.genCounter_eq]
    transactions := by rw [transactions, follows.transactions, writes.rewritten.epoch]
    saved := saved.trans saved'
    old := old
    ordered := follows.ordered }

theorem touch (addr : Word) : (m.touch addr).touched = (st.touch addr).touched := by
  rw [Snapshots.touch, follows.touched, (rewrites_touch st addr).touched]
  have mem := follows.valid.tidy.touched addr
  by_cases current : st.txCur addr = true
  · rw [if_pos (mem.mpr current), if_pos current]
  · rw [if_neg fun inside => current (mem.mp inside), if_neg current]

theorem touch_self (current : st.txCur addr = true) : m.touch addr = m := by
  rw [Snapshots.touch, if_pos]
  rw [follows.touched]
  exact (follows.valid.tidy.touched addr).mpr current

theorem silent {tx : AcctTx} (rewrites : Rewrites st next addr tx none)
    (slots : tx.slots = (st.acctAt addr).slots) (layer : next.layer = st.layer)
    (rest : SameRest st next) (touched : m'.touched = next.touched)
    (created : ∀ other, m'.createdAccounts other = next.isCreated other)
    (eq : m'.tx = m.tx ∧ m'.block = m.block ∧ m'.saved = m.saved ∧ m'.clears = m.clears ∧
      m'.transactions = m.transactions) : Follows be marks next m' := by
  obtain ⟨tx', block, saved, clears, transactions⟩ := eq
  have extended : Extends st next := ⟨[], rest.journal, layer⟩
  obtain ⟨saved', old⟩ := follows.savedExtends extended
  exact {
    valid := rewrites.valid_silent slots layer rest follows.valid
    cached := follows.cached.of_cache rewrites.cache
    tx := by rw [tx', follows.tx, layer]
    block := by rw [block, follows.block, rewrites.committed]
    created := created
    touched := touched
    clears := by rw [clears, follows.clears, rest.genCounter]
    transactions := by rw [transactions, follows.transactions, rewrites.epoch]
    saved := saved.trans saved'
    old := old
    ordered := follows.ordered }

theorem touchOnly (addr : Word) : Follows be marks (st.touch addr) (m.touch addr) := by
  obtain ⟨rewritten, layer⟩ := rewritten_touch st addr
  apply follows.silent (rewrites_touch st addr) rfl layer (sameRest_touch st addr)
  · exact follows.touch addr
  · exact fun other => (follows.created other).trans (rewritten.isCreated other).symm
  · exact ⟨rfl, rfl, rfl, rfl, rfl⟩

theorem markCreated (addr : Word) :
    Follows be marks (st.markAccountCreated addr)
      { m.touch addr with createdAccounts := update m.createdAccounts addr true } := by
  obtain ⟨⟨tx, rewrites, created, slots⟩, layer, rest⟩ := @markAccountCreated_spec st addr
  apply follows.silent rewrites slots layer rest
  · exact follows.touch addr
  · intro other
    rw [isCreated_eq, rewrites.acctAt]
    dsimp only
    rw [update_apply]
    split
    next => exact created.symm
    next => rw [follows.created, isCreated_eq]
  · exact ⟨rfl, rfl, rfl, rfl, rfl⟩

section

variable (steady : be.Steady)

include steady

theorem account (addr : Word) {outcome : Except Stop (Option Acct)}
    (answer : AccountAnswer be st addr outcome) : outcome = m.account be addr := by
  rw [Snapshots.account, follows.tx, follows.block]
  simp only [Layer.dicts, Committed.dicts]
  rcases answer with ⟨write, found, eq⟩ | ⟨unset, answered⟩
  · rw [found, eq]
  · rw [unset]
    exact answered.steady steady

theorem code (addr : Word) (acct : Acct) : (st.getCode be addr acct).1 = be.codeOf addr acct := by
  unfold getCode Backend.codeOf
  by_cases unset : acct.codeHash = emptyCodeHash
  · rw [if_pos unset, if_pos unset]
  · rw [if_neg unset, if_neg unset]
    cases acct.code with
    | some code => rfl
    | none =>
      obtain ⟨answer, -, known, filled⟩ := loadPre_spec follows.cached addr
      generalize st.loadPre be addr = loaded at answer known filled
      obtain ⟨outcome, loaded⟩ := loaded
      rw [← answer.steady steady]
      cases outcome with
      | error stop => rfl
      | ok pre =>
        obtain ⟨answer', -, -⟩ := loadCode_spec known (filled pre rfl)
        simp only [bind, Except.bind]
        generalize loaded.loadCode be addr pre = coded at answer'
        obtain ⟨outcome, coded⟩ := coded
        have eq : outcome = be.loadCode addr pre := by
          rw [Backend.loadCode]
          split at answer'
          next absent => rw [if_pos absent]; exact answer'
          next there => rw [if_neg there]; exact answer'.steady steady
        rw [← eq]
        cases outcome with
        | error stop => rfl
        | ok code =>
          simp only
          split <;> rfl

theorem slotBelow (addr key : Word) :
    (st.getStorageBelow be addr key).1 = m.slotBelow be addr key := by
  have slots : m.block.storageWrites addr key = st.committed.slots addr key := by
    rw [follows.block]
    rfl
  have clears : m.block.storageClears addr = st.committed.cleared addr := by
    rw [follows.block]
    rfl
  obtain ⟨answer, -, -⟩ := getStorageBelow_spec follows.cached addr key
  rw [Snapshots.slotBelow, slots, clears]
  cases found : st.committed.slots addr key with
  | some val =>
    rw [found] at answer
    exact answer
  | none =>
    rw [found] at answer
    simp only at answer ⊢
    split at answer
    next cleared => rw [if_pos cleared]; exact answer
    next kept => rw [if_neg kept]; exact answer.steady steady

theorem slot (addr key : Word) : (st.getStorage be addr key).1 = m.slot be addr key := by
  have below := follows.slotBelow steady addr key
  have writes : m.tx.storageWrites addr key =
      if st.layer.Written addr key then some (st.layer.slots addr key).val else none := by
    rw [follows.tx]
    rfl
  have clears : m.tx.storageClears addr = (st.layer.accts addr).cleared := by
    rw [follows.tx]
    rfl
  rw [(getStorage_spec follows.valid.tidy follows.cached addr key).1, Snapshots.slot,
    writes, clears, Layer.slotWrite]
  by_cases written : st.layer.Written addr key
  · rw [if_pos written, if_pos written]
  · rw [if_neg written, if_neg written]
    by_cases cleared : (st.layer.accts addr).cleared = true
    · rw [if_pos cleared]
      simp only [if_pos cleared]
    · rw [if_neg cleared]
      simp only [if_neg cleared]
      exact below

theorem hasStorage (addr : Word) : (st.accountHasStorage be addr).1 = m.hasStorage be addr := by
  have written : (∃ key, m.tx.storageWrites addr key ≠ none ∨
      m.block.storageWrites addr key ≠ none) ↔
        ∃ key, st.layer.Written addr key ∨ st.committed.slots addr key ≠ none := by
    rw [follows.tx, follows.block]
    simp [Layer.dicts, Committed.dicts]
  obtain ⟨answer, -, -⟩ := accountHasStorage_spec follows.valid follows.cached addr
  rw [Snapshots.hasStorage]
  rcases answer with ⟨found, eq⟩ | ⟨unset, answered⟩
  · rw [if_pos (written.mpr found), eq]
  · rw [if_neg (fun found => unset (written.mp found))]
    exact answered.steady steady

end

theorem marked : st.marked = m.touched.filter m.tx.accountsToDelete := by
  rw [follows.touched, follows.tx, State.marked]
  apply List.filter_congr
  intro addr mem
  have current := (follows.valid.tidy.touched addr).mp mem
  simp [Layer.dicts, State.layer, acctAt, current]

/-! ## Commands -/

theorem writesAddr {change : AcctLayer → AcctLayer} {update : Dicts → Dicts}
    (writes : WritesTo st next entry (st.touch addr).touched st.genCounter
      (st.layer.changeAcct addr change))
    (gen : (change (st.layer.accts addr)).gen = (st.layer.accts addr).gen)
    (dicts : update m.tx = { m.tx with
      accountWrites := Function.update m.tx.accountWrites addr
        (change (st.layer.accts addr)).acct
      storageClears := Function.update m.tx.storageClears addr
        (change (st.layer.accts addr)).cleared
      accessedAddresses := Function.update m.tx.accessedAddresses addr
        (change (st.layer.accts addr)).warm
      accountsToDelete := Function.update m.tx.accountsToDelete addr
        (change (st.layer.accts addr)).toDelete }) :
    Follows be marks next ((m.touch addr).write update) := by
  refine follows.writes writes ?_ (follows.touch addr) follows.clears ⟨rfl, rfl, rfl, rfl⟩
  rw [Layer.dicts_changeAcct _ _ _ gen, ← follows.tx]
  exact dicts

theorem setAccount (addr : Word) (acct : Option Acct) :
    Follows be marks (st.setAccount addr acct) ((m.touch addr).write fun tx =>
      { tx with accountWrites := update tx.accountWrites addr (some acct) }) := by
  apply follows.writesAddr (setAccount_writes acct) rfl
  rw [follows.tx]
  apply Dicts.ext <;> first | rfl | exact (update_eq_self _ _).symm

theorem accessAddr (addr : Word) :
    (st.accessAddr addr).1 = m.tx.accessedAddresses addr ∧
      Follows be marks (st.accessAddr addr).2 ((m.touch addr).write fun tx =>
        { tx with accessedAddresses := update tx.accessedAddresses addr true }) := by
  have warm : m.tx.accessedAddresses addr = (st.acctAt addr).warm := by
    rw [follows.tx]
    rfl
  rw [warm]
  cases flag : (st.acctAt addr).warm with
  | true =>
    rw [accessAddr_warm flag]
    have current : st.txCur addr = true := by
      rw [acctAt] at flag
      split at flag
      next current => exact current
      next => cases flag
    have eq : update m.tx.accessedAddresses addr true = m.tx.accessedAddresses := by
      rw [← flag, ← warm, update_eq_self]
    rw [follows.touch_self current, write, eq]
    exact ⟨rfl, follows⟩
  | false =>
    obtain ⟨answer, writes⟩ := accessAddr_writes flag
    refine ⟨answer, follows.writesAddr writes rfl ?_⟩
    rw [follows.tx]
    apply Dicts.ext <;> first | rfl | exact (update_eq_self _ _).symm

theorem addToDelete (addr : Word) :
    Follows be marks (st.addToDelete addr) ((m.touch addr).write fun tx =>
      { tx with accountsToDelete := update tx.accountsToDelete addr true }) := by
  have marked : m.tx.accountsToDelete addr = (st.acctAt addr).toDelete := by
    rw [follows.tx]
    rfl
  cases flag : (st.acctAt addr).toDelete with
  | true =>
    rw [addToDelete_again flag]
    have eq : update (m.touch addr).tx.accountsToDelete addr true =
        (m.touch addr).tx.accountsToDelete := by
      rw [← flag, ← marked]
      exact update_eq_self addr m.tx.accountsToDelete
    rw [write, eq]
    exact follows.touchOnly addr
  | false =>
    apply follows.writesAddr (addToDelete_writes flag) rfl
    rw [follows.tx]
    apply Dicts.ext <;> first | rfl | exact (update_eq_self _ _).symm

theorem storeSlot (addr key val : Word) :
    Follows be marks (st.storeSlot addr key val) ((m.touch addr).write fun tx =>
      { tx with storageWrites := setAt tx.storageWrites addr key (some val) }) := by
  have writes := @storeSlot_writes st addr key follows.valid.tidy val
  refine follows.writes writes ?_ (follows.touch addr) follows.clears ⟨rfl, rfl, rfl, rfl⟩
  rw [Layer.dicts_store, ← follows.tx]
  rfl

theorem setTransient (addr key val : Word) :
    Follows be marks (st.setTransient addr key val) ((m.touch addr).write fun tx =>
      { tx with transientStorage := setAt tx.transientStorage addr key val }) := by
  have writes := @setTransient_writes st addr key follows.valid.tidy val
  refine follows.writes writes ?_ (follows.touch addr) follows.clears ⟨rfl, rfl, rfl, rfl⟩
  rw [Layer.dicts_changeSlot, Snapshots.write, Snapshots.touch, follows.tx]
  · dsimp only
    congr 1
    exact (Layer.setAt_self addr key st.layer.dicts.accessedStorageKeys).symm
  · exact fun _ => ⟨rfl, rfl, rfl⟩

theorem accessSlot (addr key : Word) :
    (st.accessSlot addr key).1 = m.tx.accessedStorageKeys addr key ∧
      Follows be marks (st.accessSlot addr key).2 ((m.touch addr).write fun tx =>
        { tx with accessedStorageKeys := setAt tx.accessedStorageKeys addr key true }) := by
  have tidy := follows.valid.tidy
  have warm : m.tx.accessedStorageKeys addr key = (st.slotAt addr key).warm := by
    rw [follows.tx]
    rfl
  rw [warm]
  cases flag : (st.slotAt addr key).warm with
  | true =>
    rw [accessSlot_warm tidy flag]
    have current : st.stxCur addr key = true := by
      rw [slotAt] at flag
      split at flag
      next current => exact current
      next => cases flag
    have eq : setAt m.tx.accessedStorageKeys addr key true = m.tx.accessedStorageKeys := by
      rw [← flag, ← warm]
      exact Layer.setAt_self addr key m.tx.accessedStorageKeys
    rw [follows.touch_self (tidy.nested addr key current), write, eq]
    exact ⟨rfl, follows⟩
  | false =>
    obtain ⟨answer, writes⟩ := accessSlot_writes tidy flag
    refine ⟨answer, follows.writes writes ?_ (follows.touch addr) follows.clears
      ⟨rfl, rfl, rfl, rfl⟩⟩
    rw [Layer.dicts_changeSlot, Snapshots.write, Snapshots.touch, follows.tx]
    · dsimp only
      congr 1
      exact (Layer.setAt_self addr key st.layer.dicts.transientStorage).symm
    · exact fun _ => ⟨rfl, rfl, rfl⟩

theorem destroyStorage (addr : Word) :
    (st.destroyStorage addr).1 = (m.clear addr).1 ∧
      Follows be marks (st.destroyStorage addr).2 (m.clear addr).2 := by
  have touched := sameRest_touch st addr
  by_cases used : st.genCounter = counterMax
  · simp only [State.destroyStorage, clear]
    rw [if_pos (touched.genCounter.trans used), if_pos (follows.clears.trans used)]
    exact ⟨rfl, follows.touchOnly addr⟩
  · obtain ⟨answer, writes⟩ := @destroyStorage_writes st addr used
    rw [clear, if_neg (fun eq => used (follows.clears.symm.trans eq))]
    refine ⟨answer, follows.writes writes ?_ (follows.touch addr) ?_ ⟨rfl, rfl, rfl, rfl⟩⟩
    · rw [Layer.dicts_clear st.layer addr follows.valid.history.good, ← follows.tx]
      rfl
    · rw [← follows.clears]

theorem addLog (log : Log) :
    (st.addLog log).1 = (m.log log).1 ∧ Follows be marks (st.addLog log).2 (m.log log).2 := by
  by_cases many : 4 < log.topics.length
  · rw [State.addLog, Snapshots.log, if_pos many, if_pos many]
    exact ⟨rfl, follows⟩
  · obtain ⟨answer, writes⟩ := @addLog_writes st log (Nat.not_lt.mp many)
    rw [Snapshots.log, if_neg many]
    refine ⟨answer, follows.writes writes ?_ follows.touched follows.clears ⟨rfl, rfl, rfl, rfl⟩⟩
    rw [write, follows.tx]
    rfl

theorem addDestroyed (nodusProfile : Bool) (amount : Word) :
    (st.addDestroyed nodusProfile amount).1 = (m.destroy nodusProfile amount).1 ∧
      Follows be marks (st.addDestroyed nodusProfile amount).2
        (m.destroy nodusProfile amount).2 := by
  have wei : m.tx.weiDestroyed = st.weiDestroyed := by
    rw [follows.tx]
    rfl
  simp only [destroy]
  rw [wei]
  by_cases large : 2 ^ 256 ≤ st.weiDestroyed.toNat + amount.toNat ∧ nodusProfile = true
  · rw [State.addDestroyed, if_pos large, if_pos large]
    exact ⟨rfl, follows⟩
  · obtain ⟨answer, writes⟩ := addDestroyed_writes large
    rw [if_neg large]
    refine ⟨answer, follows.writes writes ?_ follows.touched follows.clears ⟨rfl, rfl, rfl, rfl⟩⟩
    rw [write, follows.tx]
    rfl

theorem addTicket (sha3 : Hash) (intentId : Bytes) (amount : Word) (destFp : Bytes) :
    (st.addTicket sha3 intentId amount destFp).1 = (m.ticket sha3 intentId amount destFp).1 ∧
      Follows be marks (st.addTicket sha3 intentId amount destFp).2
        (m.ticket sha3 intentId amount destFp).2 := by
  have tickets : m.tx.tickets = st.tickets := by
    rw [follows.tx]
    rfl
  rw [ticket, tickets]
  by_cases many : 2 ^ 32 - 1 ≤ st.tickets.length
  · rw [State.addTicket, if_pos many, if_pos many]
    exact ⟨rfl, follows⟩
  · obtain ⟨answer, writes⟩ := @addTicket_writes st amount sha3 intentId destFp
      (Nat.not_le.mp many)
    rw [if_neg many]
    refine ⟨answer, follows.writes writes ?_ follows.touched follows.clears ⟨rfl, rfl, rfl, rfl⟩⟩
    rw [write, follows.tx]
    rfl

end

theorem handle {host : Host} (steady : host.be.Steady) (follows : Follows host.be marks st m)
    (command : Prim) :
    (State.handle host command st).1 = (handle host command m).1 ∧
      Follows host.be marks (State.handle host command st).2
        (handle host command m).2 := by
  have tidy := follows.valid.tidy
  have cached := follows.cached
  cases command with
  | getAccountOptional addr =>
    obtain ⟨answer, consults, known⟩ := getAccountOptional_spec cached addr
    exact ⟨follows.account steady addr answer, follows.consults consults known⟩
  | peekAccount addr =>
    obtain ⟨answer, consults, known⟩ := peekAccount_spec cached addr
    exact ⟨follows.account steady addr answer, follows.consults consults known⟩
  | getCode addr acct =>
    obtain ⟨consults, known⟩ := getCode_consults cached addr acct
    exact ⟨follows.code steady addr acct, follows.consults consults known⟩
  | getStorage addr key =>
    obtain ⟨-, consults, known⟩ := getStorage_spec tidy cached addr key
    exact ⟨follows.slot steady addr key, follows.consults consults known⟩
  | getStorageOriginal addr key =>
    obtain ⟨consults, known⟩ := getStorageOriginal_spec cached addr key
    refine ⟨?_, follows.consults consults known⟩
    simp only [State.handle, Snapshots.handle, State.getStorageOriginal]
    rw [follows.created]
    split
    · rfl
    · exact follows.slotBelow steady addr key
  | getTransient addr key =>
    refine ⟨?_, follows⟩
    simp only [State.handle, Snapshots.handle]
    rw [getTransient_eq tidy, follows.tx]
    rfl
  | accountHasStorage addr =>
    obtain ⟨-, consults, known⟩ := accountHasStorage_spec follows.valid cached addr
    simp only [State.handle, Snapshots.handle]
    exact ⟨follows.hasStorage steady addr, follows.consults consults known⟩
  | isCreated addr => exact ⟨congrArg Except.ok (follows.created addr).symm, follows⟩
  | marked => exact ⟨congrArg Except.ok follows.marked, follows⟩
  | blockHash number =>
    obtain ⟨answer, consults, known⟩ := blockHash_spec cached number
    exact ⟨answer.steady steady, follows.consults consults known⟩
  | setAccount addr acct => exact ⟨rfl, follows.setAccount addr acct⟩
  | storeSlot addr key val => exact ⟨rfl, follows.storeSlot addr key val⟩
  | destroyStorage addr => exact follows.destroyStorage addr
  | markAccountCreated addr => exact ⟨rfl, follows.markCreated addr⟩
  | setTransient addr key val => exact ⟨rfl, follows.setTransient addr key val⟩
  | accessAddr addr =>
    obtain ⟨answer, next⟩ := follows.accessAddr addr
    exact ⟨congrArg Except.ok answer, next⟩
  | accessSlot addr key =>
    obtain ⟨answer, next⟩ := follows.accessSlot addr key
    exact ⟨congrArg Except.ok answer, next⟩
  | addToDelete addr => exact ⟨rfl, follows.addToDelete addr⟩
  | addLog log => exact follows.addLog log
  | addDestroyed amount => exact follows.addDestroyed host.nodusProfile amount
  | addTicket intentId amount destFp =>
    simp only [State.handle, Snapshots.handle]
    exact follows.addTicket host.sha3 intentId amount destFp

end Follows

end DnaLedger.Evm
