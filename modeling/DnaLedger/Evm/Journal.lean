import DnaLedger.Evm.Layer

/-!
# What the journal restores

In a valid state the journal leads back to the blank layer.
-/

namespace DnaLedger.Evm

open List Layer

namespace State

/-! ## Tidy states -/

/-- The epochs of the records agree with the lists of touched addresses and written slots. -/
structure Tidy (st : State) : Prop where
  epochPos : 0 < st.epoch
  acctEpoch : ∀ addr, (st.recOf addr).txEpoch ≤ st.epoch
  slotEpoch : ∀ addr key, ((st.recOf addr).slotOf key).txEpoch ≤ st.epoch
  nested : ∀ addr key, st.stxCur addr key = true → st.txCur addr = true
  touched : ∀ addr, addr ∈ st.touched ↔ st.txCur addr = true
  txSlots : ∀ addr key, key ∈ (st.acctAt addr).slots ↔ st.stxCur addr key = true

/-- The records are the same as far as the running transaction goes. -/
structure SameTx (st next : State) : Prop where
  epoch : next.epoch = st.epoch
  txEpoch : ∀ addr, (next.recOf addr).txEpoch = (st.recOf addr).txEpoch
  tx : ∀ addr, (next.recOf addr).tx = (st.recOf addr).tx
  slotEpoch : ∀ addr key,
    ((next.recOf addr).slotOf key).txEpoch = ((st.recOf addr).slotOf key).txEpoch
  slotTx : ∀ addr key, ((next.recOf addr).slotOf key).tx = ((st.recOf addr).slotOf key).tx

section

variable {st next : State} (same : SameTx st next)

include same

theorem SameTx.txCur (addr : Word) : next.txCur addr = st.txCur addr := by
  rw [State.txCur, State.txCur, same.txEpoch, same.epoch]

theorem SameTx.stxCur (addr key : Word) : next.stxCur addr key = st.stxCur addr key := by
  rw [State.stxCur, State.stxCur, same.slotEpoch, same.epoch]

theorem SameTx.acctAt (addr : Word) : next.acctAt addr = st.acctAt addr := by
  rw [State.acctAt, State.acctAt, same.txCur, same.tx]

theorem SameTx.layer (logs : next.logs = st.logs) (tickets : next.tickets = st.tickets)
    (weiDestroyed : next.weiDestroyed = st.weiDestroyed) : next.layer = st.layer := by
  refine Layer.ext ?_ ?_ logs tickets weiDestroyed
  · funext addr
    exact congrArg AcctTx.toAcctLayer (same.acctAt addr)
  · funext addr key
    simp only [State.layer, State.slotAt, same.stxCur, same.slotTx]

theorem SameTx.tidy (touched : next.touched = st.touched) (tidy : Tidy st) : Tidy next where
  epochPos := same.epoch ▸ tidy.epochPos
  acctEpoch addr := by
    rw [same.txEpoch, same.epoch]
    exact tidy.acctEpoch addr
  slotEpoch addr key := by
    rw [same.slotEpoch, same.epoch]
    exact tidy.slotEpoch addr key
  nested addr key := by
    rw [same.stxCur, same.txCur]
    exact tidy.nested addr key
  touched addr := by
    rw [touched, same.txCur]
    exact tidy.touched addr
  txSlots addr key := by
    rw [same.acctAt, same.stxCur]
    exact tidy.txSlots addr key

end

/-- A change of records that keeps the created marker and the written slots right. -/
def Rewritten (st next : State) : Prop :=
  (∃ addr tx slot, Rewrites st next addr tx slot ∧ tx.created = (st.acctAt addr).created ∧
    ∀ key, key ∈ tx.slots ↔ key ∈ (st.acctAt addr).slots ∨ slot.map Prod.fst = some key) ∨
  (next.records = st.records ∧ next.touched = st.touched ∧ next.epoch = st.epoch)

variable {st next : State}

theorem recOf_of_records (records : next.records = st.records) (addr : Word) :
    next.recOf addr = st.recOf addr := by
  rw [recOf, recOf, records]

theorem sameTx_of_records (records : next.records = st.records) (epoch : next.epoch = st.epoch) :
    SameTx st next := by
  have same := recOf_of_records records
  constructor <;> simp [same, epoch]

variable {addr : Word}

theorem Tidy.rewrites (tidy : Tidy st) {tx : AcctTx} {slot : Option (Word × SlotTx)}
    (rewrites : Rewrites st next addr tx slot)
    (slots : ∀ key, key ∈ tx.slots ↔ key ∈ (st.acctAt addr).slots ∨ slot.map Prod.fst = some key) :
    Tidy next where
  epochPos := rewrites.epoch ▸ tidy.epochPos
  acctEpoch other := by
    rw [rewrites.epoch]
    by_cases here : other = addr
    · rw [here, rewrites.txEpoch]
    · rw [rewrites.others other here]
      exact tidy.acctEpoch other
  slotEpoch other key := by
    rw [rewrites.epoch]
    by_cases here : other = addr
    · rw [here, rewrites.slotOf]
      unfold slotsWith
      cases slot with
      | none => exact tidy.slotEpoch addr key
      | some written =>
        simp only
        split
        · exact Nat.le_refl _
        · exact tidy.slotEpoch addr key
    · rw [rewrites.others other here]
      exact tidy.slotEpoch other key
  nested other key current := by
    rw [rewrites.stxCur] at current
    rw [rewrites.txCur]
    by_cases here : other = addr
    · simp [here]
    · simp only [here, false_and, decide_false, Bool.or_false, Bool.false_or] at current ⊢
      exact tidy.nested other key current
  touched other := by
    rw [rewrites.touched, rewrites.txCur]
    have before := tidy.touched other
    split
    next current =>
      rw [before]
      by_cases here : other = addr
      · simp [here, current]
      · simp [here]
    next stale =>
      rw [mem_append, before, mem_singleton]
      simp [or_comm]
  txSlots other key := by
    rw [rewrites.acctAt, rewrites.stxCur]
    by_cases here : other = addr
    · rw [if_pos here, slots, tidy.txSlots, here]
      simp
    · rw [if_neg here, tidy.txSlots]
      simp [here]

section

variable (rewritten : Rewritten st next)

include rewritten

theorem Rewritten.tidy (tidy : Tidy st) : Tidy next := by
  rcases rewritten with ⟨addr, tx, slot, rewrites, -, slots⟩ | ⟨records, touched, epoch⟩
  · exact tidy.rewrites rewrites slots
  · exact (sameTx_of_records records epoch).tidy touched tidy

theorem Rewritten.committed : next.committed = st.committed := by
  rcases rewritten with ⟨addr, tx, slot, rewrites, -, -⟩ | ⟨records, -, -⟩
  · exact rewrites.committed
  · simp only [State.committed, recOf_of_records records]

theorem Rewritten.cache : next.cache = st.cache := by
  rcases rewritten with ⟨addr, tx, slot, rewrites, -, -⟩ | ⟨records, -, -⟩
  · exact rewrites.cache
  · simp only [State.cache, recOf_of_records records]

theorem Rewritten.epoch : next.epoch = st.epoch := by
  rcases rewritten with ⟨addr, tx, slot, rewrites, -, -⟩ | ⟨-, -, epoch⟩
  · exact rewrites.epoch
  · exact epoch

end

theorem isCreated_eq (st : State) (addr : Word) : st.isCreated addr = (st.acctAt addr).created := by
  rw [isCreated, acctAt]
  cases st.txCur addr <;> rfl

variable (rewritten : Rewritten st next)

include rewritten

theorem Rewritten.isCreated (addr : Word) : next.isCreated addr = st.isCreated addr := by
  rw [isCreated_eq, isCreated_eq]
  rcases rewritten with ⟨addr', tx, slot, rewrites, created, -⟩ | ⟨records, -, epoch⟩
  · rw [rewrites.acctAt]
    split
    next same => rw [created, same]
    next => rfl
  · rw [(sameTx_of_records records epoch).acctAt]

theorem Rewritten.txCur (current : st.txCur addr = true) : next.txCur addr = true := by
  rcases rewritten with ⟨addr', tx, slot, rewrites, -, -⟩ | ⟨records, -, epoch⟩
  · rw [rewrites.txCur, current, Bool.or_true]
  · rwa [(sameTx_of_records records epoch).txCur]

theorem Rewritten.stxCur {key : Word} (current : st.stxCur addr key = true) :
    next.stxCur addr key = true := by
  rcases rewritten with ⟨addr', tx, slot, rewrites, -, -⟩ | ⟨records, -, epoch⟩
  · rw [rewrites.stxCur, current, Bool.true_or]
  · rwa [(sameTx_of_records records epoch).stxCur]

end State

/-- The records that an entry is about belong to the running transaction. -/
def Entry.Current (st : State) : Entry → Prop
  | .acct addr _ | .clear addr _ _ _ | .warmAddr addr | .delete addr => st.txCur addr = true
  | .store addr key _ _ _ _ | .transient addr key _ | .warmSlot addr key =>
    st.txCur addr = true ∧ st.stxCur addr key = true
  | .log | .weiDestroyed _ | .ticket => True

variable {entry : Entry}

theorem Entry.Current.mono {st next : State} (current : entry.Current st)
    (tx : ∀ {addr}, st.txCur addr = true → next.txCur addr = true)
    (slot : ∀ {addr key}, st.stxCur addr key = true → next.stxCur addr key = true) :
    entry.Current next := by
  cases entry with
  | acct addr old | clear addr cleared gen nwrites | warmAddr addr | delete addr =>
    exact tx current
  | store addr key present gen val nwrites | transient addr key val | warmSlot addr key =>
    exact ⟨tx current.1, slot current.2⟩
  | log | weiDestroyed val | ticket => trivial

theorem Entry.Current.rewritten {st next : State} (current : entry.Current st)
    (rewritten : State.Rewritten st next) : entry.Current next :=
  current.mono rewritten.txCur rewritten.stxCur

namespace State

variable {st next : State} {entry : Entry}

theorem undo_spec (current : entry.Current st) (tidy : Tidy st) :
    Rewritten st (st.undo entry) ∧ (st.undo entry).layer = st.layer.undo entry := by
  have mem : ∀ {addr key}, st.stxCur addr key = true → ∀ key', key' ∈ (st.acctAt addr).slots ↔
      key' ∈ (st.acctAt addr).slots ∨ some key = some key' := by
    intro addr key slot key'
    rw [Option.some.injEq, tidy.txSlots]
    constructor
    · exact Or.inl
    · rintro (inside | rfl)
      · exact inside
      · exact slot
  cases entry with
  | acct addr old | clear addr cleared gen nwrites | warmAddr addr | delete addr =>
    simp only [undo, undo]
    have rewrites := (rewrites_self current).updateTx
    refine ⟨Or.inl ⟨addr, _, none, rewrites _, rfl, by simp⟩, ?_⟩
    exact (rewrites _).layer rfl rfl rfl
  | store addr key present gen val nwrites =>
    have rewrites := ((rewrites_self_slot current.1 current.2).updateSlotTx fun tx =>
      { tx with present := present, gen := gen, val := val }).updateTx fun tx =>
        { tx with nwrites := nwrites }
    exact ⟨Or.inl ⟨addr, _, _, rewrites, rfl, mem current.2⟩, rewrites.layer rfl rfl rfl⟩
  | transient addr key val =>
    have rewrites := (rewrites_self_slot current.1 current.2).updateSlotTx fun tx =>
      { tx with transient := val }
    exact ⟨Or.inl ⟨addr, _, _, rewrites, rfl, mem current.2⟩,
      (rewrites.layer rfl rfl rfl).trans (rewrite_slot st.layer addr key fun tx =>
        { tx with transient := val })⟩
  | warmSlot addr key =>
    have rewrites := (rewrites_self_slot current.1 current.2).updateSlotTx fun tx =>
      { tx with warm := false }
    exact ⟨Or.inl ⟨addr, _, _, rewrites, rfl, mem current.2⟩,
      (rewrites.layer rfl rfl rfl).trans (rewrite_slot st.layer addr key fun tx =>
        { tx with warm := false })⟩
  | log | weiDestroyed val | ticket => exact ⟨Or.inr ⟨rfl, rfl, rfl⟩, rfl⟩

/-- A state that operations can lead to, as far as its journal goes. -/
structure Valid (st : State) : Prop where
  tidy : Tidy st
  current : ∀ entry ∈ st.journal, entry.Current st
  history : History st.genCounter st.journal st.layer
  counted : ∀ addr, st.committed.nwrites addr = 0 ↔ ∀ key, st.committed.slots addr key = none

theorem SameTx.valid (same : SameTx st next) (journal : next.journal = st.journal)
    (genCounter : next.genCounter = st.genCounter) (touched : next.touched = st.touched)
    (layer : next.layer = st.layer) (counted : ∀ addr, next.committed.nwrites addr = 0 ↔
      ∀ key, next.committed.slots addr key = none) (valid : Valid st) : Valid next where
  tidy := same.tidy touched valid.tidy
  current entry mem := (valid.current entry (journal ▸ mem)).mono
    (same.txCur _).trans (same.stxCur _ _).trans
  history := by
    rw [genCounter, journal, layer]
    exact valid.history
  counted := counted

def layerAt (st : State) (mark : Nat) : Layer :=
  st.layer.undoAll (st.journal.take (st.journal.length - mark))

theorem layerAt_length (st : State) : st.layerAt st.journal.length = st.layer := by
  rw [layerAt, Nat.sub_self, take_zero, undoAll_nil]

theorem undo_rest (st : State) (entry : Entry) :
    (st.undo entry).journal = st.journal ∧ (st.undo entry).genCounter = st.genCounter ∧
      (st.undo entry).touched = st.touched := by
  cases entry <;> exact ⟨rfl, rfl, rfl⟩

/-- What undoing entries keeps, whatever they are. -/
structure Unwound (st next : State) : Prop where
  committed : next.committed = st.committed
  cache : next.cache = st.cache
  isCreated : ∀ addr, next.isCreated addr = st.isCreated addr
  genCounter : next.genCounter = st.genCounter
  epoch : next.epoch = st.epoch
  touched : next.touched = st.touched

theorem Unwound.refl (st : State) : Unwound st st :=
  ⟨rfl, rfl, fun _ => rfl, rfl, rfl, rfl⟩

theorem Unwound.trans {last : State} (first : Unwound st next) (second : Unwound next last) :
    Unwound st last where
  committed := second.committed.trans first.committed
  cache := second.cache.trans first.cache
  isCreated addr := (second.isCreated addr).trans (first.isCreated addr)
  genCounter := second.genCounter.trans first.genCounter
  epoch := second.epoch.trans first.epoch
  touched := second.touched.trans first.touched

theorem Valid.undo (valid : Valid st) {rest : List Entry} (journal : st.journal = entry :: rest) :
    Valid (State.undo { st with journal := rest } entry) ∧
      (State.undo { st with journal := rest } entry).journal = rest ∧
      (State.undo { st with journal := rest } entry).layer = st.layer.undo entry ∧
      Unwound st (State.undo { st with journal := rest } entry) := by
  have popped : Rewritten st { st with journal := rest } := Or.inr ⟨rfl, rfl, rfl⟩
  have history := valid.history
  rw [journal] at history
  have current : ∀ other ∈ entry :: rest, other.Current { st with journal := rest } := by
    intro other mem
    exact (valid.current other (journal ▸ mem)).rewritten popped
  obtain ⟨rewritten, layer⟩ := undo_spec (current entry mem_cons_self)
    (popped.tidy valid.tidy)
  obtain ⟨left, genCounter, touched⟩ := undo_rest { st with journal := rest } entry
  have unwound : Unwound st (State.undo { st with journal := rest } entry) := {
    committed := rewritten.committed
    cache := rewritten.cache
    isCreated := rewritten.isCreated
    genCounter := genCounter
    epoch := rewritten.epoch
    touched := touched }
  refine ⟨?_, left, layer, unwound⟩
  exact {
    tidy := rewritten.tidy (popped.tidy valid.tidy)
    current := by
      intro other mem
      rw [left] at mem
      exact (current other (mem_cons_of_mem _ mem)).rewritten rewritten
    history := by
      rw [left, genCounter, layer]
      exact history.2
    counted := by
      rw [unwound.committed]
      exact valid.counted }

theorem Valid.undoLast (valid : Valid st) {count : Nat} (enough : count ≤ st.journal.length) :
    Valid (st.undoLast count) ∧ (st.undoLast count).journal = st.journal.drop count ∧
      (st.undoLast count).layer = st.layer.undoAll (st.journal.take count) ∧
      Unwound st (st.undoLast count) := by
  induction count generalizing st with
  | zero => exact ⟨valid, rfl, rfl, Unwound.refl st⟩
  | succ count ih =>
    rw [undoLast]
    cases journal : st.journal with
    | nil => simp [journal] at enough
    | cons entry rest =>
      obtain ⟨next, left, layer, unwound⟩ := valid.undo journal
      rw [journal, length_cons] at enough
      obtain ⟨last, left', layer', unwound'⟩ := ih next (by rw [left]; omega)
      refine ⟨last, ?_, ?_, unwound.trans unwound'⟩
      · rw [left', left, drop_succ_cons]
      · rw [layer', left, layer, take_succ_cons, undoAll_cons]

variable {mark : Nat} {slot : Option (Word × SlotTx)} {amount : Word}

theorem Valid.revert (valid : Valid st) (old : mark ≤ st.journal.length) :
    Valid (st.revert mark) ∧ (st.revert mark).journal.length = mark ∧
      (∀ earlier ≤ mark, (st.revert mark).layerAt earlier = st.layerAt earlier) ∧
      Unwound st (st.revert mark) := by
  obtain ⟨last, left, layer, unwound⟩ := valid.undoLast (Nat.sub_le st.journal.length mark)
  have length : (st.revert mark).journal.length = mark := by
    rw [State.revert, left, length_drop]
    omega
  refine ⟨last, length, ?_, unwound⟩
  intro earlier before
  rw [layerAt, layerAt, length, State.revert, left, layer, ← undoAll_append]
  congr 1
  rw [← take_add]
  congr 1
  omega

theorem Valid.layer_revert (valid : Valid st) (old : mark ≤ st.journal.length) :
    (st.revert mark).layer = st.layerAt mark := by
  obtain ⟨-, length, layers, -⟩ := valid.revert old
  have here := (st.revert mark).layerAt_length
  rw [length] at here
  rw [← layers mark (Nat.le_refl _), here]

/-! ## Writes -/

/-- A state that goes back to another one when its further entries are undone. -/
def Extends (st next : State) : Prop :=
  ∃ entries, next.journal = entries ++ st.journal ∧ next.layer.undoAll entries = st.layer

theorem Extends.refl (st : State) : Extends st st :=
  ⟨[], rfl, rfl⟩

theorem Extends.layerAt (extended : Extends st next) (old : mark ≤ st.journal.length) :
    next.layerAt mark = st.layerAt mark := by
  obtain ⟨entries, journal, undone⟩ := extended
  rw [State.layerAt, State.layerAt, journal, length_append, take_append,
    take_of_length_le (by omega), undoAll_append, undone]
  congr 2
  omega

structure Writes (st next : State) (entry : Entry) : Prop where
  rewritten : Rewritten st next
  journal : next.journal = entry :: st.journal
  undone : next.layer.undo entry = st.layer
  current : entry.Current next
  genCounter : st.genCounter ≤ next.genCounter
  good : st.layer.Good st.genCounter → next.layer.Good next.genCounter

/-- One journaled write, with the touched addresses, the counter and the layer after it. -/
structure WritesTo (st next : State) (entry : Entry) (after : List Word) (counter : Nat)
    (layer : Layer) : Prop extends Writes st next entry where
  touched_eq : next.touched = after
  genCounter_eq : next.genCounter = counter
  layer_eq : next.layer = layer

theorem Writes.extends (writes : Writes st next entry) : Extends st next :=
  ⟨[entry], writes.journal, writes.undone⟩

theorem Writes.valid (writes : Writes st next entry) (valid : Valid st) : Valid next where
  tidy := writes.rewritten.tidy valid.tidy
  current := by
    intro other mem
    rw [writes.journal] at mem
    rcases mem_cons.mp mem with rfl | old
    · exact writes.current
    · exact (valid.current other old).rewritten writes.rewritten
  history := by
    rw [writes.journal]
    refine ⟨writes.good valid.history.good, ?_⟩
    rw [writes.undone]
    exact valid.history.mono writes.genCounter
  counted := by
    rw [writes.rewritten.committed]
    exact valid.counted

structure SameRest (st next : State) : Prop where
  genCounter : next.genCounter = st.genCounter
  journal : next.journal = st.journal
  logs : next.logs = st.logs
  tickets : next.tickets = st.tickets
  weiDestroyed : next.weiDestroyed = st.weiDestroyed

theorem sameRest_touch (st : State) (addr : Word) : SameRest st (st.touch addr) := by
  unfold touch
  split <;> exact ⟨rfl, rfl, rfl, rfl, rfl⟩

theorem sameRest_touchSlot (st : State) (addr key : Word) :
    SameRest st (st.touchSlot addr key) := by
  have touched := sameRest_touch st addr
  unfold touchSlot
  split
  · exact touched
  · exact ⟨touched.genCounter, touched.journal, touched.logs, touched.tickets, touched.weiDestroyed⟩

variable {addr : Word} {tx : AcctTx}

theorem SameRest.layer (rest : SameRest st next) (rewrites : Rewrites st next addr tx slot) :
    next.layer = st.layer.rewrite addr tx.toAcctLayer slot :=
  rewrites.layer rest.logs rest.tickets rest.weiDestroyed

theorem Rewrites.valid_silent (rewrites : Rewrites st next addr tx none)
    (slots : tx.slots = (st.acctAt addr).slots) (layer : next.layer = st.layer)
    (rest : SameRest st next) (valid : Valid st) : Valid next where
  tidy := valid.tidy.rewrites rewrites (by simp [slots])
  current := by
    intro entry mem
    rw [rest.journal] at mem
    apply (valid.current entry mem).mono
    · intro other current
      rw [rewrites.txCur, current, Bool.or_true]
    · intro other key current
      rw [rewrites.stxCur, current, Bool.true_or]
  history := by
    rw [rest.genCounter, rest.journal, layer]
    exact valid.history
  counted := by
    rw [rewrites.committed]
    exact valid.counted

theorem mem_slots_touchSlot (tidy : Tidy st) (addr key : Word) (other : Word) :
    (other ∈ if st.stxCur addr key then (st.acctAt addr).slots
      else (st.acctAt addr).slots ++ [key]) ↔
      other ∈ (st.acctAt addr).slots ∨ some key = some other := by
  rw [Option.some.injEq]
  split
  next current =>
    constructor
    · exact Or.inl
    · rintro (inside | rfl)
      · exact inside
      · exact (tidy.txSlots addr key).mpr current
  next => rw [mem_append, mem_singleton, eq_comm]

theorem Rewrites.txCur_self (rewrites : Rewrites st next addr tx slot) :
    next.txCur addr = true := by
  simp [rewrites.txCur]

theorem Rewrites.stxCur_self {key : Word} {s : SlotTx}
    (rewrites : Rewrites st next addr tx (some (key, s))) : next.stxCur addr key = true := by
  simp [rewrites.stxCur]

section

variable (st : State) (addr : Word)

theorem rewritten_touch : Rewritten st (st.touch addr) ∧ (st.touch addr).layer = st.layer := by
  have rewrites := rewrites_touch st addr
  refine ⟨Or.inl ⟨addr, _, none, rewrites, rfl, by simp⟩, ?_⟩
  rw [(sameRest_touch st addr).layer rewrites, rewrite]
  apply changeAcct_id
  rfl

theorem tx_touch : ((st.touch addr).recOf addr).tx = st.acctAt addr :=
  (rewrites_touch st addr).tx

variable {st addr}

theorem writes_acct {change : AcctTx → AcctTx} {change' back : AcctLayer → AcctLayer}
    (layers : ∀ tx, (change tx).toAcctLayer = change' tx.toAcctLayer)
    (others : ∀ tx, (change tx).created = tx.created ∧ (change tx).slots = tx.slots)
    (storage : ∀ a, (change' a).gen = a.gen ∧ (change' a).nwrites = a.nwrites)
    (undo : ∀ layer : Layer, layer.undo entry = layer.changeAcct addr back)
    (undone : back (change' (st.layer.accts addr)) = st.layer.accts addr)
    (current : ∀ state : State, state.txCur addr = true → entry.Current state) :
    WritesTo st (((st.touch addr).push entry).updateTx addr change) entry (st.touch addr).touched
      st.genCounter (st.layer.changeAcct addr change') := by
  have rewrites := ((rewrites_touch st addr).push entry).updateTx change
  have rest := sameRest_touch st addr
  have layer : (((st.touch addr).push entry).updateTx addr change).layer =
      st.layer.changeAcct addr change' := by
    rw [rewrites.layer rest.logs rest.tickets rest.weiDestroyed, rewrite, layers]
    rfl
  exact {
    rewritten := Or.inl ⟨addr, _, none, rewrites, (others _).1, by simp [(others _).2]⟩
    journal := congrArg _ rest.journal
    undone := by rw [layer, undo, changeAcct_changeAcct, changeAcct_id _ _ _ undone]
    current := current _ rewrites.txCur_self
    genCounter := rest.genCounter.ge
    good := fun good => by
      have counter : (((st.touch addr).push entry).updateTx addr change).genCounter =
          st.genCounter := rest.genCounter
      rw [layer, counter]
      exact good.changeAcct addr _ (storage _).1 (storage _).2
    touched_eq := rfl
    genCounter_eq := rest.genCounter
    layer_eq := layer }

theorem setAccount_writes (acct : Option Acct) :
    WritesTo st (st.setAccount addr acct) (.acct addr (st.acctAt addr).acct)
      (st.touch addr).touched st.genCounter
      (st.layer.changeAcct addr fun a => { a with acct := some acct }) := by
  rw [setAccount, tx_touch]
  refine writes_acct (fun _ => ?_) (fun _ => ?_) (fun _ => ?_) (fun _ => by rw [Layer.undo]) ?_ ?_
  · rfl
  · exact ⟨rfl, rfl⟩
  · exact ⟨rfl, rfl⟩
  · rfl
  · exact fun _ current => current

theorem accessAddr_warm (warm : (st.acctAt addr).warm = true) :
    st.accessAddr addr = (true, st) := by
  rw [acctAt] at warm
  split at warm
  next current => rw [accessAddr, if_pos ⟨current, warm⟩]
  next => cases warm

theorem accessAddr_writes (cold : (st.acctAt addr).warm = false) :
    (st.accessAddr addr).1 = false ∧ WritesTo st (st.accessAddr addr).2 (.warmAddr addr)
      (st.touch addr).touched st.genCounter
      (st.layer.changeAcct addr fun a => { a with warm := true }) := by
  have fresh : ¬ (st.txCur addr = true ∧ (st.recOf addr).tx.warm = true) := by
    rintro ⟨current, warm⟩
    rw [acctAt, if_pos current, warm] at cold
    cases cold
  rw [accessAddr, if_neg fresh]
  refine ⟨rfl, ?_⟩
  dsimp only
  refine writes_acct (fun _ => ?_) (fun _ => ?_) (fun _ => ?_) (fun _ => by rw [Layer.undo]) ?_ ?_
  · rfl
  · exact ⟨rfl, rfl⟩
  · exact ⟨rfl, rfl⟩
  · exact congrArg (fun warm => { st.layer.accts addr with warm := warm }) cold.symm
  · exact fun _ current => current

theorem addToDelete_again (again : (st.acctAt addr).toDelete = true) :
    st.addToDelete addr = st.touch addr := by
  simp only [addToDelete]
  rw [tx_touch, if_pos again]

theorem addToDelete_writes (first : (st.acctAt addr).toDelete = false) :
    WritesTo st (st.addToDelete addr) (.delete addr) (st.touch addr).touched st.genCounter
      (st.layer.changeAcct addr fun a => { a with toDelete := true }) := by
  simp only [addToDelete]
  rw [tx_touch, if_neg (by rw [first]; exact Bool.false_ne_true)]
  refine writes_acct (fun _ => ?_) (fun _ => ?_) (fun _ => ?_) (fun _ => by rw [Layer.undo]) ?_ ?_
  · rfl
  · exact ⟨rfl, rfl⟩
  · exact ⟨rfl, rfl⟩
  · exact congrArg (fun flag => { st.layer.accts addr with toDelete := flag }) first.symm
  · exact fun _ current => current

/-- The storage of an address is cleared under a generation that nothing was written with. -/
theorem destroyStorage_writes (left : st.genCounter ≠ counterMax) :
    (st.destroyStorage addr).1 = .ok () ∧
      WritesTo st (st.destroyStorage addr).2
        (.clear addr (st.acctAt addr).cleared (st.acctAt addr).gen (st.acctAt addr).nwrites)
        (st.touch addr).touched (st.genCounter + 1) (st.layer.changeAcct addr fun a =>
          { a with cleared := true, gen := st.genCounter + 1, nwrites := 0 }) := by
  have rest := sameRest_touch st addr
  have left' : (st.touch addr).genCounter ≠ counterMax := by rwa [rest.genCounter]
  have touched := rewrites_touch st addr
  have pushed : Rewrites st { (st.touch addr).push (.clear addr (st.acctAt addr).cleared
      (st.acctAt addr).gen (st.acctAt addr).nwrites) with genCounter := st.genCounter + 1 } addr
        (st.acctAt addr) none := { touched with }
  have rewrites := pushed.updateTx fun tx =>
    { tx with cleared := true, gen := st.genCounter + 1, nwrites := 0 }
  simp only [destroyStorage]
  rw [if_neg left', tx_touch, rest.genCounter]
  have layer := rewrites.layer rest.logs rest.tickets rest.weiDestroyed
  refine ⟨rfl, ?_⟩
  exact {
    rewritten := Or.inl ⟨addr, _, none, rewrites, rfl, by simp⟩
    journal := congrArg _ rest.journal
    undone := by
      rw [layer, rewrite, Layer.undo, changeAcct_changeAcct]
      apply changeAcct_id
      rfl
    current := rewrites.txCur_self
    genCounter := Nat.le_succ _
    good := fun good => by
      rw [layer]
      constructor
      · intro other
        simp only [rewrite, changeAcct, Function.update_apply]
        split
        · exact Nat.le_refl _
        · exact (good.acctGen other).trans (Nat.le_succ _)
      · exact fun other key => (good.slotGen other key).trans (Nat.le_succ _)
      · intro other
        have older := fun key => good.slotGen other key
        simp only [Written, rewrite, changeAcct, Function.update_apply]
        split
        next =>
          refine ⟨fun _ key written => ?_, fun _ => rfl⟩
          have fresh : (st.layer.slots other key).gen = st.genCounter + 1 := written.2
          have := older key
          omega
        next => exact good.nwrites other
    touched_eq := rfl
    genCounter_eq := rfl
    layer_eq := layer }

theorem markAccountCreated_spec :
    (∃ tx, Rewrites st (st.markAccountCreated addr) addr tx none ∧ tx.created = true ∧
      tx.slots = (st.acctAt addr).slots) ∧
      (st.markAccountCreated addr).layer = st.layer ∧
      SameRest st (st.markAccountCreated addr) := by
  have touched := sameRest_touch st addr
  have rewrites := (rewrites_touch st addr).updateTx fun tx => { tx with created := true }
  have rest : SameRest st (st.markAccountCreated addr) :=
    ⟨touched.genCounter, touched.journal, touched.logs, touched.tickets, touched.weiDestroyed⟩
  refine ⟨⟨_, rewrites, rfl, rfl⟩, ?_, rest⟩
  refine (rest.layer rewrites).trans ?_
  rw [rewrite]
  apply changeAcct_id
  rfl

end

section

variable {st : State} {addr key : Word}

theorem slot_touchSlot (st : State) (addr key : Word) :
    (((st.touchSlot addr key).recOf addr).slotOf key).tx = st.slotAt addr key := by
  rw [(rewrites_touchSlot st addr key).slotOf]
  simp [slotsWith]

theorem touched_touchSlot (st : State) (addr key : Word) :
    (st.touchSlot addr key).touched = (st.touch addr).touched := by
  rw [(rewrites_touchSlot st addr key).touched, (rewrites_touch st addr).touched]

variable (tidy : Tidy st)

include tidy

theorem writes_slot {change : SlotTx → SlotTx}
    (stored : ∀ s, (change s).present = s.present ∧ (change s).gen = s.gen)
    (undone : (st.layer.changeSlot addr key change).undo entry = st.layer)
    (current : ∀ state : State, state.txCur addr = true → state.stxCur addr key = true →
      entry.Current state) :
    WritesTo st (((st.touchSlot addr key).push entry).updateSlotTx addr key change) entry
      (st.touch addr).touched st.genCounter (st.layer.changeSlot addr key change) := by
  have rewrites := ((rewrites_touchSlot st addr key).push entry).updateSlotTx change
  have rest := sameRest_touchSlot st addr key
  have touches := touched_touchSlot st addr key
  generalize st.touchSlot addr key = touched at rewrites rest touches
  have layer : ((touched.push entry).updateSlotTx addr key change).layer =
      st.layer.changeSlot addr key change :=
    (rewrites.layer rest.logs rest.tickets rest.weiDestroyed).trans
      (rewrite_slot st.layer addr key change)
  exact {
    rewritten := Or.inl ⟨addr, _, _, rewrites, rfl, mem_slots_touchSlot tidy addr key⟩
    journal := congrArg _ rest.journal
    undone := by rw [layer, undone]
    current := current _ rewrites.txCur_self rewrites.stxCur_self
    genCounter := rest.genCounter.ge
    good := fun good => by
      have counter : ((touched.push entry).updateSlotTx addr key change).genCounter =
          st.genCounter := rest.genCounter
      rw [layer, counter]
      exact good.changeSlot addr key _ (stored _).1 (stored _).2
    touched_eq := touches
    genCounter_eq := rest.genCounter
    layer_eq := layer }

theorem setTransient_writes (val : Word) :
    WritesTo st (st.setTransient addr key val)
      (.transient addr key (st.slotAt addr key).transient) (st.touch addr).touched st.genCounter
      (st.layer.changeSlot addr key fun s => { s with transient := val }) := by
  rw [setTransient, slot_touchSlot]
  refine writes_slot tidy (fun _ => ?_) ?_ ?_
  · exact ⟨rfl, rfl⟩
  · rw [Layer.undo, changeSlot_changeSlot]
    apply changeSlot_id
    rfl
  · exact fun _ first second => ⟨first, second⟩

theorem accessSlot_warm (warm : (st.slotAt addr key).warm = true) :
    st.accessSlot addr key = (true, st) := by
  rw [slotAt] at warm
  split at warm
  next current => rw [accessSlot, if_pos ⟨tidy.nested addr key current, current, warm⟩]
  next => cases warm

theorem accessSlot_writes (cold : (st.slotAt addr key).warm = false) :
    (st.accessSlot addr key).1 = false ∧
      WritesTo st (st.accessSlot addr key).2 (.warmSlot addr key) (st.touch addr).touched
        st.genCounter (st.layer.changeSlot addr key fun s => { s with warm := true }) := by
  have fresh : ¬ (st.txCur addr = true ∧ st.stxCur addr key = true ∧
      ((st.recOf addr).slotOf key).tx.warm = true) := by
    rintro ⟨-, current, warm⟩
    rw [slotAt, if_pos current, warm] at cold
    cases cold
  rw [accessSlot, if_neg fresh]
  refine ⟨rfl, ?_⟩
  dsimp only
  refine writes_slot tidy (fun _ => ?_) ?_ ?_
  · exact ⟨rfl, rfl⟩
  · rw [Layer.undo, changeSlot_changeSlot]
    apply changeSlot_id
    exact congrArg (fun warm => { st.layer.slots addr key with warm := warm }) cold.symm
  · exact fun _ first second => ⟨first, second⟩

theorem storeSlot_writes (val : Word) :
    WritesTo st (st.storeSlot addr key val)
      (.store addr key (st.slotAt addr key).present (st.slotAt addr key).gen
        (st.slotAt addr key).val (st.acctAt addr).nwrites) (st.touch addr).touched st.genCounter
      (st.layer.store addr key val) := by
  have touched := rewrites_touchSlot st addr key
  have rest := sameRest_touchSlot st addr key
  have rewrites := ((touched.push (.store addr key (st.slotAt addr key).present
    (st.slotAt addr key).gen (st.slotAt addr key).val (st.acctAt addr).nwrites)).updateTx fun tx =>
      { tx with nwrites := if (st.slotAt addr key).present = true ∧
          (st.slotAt addr key).gen = (st.acctAt addr).gen then (st.acctAt addr).nwrites
        else (st.acctAt addr).nwrites + 1 }).updateSlotTx fun tx =>
          { tx with present := true, gen := (st.acctAt addr).gen, val := val }
  simp only [storeSlot]
  rw [slot_touchSlot, touched.tx]
  clear touched
  have touches := touched_touchSlot st addr key
  generalize st.touchSlot addr key = touched at rewrites rest touches
  have layer := rewrites.layer rest.logs rest.tickets rest.weiDestroyed
  exact {
    rewritten := Or.inl ⟨addr, _, _, rewrites, rfl, mem_slots_touchSlot tidy addr key⟩
    journal := congrArg _ rest.journal
    undone := by
      rw [layer]
      exact undo_store st.layer addr key val
    current := ⟨rewrites.txCur_self, rewrites.stxCur_self⟩
    genCounter := rest.genCounter.ge
    good := fun good => by
      rw [layer]
      have counter := rest.genCounter
      exact counter ▸ good.store addr key val
    touched_eq := touches
    genCounter_eq := rest.genCounter
    layer_eq := layer }

end

theorem writes_outside {logs : List Log} {tickets : List Ticket} {wei : Word}
    (current : ∀ state : State, entry.Current state)
    (undone : Layer.undo { st.layer with
      logs := logs, tickets := tickets, weiDestroyed := wei } entry = st.layer) :
    WritesTo st { st.push entry with logs := logs, tickets := tickets, weiDestroyed := wei } entry
      st.touched st.genCounter
      { st.layer with logs := logs, tickets := tickets, weiDestroyed := wei } where
  rewritten := Or.inr ⟨rfl, rfl, rfl⟩
  journal := rfl
  undone := undone
  current := current _
  genCounter := Nat.le_refl _
  good := fun good => ⟨good.acctGen, good.slotGen, good.nwrites⟩
  touched_eq := rfl
  genCounter_eq := rfl
  layer_eq := rfl

theorem addLog_writes {log : Log} (few : log.topics.length ≤ 4) :
    (st.addLog log).1 = .ok () ∧ WritesTo st (st.addLog log).2 .log st.touched st.genCounter
      { st.layer with logs := st.logs ++ [log] } := by
  rw [addLog, if_neg (Nat.not_lt.mpr few)]
  refine ⟨rfl, writes_outside (fun _ => trivial) ?_⟩
  exact Layer.ext rfl rfl (dropLast_concat ..) rfl rfl

theorem addDestroyed_writes {nodusProfile : Bool}
    (fits : ¬ (2 ^ 256 ≤ st.weiDestroyed.toNat + amount.toNat ∧ nodusProfile = true)) :
    (st.addDestroyed nodusProfile amount).1 = .ok () ∧
      WritesTo st (st.addDestroyed nodusProfile amount).2 (.weiDestroyed st.weiDestroyed)
        st.touched st.genCounter { st.layer with
          weiDestroyed := if 2 ^ 256 ≤ st.weiDestroyed.toNat + amount.toNat
            then BitVec.allOnes 256
            else BitVec.ofNat 256 (st.weiDestroyed.toNat + amount.toNat) } := by
  rw [addDestroyed, if_neg fits]
  generalize (if 2 ^ 256 ≤ st.weiDestroyed.toNat + amount.toNat then BitVec.allOnes 256
    else BitVec.ofNat 256 (st.weiDestroyed.toNat + amount.toNat)) = wei
  exact ⟨rfl, writes_outside (fun _ => trivial) rfl⟩

theorem addTicket_writes {sha3 : Hash} {intentId destFp : Bytes}
    (few : st.tickets.length < 2 ^ 32 - 1) :
    (st.addTicket sha3 intentId amount destFp).1 = .ok () ∧
      WritesTo st (st.addTicket sha3 intentId amount destFp).2 .ticket st.touched st.genCounter
        { st.layer with
          tickets := st.tickets ++
            [⟨sha3 (ticketDomain ++ intentId ++ bigEndian 4 st.tickets.length), amount,
              destFp⟩] } := by
  rw [addTicket, if_neg (Nat.not_le.mpr few)]
  generalize (⟨sha3 (ticketDomain ++ intentId ++ bigEndian 4 st.tickets.length), amount,
    destFp⟩ : Ticket) = ticket
  refine ⟨rfl, writes_outside (fun _ => trivial) ?_⟩
  exact Layer.ext rfl rfl rfl (dropLast_concat ..) rfl

end State

end DnaLedger.Evm
