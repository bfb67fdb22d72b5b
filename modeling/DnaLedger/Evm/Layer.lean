import DnaLedger.Evm.State

/-!
# Layers

The layer of a state is the journaled part of its running transaction, with records of earlier
transactions read as blank.
-/

namespace DnaLedger.Evm

open SearchTree Function

@[simp] theorem AddrRec.slotOf_putSlot (a : AddrRec) (key other : Word) (s : SlotRec) :
    (a.putSlot key s).slotOf other = if other = key then s else a.slotOf other := by
  rw [slotOf, putSlot, Map.get?_set]
  split <;> rfl

namespace State

@[simp] theorem recOf_putRec (st : State) (addr other : Word) (a : AddrRec) :
    (st.putRec addr a).recOf other = if other = addr then a else st.recOf other := by
  rw [recOf, putRec, Map.get?_set]
  split <;> rfl

end State

/-! ## Layers -/

/-- The journaled part of a transaction. -/
@[ext]
structure Layer where
  accts : Word → AcctLayer
  slots : Word → Word → SlotTx
  logs : List Log
  tickets : List Ticket
  weiDestroyed : Word

namespace Layer

def blank : Layer :=
  ⟨fun _ => AcctTx.blank.toAcctLayer, fun _ _ => .blank, [], [], 0⟩

section

variable (layer : Layer)

def changeAcct (addr : Word) (change : AcctLayer → AcctLayer) : Layer :=
  { layer with accts := update layer.accts addr (change (layer.accts addr)) }

def changeSlot (addr key : Word) (change : SlotTx → SlotTx) : Layer :=
  { layer with
    slots := update layer.slots addr
      (update (layer.slots addr) key (change (layer.slots addr key))) }

def undo : Entry → Layer
  | .acct addr old => layer.changeAcct addr fun a => { a with acct := old }
  | .clear addr cleared gen nwrites => layer.changeAcct addr fun a =>
    { a with cleared := cleared, gen := gen, nwrites := nwrites }
  | .store addr key present gen val nwrites =>
    (layer.changeSlot addr key fun s =>
      { s with present := present, gen := gen, val := val }).changeAcct addr fun a =>
        { a with nwrites := nwrites }
  | .transient addr key val => layer.changeSlot addr key fun s => { s with transient := val }
  | .warmAddr addr => layer.changeAcct addr fun a => { a with warm := false }
  | .warmSlot addr key => layer.changeSlot addr key fun s => { s with warm := false }
  | .delete addr => layer.changeAcct addr fun a => { a with toDelete := false }
  | .log => { layer with logs := layer.logs.dropLast }
  | .weiDestroyed val => { layer with weiDestroyed := val }
  | .ticket => { layer with tickets := layer.tickets.dropLast }

/-- Entries are undone from the front of the list, which is the end of the journal. -/
def undoAll (entries : List Entry) : Layer :=
  entries.foldl undo layer

@[simp] theorem undoAll_nil : layer.undoAll [] = layer := rfl

@[simp] theorem undoAll_cons (entry : Entry) (rest : List Entry) :
    layer.undoAll (entry :: rest) = (layer.undo entry).undoAll rest := rfl

@[simp] theorem undoAll_append (first second : List Entry) :
    layer.undoAll (first ++ second) = (layer.undoAll first).undoAll second :=
  List.foldl_append

end

section

variable (layer : Layer) (addr key : Word)

theorem changeAcct_id (change : AcctLayer → AcctLayer)
    (eq : change (layer.accts addr) = layer.accts addr) :
    layer.changeAcct addr change = layer := by
  rw [changeAcct, eq, update_eq_self]

theorem changeSlot_id (change : SlotTx → SlotTx)
    (eq : change (layer.slots addr key) = layer.slots addr key) :
    layer.changeSlot addr key change = layer := by
  rw [changeSlot, eq, update_eq_self, update_eq_self]

theorem changeAcct_changeAcct (first second : AcctLayer → AcctLayer) :
    (layer.changeAcct addr first).changeAcct addr second =
      layer.changeAcct addr fun a => second (first a) := by
  simp [changeAcct]

theorem changeSlot_changeSlot (first second : SlotTx → SlotTx) :
    (layer.changeSlot addr key first).changeSlot addr key second =
      layer.changeSlot addr key fun s => second (first s) := by
  simp [changeSlot]

theorem changeSlot_changeAcct (change : AcctLayer → AcctLayer) (change' : SlotTx → SlotTx) :
    (layer.changeAcct addr change).changeSlot addr key change' =
      (layer.changeSlot addr key change').changeAcct addr change := rfl

end

/-- The transaction wrote the slot after the last time that the storage was cleared. -/
def Written (layer : Layer) (addr key : Word) : Prop :=
  (layer.slots addr key).present = true ∧ (layer.slots addr key).gen = (layer.accts addr).gen

instance (layer : Layer) (addr key : Word) : Decidable (layer.Written addr key) :=
  inferInstanceAs (Decidable (_ ∧ _))

/-- No generation is above the counter, and an address counts its writes. -/
structure Good (genCounter : Nat) (layer : Layer) : Prop where
  acctGen : ∀ addr, (layer.accts addr).gen ≤ genCounter
  slotGen : ∀ addr key, (layer.slots addr key).gen ≤ genCounter
  nwrites : ∀ addr, (layer.accts addr).nwrites = 0 ↔ ∀ key, ¬ layer.Written addr key

theorem good_blank (genCounter : Nat) : Good genCounter blank where
  acctGen _ := Nat.zero_le _
  slotGen _ _ := Nat.zero_le _
  nwrites _ := by simp [blank, Written, AcctTx.blank, SlotTx.blank]

variable {genCounter : Nat} {layer : Layer}

section

variable (good : Good genCounter layer)

include good

theorem Good.mono {later : Nat} (grows : genCounter ≤ later) : Good later layer where
  acctGen addr := (good.acctGen addr).trans grows
  slotGen addr key := (good.slotGen addr key).trans grows
  nwrites := good.nwrites

theorem Good.changeAcct (addr : Word) (change : AcctLayer → AcctLayer)
    (gen : (change (layer.accts addr)).gen = (layer.accts addr).gen)
    (nwrites : (change (layer.accts addr)).nwrites = (layer.accts addr).nwrites) :
    Good genCounter (layer.changeAcct addr change) := by
  have eq : ∀ other, ((layer.changeAcct addr change).accts other).gen =
      (layer.accts other).gen ∧ ((layer.changeAcct addr change).accts other).nwrites =
        (layer.accts other).nwrites := by
    intro other
    by_cases here : other = addr
    · subst here
      simp [Layer.changeAcct, gen, nwrites]
    · simp [Layer.changeAcct, here]
  constructor
  · intro other
    rw [(eq other).1]
    exact good.acctGen other
  · exact good.slotGen
  · intro other
    simp only [Written, (eq other).1, (eq other).2]
    exact good.nwrites other

theorem Good.changeSlot (addr key : Word) (change : SlotTx → SlotTx)
    (present : (change (layer.slots addr key)).present = (layer.slots addr key).present)
    (gen : (change (layer.slots addr key)).gen = (layer.slots addr key).gen) :
    Good genCounter (layer.changeSlot addr key change) := by
  have eq : ∀ other key', ((layer.changeSlot addr key change).slots other key').present =
      (layer.slots other key').present ∧ ((layer.changeSlot addr key change).slots other key').gen =
        (layer.slots other key').gen := by
    intro other key'
    by_cases here : other = addr
    · subst here
      by_cases slot : key' = key
      · subst slot
        simp [Layer.changeSlot, present, gen]
      · simp [Layer.changeSlot, slot]
    · simp [Layer.changeSlot, here]
  constructor
  · exact good.acctGen
  · intro other key'
    rw [(eq other key').2]
    exact good.slotGen other key'
  · intro other
    simp only [Written, (eq other _).1, (eq other _).2]
    exact good.nwrites other

/-- A slot is written under the generation of its address. -/
def store (layer : Layer) (addr key val : Word) : Layer :=
  (layer.changeSlot addr key fun s =>
    { s with present := true, gen := (layer.accts addr).gen, val := val }).changeAcct addr fun a =>
      { a with nwrites := if layer.Written addr key then a.nwrites else a.nwrites + 1 }

omit good in
theorem undo_store (layer : Layer) (addr key val : Word) :
    (layer.store addr key val).undo (.store addr key (layer.slots addr key).present
      (layer.slots addr key).gen (layer.slots addr key).val (layer.accts addr).nwrites) =
        layer := by
  rw [undo, store, changeSlot_changeAcct, changeSlot_changeSlot, changeAcct_changeAcct,
    changeSlot_id _ _ _ _ rfl]
  apply changeAcct_id
  rfl

omit good in
theorem written_store (layer : Layer) (addr key val other key' : Word) :
    (layer.store addr key val).Written other key' ↔
      (other = addr ∧ key' = key) ∨ layer.Written other key' := by
  by_cases here : other = addr
  · subst here
    by_cases slot : key' = key
    · subst slot
      simp [store, Written, changeAcct, changeSlot]
    · simp [store, Written, changeAcct, changeSlot, slot]
  · simp [store, Written, changeAcct, changeSlot, here]

theorem Good.store (addr key val : Word) : Good genCounter (layer.store addr key val) where
  acctGen other := by
    by_cases here : other = addr
    · subst here
      simpa [Layer.store, Layer.changeAcct, Layer.changeSlot] using good.acctGen other
    · simpa [Layer.store, Layer.changeAcct, Layer.changeSlot, here] using good.acctGen other
  slotGen other key' := by
    by_cases here : other = addr
    · subst here
      by_cases slot : key' = key
      · subst slot
        simpa [Layer.store, Layer.changeAcct, Layer.changeSlot] using good.acctGen other
      · simpa [Layer.store, Layer.changeAcct, Layer.changeSlot, slot] using good.slotGen other key'
    · simpa [Layer.store, Layer.changeAcct, Layer.changeSlot, here] using good.slotGen other key'
  nwrites other := by
    by_cases here : other = addr
    · subst here
      have before := good.nwrites other
      constructor
      · intro empty
        simp only [Layer.store, Layer.changeAcct, update_self] at empty
        split at empty
        next written => exact absurd written (before.mp empty key)
        next => cases empty
      · intro unwritten
        exact absurd ((written_store layer other key val other key).mpr (Or.inl ⟨rfl, rfl⟩))
          (unwritten key)
    · have eq : ((layer.store addr key val).accts other).nwrites =
          (layer.accts other).nwrites := by
        simp [Layer.store, Layer.changeAcct, Layer.changeSlot, here]
      rw [eq, good.nwrites other]
      apply forall_congr'
      intro key'
      rw [written_store]
      simp [here]

end

/-- The layers that a journal goes back through, down to the blank one. -/
def History (genCounter : Nat) : List Entry → Layer → Prop
  | [], layer => layer = blank
  | entry :: rest, layer => Good genCounter layer ∧ History genCounter rest (layer.undo entry)

theorem History.good {journal : List Entry} (history : History genCounter journal layer) :
    Good genCounter layer := by
  cases journal with
  | nil => exact history ▸ good_blank genCounter
  | cons entry rest => exact history.1

theorem History.mono {later : Nat} (grows : genCounter ≤ later) {journal : List Entry}
    (history : History genCounter journal layer) :
    History later journal layer := by
  induction journal generalizing layer with
  | nil => exact history
  | cons entry rest ih => exact ⟨history.1.mono grows, ih history.2⟩

end Layer

namespace State

section

variable (st : State)

def acctAt (addr : Word) : AcctTx :=
  if st.txCur addr then (st.recOf addr).tx else .blank

def slotAt (addr key : Word) : SlotTx :=
  if st.stxCur addr key then ((st.recOf addr).slotOf key).tx else .blank

def layer : Layer where
  accts addr := (st.acctAt addr).toAcctLayer
  slots := st.slotAt
  logs := st.logs
  tickets := st.tickets
  weiDestroyed := st.weiDestroyed

structure Committed where
  accts : Word → Option (Option Acct)
  cleared : Word → Bool
  nwrites : Word → Nat
  slots : Word → Word → Option Word

def committed : Committed where
  accts addr := (st.recOf addr).blkAcct
  cleared addr := (st.recOf addr).blkCleared
  nwrites addr := (st.recOf addr).blkNwrites
  slots addr key := ((st.recOf addr).slotOf key).blk

structure Cache where
  pre : Word → Option PreAcct
  preCode : Word → Option Bytes
  preHasStorage : Word → Option Bool
  preSlot : Word → Word → Option Word

def cache : Cache where
  pre addr := (st.recOf addr).pre
  preCode addr := (st.recOf addr).preCode
  preHasStorage addr := (st.recOf addr).preHasStorage
  preSlot addr key := ((st.recOf addr).slotOf key).pre

end

/-! ## Changes of one record -/

/-- The slots of a record after one of them was written, if there is one. -/
def slotsWith (st : State) (addr : Word) (slot : Option (Word × SlotTx)) (key : Word) : SlotRec :=
  match slot with
  | none => (st.recOf addr).slotOf key
  | some (written, tx) =>
    if key = written then
      { (st.recOf addr).slotOf key with txEpoch := st.epoch, tx := tx }
    else (st.recOf addr).slotOf key

/-- A state with the transaction's part of one address, and of one slot at most, changed. -/
structure Rewrites (st next : State) (addr : Word) (tx : AcctTx) (slot : Option (Word × SlotTx)) :
    Prop where
  epoch : next.epoch = st.epoch
  others : ∀ other, other ≠ addr → next.recOf other = st.recOf other
  txEpoch : (next.recOf addr).txEpoch = st.epoch
  tx : (next.recOf addr).tx = tx
  pre : (next.recOf addr).pre = (st.recOf addr).pre
  preCode : (next.recOf addr).preCode = (st.recOf addr).preCode
  preHasStorage : (next.recOf addr).preHasStorage = (st.recOf addr).preHasStorage
  blkAcct : (next.recOf addr).blkAcct = (st.recOf addr).blkAcct
  blkCleared : (next.recOf addr).blkCleared = (st.recOf addr).blkCleared
  blkNwrites : (next.recOf addr).blkNwrites = (st.recOf addr).blkNwrites
  slotOf : ∀ key, (next.recOf addr).slotOf key = st.slotsWith addr slot key
  touched : next.touched = if st.txCur addr then st.touched else st.touched ++ [addr]

variable {st next : State} {addr : Word} {tx : AcctTx} {slot : Option (Word × SlotTx)}

theorem rewrites_touch (st : State) (addr : Word) :
    Rewrites st (st.touch addr) addr (st.acctAt addr) none := by
  unfold touch acctAt
  split
  next current =>
    have eq : (st.recOf addr).txEpoch = st.epoch := of_decide_eq_true current
    exact ⟨rfl, fun _ _ => rfl, eq, rfl, rfl, rfl, rfl, rfl, rfl, rfl, fun _ => rfl,
      (if_pos current).symm⟩
  next stale =>
    have here : recOf { st.putRec addr { st.recOf addr with
        txEpoch := st.epoch, tx := .blank } with touched := st.touched ++ [addr] } addr =
          { st.recOf addr with txEpoch := st.epoch, tx := .blank } :=
      (recOf_putRec st addr addr _).trans (if_pos rfl)
    refine ⟨rfl, ?_, ?_, ?_, ?_, ?_, ?_, ?_, ?_, ?_, ?_, (if_neg stale).symm⟩
    · intro other apart
      exact (recOf_putRec st addr other _).trans (if_neg apart)
    all_goals rw [here]
    intro key
    rfl

theorem Rewrites.putRec (rewrites : Rewrites st next addr tx slot) {a : AddrRec}
    {newTx : AcctTx} {newSlot : Option (Word × SlotTx)}
    (eq : a = { next.recOf addr with tx := newTx, slots := a.slots })
    (slotOf : ∀ key, a.slotOf key = st.slotsWith addr newSlot key) :
    Rewrites st (next.putRec addr a) addr newTx newSlot := by
  have here : (next.putRec addr a).recOf addr = a :=
    (recOf_putRec next addr addr a).trans (if_pos rfl)
  exact {
    epoch := rewrites.epoch
    others := fun other apart =>
      ((recOf_putRec next addr other a).trans (if_neg apart)).trans
        (rewrites.others other apart)
    txEpoch := by rw [here, eq, rewrites.txEpoch]
    tx := by rw [here, eq]
    pre := by rw [here, eq, rewrites.pre]
    preCode := by rw [here, eq, rewrites.preCode]
    preHasStorage := by rw [here, eq, rewrites.preHasStorage]
    blkAcct := by rw [here, eq, rewrites.blkAcct]
    blkCleared := by rw [here, eq, rewrites.blkCleared]
    blkNwrites := by rw [here, eq, rewrites.blkNwrites]
    slotOf := here.symm ▸ slotOf
    touched := rewrites.touched }

theorem Rewrites.updateTx (rewrites : Rewrites st next addr tx slot) (change : AcctTx → AcctTx) :
    Rewrites st (next.updateTx addr change) addr (change tx) slot :=
  rewrites.putRec (by rw [rewrites.tx]) rewrites.slotOf

theorem Rewrites.updateSlotTx {key : Word} {s : SlotTx}
    (rewrites : Rewrites st next addr tx (some (key, s))) (change : SlotTx → SlotTx) :
    Rewrites st (next.updateSlotTx addr key change) addr tx (some (key, change s)) := by
  apply rewrites.putRec (by rw [← rewrites.tx]; rfl)
  intro other
  rw [AddrRec.slotOf_putSlot, rewrites.slotOf, rewrites.slotOf]
  simp only [slotsWith]
  split
  next eq => simp [eq]
  next => rfl

section

variable (rewrites : Rewrites st next addr tx slot)

include rewrites

theorem Rewrites.push (entry : Entry) : Rewrites st (next.push entry) addr tx slot :=
  { rewrites with }

theorem Rewrites.txCur (other : Word) :
    next.txCur other = (decide (other = addr) || st.txCur other) := by
  by_cases here : other = addr
  · simp [State.txCur, here, rewrites.txEpoch, rewrites.epoch]
  · simp [State.txCur, rewrites.others other here, rewrites.epoch, here]

theorem Rewrites.stxCur (other key : Word) :
    next.stxCur other key =
      (st.stxCur other key || decide (other = addr ∧ slot.map Prod.fst = some key)) := by
  by_cases here : other = addr
  · subst here
    simp only [State.stxCur, rewrites.slotOf, rewrites.epoch, slotsWith]
    cases slot with
    | none => simp
    | some written =>
      simp only
      split
      next eq => simp [eq]
      next apart => simp [Ne.symm apart]
  · simp [State.stxCur, rewrites.others other here, rewrites.epoch, here]

theorem Rewrites.acctAt (other : Word) :
    next.acctAt other = if other = addr then tx else st.acctAt other := by
  rw [State.acctAt, rewrites.txCur]
  by_cases here : other = addr
  · simp [here, rewrites.tx]
  · simp [here, rewrites.others other here, State.acctAt]

theorem Rewrites.slotAt (other key : Word) :
    next.slotAt other key =
      match slot with
      | none => st.slotAt other key
      | some (written, s) => if other = addr ∧ key = written then s else st.slotAt other key := by
  rw [State.slotAt, rewrites.stxCur]
  by_cases here : other = addr
  · subst here
    rw [rewrites.slotOf]
    cases slot with
    | none => simp [slotsWith, State.slotAt]
    | some written =>
      simp only [slotsWith, State.slotAt]
      by_cases eq : key = written.1
      · simp [eq]
      · simp [eq, Ne.symm eq]
  · rw [rewrites.others other here]
    cases slot <;> simp [here, State.slotAt]

end

theorem slotsWith_below (st : State) (addr : Word) (slot : Option (Word × SlotTx)) (key : Word) :
    (st.slotsWith addr slot key).pre = ((st.recOf addr).slotOf key).pre ∧
      (st.slotsWith addr slot key).blk = ((st.recOf addr).slotOf key).blk := by
  unfold slotsWith
  split
  · exact ⟨rfl, rfl⟩
  · split <;> exact ⟨rfl, rfl⟩

section

variable (rewrites : Rewrites st next addr tx slot)

include rewrites

theorem Rewrites.keeps {β : Type} (part : AddrRec → β)
    (here : part (next.recOf addr) = part (st.recOf addr)) :
    (fun other => part (next.recOf other)) = fun other => part (st.recOf other) := by
  funext other
  by_cases eq : other = addr
  · rw [eq, here]
  · rw [rewrites.others other eq]

theorem Rewrites.committed : next.committed = st.committed := by
  rw [State.committed, rewrites.keeps _ rewrites.blkAcct, rewrites.keeps _ rewrites.blkCleared,
    rewrites.keeps _ rewrites.blkNwrites, rewrites.keeps fun a key => (a.slotOf key).blk]
  · rfl
  · funext key
    rw [rewrites.slotOf, (slotsWith_below st addr slot key).2]

theorem Rewrites.cache : next.cache = st.cache := by
  rw [State.cache, rewrites.keeps _ rewrites.pre, rewrites.keeps _ rewrites.preCode,
    rewrites.keeps _ rewrites.preHasStorage, rewrites.keeps fun a key => (a.slotOf key).pre]
  · rfl
  · funext key
    rw [rewrites.slotOf, (slotsWith_below st addr slot key).1]

end

theorem rewrites_touchSlot (st : State) (addr key : Word) :
    Rewrites st (st.touchSlot addr key) addr
      { st.acctAt addr with
        slots := if st.stxCur addr key then (st.acctAt addr).slots
          else (st.acctAt addr).slots ++ [key] }
      (some (key, st.slotAt addr key)) := by
  have touched := rewrites_touch st addr
  have current : (st.touch addr).stxCur addr key = st.stxCur addr key := by
    simp [touched.stxCur]
  unfold touchSlot
  rw [current, slotAt]
  by_cases cur : st.stxCur addr key
  · rw [if_pos cur, if_pos cur, if_pos cur]
    refine { touched with slotOf := ?_ }
    intro other
    have eq : ((st.recOf addr).slotOf key).txEpoch = st.epoch := of_decide_eq_true cur
    rw [touched.slotOf]
    simp only [slotsWith]
    split
    next same => rw [same, ← eq]
    next => rfl
  · rw [if_neg cur, if_neg cur, if_neg cur]
    apply touched.putRec (by rw [touched.tx]; rfl)
    intro other
    refine (AddrRec.slotOf_putSlot _ key other _).trans ?_
    rw [touched.slotOf, touched.slotOf, touched.epoch]
    simp only [slotsWith]
    split
    next same => rw [same]
    next => rfl

theorem rewrites_self (current : st.txCur addr = true) :
    Rewrites st st addr (st.acctAt addr) none := by
  have touched := rewrites_touch st addr
  rwa [touch, if_pos current] at touched

theorem rewrites_self_slot {key : Word} (current : st.txCur addr = true)
    (slot : st.stxCur addr key = true) :
    Rewrites st st addr (st.acctAt addr) (some (key, st.slotAt addr key)) := by
  have touched := rewrites_touchSlot st addr key
  rw [if_pos slot, touchSlot, touch, if_pos current, if_pos slot] at touched
  exact touched

end State

/-- A layer with the part of one address, and of one slot at most, replaced. -/
def Layer.rewrite (layer : Layer) (addr : Word) (a : AcctLayer) :
    Option (Word × SlotTx) → Layer
  | none => layer.changeAcct addr fun _ => a
  | some (key, s) => (layer.changeSlot addr key fun _ => s).changeAcct addr fun _ => a

theorem Layer.rewrite_slot (layer : Layer) (addr key : Word) (change : SlotTx → SlotTx) :
    layer.rewrite addr (layer.accts addr) (some (key, change (layer.slots addr key))) =
      layer.changeSlot addr key change :=
  Layer.changeAcct_id (layer.changeSlot addr key change) addr (fun _ => layer.accts addr) rfl

namespace State

theorem Rewrites.layer {st next : State} {addr : Word} {tx : AcctTx}
    {slot : Option (Word × SlotTx)} (rewrites : Rewrites st next addr tx slot)
    (logs : next.logs = st.logs) (tickets : next.tickets = st.tickets)
    (weiDestroyed : next.weiDestroyed = st.weiDestroyed) :
    next.layer = st.layer.rewrite addr tx.toAcctLayer slot := by
  have accts : next.layer.accts = update st.layer.accts addr tx.toAcctLayer := by
    funext other
    rw [update_apply]
    simp only [State.layer, rewrites.acctAt]
    split <;> rfl
  have slots : next.layer.slots = (st.layer.rewrite addr tx.toAcctLayer slot).slots := by
    funext other key
    simp only [State.layer, rewrites.slotAt]
    cases slot with
    | none => rfl
    | some written =>
      simp only [Layer.rewrite, Layer.changeAcct, Layer.changeSlot]
      by_cases here : other = addr
      · subst here
        by_cases eq : key = written.1
        · simp [eq]
        · simp [eq]
      · simp [here]
  cases slot with
  | none | some written => exact Layer.ext accts slots logs tickets weiDestroyed

end State

end DnaLedger.Evm
