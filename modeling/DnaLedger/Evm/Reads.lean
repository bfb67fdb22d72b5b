import DnaLedger.Evm.Journal

/-!
# Reads

A read changes nothing but the caches and the number of calls of the backend.
-/

namespace DnaLedger.Evm

open PreAcct

namespace Backend

/-- The outcome of a call: the expected one, or the refusal of the backend. -/
def Answered {α : Type} (be : Backend) (query : Query) (expected outcome : Except Stop α) : Prop :=
  (outcome = expected ∧ ∃ calls, be.refuses calls query = none) ∨
    ∃ calls stop, be.refuses calls query = some stop ∧ outcome = .error stop

/-- The account as `arec_load_pre` returns it. -/
def preAcct (be : Backend) (addr : Word) : Except Stop PreAcct :=
  match ofAccount (be.getAccount addr) with
  | none => .error .fault
  | some pre => .ok pre

/-- The code as `arec_load_code` returns it, for an account that has some. -/
def preCode (be : Backend) (addr : Word) (pre : PreAcct) : Except Stop Bytes :=
  if (be.getCode addr).length ≠ pre.codeSize then .error .fault else .ok (be.getCode addr)

def before (be : Backend) (addr : Word) : Option Acct :=
  let account := be.getAccount addr
  if account.present then some ⟨account.nonce, account.balance, account.codeHash, none⟩ else none

theorem before_of_preAcct {be : Backend} {addr : Word} {pre : PreAcct}
    (loaded : be.preAcct addr = .ok pre) : pre.value = be.before addr := by
  unfold preAcct at loaded
  cases made : ofAccount (be.getAccount addr) with
  | none =>
    rw [made] at loaded
    cases loaded
  | some pre' =>
    rw [made] at loaded
    cases loaded
    unfold ofAccount at made
    unfold before
    split at made
    next there =>
      split at made
      · cases made
        simp [value, there]
      · cases made
    next absent =>
      cases made
      simp [value, absent]

end Backend

structure AddrRec.Cached (be : Backend) (addr : Word) (a : AddrRec) : Prop where
  pre : ∀ pre, a.pre = some pre →
    be.preAcct addr = .ok pre ∧ ∃ calls, be.refuses calls (.account addr) = none
  preCode : ∀ code, a.preCode = some code → ∃ pre, a.pre = some pre ∧
    if pre.present = false ∨ pre.codeSize = 0 then code = []
    else be.preCode addr pre = .ok code ∧ ∃ calls, be.refuses calls (.code addr) = none
  preHasStorage : ∀ has, a.preHasStorage = some has →
    has = be.hasStorage addr ∧ ∃ calls, be.refuses calls (.storageOf addr) = none
  preSlot : ∀ key val, (a.slotOf key).pre = some val →
    val = be.getStorage addr key ∧ ∃ calls, be.refuses calls (.storage addr key) = none

namespace State

variable {st next : State}

/-- The caches have answers of the backend. -/
def Cached (be : Backend) (st : State) : Prop :=
  ∀ addr, (st.recOf addr).Cached be addr

variable {addr : Word}

theorem Cached.putRec {be : Backend} (cached : Cached be st) {a : AddrRec}
    (here : a.Cached be addr) : Cached be (st.putRec addr a) := by
  intro other
  rw [recOf_putRec]
  split
  next eq => exact eq ▸ here
  next => exact cached other

theorem Cached.of_cache {be : Backend} (cached : Cached be st) (eq : next.cache = st.cache) :
    Cached be next := by
  intro addr
  have pre : (next.recOf addr).pre = (st.recOf addr).pre :=
    congrFun (congrArg Cache.pre eq) addr
  have preCode : (next.recOf addr).preCode = (st.recOf addr).preCode :=
    congrFun (congrArg Cache.preCode eq) addr
  have preHasStorage : (next.recOf addr).preHasStorage = (st.recOf addr).preHasStorage :=
    congrFun (congrArg Cache.preHasStorage eq) addr
  have preSlot : ∀ key, ((next.recOf addr).slotOf key).pre = ((st.recOf addr).slotOf key).pre :=
    fun key => congrFun (congrFun (congrArg Cache.preSlot eq) addr) key
  have before := cached addr
  constructor
  · rw [pre]
    exact before.pre
  · rw [preCode, pre]
    exact before.preCode
  · rw [preHasStorage]
    exact before.preHasStorage
  · intro key val
    rw [preSlot]
    exact before.preSlot key val

/-- A state that differs in the caches and the calls of the backend at most. -/
structure Consults (st next : State) : Prop where
  epoch : next.epoch = st.epoch
  genCounter : next.genCounter = st.genCounter
  journal : next.journal = st.journal
  logs : next.logs = st.logs
  touched : next.touched = st.touched
  blockGasUsed : next.blockGasUsed = st.blockGasUsed
  weiDestroyed : next.weiDestroyed = st.weiDestroyed
  tickets : next.tickets = st.tickets
  txEpoch : ∀ addr, (next.recOf addr).txEpoch = (st.recOf addr).txEpoch
  tx : ∀ addr, (next.recOf addr).tx = (st.recOf addr).tx
  blkAcct : ∀ addr, (next.recOf addr).blkAcct = (st.recOf addr).blkAcct
  blkCleared : ∀ addr, (next.recOf addr).blkCleared = (st.recOf addr).blkCleared
  blkNwrites : ∀ addr, (next.recOf addr).blkNwrites = (st.recOf addr).blkNwrites
  slotEpoch : ∀ addr key,
    ((next.recOf addr).slotOf key).txEpoch = ((st.recOf addr).slotOf key).txEpoch
  slotTx : ∀ addr key, ((next.recOf addr).slotOf key).tx = ((st.recOf addr).slotOf key).tx
  slotBlk : ∀ addr key, ((next.recOf addr).slotOf key).blk = ((st.recOf addr).slotOf key).blk

theorem Consults.refl (st : State) : Consults st st :=
  ⟨rfl, rfl, rfl, rfl, rfl, rfl, rfl, rfl, fun _ => rfl, fun _ => rfl, fun _ => rfl, fun _ => rfl,
    fun _ => rfl, fun _ _ => rfl, fun _ _ => rfl, fun _ _ => rfl⟩

theorem Consults.trans {last : State} (first : Consults st next) (second : Consults next last) :
    Consults st last where
  epoch := second.epoch.trans first.epoch
  genCounter := second.genCounter.trans first.genCounter
  journal := second.journal.trans first.journal
  logs := second.logs.trans first.logs
  touched := second.touched.trans first.touched
  blockGasUsed := second.blockGasUsed.trans first.blockGasUsed
  weiDestroyed := second.weiDestroyed.trans first.weiDestroyed
  tickets := second.tickets.trans first.tickets
  txEpoch addr := (second.txEpoch addr).trans (first.txEpoch addr)
  tx addr := (second.tx addr).trans (first.tx addr)
  blkAcct addr := (second.blkAcct addr).trans (first.blkAcct addr)
  blkCleared addr := (second.blkCleared addr).trans (first.blkCleared addr)
  blkNwrites addr := (second.blkNwrites addr).trans (first.blkNwrites addr)
  slotEpoch addr key := (second.slotEpoch addr key).trans (first.slotEpoch addr key)
  slotTx addr key := (second.slotTx addr key).trans (first.slotTx addr key)
  slotBlk addr key := (second.slotBlk addr key).trans (first.slotBlk addr key)

section

variable (consults : Consults st next)

include consults

theorem Consults.sameTx : SameTx st next :=
  ⟨consults.epoch, consults.txEpoch, consults.tx, consults.slotEpoch, consults.slotTx⟩

theorem Consults.layer : next.layer = st.layer :=
  consults.sameTx.layer consults.logs consults.tickets consults.weiDestroyed

theorem Consults.committed : next.committed = st.committed := by
  simp only [State.committed, consults.blkAcct, consults.blkCleared, consults.blkNwrites,
    consults.slotBlk]

theorem Consults.isCreated (addr : Word) : next.isCreated addr = st.isCreated addr := by
  rw [isCreated_eq, isCreated_eq, consults.sameTx.acctAt]

theorem Consults.layerAt (mark : Nat) : next.layerAt mark = st.layerAt mark := by
  rw [State.layerAt, State.layerAt, consults.layer, consults.journal]

theorem Consults.valid (valid : Valid st) : Valid next := by
  refine consults.sameTx.valid consults.journal consults.genCounter consults.touched
    consults.layer ?_ valid
  rw [consults.committed]
  exact valid.counted

end

theorem keeps_putRec {a : AddrRec} {β : Type} (part : AddrRec → β)
    (here : part a = part (st.recOf addr)) (other : Word) :
    part ((st.putRec addr a).recOf other) = part (st.recOf other) := by
  rw [recOf_putRec]
  split
  next eq => rw [eq, here]
  next => rfl

theorem consults_putRec {a : AddrRec} (txEpoch : a.txEpoch = (st.recOf addr).txEpoch)
    (tx : a.tx = (st.recOf addr).tx) (blkAcct : a.blkAcct = (st.recOf addr).blkAcct)
    (blkCleared : a.blkCleared = (st.recOf addr).blkCleared)
    (blkNwrites : a.blkNwrites = (st.recOf addr).blkNwrites)
    (slots : ∀ key, (a.slotOf key).txEpoch = ((st.recOf addr).slotOf key).txEpoch ∧ (a.slotOf
      key).tx = ((st.recOf addr).slotOf key).tx ∧ (a.slotOf key).blk = ((st.recOf addr).slotOf
      key).blk) :
    Consults st (st.putRec addr a) := by
  refine ⟨rfl, rfl, rfl, rfl, rfl, rfl, rfl, rfl, keeps_putRec _ txEpoch, keeps_putRec _ tx,
    keeps_putRec _ blkAcct, keeps_putRec _ blkCleared, keeps_putRec _ blkNwrites, ?_, ?_, ?_⟩
  all_goals intro other key
  · exact keeps_putRec (fun a => (a.slotOf key).txEpoch) (slots key).1 other
  · exact keeps_putRec (fun a => (a.slotOf key).tx) (slots key).2.1 other
  · exact keeps_putRec (fun a => (a.slotOf key).blk) (slots key).2.2 other

variable {be : Backend}

/-- A read that left the writes as they are and the caches right. -/
abbrev Consulted (be : Backend) (st next : State) : Prop :=
  Consults st next ∧ Cached be next

section

variable (cached : Cached be st)

include cached

theorem ask_spec (query : Query) :
    ∃ asked, ((be.refuses st.calls query = none ∧ st.ask be query = (.ok (), asked)) ∨
        ∃ stop, be.refuses st.calls query = some stop ∧
          st.ask be query = (.error stop, asked)) ∧
      Consults st asked ∧ asked.cache = st.cache ∧ Cached be asked := by
  unfold ask
  split
  next answered =>
    exact ⟨_, Or.inl ⟨answered, rfl⟩, { Consults.refl st with }, rfl, cached.of_cache rfl⟩
  next stop refused =>
    exact ⟨_, Or.inr ⟨stop, refused, rfl⟩, { Consults.refl st with }, rfl, cached.of_cache rfl⟩

theorem loadPre_spec (addr : Word) :
    be.Answered (.account addr) (be.preAcct addr) (st.loadPre be addr).1 ∧
      Consults st (st.loadPre be addr).2 ∧ Cached be (st.loadPre be addr).2 ∧
      ∀ pre, (st.loadPre be addr).1 = .ok pre →
        ((st.loadPre be addr).2.recOf addr).pre = some pre := by
  unfold loadPre
  split
  next pre found =>
    obtain ⟨answer, calls⟩ := (cached addr).pre pre found
    refine ⟨Or.inl ⟨answer.symm, calls⟩, Consults.refl st, cached, ?_⟩
    rintro _ ⟨⟩
    exact found
  next unknown =>
    obtain ⟨asked, ⟨answered, eq⟩ | ⟨stop, refused, eq⟩, consults, cache, known⟩ :=
      ask_spec cached (.account addr)
    · simp only [eq, Backend.preAcct]
      cases made : ofAccount (be.getAccount addr) with
      | none =>
        refine ⟨Or.inl ⟨rfl, _, answered⟩, consults, known, ?_⟩
        rintro _ ⟨⟩
      | some pre =>
        have filled : Consults asked (asked.putRec addr { asked.recOf addr with
            pre := some pre }) :=
          consults_putRec rfl rfl rfl rfl rfl fun _ => ⟨rfl, rfl, rfl⟩
        refine ⟨Or.inl ⟨rfl, _, answered⟩, consults.trans filled, ?_, ?_⟩
        · have before : (asked.recOf addr).pre = none :=
            (congrFun (congrArg Cache.pre cache) addr).trans unknown
          refine known.putRec { known addr with pre := ?_, preCode := ?_ }
          · rintro _ ⟨⟩
            rw [Backend.preAcct, made]
            exact ⟨rfl, _, answered⟩
          · intro code loaded
            obtain ⟨old, had, -⟩ := (known addr).preCode code loaded
            rw [before] at had
            cases had
        · rintro _ ⟨⟩
          rw [recOf_putRec, if_pos rfl]
    · rw [eq]
      refine ⟨Or.inr ⟨_, stop, refused, rfl⟩, consults, known, ?_⟩
      rintro _ ⟨⟩

theorem loadCode_spec {pre : PreAcct} (loaded : (st.recOf addr).pre = some pre) :
    (if pre.present = false ∨ pre.codeSize = 0 then (st.loadCode be addr pre).1 = .ok []
      else be.Answered (.code addr) (be.preCode addr pre) (st.loadCode be addr pre).1) ∧
      Consulted be st (st.loadCode be addr pre).2 := by
  have fill : ∀ (asked : State) (code : Bytes), asked.cache = st.cache →
      (if pre.present = false ∨ pre.codeSize = 0 then code = []
        else be.preCode addr pre = .ok code ∧ ∃ calls, be.refuses calls (.code addr) = none) →
      Cached be (asked.putRec addr { asked.recOf addr with preCode := some code }) := by
    intro asked code cache right
    have known := cached.of_cache cache
    have had : (asked.recOf addr).pre = some pre :=
      (congrFun (congrArg Cache.pre cache) addr).trans loaded
    refine known.putRec { known addr with preCode := ?_ }
    rintro _ ⟨⟩
    exact ⟨pre, had, right⟩
  unfold loadCode
  cases found : (st.recOf addr).preCode with
  | some code =>
    obtain ⟨pre', had, right⟩ := (cached addr).preCode code found
    cases loaded.symm.trans had
    refine ⟨?_, Consults.refl st, cached⟩
    by_cases absent : pre.present = false ∨ pre.codeSize = 0
    · rw [if_pos absent] at right ⊢
      rw [right]
    · rw [if_neg absent] at right ⊢
      exact Or.inl ⟨right.1.symm, right.2⟩
  | none =>
    by_cases absent : pre.present = false ∨ pre.codeSize = 0
    · simp only [loadCodeOf, if_pos absent]
      refine ⟨trivial, consults_putRec rfl rfl rfl rfl rfl fun _ => ⟨rfl, rfl, rfl⟩, ?_⟩
      exact fill st [] rfl (by rw [if_pos absent])
    · simp only [loadCodeOf, if_neg absent]
      obtain ⟨asked, ⟨answered, eq⟩ | ⟨stop, refused, eq⟩, consults, cache, known⟩ :=
        ask_spec cached (.code addr)
      · simp only [eq, Backend.preCode]
        split
        next => exact ⟨Or.inl ⟨rfl, _, answered⟩, consults, known⟩
        next sized =>
          refine ⟨Or.inl ⟨rfl, _, answered⟩, consults.trans
            (consults_putRec rfl rfl rfl rfl rfl fun _ => ⟨rfl, rfl, rfl⟩), ?_⟩
          apply fill asked _ cache
          rw [if_neg absent, Backend.preCode, if_neg sized]
          exact ⟨rfl, _, answered⟩
      · rw [eq]
        exact ⟨Or.inr ⟨_, stop, refused, rfl⟩, consults, known⟩

theorem loadSlot_spec (addr key : Word) :
    be.Answered (.storage addr key) (.ok (be.getStorage addr key)) (st.loadSlot be addr key).1 ∧
      Consulted be st (st.loadSlot be addr key).2 := by
  unfold loadSlot
  split
  next val found =>
    obtain ⟨answer, calls⟩ := (cached addr).preSlot key val found
    exact ⟨Or.inl ⟨by rw [answer], calls⟩, Consults.refl st, cached⟩
  next =>
    obtain ⟨asked, ⟨answered, eq⟩ | ⟨stop, refused, eq⟩, consults, -, known⟩ :=
      ask_spec cached (.storage addr key)
    · have slots : ∀ key', (AddrRec.slotOf ((asked.recOf addr).putSlot key
          { (asked.recOf addr).slotOf key with pre := some (be.getStorage addr key) }) key') =
          if key' = key then { (asked.recOf addr).slotOf key with
            pre := some (be.getStorage addr key) } else (asked.recOf addr).slotOf key' :=
        fun key' => AddrRec.slotOf_putSlot _ _ _ _
      rw [eq]
      refine ⟨Or.inl ⟨rfl, _, answered⟩, consults.trans
        (consults_putRec rfl rfl rfl rfl rfl fun key' => ?_), ?_⟩
      · rw [slots]
        split
        next same => rw [same]; exact ⟨rfl, rfl, rfl⟩
        next => exact ⟨rfl, rfl, rfl⟩
      · refine known.putRec { known addr with preSlot := ?_ }
        intro key' val
        rw [slots]
        split
        next same =>
          subst same
          rintro ⟨⟩
          exact ⟨rfl, _, answered⟩
        next => exact (known addr).preSlot key' val
    · rw [eq]
      exact ⟨Or.inr ⟨_, stop, refused, rfl⟩, consults, known⟩

end

/-! ## The reads of the running transaction -/

end State

def Layer.slotWrite (layer : Layer) (addr key : Word) : Option Word :=
  if layer.Written addr key then some (layer.slots addr key).val
  else if (layer.accts addr).cleared then some 0
  else none

namespace State

variable {st next : State} {be : Backend}

theorem txSlot_eq (tidy : Tidy st) (addr key : Word) :
    st.txSlot addr key = st.layer.slotWrite addr key := by
  have acct : st.layer.accts addr = (st.acctAt addr).toAcctLayer := rfl
  have slot : st.layer.slots addr key = st.slotAt addr key := rfl
  by_cases current : st.txCur addr = true
  · rw [acctAt, if_pos current] at acct
    by_cases stored : st.stxCur addr key = true
    · rw [slotAt, if_pos stored] at slot
      simp [txSlot, Layer.slotWrite, Layer.Written, acct, slot, current, stored]
    · rw [slotAt, if_neg stored] at slot
      simp [txSlot, Layer.slotWrite, Layer.Written, acct, slot, current, stored, SlotTx.blank]
  · have stale : ¬ st.stxCur addr key = true := fun stored => current (tidy.nested addr key stored)
    rw [acctAt, if_neg current] at acct
    rw [slotAt, if_neg stale] at slot
    simp [txSlot, Layer.slotWrite, Layer.Written, acct, slot, current, SlotTx.blank, AcctTx.blank]

theorem getTransient_eq (tidy : Tidy st) (addr key : Word) :
    st.getTransient addr key = (st.layer.slots addr key).transient := by
  unfold getTransient
  simp only [layer, slotAt]
  by_cases slot : st.stxCur addr key = true
  · simp [slot, tidy.nested addr key slot]
  · simp [slot, SlotTx.blank]

/-- The answer to a read of an account: what was written, or else what the backend has. -/
def AccountAnswer (be : Backend) (st : State) (addr : Word)
    (outcome : Except Stop (Option Acct)) : Prop :=
  (∃ write, (st.layer.accts addr).acct.or (st.committed.accts addr) = some write ∧
      outcome = .ok write) ∨
    ((st.layer.accts addr).acct.or (st.committed.accts addr) = none ∧
      be.Answered (.account addr) ((be.preAcct addr).map value) outcome)

theorem acct_write (st : State) (addr : Word) :
    (if st.txCur addr = true then (st.recOf addr).tx.acct else none) =
      (st.layer.accts addr).acct := by
  simp only [layer, acctAt]
  split <;> rfl

variable (cached : Cached be st)

include cached

theorem getAccountOptional_spec (addr : Word) :
    AccountAnswer be st addr (st.getAccountOptional be addr).1 ∧
      Consulted be st (st.getAccountOptional be addr).2 := by
  unfold AccountAnswer getAccountOptional
  rw [acct_write]
  simp only [committed]
  split
  next found => exact ⟨Or.inl ⟨_, by rw [found]; rfl, rfl⟩, Consults.refl st, cached⟩
  next unset found => exact ⟨Or.inl ⟨_, by rw [unset, found]; rfl, rfl⟩, Consults.refl st, cached⟩
  next unset unheld =>
    obtain ⟨answer, consults, kept, -⟩ := loadPre_spec cached addr
    generalize st.loadPre be addr = loaded at answer consults kept
    obtain ⟨outcome, loaded⟩ := loaded
    rw [unset, unheld]
    have mapped : be.Answered (.account addr) ((be.preAcct addr).map value)
        (outcome.map value) := by
      rcases answer with ⟨eq, calls⟩ | ⟨calls, stop, refused, eq⟩
      · exact Or.inl ⟨congrArg _ eq, calls⟩
      · exact Or.inr ⟨calls, stop, refused, congrArg _ eq⟩
    cases outcome <;> exact ⟨Or.inr ⟨rfl, mapped⟩, consults, kept⟩

theorem peek_spec (query : Query) :
    ∃ asked, ((be.refuses st.calls query = none ∧ st.peek be query = (.ok (), asked)) ∨
        ∃ stop, be.refuses st.calls query = some stop ∧
          st.peek be query = (.error stop, asked)) ∧
      Consulted be st asked := by
  unfold peek
  split
  next answered =>
    exact ⟨_, Or.inl ⟨answered, rfl⟩, { Consults.refl st with }, cached.of_cache rfl⟩
  next stop refused =>
    exact ⟨_, Or.inr ⟨stop, refused, rfl⟩, { Consults.refl st with }, cached.of_cache rfl⟩

theorem peekAccount_spec (addr : Word) :
    AccountAnswer be st addr (st.peekAccount be addr).1 ∧
      Consulted be st (st.peekAccount be addr).2 := by
  unfold AccountAnswer peekAccount
  rw [acct_write]
  simp only [committed]
  split
  next found => exact ⟨Or.inl ⟨_, by rw [found]; rfl, rfl⟩, Consults.refl st, cached⟩
  next unset found => exact ⟨Or.inl ⟨_, by rw [unset, found]; rfl, rfl⟩, Consults.refl st, cached⟩
  next unset unheld =>
    rw [unset, unheld]
    split
    next pre found =>
      obtain ⟨answer, calls⟩ := (cached addr).pre pre found
      exact ⟨Or.inr ⟨rfl, Or.inl ⟨by rw [answer]; rfl, calls⟩⟩, Consults.refl st, cached⟩
    next =>
      obtain ⟨asked, ⟨answered, eq⟩ | ⟨stop, refused, eq⟩, consults, known⟩ :=
        peek_spec cached (.account addr)
      · simp only [eq, Backend.preAcct]
        cases ofAccount (be.getAccount addr) with
        | none | some pre => exact ⟨Or.inr ⟨rfl, Or.inl ⟨rfl, _, answered⟩⟩, consults, known⟩
      · rw [eq]
        exact ⟨Or.inr ⟨rfl, Or.inr ⟨_, stop, refused, rfl⟩⟩, consults, known⟩

theorem getCode_consults (addr : Word) (acct : Acct) :
    Consulted be st (st.getCode be addr acct).2 := by
  unfold getCode
  split
  next => exact ⟨Consults.refl st, cached⟩
  next =>
    split
    next => exact ⟨Consults.refl st, cached⟩
    next =>
      obtain ⟨-, consults, known, filled⟩ := loadPre_spec cached addr
      generalize st.loadPre be addr = loaded at consults known filled
      obtain ⟨outcome, loaded⟩ := loaded
      cases outcome with
      | error stop => exact ⟨consults, known⟩
      | ok pre =>
        obtain ⟨-, consults', known'⟩ := loadCode_spec known (filled pre rfl)
        simp only
        generalize loaded.loadCode be addr pre = coded at consults' known'
        obtain ⟨outcome, coded⟩ := coded
        cases outcome with
        | error stop => exact ⟨consults.trans consults', known'⟩
        | ok code =>
          simp only
          split
          · exact ⟨consults.trans consults', known'⟩
          · exact ⟨consults.trans consults', known'⟩

theorem getStorageBelow_spec (addr key : Word) :
    (match st.committed.slots addr key with
      | some val => (st.getStorageBelow be addr key).1 = .ok val
      | none =>
        if st.committed.cleared addr then (st.getStorageBelow be addr key).1 = .ok 0
        else be.Answered (.storage addr key) (.ok (be.getStorage addr key))
          (st.getStorageBelow be addr key).1) ∧
      Consulted be st (st.getStorageBelow be addr key).2 := by
  unfold getStorageBelow
  simp only [committed]
  cases ((st.recOf addr).slotOf key).blk with
  | some val => exact ⟨rfl, Consults.refl st, cached⟩
  | none =>
    by_cases cleared : (st.recOf addr).blkCleared = true
    · simp only [if_pos cleared]
      exact ⟨trivial, Consults.refl st, cached⟩
    · simp only [if_neg cleared]
      exact loadSlot_spec cached addr key

omit cached in
theorem getStorage_spec (tidy : Tidy st) (cached : Cached be st) (addr key : Word) :
    (st.getStorage be addr key = match st.layer.slotWrite addr key with
      | some val => (.ok val, st)
      | none => st.getStorageBelow be addr key) ∧
      Consulted be st (st.getStorage be addr key).2 := by
  rw [getStorage, txSlot_eq tidy]
  refine ⟨rfl, ?_⟩
  split
  · exact ⟨Consults.refl st, cached⟩
  · exact (getStorageBelow_spec cached addr key).2

theorem getStorageOriginal_spec (addr key : Word) :
    Consulted be st (st.getStorageOriginal be addr key).2 := by
  unfold getStorageOriginal
  split
  · exact ⟨Consults.refl st, cached⟩
  · exact (getStorageBelow_spec cached addr key).2

omit cached in
theorem accountHasStorage_spec (valid : Valid st) (cached : Cached be st) (addr : Word) :
    ((∃ key, st.layer.Written addr key ∨ st.committed.slots addr key ≠ none) ∧
        (st.accountHasStorage be addr).1 = .ok true ∨
      (¬ ∃ key, st.layer.Written addr key ∨ st.committed.slots addr key ≠ none) ∧
        be.Answered (.storageOf addr) (.ok (be.hasStorage addr))
          (st.accountHasStorage be addr).1) ∧
      Consulted be st (st.accountHasStorage be addr).2 := by
  have txWrites : (st.txCur addr = true ∧ 0 < (st.recOf addr).tx.nwrites) ↔
      ∃ key, st.layer.Written addr key := by
    have counted := valid.history.good.nwrites addr
    have count : (st.layer.accts addr).nwrites =
        if st.txCur addr = true then (st.recOf addr).tx.nwrites else 0 := by
      simp only [layer, acctAt]
      split <;> rfl
    rw [count] at counted
    constructor
    · rintro ⟨current, pos⟩
      by_contra unwritten
      rw [if_pos current] at counted
      have := counted.mpr (not_exists.mp unwritten)
      omega
    · rintro ⟨key, written⟩
      by_contra unwritten
      refine (counted.mp ?_) key written
      split
      next current => exact Nat.eq_zero_of_not_pos fun pos => unwritten ⟨current, pos⟩
      next => rfl
  have blkWrites : 0 < (st.recOf addr).blkNwrites ↔ ∃ key, st.committed.slots addr key ≠ none := by
    have counted := valid.counted addr
    simp only [committed] at counted ⊢
    rw [Nat.pos_iff_ne_zero, ne_eq, counted, not_forall]
  unfold accountHasStorage
  split
  next written =>
    obtain ⟨key, writes⟩ := txWrites.mp written
    exact ⟨Or.inl ⟨⟨key, Or.inl writes⟩, rfl⟩, Consults.refl st, cached⟩
  next unwritten =>
    split
    next written =>
      obtain ⟨key, writes⟩ := blkWrites.mp written
      exact ⟨Or.inl ⟨⟨key, Or.inr writes⟩, rfl⟩, Consults.refl st, cached⟩
    next unwritten' =>
      have unset : ¬ ∃ key, st.layer.Written addr key ∨ st.committed.slots addr key ≠ none := by
        rintro ⟨key, writes | writes⟩
        · exact unwritten (txWrites.mpr ⟨key, writes⟩)
        · exact unwritten' (blkWrites.mpr ⟨key, writes⟩)
      split
      next has found =>
        obtain ⟨answer, calls⟩ := (cached addr).preHasStorage has found
        exact ⟨Or.inr ⟨unset, Or.inl ⟨by rw [answer], calls⟩⟩, Consults.refl st, cached⟩
      next =>
        obtain ⟨asked, ⟨answered, eq⟩ | ⟨stop, refused, eq⟩, consults, -, known⟩ :=
          ask_spec cached (.storageOf addr)
        · rw [eq]
          refine ⟨Or.inr ⟨unset, Or.inl ⟨rfl, _, answered⟩⟩, consults.trans
            (consults_putRec rfl rfl rfl rfl rfl fun _ => ⟨rfl, rfl, rfl⟩), ?_⟩
          refine known.putRec { known addr with preHasStorage := ?_ }
          rintro _ ⟨⟩
          exact ⟨rfl, _, answered⟩
        · rw [eq]
          exact ⟨Or.inr ⟨unset, Or.inr ⟨_, stop, refused, rfl⟩⟩, consults, known⟩

theorem blockHash_spec (number : UInt64) :
    be.Answered (.blockHash number) (.ok (be.getBlockHash number)) (st.blockHash be number).1 ∧
      Consulted be st (st.blockHash be number).2 := by
  unfold blockHash
  obtain ⟨asked, ⟨answered, eq⟩ | ⟨stop, refused, eq⟩, consults, -, known⟩ :=
    ask_spec cached (.blockHash number)
  · rw [eq]
    exact ⟨Or.inl ⟨rfl, _, answered⟩, consults, known⟩
  · rw [eq]
    exact ⟨Or.inr ⟨_, stop, refused, rfl⟩, consults, known⟩

end State

end DnaLedger.Evm
