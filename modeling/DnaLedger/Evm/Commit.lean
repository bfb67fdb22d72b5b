import DnaLedger.Evm.Reads

/-!
# The end of a transaction

A commit moves the writes of the running transaction under those of the block, and an abort takes
all of them back.
-/

namespace DnaLedger.Evm

open State

/-! ## Records -/

namespace AddrRec

/-- The number of writes says whether there are writes of the block. -/
def Counted (a : AddrRec) : Prop :=
  a.blkNwrites = 0 ↔ ∀ key, (a.slotOf key).blk = none

/-- The transaction wrote the slot under the generation of the address. -/
def Wrote (a : AddrRec) (key : Word) : Prop :=
  (a.slotOf key).tx.present = true ∧ (a.slotOf key).tx.gen = a.tx.gen

instance (a : AddrRec) (key : Word) : Decidable (a.Wrote key) :=
  inferInstanceAs (Decidable (_ ∧ _))

/-- A record that differs in the writes of the block at most. -/
structure SameTx (a b : AddrRec) : Prop where
  txEpoch : b.txEpoch = a.txEpoch
  tx : b.tx = a.tx
  pre : b.pre = a.pre
  preCode : b.preCode = a.preCode
  preHasStorage : b.preHasStorage = a.preHasStorage
  slotEpoch : ∀ key, (b.slotOf key).txEpoch = (a.slotOf key).txEpoch
  slotTx : ∀ key, (b.slotOf key).tx = (a.slotOf key).tx
  slotPre : ∀ key, (b.slotOf key).pre = (a.slotOf key).pre

theorem SameTx.refl (a : AddrRec) : SameTx a a :=
  ⟨rfl, rfl, rfl, rfl, rfl, fun _ => rfl, fun _ => rfl, fun _ => rfl⟩

theorem SameTx.trans {a b c : AddrRec} (first : SameTx a b) (second : SameTx b c) : SameTx a c where
  txEpoch := second.txEpoch.trans first.txEpoch
  tx := second.tx.trans first.tx
  pre := second.pre.trans first.pre
  preCode := second.preCode.trans first.preCode
  preHasStorage := second.preHasStorage.trans first.preHasStorage
  slotEpoch key := (second.slotEpoch key).trans (first.slotEpoch key)
  slotTx key := (second.slotTx key).trans (first.slotTx key)
  slotPre key := (second.slotPre key).trans (first.slotPre key)

theorem SameTx.wrote {a b : AddrRec} (eq : SameTx a b) (key : Word) :
    b.Wrote key ↔ a.Wrote key := by
  rw [Wrote, Wrote, eq.slotTx, eq.tx]

theorem SameTx.cached {be : Backend} {addr : Word} {a b : AddrRec} (eq : SameTx a b)
    (cached : a.Cached be addr) : b.Cached be addr where
  pre := eq.pre ▸ cached.pre
  preCode := by
    rw [eq.preCode, eq.pre]
    exact cached.preCode
  preHasStorage := eq.preHasStorage ▸ cached.preHasStorage
  preSlot key val := by
    rw [eq.slotPre]
    exact cached.preSlot key val

/-- What the loop of `evm_st_commit_tx` does to a record. -/
structure Commits (a b : AddrRec) : Prop extends SameTx a b where
  blkAcct : b.blkAcct = a.tx.acct.or a.blkAcct
  blkCleared : b.blkCleared = (a.tx.cleared || a.blkCleared)
  blkSlot : ∀ key, (b.slotOf key).blk =
    if key ∈ a.tx.slots ∧ a.Wrote key then some (a.slotOf key).tx.val
    else if a.tx.cleared then none else (a.slotOf key).blk
  counted : b.Counted

theorem Commits.again {a b c : AddrRec} (first : Commits a b) (second : Commits b c) :
    Commits a c where
  toSameTx := first.toSameTx.trans second.toSameTx
  blkAcct := by
    rw [second.blkAcct, first.tx, first.blkAcct]
    cases a.tx.acct <;> rfl
  blkCleared := by
    rw [second.blkCleared, first.tx, first.blkCleared, ← Bool.or_assoc, Bool.or_self]
  blkSlot key := by
    rw [second.blkSlot, first.blkSlot, first.tx, first.slotTx]
    simp only [first.wrote]
    split
    · rfl
    · split <;> rfl
  counted := second.counted

theorem foldl_commitSlot (keys : List Word) {a : AddrRec} (counted : a.Counted) :
    SameTx a (keys.foldl commitSlot a) ∧
      (keys.foldl commitSlot a).blkAcct = a.blkAcct ∧
      (keys.foldl commitSlot a).blkCleared = a.blkCleared ∧
      (∀ key, ((keys.foldl commitSlot a).slotOf key).blk =
        if key ∈ keys ∧ a.Wrote key then some (a.slotOf key).tx.val else (a.slotOf key).blk) ∧
      (keys.foldl commitSlot a).Counted := by
  induction keys generalizing a with
  | nil => exact ⟨SameTx.refl a, rfl, rfl, by simp, counted⟩
  | cons key keys ih =>
    rw [List.foldl_cons]
    -- one slot
    have step : SameTx a (commitSlot a key) ∧
        (commitSlot a key).blkAcct = a.blkAcct ∧
        (commitSlot a key).blkCleared = a.blkCleared ∧
        (∀ other, ((commitSlot a key).slotOf other).blk =
          if other = key ∧ a.Wrote key then some (a.slotOf key).tx.val
          else (a.slotOf other).blk) ∧
        (commitSlot a key).Counted := by
      simp only [commitSlot]
      split
      next wrote =>
        have wrote : a.Wrote key := wrote
        have slots : ∀ other, slotOf { a.putSlot key { a.slotOf key with
            blk := some (a.slotOf key).tx.val } with
              blkNwrites := if (a.slotOf key).blk.isSome then a.blkNwrites
                else a.blkNwrites + 1 } other =
            if other = key then { a.slotOf key with blk := some (a.slotOf key).tx.val }
            else a.slotOf other :=
          fun other => slotOf_putSlot a key other _
        refine ⟨⟨rfl, rfl, rfl, rfl, rfl, ?_, ?_, ?_⟩, rfl, rfl, ?_, ?_⟩
        · intro other
          rw [slots]
          split
          next here => rw [here]
          next => rfl
        · intro other
          rw [slots]
          split
          next here => rw [here]
          next => rfl
        · intro other
          rw [slots]
          split
          next here => rw [here]
          next => rfl
        · intro other
          rw [slots]
          by_cases here : other = key
          · simp [here, wrote]
          · simp [here]
        · have filled : ¬ ∀ other, (slotOf { a.putSlot key { a.slotOf key with
              blk := some (a.slotOf key).tx.val } with
                blkNwrites := if (a.slotOf key).blk.isSome then a.blkNwrites
                  else a.blkNwrites + 1 } other).blk = none := by
            intro all
            have := all key
            rw [slots, if_pos rfl] at this
            cases this
          refine iff_of_false ?_ filled
          intro zero
          dsimp only at zero
          split at zero
          next had =>
            rw [counted.mp zero key] at had
            cases had
          next => cases zero
      next unwritten =>
        have unwritten : ¬ a.Wrote key := unwritten
        exact ⟨SameTx.refl a, rfl, rfl, by simp [unwritten], counted⟩
    obtain ⟨eq, blkAcct, blkCleared, blk, counted'⟩ := step
    obtain ⟨same', blkAcct', blkCleared', blk', counted''⟩ := ih counted'
    refine ⟨eq.trans same', blkAcct'.trans blkAcct, blkCleared'.trans blkCleared, ?_, counted''⟩
    intro other
    rw [blk', blk, eq.slotTx]
    simp only [eq.wrote, List.mem_cons]
    by_cases here : other = key
    · subst here
      by_cases wrote : a.Wrote other
      · simp [wrote]
      · simp [wrote]
    · simp [here]

theorem slotOf_dropBlock (a : AddrRec) (key : Word) :
    (dropBlock a).slotOf key = { a.slotOf key with blk := none } := by
  simp only [dropBlock, slotOf, SearchTree.Map.get?_mapValues]
  cases a.slots.get? key <;> rfl

theorem commitRec_spec {a : AddrRec} (counted : a.Counted) : Commits a (State.commitRec a) := by
  unfold commitRec
  by_cases cleared : a.tx.cleared = true
  · simp only [cleared, if_true]
    -- the writes of the block are dropped, or there are none
    obtain ⟨b, found, eq, blkAcct, blkCleared, empty, blank⟩ : ∃ b : AddrRec,
        { (if 0 < a.blkNwrites then dropBlock { a with blkAcct := a.tx.acct.or a.blkAcct }
          else { a with blkAcct := a.tx.acct.or a.blkAcct }) with
            blkCleared := true, blkNwrites := 0 } = b ∧ SameTx a b ∧
          b.blkAcct = a.tx.acct.or a.blkAcct ∧ b.blkCleared = true ∧
          (∀ key, (b.slotOf key).blk = none) ∧ b.blkNwrites = 0 := by
      refine ⟨_, rfl, ?_⟩
      split
      next =>
        have slots := slotOf_dropBlock { a with blkAcct := a.tx.acct.or a.blkAcct }
        refine ⟨⟨rfl, rfl, rfl, rfl, rfl, ?_, ?_, ?_⟩, rfl, rfl, ?_, rfl⟩
        · exact fun key => (congrArg SlotRec.txEpoch (slots key) :)
        · exact fun key => (congrArg SlotRec.tx (slots key) :)
        · exact fun key => (congrArg SlotRec.pre (slots key) :)
        · exact fun key => (congrArg SlotRec.blk (slots key) :)
      next empty =>
        refine ⟨⟨rfl, rfl, rfl, rfl, rfl, fun _ => rfl, fun _ => rfl, fun _ => rfl⟩, rfl, rfl, ?_,
          rfl⟩
        exact counted.mp (Nat.eq_zero_of_not_pos empty)
    have keys : (if 0 < a.blkNwrites
        then dropBlock { a with blkAcct := a.tx.acct.or a.blkAcct }
        else { a with blkAcct := a.tx.acct.or a.blkAcct }).tx.slots = a.tx.slots := by
      split <;> rfl
    rw [found, keys]
    obtain ⟨same', blkAcct', blkCleared', blk, counted'⟩ :=
      foldl_commitSlot a.tx.slots (iff_of_true blank empty)
    refine ⟨eq.trans same', blkAcct'.trans blkAcct, ?_, ?_, counted'⟩
    · rw [blkCleared', blkCleared, cleared, Bool.true_or]
    · intro key
      rw [blk, eq.slotTx, if_pos cleared, empty]
      simp only [eq.wrote]
  · have eq : SameTx a { a with blkAcct := a.tx.acct.or a.blkAcct } :=
      ⟨rfl, rfl, rfl, rfl, rfl, fun _ => rfl, fun _ => rfl, fun _ => rfl⟩
    simp only [cleared, Bool.false_eq_true, if_false]
    obtain ⟨same', blkAcct, blkCleared, blk, counted'⟩ :=
      @foldl_commitSlot a.tx.slots { a with blkAcct := a.tx.acct.or a.blkAcct } counted
    refine ⟨eq.trans same', blkAcct, ?_, ?_, counted'⟩
    · rw [blkCleared]
      simp [cleared]
    · intro key
      rw [blk, if_neg cleared]
      rfl

end AddrRec

namespace State

variable {st : State}

def commitAll (st : State) (addrs : List Word) : State :=
  addrs.foldl (fun st addr => st.putRec addr (commitRec (st.recOf addr))) st

theorem commitAll_spec (addrs : List Word) {st : State}
    (counted : ∀ addr, (st.recOf addr).Counted) :
    (∀ addr, if addr ∈ addrs then AddrRec.Commits (st.recOf addr) ((st.commitAll addrs).recOf addr)
      else (st.commitAll addrs).recOf addr = st.recOf addr) ∧
      ∃ records, st.commitAll addrs = { st with records := records } := by
  induction addrs generalizing st with
  | nil => exact ⟨fun addr => by simp [commitAll], st.records, rfl⟩
  | cons first addrs ih =>
    have here := AddrRec.commitRec_spec (counted first)
    have counted' : ∀ addr,
        ((st.putRec first (commitRec (st.recOf first))).recOf addr).Counted := by
      intro addr
      rw [recOf_putRec]
      split
      · exact here.counted
      · exact counted addr
    obtain ⟨commits, records, rest⟩ := ih counted'
    refine ⟨?_, records, rest⟩
    have step : st.commitAll (first :: addrs) =
      (st.putRec first (commitRec (st.recOf first))).commitAll addrs := rfl
    rw [step]
    intro addr
    have := commits addr
    rw [recOf_putRec] at this
    simp only [List.mem_cons]
    by_cases eq : addr = first
    · subst eq
      rw [if_pos rfl] at this
      rw [if_pos (Or.inl rfl)]
      split at this
      · exact here.again this
      · rw [this]
        exact here
    · rw [if_neg eq] at this
      simpa [eq] using this

/-- What the committed transactions left, with the running one over them. -/
def Committed.incorporate (committed : Committed) (layer : Layer) (addr key : Word) : Option Word :=
  if layer.Written addr key then some (layer.slots addr key).val
  else if (layer.accts addr).cleared then none
  else committed.slots addr key

/-- What a commit does before the next transaction starts. -/
structure Incorporates (st next : State) : Prop where
  rest : ∃ records, next = { st with records := records }
  same : ∀ addr, AddrRec.SameTx (st.recOf addr) (next.recOf addr)
  accts : ∀ addr, next.committed.accts addr =
    (st.layer.accts addr).acct.or (st.committed.accts addr)
  cleared : ∀ addr, next.committed.cleared addr =
    ((st.layer.accts addr).cleared || st.committed.cleared addr)
  slots : ∀ addr key, next.committed.slots addr key = st.committed.incorporate st.layer addr key
  counted : ∀ addr, next.committed.nwrites addr = 0 ↔ ∀ key, next.committed.slots addr key = none

theorem incorporates (valid : Valid st) : Incorporates st (st.commitAll st.touched) := by
  obtain ⟨commits, rest⟩ := commitAll_spec st.touched valid.counted
  have touched : ∀ addr, addr ∈ st.touched ↔ st.txCur addr = true := valid.tidy.touched
  -- an address is touched, and its record current, or its part of the layer is blank
  have cases : ∀ addr, (st.acctAt addr = (st.recOf addr).tx ∧
      AddrRec.Commits (st.recOf addr) ((st.commitAll st.touched).recOf addr) ∧
      ∀ key, key ∈ (st.recOf addr).tx.slots ↔ st.stxCur addr key = true) ∨
      (st.acctAt addr = .blank ∧ (st.commitAll st.touched).recOf addr = st.recOf addr ∧
        ∀ key, st.slotAt addr key = .blank) := by
    intro addr
    have commit := commits addr
    by_cases current : st.txCur addr = true
    · rw [if_pos ((touched addr).mpr current)] at commit
      have here : st.acctAt addr = (st.recOf addr).tx := by rw [acctAt, if_pos current]
      refine Or.inl ⟨here, commit, ?_⟩
      intro key
      rw [← here]
      exact valid.tidy.txSlots addr key
    · rw [if_neg (fun mem => current ((touched addr).mp mem))] at commit
      refine Or.inr ⟨by rw [acctAt, if_neg current], commit, ?_⟩
      intro key
      rw [slotAt, if_neg (fun slot => current (valid.tidy.nested addr key slot))]
  refine ⟨rest, ?_, ?_, ?_, ?_, ?_⟩
  · intro addr
    rcases cases addr with ⟨-, commit, -⟩ | ⟨-, eq, -⟩
    · exact commit.toSameTx
    · rw [eq]
      exact AddrRec.SameTx.refl _
  · intro addr
    simp only [committed, layer]
    rcases cases addr with ⟨here, commit, -⟩ | ⟨here, eq, -⟩
    · rw [commit.blkAcct, here]
    · rw [eq, here]
      rfl
  · intro addr
    simp only [committed, layer]
    rcases cases addr with ⟨here, commit, -⟩ | ⟨here, eq, -⟩
    · rw [commit.blkCleared, here]
    · rw [eq, here]
      rfl
  · intro addr key
    have slot : st.layer.slots addr key = st.slotAt addr key := rfl
    have accts : st.layer.accts addr = (st.acctAt addr).toAcctLayer := rfl
    rcases cases addr with ⟨here, commit, slots⟩ | ⟨here, eq, blank⟩
    · rw [here] at accts
      have blk := commit.blkSlot key
      by_cases current : st.stxCur addr key = true
      · rw [slotAt, if_pos current] at slot
        simpa [committed, Committed.incorporate, Layer.Written, slot, accts, slots, current,
          AddrRec.Wrote] using blk
      · rw [slotAt, if_neg current] at slot
        simpa [committed, Committed.incorporate, Layer.Written, slot, accts, slots, current,
          SlotTx.blank] using blk
    · rw [here] at accts
      rw [blank] at slot
      simp [committed, Committed.incorporate, Layer.Written, slot, accts, eq, SlotTx.blank,
        AcctTx.blank]
  · intro addr
    simp only [committed]
    rcases cases addr with ⟨-, commit, -⟩ | ⟨-, eq, -⟩
    · exact commit.counted
    · rw [eq]
      exact valid.counted addr

section

variable {next : State} (incorporates : Incorporates st next)

include incorporates

theorem Incorporates.sameTx : SameTx st next where
  epoch := by
    obtain ⟨records, same⟩ := incorporates.rest
    rw [same]
  txEpoch addr := (incorporates.same addr).txEpoch
  tx addr := (incorporates.same addr).tx
  slotEpoch addr := (incorporates.same addr).slotEpoch
  slotTx addr := (incorporates.same addr).slotTx

theorem Incorporates.layer : next.layer = st.layer := by
  obtain ⟨records, eq⟩ := incorporates.rest
  apply incorporates.sameTx.layer <;> rw [eq]

theorem Incorporates.valid (valid : Valid st) : Valid next := by
  obtain ⟨records, eq⟩ := incorporates.rest
  exact incorporates.sameTx.valid (by rw [eq]) (by rw [eq]) (by rw [eq])
    incorporates.layer incorporates.counted valid

theorem Incorporates.cached {be : Backend} (cached : Cached be st) : Cached be next :=
  fun addr => (incorporates.same addr).cached (cached addr)

end

structure Starts (st next : State) : Prop where
  layer : next.layer = .blank
  journal : next.journal = []
  touched : next.touched = []
  isCreated : ∀ addr, next.isCreated addr = false
  committed : next.committed = st.committed
  cache : next.cache = st.cache
  genCounter : next.genCounter = st.genCounter
  epoch : next.epoch = st.epoch + 1
  valid : Valid next

theorem nextTx_spec (valid : Valid st) (left : st.epoch ≠ counterMax) :
    st.nextTx.1 = .ok () ∧ Starts st st.nextTx.2 := by
  rw [nextTx, if_neg left]
  refine ⟨rfl, ?_⟩
  generalize next : ({ st with
    epoch := st.epoch + 1, touched := [], journal := [], logs := [], tickets := [],
    weiDestroyed := 0 } : State) = started
  have records : ∀ addr, started.recOf addr = st.recOf addr := fun addr => by rw [← next]; rfl
  have epoch : started.epoch = st.epoch + 1 := by rw [← next]
  have stale : ∀ addr, started.txCur addr = false := by
    intro addr
    have := valid.tidy.acctEpoch addr
    rw [txCur, records, epoch]
    exact decide_eq_false (by omega)
  have stale' : ∀ addr key, started.stxCur addr key = false := by
    intro addr key
    have := valid.tidy.slotEpoch addr key
    rw [stxCur, records, epoch]
    exact decide_eq_false (by omega)
  have blank : ∀ addr, started.acctAt addr = .blank := by
    intro addr
    rw [acctAt, stale addr]
    rfl
  have layer : started.layer = .blank := by
    apply Layer.ext
    · funext addr
      exact congrArg AcctTx.toAcctLayer (blank addr)
    · funext addr key
      simp only [layer, slotAt, stale' addr key, Bool.false_eq_true, if_false]
      rfl
    · rw [← next]; rfl
    · rw [← next]; rfl
    · rw [← next]; rfl
  have committed : started.committed = st.committed := by simp only [committed, records]
  refine ⟨layer, by rw [← next], by rw [← next], ?_, committed, ?_, by rw [← next], epoch, ?_⟩
  · intro addr
    rw [isCreated_eq, blank]
    rfl
  · simp only [cache, records]
  · exact {
      tidy := {
        epochPos := by rw [epoch]; omega
        acctEpoch := fun addr => by
          rw [records, epoch]
          exact (valid.tidy.acctEpoch addr).trans (Nat.le_succ _)
        slotEpoch := fun addr key => by
          rw [records, epoch]
          exact (valid.tidy.slotEpoch addr key).trans (Nat.le_succ _)
        nested := fun addr key current => by
          rw [stale'] at current
          cases current
        touched := fun addr => by
          rw [stale, ← next]
          simp
        txSlots := fun addr key => by
          rw [blank, stale']
          simp [AcctTx.blank] }
      current := fun entry mem => by
        rw [← next] at mem
        cases mem
      history := by
        have journal : started.journal = [] := by rw [← next]
        rw [journal, layer]
        rfl
      counted := by
        rw [committed]
        exact valid.counted }

theorem Starts.cached {be : Backend} {next : State} (starts : Starts st next)
    (cached : Cached be st) : Cached be next :=
  cached.of_cache starts.cache

theorem valid_new : Valid new := by
  have blank : ∀ addr, new.recOf addr = .blank := fun _ => rfl
  have stale : ∀ addr, new.txCur addr = false := fun _ => rfl
  refine ⟨⟨Nat.one_pos, fun _ => Nat.zero_le _, fun _ _ => Nat.zero_le _, ?_, ?_, ?_⟩, ?_, ?_, ?_⟩
  · intro addr key current
    cases current
  · intro addr
    rw [stale]
    simp [new]
  · intro addr key
    constructor
    · intro mem
      cases mem
    · intro current
      cases current
  · intro entry mem
    cases mem
  · exact Layer.ext rfl rfl rfl rfl rfl
  · exact fun _ => iff_of_true rfl fun _ => rfl

theorem cached_new (be : Backend) : Cached be new := by
  intro addr
  constructor
  · rintro _ ⟨⟩
  · rintro _ ⟨⟩
  · rintro _ ⟨⟩
  · rintro _ _ ⟨⟩

end State

end DnaLedger.Evm
