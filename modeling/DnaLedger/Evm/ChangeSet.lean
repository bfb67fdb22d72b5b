import DnaLedger.Evm.ChangeReports
import DnaLedger.Evm.Codes

/-!
# The change set is exact

Applied to what the backend serves, the reports of the walk give the accounts, the codes and
the slots that the state shows between two transactions.
-/

namespace DnaLedger.Evm

open Command Backend Set World Overlay

namespace State

variable {be : Backend} {st : State} {addr : Word}

theorem getCode_backend (cached : Cached be st) {acct : Acct} {code : Bytes}
    (read : (st.getCode be addr acct).1 = .ok code) (hashed : acct.codeHash ≠ emptyCodeHash)
    (apart : acct.code = none) : code = be.getCode addr := by
  unfold getCode at read
  rw [if_neg hashed, apart] at read
  dsimp only at read
  obtain ⟨answer, -, known, filled⟩ := loadPre_spec cached addr
  generalize st.loadPre be addr = loaded at answer known filled read
  obtain ⟨outcome, loaded⟩ := loaded
  cases outcome with
  | error stop => cases read
  | ok pre =>
    obtain ⟨answer', -, -⟩ := loadCode_spec known (filled pre rfl)
    simp only at read
    generalize loaded.loadCode be addr pre = coded at answer' read
    obtain ⟨outcome, coded⟩ := coded
    cases outcome with
    | error stop => cases read
    | ok found =>
      simp only at read
      split at read
      next => cases read
      next same =>
        cases read
        have pre' : be.preAcct addr = .ok pre := by
          rcases answer with ⟨eq, -⟩ | ⟨_, _, _, refused⟩
          · exact eq.symm
          · cases refused
        simp only [not_or, ne_eq, Bool.not_eq_false, not_not] at same
        obtain ⟨present, hash⟩ := same
        -- an account with a code hash has a code that is not empty
        have sized : ¬ (pre.present = false ∨ pre.codeSize = 0) := by
          rintro (absent | empty)
          · rw [present] at absent
            cases absent
          · unfold preAcct at pre'
            cases made : PreAcct.ofAccount (be.getAccount addr) with
            | none =>
              rw [made] at pre'
              cases pre'
            | some made' =>
              rw [made] at pre'
              cases pre'
              unfold PreAcct.ofAccount at made
              split at made
              next =>
                split at made
                next agrees =>
                  cases made
                  dsimp only at hash empty
                  refine hashed (hash ▸ agrees.mpr ?_)
                  exact UInt32.toNat_inj.mp empty
                next => cases made
              next =>
                cases made
                cases present
        rw [if_neg sized] at answer'
        rcases answer' with ⟨eq, -⟩ | ⟨_, _, _, refused⟩
        · unfold preCode at eq
          split at eq
          · cases eq
          · cases eq
            rfl
        · cases refused

variable {a : AddrRec}
variable {account : AccountChange} {host : Host} {codes : Set Bytes}

theorem accountChange_row {pre : Option Acct} (changed : accountChange addr a pre = .ok account) :
    (if account.deleted then none
      else some (⟨account.nonce, account.balance, account.codeHash⟩ : Row)) =
        (a.blkAcct.getD pre).map Acct.row := by
  unfold accountChange at changed
  dsimp only at changed
  split at changed
  next bare =>
    cases changed
    rw [bare]
    rfl
  next fin found =>
    rw [found]
    split at changed
    · cases changed
      rfl
    · split at changed
      · cases changed
        rfl
      · split at changed
        · cases changed
        · cases changed
          rfl

theorem accountChange_code (honest : host.be.Honest host.keccak)
    (injective : InjOn host.keccak (codes ∪ range host.be.getCode))
    (changed : accountChange addr a (host.be.before addr) = .ok account) {fin : Acct}
    (found : a.blkAcct.getD (host.be.before addr) = some fin) (ok : CodeOk host codes addr fin)
    (hashed : fin.codeHash ≠ emptyCodeHash) :
    (if account.codeChanged then account.code else host.be.getCode addr) =
      fin.code.getD (host.be.getCode addr) := by
  unfold accountChange at changed
  rw [found] at changed
  dsimp only at changed
  split at changed
  next eq =>
    cases changed
    simp only [Bool.false_eq_true, if_false]
    cases code : fin.code with
    | none => rfl
    | some bytes =>
      simp only [CodeOk, code] at ok
      cases old : host.be.before addr with
      | none =>
        rw [old] at eq
        exact absurd eq hashed
      | some before =>
        rw [old] at eq
        obtain ⟨there, hash, -⟩ := before_some old
        -- the hash is that of the backend, and no other code has it
        apply injective (Or.inr ⟨addr, rfl⟩) (Or.inl ok.1)
        rw [honest addr there, ← hash, ok.2]
        exact eq.symm
  next =>
    split at changed
    next => cases changed
    next bytes code =>
      cases changed
      rw [code]
      rfl

theorem accountChange_ok (ok : ∀ acct, a.blkAcct = some (some acct) → CodeOk host codes addr acct) :
    ∃ account, accountChange addr a (host.be.before addr) = .ok account := by
  unfold accountChange
  dsimp only
  split
  next => exact ⟨_, rfl⟩
  next fin found =>
    split
    next => exact ⟨_, rfl⟩
    next apart =>
      split
      next => exact ⟨_, rfl⟩
      next hashed =>
        cases code : fin.code with
        | some bytes => exact ⟨_, rfl⟩
        | none =>
          exfalso
          obtain written | ⟨-, eq⟩ := getD_eq_some found
          · have fine := ok fin written
            simp only [CodeOk, code] at fine
            rcases fine with empty | ⟨old, before, hash⟩
            · exact hashed empty
            · rw [before] at apart
              exact apart hash.symm
          · rw [eq] at apart
            exact apart rfl

end State

/-! ## Between two transactions -/

/-- The accounts, codes and slots of a world are those that the state shows. -/
structure Exact (host : Host) (st : State) (world : World) : Prop where
  account : ∀ addr found, (st.getAccountOptional host.be addr).1 = .ok found →
    world.accounts addr = found.map Acct.row
  code : ∀ addr code, ((Access.codeAt addr).run (State.handle host) st).1 = .ok code →
    world.code addr = code
  slot : ∀ addr key val, (st.getStorage host.be addr key).1 = .ok val →
    world.slots addr key = val

namespace State

variable {host : Host} {st : State} {addr : Word}

/-- Between two transactions, an account is the last that was committed, or that of the
backend. -/
theorem getAccountOptional_blank (cached : Cached host.be st) (blank : st.layer = .blank)
    {found : Option Acct} (read : (st.getAccountOptional host.be addr).1 = .ok found) :
    found = (st.recOf addr).blkAcct.getD (host.be.before addr) := by
  obtain ⟨answer, -, -⟩ := getAccountOptional_spec cached addr
  rw [account_of_answer answer read, Layer.account, blank]
  rfl

variable {key : Word}
variable {val : Word} {slot : Word × SlotRec} {code : Bytes}

/-- Between two transactions, a slot is the last that was committed, or what it is compared
with. -/
theorem getStorage_blank (sound : Sound host.be st) (blank : st.layer = .blank)
    (read : (st.getStorage host.be addr key).1 = .ok val) :
    val = ((st.recOf addr).slotOf key).blk.getD
      (baseline host.be addr (st.recOf addr).blkCleared key) := by
  have unwritten : st.layer.slotWrite addr key = none := by
    rw [blank]
    rfl
  rw [(getStorage_spec sound.valid.tidy sound.cached addr key).1, unwritten] at read
  obtain ⟨answer, -, -⟩ := getStorageBelow_spec sound.cached addr key
  have slots : st.committed.slots addr key = ((st.recOf addr).slotOf key).blk := rfl
  rw [slots] at answer
  cases found : ((st.recOf addr).slotOf key).blk with
  | some committed =>
    rw [found] at answer
    cases read.symm.trans answer
    rfl
  | none =>
    rw [found] at answer
    by_cases cleared : st.committed.cleared addr = true
    · simp only [if_pos cleared] at answer
      have flag : (st.recOf addr).blkCleared = true := cleared
      rw [flag]
      cases read.symm.trans answer
      rfl
    · simp only [if_neg cleared] at answer
      have flag : ¬ (st.recOf addr).blkCleared = true := cleared
      rw [baseline, if_neg flag]
      rcases answer with ⟨eq, -⟩ | ⟨_, _, _, refused⟩
      · cases read.symm.trans eq
        rfl
      · cases read.symm.trans refused

variable {a : AddrRec}

theorem slotOf_of_mem (mem : slot ∈ a.slots.entries) : slot.2 = a.slotOf slot.1 := by
  rw [AddrRec.slotOf, SearchTree.Map.get?_eq_some.mpr mem]
  rfl

variable {be : Backend}

theorem slotReport_eq_some {cleared : Bool} :
    slotReport be addr cleared slot = some (key, val) ↔
      slot.1 = key ∧ slot.2.blk = some val ∧ baseline be addr cleared key ≠ val := by
  unfold slotReport
  cases slot.2.blk with
  | none => simp
  | some committed =>
    simp only [Option.bind_some, Option.some.injEq]
    split
    next eq =>
      simp only [reduceCtorEq, false_iff, not_and]
      rintro rfl rfl
      exact not_not.mpr eq
    next apart =>
      simp only [Option.some.injEq, Prod.mk.injEq]
      constructor
      · rintro ⟨rfl, rfl⟩
        exact ⟨rfl, rfl, apart⟩
      · rintro ⟨rfl, rfl, -⟩
        exact ⟨rfl, rfl⟩

theorem slotReports_ascending (be : Backend) (addr : Word) (cleared : Bool) (a : AddrRec) :
    (a.slots.entries.filterMap (slotReport be addr cleared)).Pairwise
      fun first second => first.1 < second.1 := by
  refine List.Pairwise.filterMap _ ?_ a.slots.entries_ascending
  intro first second before report reported report' reported'
  rw [← (slotReport_eq_some.mp reported).1, ← (slotReport_eq_some.mp reported').1]
  exact before

variable {world : World}

theorem slots_applied (a : AddrRec) (addr : Word)
    (base : world.slots addr key = baseline be addr a.blkCleared key) :
    (world.applySlots addr (a.slots.entries.filterMap
        (slotReport be addr a.blkCleared))).slots addr key =
      (a.slotOf key).blk.getD (baseline be addr a.blkCleared key) := by
  obtain ⟨inside, outside⟩ := applySlots_slot world addr _
    (slotReports_ascending be addr a.blkCleared a) key
  have reported : ∀ val, (key, val) ∈ a.slots.entries.filterMap
      (slotReport be addr a.blkCleared) → (a.slotOf key).blk = some val ∧
        baseline be addr a.blkCleared key ≠ val := by
    intro val mem
    obtain ⟨slot, entry, report⟩ := List.mem_filterMap.mp mem
    obtain ⟨rfl, blk, apart⟩ := slotReport_eq_some.mp report
    rw [← slotOf_of_mem entry]
    exact ⟨blk, apart⟩
  cases blk : (a.slotOf key).blk with
  | none =>
    refine (outside fun val mem => ?_).trans base
    rw [(reported val mem).1] at blk
    cases blk
  | some val =>
    by_cases eq : baseline be addr a.blkCleared key = val
    · refine (outside fun other mem => ?_).trans (base.trans eq)
      obtain ⟨blk', apart⟩ := reported other mem
      rw [blk] at blk'
      cases blk'
      exact apart eq
    · apply inside val
      cases found : a.slots.get? key with
      | none =>
        rw [AddrRec.slotOf, found] at blk
        cases blk
      | some s =>
        refine List.mem_filterMap.mpr ⟨(key, s), SearchTree.Map.get?_eq_some.mp found, ?_⟩
        have here : a.slotOf key = s := by
          rw [AddrRec.slotOf, found]
          rfl
        exact slotReport_eq_some.mpr ⟨rfl, here ▸ blk, eq⟩

/-- What the block has for an address is what the world has there. -/
structure Shows (host : Host) (addr : Word) (a : AddrRec) (world : World) : Prop where
  account : world.accounts addr = (a.blkAcct.getD (host.be.before addr)).map Acct.row
  code : ∀ fin, a.blkAcct.getD (host.be.before addr) = some fin → fin.codeHash ≠ emptyCodeHash →
    world.codes addr = fin.code.getD (host.be.getCode addr)
  slot : ∀ key, world.slots addr key =
    (a.slotOf key).blk.getD (baseline host.be addr a.blkCleared key)

theorem Shows.of_same {world' : World} (eq : Same addr world' world)
    (shows : Shows host addr a world) :
    Shows host addr a world' where
  account := eq.1.trans shows.account
  code fin found hashed := eq.2.1.trans (shows.code fin found hashed)
  slot key := (congrFun eq.2.2 key).trans (shows.slot key)

theorem shows_clean (blkAcct : a.blkAcct = none) (blkCleared : a.blkCleared = false)
    (slots : ∀ key, (a.slotOf key).blk = none) :
    Shows host addr a host.be.world where
  account := by
    rw [blkAcct]
    exact (before_row host.be addr).symm
  code fin found _ := by
    rw [blkAcct] at found
    rw [(before_some found).2.2]
    rfl
  slot key := by
    rw [slots, blkCleared]
    rfl

variable {codes : Set Bytes}

theorem shows_change (honest : host.be.Honest host.keccak)
    (injective : InjOn host.keccak (codes ∪ range host.be.getCode))
    (ok : ∀ acct, a.blkAcct = some (some acct) → CodeOk host codes addr acct) {change : Change}
    (report : addrReport host.be (addr, a) = some change)
    (eq : Same addr world host.be.world) : Shows host addr a (world.apply change) := by
  obtain ⟨here, cleared, changed, slots⟩ := addrReport_fields report
  have here : change.account.addr = addr := here
  have cleared : change.account.storageCleared = a.blkCleared := cleared
  obtain ⟨accounts, codes', -⟩ := applySlots_rest (world.applyAccount change.account)
    change.account.addr change.slots
  constructor
  · rw [apply, accounts, applyAccount, ← accountChange_row changed, here]
    exact Function.update_self ..
  · intro fin found hashed
    have fine : CodeOk host codes addr fin := by
      obtain written | ⟨-, before⟩ := getD_eq_some found
      · exact ok fin written
      · exact codeOk_before before
    rw [← accountChange_code honest injective changed found fine hashed, apply, codes',
      applyAccount, here]
    dsimp only
    split
    · exact Function.update_self ..
    · exact eq.2.1
  · intro key
    have base : (world.applyAccount change.account).slots addr key =
        baseline host.be addr a.blkCleared key := by
      rw [applyAccount, cleared, here, baseline]
      dsimp only
      split
      · rw [Function.update_self]
      · exact congrFun eq.2.2 key
    rw [apply, here, slots]
    exact slots_applied a addr base

theorem getCode_value (cached : Cached be st) {acct : Acct}
    (read : (st.getCode be addr acct).1 = .ok code) :
    code = if acct.codeHash = emptyCodeHash then [] else acct.code.getD (be.getCode addr) := by
  split
  next empty =>
    rw [getCode, if_pos empty] at read
    cases read
    rfl
  next hashed =>
    cases apart : acct.code with
    | none => exact getCode_backend cached read hashed apart
    | some bytes =>
      rw [getCode, if_neg hashed, apart] at read
      cases read
      rfl

theorem codeAt_value (cached : Cached host.be st)
    (read : ((Access.codeAt addr).run (handle host) st).1 = .ok code) :
    ∃ found, (st.getAccountOptional host.be addr).1 = .ok found ∧
      code = if (found.getD .empty).codeHash = emptyCodeHash then []
        else (found.getD .empty).code.getD (host.be.getCode addr) := by
  have opened : (Access.codeAt addr).run (handle host) st =
      match st.getAccountOptional host.be addr with
      | (.ok found, next) => next.getCode host.be addr (found.getD .empty)
      | (.error stop, next) => (.error stop, next) := by
    simp only [Access.codeAt, Access.getAccount, Access.getAccountOptional, Access.prim,
      Prog.run_bind, Prog.run_perform, Prog.pure_eq, handle]
    generalize st.getAccountOptional host.be addr = outcome
    obtain ⟨stop | found, next⟩ := outcome <;> rfl
  obtain ⟨-, -, known⟩ := getAccountOptional_spec cached addr
  rw [opened] at read
  generalize st.getAccountOptional host.be addr = outcome at read known
  obtain ⟨stop | found, next⟩ := outcome
  · cases read
  · exact ⟨found, rfl, getCode_value known read⟩

theorem shows_all (honest : host.be.Honest host.keccak)
    (injective : InjOn host.keccak (codes ∪ range host.be.getCode)) (valid : Valid st)
    (ok : ∀ addr acct, (st.recOf addr).blkAcct = some (some acct) → CodeOk host codes addr acct)
    (addr : Word) :
    Shows host addr (st.recOf addr)
      (host.be.world.applyAll (st.records.entries.filterMap (addrReport host.be))) := by
  cases found : st.records.get? addr with
  | none =>
    have blank : st.recOf addr = .blank := by
      rw [recOf, found]
      rfl
    have absent : ∀ entry ∈ st.records.entries, entry.1 ≠ addr := by
      rintro ⟨addr', a⟩ mem rfl
      rw [SearchTree.Map.get?_eq_some.mpr mem] at found
      cases found
    apply Shows.of_same (applyAll_absent host.be absent host.be.world)
    rw [blank]
    exact shows_clean rfl rfl fun _ => rfl
  | some a =>
    have here : st.recOf addr = a := by
      rw [recOf, found]
      rfl
    rw [here]
    have fine := ok addr
    rw [here] at fine
    rcases applyAll_entry st.records.entries_ascending
      (SearchTree.Map.get?_eq_some.mp found) with
      ⟨quiet, eq⟩ | ⟨change, world, report, first, eq⟩
    · apply Shows.of_same eq
      obtain ⟨account, changed⟩ := accountChange_ok fine
      have clean : dirty a = false := by
        by_contra soiled
        rw [addrReport, if_pos (Bool.not_eq_false _ ▸ soiled)] at quiet
        rw [changed] at quiet
        cases quiet
      simp only [dirty, Bool.or_eq_false_iff, Option.isSome_eq_false_iff,
        Option.isNone_iff_eq_none, decide_eq_false_iff_not, Nat.not_lt, Nat.le_zero] at clean
      obtain ⟨⟨blkAcct, blkCleared⟩, blkNwrites⟩ := clean
      have counted := valid.counted addr
      simp only [committed, here] at counted
      exact shows_clean blkAcct blkCleared (counted.mp blkNwrites)
    · exact (shows_change honest injective fine report first).of_same eq

theorem exact_all (honest : host.be.Honest host.keccak)
    (injective : InjOn host.keccak (codes ∪ range host.be.getCode))
    (sound : Sound host.be st) (blank : st.layer = .blank)
    (ok : ∀ addr acct, (st.recOf addr).blkAcct = some (some acct) → CodeOk host codes addr acct) :
    Exact host st (host.be.world.applyAll (st.records.entries.filterMap (addrReport host.be))) := by
  have shows := shows_all honest injective sound.valid ok
  constructor
  · intro addr found read
    rw [getAccountOptional_blank sound.cached blank read]
    exact (shows addr).account
  · intro addr code read
    obtain ⟨found, account, value⟩ := codeAt_value sound.cached read
    have eq := getAccountOptional_blank sound.cached blank account
    have row := (shows addr).account
    rw [← eq] at row
    rw [value, World.code, row]
    cases found with
    | none => rfl
    | some fin =>
      simp only [Option.map_some, Acct.row, Option.getD_some]
      split
      next => rfl
      next hashed => exact (shows addr).code fin eq.symm hashed
  · intro addr key val read
    rw [getStorage_blank sound blank read]
    exact (shows addr).slot key

end State

theorem addrReports_ascending (be : Backend) (st : State) :
    (st.records.entries.filterMap (State.addrReport be)).Pairwise
      fun first second => first.account.addr < second.account.addr := by
  refine List.Pairwise.filterMap _ ?_ st.records.entries_ascending
  intro first second before report reported report' reported'
  rw [(State.addrReport_fields reported).1, (State.addrReport_fields reported').1]
  exact before

/-- The reports of one address: ascending slots that differ from the backend unless the storage was
cleared. -/
theorem addrReports_slots {be : Backend} {st : State} {change : Change}
    (mem : change ∈ st.records.entries.filterMap (State.addrReport be)) :
    (change.slots.Pairwise fun first second => first.1 < second.1) ∧
      ∀ key val, (key, val) ∈ change.slots → change.account.storageCleared = false →
        be.getStorage change.account.addr key ≠ val := by
  obtain ⟨⟨addr, a⟩, -, report⟩ := List.mem_filterMap.mp mem
  obtain ⟨here, cleared, -, slots⟩ := State.addrReport_fields report
  have here : change.account.addr = addr := here
  have cleared : change.account.storageCleared = a.blkCleared := cleared
  rw [slots]
  refine ⟨State.slotReports_ascending be addr a.blkCleared a, ?_⟩
  intro key val reported kept
  obtain ⟨slot, -, report⟩ := List.mem_filterMap.mp reported
  have apart := (State.slotReport_eq_some.mp report).2.2
  rw [cleared] at kept
  rw [here]
  rwa [State.baseline, if_neg (by rw [kept]; exact Bool.false_ne_true)] at apart

/-- After any transactions the change set gives what the state shows, in ascending order; the walk
fails only where the backend refuses a call. -/
theorem change_set_exact (host : Host) (honest : host.be.Honest host.keccak) (codes : Set Bytes)
    (injective : InjOn host.keccak (codes ∪ range host.be.getCode)) (ops : List Op)
    (shown : ∀ op ∈ ops, op.Public codes) (ended : ∀ op ∈ ops.getLast?, op.ends = true)
    (done : ∀ answer ∈ (answers (step host) ops .new).getLast?, ¬ answer.Exhausted) :
    (∀ changes, (after (step host) ops .new).st.visitChanges host.be = .ok changes →
      Exact host (after (step host) ops .new).st (host.be.world.applyAll changes) ∧
      (changes.Pairwise fun first second => first.account.addr < second.account.addr) ∧
      ∀ change ∈ changes, (change.slots.Pairwise fun first second => first.1 < second.1) ∧
        ∀ key val, (key, val) ∈ change.slots → change.account.storageCleared = false →
          host.be.getStorage change.account.addr key ≠ val) ∧
      ((∀ calls query, host.be.refuses calls query = none) →
        ∃ changes, (after (step host) ops .new).st.visitChanges host.be = .ok changes) := by
  obtain ⟨ok, -⟩ := (codesOk_new host codes).after shown
  have blank : (after (step host) ops .new).st.layer = .blank := by
    rcases List.eq_nil_or_concat ops with rfl | ⟨rest, op, rfl⟩
    · exact Layer.ext rfl rfl rfl rfl rfl
    · rw [List.concat_eq_append] at done shown ⊢
      rw [answers_append, answers, answers, List.getLast?_append] at done
      have before := (codesOk_new host codes).after fun other mem =>
        shown other (List.mem_append_left [op] mem)
      rw [after_append]
      exact before.ended (ended op (by simp)) (done _ rfl)
  generalize (after (step host) ops .new).st = st at ok blank
  have record : ∀ entry ∈ st.records.entries, st.recOf entry.1 = entry.2 := by
    intro entry mem
    rw [State.recOf, SearchTree.Map.get?_eq_some.mpr mem]
    rfl
  have fine : ∀ addr acct, (st.recOf addr).blkAcct = some (some acct) →
      CodeOk host codes addr acct := ok.committed
  have walked := @State.visitAddrs_cases host.be st.records.entries st.calls
    (fun entry mem => record entry mem ▸ ok.sound.cached entry.1)
    (fun _ _ _ inside => State.slotOf_of_mem inside)
    (fun entry mem => State.accountChange_ok (record entry mem ▸ fine entry.1))
  rcases walked with ⟨calls, walked⟩ | ⟨fault, refused⟩
  · have visited : st.visitChanges host.be =
        .ok (st.records.entries.filterMap (State.addrReport host.be)) := by
      rw [State.visitChanges, walked]
      rfl
    refine ⟨?_, fun _ => ⟨_, visited⟩⟩
    intro changes eq
    cases visited.symm.trans eq
    exact ⟨State.exact_all honest injective ok.sound blank fine,
      addrReports_ascending host.be st, fun change mem => addrReports_slots mem⟩
  · have visited : st.visitChanges host.be = .error .fault := by
      rw [State.visitChanges, fault]
      rfl
    refine ⟨?_, ?_⟩
    · intro changes eq
      cases visited.symm.trans eq
    · intro serves
      obtain ⟨calls, query, stop, stopped⟩ := refused
      rw [serves] at stopped
      cases stopped

/-- The backend account gets a new code and storage, another is created, and the last transaction
is taken back. -/
def changeOps : List Op :=
  [.call (.setStorage 9 1 6), .call (.setCode 9 [2]), .call (.createEther 1 5), .commitTx,
    .call (.destroyStorage 9), .call (.setStorage 9 2 8), .commitTx, .call (.createEther 2 7),
    .abortTx]

theorem change_set_exact_single :
    ∃ changes, (after (step .single) changeOps .new).st.visitChanges Host.single.be = .ok changes ∧
      Exact .single (after (step .single) changeOps .new).st
        (Host.single.be.world.applyAll changes) := by
  have served : ∀ addr, addr = 9 ∧ Host.single.be.getCode addr = [1] ∨
      addr ≠ 9 ∧ Host.single.be.getCode addr = [] := fun addr =>
    (em (addr = 9)).imp (fun here => ⟨here, if_pos here⟩) fun other => ⟨other, if_neg other⟩
  have honest : Host.single.be.Honest Host.single.keccak := by
    intro addr there
    obtain ⟨rfl, -⟩ | ⟨other, -⟩ := served addr
    · decide
    · simp only [Host.single, if_neg other] at there
      cases there
  have injective : InjOn Host.single.keccak ({[2]} ∪ range Host.single.be.getCode) := by
    have codes : ∀ code ∈ {[2]} ∪ range Host.single.be.getCode,
        code = [2] ∨ code = [1] ∨ code = [] := by
      rintro _ (rfl | ⟨addr, rfl⟩)
      · exact .inl rfl
      · exact .inr ((served addr).imp And.right And.right)
    intro first inside second inside'
    obtain rfl | rfl | rfl := codes first inside <;> obtain rfl | rfl | rfl := codes second inside'
    all_goals decide
  obtain ⟨eq, walked⟩ := change_set_exact .single honest {[2]} injective changeOps
    (by
      simp only [changeOps, List.forall_mem_cons, Op.Public, Call.Public]
      exact ⟨trivial, rfl, by simp⟩) (by simp [changeOps, Op.ends])
    (by
      rintro answer ⟨⟩
      exact fun exhausted => by cases exhausted)
  obtain ⟨changes, visited⟩ := walked fun _ _ => rfl
  exact ⟨changes, visited, (eq changes visited).1⟩

end DnaLedger.Evm
