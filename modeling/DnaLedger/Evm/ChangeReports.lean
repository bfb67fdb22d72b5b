import DnaLedger.Evm.Changes

/-!
# What the walk reports

The walk over the records reports every address once, in ascending order, unless the backend refuses
a call.
-/

namespace DnaLedger.Evm

open List

/-! ## The reports -/

namespace State

variable {be : Backend}

section

variable (be : Backend)

/-- What a slot is compared with. -/
def baseline (addr : Word) (cleared : Bool) (key : Word) : Word :=
  if cleared then 0 else be.getStorage addr key

def slotReport (addr : Word) (cleared : Bool) (slot : Word × SlotRec) : Option (Word × Word) :=
  slot.2.blk.bind fun val =>
    if baseline be addr cleared slot.1 = val then none else some (slot.1, val)

def addrReport (entry : Word × AddrRec) : Option Change :=
  if dirty entry.2 then
    (accountChange entry.1 entry.2 (be.before entry.1)).toOption.map fun account =>
      ⟨account, entry.2.slots.entries.filterMap (slotReport be entry.1 entry.2.blkCleared)⟩
  else none

def Refused : Prop :=
  ∃ calls query stop, be.refuses calls query = some stop

theorem visitAsk_cases (calls : Nat) (query : Query) :
    visitAsk be calls query = .ok (calls + 1) ∨
      (visitAsk be calls query = .error .fault ∧ Refused be) := by
  unfold visitAsk
  cases refused : be.refuses calls query with
  | none => exact Or.inl rfl
  | some stop => exact Or.inr ⟨rfl, calls, query, stop, refused⟩

end

variable {addr : Word}

theorem visitSlot_cases {key : Word} {s : SlotRec} (cleared : Bool) (val : Word) (calls : Nat)
    (known : ∀ base, s.pre = some base → base = be.getStorage addr key) :
    (∃ calls', visitSlot be addr cleared key s val calls =
        .ok (decide (baseline be addr cleared key ≠ val), calls')) ∨
      (visitSlot be addr cleared key s val calls = .error .fault ∧ Refused be) := by
  unfold visitSlot baseline
  cases cleared with
  | true =>
    have turned : decide (val ≠ 0) = decide ((0 : Word) ≠ val) := decide_eq_decide.mpr ne_comm
    refine Or.inl ⟨calls, ?_⟩
    simp only [if_true, turned]
  | false =>
    simp only [Bool.false_eq_true, if_false]
    cases found : s.pre with
    | some base =>
      rw [known base found]
      exact Or.inl ⟨calls, rfl⟩
    | none =>
      rcases visitAsk_cases be calls (.storage addr key) with answered | ⟨fault, refused⟩
      · rw [answered]
        exact Or.inl ⟨calls + 1, rfl⟩
      · rw [fault]
        exact Or.inr ⟨rfl, refused⟩

theorem visitSlots_cases (cleared : Bool) (slots : List (Word × SlotRec)) (calls : Nat)
    (known : ∀ slot ∈ slots, ∀ base, slot.2.pre = some base → base = be.getStorage addr slot.1) :
    (∃ calls', visitSlots be addr cleared slots calls =
        .ok (slots.filterMap (slotReport be addr cleared), calls')) ∨
      (visitSlots be addr cleared slots calls = .error .fault ∧ Refused be) := by
  induction slots generalizing calls with
  | nil => exact Or.inl ⟨calls, rfl⟩
  | cons slot rest ih =>
    obtain ⟨key, s⟩ := slot
    have rest' := fun calls => ih calls fun other mem =>
      known other (mem_cons_of_mem _ mem)
    cases found : s.blk with
    | none =>
      have skipped : slotReport be addr cleared (key, s) = none := by
        rw [slotReport, found]
        rfl
      simp only [visitSlots, found, filterMap_cons, skipped]
      exact rest' calls
    | some val =>
      have report : slotReport be addr cleared (key, s) =
          if baseline be addr cleared key = val then none else some (key, val) := by
        rw [slotReport, found]
        rfl
      simp only [visitSlots, found, filterMap_cons, report]
      rcases visitSlot_cases cleared val calls (known (key, s) mem_cons_self) with
        ⟨calls', visited⟩ | ⟨fault, refused⟩
      · rw [visited]
        rcases rest' calls' with ⟨calls'', visited'⟩ | ⟨fault, refused⟩
        · refine Or.inl ⟨calls'', ?_⟩
          simp only [bind, Except.bind, visited']
          by_cases eq : baseline be addr cleared key = val
          · simp [eq]
          · simp [eq]
        · refine Or.inr ⟨?_, refused⟩
          simp only [bind, Except.bind, fault]
      · rw [fault]
        exact Or.inr ⟨rfl, refused⟩

theorem visitPre_cases {a : AddrRec} (calls : Nat) (cached : a.Cached be addr) :
    (∃ calls', visitPre be addr a calls = .ok (be.before addr, calls')) ∨
      (visitPre be addr a calls = .error .fault ∧ Refused be) := by
  unfold visitPre
  cases found : a.pre with
  | some pre =>
    refine Or.inl ⟨calls, ?_⟩
    rw [← Backend.before_of_preAcct (cached.pre pre found).1]
  | none =>
    rcases visitAsk_cases be calls (.account addr) with answered | ⟨fault, refused⟩
    · rw [answered]
      exact Or.inl ⟨calls + 1, rfl⟩
    · rw [fault]
      exact Or.inr ⟨rfl, refused⟩

theorem visitAddrs_cases (entries : List (Word × AddrRec)) (calls : Nat)
    (cached : ∀ entry ∈ entries, entry.2.Cached be entry.1)
    (slots : ∀ entry ∈ entries, ∀ slot ∈ entry.2.slots.entries, slot.2 = entry.2.slotOf slot.1)
    (reported : ∀ entry ∈ entries, ∃ account,
      accountChange entry.1 entry.2 (be.before entry.1) = .ok account) :
    (∃ calls', visitAddrs be entries calls = .ok (entries.filterMap (addrReport be), calls')) ∨
      (visitAddrs be entries calls = .error .fault ∧ Refused be) := by
  induction entries generalizing calls with
  | nil => exact Or.inl ⟨calls, rfl⟩
  | cons entry rest ih =>
    have rest' := fun calls => ih calls
      (fun other mem => cached other (mem_cons_of_mem _ mem))
      (fun other mem => slots other (mem_cons_of_mem _ mem))
      (fun other mem => reported other (mem_cons_of_mem _ mem))
    obtain ⟨account, changed⟩ := reported entry mem_cons_self
    have here := cached entry mem_cons_self
    have slots' := slots entry mem_cons_self
    obtain ⟨addr, a⟩ := entry
    by_cases changes : dirty a = true
    · have report : addrReport be (addr, a) = some ⟨account, a.slots.entries.filterMap
          (slotReport be addr a.blkCleared)⟩ := by
        simp only [addrReport, if_pos changes]
        rw [changed]
        rfl
      have known : ∀ slot ∈ a.slots.entries, ∀ base, slot.2.pre = some base →
          base = be.getStorage addr slot.1 := by
        intro slot mem base found
        rw [slots' slot mem] at found
        exact (here.preSlot slot.1 base found).1
      rw [visitAddrs, if_pos changes]
      simp only [filterMap_cons, report]
      rcases visitPre_cases calls here with ⟨calls₁, loaded⟩ | ⟨fault, refused⟩
      · rw [loaded]
        simp only [bind, Except.bind, changed]
        rcases visitSlots_cases a.blkCleared a.slots.entries calls₁ known with
          ⟨calls₂, visited⟩ | ⟨fault, refused⟩
        · rw [visited]
          simp only
          rcases rest' calls₂ with ⟨calls₃, visited'⟩ | ⟨fault, refused⟩
          · rw [visited']
            exact Or.inl ⟨calls₃, rfl⟩
          · rw [fault]
            exact Or.inr ⟨rfl, refused⟩
        · rw [fault]
          exact Or.inr ⟨rfl, refused⟩
      · rw [fault]
        exact Or.inr ⟨rfl, refused⟩
    · have skipped : addrReport be (addr, a) = none := by
        simp only [addrReport, if_neg changes]
      rw [visitAddrs, if_neg changes]
      simp only [filterMap_cons, skipped]
      exact rest' calls

theorem accountChange_fields {a : AddrRec} {pre : Option Acct} {account : AccountChange}
    (changed : accountChange addr a pre = .ok account) :
    account.addr = addr ∧ account.storageCleared = a.blkCleared := by
  unfold accountChange at changed
  dsimp only at changed
  split at changed
  · cases changed
    exact ⟨rfl, rfl⟩
  · split at changed
    · cases changed
      exact ⟨rfl, rfl⟩
    · split at changed
      · cases changed
        exact ⟨rfl, rfl⟩
      · split at changed
        · cases changed
        · cases changed
          exact ⟨rfl, rfl⟩

theorem addrReport_fields {entry : Word × AddrRec} {change : Change}
    (report : addrReport be entry = some change) :
    change.account.addr = entry.1 ∧ change.account.storageCleared = entry.2.blkCleared ∧
      accountChange entry.1 entry.2 (be.before entry.1) = .ok change.account ∧
      change.slots = entry.2.slots.entries.filterMap
        (slotReport be entry.1 entry.2.blkCleared) := by
  unfold addrReport at report
  split at report
  next =>
    cases changed : accountChange entry.1 entry.2 (be.before entry.1) with
    | error stop =>
      rw [changed] at report
      cases report
    | ok account =>
      rw [changed] at report
      cases report
      obtain ⟨addr, cleared⟩ := accountChange_fields changed
      exact ⟨addr, cleared, rfl, rfl⟩
  next => cases report

end State

namespace World

def Same (addr : Word) (world world' : World) : Prop :=
  world.accounts addr = world'.accounts addr ∧ world.codes addr = world'.codes addr ∧
    world.slots addr = world'.slots addr

theorem Same.refl (addr : Word) (world : World) : Same addr world world :=
  ⟨rfl, rfl, rfl⟩

variable {addr : Word}

theorem Same.trans {first second third : World} (left : Same addr first second)
    (right : Same addr second third) : Same addr first third :=
  ⟨left.1.trans right.1, left.2.1.trans right.2.1, left.2.2.trans right.2.2⟩

section

variable (world : World) (addr : Word) (slots : List (Word × Word))

theorem applySlots_rest : (world.applySlots addr slots).accounts = world.accounts ∧
    (world.applySlots addr slots).codes = world.codes ∧
    ∀ other, other ≠ addr → (world.applySlots addr slots).slots other = world.slots other := by
  induction slots generalizing world with
  | nil => exact ⟨rfl, rfl, fun _ _ => rfl⟩
  | cons slot slots ih =>
    obtain ⟨accounts, codes, others⟩ :=
      ih { world with slots := setAt world.slots addr slot.1 slot.2 }
    refine ⟨accounts, codes, ?_⟩
    intro other apart
    refine (others other apart).trans ?_
    funext key
    simp only [setAt_apply, apart, false_and, if_false]

theorem applySlots_slot (nodup : slots.Pairwise fun first second => first.1 < second.1)
    (key : Word) :
    (∀ val, (key, val) ∈ slots → (world.applySlots addr slots).slots addr key = val) ∧
      ((∀ val, (key, val) ∉ slots) →
        (world.applySlots addr slots).slots addr key = world.slots addr key) := by
  induction slots generalizing world with
  | nil => exact ⟨fun _ mem => absurd mem not_mem_nil, fun _ => rfl⟩
  | cons slot slots ih =>
    obtain ⟨above, nodup⟩ := pairwise_cons.mp nodup
    obtain ⟨inside, outside⟩ :=
      ih { world with slots := setAt world.slots addr slot.1 slot.2 } nodup
    refine ⟨?_, ?_⟩
    · intro val mem
      rcases mem_cons.mp mem with rfl | later
      · refine (outside ?_).trans ?_
        · intro other mem'
          exact absurd (above _ mem') (lt_irrefl _)
        · dsimp only
          rw [setAt_apply, if_pos ⟨rfl, rfl⟩]
      · exact inside val later
    · intro absent
      refine (outside fun val mem => absent val (mem_cons_of_mem _ mem)).trans ?_
      have apart : key ≠ slot.1 := by
        rintro rfl
        exact absent slot.2 mem_cons_self
      dsimp only
      rw [setAt_apply, if_neg fun eq => apart eq.2]

end

theorem apply_other {change : Change} (apart : change.account.addr ≠ addr) (world : World) :
    Same addr (world.apply change) world := by
  obtain ⟨accounts, codes, others⟩ :=
    applySlots_rest (world.applyAccount change.account) change.account.addr change.slots
  refine ⟨?_, ?_, ?_⟩
  · rw [apply, accounts]
    exact Function.update_of_ne apart.symm _ _
  · rw [apply, codes, applyAccount]
    dsimp only
    split
    · exact Function.update_of_ne apart.symm _ _
    · rfl
  · rw [apply, others addr apart.symm, applyAccount]
    dsimp only
    split
    · exact Function.update_of_ne apart.symm _ _
    · rfl

theorem applyAll_other {changes : List Change}
    (apart : ∀ change ∈ changes, change.account.addr ≠ addr) (world : World) :
    Same addr (world.applyAll changes) world := by
  induction changes generalizing world with
  | nil => exact Same.refl addr world
  | cons change changes ih =>
    have rest := ih (fun other mem => apart other (mem_cons_of_mem _ mem))
      (world.apply change)
    exact rest.trans (apply_other (apart change mem_cons_self) world)

theorem applyAll_absent (be : Backend) {entries : List (Word × AddrRec)}
    (absent : ∀ entry ∈ entries, entry.1 ≠ addr) (world : World) :
    Same addr (world.applyAll (entries.filterMap (State.addrReport be))) world := by
  apply applyAll_other
  intro change mem
  obtain ⟨entry, inside, report⟩ := mem_filterMap.mp mem
  rw [(State.addrReport_fields report).1]
  exact absent entry inside

end World

theorem World.applyAll_entry {be : Backend} {entries : List (Word × AddrRec)}
    (ascending : entries.Pairwise fun first second => first.1 < second.1) {addr : Word}
    {a : AddrRec} (mem : (addr, a) ∈ entries) :
    (State.addrReport be (addr, a) = none ∧
      Same addr (be.world.applyAll (entries.filterMap (State.addrReport be))) be.world) ∨
    ∃ change world, State.addrReport be (addr, a) = some change ∧ Same addr world be.world ∧
      Same addr (be.world.applyAll (entries.filterMap (State.addrReport be)))
        (world.apply change) := by
  obtain ⟨front, back, rfl⟩ := append_of_mem mem
  obtain ⟨-, order, across⟩ := pairwise_append.mp ascending
  have before : ∀ entry ∈ front, entry.1 ≠ addr := fun entry inside =>
    (across entry inside (addr, a) mem_cons_self).ne
  have behind : ∀ entry ∈ back, entry.1 ≠ addr := fun entry inside =>
    ((pairwise_cons.mp order).1 entry inside).ne'
  have first := applyAll_absent be before be.world
  rw [filterMap_append, filterMap_cons]
  cases report : State.addrReport be (addr, a) with
  | none =>
    refine Or.inl ⟨rfl, ?_⟩
    rw [applyAll, foldl_append]
    exact (applyAll_absent be behind _).trans first
  | some change =>
    refine Or.inr ⟨change, be.world.applyAll (front.filterMap (State.addrReport be)), rfl, first,
      ?_⟩
    rw [applyAll, foldl_append, foldl_cons]
    exact applyAll_absent be behind _

end DnaLedger.Evm
