import DnaLedger.Foundation.Escrow
import DnaLedger.Foundation.Program
import DnaLedger.Metering.ResMeter

/-!
# What a meter holds of its budget

A meter holds what it has reserved while it is live and what it has consumed once it is finalized.
-/

namespace DnaLedger.Metering

open Escrow List Meter DomainBudget

variable {err : Err}
variable {α : Type} {dom : List DomainBudget} {k : Nat} {units : UInt64} {plan : Plan}
variable {domainId : UInt32} {books : Books}

@[simp] theorem orFail_eq_ok {value : Option α} {result : α} :
    orFail err value = .ok result ↔ value = some result := by
  cases value with
  | none => exact iff_of_false (by rintro ⟨⟩) (by rintro ⟨⟩)
  | some value =>
    constructor
    · intro passed
      rw [Except.ok.inj passed]
    · intro passed
      rw [Option.some.inj passed]
      rfl

@[simp] theorem refuseWhen_eq_ok {refused : Prop} [Decidable refused] {result : Unit} :
    refuseWhen refused err = .ok result ↔ ¬ refused := by
  rw [refuseWhen]
  split
  next isRefused => exact iff_of_false (by rintro ⟨⟩) (not_not.mpr isRefused)
  next allowed => exact iff_of_true rfl allowed

theorem value_of_unlessUnbounded {unbounded : UInt8} {value : Option UInt64} {result : UInt64}
    (passed : unlessUnbounded unbounded err value = .ok result) (bound : unbounded = 0) :
    value = some result := by
  rw [unlessUnbounded, if_pos bound] at passed
  exact orFail_eq_ok.mp passed

inductive BudgetSlot where
  | global
  | domain (k : Nat)

namespace Budget

variable (budget : Budget)

def remaining : BudgetSlot → Nat
  | .global => budget.globalRemaining.toNat
  | .domain k => (budget.dom[k]?).elim 0 fun slot => slot.remainingUnits.toNat

/-- The slot is there and is not flagged unbounded. -/
def Bounded : BudgetSlot → Prop
  | .global => budget.globalUnbounded = 0
  | .domain k => ∃ slot, budget.dom[k]? = some slot ∧ slot.unbounded = 0

/-- What no call changes: the flags and the domains. -/
def shape : UInt8 × List (UInt32 × UInt8) :=
  (budget.globalUnbounded, budget.dom.map fun slot => (slot.domainId, slot.unbounded))

variable {budget}
variable {di : Nat} {slot : DomainBudget}

theorem domAt_eq (found : budget.dom[di]? = some slot) : budget.domAt di = slot := by
  rw [domAt, getD_eq_getElem?_getD, found]
  rfl

theorem exists_of_budgetDomIndex {domainId : UInt32}
    (found : budgetDomIndex budget domainId = some di) :
    ∃ slot, budget.dom[di]? = some slot ∧ slot.domainId = domainId ∧ budget.domAt di = slot := by
  obtain ⟨slot, atSlot, same⟩ := exists_of_findIdx? found
  exact ⟨slot, atSlot, same, domAt_eq atSlot⟩

variable {after : Budget} (same : after.shape = budget.shape)

include same

theorem exists_of_shape {k : Nat} (found : budget.dom[k]? = some slot) :
    ∃ next, after.dom[k]? = some next ∧ next.domainId = slot.domainId ∧
      next.unbounded = slot.unbounded := by
  have entries := congrArg (fun entries => entries[k]?) (Prod.mk.inj same).2
  simp only [getElem?_map, found, Option.map_some] at entries
  obtain ⟨next, atNext, pair⟩ := Option.map_eq_some_iff.mp entries
  obtain ⟨sameId, sameFlag⟩ := Prod.mk.inj pair
  exact ⟨next, atNext, sameId, sameFlag⟩

theorem domains_of_shape :
    after.dom.map DomainBudget.domainId = budget.dom.map DomainBudget.domainId := by
  have domains := congrArg (map Prod.fst) (Prod.mk.inj same).2
  rwa [map_map, map_map] at domains

theorem bounded_of_shape : after.Bounded = budget.Bounded := by
  have oneWay : ∀ {first second : Budget}, second.shape = first.shape → ∀ slot,
      first.Bounded slot → second.Bounded slot := by
    intro first second same slot bound
    cases slot with
    | global => exact (Prod.mk.inj same).1.trans bound
    | domain k =>
      obtain ⟨slot, found, flag⟩ := bound
      obtain ⟨next, atNext, -, sameFlag⟩ := exists_of_shape same found
      exact ⟨next, atNext, sameFlag.trans flag⟩
  funext slot
  exact propext ⟨oneWay same.symm slot, oneWay same slot⟩

end Budget

theorem DomainBudget.write_domainId (units : UInt64) (slot : DomainBudget) :
    (slot.write units).domainId = slot.domainId := by
  rw [write]
  split <;> rfl

theorem DomainBudget.write_unbounded (units : UInt64) (slot : DomainBudget) :
    (slot.write units).unbounded = slot.unbounded := by
  rw [write]
  split <;> rfl

theorem DomainBudget.write_of_unbounded (slot : DomainBudget) (flagged : slot.unbounded ≠ 0)
    (units : UInt64) : slot.write units = slot := by
  rw [write, if_neg flagged]

theorem DomainBudget.write_remainingUnits (slot : DomainBudget) (bound : slot.unbounded = 0)
    (units : UInt64) : (slot.write units).remainingUnits = units := by
  rw [write, if_pos bound]

theorem writeSlots_cons (dom : List DomainBudget) (write : Nat × UInt64)
    (writes : List (Nat × UInt64)) :
    writeSlots dom (write :: writes) =
      writeSlots (dom.modify write.1 (DomainBudget.write write.2)) writes := rfl

variable {writes : List (Nat × UInt64)}

theorem writeSlots_unwritten (unwritten : k ∉ writes.map Prod.fst) :
    (writeSlots dom writes)[k]? = dom[k]? := by
  induction writes generalizing dom with
  | nil => rfl
  | cons write rest ih =>
    rw [map_cons, mem_cons, not_or] at unwritten
    rw [writeSlots_cons, ih unwritten.2, getElem?_modify_ne _ _ (Ne.symm unwritten.1)]

theorem writeSlots_written (nodup : (writes.map Prod.fst).Nodup) (written : (k, units) ∈ writes) :
    (writeSlots dom writes)[k]? = dom[k]?.map (write units) := by
  induction writes generalizing dom with
  | nil => cases written
  | cons write rest ih =>
    rw [map_cons, nodup_cons] at nodup
    rw [writeSlots_cons]
    rcases mem_cons.mp written with rfl | later
    · rw [writeSlots_unwritten nodup.1, getElem?_modify_eq]
      rfl
    · have other : write.1 ≠ k := by
        rintro rfl
        exact nodup.1 (mem_map.mpr ⟨_, later, rfl⟩)
      rw [ih nodup.2 later, getElem?_modify_ne _ _ other]

theorem writeSlots_map (field : DomainBudget → α)
    (kept : ∀ units slot, field (write units slot) = field slot)
    (dom : List DomainBudget) (writes : List (Nat × UInt64)) :
    (writeSlots dom writes).map field = dom.map field := by
  induction writes generalizing dom with
  | nil => rfl
  | cons write rest ih =>
    rw [writeSlots_cons, ih]
    apply ext_getElem?
    intro k
    rw [getElem?_map, getElem?_map, getElem?_modify]
    cases dom[k]? with
    | none => rfl
    | some slot =>
      by_cases here : write.1 = k
      · simp [here, kept]
      · simp [here]

namespace Budget

theorem shape_writeAll (budget : Budget) (writes : List (Nat × UInt64)) :
    (budget.writeAll writes).shape = budget.shape := by
  refine Prod.ext rfl ?_
  refine writeSlots_map _ ?_ budget.dom writes
  intro units slot
  rw [write_domainId, write_unbounded]

theorem writeGlobal_dom (budget : Budget) (units : UInt64) :
    (budget.writeGlobal units).dom = budget.dom := by
  rw [writeGlobal]
  split <;> rfl

theorem shape_writeGlobal (budget : Budget) (units : UInt64) :
    (budget.writeGlobal units).shape = budget.shape := by
  rw [writeGlobal]
  split <;> rfl

end Budget

/-! ## What a meter holds -/

namespace Meter

def globalHeld (meter : Meter) : Nat :=
  match meter.state with
  | .zero | .aborted => 0
  | .reserved | .active => meter.gReserved.toNat
  | .finalized => meter.gConsumed.toNat

/-- What the leg at a position holds of the slot of its domain. -/
def legHeld (meter : Meter) (li : Nat) : Nat :=
  match meter.state with
  | .zero | .aborted => 0
  | .reserved | .active =>
    (meter.plan.legAt li).staticUnits.toNat + (meter.domDyn li).toNat
  | .finalized => (meter.domConsumed li).toNat

end Meter

/-- Amounts for the legs of a plan, by their domains. -/
def Plan.spread (plan : Plan) (amount : Nat → Nat) (domainId : UInt32) : Nat :=
  (planLegIndex plan domainId).elim 0 amount

def Meter.domainHeld (meter : Meter) (domainId : UInt32) : Nat :=
  meter.plan.spread meter.legHeld domainId

def held (budget : Budget) (meter : Meter) : BudgetSlot → Nat
  | .global => meter.globalHeld
  | .domain k => (budget.dom[k]?).elim 0 fun slot => meter.domainHeld slot.domainId

variable {budget after : Budget}

theorem held_of_shape (same : after.shape = budget.shape) (meter : Meter) :
    held after meter = held budget meter := by
  funext slot
  cases slot with
  | global => rfl
  | domain k =>
    have entries := congrArg (fun domains => domains[k]?) (Budget.domains_of_shape same)
    simp only [getElem?_map] at entries
    rw [held, held]
    cases atBudget : budget.dom[k]? with
    | none =>
      rw [atBudget, Option.map_none, Option.map_eq_none_iff] at entries
      rw [entries]
    | some slot =>
      obtain ⟨next, atNext, sameId, -⟩ := Budget.exists_of_shape same atBudget
      rw [atNext]
      exact congrArg meter.domainHeld sameId

variable {li : Nat}

theorem Plan.legAt_eq {leg : LegPlan} (found : plan.leg[li]? = some leg) : plan.legAt li = leg := by
  rw [legAt, getD_eq_getElem?_getD, found]
  rfl

theorem exists_of_planLegIndex (found : planLegIndex plan domainId = some li) :
    ∃ leg, plan.leg[li]? = some leg ∧ leg.domainId = domainId ∧ plan.legAt li = leg := by
  obtain ⟨leg, atLeg, same⟩ := exists_of_findIdx? found
  exact ⟨leg, atLeg, same, Plan.legAt_eq atLeg⟩

/-- The writes of a commit: the slot of each leg's domain changes by the amount of the leg. -/
structure Commits (budget : Budget) (plan : Plan) (before after : Nat → Nat)
    (writes : List (Nat × UInt64)) : Prop where
  length : writes.length = plan.leg.length
  each : ∀ (i di : Nat) (units : UInt64), writes[i]? = some (di, units) → ∃ leg,
    plan.leg[i]? = some leg ∧ budgetDomIndex budget leg.domainId = some di ∧
    ((budget.domAt di).unbounded = 0 →
      units.toNat + after i = (budget.domAt di).remainingUnits.toNat + before i)

namespace Commits

variable {budget : Budget} {plan : Plan} {before after : Nat → Nat} {writes : List (Nat × UInt64)}

theorem nodup (commits : Commits budget plan before after writes)
    (legs : (plan.leg.map LegPlan.domainId).Nodup) : (writes.map Prod.fst).Nodup := by
  rw [nodup_iff_getElem?_ne_getElem?]
  intro i j earlier inside same
  rw [length_map] at inside
  rw [getElem?_map, getElem?_map] at same
  cases atI : writes[i]? with
  | none =>
    rw [getElem?_eq_none_iff] at atI
    omega
  | some write =>
    rw [atI, Option.map_some] at same
    obtain ⟨write', atJ, target⟩ := Option.map_eq_some_iff.mp same.symm
    obtain ⟨leg, atLeg, index, -⟩ := commits.each i write.1 write.2 atI
    obtain ⟨leg', atLeg', index', -⟩ := commits.each j write'.1 write'.2 atJ
    rw [target] at index'
    obtain ⟨slot, atSlot, domain, -⟩ := Budget.exists_of_budgetDomIndex index
    obtain ⟨slot', atSlot', domain', -⟩ := Budget.exists_of_budgetDomIndex index'
    obtain rfl := Option.some.inj (atSlot.symm.trans atSlot')
    have first := findIdx?_of_nodup legs atLeg
    have second := findIdx?_of_nodup legs atLeg'
    rw [← domain] at first
    rw [← domain', first] at second
    have same := Option.some.inj second
    omega

theorem domain (commits : Commits budget plan before after writes)
    (legs : (plan.leg.map LegPlan.domainId).Nodup)
    (slots : (budget.dom.map DomainBudget.domainId).Nodup) {k : Nat} {slot : DomainBudget}
    (found : budget.dom[k]? = some slot) :
    ∃ next, (writeSlots budget.dom writes)[k]? = some next ∧
      (slot.unbounded = 0 → next.remainingUnits.toNat + plan.spread after slot.domainId =
        slot.remainingUnits.toNat + plan.spread before slot.domainId) ∧
      (slot.unbounded ≠ 0 → next = slot) := by
  rw [Plan.spread, Plan.spread]
  cases index : planLegIndex plan slot.domainId with
  | none =>
    have unwritten : k ∉ writes.map Prod.fst := by
      intro mem
      obtain ⟨⟨di, units⟩, written, rfl⟩ := mem_map.mp mem
      obtain ⟨i, atWrite⟩ := mem_iff_getElem?.mp written
      obtain ⟨leg, atLeg, slotIndex, -⟩ := commits.each i di units atWrite
      obtain ⟨other, atOther, domain, -⟩ := Budget.exists_of_budgetDomIndex slotIndex
      obtain rfl := Option.some.inj (atOther.symm.trans found)
      have legIndex := findIdx?_of_nodup legs atLeg
      rw [← domain] at legIndex
      cases index.symm.trans legIndex
    refine ⟨slot, ?_, fun _ => rfl, fun _ => rfl⟩
    rw [writeSlots_unwritten unwritten, found]
  | some li =>
    obtain ⟨leg, atLeg, domain, -⟩ := exists_of_planLegIndex index
    have inside : li < writes.length := by
      rw [commits.length]
      exact (List.getElem?_eq_some_iff.mp atLeg).1
    obtain ⟨⟨di, units⟩, atWrite⟩ : ∃ write, writes[li]? = some write :=
      ⟨_, getElem?_eq_getElem inside⟩
    obtain ⟨leg', atLeg', slotIndex, change⟩ := commits.each li di units atWrite
    obtain rfl := Option.some.inj (atLeg'.symm.trans atLeg)
    have sameSlot := findIdx?_of_nodup slots found
    rw [← domain] at sameSlot
    obtain rfl := Option.some.inj (slotIndex.symm.trans sameSlot)
    rw [Budget.domAt_eq found] at change
    refine ⟨slot.write units, ?_, ?_, fun flagged => slot.write_of_unbounded flagged units⟩
    · rw [writeSlots_written (commits.nodup legs) (mem_of_getElem? atWrite), found]
      rfl
    · intro bound
      rw [slot.write_remainingUnits bound]
      exact change bound

end Commits

variable {meter next : Meter}

theorem moves_of_slots
    (global : budget.globalUnbounded = 0 → after.globalRemaining.toNat + next.globalHeld =
      budget.globalRemaining.toNat + meter.globalHeld)
    (globalKept : budget.globalUnbounded ≠ 0 → after.globalRemaining = budget.globalRemaining)
    (length : after.dom.length = budget.dom.length)
    (domains : ∀ (k : Nat) slot, budget.dom[k]? = some slot → ∃ slot', after.dom[k]? = some slot'
      ∧ (slot.unbounded = 0 → slot'.remainingUnits.toNat + next.domainHeld slot.domainId =
      slot.remainingUnits.toNat + meter.domainHeld slot.domainId) ∧ (slot.unbounded ≠ 0 → slot' =
      slot)) :
    Moves budget.Bounded budget.remaining after.remaining (held budget meter)
      (held budget next) where
  bounded := by
    rintro (_ | k) isBounded
    · exact global isBounded
    · obtain ⟨slot, found, flag⟩ := isBounded
      obtain ⟨slot', atAfter, moved, -⟩ := domains k slot found
      simp only [Budget.remaining, held, found, atAfter, Option.elim_some]
      exact moved flag
  unbounded := by
    rintro (_ | k) notBounded
    · exact congrArg UInt64.toNat (globalKept notBounded)
    · cases found : budget.dom[k]? with
      | none =>
        have missing : after.dom[k]? = none := by
          rw [getElem?_eq_none_iff] at found ⊢
          omega
        simp only [Budget.remaining, found, missing]
      | some slot =>
        obtain ⟨slot', atAfter, -, kept⟩ := domains k slot found
        have flagged : slot.unbounded ≠ 0 := fun flag => notBounded ⟨slot, found, flag⟩
        simp only [Budget.remaining, found, atAfter, Option.elim_some, kept flagged]

theorem moves_of_commits {newGlobal : UInt64} {before after : Nat → Nat}
    (legs : (next.plan.leg.map LegPlan.domainId).Nodup)
    (slots : (budget.dom.map DomainBudget.domainId).Nodup)
    (global : budget.globalUnbounded = 0 → newGlobal.toNat + next.globalHeld =
      budget.globalRemaining.toNat + meter.globalHeld)
    (commits : Commits budget next.plan before after writes)
    (heldBefore : meter.domainHeld = next.plan.spread before)
    (heldAfter : next.domainHeld = next.plan.spread after) :
    Moves budget.Bounded budget.remaining ((budget.writeGlobal newGlobal).writeAll writes).remaining
      (held budget meter) (held budget next) := by
  have dom : ((budget.writeGlobal newGlobal).writeAll writes).dom =
      writeSlots budget.dom writes := by
    rw [Budget.writeAll, Budget.writeGlobal_dom]
  refine moves_of_slots ?_ ?_ ?_ ?_
  · intro bound
    rw [Budget.writeAll, Budget.writeGlobal, if_pos bound]
    exact global bound
  · intro flagged
    rw [Budget.writeAll, Budget.writeGlobal, if_neg flagged]
  · have fields := writeSlots_map (fun _ => ()) (fun _ _ => rfl) budget.dom writes
    have lengths := congrArg length fields
    rw [length_map, length_map] at lengths
    rw [dom, lengths]
  · intro k slot found
    rw [dom, heldBefore, heldAfter]
    exact commits.domain legs slots found

theorem moves_of_claim {di : Nat} (slots : (budget.dom.map DomainBudget.domainId).Nodup)
    (index : planLegIndex meter.plan domainId = some li)
    (slotIndex : budgetDomIndex budget domainId = some di) (plan : next.plan = meter.plan)
    (global : next.globalHeld = meter.globalHeld)
    (others : ∀ lj, lj ≠ li → next.legHeld lj = meter.legHeld lj)
    (change : (budget.domAt di).unbounded = 0 → units.toNat + next.legHeld li = (budget.domAt
      di).remainingUnits.toNat + meter.legHeld li) :
    Moves budget.Bounded budget.remaining (budget.writeAll [(di, units)]).remaining
      (held budget meter) (held budget next) := by
  obtain ⟨target, atTarget, targetId, atDi⟩ := Budget.exists_of_budgetDomIndex slotIndex
  rw [atDi] at change
  refine moves_of_slots ?_ (fun _ => rfl) (length_modify ..) ?_
  · intro _
    rw [global]
    rfl
  · intro k slot found
    by_cases here : k = di
    · subst here
      obtain rfl := Option.some.inj (found.symm.trans atTarget)
      refine ⟨slot.write units, ?_, ?_, fun flagged => slot.write_of_unbounded flagged units⟩
      · change (budget.dom.modify k (write units))[k]? = _
        rw [getElem?_modify_eq, found]
        rfl
      · intro bound
        rw [slot.write_remainingUnits bound, domainHeld, domainHeld, plan,
          Plan.spread, Plan.spread, targetId, index]
        exact change bound
    · refine ⟨slot, ?_, ?_, fun _ => rfl⟩
      · change (budget.dom.modify di (write units))[k]? = _
        rw [getElem?_modify_ne _ _ (Ne.symm here), found]
      · intro _
        rw [domainHeld, domainHeld, plan, Plan.spread, Plan.spread]
        cases other : planLegIndex meter.plan slot.domainId with
        | none => rfl
        | some lj =>
          have apart : lj ≠ li := by
            rintro rfl
            obtain ⟨leg, atLeg, domain, -⟩ := exists_of_planLegIndex index
            obtain ⟨leg', atLeg', domain', -⟩ := exists_of_planLegIndex other
            obtain rfl := Option.some.inj (atLeg.symm.trans atLeg')
            have atSlot := findIdx?_of_nodup slots found
            rw [← domain', domain] at atSlot
            exact here (Option.some.inj (atSlot.symm.trans slotIndex))
          rw [Option.elim_some, Option.elim_some, others lj apart]

/-- What holds of every meter that is bound to a budget. -/
structure Sound (budget : Budget) (meter : Meter) : Prop where
  fresh : meter.state = .zero → meter = zero
  slots : meter.state ≠ .zero → (budget.dom.map DomainBudget.domainId).Nodup
  legs : (meter.plan.leg.map LegPlan.domainId).Nodup
  global : meter.gConsumed.toNat ≤ meter.gReserved.toNat
  domain : ∀ li, (meter.domConsumed li).toNat ≤
    (meter.plan.legAt li).staticUnits.toNat + (meter.domDyn li).toNat

theorem Sound.zero (budget : Budget) : Sound budget zero where
  fresh _ := rfl
  slots started := absurd rfl started
  legs := nodup_nil
  global := Nat.le_refl _
  domain _ := Nat.zero_le _

theorem Sound.of_shape (sound : Sound budget meter) (same : after.shape = budget.shape) :
    Sound after meter where
  fresh := sound.fresh
  slots started := by
    rw [Budget.domains_of_shape same]
    exact sound.slots started
  legs := sound.legs
  global := sound.global
  domain := sound.domain

/-- One call on a meter and its budget. -/
structure Steps (before after : Books) : Prop where
  shape : after.budget.shape = before.budget.shape
  moves : Moves before.budget.Bounded before.budget.remaining after.budget.remaining
    (held before.budget before.meter) (held before.budget after.meter)
  sound : Sound after.budget after.meter
  keeps : before.meter.state ≠ .zero → after.meter.state ≠ .zero ∧
    after.meter.plan = before.meter.plan ∧ after.meter.gReserved = before.meter.gReserved

theorem Steps.refl (sound : Sound books.budget books.meter) : Steps books books where
  shape := rfl
  moves := Moves.of_eq rfl
  sound := sound
  keeps started := ⟨started, rfl, rfl⟩

/-- A call that succeeds takes a step, and one that fails changes nothing. -/
structure Correct (before : Books) (result : Status × Books) : Prop where
  unchanged : result.1 ≠ .ok () → result.2 = before
  steps : Steps before result.2

theorem Correct.failed (sound : Sound books.budget books.meter) (status : Status) :
    Correct books (status, books) where
  unchanged _ := rfl
  steps := Steps.refl sound

theorem Steps.correct {before after : Books} (steps : Steps before after) :
    Correct before (.ok (), after) where
  unchanged failed := absurd rfl failed
  steps := steps

theorem held_congr (budget : Budget) (global : next.globalHeld = meter.globalHeld)
    (plan : next.plan = meter.plan) (legs : next.legHeld = meter.legHeld) :
    held budget next = held budget meter := by
  funext slot
  cases slot with
  | global => exact global
  | domain k =>
    have domains : next.domainHeld = meter.domainHeld := by
      funext domainId
      rw [domainHeld, domainHeld, plan, legs]
    rw [held, held, domains]

end DnaLedger.Metering
