import DnaLedger.Metering.Holdings

/-!
# The units of a block are conserved

Every call of every meter moves units between the budget and what that meter holds, or fails and
changes nothing.
-/

namespace DnaLedger.Metering

open Escrow List Function Budget Envelope

variable {i : Nat} {legs : List LegPlan} {claim : Option (Nat × UInt64 × UInt64)} {sha3 : Hash}
variable {view : Envelope.EnvView} {plan : Plan}

theorem fixedCharges_le {consumed : Nat → UInt64} {gc gc' : UInt64} {news : List UInt64}
    (charged : fixedCharges consumed i gc legs = .ok (gc', news)) {j : Nat} {new : UInt64}
    (found : news[j]? = some new) :
    ∃ leg, legs[j]? = some leg ∧ new.toNat ≤ leg.staticUnits.toNat := by
  induction legs generalizing i gc gc' news j with
  | nil =>
    cases charged
    cases found
  | cons leg rest ih =>
    rw [fixedCharges] at charged
    simp only [bind_eq_ok, orFail_eq_ok, refuseWhen_eq_ok] at charged
    obtain ⟨_, -, first, -, _, fits, ⟨_, others⟩, tail, made⟩ := charged
    cases made
    cases j with
    | zero =>
      cases found
      rw [UInt64.not_lt, UInt64.le_iff_toNat_le] at fits
      exact ⟨leg, rfl, fits⟩
    | succ j => exact ih tail found

variable {books : Books}

theorem activate_correct (sound : Sound books.budget books.meter) :
    Correct books (activate books) := by
  rw [activate]
  cases fine : activateChecks books.meter with
  | error err => exact Correct.failed sound _
  | ok temps =>
    obtain ⟨newGc, domNew⟩ := temps
    simp only [activateChecks, bind_eq_ok, orFail_eq_ok, refuseWhen_eq_ok, not_not] at fine
    obtain ⟨_, reserved, _, -, _, -, ⟨gc, news⟩, charged, _, fits, made⟩ := fine
    cases made
    refine Steps.correct ⟨rfl, ?_, ?_, fun _ => ⟨by rintro ⟨⟩, rfl, rfl⟩⟩
    · refine Moves.of_eq (held_congr books.budget ?_ rfl ?_)
      · simp only [Meter.globalHeld, reserved]
      · funext li
        simp only [Meter.legHeld, reserved]
    · have slots := sound.slots (by rw [reserved]; rintro ⟨⟩)
      refine ⟨by rintro ⟨⟩, fun _ => slots, sound.legs, ?_, ?_⟩
      · rwa [UInt64.not_lt, UInt64.le_iff_toNat_le] at fits
      · intro li
        change (overwrite books.meter.domConsumed news li).toNat ≤ _
        rw [overwrite, getD_eq_getElem?_getD]
        cases found : news[li]? with
        | none => exact sound.domain li
        | some new =>
          obtain ⟨leg, atLeg, below⟩ := fixedCharges_le charged found
          rw [Plan.legAt_eq atLeg]
          exact below.trans (Nat.le_add_right _ _)

/-! ## Charges -/

/-- The temporaries of a charge that fits. -/
structure Charges (books : Books) (li : Nat) (newGc newDc : UInt64) : Prop where
  global : newGc.toNat ≤ books.meter.gReserved.toNat
  domain : newDc.toNat ≤
    (books.meter.plan.legAt li).staticUnits.toNat + (books.meter.domDyn li).toNat

/-- The temporaries of a charge that claims more units for its leg. -/
structure Claims (books : Books) (li di : Nat) (newGc newDc newBud newDyn : UInt64) : Prop where
  global : newGc.toNat ≤ books.meter.gReserved.toNat
  domain : newDc.toNat = (books.meter.plan.legAt li).staticUnits.toNat + newDyn.toNat
  index : budgetDomIndex books.budget (books.meter.plan.legAt li).domainId = some di
  slot : (books.budget.domAt di).unbounded = 0 → newBud.toNat + newDyn.toNat =
    (books.budget.domAt di).remainingUnits.toNat + (books.meter.domDyn li).toNat

variable {li : Nat} {amount : UInt64}

theorem chargeChecks_cases {newGc newDc : UInt64}
    (fine : chargeChecks books li amount = .ok (newGc, newDc, claim)) :
    (claim = none ∧ Charges books li newGc newDc) ∨
    ∃ di newBud newDyn, claim = some (di, newBud, newDyn) ∧
      Claims books li di newGc newDc newBud newDyn := by
  simp only [chargeChecks, bind_eq_ok, orFail_eq_ok, refuseWhen_eq_ok] at fine
  obtain ⟨gc, -, _, ceiling, total, added, avail, taken, dc, charged, fine⟩ := fine
  rw [UInt64.not_lt, UInt64.le_iff_toNat_le] at ceiling
  have total_eq := toNat_of_ckAdd added
  have avail_eq := toNat_of_ckSub taken
  have dc_eq := toNat_of_ckAdd charged
  split at fine
  next short =>
    simp only [bind_eq_ok, orFail_eq_ok] at fine
    obtain ⟨di, index, bud, claimed, dyn, grown, made⟩ := fine
    cases made
    have need := UInt64.toNat_sub_of_le _ _ (UInt64.le_of_lt short)
    have dyn_eq := toNat_of_ckAdd grown
    rw [need] at dyn_eq
    rw [UInt64.lt_iff_toNat_lt] at short
    refine Or.inr ⟨di, bud, dyn, rfl, ceiling, by omega, index, ?_⟩
    intro bound
    have bud_eq := toNat_of_ckSub (value_of_unlessUnbounded claimed bound)
    rw [need] at bud_eq
    omega
  next enough =>
    cases fine
    rw [UInt64.not_lt, UInt64.le_iff_toNat_le] at enough
    exact Or.inl ⟨rfl, ceiling, by omega⟩

variable {domainId : UInt32}

theorem chargeWrite_steps (sound : Sound books.budget books.meter)
    (active : books.meter.state = .active)
    (index : planLegIndex books.meter.plan domainId = some li) {newGc newDc : UInt64}
    (fine : chargeChecks books li amount = .ok (newGc, newDc, claim)) :
    Steps books (chargeWrite books li newGc newDc claim) := by
  have started : books.meter.state ≠ .zero := by
    rw [active]
    rintro ⟨⟩
  rcases chargeChecks_cases fine with ⟨rfl, charges⟩ | ⟨di, newBud, newDyn, rfl, claims⟩
  · refine ⟨rfl, ?_, ?_, fun _ => ⟨started, rfl, rfl⟩⟩
    · refine Moves.of_eq (held_congr books.budget ?_ rfl ?_)
      · simp only [chargeWrite, Meter.globalHeld, active]
      · funext lj
        simp only [chargeWrite, Meter.legHeld, active]
    · refine ⟨fun zero => absurd zero started, sound.slots, sound.legs, charges.global, ?_⟩
      intro lj
      simp only [chargeWrite]
      by_cases here : lj = li
      · rw [here, update_self]
        exact charges.domain
      · rw [update_of_ne here]
        exact sound.domain lj
  · obtain ⟨leg, atLeg, domain, atLi⟩ := exists_of_planLegIndex index
    have slotIndex := claims.index
    rw [atLi, domain] at slotIndex
    refine ⟨shape_writeAll _ _, ?_, ?_, fun _ => ⟨started, rfl, rfl⟩⟩
    · refine moves_of_claim (sound.slots started) index slotIndex rfl ?_ ?_ ?_
      · simp only [chargeWrite, Meter.globalHeld, active]
      · intro lj other
        simp only [chargeWrite, Meter.legHeld, active, update_of_ne other]
      · intro bound
        have moved := claims.slot bound
        simp only [chargeWrite, Meter.legHeld, active, update_self]
        omega
    · refine ⟨fun zero => absurd zero started, ?_, sound.legs, claims.global, ?_⟩
      · intro _
        have domains := domains_of_shape
          (shape_writeAll books.budget [(di, newBud)])
        exact domains ▸ sound.slots started
      · intro lj
        simp only [chargeWrite]
        by_cases here : lj = li
        · rw [here, update_self, update_self]
          exact claims.domain.le
        · rw [update_of_ne here, update_of_ne here]
          exact sound.domain lj

theorem meterCharge_correct (sound : Sound books.budget books.meter)
    (active : books.meter.state = .active)
    (index : planLegIndex books.meter.plan domainId = some li) (amount : UInt64) :
    Correct books (meterCharge books li amount) := by
  rw [meterCharge, meterChargeCommit]
  cases fine : chargeChecks books li amount with
  | error err => exact Correct.failed sound _
  | ok temps =>
    obtain ⟨newGc, newDc, claim⟩ := temps
    have steps := chargeWrite_steps sound active index fine
    dsimp only
    rw [if_neg (by decide)]
    exact steps.correct

theorem meterChargeCommit_false (books : Books) (li : Nat) (amount : UInt64) :
    (meterChargeCommit books li amount false).2 = books := by
  rw [meterChargeCommit]
  cases chargeChecks books li amount <;> rfl

theorem meterCharge_state : (meterCharge books li amount).2.meter.state = books.meter.state := by
  rw [meterCharge, meterChargeCommit]
  cases fine : chargeChecks books li amount with
  | error err => rfl
  | ok temps =>
    obtain ⟨newGc, newDc, claim⟩ := temps
    cases claim <;> rfl

variable {meter : Meter}

theorem active_of_require {result : Unit} (passed : requireActive meter = .ok result) :
    meter.state = .active := by
  simp only [requireActive, bind_eq_ok, refuseWhen_eq_ok, not_not] at passed
  obtain ⟨_, active, -⟩ := passed
  exact active

variable {after : Books}

theorem Steps.mark {before : Books} (steps : Steps before after) (li : Nat)
    (started : after.meter.state ≠ .zero) : Steps before (markCharged after li) where
  shape := steps.shape
  moves := steps.moves
  sound :=
    { fresh := fun zero => absurd zero started
      slots := steps.sound.slots
      legs := steps.sound.legs
      global := steps.sound.global
      domain := steps.sound.domain }
  keeps := steps.keeps

theorem chargeAndMark_correct (sound : Sound books.budget books.meter)
    (active : books.meter.state = .active)
    (index : planLegIndex books.meter.plan domainId = some li) (amount : UInt64) :
    Correct books (chargeAndMark books li amount) := by
  have correct := meterCharge_correct sound active index amount
  have state := @meterCharge_state books li amount
  rw [chargeAndMark]
  generalize meterCharge books li amount = result at correct state
  obtain ⟨status, after⟩ := result
  split
  next charged eq =>
    cases eq
    refine (correct.steps.mark li ?_).correct
    rw [state, active]
    rintro ⟨⟩
  next status' left failed eq =>
    cases eq
    exact correct

theorem chargeEffects_correct (sound : Sound books.budget books.meter) (domainId : UInt32)
    (view : Effect.EffectView) :
    Correct books (chargeEffects domainId view books) := by
  rw [chargeEffects]
  cases fine : effectsAmount books.meter domainId view with
  | error err => exact Correct.failed sound _
  | ok temps =>
    obtain ⟨li, amount⟩ := temps
    simp only [effectsAmount, bind_eq_ok, orFail_eq_ok] at fine
    obtain ⟨_, active, _, -, _, index, _, -, _, -, _, -, _, -, _, -, made⟩ := fine
    cases made
    exact chargeAndMark_correct sound (active_of_require active) index _

theorem chargedLeg_eq_ok (found : chargedLeg meter domainId = .ok li) :
    meter.state = .active ∧ planLegIndex meter.plan domainId = some li := by
  simp only [chargedLeg, bind_eq_ok, orFail_eq_ok] at found
  obtain ⟨_, active, index⟩ := found
  exact ⟨active_of_require active, index⟩

theorem chargeRw_correct (sound : Sound books.budget books.meter) (domainId : UInt32) (w : UInt64) :
    Correct books (chargeRw domainId w books) := by
  rw [chargeRw]
  cases found : chargedLeg books.meter domainId with
  | error err => exact Correct.failed sound _
  | ok li =>
    obtain ⟨active, index⟩ := chargedLeg_eq_ok found
    exact meterCharge_correct sound active index w

theorem chargeEvmGas_correct (sound : Sound books.budget books.meter) (domainId : UInt32)
    (gas : UInt64) : Correct books (chargeEvmGas domainId gas books) := by
  rw [chargeEvmGas]
  cases found : chargedLeg books.meter domainId with
  | error err => exact Correct.failed sound _
  | ok li =>
    obtain ⟨active, index⟩ := chargedLeg_eq_ok found
    cases ckMul gas evmWGas with
    | none => exact Correct.failed sound _
    | some amount => exact meterCharge_correct sound active index amount

theorem beginAmounts_eq_ok {count bytes extraUnits withExtra : UInt64} {stream : Stream}
    (fine : beginAmounts meter domainId count bytes extraUnits stream = .ok (li, amount,
      withExtra)) :
    meter.state = .active ∧ planLegIndex meter.plan domainId = some li := by
  simp only [beginAmounts, bind_eq_ok, orFail_eq_ok] at fine
  obtain ⟨_, active, _, -, leg, index, _, -, _, -, _, -, _, -, _, -, _, -, _, -, _, -, _, -, _, -,
    made⟩ := fine
  cases made
  exact ⟨active_of_require active, index⟩

theorem chargeEffectsBegin_correct (sound : Sound books.budget books.meter) (domainId : UInt32)
    (count bytes extraUnits : UInt64) (stream : Stream) {status : Status} {next : Stream}
    (begun : chargeEffectsBegin domainId count bytes extraUnits books stream = (status, after,
      next)) :
    Correct books (status, after) ∧ (status ≠ .ok () → next = stream) := by
  rw [chargeEffectsBegin] at begun
  split at begun
  next =>
    cases begun
    exact ⟨Correct.failed sound _, fun _ => rfl⟩
  next li amount withExtra fine =>
    obtain ⟨active, index⟩ := beginAmounts_eq_ok fine
    have dry := meterChargeCommit_false books li withExtra
    split at begun
    next fitted fits =>
      rw [fits] at dry
      obtain rfl : fitted = books := dry
      have correct := chargeAndMark_correct sound active index amount
      split at begun
      next charged marked =>
        cases begun
        rw [marked] at correct
        exact ⟨correct, fun failed => absurd rfl failed⟩
      next refused =>
        cases begun
        rw [refused] at correct
        exact ⟨correct, fun _ => rfl⟩
    next left _ refused =>
      rw [refused] at dry
      obtain ⟨rfl, rest⟩ := Prod.mk.inj begun
      obtain ⟨rfl, rfl⟩ := Prod.mk.inj rest
      obtain rfl : left = books := dry
      exact ⟨Correct.failed sound _, fun _ => rfl⟩

/-! ## Reservation -/

variable {policy : Policy}

theorem planLeg_domainId {streamed : Bool} {hdr : LegHdr} {leg : LegPlan}
    (made : planLeg policy streamed hdr = .ok leg) :
    leg.domainId = hdr.domainId := by
  simp only [planLeg, bind_eq_ok, orFail_eq_ok, refuseWhen_eq_ok] at made
  obtain ⟨_, -, _, -, _, -, _, -, _, -, _, -, _, -, _, -, _, -, _, -, _, -, _, -, made⟩ := made
  rw [← Except.ok.inj made]

variable {streamLeg : UInt16}

theorem planLegs_ascending {previous : Option UInt32} {total total' : UInt64} {hdrs : List LegHdr}
    (made : planLegs policy streamLeg i previous total hdrs = .ok (legs, total')) :
    (legs.map LegPlan.domainId).Pairwise (· < ·) ∧
      ∀ before ∈ previous, ∀ leg ∈ legs, before < leg.domainId := by
  induction hdrs generalizing i previous total total' legs with
  | nil =>
    cases made
    exact ⟨Pairwise.nil, fun _ _ _ mem => by cases mem⟩
  | cons hdr rest ih =>
    simp only [planLegs, bind_eq_ok, orFail_eq_ok, refuseWhen_eq_ok] at made
    obtain ⟨_, later, leg, first, _, -, ⟨others, _⟩, tail, made⟩ := made
    cases made
    obtain ⟨ordered, above⟩ := ih tail
    have domain := planLeg_domainId first
    have behind : ∀ other ∈ others, leg.domainId < other.domainId := by
      intro other mem
      rw [domain]
      exact above hdr.domainId rfl other mem
    constructor
    · rw [map_cons, pairwise_cons]
      refine ⟨?_, ordered⟩
      intro domainId mem
      obtain ⟨other, isOther, rfl⟩ := mem_map.mp mem
      exact behind other isOther
    · rintro before isBefore other mem
      obtain rfl : previous = some before := isBefore
      have greater : before < leg.domainId := by
        rw [Option.any_some, decide_eq_true_iff, UInt32.not_le, ← domain] at later
        exact later
      rcases mem_cons.mp mem with rfl | isOther
      · exact greater
      · exact UInt32.lt_trans greater (behind other isOther)

theorem nodup_of_planBuild (made : planBuild sha3 policy view streamLeg = .ok plan) :
    (plan.leg.map LegPlan.domainId).Nodup := by
  simp only [planBuild, bind_eq_ok] at made
  obtain ⟨_, -, _, -, _, -, ⟨legs, total⟩, planned, _, -, made⟩ := made
  rw [← Except.ok.inj made]
  exact (planLegs_ascending planned).1.imp UInt32.ne_of_lt

variable {budget : Budget}

theorem nodup_of_budgetCheck (fine : budgetCheck budget = true) :
    (budget.dom.map DomainBudget.domainId).Nodup := by
  rw [budgetCheck] at fine
  split_ifs at fine
  have ordered : budget.dom.Pairwise fun first second => first.domainId < second.domainId :=
    Sorting.pairwise_of_ascending
      (fun first second => decide_eq_true_iff (p := first.domainId < second.domainId))
      (fun _ _ _ => UInt32.lt_trans) budget.dom fine
  exact (pairwise_map.mpr ordered).imp UInt32.ne_of_lt

theorem commits_of_rows {β : Type} {before after : Nat → Nat} {related : LegPlan × Nat → β → Prop}
    {rows : List β} (pick : β → Nat × UInt64) (pass : Forall₂ related plan.leg.zipIdx rows)
    (each : ∀ leg i row, plan.leg[i]? = some leg → related (leg, i) row → budgetDomIndex budget
      leg.domainId = some (pick row).1 ∧ ((budget.domAt (pick row).1).unbounded = 0 → (pick
      row).2.toNat + after i = (budget.domAt (pick row).1).remainingUnits.toNat + before i)) :
    Commits budget plan before after (rows.map pick) where
  length := by rw [length_map, ← pass.length_eq, length_zipIdx]
  each := by
    intro i di units found
    rw [getElem?_map] at found
    obtain ⟨row, atRow, picked⟩ := Option.map_eq_some_iff.mp found
    obtain ⟨⟨leg, j⟩, atLeg, isRelated⟩ := forall₂_getElem? pass atRow
    rw [getElem?_zipIdx] at atLeg
    obtain ⟨other, atOther, pair⟩ := Option.map_eq_some_iff.mp atLeg
    obtain ⟨rfl, rfl⟩ := Prod.mk.inj pair
    rw [Nat.zero_add] at isRelated
    have row_spec := each other i row atOther isRelated
    rw [picked] at row_spec
    exact ⟨other, atOther, row_spec⟩

theorem commit_steps {next : Meter} {newGlobal : UInt64} {before after : Nat → Nat}
    {writes : List (Nat × UInt64)} (slots : (books.budget.dom.map DomainBudget.domainId).Nodup)
    (sound : Sound books.budget next)
    (keeps : books.meter.state ≠ .zero → next.state ≠ .zero ∧ next.plan = books.meter.plan ∧
      next.gReserved = books.meter.gReserved)
    (global : books.budget.globalUnbounded = 0 → newGlobal.toNat + next.globalHeld =
      books.budget.globalRemaining.toNat + books.meter.globalHeld)
    (commits : Commits books.budget next.plan before after writes)
    (heldBefore : books.meter.domainHeld = next.plan.spread before)
    (heldAfter : next.domainHeld = next.plan.spread after) :
    Steps books ⟨next, (books.budget.writeGlobal newGlobal).writeAll writes⟩ := by
  have shape : ((books.budget.writeGlobal newGlobal).writeAll writes).shape =
      books.budget.shape := by
    rw [shape_writeAll, shape_writeGlobal]
  exact ⟨shape, moves_of_commits sound.legs slots global commits heldBefore heldAfter,
    sound.of_shape shape, keeps⟩

theorem holds_of_live (live : meter.state = .reserved ∨ meter.state = .active) :
    meter.globalHeld = meter.gReserved.toNat ∧ meter.legHeld = fun li =>
      (meter.plan.legAt li).staticUnits.toNat + (meter.domDyn li).toNat := by
  rcases live with state | state
  · exact ⟨by rw [Meter.globalHeld, state], by funext li; rw [Meter.legHeld, state]⟩
  · exact ⟨by rw [Meter.globalHeld, state], by funext li; rw [Meter.legHeld, state]⟩

section

variable (sound : Sound books.budget books.meter)

include sound

theorem reserve_correct (sha3 : Hash) (policy : Policy) (view : EnvView) (streamLeg : UInt16) :
    Correct books (reserve sha3 policy view streamLeg books) := by
  rw [reserve]
  split
  next => exact Correct.failed sound _
  next isZero =>
    have zero : books.meter = Meter.zero := sound.fresh (not_not.mp isZero)
    cases fine : reserveChecks sha3 policy view streamLeg books.budget with
    | error err =>
      dsimp only
      rw [← zero]
      exact Correct.failed sound _
    | ok temps =>
      obtain ⟨plan, newGlobal, writes⟩ := temps
      simp only [reserveChecks, bind_eq_ok, refuseWhen_eq_ok] at fine
      obtain ⟨built, planned, _, wellFormed, global, taken, rows, passed, made⟩ := fine
      obtain ⟨rfl, rest⟩ := Prod.mk.inj (Except.ok.inj made)
      obtain ⟨rfl, rfl⟩ := Prod.mk.inj rest
      have slots := nodup_of_budgetCheck (by simpa using wellFormed)
      have pass := forall₂_of_mapM_eq_ok passed
      rw [← zipIdx_map_fst 0 built.leg, forall₂_map_left_iff] at pass
      have commits : Commits books.budget built (fun _ => 0)
          (fun i => (built.legAt i).staticUnits.toNat) (rows.map id) := by
        refine commits_of_rows id pass ?_
        intro leg i row atLeg step
        simp only [bind_eq_ok, orFail_eq_ok] at step
        obtain ⟨di, index, domNew, claimed, pair⟩ := step
        cases pair
        refine ⟨index, ?_⟩
        intro bound
        rw [Plan.legAt_eq atLeg]
        exact toNat_of_ckSub (value_of_unlessUnbounded claimed bound)
      rw [map_id] at commits
      refine Steps.correct (commit_steps slots ?_ ?_ ?_ commits ?_ rfl)
      · exact ⟨by rintro ⟨⟩, fun _ => slots, nodup_of_planBuild planned, Nat.zero_le _,
          fun _ => Nat.zero_le _⟩
      · exact fun started => absurd (not_not.mp isZero) started
      · intro bound
        rw [zero]
        exact toNat_of_ckSub (value_of_unlessUnbounded taken bound)
      · funext domainId
        rw [zero, Plan.spread]
        cases planLegIndex built domainId <;> rfl

theorem finalize_correct : Correct books (finalize books) := by
  rw [finalize]
  cases fine : finalizeChecks books with
  | error err => exact Correct.failed sound _
  | ok temps =>
    obtain ⟨gRel, newGlobal, rows⟩ := temps
    simp only [finalizeChecks, bind_eq_ok, orFail_eq_ok] at fine
    obtain ⟨_, required, released, rest, global, given, made, passed, result⟩ := fine
    obtain ⟨rfl, pair⟩ := Prod.mk.inj (Except.ok.inj result)
    obtain ⟨rfl, rfl⟩ := Prod.mk.inj pair
    have active := active_of_require required
    have slots := sound.slots (by rw [active]; rintro ⟨⟩)
    have commits : Commits books.budget books.meter.plan books.meter.legHeld
        (fun i => (books.meter.domConsumed i).toNat) (made.map Prod.fst) := by
      refine commits_of_rows Prod.fst (forall₂_of_mapM_eq_ok passed) ?_
      intro leg i row atLeg step
      simp only [finalizeLeg, bind_eq_ok, orFail_eq_ok] at step
      obtain ⟨di, index, taken, added, domRel, unused, domNew, returned, pair⟩ := step
      cases pair
      refine ⟨index, ?_⟩
      intro bound
      have taken_eq := toNat_of_ckAdd added
      have rel_eq := toNat_of_ckSub unused
      have new_eq := toNat_of_ckAdd (value_of_unlessUnbounded returned bound)
      simp only [Meter.legHeld, active, Plan.legAt_eq atLeg]
      omega
    refine Steps.correct (commit_steps slots ?_ ?_ ?_ commits rfl rfl)
    · exact ⟨by rintro ⟨⟩, fun _ => slots, sound.legs, sound.global, sound.domain⟩
    · exact fun _ => ⟨by rintro ⟨⟩, rfl, rfl⟩
    · intro bound
      have rel_eq := toNat_of_ckSub rest
      have new_eq := toNat_of_ckAdd (value_of_unlessUnbounded given bound)
      simp only [Meter.globalHeld, active]
      omega

theorem abort_correct : Correct books (abort books) := by
  rw [abort]
  cases fine : abortChecks books with
  | error err => exact Correct.failed sound _
  | ok temps =>
    obtain ⟨newGlobal, writes⟩ := temps
    simp only [abortChecks, bind_eq_ok, refuseWhen_eq_ok] at fine
    obtain ⟨_, live, _, -, global, given, made, passed, result⟩ := fine
    obtain ⟨rfl, rfl⟩ := Prod.mk.inj (Except.ok.inj result)
    rw [not_and_or, not_not, not_not] at live
    obtain ⟨globalHeld, legHeld⟩ := holds_of_live live
    have slots := sound.slots (by rcases live with state | state <;> simp [state])
    have commits : Commits books.budget books.meter.plan books.meter.legHeld (fun _ => 0)
        (made.map id) := by
      refine commits_of_rows id (forall₂_of_mapM_eq_ok passed) ?_
      intro leg i row atLeg step
      simp only [abortLeg, bind_eq_ok, orFail_eq_ok] at step
      obtain ⟨di, index, taken, added, domNew, returned, pair⟩ := step
      cases pair
      refine ⟨index, ?_⟩
      intro bound
      simp only [legHeld, Plan.legAt_eq atLeg, ← toNat_of_ckAdd added]
      exact toNat_of_ckAdd (value_of_unlessUnbounded returned bound)
    rw [map_id] at commits
    refine Steps.correct (commit_steps slots ?_ ?_ ?_ commits rfl rfl)
    · exact ⟨by rintro ⟨⟩, fun _ => slots, sound.legs, sound.global, sound.domain⟩
    · exact fun _ => ⟨by rintro ⟨⟩, rfl, rfl⟩
    · intro bound
      rw [globalHeld]
      exact toNat_of_ckAdd (value_of_unlessUnbounded given bound)

end

@[simp] theorem Plan.spread_zero (plan : Plan) (domainId : UInt32) :
    plan.spread (fun _ => 0) domainId = 0 := by
  rw [spread]
  cases planLegIndex plan domainId <;> rfl

theorem held_of_empty (budget : Budget) (global : meter.globalHeld = 0)
    (legs : meter.legHeld = fun _ => 0) (slot : BudgetSlot) : held budget meter slot = 0 := by
  cases slot with
  | global => exact global
  | domain k =>
    rw [held]
    cases budget.dom[k]? <;> simp [Meter.domainHeld, legs]

def Call.target {ι κ : Type} : Call ι κ → ι
  | .reserve meter _ _ _ | .activate meter | .chargeEffects meter _ _ | .chargeRead meter _
  | .chargeWrite meter _ | .chargeEffectsBegin meter _ _ _ _ _ | .chargeEffectsPage meter _ _
  | .chargeEffectsFinish meter _ | .chargeEvmGas meter _ _ | .finalize meter | .abort meter =>
    meter

namespace Block

variable {ι κ : Type} [DecidableEq ι] [DecidableEq κ]

/-- A call steps one meter, leaves the others alone, and changes nothing when it fails. -/
structure Stepped (block : Block ι κ) (i : ι) (result : Status × Block ι κ) : Prop where
  unchanged : result.1 ≠ .ok () → result.2 = block
  steps : Steps (block.books i) (result.2.books i)
  others : ∀ j, j ≠ i → result.2.meters j = block.meters j

variable {block : Block ι κ}

omit [DecidableEq κ] in
theorem onBooks_stepped {i : ι} {call : Books → Status × Books}
    (correct : Correct (block.books i) (call (block.books i))) :
    Stepped block i (block.onBooks i call) := by
  rw [onBooks]
  generalize call (block.books i) = result at correct
  obtain ⟨status, after⟩ := result
  obtain ⟨eq, steps⟩ := correct
  refine ⟨?_, ?_, fun j other => update_of_ne other _ _⟩
  · intro failed
    obtain rfl : after = block.books i := eq failed
    simp only [books, update_eq_self]
  · simpa only [books, update_self] using steps

omit [DecidableEq ι] in
theorem onStream_stepped (i : ι) (sound : Sound block.budget (block.meters i)) {stream : κ}
    {call : Stream → Status × Stream}
    (eq : (call (block.streams stream)).1 ≠ .ok () → (call (block.streams stream)).2 =
      block.streams stream) :
    Stepped block i (block.onStream stream call) := by
  rw [onStream]
  generalize call (block.streams stream) = result at eq
  obtain ⟨status, next⟩ := result
  refine ⟨?_, Steps.refl sound, fun _ _ => rfl⟩
  intro failed
  obtain rfl : next = block.streams stream := eq failed
  simp only [update_eq_self]

theorem page_unchanged (view : Effect.EffectView) (meter : Meter) (stream : Stream)
    (failed : (chargeEffectsPage view meter stream).1 ≠ .ok ()) :
    (chargeEffectsPage view meter stream).2 = stream := by
  rw [chargeEffectsPage] at failed ⊢
  cases fine : pageChecks meter view stream with
  | error err => rfl
  | ok temps =>
    rw [fine] at failed
    exact absurd rfl failed

theorem finish_unchanged (meter : Meter) (stream : Stream)
    (failed : (chargeEffectsFinish meter stream).1 ≠ .ok ()) :
    (chargeEffectsFinish meter stream).2 = stream := by
  rw [chargeEffectsFinish] at failed ⊢
  split_ifs at failed ⊢ with notActive closed wrong
  · rfl
  · rfl
  · rfl
  · exact absurd rfl failed

theorem step_stepped (sound : ∀ i, Sound block.budget (block.meters i)) (sha3 : Hash)
    (call : Call ι κ) :
    Stepped block call.target (block.step sha3 call) := by
  cases call with
  | reserve i policy view streamLeg =>
    exact onBooks_stepped (reserve_correct (sound i) sha3 policy view streamLeg)
  | activate i => exact onBooks_stepped (activate_correct (sound i))
  | chargeEffects i domainId view =>
    exact onBooks_stepped (chargeEffects_correct (sound i) domainId view)
  | chargeRead i domainId => exact onBooks_stepped (chargeRw_correct (sound i) domainId _)
  | chargeWrite i domainId => exact onBooks_stepped (chargeRw_correct (sound i) domainId _)
  | chargeEffectsBegin i stream domainId count bytes extraUnits =>
    rw [step]
    cases begun : chargeEffectsBegin domainId count bytes extraUnits (block.books i)
      (block.streams stream) with
    | mk status rest =>
      obtain ⟨after, next⟩ := rest
      obtain ⟨correct, kept⟩ := chargeEffectsBegin_correct (sound i) domainId count bytes
        extraUnits (block.streams stream) begun
      refine ⟨?_, ?_, fun j other => update_of_ne other _ _⟩
      · intro failed
        obtain rfl : after = block.books i := correct.unchanged failed
        obtain rfl := kept failed
        simp only [books, update_eq_self]
      · simpa only [books, update_self, Call.target] using correct.steps
  | chargeEffectsPage i stream view =>
    exact onStream_stepped i (sound i) (page_unchanged view (block.meters i) _)
  | chargeEffectsFinish i stream =>
    exact onStream_stepped i (sound i) (finish_unchanged (block.meters i) _)
  | chargeEvmGas i domainId gas =>
    exact onBooks_stepped (chargeEvmGas_correct (sound i) domainId gas)
  | finalize i => exact onBooks_stepped (finalize_correct (sound i))
  | abort i => exact onBooks_stepped (abort_correct (sound i))

/-- What holds after any calls from a block in which nothing is reserved. -/
structure Conserves [Fintype ι] (initial : Budget) (block : Block ι κ) : Prop where
  shape : block.budget.shape = initial.shape
  sound : ∀ i, Sound block.budget (block.meters i)
  balance : Balance initial.Bounded initial.remaining block.budget.remaining
    fun i => held initial (block.meters i)

variable [Fintype ι]

omit [DecidableEq ι] [DecidableEq κ] in
theorem start_conserves (budget : Budget) (streams : κ → Stream) :
    Conserves budget (start budget streams : Block ι κ) where
  shape := rfl
  sound _ := Sound.zero budget
  balance := Balance.start fun _ => held_of_empty budget rfl rfl

variable {initial : Budget} (conserves : Conserves initial block)

include conserves

theorem Conserves.step (sha3 : Hash) (call : Call ι κ) :
    Conserves initial (block.step sha3 call).2 := by
  have stepped := step_stepped conserves.sound sha3 call
  have shape : (block.step sha3 call).2.budget.shape = block.budget.shape := stepped.steps.shape
  refine ⟨shape.trans conserves.shape, ?_, ?_⟩
  · intro i
    by_cases eq : i = call.target
    · rw [eq]
      exact stepped.steps.sound
    · rw [stepped.others i eq]
      exact (conserves.sound i).of_shape shape
  · have moves := stepped.steps.moves
    simp only [books, held_of_shape conserves.shape, bounded_of_shape conserves.shape]
      at moves
    refine conserves.balance.moves moves ?_
    intro j other
    rw [stepped.others j other]

theorem Conserves.run (sha3 : Hash) (calls : List (Call ι κ)) :
    Conserves initial (block.run sha3 calls) := by
  induction calls generalizing block with
  | nil => exact conserves
  | cons call rest ih => exact ih (conserves.step sha3 call)

theorem run_keeps (sha3 : Hash) {i : ι} (started : (block.meters i).state ≠ .zero)
    (calls : List (Call ι κ)) :
    ((block.run sha3 calls).meters i).plan = (block.meters i).plan ∧
      ((block.run sha3 calls).meters i).gReserved = (block.meters i).gReserved := by
  induction calls generalizing block with
  | nil => exact ⟨rfl, rfl⟩
  | cons call rest ih =>
    have stepped := step_stepped conserves.sound sha3 call
    have kept : ((block.step sha3 call).2.meters i).state ≠ .zero ∧
        ((block.step sha3 call).2.meters i).plan = (block.meters i).plan ∧
        ((block.step sha3 call).2.meters i).gReserved = (block.meters i).gReserved := by
      by_cases eq : i = call.target
      · subst eq
        exact stepped.steps.keeps started
      · rw [stepped.others i eq]
        exact ⟨started, rfl, rfl⟩
    obtain ⟨plan, gReserved⟩ := ih (conserves.step sha3 call) kept.1
    exact ⟨plan.trans kept.2.1, gReserved.trans kept.2.2⟩

end Block

/-! ## Conservation -/

/-- What the charges of a meter have claimed of a slot after its reservation. -/
def claimed (budget : Budget) (meter : Meter) : BudgetSlot → Nat
  | .global => 0
  | .domain k => (budget.dom[k]?).elim 0 fun slot =>
    meter.plan.spread (fun li => (meter.domDyn li).toNat) slot.domainId

def reservedUnits (budget : Budget) (plan : Plan) (gReserved : UInt64) : BudgetSlot → Nat
  | .global => gReserved.toNat
  | .domain k => (budget.dom[k]?).elim 0 fun slot =>
    plan.spread (fun li => (plan.legAt li).staticUnits.toNat) slot.domainId

theorem Plan.spread_add (plan : Plan) (first second : Nat → Nat) (domainId : UInt32) :
    plan.spread (fun li => first li + second li) domainId =
      plan.spread first domainId + plan.spread second domainId := by
  rw [spread, spread, spread]
  cases planLegIndex plan domainId <;> rfl

theorem held_of_live (live : meter.state = .reserved ∨ meter.state = .active) (slot : BudgetSlot) :
    held budget meter slot =
      reservedUnits budget meter.plan meter.gReserved slot + claimed budget meter slot := by
  obtain ⟨global, legs⟩ := holds_of_live live
  cases slot with
  | global => exact global
  | domain k =>
    rw [held, reservedUnits, claimed]
    cases budget.dom[k]? with
    | none => rfl
    | some slot =>
      simp only [Option.elim_some, Meter.domainHeld, legs]
      exact meter.plan.spread_add _ _ slot.domainId

theorem claimed_of_unclaimed (unclaimed : meter.domDyn = fun _ => 0) (slot : BudgetSlot) :
    claimed budget meter slot = 0 := by
  cases slot with
  | global => rfl
  | domain k =>
    rw [claimed]
    cases budget.dom[k]? <;> simp [unclaimed]

theorem held_of_aborted (state : meter.state = .aborted) (slot : BudgetSlot) :
    held budget meter slot = 0 :=
  held_of_empty budget (by rw [Meter.globalHeld, state])
    (by funext li; rw [Meter.legHeld, state]) slot

theorem reserve_eq_ok (sound : Sound books.budget books.meter)
    (reserved : reserve sha3 policy view streamLeg books = (.ok (), after)) :
    books.meter = Meter.zero ∧ after.meter.state = .reserved ∧
      after.meter.domDyn = fun _ => 0 := by
  rw [reserve] at reserved
  split at reserved
  next => cases reserved
  next isZero =>
    refine ⟨sound.fresh (not_not.mp isZero), ?_⟩
    cases fine : reserveChecks sha3 policy view streamLeg books.budget with
    | error err =>
      rw [fine] at reserved
      cases reserved
    | ok temps =>
      rw [fine] at reserved
      obtain rfl := (Prod.mk.inj reserved).2
      exact ⟨rfl, rfl⟩

theorem abort_eq_ok (aborted : abort books = (.ok (), after)) :
    (books.meter.state = .reserved ∨ books.meter.state = .active) ∧
      after.meter.state = .aborted := by
  rw [abort] at aborted
  cases fine : abortChecks books with
  | error err =>
    rw [fine] at aborted
    cases aborted
  | ok temps =>
    rw [fine] at aborted
    obtain rfl := (Prod.mk.inj aborted).2
    simp only [abortChecks, bind_eq_ok, refuseWhen_eq_ok] at fine
    obtain ⟨_, live, -⟩ := fine
    rw [not_and_or, not_not, not_not] at live
    exact ⟨live, rfl⟩

namespace Block

variable {ι κ : Type} [DecidableEq ι]

theorem onBooks_eq_ok {block after : Block ι κ} {i : ι} {call : Books → Status × Books}
    (done : block.onBooks i call = (.ok (), after)) :
    call (block.books i) = (.ok (), after.books i) := by
  rw [onBooks] at done
  generalize call (block.books i) = result at done
  obtain ⟨status, books⟩ := result
  cases done
  simp only [Block.books, update_self]

variable [DecidableEq κ] [Fintype ι]

/-- An abort gives back what the reservation took, and what the charges claimed. -/
theorem abort_restores {initial : Budget} {block reserved aborted : Block ι κ}
    (conserves : Conserves initial block) (sha3 : Hash) {i : ι} {view : EnvView}
    {later : List (Call ι κ)}
    (reserves : block.step sha3 (.reserve i policy view streamLeg) = (.ok (), reserved))
    (aborts : (reserved.run sha3 later).step sha3 (.abort i) = (.ok (), aborted))
    (slot : BudgetSlot) (bounded : initial.Bounded slot) :
    aborted.budget.remaining slot + reserved.budget.remaining slot =
      (reserved.run sha3 later).budget.remaining slot + block.budget.remaining slot +
        claimed initial ((reserved.run sha3 later).meters i) slot := by
  have first := step_stepped conserves.sound sha3 (.reserve i policy view streamLeg)
  have between : Conserves initial reserved := by
    simpa only [reserves] using conserves.step sha3 (.reserve i policy view streamLeg)
  rw [reserves] at first
  have late := between.run sha3 later
  have second := step_stepped late.sound sha3 (.abort i)
  rw [aborts] at second
  obtain ⟨zero, state, unclaimed⟩ : block.meters i = Meter.zero ∧
      (reserved.meters i).state = .reserved ∧ (reserved.meters i).domDyn = fun _ => 0 :=
    reserve_eq_ok (conserves.sound i) (onBooks_eq_ok reserves)
  obtain ⟨live, ended⟩ : (((reserved.run sha3 later).meters i).state = .reserved ∨
      ((reserved.run sha3 later).meters i).state = .active) ∧
      (aborted.meters i).state = .aborted :=
    abort_eq_ok (onBooks_eq_ok aborts)
  have started : (reserved.meters i).state ≠ .zero := by
    intro isZero
    cases isZero.symm.trans state
  obtain ⟨plan, gReserved⟩ := run_keeps between sha3 started later
  have taken := first.steps.moves.bounded slot
    (by rw [books, bounded_of_shape conserves.shape]; exact bounded)
  have given := second.steps.moves.bounded slot
    (by rw [books, bounded_of_shape late.shape]; exact bounded)
  simp only [Call.target, books, held_of_shape conserves.shape, held_of_shape late.shape]
    at taken given
  rw [zero, @held_of_empty Meter.zero initial rfl rfl, held_of_live (Or.inl state),
    claimed_of_unclaimed unclaimed] at taken
  rw [held_of_aborted ended, held_of_live live, plan, gReserved] at given
  omega

end Block

/-- After any calls, a bounded slot with all that is held in it is what it was at first, no meter
has consumed more than it reserved, and an abort gives back what its meter took. -/
theorem meters_conserve {ι κ : Type} [Fintype ι] [DecidableEq ι] [DecidableEq κ] (sha3 : Hash)
    (budget : Budget) (streams : κ → Stream) (calls : List (Call ι κ)) (block : Block ι κ)
    (reached : block = (Block.start budget streams).run sha3 calls) :
    (∀ slot, budget.Bounded slot → block.budget.remaining slot +
      ∑ i, held budget (block.meters i) slot = budget.remaining slot) ∧
    (∀ slot, ¬ budget.Bounded slot → block.budget.remaining slot = budget.remaining slot) ∧
    block.budget.shape = budget.shape ∧
    (∀ i, (block.meters i).gConsumed ≤ (block.meters i).gReserved ∧
      ∀ li, ((block.meters i).domConsumed li).toNat ≤
        ((block.meters i).plan.legAt li).staticUnits.toNat + ((block.meters i).domDyn li).toNat) ∧
    (∀ call, (block.step sha3 call).1 ≠ .ok () → (block.step sha3 call).2 = block) ∧
    ∀ i policy view streamLeg later reserved aborted,
      block.step sha3 (.reserve i policy view streamLeg) = (.ok (), reserved) →
      (reserved.run sha3 later).step sha3 (.abort i) = (.ok (), aborted) →
      ∀ slot, budget.Bounded slot →
        aborted.budget.remaining slot + reserved.budget.remaining slot =
          (reserved.run sha3 later).budget.remaining slot + block.budget.remaining slot +
            claimed budget ((reserved.run sha3 later).meters i) slot := by
  subst reached
  have conserves := (Block.start_conserves budget streams).run sha3 calls
  refine ⟨conserves.balance.bounded, conserves.balance.unbounded, conserves.shape, ?_, ?_, ?_⟩
  · intro i
    exact ⟨UInt64.le_iff_toNat_le.mpr (conserves.sound i).global, (conserves.sound i).domain⟩
  · intro call failed
    exact (Block.step_stepped conserves.sound sha3 call).unchanged failed
  · intro i policy view streamLeg later reserved aborted reserves aborts
    exact Block.abort_restores conserves sha3 reserves aborts

/-- Every operation is priced, reads cost three units and everything else is free. -/
def samplePolicy : Policy where
  policyVersion := policyVersion
  wBase := 0
  wCallbyte := 0
  wAuthbyte := 0
  wEffect := 0
  wEffectbyte := 0
  wRead := 3
  wWrite := 0
  maxBlockEnvBytes := 1
  wOp := Vector.replicate 256 1
  opPresent := Vector.replicate 4 1
  sealDigest := default

def sampleView : EnvView where
  envelopeVersion := 1
  expiryHeight := 0
  feeAmount := 0
  resMaxTotalUnits := 10
  legCount := 1
  leg := [⟨7, 0, 1, accessInvoke, 0, 0, 0, 0, 0⟩]
  callOff := [0]
  authOff := [0]
  buf := some []
  envLen := 0

def sampleCalls : List (Call Unit Unit) :=
  [.reserve () samplePolicy sampleView 0, .activate (), .chargeRead () 7]

def sampleBudget (globalUnbounded : UInt8) : Budget :=
  ⟨100, globalUnbounded, [⟨7, 0, 50⟩]⟩

def sampleRun (globalUnbounded : UInt8) (calls : List (Call Unit Unit)) : Block Unit Unit :=
  (Block.start (sampleBudget globalUnbounded) fun _ => ⟨false, 0, 0, 0, 0, 0⟩).run
    (fun _ => default) calls

/-- In the middle of a transaction the units add up, and a second reservation fails. -/
theorem meters_conserve_sample :
    (sampleRun 0 sampleCalls).budget.remaining .global +
      ∑ i, held (sampleBudget 0) ((sampleRun 0 sampleCalls).meters i) .global = 100 ∧
    ((sampleRun 0 sampleCalls).meters ()).gConsumed ≤
      ((sampleRun 0 sampleCalls).meters ()).gReserved ∧
    ((sampleRun 0 sampleCalls).step (fun _ => default)
      (.reserve () samplePolicy sampleView 0)).2 = sampleRun 0 sampleCalls := by
  obtain ⟨balanced, -, -, consumed, eq, -⟩ := meters_conserve (fun _ => default)
    (sampleBudget 0) (fun _ => ⟨false, 0, 0, 0, 0, 0⟩) sampleCalls (sampleRun 0 sampleCalls) rfl
  exact ⟨balanced .global rfl, (consumed ()).1, eq _ (by rintro ⟨⟩)⟩

/-- The global slot, when it is flagged unbounded, is not debited by a reservation; and an
abort gives more back to the slot of a domain than the reservation took, when a charge has
claimed from it. -/
theorem meters_beyond_reservation :
    ((sampleRun 1 (sampleCalls.take 1)).budget.remaining .global = 100 ∧
      ((sampleRun 1 (sampleCalls.take 1)).meters ()).globalHeld = 10) ∧
    (sampleRun 0 []).budget.remaining (.domain 0) = 50 ∧
    (sampleRun 0 (sampleCalls.take 1)).budget.remaining (.domain 0) = 49 ∧
    (sampleRun 0 sampleCalls).budget.remaining (.domain 0) = 46 ∧
    (sampleRun 0 (sampleCalls ++ [.abort ()])).budget.remaining (.domain 0) = 50 := by
  decide

end DnaLedger.Metering
