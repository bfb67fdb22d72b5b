import Mathlib.Order.Basic

/-!
# A slot that only moves forward

A server answers calls out of one slot, a value under a key. A call leaves the slot alone or moves
it to a later key, and hands out what the slot holds when it returns.
-/

namespace DnaLedger

structure Slot (κ ν : Type) where
  key : κ
  value : ν

/-- What a call hands out: the content of the slot, and whether the call made it. -/
structure Answer (κ ν : Type) where
  key : κ
  value : ν
  fresh : Bool

namespace Slot

variable {κ ν ω : Type} [Preorder κ]

structure Step (before after : Slot κ ν) (answer : Option (Answer κ ν)) : Prop where
  forward : after = before ∨ before.key < after.key
  current : ∀ given ∈ answer, given.key = after.key ∧ given.value = after.value
  advanced : ∀ given ∈ answer, given.fresh = true → before.key < after.key

theorem Step.refl (slot : Slot κ ν) : Step slot slot none where
  forward := Or.inl rfl
  current := by simp
  advanced := by simp

/-- An answer that a call from this slot on can give: its content, or something under a later
key. -/
def Later (slot : Slot κ ν) (given : Answer κ ν) : Prop :=
  given.key = slot.key ∧ given.value = slot.value ∧ given.fresh = false ∨ slot.key < given.key

variable {before after : Slot κ ν} {answer : Option (Answer κ ν)} {given first second : Answer κ ν}

theorem Step.later (step : Step before after answer) (mem : given ∈ answer) :
    Later before given := by
  obtain ⟨sameKey, sameValue⟩ := step.current given mem
  rcases step.forward with eq | moved
  · cases fresh : given.fresh with
    | true =>
      apply Or.inr
      rw [sameKey]
      exact step.advanced given mem fresh
    | false => exact Or.inl ⟨eq ▸ sameKey, eq ▸ sameValue, fresh⟩
  · exact Or.inr (sameKey ▸ moved)

theorem Step.later_trans (step : Step before after answer) (later : Later after given) :
    Later before given := by
  rcases step.forward with eq | moved
  · exact eq ▸ later
  · rcases later with ⟨sameKey, -, -⟩ | after
    · exact Or.inr (sameKey ▸ moved)
    · exact Or.inr (lt_trans moved after)

theorem Step.agree (step : Step before after (some first))
    (later : Later after second) (eq : first.key = second.key) : first.value = second.value := by
  obtain ⟨key, value⟩ := step.current first rfl
  rcases later with ⟨-, sameValue, -⟩ | after
  · rw [value, sameValue]
  · rw [← eq, key] at after
    exact absurd after (lt_irrefl _)

theorem Step.increasing (step : Step before after (some first))
    (later : Later after second) (fresh : second.fresh = true) : first.key < second.key := by
  rw [(step.current first rfl).1]
  rcases later with ⟨-, -, stale⟩ | after
  · rw [fresh] at stale
    cases stale
  · exact after

/-- A sequence of calls with their outputs, where an output says what the answer was. -/
inductive Run (Reads : ω → Answer κ ν → Prop) : Slot κ ν → List ω → Slot κ ν → Prop where
  | nil (slot : Slot κ ν) : Run Reads slot [] slot
  | silent {before middle after : Slot κ ν} {outputs : List ω} (step : Step before middle none)
      (run : Run Reads middle outputs after) : Run Reads before outputs after
  | answered {before middle after : Slot κ ν} {answer : Answer κ ν} {output : ω}
      {outputs : List ω} (step : Step before middle (some answer)) (reads : Reads output answer)
      (run : Run Reads middle outputs after) : Run Reads before (output :: outputs) after

variable {Reads : ω → Answer κ ν → Prop} {outputs : List ω} (run : Run Reads before outputs after)

include run

theorem Run.later : ∀ output ∈ outputs, ∃ answer, Reads output answer ∧ Later before answer := by
  induction run with
  | nil slot => simp
  | silent step run ih =>
    intro output mem
    obtain ⟨answer, reads, later⟩ := ih output mem
    exact ⟨answer, reads, step.later_trans later⟩
  | @answered _ _ _ answer _ _ step reads run ih =>
    intro output mem
    rcases List.mem_cons.mp mem with rfl | rest
    · exact ⟨answer, reads, step.later rfl⟩
    · obtain ⟨other, otherReads, later⟩ := ih output rest
      exact ⟨other, otherReads, step.later_trans later⟩

theorem Run.agree :
    ∀ first ∈ outputs, ∀ second ∈ outputs, ∃ firstAnswer secondAnswer,
      Reads first firstAnswer ∧ Reads second secondAnswer ∧
        (firstAnswer.key = secondAnswer.key → firstAnswer.value = secondAnswer.value) := by
  induction run with
  | nil slot => simp
  | silent step run ih => exact ih
  | @answered _ _ _ answer output outputs step reads run ih =>
    intro first firstGiven second secondGiven
    rcases List.mem_cons.mp firstGiven with rfl | firstLater <;>
      rcases List.mem_cons.mp secondGiven with rfl | secondLater
    · exact ⟨answer, answer, reads, reads, fun _ => rfl⟩
    · obtain ⟨other, otherReads, later⟩ := run.later second secondLater
      exact ⟨answer, other, reads, otherReads, step.agree later⟩
    · obtain ⟨other, otherReads, later⟩ := run.later first firstLater
      exact ⟨other, answer, otherReads, reads, fun eq => (step.agree later eq.symm).symm⟩
    · exact ih first firstLater second secondLater

theorem Run.increasing :
    outputs.Pairwise fun first second => ∃ firstAnswer secondAnswer,
      Reads first firstAnswer ∧ Reads second secondAnswer ∧
        (secondAnswer.fresh = true → firstAnswer.key < secondAnswer.key) := by
  induction run with
  | nil slot => exact List.Pairwise.nil
  | silent step run ih => exact ih
  | @answered _ _ _ answer output outputs step reads run ih =>
    apply List.Pairwise.cons _ ih
    intro second mem
    obtain ⟨other, otherReads, later⟩ := run.later second mem
    exact ⟨answer, other, reads, otherReads, step.increasing later⟩

end Slot

end DnaLedger
