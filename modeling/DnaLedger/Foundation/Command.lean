import Mathlib.Init

/-!
# Programs over commands

A program issues commands to a machine that it does not know and goes on with the answers. A machine
answers a command, or stops the program, and changes its state either way.
-/

namespace DnaLedger.Command

/-- Programs with commands in `C`, answers in `R` and the reasons to stop in `ε`. -/
inductive Prog (C : Type) (R : C → Type) (ε α : Type) : Type where
  | done (value : α)
  | stop (error : ε)
  | issue (command : C) (next : R command → Prog C R ε α)

/-- A machine that answers commands. -/
abbrev Handler (C : Type) (R : C → Type) (ε σ : Type) : Type :=
  (command : C) → σ → Except ε (R command) × σ

namespace Prog

variable {C : Type} {R : C → Type} {ε α β γ σ τ : Type}

def bind : Prog C R ε α → (α → Prog C R ε β) → Prog C R ε β
  | done value, rest => rest value
  | stop error, _ => stop error
  | issue command next, rest => issue command fun answer => (next answer).bind rest

instance : Monad (Prog C R ε) where
  pure := done
  bind := bind

instance : MonadExcept ε (Prog C R ε) where
  throw := stop
  tryCatch
    | stop error, handle => handle error
    | program, _ => program

def perform (command : C) : Prog C R ε (R command) :=
  issue command done

@[simp] theorem pure_eq (value : α) : (pure value : Prog C R ε α) = done value := rfl

@[simp] theorem issue_bind (command : C) (next : R command → Prog C R ε α)
    (rest : α → Prog C R ε β) :
    (issue command next >>= rest) = issue command fun answer => next answer >>= rest := rfl

def run (handler : Handler C R ε σ) : Prog C R ε α → σ → Except ε α × σ
  | done value, state => (.ok value, state)
  | stop error, state => (.error error, state)
  | issue command next, state =>
    match handler command state with
    | (.ok answer, state) => (next answer).run handler state
    | (.error error, state) => (.error error, state)

section

variable (handler : Handler C R ε σ)

theorem run_bind (program : Prog C R ε α) (rest : α → Prog C R ε β) (state : σ) :
    (program >>= rest).run handler state =
      match program.run handler state with
      | (.ok value, state) => (rest value).run handler state
      | (.error error, state) => (.error error, state) := by
  induction program generalizing state with
  | done value => rfl
  | stop error => rfl
  | issue command next ih =>
    simp only [issue_bind, run]
    split
    next => exact ih _ _
    next => rfl

theorem run_perform (command : C) (state : σ) :
    (perform command).run handler state = handler command state := by
  rw [perform, run]
  split
  next answered => rw [answered]; rfl
  next stopped => rw [stopped]

end

/-- Machines that answer every command alike run every program alike, up to a stop of the first one
that the second need not have. -/
theorem run_related {first : Handler C R ε σ} {second : Handler C R ε τ} {related : σ → τ → Prop}
    {escape : ε → Prop}
    (answers : ∀ command state other, related state other →
      (∃ error, escape error ∧ (first command state).1 = .error error) ∨
        (first command state).1 = (second command other).1 ∧
          related (first command state).2 (second command other).2)
    (program : Prog C R ε α) {state : σ} {other : τ} (start : related state other) :
    (∃ error, escape error ∧ (program.run first state).1 = .error error) ∨
      (program.run first state).1 = (program.run second other).1 ∧
        related (program.run first state).2 (program.run second other).2 := by
  induction program generalizing state other with
  | done value => exact Or.inr ⟨rfl, start⟩
  | stop error => exact Or.inr ⟨rfl, start⟩
  | issue command next ih =>
    have answer := answers command state other start
    simp only [run]
    generalize first command state = left at answer
    generalize second command other = right at answer
    obtain ⟨left | left, state⟩ := left
    · rcases answer with ⟨error, escaped, eq⟩ | ⟨eq, rest⟩
      · cases eq
        exact Or.inl ⟨left, escaped, rfl⟩
      · cases right with
        | mk outcome other =>
          cases eq
          exact Or.inr ⟨rfl, rest⟩
    · rcases answer with ⟨error, escaped, eq⟩ | ⟨eq, rest⟩
      · cases eq
      · cases right with
        | mk outcome other =>
          cases eq
          exact ih left rest

/-- Each command is allowed, and the value satisfies the postcondition, while the answers are
expected. -/
def Holds (allowed : C → Prop) (expected : (command : C) → R command → Prop) (post : α → Prop) :
    Prog C R ε α → Prop
  | done value => post value
  | stop _ => True
  | issue command next =>
    allowed command ∧
      ∀ answer, expected command answer → (next answer).Holds allowed expected post

section

variable {allowed : C → Prop} {expected : (command : C) → R command → Prop} {post : α → Prop}

theorem holds_issue {command : C} {next : R command → Prog C R ε α} :
    (issue command next).Holds allowed expected post ↔
      allowed command ∧
        ∀ answer, expected command answer → (next answer).Holds allowed expected post := Iff.rfl

variable {program : Prog C R ε α}

theorem holds_bind {rest : α → Prog C R ε β} {post : β → Prop} :
    (program >>= rest).Holds allowed expected post ↔
      program.Holds allowed expected fun value => (rest value).Holds allowed expected post := by
  induction program with
  | done value => exact Iff.rfl
  | stop error => exact Iff.rfl
  | issue command next ih =>
    rw [issue_bind, holds_issue, holds_issue]
    exact and_congr_right fun _ => forall_congr' fun answer => imp_congr_right fun _ => ih answer

theorem Holds.mono {post' : α → Prop} (holds : program.Holds allowed expected post)
    (values : ∀ value, post value → post' value) :
    program.Holds allowed expected post' := by
  induction program with
  | done value => exact values value holds
  | stop error => trivial
  | issue command next ih =>
    exact ⟨holds.1, fun answer among => ih answer (holds.2 answer among)⟩

theorem holds_forM {items : List β} {program : β → Prog C R ε Unit}
    (each : ∀ item ∈ items, (program item).Holds allowed expected fun _ => True) :
    (items.forM program).Holds allowed expected fun _ => True := by
  induction items with
  | nil => trivial
  | cons item items ih =>
    have split : (item :: items).forM program =
      (program item >>= fun _ => items.forM program) := rfl
    rw [split, holds_bind]
    refine (each item List.mem_cons_self).mono fun _ _ => ?_
    exact ih fun other mem => each other (List.mem_cons_of_mem _ mem)

theorem Holds.run {handler : Handler C R ε σ} {invariant : σ → Prop}
    (keeps : ∀ command state, allowed command → invariant state → invariant (handler command
      state).2 ∧ ∀ answer, (handler command state).1 = .ok answer → expected command answer)
    (holds : program.Holds allowed expected post) {state : σ} (start : invariant state) :
    invariant (program.run handler state).2 ∧
      ∀ value, (program.run handler state).1 = .ok value → post value := by
  induction program generalizing state with
  | done value =>
    refine ⟨start, ?_⟩
    rintro _ ⟨⟩
    exact holds
  | stop error =>
    refine ⟨start, ?_⟩
    rintro _ ⟨⟩
  | issue command next ih =>
    have kept := keeps command state holds.1 start
    simp only [Prog.run]
    generalize handler command state = answered at kept
    obtain ⟨error | answer, rest⟩ := answered
    · refine ⟨kept.1, ?_⟩
      rintro _ ⟨⟩
    · exact ih answer (holds.2 answer (kept.2 answer rfl)) kept.1

end

theorem run_keeps {handler : Handler C R ε σ} {invariant : σ → Prop}
    (keeps : ∀ command state, invariant state → invariant (handler command state).2)
    (program : Prog C R ε α) {state : σ} (start : invariant state) :
    invariant (program.run handler state).2 := by
  have holds : program.Holds (fun _ => True) (fun _ _ => True) fun _ => True := by
    induction program with
    | done value => trivial
    | stop error => trivial
    | issue command next ih => exact ⟨trivial, fun answer _ => ih answer⟩
  exact (holds.run (fun command state _ kept => ⟨keeps command state kept, fun _ _ => trivial⟩)
    start).1

end Prog

end DnaLedger.Command
