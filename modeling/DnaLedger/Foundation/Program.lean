import Mathlib.Data.List.Forall2

/-!
# Programs that fail with a code and keep their state

The C functions modelled here return `CMT_OK`, `CMT_REJECT` or `CMT_FAULT` and work on state that
their caller owns. `Program σ α` is this shape: a state transformer whose failure carries a code and
keeps the state reached so far.
-/

namespace DnaLedger

open List

/-- `CMT_REJECT` for input that is refused and `CMT_FAULT` for a defect of the node itself. -/
inductive Failure where
  | reject
  | fault
  deriving DecidableEq

theorem ite_false_left {bad : Prop} [Decidable bad] {rest : Bool}
    (ok : (if bad then false else rest) = true) : ¬ bad ∧ rest = true := by
  split at ok
  next => cases ok
  next fine => exact ⟨fine, ok⟩

variable {ε α : Type}

theorem ite_error_eq_ok {bad : Prop} [Decidable bad] {code : ε} {rest : Except ε α} {value : α} :
    (if bad then .error code else rest) = .ok value ↔ ¬ bad ∧ rest = .ok value := by
  by_cases refused : bad
  · simp [refused]
  · simp [refused]

theorem exists_of_isOk {outcome : Except ε α} (ok : outcome.isOk = true) :
    ∃ value, outcome = .ok value := by
  cases outcome with
  | ok value => exact ⟨value, rfl⟩
  | error code => cases ok

theorem eq_ok_of_toOption {outcome : Except ε α} {value : α}
    (present : outcome.toOption = some value) : outcome = .ok value := by
  cases outcome with
  | error => cases present
  | ok => exact congrArg Except.ok (Option.some.inj present)

variable {β : Type}

/-- A computation that returns a value passed through every step before it. -/
theorem bind_eq_ok {first : Except ε α} {rest : α → Except ε β} {result : β} :
    (first >>= rest) = .ok result ↔ ∃ value, first = .ok value ∧ rest value = .ok result := by
  cases first with
  | ok value =>
    constructor
    · intro run
      exact ⟨value, rfl, run⟩
    · rintro ⟨other, eq, run⟩
      cases eq
      exact run
  | error code =>
    constructor
    · intro run
      cases run
    · rintro ⟨other, eq, -⟩
      cases eq

variable {step : α → Except ε β} {values : List α}

theorem mapM_eq_ok {image : α → β} (each : ∀ value ∈ values, step value = .ok (image value)) :
    values.mapM step = .ok (values.map image) := by
  induction values with
  | nil => rfl
  | cons value rest ih =>
    rw [mapM_cons, each value mem_cons_self,
      ih fun other later => each other (mem_cons_of_mem value later)]
    rfl

variable {images : List β}

theorem forall₂_of_mapM_eq_ok (pass : values.mapM step = .ok images) :
    Forall₂ (fun value image => step value = .ok image) values images := by
  induction values generalizing images with
  | nil =>
    cases pass
    exact .nil
  | cons value rest ih =>
    rw [mapM_cons] at pass
    obtain ⟨image, head, pass⟩ := bind_eq_ok.mp pass
    obtain ⟨others, tail, pass⟩ := bind_eq_ok.mp pass
    cases pass
    exact .cons head (ih tail)

variable {first : List α}

theorem eq_of_mapM_eq_ok {second : List α} (pass : first.mapM step = .ok images)
    (pass' : second.mapM step = .ok images)
    (injective : ∀ value ∈ first, ∀ other ∈ second, ∀ image, step value = .ok image → step other =
      .ok image → value = other) : first = second := by
  have entries := forall₂_of_mapM_eq_ok pass
  have entries' := forall₂_of_mapM_eq_ok pass'
  clear pass pass'
  induction entries generalizing second with
  | nil =>
    cases entries'
    rfl
  | @cons value image rest images made _ ih =>
    cases entries' with
    | @cons other _ rest' _ made' tail =>
      rw [injective value mem_cons_self other mem_cons_self image made made',
        ih (fun value mem other mem' => injective value
          (mem_cons_of_mem _ mem) other (mem_cons_of_mem _ mem')) tail]

theorem exists_of_mem_of_mapM_eq_ok (pass : values.mapM step = .ok images) {value : α}
    (mem : value ∈ values) :
    ∃ image, step value = .ok image := by
  have entries := forall₂_of_mapM_eq_ok pass
  clear pass
  induction entries with
  | nil => cases mem
  | @cons head image rest images made _ ih =>
    rcases mem_cons.mp mem with rfl | later
    · exact ⟨image, made⟩
    · exact ih later

theorem forall₂_getElem? {related : α → β → Prop} {second : List β}
    (lists : Forall₂ related first second) {i : Nat} {b : β} (found : second[i]? = some b) :
    ∃ a, first[i]? = some a ∧ related a b := by
  induction lists generalizing i with
  | nil => cases found
  | cons head _ ih =>
    cases i with
    | zero =>
      cases found
      exact ⟨_, rfl, head⟩
    | succ i => exact ih found

theorem mapM_eq_some {step : α → Option β} :
    values.mapM step = some images ↔
      Forall₂ (fun value image => step value = some image) values images := by
  induction values generalizing images with
  | nil =>
    rw [mapM_nil, forall₂_nil_left_iff]
    exact ⟨fun eq => (Option.some.inj eq).symm, fun empty => congrArg some empty.symm⟩
  | cons value rest ih =>
    simp only [mapM_cons, Option.bind_eq_bind, Option.bind_eq_some_iff, forall₂_cons_left_iff, ih]
    constructor
    · rintro ⟨image, step, others, steps, eq⟩
      exact ⟨image, others, step, steps, (Option.some.inj eq).symm⟩
    · rintro ⟨image, others, step, steps, rfl⟩
      exact ⟨image, step, others, steps, rfl⟩

theorem mapM_eq_some_map {step : α → Option β} {image : α → β}
    (each : ∀ value ∈ values, step value = some (image value)) :
    values.mapM step = some (values.map image) := by
  rw [mapM_eq_some, forall₂_map_right_iff, forall₂_same]
  exact each

theorem mapM_zipIdx_map {γ : Type} (make : α → γ) {step : γ × Nat → Option β} (image : α → Nat → β)
    (each : ∀ (i : Nat) value, values[i]? = some value → step (make value, i) = some (image value
      i)) :
    (values.map make).zipIdx.mapM step =
      some (values.zipIdx.map fun (value, i) => image value i) := by
  rw [zipIdx_map, mapM_map]
  apply mapM_eq_some_map
  rintro ⟨value, i⟩ mem
  exact each i value (mk_mem_zipIdx_iff_getElem?.mp mem)

theorem map_zipIdx_fst (values : List α) (image : α → β) :
    (values.zipIdx.map fun (value, _) => image value) = values.map image := by
  have fronts := congrArg (map image) (zipIdx_map_fst 0 values)
  rwa [map_map] at fronts

theorem map_eq_map_of_map_eq {γ : Type} {second : List α} {f f' : α → β} {g g' : α → γ}
    (each : ∀ a ∈ first, ∀ b ∈ second, f a = f' b → g a = g' b)
    (eq : first.map f = second.map f') : first.map g = second.map g' := by
  have pairs : Forall₂ (fun a b => g a = g' b) first second := by
    have related : Forall₂ (fun a b => f a = f' b) first second := by
      rw [← forall₂_map_right_iff, ← forall₂_map_left_iff, eq]
      exact forall₂_refl _
    induction related with
    | nil => exact .nil
    | cons head rest ih =>
      refine .cons (each _ mem_cons_self _ mem_cons_self head) ?_
      exact ih (fun a inFirst b inSecond => each a (mem_cons_of_mem _ inFirst) b
        (mem_cons_of_mem _ inSecond)) (cons.inj eq).2
  rwa [← forall₂_eq_eq_eq, forall₂_map_left_iff, forall₂_map_right_iff]

theorem exists_of_mem_mapM {step : α → Option β} (pass : values.mapM step = some images)
    {image : β} (mem : image ∈ images) :
    ∃ value ∈ values, step value = some image := by
  rw [mapM_eq_some] at pass
  induction pass with
  | nil => cases mem
  | @cons value head rest tail first _ ih =>
    rcases mem_cons.mp mem with rfl | later
    · exact ⟨value, mem_cons_self, first⟩
    · obtain ⟨found, inside, step⟩ := ih later
      exact ⟨found, mem_cons_of_mem value inside, step⟩

/-- A computation on a state that survives its failures. -/
abbrev Program (σ α : Type) : Type :=
  ExceptT Failure (StateM σ) α

namespace Program

variable {σ α β : Type}

/-- Run a program: the value or the failure code, and the state either way. -/
def exec (program : Program σ α) (state : σ) : Except Failure α × σ :=
  program.run.run state

@[simp] theorem exec_pure (value : α) (state : σ) :
    exec (pure value : Program σ α) state = (.ok value, state) := rfl

@[simp] theorem exec_throw (code : Failure) (state : σ) :
    exec (throw code : Program σ α) state = (.error code, state) := rfl

@[simp] theorem exec_get (state : σ) :
    exec (get : Program σ σ) state = (.ok state, state) := rfl

@[simp] theorem exec_set (next state : σ) :
    exec (set next : Program σ PUnit) state = (.ok ⟨⟩, next) := rfl

@[simp] theorem exec_modify (change : σ → σ) (state : σ) :
    exec (modify change : Program σ PUnit) state = (.ok ⟨⟩, change state) := rfl

theorem exec_bind (first : Program σ α) (rest : α → Program σ β) (state : σ) :
    exec (first >>= rest) state =
      match exec first state with
      | (.ok value, next) => exec (rest value) next
      | (.error code, next) => (.error code, next) := by
  rcases run : exec first state with ⟨outcome, next⟩
  simp only [exec, ExceptT.run, StateT.run] at run ⊢
  simp only [bind, ExceptT.bind, ExceptT.mk, StateT.bind, run]
  cases outcome <;> rfl

variable {first : Program σ α} {rest : α → Program σ β} {state : σ}

theorem exec_bind_ok {next : σ} {value : α} (run : exec first state = (.ok value, next)) :
    exec (first >>= rest) state = exec (rest value) next := by
  rw [exec_bind, run]

theorem exec_bind_error {next : σ} {code : Failure} (run : exec first state = (.error code, next)) :
    exec (first >>= rest) state = (.error code, next) := by
  rw [exec_bind, run]

theorem exec_bind_eq {last : σ} {outcome : Except Failure β}
    (run : exec (first >>= rest) state = (outcome, last)) :
    (∃ code, exec first state = (.error code, last) ∧ outcome = .error code) ∨
      ∃ value next, exec first state = (.ok value, next) ∧
        exec (rest value) next = (outcome, last) := by
  rw [exec_bind] at run
  rcases step : exec first state with ⟨value | code, next⟩
  · rw [step] at run
    cases run
    exact Or.inl ⟨_, rfl, rfl⟩
  · rw [step] at run
    exact Or.inr ⟨_, _, rfl, run⟩

@[simp] theorem exec_map (change : α → β) (program : Program σ α) (state : σ) :
    exec (change <$> program) state =
      match exec program state with
      | (.ok value, next) => (.ok (change value), next)
      | (.error code, next) => (.error code, next) := by
  rw [← bind_pure_comp, exec_bind]
  rfl

@[simp] theorem exec_ite (condition : Prop) [Decidable condition]
    (yes no : Program σ α) (state : σ) :
    exec (if condition then yes else no) state =
      if condition then exec yes state else exec no state := by
  split <;> rfl

@[simp] theorem exec_liftExcept (outcome : Except Failure α) (state : σ) :
    exec (liftM outcome : Program σ α) state = (outcome, state) := by
  cases outcome <;> rfl

theorem exec_check_eq {check : Except Failure α} {last : σ} {outcome : Except Failure β}
    (run : exec ((liftM check : Program σ α) >>= rest) state = (outcome, last)) :
    (∃ code, check = .error code ∧ outcome = .error code ∧ last = state) ∨
      ∃ value, check = .ok value ∧ exec (rest value) state = (outcome, last) := by
  rw [exec_bind, exec_liftExcept] at run
  cases check with
  | ok value => exact Or.inr ⟨value, rfl, run⟩
  | error code =>
    cases run
    exact Or.inl ⟨code, rfl, rfl, rfl⟩

theorem exec_tryCatch (body : Program σ α) (handler : Failure → Program σ α) (state : σ) :
    exec (tryCatch body handler) state =
      match exec body state with
      | (.ok value, next) => (.ok value, next)
      | (.error code, next) => exec (handler code) next := by
  rcases run : exec body state with ⟨outcome, next⟩
  simp only [exec, ExceptT.run, StateT.run] at run ⊢
  simp only [tryCatch, tryCatchThe, MonadExceptOf.tryCatch, ExceptT.tryCatch, ExceptT.mk, bind,
    StateT.bind, run]
  cases outcome <;> rfl

/-- The program keeps the invariant, a returned value satisfies the postcondition, and when what it
relies on is reliable it returns one. -/
def Ensures (reliable : Prop) (invariant : σ → Prop) (program : Program σ α)
    (post : α → Prop) : Prop :=
  ∀ state, invariant state → invariant (exec program state).2 ∧
    (∀ value, (exec program state).1 = .ok value → post value) ∧
      ∀ code, (exec program state).1 = .error code → ¬ reliable

variable {reliable : Prop} {invariant : σ → Prop} {post : α → Prop}

theorem ensures_of_exec {program : Program σ α} {value : α}
    (run : ∀ state, exec program state = (.ok value, state)) (good : post value) :
    Ensures reliable invariant program post := by
  intro state holds
  rw [run]
  refine ⟨holds, ?_, ?_⟩
  · intro other eq
    cases eq
    exact good
  · intro code eq
    cases eq

theorem ensures_pure {value : α} (good : post value) :
    Ensures reliable invariant (pure value : Program σ α) post :=
  ensures_of_exec (fun _ => rfl) good

theorem ensures_throw {code : Failure} (unreliable : ¬ reliable) :
    Ensures reliable invariant (throw code : Program σ α) post := by
  intro state holds
  refine ⟨holds, ?_, fun _ _ => unreliable⟩
  intro value eq
  cases eq

theorem Ensures.bind {post' : β → Prop} (begins : Ensures reliable invariant first post)
    (continues : ∀ value, post value → Ensures reliable invariant (rest value) post') :
    Ensures reliable invariant (first >>= rest) post' := by
  intro state holds
  obtain ⟨kept, good, fails⟩ := begins state holds
  rcases run : exec first state with ⟨value | code, next⟩
  · rw [run] at fails kept
    rw [exec_bind_error run]
    refine ⟨kept, ?_, fun _ _ => fails _ rfl⟩
    intro value eq
    cases eq
  · rw [run] at good kept
    rw [exec_bind_ok run]
    exact continues _ (good _ rfl) next kept

end Program

end DnaLedger
