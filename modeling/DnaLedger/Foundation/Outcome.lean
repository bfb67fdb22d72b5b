import DnaLedger.Foundation.Program

/-!
# Checks that refuse or fault

A function of the source that reads its input and returns a value, a refusal or a fault of the node
is a chain of checks.
-/

namespace DnaLedger

variable {ε α β : Type}

def failWhen (code : ε) (bad : Prop) [Decidable bad] : Except ε Unit :=
  if bad then .error code else .ok ()

def orFail (code : ε) : Option α → Except ε α
  | some value => .ok value
  | none => .error code

theorem failWhen_eq_ok {code : ε} {bad : Prop} [Decidable bad] {value : Unit} :
    failWhen code bad = .ok value ↔ ¬ bad := by
  rw [failWhen]
  split
  next holds => simp [holds]
  next fine => simp [fine]

theorem orFail_eq_ok {code : ε} {found : Option α} {value : α} :
    orFail code found = .ok value ↔ found = some value := by
  cases found with
  | none => simp [orFail]
  | some other => simp [orFail]

theorem forM_eq_ok {step : α → Except ε Unit} {values : List α} {result : Unit} :
    values.forM step = .ok result ↔ ∀ value ∈ values, step value = .ok () := by
  induction values with
  | nil => exact ⟨fun _ => List.forall_mem_nil _, fun _ => rfl⟩
  | cons value rest ih =>
    rw [List.forall_mem_cons, ← ih]
    change (step value >>= fun _ => rest.forM step) = .ok () ↔ _
    rw [bind_eq_ok]
    exact ⟨fun ⟨_, first, others⟩ => ⟨first, others⟩, fun ⟨first, others⟩ => ⟨(), first, others⟩⟩

theorem of_not_bnot {flag : Bool} (passed : ¬ (!flag) = true) : flag = true := by
  simpa using passed

namespace Outcome

/-- A returned value satisfies the postcondition, and a fault contradicts what is relied on. -/
structure Ensures (reliable : Prop) (outcome : Except Failure α) (post : α → Prop) : Prop where
  good : ∀ value, outcome = .ok value → post value
  sound : outcome = .error .fault → ¬ reliable

variable {reliable : Prop} {post : α → Prop} {value : α}

theorem ensures_ok (holds : post value) : Ensures reliable (.ok value : Except Failure α) post where
  good _ eq := Except.ok.inj eq ▸ holds
  sound eq := by cases eq

theorem ensures_pure (holds : post value) : Ensures reliable (pure value : Except Failure α) post :=
  ensures_ok holds

theorem ensures_reject : Ensures reliable (.error .reject : Except Failure α) post where
  good _ eq := by cases eq
  sound eq := by cases eq

theorem ensures_fault (unreliable : ¬ reliable) :
    Ensures reliable (.error .fault : Except Failure α) post where
  good _ eq := by cases eq
  sound _ := unreliable

variable {outcome : Except Failure α}

theorem Ensures.mono {post' : α → Prop} (ensures : Ensures reliable outcome post)
    (weaker : ∀ value, post value → post' value) :
    Ensures reliable outcome post' where
  good value eq := weaker value (ensures.good value eq)
  sound := ensures.sound

theorem Ensures.relying {reliable' : Prop} (ensures : Ensures reliable' outcome post)
    (enough : reliable → reliable') :
    Ensures reliable outcome post where
  good := ensures.good
  sound eq holds := ensures.sound eq (enough holds)

variable {rest : α → Except Failure β} {post' : β → Prop}

theorem Ensures.bind {first : Except Failure α} (begins : Ensures reliable first post)
    (continues : ∀ value, post value → Ensures reliable (rest value) post') :
    Ensures reliable (first >>= rest) post' := by
  cases first with
  | ok value => exact continues value (begins.good value rfl)
  | error code =>
    cases code with
    | reject => exact ensures_reject
    | fault => exact ensures_fault (begins.sound rfl)

theorem Ensures.after_ok (continues : Ensures reliable (rest value) post') :
    Ensures reliable ((.ok value : Except Failure α) >>= rest) post' :=
  continues

theorem Ensures.map (ensures : Ensures reliable outcome post) (image : α → β) :
    Ensures reliable (image <$> outcome) fun result =>
      ∃ value, post value ∧ result = image value := by
  cases outcome with
  | ok value => exact ensures_ok ⟨value, ensures.good value rfl, rfl⟩
  | error code =>
    cases code with
    | reject => exact ensures_reject
    | fault => exact ensures_fault (ensures.sound rfl)

variable {bad : Prop}

theorem ensures_refuse [Decidable bad] :
    Ensures reliable (failWhen .reject bad) fun _ => ¬ bad where
  good _ eq := failWhen_eq_ok.mp eq
  sound eq := by
    rw [failWhen] at eq
    split at eq
    next => cases eq
    next => cases eq

theorem ensures_faultWhen [Decidable bad] (unreliable : bad → ¬ reliable) :
    Ensures reliable (failWhen .fault bad) fun _ => ¬ bad where
  good _ eq := failWhen_eq_ok.mp eq
  sound eq := by
    rw [failWhen] at eq
    split at eq
    next holds => exact unreliable holds
    next => cases eq

variable {found : Option α}

theorem ensures_orReject :
    Ensures reliable (orFail .reject found) fun value => found = some value where
  good _ eq := orFail_eq_ok.mp eq
  sound eq := by cases found <;> cases eq

theorem ensures_orFault (unreliable : found = none → ¬ reliable) :
    Ensures reliable (orFail .fault found) fun value => found = some value where
  good _ eq := orFail_eq_ok.mp eq
  sound eq := by
    cases found with
    | none => exact unreliable rfl
    | some value => cases eq

theorem ensures_unless [Decidable bad] {rest : Unit → Except Failure β}
    (continues : ¬ bad → Ensures reliable (rest ()) post') :
    Ensures reliable (failWhen .reject bad >>= rest) post' :=
  ensures_refuse.bind fun _ fine => continues fine

theorem ensures_given
    (continues : ∀ value, found = some value → Ensures reliable (rest value) post') :
    Ensures reliable (orFail .reject found >>= rest) post' :=
  ensures_orReject.bind continues

end Outcome

end DnaLedger
