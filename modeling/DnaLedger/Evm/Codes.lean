import DnaLedger.Evm.Changes
import DnaLedger.Evm.Operations
import DnaLedger.Evm.Steps

/-!
# The codes of accounts

An account that a transaction writes comes with its code, has none, or has the code that the backend
serves for its address.
-/

namespace DnaLedger.Evm

open Command List

/-- The codes that a backend serves have the hashes that it reports. -/
def Backend.Honest (be : Backend) (keccak : Bytes → Word) : Prop :=
  ∀ addr, (be.getAccount addr).present = true →
    keccak (be.getCode addr) = (be.getAccount addr).codeHash

/-- An account comes with one of the given codes, has none, or has that of the backend. -/
def CodeOk (host : Host) (codes : Set Bytes) (addr : Word) (acct : Acct) : Prop :=
  match acct.code with
  | some code => code ∈ codes ∧ host.keccak code = acct.codeHash
  | none => acct.codeHash = emptyCodeHash ∨
      ∃ old, host.be.before addr = some old ∧ old.codeHash = acct.codeHash

variable {addr : Word} {old : Acct}

theorem Backend.before_some {be : Backend} (found : be.before addr = some old) :
    (be.getAccount addr).present = true ∧ old.codeHash = (be.getAccount addr).codeHash ∧
      old.code = none := by
  simp only [before] at found
  split at found
  next present =>
    cases found
    exact ⟨present, rfl, rfl⟩
  next => cases found

theorem codeOk_before {host : Host} {codes : Set Bytes}
    (found : host.be.before addr = some old) : CodeOk host codes addr old := by
  obtain ⟨-, -, code⟩ := Backend.before_some found
  unfold CodeOk
  rw [code]
  exact Or.inr ⟨old, found, rfl⟩

/-! ## The codes of all accounts -/

/-- The accounts of a dictionary have their codes in order. -/
def CodesOk (host : Host) (codes : Set Bytes) (accts : Word → Option (Option Acct)) : Prop :=
  ∀ addr acct, accts addr = some (some acct) → CodeOk host codes addr acct

/-- A write of an account with its code in order, or any other command. -/
def Prim.CodeOk (host : Host) (codes : Set Bytes) : Prim → Prop
  | .setAccount addr (some acct) => Evm.CodeOk host codes addr acct
  | _ => True

/-- An account that is read has its code in order. -/
def Prim.CodeRead (host : Host) (codes : Set Bytes) : (command : Prim) → command.Result → Prop
  | .getAccountOptional addr, found => ∀ acct, found = some acct → Evm.CodeOk host codes addr acct
  | .peekAccount addr, found => ∀ acct, found = some acct → Evm.CodeOk host codes addr acct
  | _, _ => True

variable {host : Host} {codes : Set Bytes}

namespace Access

/-- The writes and the reads of a program keep codes in order. -/
def CodesOk {α : Type} (host : Host) (codes : Set Bytes) (post : α → Prop) (program : Access α) :
    Prop :=
  program.Holds (Prim.CodeOk host codes) (Prim.CodeRead host codes) post

theorem codesOk_getAccount (addr : Word) :
    CodesOk host codes (CodeOk host codes addr) (getAccount addr) := by
  refine ⟨trivial, fun found read => ?_⟩
  cases found with
  | none => exact Or.inl rfl
  | some acct => exact read acct rfl

theorem codesOk_destroyAccount (addr : Word) :
    CodesOk host codes (fun _ => True) (destroyAccount addr) := by
  unfold destroyAccount CodesOk
  rw [Prog.holds_bind]
  refine (codesOk_getAccount addr).mono fun acct _ => ?_
  have rest : (do prim (.destroyStorage addr); prim (.setAccount addr none) : Access Unit).Holds
      (Prim.CodeOk host codes) (Prim.CodeRead host codes) fun _ => True :=
    ⟨trivial, fun _ _ => ⟨trivial, fun _ _ => trivial⟩⟩
  dsimp only
  split
  · exact ⟨trivial, fun _ _ => rest⟩
  · exact rest

theorem codesOk_modifyCommit {acct : Acct} (ok : CodeOk host codes addr acct) :
    CodesOk host codes (fun _ => True) (modifyCommit addr acct) := by
  refine ⟨ok, fun _ _ => ?_⟩
  dsimp only
  split
  · exact codesOk_destroyAccount addr
  · trivial

theorem codesOk_modify {α : Type} {rest : Acct → Access α}
    (each : ∀ acct, CodeOk host codes addr acct → CodesOk host codes (fun _ => True) (rest acct)) :
    CodesOk host codes (fun _ => True) (getAccount addr >>= rest) := by
  unfold CodesOk
  rw [Prog.holds_bind]
  exact (codesOk_getAccount addr).mono each

end Access

/-- `evm_st_set_account` is called by the state only, and the codes that are set are given ones. -/
def Call.Public (codes : Set Bytes) : Call → Prop
  | .setAccount _ _ => False
  | .setCode _ code => code ∈ codes
  | _ => True

theorem Call.codesOk {call : Call} (shown : call.Public codes) :
    Access.CodesOk host codes (fun _ => True) (call.prog host.keccak) := by
  have account : ∀ addr, Access.CodesOk host codes (fun _ => True) (Access.getAccount addr) :=
    fun addr => (Access.codesOk_getAccount addr).mono fun _ _ => trivial
  cases call with
  | getAccount addr => exact account addr
  | getAccountOptional addr | accountExists addr | isAccountAlive addr =>
    refine ⟨trivial, fun found _ => ?_⟩
    cases found <;> trivial
  | accountDeployable addr =>
    apply Access.codesOk_modify
    intro acct ok
    split
    · trivial
    · exact ⟨trivial, fun _ _ => trivial⟩
  | setStorage addr key val =>
    refine ⟨trivial, fun found _ => ?_⟩
    cases found with
    | none => trivial
    | some acct => exact ⟨trivial, fun _ _ => trivial⟩
  | destroyAccount addr => exact Access.codesOk_destroyAccount addr
  | moveEther source target amount =>
    apply Access.codesOk_modify
    intro acct ok
    split
    · trivial
    · have debited : CodeOk host codes source { acct with balance := acct.balance - amount } := ok
      unfold Access.CodesOk
      rw [Prog.holds_bind]
      refine (Access.codesOk_modifyCommit debited).mono fun _ _ => ?_
      apply Access.codesOk_modify
      intro acct ok
      split
      · trivial
      · exact Access.codesOk_modifyCommit ok
  | createEther addr amount | incrementNonce addr =>
    apply Access.codesOk_modify
    intro acct ok
    split
    · trivial
    · exact Access.codesOk_modifyCommit ok
  | setBalance addr amount =>
    apply Access.codesOk_modify
    intro acct ok
    exact Access.codesOk_modifyCommit ok
  | setCode addr code =>
    apply Access.codesOk_modify
    intro acct ok
    apply Access.codesOk_modifyCommit
    by_cases empty : host.keccak code = emptyCodeHash
    · simp only [CodeOk, if_pos empty]
      exact Or.inl empty
    · simp only [CodeOk, if_neg empty]
      exact ⟨shown, trivial⟩
  | destroyMarked =>
    refine ⟨trivial, fun marked _ => ?_⟩
    exact Prog.holds_forM fun addr _ => Access.codesOk_destroyAccount addr
  | setAccount addr acct => exact shown.elim
  | _ => exact ⟨trivial, fun _ _ => trivial⟩

theorem getD_eq_some {written : Option (Option Acct)} {before : Option Acct} {acct : Acct}
    (found : written.getD before = some acct) :
    written = some (some acct) ∨ written = none ∧ before = some acct := by
  cases written with
  | none => exact .inr ⟨rfl, found⟩
  | some write => exact .inl (congrArg some found)

namespace State

/-- The codes are in order in the layer, at the given marks and in what was committed. -/
structure CodesOk (host : Host) (codes : Set Bytes) (marks : List Nat) (st : State) : Prop where
  sound : Sound host.be st
  layer : Evm.CodesOk host codes fun addr => (st.layer.accts addr).acct
  committed : Evm.CodesOk host codes st.committed.accts
  saved : ∀ mark ∈ marks, mark ≤ st.journal.length ∧
    Evm.CodesOk host codes fun addr => ((st.layerAt mark).accts addr).acct

variable {marks : List Nat} {st next : State}

theorem CodesOk.account (ok : CodesOk host codes marks st) {acct : Acct}
    (found : st.layer.account host.be st.committed addr = some acct) :
    CodeOk host codes addr acct := by
  unfold Layer.account at found
  obtain written | ⟨-, before⟩ := getD_eq_some found
  · obtain own | ⟨-, committed⟩ := Option.or_eq_some_iff.mp written
    · exact ok.layer addr acct own
    · exact ok.committed addr acct committed
  · exact codeOk_before before

theorem CodesOk.read (ok : CodesOk host codes marks st) (command : Prim) (answer : command.Result)
    (read : (handle host command st).1 = .ok answer) : command.CodeRead host codes answer := by
  have cached := ok.sound.cached
  cases command with
  | getAccountOptional addr =>
    rintro acct rfl
    have eq := account_of_answer (getAccountOptional_spec cached addr).1 read
    exact ok.account eq.symm
  | peekAccount addr =>
    rintro acct rfl
    have eq := account_of_answer (peekAccount_spec cached addr).1 read
    exact ok.account eq.symm
  | _ => trivial

theorem CodesOk.handle {command : Prim} (allowed : command.CodeOk host codes)
    (ok : CodesOk host codes marks st) :
    CodesOk host codes marks (State.handle host command st).2 := by
  obtain ⟨advances, layer⟩ := handle_advances command ok.sound
  refine ⟨advances.sound, ?_, ?_, ?_⟩
  · intro addr acct found
    rw [layer] at found
    dsimp only at found
    rw [Layer.acct_perform] at found
    cases command with
    | setAccount addr' write =>
      simp only at found
      split at found
      next here =>
        cases found
        exact here ▸ allowed
      next => exact ok.layer addr acct found
    | _ => exact ok.layer addr acct found
  · rw [advances.committed]
    exact ok.committed
  · intro mark mem
    obtain ⟨old, fine⟩ := ok.saved mark mem
    rw [advances.extended.layerAt old]
    obtain ⟨entries, journal, -⟩ := advances.extended
    refine ⟨?_, fine⟩
    rw [journal, length_append]
    omega

variable (ok : CodesOk host codes marks st)

include ok

theorem CodesOk.revert (ordered : marks.Pairwise (· ≥ ·)) {index mark : Nat}
    (found : marks[index]? = some mark) :
    CodesOk host codes (marks.drop index) (st.revert mark) := by
  obtain ⟨old, fine⟩ := ok.saved mark (mem_of_getElem? found)
  obtain ⟨valid, length, layers, unwound⟩ := ok.sound.valid.revert old
  refine ⟨⟨valid, ok.sound.cached.of_cache unwound.cache⟩, ?_, ?_, ?_⟩
  · rw [ok.sound.valid.layer_revert old]
    exact fine
  · rw [unwound.committed]
    exact ok.committed
  · intro other mem
    have below := le_of_mem_drop ordered found mem
    rw [length, layers other below]
    exact ⟨below, (ok.saved other (mem_of_mem_drop mem)).2⟩

theorem CodesOk.starts (starts : Starts st next) : CodesOk host codes [] next where
  sound := ⟨starts.valid, starts.cached ok.sound.cached⟩
  layer addr acct found := by
    rw [starts.layer] at found
    cases found
  committed := by
    rw [starts.committed]
    exact ok.committed
  saved mark mem := absurd mem not_mem_nil

theorem CodesOk.incorporates (incorporates : Incorporates st next) :
    CodesOk host codes marks next where
  sound := ⟨incorporates.valid ok.sound.valid, incorporates.cached ok.sound.cached⟩
  layer := by
    rw [incorporates.layer]
    exact ok.layer
  committed addr acct found := by
    rw [incorporates.accts] at found
    cases written : (st.layer.accts addr).acct with
    | some own =>
      rw [written] at found
      cases found
      exact ok.layer addr acct written
    | none =>
      rw [written] at found
      exact ok.committed addr acct found
  saved mark mem := by
    obtain ⟨old, fine⟩ := ok.saved mark mem
    obtain ⟨records, eq⟩ := incorporates.rest
    have journal : next.journal = st.journal := by rw [eq]
    rw [layerAt, incorporates.layer, journal]
    exact ⟨old, fine⟩

theorem CodesOk.unwind : CodesOk host codes [] (st.revert 0) := by
  obtain ⟨valid, length, -, unwound⟩ := ok.sound.valid.revert (Nat.zero_le _)
  have layer : (st.revert 0).layer = .blank := by
    have history := valid.history
    rw [length_eq_zero_iff.mp length] at history
    exact history
  refine ⟨⟨valid, ok.sound.cached.of_cache unwound.cache⟩, ?_, ?_, ?_⟩
  · intro addr acct found
    rw [layer] at found
    cases found
  · rw [unwound.committed]
    exact ok.committed
  · exact fun mark mem => absurd mem not_mem_nil

theorem CodesOk.nextTx :
    (st.nextTx.1 = .ok () ∧ CodesOk host codes [] st.nextTx.2 ∧ st.nextTx.2.layer = .blank) ∨
      (st.nextTx.1 = .error .exhausted ∧ st.nextTx.2 = st) := by
  by_cases used : st.epoch = counterMax
  · rw [State.nextTx, if_pos used]
    exact Or.inr ⟨rfl, rfl⟩
  · obtain ⟨answer, starts⟩ := nextTx_spec ok.sound.valid used
    exact Or.inl ⟨answer, ok.starts starts, starts.layer⟩

end State

/-- The codes are in order in the state and at the marks that its user holds. -/
def Overlay.CodesOk (host : Host) (codes : Set Bytes) (o : Overlay) : Prop :=
  o.st.CodesOk host codes o.marks ∧ o.marks.Pairwise (· ≥ ·)

/-- The function calls of a sequence are public. -/
def Op.Public (codes : Set Bytes) : Op → Prop
  | .call function => function.Public codes
  | _ => True

namespace Overlay

theorem codesOk_new (host : Host) (codes : Set Bytes) : CodesOk host codes new := by
  refine ⟨⟨⟨State.valid_new, State.cached_new host.be⟩, ?_, ?_, ?_⟩, Pairwise.nil⟩
  · intro addr acct found
    cases found
  · intro addr acct found
    cases found
  · exact fun mark mem => absurd mem not_mem_nil

variable {o : Overlay} {op : Op}

theorem CodesOk.step (shown : op.Public codes) (ok : CodesOk host codes o) :
    CodesOk host codes (o.step host op).2 := by
  obtain ⟨ok, ordered⟩ := ok
  cases op with
  | call call =>
    refine ⟨?_, ordered⟩
    exact ((call.codesOk shown).run (fun command state allowed kept =>
      ⟨kept.handle allowed, kept.read command⟩) ok).1
  | logs | tickets | weiDestroyed => exact ⟨ok, ordered⟩
  | mark =>
    refine ⟨{ ok with saved := ?_ }, pairwise_cons.mpr
      ⟨fun mark mem => (ok.saved mark mem).1, ordered⟩⟩
    intro mark mem
    rcases mem_cons.mp mem with rfl | older
    · refine ⟨Nat.le_refl _, ?_⟩
      have here : o.st.layerAt o.st.mark = o.st.layer := o.st.layerAt_length
      exact here ▸ ok.layer
    · exact ok.saved mark older
  | revert index =>
    simp only [step]
    cases found : o.marks[index]? with
    | none => exact ⟨ok, ordered⟩
    | some mark => exact ⟨ok.revert ordered found, ordered.drop⟩
  | commitTx =>
    have merged := ok.incorporates (State.incorporates ok.sound.valid)
    have commit : o.st.commitTx = (o.st.commitAll o.st.touched).nextTx := rfl
    simp only [step]
    rw [commit]
    rcases merged.nextTx with ⟨answer, started, -⟩ | ⟨answer, kept⟩
    · generalize (o.st.commitAll o.st.touched).nextTx = outcome at answer started
      obtain ⟨result, next⟩ := outcome
      cases answer
      exact ⟨started, Pairwise.nil⟩
    · generalize (o.st.commitAll o.st.touched).nextTx = outcome at answer kept
      obtain ⟨result, next⟩ := outcome
      cases answer
      cases kept
      exact ⟨merged, ordered⟩
  | abortTx =>
    refine ⟨?_, Pairwise.nil⟩
    have unwound := ok.unwind
    rcases unwound.nextTx with ⟨-, started, -⟩ | ⟨-, kept⟩
    · exact started
    · have eq : (o.step host .abortTx).2.st = o.st.revert 0 := kept
      rw [eq]
      exact unwound

theorem CodesOk.after {ops : List Op} (shown : ∀ op ∈ ops, op.Public codes)
    (ok : CodesOk host codes o) : CodesOk host codes (after (Overlay.step host) ops o) := by
  induction ops generalizing o with
  | nil => exact ok
  | cons op ops ih =>
    apply ih fun other mem => shown other (mem_cons_of_mem _ mem)
    exact ok.step (shown op mem_cons_self)

theorem CodesOk.ended (ends : op.ends = true) (ok : CodesOk host codes o)
    (done : ¬ (o.step host op).1.Exhausted) : (o.step host op).2.st.layer = .blank := by
  obtain ⟨ok, -⟩ := ok
  cases op with
  | commitTx =>
    have merged := ok.incorporates (State.incorporates ok.sound.valid)
    have commit : o.st.commitTx = (o.st.commitAll o.st.touched).nextTx := rfl
    simp only [Overlay.step] at done ⊢
    rw [commit] at done ⊢
    rcases merged.nextTx with ⟨answer, -, blank⟩ | ⟨answer, -⟩
    · generalize (o.st.commitAll o.st.touched).nextTx = outcome at answer blank
      obtain ⟨result, next⟩ := outcome
      cases answer
      exact blank
    · generalize (o.st.commitAll o.st.touched).nextTx = outcome at answer done
      obtain ⟨result, next⟩ := outcome
      cases answer
      exact absurd rfl done
  | abortTx =>
    rcases ok.unwind.nextTx with ⟨-, -, blank⟩ | ⟨answer, -⟩
    · exact blank
    · exact absurd answer done
  | _ => cases ends

end Overlay

end DnaLedger.Evm
