import DnaLedger.Cmt.SignBytes
import DnaLedger.Foundation.Slot
import Mathlib.Data.Prod.Lex

/-!
# The signer

Model of `cmt_privval.c`, which stands between a validator and its key. The key, the clock and the
file are operations on a host state of any type; they may fail at any call.
-/

namespace DnaLedger.Cmt

open Relation Program

def stepNone : Int8 := 0

def stepPropose : Int8 := 1

def stepPrevote : Int8 := 2

def stepPrecommit : Int8 := 3

structure Hrs where
  height : Int64
  round : Int32
  step : Int8
  deriving DecidableEq

/-- Heights come first, then rounds, then steps. -/
def Hrs.key (hrs : Hrs) : Int ×ₗ Int ×ₗ Int :=
  toLex (hrs.height.toInt, toLex (hrs.round.toInt, hrs.step.toInt))

theorem Hrs.key_injective : Function.Injective Hrs.key := by
  intro first second eq
  cases first with
  | mk height round step =>
    cases second with
    | mk otherHeight otherRound otherStep =>
      simp only [Hrs.key, toLex_inj, Prod.mk.injEq, Int64.toInt_inj, Int32.toInt_inj,
        Int8.toInt_inj] at eq
      obtain ⟨rfl, rfl, rfl⟩ := eq
      rfl

instance linearOrderHrs : LinearOrder Hrs :=
  LinearOrder.lift' Hrs.key Hrs.key_injective

theorem Hrs.lt_iff {first second : Hrs} :
    first < second ↔ first.height < second.height ∨ first.height = second.height ∧
      (first.round < second.round ∨ first.round = second.round ∧ first.step < second.step) := by
  change first.key < second.key ↔ _
  simp [Hrs.key, Prod.Lex.toLex_lt_toLex, Int64.lt_iff_toInt_lt, Int32.lt_iff_toInt_lt,
    Int8.lt_iff_toInt_lt, Int64.toInt_inj, Int32.toInt_inj]

/-- `cmt_lss_t` -/
structure LastSignState where
  height : Int64
  round : Int32
  step : Int8
  signature : Option Bytes
  signBytes : Option Bytes
  deriving DecidableEq

def LastSignState.reset : LastSignState :=
  ⟨0, 0, stepNone, none, none⟩

def LastSignState.hrs (lss : LastSignState) : Hrs :=
  ⟨lss.height, lss.round, lss.step⟩

def voteToStep (vote : Vote) : Except Failure Int8 :=
  if vote.type = prevoteType then .ok stepPrevote
  else if vote.type = precommitType then .ok stepPrecommit
  else .error .fault

/-- Whether this is the height, round and step signed last, unless it goes back. -/
def LastSignState.checkHrs (lss : LastSignState) (height : Int64) (round : Int32)
    (step : Int8) : Except Failure Bool :=
  if lss.height > height then .error .reject
  else if lss.height = height then
    if lss.round > round then .error .reject
    else if lss.round = round then
      if lss.step > step then .error .reject
      else if lss.step = step then
        if lss.signBytes.isSome then
          if !lss.signature.isSome then .error .fault else .ok true
        else .error .reject
      else .ok false
    else .ok false
  else .ok false

/-- The callbacks of `cmt_file_pv_t`. -/
structure SignerHost (σ : Type) where
  rawSign : Bytes → Program σ Bytes
  saveLastSignState : LastSignState → Program σ Unit
  now : Program σ Time

/-- `cmt_file_pv_t`, with the state of the host behind the callbacks. -/
structure FilePv (σ : Type) where
  lastSignState : LastSignState
  hostState : σ

variable {σ : Type}

def onHost {α : Type} (operation : Program σ α) : Program (FilePv σ) α :=
  ExceptT.mk fun pv =>
    let (outcome, hostState) := operation.exec pv.hostState
    (outcome, { pv with hostState })

/-- Call the host where every failure counts as a fault. -/
def orFault {α : Type} (program : Program (FilePv σ) α) : Program (FilePv σ) α :=
  tryCatch program fun _ => throw .fault

section

variable (host : SignerHost σ)

/-- The memory is written before the host is asked to save it. -/
def saveSigned (hrs : Hrs) (signBytes signature : Bytes) : Program (FilePv σ) Unit :=
  if signBytesMax < signBytes.length ∨ maxSignatureSize < signature.length then throw .reject
  else do
    let lastSignState := ⟨hrs.height, hrs.round, hrs.step, some signature, some signBytes⟩
    modify fun pv => { pv with lastSignState }
    orFault (onHost (host.saveLastSignState lastSignState))

/-- The time of the last message, and whether the two are equal up to it. What does not decode is a
defect of the node's own state. -/
def onlyDifferByTimestamp {μ : Type} [DecidableEq μ] (decode : Bytes → Option μ)
    (timestamp : μ → Time) (retime : Time → μ → μ) (lastSignBytes newSignBytes : Bytes)
    (now : Time) : Except Failure (Time × Bool) :=
  match decode lastSignBytes, decode newSignBytes with
  | some lastMessage, some newMessage =>
    .ok (timestamp lastMessage, decide (retime now newMessage = retime now lastMessage))
  | _, _ => .error .fault

def checkVotesOnlyDifferByTimestamp : Bytes → Bytes → Time → Except Failure (Time × Bool) :=
  onlyDifferByTimestamp decodeVote CanonicalVote.timestamp
    fun timestamp vote => { vote with timestamp }

def checkProposalsOnlyDifferByTimestamp : Bytes → Bytes → Time → Except Failure (Time × Bool) :=
  onlyDifferByTimestamp decodeProposal CanonicalProposal.timestamp
    fun timestamp proposal => { proposal with timestamp }

/-- A signature that was given before, with the time for the message when it is not its own. -/
structure Reused where
  timestamp : Option Time
  signature : Bytes

/-- The branch for the height, round and step signed last; no result is a conflict. -/
def reuseSignature
    (check : Bytes → Bytes → Time → Except Failure (Time × Bool)) (lss : LastSignState)
    (signBytes : Bytes) : Program (FilePv σ) (Option Reused) :=
  if lss.signBytes = some signBytes then
    return some ⟨none, lss.signature.getD []⟩
  else do
    let now ← orFault (onHost host.now)
    let (timestamp, onlyTimestamp) ← check (lss.signBytes.getD []) signBytes now
    return if onlyTimestamp then some ⟨some timestamp, lss.signature.getD []⟩ else none

/-- The branch for a later height, round and step. -/
def signAndSave (hrs : Hrs) (signBytes : Bytes) :
    Program (FilePv σ) Bytes := do
  let signature ← onHost (host.rawSign signBytes)
  if maxSignatureSize < signature.length then throw .fault
  else
    saveSigned host hrs signBytes signature
    return signature

/-- The signature over the extension, made anew for every precommit of a block; no other vote may
carry an extension. -/
def signExtension (chainId : Bytes) (vote : Vote) : Program (FilePv σ) Bytes :=
  if vote.type = precommitType ∧ !vote.blockId.isZero then do
    let extensionBytes ← voteExtensionSignBytes chainId vote (64 + 11 + vote.extension.length)
    let signature ← onHost (host.rawSign extensionBytes)
    if maxSignatureSize < signature.length then throw .fault else return signature
  else if 0 < vote.extension.length then throw .reject
  else return []

/-- The vote as it is left, with the return code. A conflict is reported after the extension was
signed. -/
def signVote (chainId : Bytes) (vote : Vote) :
    Program (FilePv σ) (Vote × Except Failure Unit) := do
  let step ← voteToStep vote
  let lss := (← get).lastSignState
  let sameHrs ← lss.checkHrs vote.height vote.round step
  let signBytes ← voteSignBytes chainId vote
  let extensionSignature ← signExtension host chainId vote
  if sameHrs then
    match ← reuseSignature host checkVotesOnlyDifferByTimestamp lss signBytes with
    | some reused =>
      let timestamp := reused.timestamp.getD vote.timestamp
      return ({ vote with timestamp, signature := reused.signature, extensionSignature }, .ok ())
    | none => return ({ vote with extensionSignature }, .error .reject)
  else
    let signature ← signAndSave host ⟨vote.height, vote.round, step⟩ signBytes
    return ({ vote with signature, extensionSignature }, .ok ())

def signProposal (chainId : Bytes) (proposal : Proposal) :
    Program (FilePv σ) Proposal := do
  let lss := (← get).lastSignState
  let sameHrs ← lss.checkHrs proposal.height proposal.round stepPropose
  let signBytes ← proposalSignBytes chainId proposal
  if sameHrs then
    match ← reuseSignature host checkProposalsOnlyDifferByTimestamp lss signBytes with
    | some reused =>
      let timestamp := reused.timestamp.getD proposal.timestamp
      return { proposal with timestamp, signature := reused.signature }
    | none => throw .reject
  else
    let signature ← signAndSave host ⟨proposal.height, proposal.round, stepPropose⟩ signBytes
    return { proposal with signature }

/-- One call of the host that is not a save. -/
def SignerHost.Call (before after : σ) : Prop :=
  (∃ bytes, ((host.rawSign bytes).exec before).2 = after) ∨ (host.now.exec before).2 = after

end

/-- The last-sign state stands as it was, and nothing was saved. -/
structure Untouched (host : SignerHost σ) (before after : FilePv σ) : Prop where
  lastSignState : after.lastSignState = before.lastSignState
  calls : Relation.ReflTransGen host.Call before.hostState after.hostState

variable {host : SignerHost σ} {pv : FilePv σ} {outcome : Except Failure Bytes} {signBytes : Bytes}
variable {hrs : Hrs}

theorem Untouched.refl (pv : FilePv σ) : Untouched host pv pv where
  lastSignState := rfl
  calls := ReflTransGen.refl

theorem Untouched.trans {first second third : FilePv σ} (before : Untouched host first second)
    (after : Untouched host second third) :
    Untouched host first third where
  lastSignState := after.lastSignState.trans before.lastSignState
  calls := before.calls.trans after.calls

@[simp] theorem exec_onHost {α : Type} (operation : Program σ α) (pv : FilePv σ) :
    (onHost operation).exec pv =
      ((operation.exec pv.hostState).1, { pv with hostState := (operation.exec pv.hostState).2 }) :=
  rfl

theorem exec_orFault {α : Type} (program : Program (FilePv σ) α) (pv : FilePv σ) :
    (orFault program).exec pv =
      ((program.exec pv).1.mapError fun _ => .fault, (program.exec pv).2) := by
  rw [orFault, exec_tryCatch]
  rcases program.exec pv with ⟨value | code, next⟩ <;> rfl

theorem untouched_rawSign (bytes : Bytes) {after : FilePv σ}
    (run : (onHost (host.rawSign bytes)).exec pv = (outcome, after)) : Untouched host pv after := by
  rw [exec_onHost] at run
  cases run
  exact ⟨rfl, ReflTransGen.single (Or.inl ⟨bytes, rfl⟩)⟩

theorem untouched_now {after : FilePv σ} {outcome : Except Failure Time}
    (run : (orFault (onHost host.now)).exec pv = (outcome, after)) : Untouched host pv after := by
  rw [exec_orFault, exec_onHost] at run
  cases run
  exact ⟨rfl, ReflTransGen.single (Or.inr rfl)⟩

theorem untouched_signExtension {chainId : Bytes} {vote : Vote} {after : FilePv σ}
    (run : (signExtension host chainId vote).exec pv = (outcome, after)) :
    Untouched host pv after := by
  rw [signExtension] at run
  split at run
  next =>
    rcases exec_check_eq run with ⟨code, -, -, eq⟩ | ⟨bytes, -, run⟩
    · exact eq ▸ .refl after
    · rcases exec_bind_eq run with ⟨code, signed, -⟩ | ⟨signature, next, signed, run⟩
      · exact untouched_rawSign bytes signed
      · have eq : next = after := by
          split at run <;> cases run <;> rfl
        exact eq ▸ untouched_rawSign bytes signed
  next =>
    have eq : pv = after := by
      split at run <;> cases run <;> rfl
    exact eq ▸ .refl pv

theorem exec_reuseSignature {check : Bytes → Bytes → Time → Except Failure (Time × Bool)}
    {lss : LastSignState} {after : FilePv σ} {outcome : Except Failure (Option Reused)}
    (run : (reuseSignature host check lss signBytes).exec pv = (outcome, after)) :
    Untouched host pv after ∧ ∀ reused, outcome = .ok (some reused) →
      reused.signature = lss.signature.getD [] ∧
      (reused.timestamp = none ∧ lss.signBytes = some signBytes ∨
        ∃ timestamp now, reused.timestamp = some timestamp ∧
          check (lss.signBytes.getD []) signBytes now = .ok (timestamp, true)) := by
  rw [reuseSignature] at run
  split at run
  next eq =>
    cases run
    refine ⟨.refl pv, ?_⟩
    intro reused given
    cases given
    exact ⟨rfl, Or.inl ⟨rfl, eq⟩⟩
  next =>
    rcases exec_bind_eq run with ⟨code, failed, outcome⟩ | ⟨now, next, read, run⟩
    · refine ⟨untouched_now failed, ?_⟩
      intro reused given
      rw [outcome] at given
      cases given
    · rcases exec_check_eq run with ⟨code, -, outcome, eq⟩ | ⟨compared, fine, run⟩
      · refine ⟨eq ▸ untouched_now read, ?_⟩
        intro reused given
        rw [outcome] at given
        cases given
      · cases compared with
        | mk timestamp onlyTimestamp =>
          cases run
          refine ⟨untouched_now read, ?_⟩
          intro reused given
          cases onlyTimestamp with
          | false => cases given
          | true =>
            cases given
            exact ⟨rfl, Or.inr ⟨timestamp, now, rfl, fine⟩⟩

/-- The signer moved to another height, round and step and asked the host to save them. -/
structure Saves (host : SignerHost σ) (hrs : Hrs) (signBytes signature : Bytes)
    (before after : FilePv σ) (saved : Except Failure Unit) : Prop where
  lastSignState : after.lastSignState =
    ⟨hrs.height, hrs.round, hrs.step, some signature, some signBytes⟩
  save : ∃ middle, ReflTransGen host.Call before.hostState middle ∧
    (host.saveLastSignState after.lastSignState).exec middle = (saved, after.hostState)

theorem Saves.after {signature : Bytes} {first before after : FilePv σ}
    {saved : Except Failure Unit} (saves : Saves host hrs signBytes signature before after saved)
    (untouched : Untouched host first before) :
    Saves host hrs signBytes signature first after saved where
  lastSignState := saves.lastSignState
  save := by
    obtain ⟨middle, calls, save⟩ := saves.save
    exact ⟨middle, untouched.calls.trans calls, save⟩

theorem exec_saveSigned {signature : Bytes} {after : FilePv σ} {outcome : Except Failure Unit}
    (run : (saveSigned host hrs signBytes signature).exec pv = (outcome, after)) :
    after = pv ∧ outcome = .error .reject ∨
      ∃ saved, Saves host hrs signBytes signature pv after saved ∧
        outcome = saved.mapError fun _ => .fault := by
  rw [saveSigned] at run
  split at run
  next =>
    cases run
    exact Or.inl ⟨rfl, rfl⟩
  next =>
    simp only [exec_bind, exec_modify, exec_orFault, exec_onHost] at run
    cases run
    exact Or.inr ⟨_, ⟨rfl, _, ReflTransGen.refl, rfl⟩, rfl⟩

/-- A later request is refused before anything is written, or its signature is in memory with the
outcome of the save. -/
theorem exec_signAndSave {after : FilePv σ}
    (run : (signAndSave host hrs signBytes).exec pv = (outcome, after)) :
    Untouched host pv after ∧ (∃ code, outcome = .error code) ∨
      ∃ signature saved, Saves host hrs signBytes signature pv after saved ∧
        (saved = .ok () ∧ outcome = .ok signature ∨
          (∃ code, saved = .error code) ∧ outcome = .error .fault) := by
  rw [signAndSave] at run
  rcases exec_bind_eq run with ⟨code, failed, outcome⟩ | ⟨signature, next, signed, run⟩
  · exact Or.inl ⟨untouched_rawSign signBytes failed, code, outcome⟩
  · have untouched := untouched_rawSign signBytes signed
    split at run
    next =>
      cases run
      exact Or.inl ⟨untouched, _, rfl⟩
    next =>
      rcases exec_bind_eq run with ⟨code, failed, outcome⟩ | ⟨_, last, done, run⟩
      · rcases exec_saveSigned failed with ⟨eq, -⟩ | ⟨saved, saves, refused⟩
        · exact Or.inl ⟨eq ▸ untouched, code, outcome⟩
        · refine Or.inr ⟨signature, saved, saves.after untouched, Or.inr ?_⟩
          cases saved with
          | ok _ => cases refused
          | error first =>
            cases refused
            exact ⟨⟨first, rfl⟩, outcome⟩
      · cases run
        rcases exec_saveSigned done with ⟨-, refused⟩ | ⟨saved, saves, passed⟩
        · cases refused
        · refine Or.inr ⟨signature, saved, saves.after untouched, Or.inl ⟨?_, rfl⟩⟩
          cases saved with
          | ok _ => rfl
          | error first => cases passed

end DnaLedger.Cmt
