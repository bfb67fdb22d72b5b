import DnaLedger.Cmt.PrivVal

/-!
# No double signing

The last-sign state is a slot under the height, round and step signed last: a request finds its
answer there or moves the slot on. The slot holds the message that the bytes decode to, because a
request that differs from it only in time is given the old signature and the old time.
-/

namespace DnaLedger.Cmt

open Program Slot LastSignState

variable {σ : Type}

inductive Request where
  | vote (chainId : Bytes) (vote : Vote)
  | proposal (chainId : Bytes) (proposal : Proposal)
  deriving DecidableEq

namespace Request

def hrs : Request → Except Failure Hrs
  | .vote _ message =>
    (voteToStep message).map fun step => ⟨message.height, message.round, step⟩
  | .proposal _ message => .ok ⟨message.height, message.round, stepPropose⟩

def signBytes : Request → Except Failure Bytes
  | .vote chainId message => voteSignBytes chainId message
  | .proposal chainId message => proposalSignBytes chainId message

def signature : Request → Bytes
  | .vote _ message => message.signature
  | .proposal _ message => message.signature

/-- Whether the signer would make a new signature for this request. -/
def isFresh (request : Request) (lss : LastSignState) : Bool :=
  match request.hrs with
  | .ok hrs => lss.checkHrs hrs.height hrs.round hrs.step = .ok false
  | .error _ => false

end Request

/-- Serve a request and return the message as it was signed. -/
def sign (host : SignerHost σ) : Request → Program (FilePv σ) Request
  | .vote chainId vote => do
      let (vote, code) ← signVote host chainId vote
      code
      return .vote chainId vote
  | .proposal chainId proposal => do
      let proposal ← signProposal host chainId proposal
      return .proposal chainId proposal

/-! ## One request -/

/-- The sign bytes of the message that the last-sign state decodes to. -/
def LastSignState.content (lss : LastSignState) : Option Bytes :=
  lss.signBytes.bind fun bytes =>
    if lss.step = stepPropose then
      (decodeProposal bytes).map fun proposal => delimited proposal.encode
    else (decodeVote bytes).map fun vote => delimited vote.encode

/-- Everything that serving a request can do. -/
inductive Signs (host : SignerHost σ) (request : Request) (before after : FilePv σ) :
    Except Failure Request → Prop where
  | refused {code : Failure} (untouched : Untouched host before after) :
      Signs host request before after (.error code)
  | reused {result : Request} {bytes : Bytes} (untouched : Untouched host before after)
      (same : request.isFresh before.lastSignState = false)
      (hrs : result.hrs = .ok before.lastSignState.hrs)
      (content : before.lastSignState.content = some bytes)
      (signature : before.lastSignState.signature = some result.signature)
      (signBytes : result.signBytes = .ok bytes) :
      Signs host request before after (.ok result)
  | unsaved {hrs : Hrs} {bytes signature : Bytes} {code : Failure}
      (later : before.lastSignState.hrs < hrs)
      (saves : Saves host hrs bytes signature before after (.error code)) :
      Signs host request before after (.error .fault)
  | signed {hrs : Hrs} {bytes : Bytes} {result : Request}
      (later : before.lastSignState.hrs < hrs)
      (saves : Saves host hrs bytes result.signature before after (.ok ()))
      (resultHrs : result.hrs = .ok hrs) (content : after.lastSignState.content = some bytes)
      (signBytes : result.signBytes = .ok bytes) :
      Signs host request before after (.ok result)

variable {lss : LastSignState} {step : Int8}
variable {height : Int64} {round : Int32} {extensionSignature signature : Bytes} {reused : Reused}
variable {before : FilePv σ}

/-- The check lets the last height, round and step through only when its signature is
there. -/
theorem LastSignState.checkHrs_eq_true (fine : lss.checkHrs height round step = .ok true) :
    lss.hrs = ⟨height, round, step⟩ ∧ (∃ bytes, lss.signBytes = some bytes) ∧
      ∃ signature, lss.signature = some signature := by
  rw [← Option.isSome_iff_exists, ← Option.isSome_iff_exists, hrs]
  unfold checkHrs at fine
  grind

theorem LastSignState.checkHrs_eq_false (fine : lss.checkHrs height round step = .ok false) :
    lss.hrs < ⟨height, round, step⟩ := by
  rw [Hrs.lt_iff, hrs]
  unfold checkHrs at fine
  grind

variable {lastSignBytes : Bytes} {now time : Time}

theorem onlyDifferByTimestamp_eq_true {μ : Type} [DecidableEq μ] {decode : Bytes → Option μ}
    {timestamp : μ → Time} {retime : Time → μ → μ} {newSignBytes : Bytes}
    (fine : onlyDifferByTimestamp decode timestamp retime lastSignBytes newSignBytes now = .ok
      (time, true)) :
    ∃ lastMessage newMessage, decode lastSignBytes = some lastMessage ∧
      decode newSignBytes = some newMessage ∧ timestamp lastMessage = time ∧
      retime now newMessage = retime now lastMessage := by
  unfold onlyDifferByTimestamp at fine
  split at fine
  next lastMessage newMessage lastDecoded newDecoded =>
    obtain ⟨sameTime, sameMessage⟩ := Prod.mk.inj (Except.ok.inj fine)
    exact ⟨lastMessage, newMessage, lastDecoded, newDecoded, sameTime,
      of_decide_eq_true sameMessage⟩
  next => cases fine

variable {chainId bytes : Bytes} {vote : Vote}

/-- A vote that differs from the last one only in time is the last one, given its time. -/
theorem voteSignBytes_retimed (signed : voteSignBytes chainId vote = .ok bytes)
    (fine : checkVotesOnlyDifferByTimestamp lastSignBytes bytes now = .ok (time, true)) :
    ∃ last, decodeVote lastSignBytes = some last ∧
      voteSignBytes chainId { vote with timestamp := time } = .ok (delimited last.encode) := by
  obtain ⟨last, new, lastDecoded, newDecoded, rfl, eq⟩ := onlyDifferByTimestamp_eq_true fine
  rw [decodeVote_voteSignBytes signed] at newDecoded
  have canon : canonicalVote chainId { vote with timestamp := last.timestamp } = last := by
    cases last with
    | mk type height round blockId timestamp lastChainId =>
      cases newDecoded
      simp only [canonicalVote, CanonicalVote.mk.injEq] at eq ⊢
      exact eq
  refine ⟨last, lastDecoded, voteSignBytes_eq_ok.mpr ⟨?_, by rw [canon]⟩⟩
  obtain ⟨signable, -⟩ := voteSignBytes_eq_ok.mp signed
  exact ⟨signable.valid, decodeVote_timely lastDecoded, signable.fits⟩

variable {proposal : Proposal}

theorem proposalSignBytes_retimed (signed : proposalSignBytes chainId proposal = .ok bytes)
    (fine : checkProposalsOnlyDifferByTimestamp lastSignBytes bytes now = .ok (time, true)) :
    ∃ last, decodeProposal lastSignBytes = some last ∧
      proposalSignBytes chainId { proposal with timestamp := time } =
        .ok (delimited last.encode) := by
  obtain ⟨last, new, lastDecoded, newDecoded, rfl, eq⟩ := onlyDifferByTimestamp_eq_true fine
  rw [decodeProposal_proposalSignBytes signed] at newDecoded
  have canon :
      canonicalProposal chainId { proposal with timestamp := last.timestamp } = last := by
    cases last with
    | mk type height round polRound blockId timestamp lastChainId =>
      cases newDecoded
      simp only [canonicalProposal, CanonicalProposal.mk.injEq] at eq ⊢
      exact eq
  refine ⟨last, lastDecoded, proposalSignBytes_eq_ok.mpr ⟨?_, by rw [canon]⟩⟩
  obtain ⟨signable, -⟩ := proposalSignBytes_eq_ok.mp signed
  exact ⟨signable.valid, decodeProposal_timely lastDecoded, signable.fits⟩

theorem voteToStep_ne_propose (found : voteToStep vote = .ok step) : step ≠ stepPropose := by
  unfold voteToStep at found
  split at found
  next =>
    cases found
    decide
  next =>
    split at found
    next =>
      cases found
      decide
    next => cases found

theorem LastSignState.content_of_vote {vote : CanonicalVote} (step : lss.step ≠ stepPropose)
    (held : lss.signBytes = some bytes) (read : decodeVote bytes = some vote) :
    lss.content = some (delimited vote.encode) := by
  simp [content, held, step, read]

theorem LastSignState.content_of_proposal {proposal : CanonicalProposal}
    (step : lss.step = stepPropose) (held : lss.signBytes = some bytes)
    (read : decodeProposal bytes = some proposal) :
    lss.content = some (delimited proposal.encode) := by
  simp [content, held, step, read]

theorem Request.hrs_vote (chainId : Bytes) (stepped : voteToStep vote = .ok step) :
    (Request.vote chainId vote).hrs = .ok ⟨vote.height, vote.round, step⟩ := by
  rw [Request.hrs, stepped]
  rfl

variable {host : SignerHost σ} {pv after : FilePv σ}

/-- Both kinds of message are returned with the old signature in one way. -/
theorem signs_reused {request result : Request} {hrs : Hrs} (untouched : Untouched host pv after)
    (asked : request.hrs = .ok hrs) (resultHrs : result.hrs = .ok hrs)
    (fine : pv.lastSignState.checkHrs hrs.height hrs.round hrs.step = .ok true)
    (signature : result.signature = pv.lastSignState.signature.getD [])
    (holds : ∀ last, pv.lastSignState.signBytes = some last → pv.lastSignState.step = hrs.step →
      ∃ bytes, pv.lastSignState.content = some bytes ∧ result.signBytes = .ok bytes) :
    Signs host request pv after (.ok result) := by
  obtain ⟨eq, ⟨last, held⟩, given, there⟩ := checkHrs_eq_true fine
  obtain ⟨bytes, content, signBytes⟩ := holds last held (congrArg Hrs.step eq)
  have stale : request.isFresh pv.lastSignState = false := by
    simp [Request.isFresh, asked, fine]
  refine .reused untouched stale ?_ content ?_ signBytes
  · rw [eq]
    exact resultHrs
  · rw [signature, there]
    rfl

theorem signs_reused_vote (untouched : Untouched host pv after)
    (stepped : voteToStep vote = .ok step)
    (fine : pv.lastSignState.checkHrs vote.height vote.round step = .ok true)
    (signed : voteSignBytes chainId vote = .ok bytes)
    (signature : reused.signature = pv.lastSignState.signature.getD [])
    (source : reused.timestamp = none ∧ pv.lastSignState.signBytes = some bytes ∨ ∃ timestamp now,
      reused.timestamp = some timestamp ∧ checkVotesOnlyDifferByTimestamp
      (pv.lastSignState.signBytes.getD []) bytes now = .ok (timestamp, true)) :
    Signs host (.vote chainId vote) pv after (.ok (.vote chainId
      { vote with
        timestamp := reused.timestamp.getD vote.timestamp
        signature := reused.signature
        extensionSignature })) := by
  refine signs_reused untouched (Request.hrs_vote chainId stepped)
    (Request.hrs_vote chainId stepped) fine signature ?_
  intro last held eq
  have notPropose : pv.lastSignState.step ≠ stepPropose := by
    rw [eq]
    exact voteToStep_ne_propose stepped
  have retimed : ∃ message, decodeVote last = some message ∧
      voteSignBytes chainId { vote with timestamp := reused.timestamp.getD vote.timestamp } =
        .ok (delimited message.encode) := by
    rcases source with ⟨own, eq⟩ | ⟨timestamp, now, old, check⟩
    · rw [held] at eq
      cases eq
      rw [own]
      exact ⟨_, decodeVote_voteSignBytes signed, by
        rw [← (voteSignBytes_eq_ok.mp signed).2]
        exact signed⟩
    · rw [held] at check
      rw [old]
      exact voteSignBytes_retimed signed check
  obtain ⟨message, read, signBytes⟩ := retimed
  exact ⟨_, content_of_vote notPropose held read, signBytes⟩

theorem signs_signed_vote (stepped : voteToStep vote = .ok step)
    (fine : pv.lastSignState.checkHrs vote.height vote.round step = .ok false)
    (signed : voteSignBytes chainId vote = .ok bytes)
    (saves : Saves host ⟨vote.height, vote.round, step⟩ bytes signature pv after (.ok ())) :
    Signs host (.vote chainId vote) pv after
      (.ok (.vote chainId { vote with signature, extensionSignature })) := by
  have held : after.lastSignState.signBytes = some bytes := by
    rw [saves.lastSignState]
  have notPropose : after.lastSignState.step ≠ stepPropose := by
    rw [saves.lastSignState]
    exact voteToStep_ne_propose stepped
  refine .signed (checkHrs_eq_false fine) saves
    (Request.hrs_vote chainId stepped) ?_ signed
  have read := decodeVote_voteSignBytes signed
  rw [(voteSignBytes_eq_ok.mp signed).2] at held read ⊢
  exact content_of_vote notPropose held read

variable {request : Request} {outcome : Except Failure Request}

/-- Both kinds of message are signed anew in one way; only what is returned differs. -/
theorem signs_of_signAndSave {start : FilePv σ} {hrs : Hrs} {result : Bytes → Request}
    (untouched : Untouched host start pv) (later : start.lastSignState.hrs < hrs)
    (signed : ∀ {signature}, Saves host hrs bytes signature start after (.ok ()) →
      Signs host request start after (.ok (result signature)))
    (run : (signAndSave host hrs bytes >>= fun signature => pure (result signature)).exec pv =
      (outcome, after)) :
    Signs host request start after outcome := by
  rcases exec_bind_eq run with ⟨code, save, rfl⟩ | ⟨signature, last, save, run⟩
  · rcases exec_signAndSave save with ⟨kept, -⟩ | ⟨signature, saved, saves, given | failed⟩
    · exact .refused (untouched.trans kept)
    · cases given.2
    · obtain ⟨⟨first, rfl⟩, eq⟩ := failed
      cases eq
      exact .unsaved later (saves.after untouched)
  · cases run
    rcases exec_signAndSave save with ⟨-, code, refused⟩ | ⟨other, saved, saves, given | failed⟩
    · cases refused
    · obtain ⟨rfl, eq⟩ := given
      cases eq
      exact signed (saves.after untouched)
    · cases failed.2

theorem exec_sign_vote (run : (sign host (.vote chainId vote)).exec pv = (outcome, after)) :
    Signs host (.vote chainId vote) pv after outcome := by
  rw [sign, signVote] at run
  simp only [bind_assoc] at run
  rcases exec_check_eq run with ⟨code, -, rfl, rfl⟩ | ⟨step, stepped, run⟩
  · exact .refused (.refl _)
  rw [exec_bind, exec_get] at run
  rcases exec_check_eq run with ⟨code, -, rfl, rfl⟩ | ⟨eq, fine, run⟩
  · exact .refused (.refl _)
  rcases exec_check_eq run with ⟨code, -, rfl, rfl⟩ | ⟨bytes, signed, run⟩
  · exact .refused (.refl _)
  rcases exec_bind_eq run with ⟨code, extended, rfl⟩ | ⟨extension, next, extended, run⟩
  · exact .refused (untouched_signExtension extended)
  have untouched := untouched_signExtension extended
  cases eq with
  | true =>
    simp only [↓reduceIte, bind_assoc] at run
    rcases exec_bind_eq run with ⟨code, reuse, rfl⟩ | ⟨reused, last, reuse, run⟩
    · exact .refused (untouched.trans (exec_reuseSignature reuse).1)
    obtain ⟨kept, source⟩ := exec_reuseSignature reuse
    cases reused with
    | none =>
      cases run
      exact .refused (untouched.trans kept)
    | some reused =>
      cases run
      obtain ⟨signature, origin⟩ := source reused rfl
      exact signs_reused_vote (untouched.trans kept) stepped fine signed signature origin
  | false =>
    simp only [Bool.false_eq_true, ↓reduceIte, bind_assoc] at run
    exact signs_of_signAndSave untouched (checkHrs_eq_false fine)
      (signs_signed_vote stepped fine signed) run

theorem signs_reused_proposal (untouched : Untouched host pv after)
    (fine : pv.lastSignState.checkHrs proposal.height proposal.round stepPropose = .ok true)
    (signed : proposalSignBytes chainId proposal = .ok bytes)
    (signature : reused.signature = pv.lastSignState.signature.getD [])
    (source : reused.timestamp = none ∧ pv.lastSignState.signBytes = some bytes ∨ ∃ timestamp now,
      reused.timestamp = some timestamp ∧ checkProposalsOnlyDifferByTimestamp
      (pv.lastSignState.signBytes.getD []) bytes now = .ok (timestamp, true)) :
    Signs host (.proposal chainId proposal) pv after (.ok (.proposal chainId
      { proposal with
        timestamp := reused.timestamp.getD proposal.timestamp
        signature := reused.signature })) := by
  refine signs_reused untouched rfl rfl fine signature ?_
  intro last held propose
  have retimed : ∃ message, decodeProposal last = some message ∧
      proposalSignBytes chainId
        { proposal with timestamp := reused.timestamp.getD proposal.timestamp } =
          .ok (delimited message.encode) := by
    rcases source with ⟨own, eq⟩ | ⟨timestamp, now, old, check⟩
    · rw [held] at eq
      cases eq
      rw [own]
      exact ⟨_, decodeProposal_proposalSignBytes signed, by
        rw [← (proposalSignBytes_eq_ok.mp signed).2]
        exact signed⟩
    · rw [held] at check
      rw [old]
      exact proposalSignBytes_retimed signed check
  obtain ⟨message, read, signBytes⟩ := retimed
  exact ⟨_, content_of_proposal propose held read, signBytes⟩

theorem signs_signed_proposal
    (fine : pv.lastSignState.checkHrs proposal.height proposal.round stepPropose = .ok false)
    (signed : proposalSignBytes chainId proposal = .ok bytes)
    (saves : Saves host ⟨proposal.height, proposal.round, stepPropose⟩ bytes signature pv after
      (.ok ())) :
    Signs host (.proposal chainId proposal) pv after
      (.ok (.proposal chainId { proposal with signature })) := by
  have held : after.lastSignState.signBytes = some bytes := by
    rw [saves.lastSignState]
  have propose : after.lastSignState.step = stepPropose := by
    rw [saves.lastSignState]
  refine .signed (checkHrs_eq_false fine) saves rfl ?_ signed
  have read := decodeProposal_proposalSignBytes signed
  rw [(proposalSignBytes_eq_ok.mp signed).2] at held read ⊢
  exact content_of_proposal propose held read

theorem exec_sign_proposal
    (run : (sign host (.proposal chainId proposal)).exec pv = (outcome, after)) :
    Signs host (.proposal chainId proposal) pv after outcome := by
  rw [sign, signProposal] at run
  simp only [bind_assoc] at run
  rw [exec_bind, exec_get] at run
  rcases exec_check_eq run with ⟨code, -, rfl, rfl⟩ | ⟨eq, fine, run⟩
  · exact .refused (.refl _)
  rcases exec_check_eq run with ⟨code, -, rfl, rfl⟩ | ⟨bytes, signed, run⟩
  · exact .refused (.refl _)
  cases eq with
  | true =>
    simp only [↓reduceIte, bind_assoc] at run
    rcases exec_bind_eq run with ⟨code, reuse, rfl⟩ | ⟨reused, last, reuse, run⟩
    · exact .refused (exec_reuseSignature reuse).1
    obtain ⟨kept, source⟩ := exec_reuseSignature reuse
    cases reused with
    | none =>
      cases run
      exact .refused kept
    | some reused =>
      cases run
      obtain ⟨signature, origin⟩ := source reused rfl
      exact signs_reused_proposal kept fine signed signature origin
  | false =>
    simp only [Bool.false_eq_true, ↓reduceIte, bind_assoc] at run
    exact signs_of_signAndSave (.refl _) (checkHrs_eq_false fine)
      (signs_signed_proposal fine signed) run

theorem exec_sign (run : (sign host request).exec pv = (outcome, after)) :
    Signs host request pv after outcome := by
  cases request with
  | vote chainId vote => exact exec_sign_vote run
  | proposal chainId proposal => exact exec_sign_proposal run

/-- A message that was returned with its signature, and whether it was signed anew. -/
structure Returned where
  message : Request
  fresh : Bool

/-- Serve requests one after the other, whatever became of the ones before. -/
def signAll (host : SignerHost σ) : List Request → FilePv σ → List Returned × FilePv σ
  | [], pv => ([], pv)
  | request :: requests, pv =>
    match (sign host request).exec pv with
    | (.ok message, next) =>
      let (returned, last) := signAll host requests next
      (⟨message, request.isFresh pv.lastSignState⟩ :: returned, last)
    | (.error _, next) => signAll host requests next

/-- The message the signer holds and its signature, under their height, round and step. -/
def LastSignState.slot (lss : LastSignState) : Slot Hrs (Option Bytes × Option Bytes) :=
  ⟨lss.hrs, lss.content, lss.signature⟩

/-- A returned message reads as this answer of the slot. -/
structure Returned.Reads (returned : Returned)
    (answer : Answer Hrs (Option Bytes × Option Bytes)) : Prop where
  hrs : returned.message.hrs = .ok answer.key
  signBytes : ∃ bytes, returned.message.signBytes = .ok bytes ∧ answer.value.1 = some bytes
  signature : answer.value.2 = some returned.message.signature
  fresh : answer.fresh = returned.fresh

theorem Signs.step_error {code : Failure} (signs : Signs host request before after (.error code)) :
    Step before.lastSignState.slot after.lastSignState.slot none := by
  cases signs with
  | refused untouched =>
    rw [untouched.lastSignState]
    exact Step.refl _
  | unsaved later saves =>
    refine ⟨Or.inr ?_, by simp, by simp⟩
    rw [saves.lastSignState]
    exact later

theorem Signs.step_ok {message : Request} (signs : Signs host request before after (.ok message)) :
    ∃ answer, Step before.lastSignState.slot after.lastSignState.slot (some answer) ∧
      (Returned.mk message (request.isFresh before.lastSignState)).Reads answer := by
  cases signs with
  | @reused _ bytes untouched eq hrs content signature signBytes =>
    refine ⟨⟨before.lastSignState.hrs, (some bytes, some message.signature), false⟩,
      ⟨?_, ?_, by simp⟩, hrs, ⟨bytes, signBytes, rfl⟩, rfl, eq.symm⟩
    · exact Or.inl (by rw [untouched.lastSignState])
    · rintro _ ⟨⟩
      rw [untouched.lastSignState, slot, content, signature]
      exact ⟨rfl, rfl⟩
  | @signed hrs bytes _ later saves resultHrs content signBytes =>
    have moved : after.lastSignState.hrs = hrs := by
      rw [saves.lastSignState]
      rfl
    have forward : before.lastSignState.slot.key < after.lastSignState.slot.key := by
      rw [slot, slot, moved]
      exact later
    refine ⟨⟨hrs, (some bytes, some message.signature), _⟩,
      ⟨Or.inr forward, ?_, fun _ _ _ => forward⟩, resultHrs, ⟨bytes, signBytes, rfl⟩, rfl, rfl⟩
    rintro _ ⟨⟩
    rw [slot, content, moved, saves.lastSignState]
    exact ⟨rfl, rfl⟩

theorem signAll_run (host : SignerHost σ) (requests : List Request) (pv : FilePv σ) :
    Run Returned.Reads pv.lastSignState.slot (signAll host requests pv).1
      (signAll host requests pv).2.lastSignState.slot := by
  induction requests generalizing pv with
  | nil => exact .nil _
  | cons request requests ih =>
    rcases served : (sign host request).exec pv with ⟨code | message, next⟩
    · simpa [signAll, served] using Run.silent (exec_sign served).step_error (ih next)
    · obtain ⟨answer, step, reads⟩ := (exec_sign served).step_ok
      simpa [signAll, served] using Run.answered step reads (ih next)

theorem Returned.Reads.agree {first second : Returned}
    {firstAnswer secondAnswer : Answer Hrs (Option Bytes × Option Bytes)}
    (firstReads : first.Reads firstAnswer) (secondReads : second.Reads secondAnswer)
    (eq : firstAnswer.value = secondAnswer.value) :
    first.message.signature = second.message.signature ∧
      ∃ bytes, first.message.signBytes = .ok bytes ∧ second.message.signBytes = .ok bytes := by
  obtain ⟨firstBytes, firstSigned, firstValue⟩ := firstReads.signBytes
  obtain ⟨secondBytes, secondSigned, secondValue⟩ := secondReads.signBytes
  have signature := firstReads.signature
  rw [eq] at firstValue signature
  rw [secondValue] at firstValue
  rw [secondReads.signature] at signature
  have sameBytes := Option.some.inj firstValue
  exact ⟨(Option.some.inj signature).symm, firstBytes, firstSigned, sameBytes ▸ secondSigned⟩

/-- Messages of a run of the slot that have one height, round and step are signed
alike. -/
theorem signed_alike {before after : Slot Hrs (Option Bytes × Option Bytes)}
    {returned : List Returned} (run : Run Returned.Reads before returned after) :
    ∀ first ∈ returned, ∀ second ∈ returned, first.message.hrs = second.message.hrs →
      first.message.signature = second.message.signature ∧
      ∃ bytes, first.message.signBytes = .ok bytes ∧ second.message.signBytes = .ok bytes := by
  intro first firstReturned second secondReturned eq
  obtain ⟨firstAnswer, secondAnswer, firstReads, secondReads, agree⟩ :=
    run.agree first firstReturned second secondReturned
  rw [firstReads.hrs, secondReads.hrs] at eq
  exact firstReads.agree secondReads (agree (Except.ok.inj eq))

/-- However the host behaves, the signatures that one process returns for one height,
round and step are the same signature of the same sign bytes, and the signatures it
makes move forward. -/
theorem signAll_never_signs_twice (host : SignerHost σ) (requests : List Request) (pv : FilePv σ) :
    (∀ first ∈ (signAll host requests pv).1, ∀ second ∈ (signAll host requests pv).1,
      first.message.hrs = second.message.hrs →
        first.message.signature = second.message.signature ∧
        ∃ bytes, first.message.signBytes = .ok bytes ∧ second.message.signBytes = .ok bytes) ∧
    ((signAll host requests pv).1.filter fun returned => returned.fresh).Pairwise
      fun first second => ∃ firstHrs secondHrs, first.message.hrs = .ok firstHrs ∧
        second.message.hrs = .ok secondHrs ∧ firstHrs < secondHrs := by
  have run := signAll_run host requests pv
  refine ⟨signed_alike run, ?_⟩
  rw [List.pairwise_filter]
  apply run.increasing.imp
  intro first second increasing firstFresh secondFresh
  obtain ⟨firstAnswer, secondAnswer, firstReads, secondReads, later⟩ := increasing
  exact ⟨_, _, firstReads.hrs, secondReads.hrs, later (secondReads.fresh.trans secondFresh)⟩

/-! ## Restarts -/

/-- The host with a record of its saves: the last saved state, and whether a save has failed. -/
structure Disk (σ : Type) where
  inner : σ
  durable : LastSignState
  saveFailed : Bool

def onInner {α : Type} (operation : Program σ α) : Program (Disk σ) α :=
  ExceptT.mk fun disk =>
    let (outcome, inner) := operation.exec disk.inner
    (outcome, { disk with inner })

def SignerHost.recording (host : SignerHost σ) : SignerHost (Disk σ) where
  rawSign bytes := onInner (host.rawSign bytes)
  saveLastSignState lss := ExceptT.mk fun disk =>
    match (host.saveLastSignState lss).exec disk.inner with
    | (.ok _, inner) => (.ok (), { disk with inner, durable := lss })
    | (.error code, inner) => (.error code, { disk with inner, saveFailed := true })
  now := onInner host.now

/-- A request to a signer, or a restart that finds the host in some state. -/
inductive Event (σ : Type) where
  | request (request : Request)
  | restart (inner : σ)

def Event.isRequest : Event σ → Bool
  | .request _ => true
  | .restart _ => false

/-- A signature that left the signer, with the saved state at that moment. -/
structure Released extends Returned where
  durable : LastSignState

def startFrom (inner : σ) (durable : LastSignState) : FilePv (Disk σ) :=
  ⟨durable, inner, durable, false⟩

def serve (host : SignerHost σ) : Event σ → FilePv (Disk σ) → Option Released × FilePv (Disk σ)
  | .request request, pv =>
    match (sign host.recording request).exec pv with
    | (.ok message, next) =>
      (some ⟨⟨message, request.isFresh pv.lastSignState⟩, next.hostState.durable⟩, next)
    | (.error _, next) => (none, next)
  | .restart inner, pv => (none, startFrom inner pv.hostState.durable)

def serveAll (host : SignerHost σ) :
    List (Event σ) → FilePv (Disk σ) → List Released × FilePv (Disk σ)
  | [], pv => ([], pv)
  | event :: events, pv =>
    let (released, next) := serve host event pv
    let (later, last) := serveAll host events next
    (released.toList ++ later, last)

/-- No request is made after a failed save before the process has been restarted. -/
def Careful (host : SignerHost σ) : List (Event σ) → FilePv (Disk σ) → Prop
  | [], _ => True
  | event :: events, pv =>
    (event.isRequest = true → pv.hostState.saveFailed = false) ∧
      Careful host events (serve host event pv).2

instance decidableCareful (host : SignerHost σ) :
    (events : List (Event σ)) → (pv : FilePv (Disk σ)) → Decidable (Careful host events pv)
  | [], _ => isTrue trivial
  | _ :: events, _ => @instDecidableAnd _ _ _ (decidableCareful host events _)

/-- The saved bytes are the sign bytes of what they decode to, and the memory is what was saved
while no save has failed. -/
structure Sane (pv : FilePv (Disk σ)) : Prop where
  genuine : ∀ bytes, pv.hostState.durable.signBytes = some bytes →
    pv.hostState.durable.content = some bytes
  loaded : pv.hostState.saveFailed = false → pv.lastSignState = pv.hostState.durable

theorem recording_calls {before after : Disk σ}
    (calls : Relation.ReflTransGen host.recording.Call before after) :
    after.durable = before.durable ∧ after.saveFailed = before.saveFailed := by
  induction calls with
  | refl => exact ⟨rfl, rfl⟩
  | tail _ call ih =>
    rcases call with ⟨bytes, rfl⟩ | rfl
    · exact ih
    · exact ih

theorem recording_save {before after : Disk σ} {saved : Except Failure Unit}
    (save : (host.recording.saveLastSignState lss).exec before = (saved, after)) :
    saved = .ok () ∧ after.durable = lss ∧ after.saveFailed = before.saveFailed ∨
      (∃ code, saved = .error code) ∧ after.durable = before.durable ∧
        after.saveFailed = true := by
  change (match (host.saveLastSignState lss).exec before.inner with
    | (.ok _, inner) => (.ok (), { before with inner, durable := lss })
    | (.error code, inner) => (.error code, { before with inner, saveFailed := true })) =
      (saved, after) at save
  split at save
  next =>
    cases save
    exact Or.inl ⟨rfl, rfl, rfl⟩
  next =>
    cases save
    exact Or.inr ⟨⟨_, rfl⟩, rfl, rfl⟩

def Released.Stored (released : Released) : Prop :=
  ∃ hrs bytes, released.message.hrs = .ok hrs ∧ released.message.signBytes = .ok bytes ∧
    released.durable =
      ⟨hrs.height, hrs.round, hrs.step, some released.message.signature, some bytes⟩

section

variable {host : SignerHost σ} {request message : Request} {before after : FilePv (Disk σ)}
  (sane : Sane before) (clean : before.hostState.saveFailed = false)

include sane clean

/-- A request that fails leaves the saved state as it was. -/
theorem Signs.durable_error {code : Failure}
    (signs : Signs host.recording request before after (.error code)) :
    Sane after ∧ after.hostState.durable = before.hostState.durable := by
  cases signs with
  | refused untouched =>
    obtain ⟨durable, saveFailed⟩ := recording_calls untouched.calls
    refine ⟨⟨?_, ?_⟩, durable⟩
    · rw [durable]
      exact sane.genuine
    · intro _
      rw [untouched.lastSignState, durable]
      exact sane.loaded clean
  | unsaved later saves =>
    obtain ⟨middle, calls, save⟩ := saves.save
    rcases recording_save save with ⟨saved, -⟩ | ⟨-, durable, failed⟩
    · cases saved
    · rw [(recording_calls calls).1] at durable
      refine ⟨⟨?_, ?_⟩, durable⟩
      · rw [durable]
        exact sane.genuine
      · intro unfailed
        rw [failed] at unfailed
        cases unfailed

theorem Signs.durable_ok (signs : Signs host.recording request before after (.ok message)) :
    Sane after ∧ after.lastSignState = after.hostState.durable ∧
      Released.Stored ⟨⟨message, request.isFresh before.lastSignState⟩,
        after.hostState.durable⟩ := by
  cases signs with
  | @reused _ bytes untouched eq hrs content signature signBytes =>
    obtain ⟨durable, -⟩ := recording_calls untouched.calls
    have loaded := sane.loaded clean
    have kept : after.lastSignState = after.hostState.durable := by
      rw [untouched.lastSignState, durable]
      exact loaded
    refine ⟨⟨by rw [durable]; exact sane.genuine, fun _ => kept⟩, kept, _, bytes, hrs,
      signBytes, ?_⟩
    rw [durable]
    rw [loaded] at content signature ⊢
    obtain ⟨held, isHeld, -⟩ := Option.bind_eq_some_iff.mp content
    have sameBytes := sane.genuine held isHeld
    rw [content] at sameBytes
    rw [← Option.some.inj sameBytes] at isHeld
    rw [← signature, ← isHeld]
    rfl
  | @signed hrs bytes _ later saves resultHrs content signBytes =>
    obtain ⟨middle, calls, save⟩ := saves.save
    rcases recording_save save with ⟨-, durable, -⟩ | ⟨⟨code, failed⟩, -⟩
    · refine ⟨⟨?_, fun _ => durable.symm⟩, durable.symm, hrs, bytes, resultHrs, signBytes, ?_⟩
      · rw [durable, content, saves.lastSignState]
        intro held eq
        exact eq
      · exact durable.trans saves.lastSignState
    · cases failed

end

/-- While no request follows a failed save, the saved state moves as a slot, and every signature
that leaves is saved. -/
theorem serveAll_run (host : SignerHost σ) (events : List (Event σ)) (pv : FilePv (Disk σ))
    (sane : Sane pv) (careful : Careful host events pv) :
    (∀ released ∈ (serveAll host events pv).1, released.Stored) ∧
    Run Returned.Reads pv.hostState.durable.slot
      ((serveAll host events pv).1.map Released.toReturned)
      (serveAll host events pv).2.hostState.durable.slot := by
  induction events generalizing pv with
  | nil => exact ⟨by simp [serveAll], .nil _⟩
  | cons event events ih =>
    cases event with
    | restart inner =>
      have restarted : Sane (startFrom inner pv.hostState.durable) :=
        ⟨sane.genuine, fun _ => rfl⟩
      have later := ih _ restarted careful.2
      simpa [serveAll, serve, startFrom] using later
    | request request =>
      have clean := careful.1 rfl
      have rest := careful.2
      rcases served : (sign host.recording request).exec pv with ⟨code | message, next⟩
      · simp only [serve, served] at rest
        obtain ⟨nextSane, durable⟩ := (exec_sign served).durable_error sane clean
        simpa [serveAll, serve, served, durable] using ih next nextSane rest
      · simp only [serve, served] at rest
        obtain ⟨nextSane, loaded, stored⟩ := (exec_sign served).durable_ok sane clean
        obtain ⟨laterStored, laterRun⟩ := ih next nextSane rest
        obtain ⟨answer, step, reads⟩ := (exec_sign served).step_ok
        rw [loaded] at step
        have here : Step pv.hostState.durable.slot next.hostState.durable.slot
            (some answer) := sane.loaded clean ▸ step
        constructor
        · simpa [serveAll, serve, served] using ⟨stored, laterStored⟩
        · simpa [serveAll, serve, served] using Run.answered here reads laterRun

/-- While no request follows a failed save, a signature leaves only when it is saved, and one
height, round and step has one signature of one message. -/
theorem serveAll_durable (host : SignerHost σ) (inner : σ) (events : List (Event σ))
    (careful : Careful host events (startFrom inner .reset)) :
    (∀ released ∈ (serveAll host events (startFrom inner .reset)).1, released.Stored) ∧
    ∀ first ∈ (serveAll host events (startFrom inner .reset)).1,
      ∀ second ∈ (serveAll host events (startFrom inner .reset)).1,
        first.message.hrs = second.message.hrs →
          first.message.signature = second.message.signature ∧
          ∃ bytes, first.message.signBytes = .ok bytes ∧
            second.message.signBytes = .ok bytes := by
  have sane : Sane (startFrom inner .reset) := by
    refine ⟨?_, fun _ => rfl⟩
    intro bytes held
    cases held
  obtain ⟨stored, run⟩ := serveAll_run host events _ sane careful
  refine ⟨stored, ?_⟩
  intro first firstReleased second secondReleased
  exact signed_alike run _ (List.mem_map_of_mem firstReleased) _
    (List.mem_map_of_mem secondReleased)

/-- A host whose first save fails and which signs by copying. -/
def stumblingHost : SignerHost Bool where
  rawSign bytes := pure bytes
  saveLastSignState _ := do
    if ← get then
      set false
      throw .fault
  now := pure Time.zero

def prevoteFor (id : BlockId) : Vote :=
  ⟨prevoteType, 1, 0, id, Time.zero, [], 0, [], [], []⟩

def blockPrevote : Request :=
  .vote [] (prevoteFor ⟨List.replicate 64 7, 1, List.replicate 64 7⟩)

def nilPrevote : Request :=
  .vote [] (prevoteFor .zero)

/-- With a restart after the failed save, the run is careful and the vote that leaves
is saved. -/
theorem serveAll_durable_stumbling :
    Careful stumblingHost [.request blockPrevote, .restart false, .request nilPrevote]
        (startFrom true .reset) ∧
      ∀ released ∈ (serveAll stumblingHost
          [.request blockPrevote, .restart false, .request nilPrevote]
          (startFrom true .reset)).1, released.Stored := by
  have careful : Careful stumblingHost
      [.request blockPrevote, .restart false, .request nilPrevote] (startFrom true .reset) := by
    decide +kernel
  exact ⟨careful, (serveAll_durable stumblingHost true _ careful).1⟩

/-- When the same vote is asked for again after the failed save, it leaves although it
is not saved, and after a restart another vote leaves for the same height, round and
step. -/
theorem serveAll_retry_not_durable :
    ∃ first ∈ (serveAll stumblingHost
        [.request blockPrevote, .request blockPrevote, .restart false, .request nilPrevote]
        (startFrom true .reset)).1,
      ∃ second ∈ (serveAll stumblingHost
          [.request blockPrevote, .request blockPrevote, .restart false, .request nilPrevote]
          (startFrom true .reset)).1,
        first.durable = .reset ∧ first.message.hrs = second.message.hrs ∧
          first.message.signature ≠ second.message.signature := by
  decide +kernel

end DnaLedger.Cmt
