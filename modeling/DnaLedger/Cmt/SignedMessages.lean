import DnaLedger.Cmt.SignBytes

/-!
# Signed messages are unambiguous

Every vote and proposal that passes its basic checks has sign bytes, which fit the fixed buffer and
determine the message.
-/

namespace DnaLedger.Cmt

open Wire CanonicalProposal

theorem delimited_injective {first second : Bytes} (firstShort : first.length < 2 ^ 64)
    (secondShort : second.length < 2 ^ 64) (eq : delimited first = delimited second) :
    first = second := by
  have firstRead := readDelimited_delimited firstShort
  have secondRead := readDelimited_delimited secondShort
  rw [eq, secondRead] at firstRead
  exact (Prod.mk.inj (Option.some.inj firstRead)).1.symm

theorem length_le_delimited (body : Bytes) : body.length ≤ (delimited body).length := by
  rw [delimited, List.length_append]
  omega

theorem varintField_one_append {value : Nat} (pos : value ≠ 0) (small : value < 128)
    (rest : Bytes) : varintField 1 value ++ rest = 8 :: UInt8.ofNat value :: rest := by
  simp [varintField, pos, putTag, putUvarint, uvarintBytes, small]

variable {vote : Vote} {chainId bytes : Bytes} {proposal : Proposal} {capacity : Nat}

theorem Vote.type_of_validateBasic (valid : vote.validateBasic = true) :
    vote.type = prevoteType ∨ vote.type = precommitType := by
  simp only [Vote.validateBasic, isVoteTypeValid, Bool.and_eq_true, Bool.or_eq_true,
    decide_eq_true_eq] at valid
  grind

theorem CanonicalVote.encode_eq_cons {vote : CanonicalVote}
    (typed : vote.type = prevoteType ∨ vote.type = precommitType) :
    ∃ type rest, vote.encode = 8 :: type :: rest ∧ (type = 1 ∨ type = 2) := by
  rw [CanonicalVote.encode]
  rcases typed with prevote | precommit
  · rw [prevote, show wireInt32 prevoteType = 1 from rfl,
      varintField_one_append (by decide) (by decide)]
    exact ⟨1, _, rfl, Or.inl rfl⟩
  · rw [precommit, show wireInt32 precommitType = 2 from rfl,
      varintField_one_append (by decide) (by decide)]
    exact ⟨2, _, rfl, Or.inr rfl⟩

theorem encode_eq_cons {proposal : CanonicalProposal} (typed : proposal.type = proposalType) :
    ∃ rest, proposal.encode = 8 :: 32 :: rest := by
  rw [encode, typed, show wireInt32 proposalType = 32 from rfl,
    varintField_one_append (by decide) (by decide)]
  exact ⟨_, rfl⟩

theorem CanonicalVoteExtension.head_encode (extension : CanonicalVoteExtension) :
    extension.encode.head? ≠ some 8 := by
  simp only [CanonicalVoteExtension.encode, bytesField, fixed64Field, messageField, putTag]
  by_cases empty : extension.extension = [] <;>
    by_cases height : wireInt64 extension.height = 0 <;>
    by_cases round : wireInt64 extension.round = 0 <;>
    by_cases chain : extension.chainId = [] <;>
    simp [empty, height, round, chain, putUvarint, uvarintBytes]

theorem toInt64_injective {first second : Int32} (eq : first.toInt64 = second.toInt64) :
    first = second := by
  rw [← unwireInt32_wireInt32 first, wireInt32, eq, ← wireInt32, unwireInt32_wireInt32]

theorem proposalSignBytes_injective {otherChainId : Bytes} {other : Proposal}
    (signed : proposalSignBytes chainId proposal = .ok bytes)
    (otherSigned : proposalSignBytes otherChainId other = .ok bytes) :
    canonicalProposal chainId proposal = canonicalProposal otherChainId other := by
  have first := decodeProposal_proposalSignBytes signed
  have second := decodeProposal_proposalSignBytes otherSigned
  exact Option.some.inj (first.symm.trans second)

theorem voteExtensionSignBytes_eq_ok
    (signed : voteExtensionSignBytes chainId vote capacity = .ok bytes) :
    ∃ canon : CanonicalVoteExtension, bytes = delimited canon.encode := by
  simp only [voteExtensionSignBytes, bind_eq_ok, marshalDelimited, fitting_eq_ok] at signed
  obtain ⟨canon, -, body, ⟨-, rfl⟩, -, eq⟩ := signed
  exact ⟨canon, eq⟩

section

variable {chainId otherChainId bytes : Bytes}

theorem voteSignBytes_eq_cons (valid : vote.validateBasic = true)
    (signed : voteSignBytes chainId vote = .ok bytes) :
    ∃ type rest, bytes = delimited (8 :: type :: rest) ∧ (type = 1 ∨ type = 2) ∧
      (8 :: type :: rest).length ≤ 241 := by
  obtain ⟨signable, rfl⟩ := voteSignBytes_eq_ok.mp signed
  have length : (canonicalVote chainId vote).encode.length ≤ 230 :=
    CanonicalVote.length_encode_le signable.parts
  have typed : (canonicalVote chainId vote).type = prevoteType ∨
      (canonicalVote chainId vote).type = precommitType := Vote.type_of_validateBasic valid
  obtain ⟨type, rest, encoded, which⟩ := CanonicalVote.encode_eq_cons typed
  rw [encoded] at length ⊢
  exact ⟨type, rest, rfl, which, by omega⟩

theorem proposalSignBytes_eq_cons (signed : proposalSignBytes chainId proposal = .ok bytes) :
    ∃ rest, bytes = delimited (8 :: 32 :: rest) ∧ (8 :: 32 :: rest : Bytes).length ≤ 241 := by
  obtain ⟨signable, rfl⟩ := proposalSignBytes_eq_ok.mp signed
  have length : (canonicalProposal chainId proposal).encode.length ≤ 241 :=
    length_encode_le signable.parts
  obtain ⟨rest, encoded⟩ : ∃ rest, (canonicalProposal chainId proposal).encode = 8 :: 32 :: rest :=
    encode_eq_cons rfl
  rw [encoded] at length ⊢
  exact ⟨rest, rfl, length⟩

theorem delimited_cons_ne_extension {rest : Bytes} (short : (8 :: rest : Bytes).length ≤ 241)
        (signed : voteExtensionSignBytes chainId vote capacity = .ok bytes) :
    delimited (8 :: rest) ≠ bytes := by
  intro eq
  obtain ⟨canon, rfl⟩ := voteExtensionSignBytes_eq_ok signed
  by_cases small : canon.encode.length < 2 ^ 64
  · have body := delimited_injective (by omega) small eq
    apply canon.head_encode
    rw [← body]
    rfl
  · -- too long for the frame of a short message
    have length := congrArg List.length eq
    have size := length_putUvarint_le (8 :: rest : Bytes).length
    have whole := length_le_delimited canon.encode
    rw [delimited, List.length_append] at length
    omega

end

/-- Valid votes and proposals have sign bytes that fit, determine them, and differ from those of the
other kinds of message. -/
theorem signBytes_unambiguous :
    (∀ chainId vote, chainId.length ≤ chainIdMax → vote.validateBasic = true →
      vote.timestamp.validate = true →
      ∃ bytes, voteSignBytes chainId vote = .ok bytes ∧ bytes.length ≤ signBytesMax) ∧
    (∀ chainId proposal, chainId.length ≤ chainIdMax → proposal.validateBasic = true →
      proposal.timestamp.validate = true →
      ∃ bytes, proposalSignBytes chainId proposal = .ok bytes ∧ bytes.length ≤ signBytesMax) ∧
    (∀ chainId otherChainId vote other bytes, voteSignBytes chainId vote = .ok bytes →
      voteSignBytes otherChainId other = .ok bytes →
      chainId = otherChainId ∧ vote.type = other.type ∧ vote.height = other.height ∧
        vote.round = other.round ∧ vote.blockId = other.blockId ∧
        vote.timestamp = other.timestamp) ∧
    (∀ chainId otherChainId proposal other bytes, proposalSignBytes chainId proposal = .ok bytes →
      proposalSignBytes otherChainId other = .ok bytes →
      chainId = otherChainId ∧ proposal.height = other.height ∧ proposal.round = other.round ∧
        proposal.polRound = other.polRound ∧ proposal.blockId = other.blockId ∧
        proposal.timestamp = other.timestamp) ∧
    ∀ voteChainId proposalChainId extensionChainId vote proposal extended capacity
        voteBytes proposalBytes extensionBytes,
      vote.validateBasic = true → voteSignBytes voteChainId vote = .ok voteBytes →
      proposalSignBytes proposalChainId proposal = .ok proposalBytes →
      voteExtensionSignBytes extensionChainId extended capacity = .ok extensionBytes →
      voteBytes ≠ proposalBytes ∧ voteBytes ≠ extensionBytes ∧ proposalBytes ≠ extensionBytes := by
  refine ⟨?_, ?_, ?_, ?_, ?_⟩
  · intro chainId vote fits valid timely
    have signable : Signable vote.blockId vote.timestamp chainId :=
      ⟨Vote.validateBasic_blockId valid, timely, fits⟩
    have length : (canonicalVote chainId vote).encode.length ≤ 230 :=
      CanonicalVote.length_encode_le signable.parts
    exact ⟨_, voteSignBytes_eq_ok.mpr ⟨signable, rfl⟩, length_delimited_le (by omega)⟩
  · intro chainId proposal fits valid timely
    have named : proposal.blockId.validateBasic = true := by
      grind [Proposal.validateBasic]
    have signable : Signable proposal.blockId proposal.timestamp chainId := ⟨named, timely, fits⟩
    have length : (canonicalProposal chainId proposal).encode.length ≤ 241 :=
      length_encode_le signable.parts
    exact ⟨_, proposalSignBytes_eq_ok.mpr ⟨signable, rfl⟩, length_delimited_le length⟩
  · intro chainId otherChainId vote other bytes signed otherSigned
    obtain ⟨type, height, round, blockId, timestamp, chain⟩ :=
      CanonicalVote.mk.inj (voteSignBytes_injective signed otherSigned)
    exact ⟨chain, type, height, toInt64_injective round, canonicalBlockId_injective blockId,
      timestamp⟩
  · intro chainId otherChainId proposal other bytes signed otherSigned
    obtain ⟨-, height, round, polRound, blockId, timestamp, chain⟩ :=
      mk.inj (proposalSignBytes_injective signed otherSigned)
    exact ⟨chain, height, toInt64_injective round, toInt64_injective polRound,
      canonicalBlockId_injective blockId, timestamp⟩
  · intro _ _ _ vote proposal extended capacity voteBytes proposalBytes extensionBytes valid
      voteSigned proposalSigned extensionSigned
    obtain ⟨type, voteRest, rfl, which, voteShort⟩ := voteSignBytes_eq_cons valid voteSigned
    obtain ⟨proposalRest, rfl, proposalShort⟩ := proposalSignBytes_eq_cons proposalSigned
    refine ⟨?_, delimited_cons_ne_extension voteShort extensionSigned,
      delimited_cons_ne_extension proposalShort extensionSigned⟩
    intro eq
    have body := delimited_injective (by omega) (by omega) eq
    have types : type = 32 := (List.cons.inj (List.cons.inj body).2).1
    rcases which with prevote | precommit
    · rw [prevote] at types
      exact absurd types (by decide)
    · rw [precommit] at types
      exact absurd types (by decide)

def somePrecommit : Vote :=
  ⟨precommitType, 1, 0, ⟨List.replicate 64 7, 1, List.replicate 64 9⟩, Time.zero,
    List.replicate 32 1, 0, [1], [], []⟩

def someProposal : Proposal :=
  ⟨proposalType, 1, 0, -1, ⟨List.replicate 64 7, 1, List.replicate 64 9⟩, Time.zero, [1]⟩

/-- The sign bytes of a precommit, of a proposal for the same block and of the extension of
the precommit. -/
theorem signBytes_unambiguous_precommit :
    ∃ voteBytes proposalBytes extensionBytes,
      voteSignBytes [100] somePrecommit = .ok voteBytes ∧ voteBytes.length ≤ signBytesMax ∧
      proposalSignBytes [100] someProposal = .ok proposalBytes ∧
      proposalBytes.length ≤ signBytesMax ∧
      voteExtensionSignBytes [100] somePrecommit 256 = .ok extensionBytes ∧
      voteBytes ≠ proposalBytes ∧ voteBytes ≠ extensionBytes ∧
      proposalBytes ≠ extensionBytes := by
  obtain ⟨votes, proposals, -, -, kinds⟩ := signBytes_unambiguous
  have valid : somePrecommit.validateBasic = true := by decide
  obtain ⟨voteBytes, voteSigned, voteFits⟩ :=
    votes [100] somePrecommit (by decide) valid (by decide)
  obtain ⟨proposalBytes, proposalSigned, proposalFits⟩ :=
    proposals [100] someProposal (by decide) (by decide) (by decide)
  obtain ⟨extensionBytes, extensionSigned⟩ : ∃ extensionBytes,
      voteExtensionSignBytes [100] somePrecommit 256 = .ok extensionBytes := ⟨_, rfl⟩
  exact ⟨voteBytes, proposalBytes, extensionBytes, voteSigned, voteFits, proposalSigned,
    proposalFits, extensionSigned,
    kinds _ _ _ _ _ _ _ _ _ _ valid voteSigned proposalSigned extensionSigned⟩

end DnaLedger.Cmt
