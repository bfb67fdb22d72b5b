import DnaLedger.Cmt.SignBytes

/-!
# Checking votes

Model of the checks of `cmt_vote.c` and of `cmt_block_id_key`. The hash that makes an address out of
a key and the signature scheme are parameters.
-/

namespace DnaLedger.Cmt

open Wire

/-- The address of a public key, and whether a signature of a message is good for a
key. -/
structure Crypto where
  address : Bytes → Bytes
  verify : Bytes → Bytes → Bytes → Bool

def voteVerify (crypto : Crypto) (chainId : Bytes) (vote : Vote) (pubKey : Bytes) :
    Except Failure Unit :=
  if vote.validatorAddress.length ≠ addressSize ∨ vote.validatorAddress ≠ crypto.address pubKey then
    .error .reject
  else do
    let signBytes ← voteSignBytes chainId vote
    if maxSignatureSize < vote.signature.length then .error .fault
    else if !crypto.verify vote.signature signBytes pubKey then .error .reject
    else .ok ()

/-- The extension check of `cmt_vote_verify_vote_and_extension` and `cmt_vote_verify_extension`. -/
def extensionVerify (crypto : Crypto) (chainId : Bytes) (vote : Vote) (pubKey : Bytes)
    (scratchCap : Nat) : Except Failure Unit := do
  let extensionBytes ← voteExtensionSignBytes chainId vote scratchCap
  if maxSignatureSize < vote.extensionSignature.length then .error .fault
  else if !crypto.verify vote.extensionSignature extensionBytes pubKey then .error .reject
  else .ok ()

/-- Exactly the precommits for a block are extended. -/
def voteVerifyVoteAndExtension (crypto : Crypto) (chainId : Bytes) (vote : Vote)
    (pubKey : Bytes) (scratchCap : Nat) : Except Failure Unit := do
  voteVerify crypto chainId vote pubKey
  if vote.type ≠ precommitType ∨ vote.blockId.isZero then .ok ()
  else if vote.extensionSignature.length = 0 then .error .reject
  else extensionVerify crypto chainId vote pubKey scratchCap

theorem voteVerify_eq_ok {crypto : Crypto} {chainId pubKey : Bytes} {vote : Vote} :
    voteVerify crypto chainId vote pubKey = .ok () ↔
      vote.validatorAddress.length = addressSize ∧
      vote.validatorAddress = crypto.address pubKey ∧
      vote.signature.length ≤ maxSignatureSize ∧
      ∃ bytes, voteSignBytes chainId vote = .ok bytes ∧
        crypto.verify vote.signature bytes pubKey = true := by
  rw [voteVerify]
  split
  next wrong =>
    constructor
    · intro verified
      cases verified
    · rintro ⟨length, address, -, -⟩
      exact absurd wrong (not_or.mpr ⟨not_not.mpr length, not_not.mpr address⟩)
  next right =>
    obtain ⟨length, address⟩ := not_or.mp right
    rw [bind_eq_ok]
    constructor
    · rintro ⟨bytes, signBytes, fine⟩
      simp only [ite_error_eq_ok] at fine
      obtain ⟨short, good, fine⟩ := fine
      exact ⟨not_not.mp length, not_not.mp address, Nat.not_lt.mp short, bytes, signBytes,
        by simpa using good⟩
    · rintro ⟨-, -, short, bytes, signBytes, good⟩
      exact ⟨bytes, signBytes, by simp [Nat.not_lt.mpr short, good]⟩

def blockIdMaxBytes : Nat := 140

def BlockId.key (id : BlockId) : Except Failure Bytes :=
  if tmhashSize < id.partSetHeader.hash.length then .error .reject
  else do
    let header ← fitting blockIdMaxBytes id.partSetHeader.encode
    fitting blockIdMaxBytes (id.hash ++ header)

variable {id : BlockId} {key : Bytes}

theorem BlockId.key_eq_ok (keyed : id.key = .ok key) :
    id.partSetHeader.hash.length ≤ tmhashSize ∧ key = id.hash ++ id.partSetHeader.encode := by
  rw [BlockId.key] at keyed
  split at keyed
  next => cases keyed
  next short =>
    obtain ⟨header, fits, whole⟩ := bind_eq_ok.mp keyed
    obtain ⟨-, rfl⟩ := fitting_eq_ok.mp fits
    obtain ⟨-, rfl⟩ := fitting_eq_ok.mp whole
    exact ⟨Nat.not_lt.mp short, rfl⟩

theorem BlockId.length_key (keyed : id.key = .ok key) : key.length ≤ blockIdMaxBytes := by
  rw [BlockId.key] at keyed
  split at keyed
  next => cases keyed
  next =>
    obtain ⟨header, -, whole⟩ := bind_eq_ok.mp keyed
    obtain ⟨fits, rfl⟩ := fitting_eq_ok.mp whole
    exact fits

theorem BlockId.exists_key (valid : id.validateBasic = true) : ∃ key, id.key = .ok key := by
  simp only [BlockId.validateBasic, PartSetHeader.validateBasic, validateHash,
    Bool.and_eq_true, Bool.or_eq_true, decide_eq_true_eq] at valid
  have size : tmhashSize = 64 := rfl
  have fits : id.partSetHeader.hash.length ≤ tmhashSize := by omega
  have length := PartSetHeader.length_encode_le fits
  refine ⟨id.hash ++ id.partSetHeader.encode, ?_⟩
  rw [BlockId.key, if_neg (Nat.not_lt.mpr fits), bind_eq_ok]
  refine ⟨id.partSetHeader.encode, fitting_eq_ok.mpr ⟨?_, rfl⟩, fitting_eq_ok.mpr ⟨?_, rfl⟩⟩
  · rw [blockIdMaxBytes]
    omega
  · rw [List.length_append, blockIdMaxBytes]
    omega

theorem PartSetHeader.encode_injective {first second : PartSetHeader}
    (firstFits : first.hash.length ≤ tmhashSize) (secondFits : second.hash.length ≤ tmhashSize)
    (eq : first.encode = second.encode) : first = second := by
  have firstDecoded := PartSetHeader.merge_encode firstFits
  rw [eq, PartSetHeader.merge_encode secondFits] at firstDecoded
  exact (Option.some.inj firstDecoded).symm

/-- What the identifier of a valid vote is. -/
def BlockId.Votable (id : BlockId) : Prop :=
  id.isZero = true ∨ id.isComplete = true

theorem BlockId.length_hash_of_isComplete (complete : id.isComplete = true) :
    id.hash.length = tmhashSize := by
  simp only [BlockId.isComplete, Bool.and_eq_true, decide_eq_true_eq] at complete
  exact complete.1.1

/-- The key of a votable identifier determines it. -/
theorem BlockId.key_injective {first second : BlockId} (firstVotable : first.Votable)
    (secondVotable : second.Votable) (firstKey : first.key = .ok key)
    (secondKey : second.key = .ok key) : first = second := by
  obtain ⟨firstFits, rfl⟩ := BlockId.key_eq_ok firstKey
  obtain ⟨secondFits, eq⟩ := BlockId.key_eq_ok secondKey
  have zeroKey : ∀ {id : BlockId}, id.isZero = true → id.hash ++ id.partSetHeader.encode = [] := by
    intro id zero
    rw [BlockId.isZero_iff.mp zero]
    rfl
  have filled : ∀ {id : BlockId}, id.isComplete = true →
      id.hash ++ id.partSetHeader.encode ≠ [] := by
    intro id complete empty
    have length := BlockId.length_hash_of_isComplete complete
    rw [(List.append_eq_nil_iff.mp empty).1] at length
    cases length
  rcases firstVotable with firstZero | firstComplete <;>
    rcases secondVotable with secondZero | secondComplete
  · rw [BlockId.isZero_iff.mp firstZero, BlockId.isZero_iff.mp secondZero]
  · exact absurd (eq.symm.trans (zeroKey firstZero)) (filled secondComplete)
  · exact absurd (eq.trans (zeroKey secondZero)) (filled firstComplete)
  · have length : first.hash.length = second.hash.length := by
      rw [BlockId.length_hash_of_isComplete firstComplete,
        BlockId.length_hash_of_isComplete secondComplete]
    obtain ⟨sameHash, sameHeader⟩ := List.append_inj eq length
    have header := PartSetHeader.encode_injective firstFits secondFits sameHeader
    cases first with
    | mk hash partSetHeader =>
      cases second with
      | mk otherHash otherHeader =>
        rw [show hash = otherHash from sameHash, show partSetHeader = otherHeader from header]

end DnaLedger.Cmt
