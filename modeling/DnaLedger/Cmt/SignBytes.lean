import DnaLedger.Cmt.Types
import DnaLedger.Foundation.Wire

/-!
# Sign bytes

Model of `cmt_canonical.c` and of the canonical messages of `cmt_pb.c`: what a validator signs is
the length-delimited encoding of a canonical vote, proposal or vote extension.
-/

namespace DnaLedger.Cmt

open Wire List

def wireInt64 (value : Int64) : Nat :=
  value.toUInt64.toNat

def unwireInt64 (word : Nat) : Int64 :=
  (UInt64.ofNat word).toInt64

/-- An `int32` field is sign-extended on the wire. -/
def wireInt32 (value : Int32) : Nat :=
  wireInt64 value.toInt64

/-- And cut to 32 bits when it is read. -/
def unwireInt32 (word : Nat) : Int32 :=
  (UInt32.ofNat word).toInt32

theorem wireInt64_lt (value : Int64) : wireInt64 value < 2 ^ 64 :=
  value.toUInt64.toNat_lt

theorem wireInt32_lt (value : Int32) : wireInt32 value < 2 ^ 64 :=
  wireInt64_lt _

@[simp] theorem unwireInt64_wireInt64 (value : Int64) : unwireInt64 (wireInt64 value) = value := by
  rw [unwireInt64, wireInt64, UInt64.ofNat_toNat]
  rfl

@[simp] theorem unwireInt32_wireInt32 (value : Int32) : unwireInt32 (wireInt32 value) = value := by
  apply Int32.toBitVec_inj.mp
  change BitVec.setWidth 32 (value.toBitVec.signExtend 64) = value.toBitVec
  ext i bound
  have wide : i < 64 := by omega
  rw [BitVec.getElem_setWidth, BitVec.getLsbD_signExtend]
  simp [bound, wide]

structure CanonicalVote where
  type : Int32
  height : Int64
  round : Int64
  blockId : Option BlockId
  timestamp : Time
  chainId : Bytes
  deriving DecidableEq

structure CanonicalProposal where
  type : Int32
  height : Int64
  round : Int64
  polRound : Int64
  blockId : Option BlockId
  timestamp : Time
  chainId : Bytes
  deriving DecidableEq

structure CanonicalVoteExtension where
  extension : Bytes
  height : Int64
  round : Int64
  chainId : Bytes
  deriving DecidableEq

/-- Nil has no canonical block identifier. -/
def canonicalizeBlockId (id : BlockId) : Except Failure (Option BlockId) :=
  if !id.validateBasic then .error .reject
  else if id.isZero then .ok none
  else .ok (some id)

section

variable (chainId : Bytes)

def setChainId : Except Failure Bytes :=
  if chainIdMax < chainId.length then .error .reject else .ok chainId

def canonicalizeVote (vote : Vote) : Except Failure CanonicalVote := do
  let blockId ← canonicalizeBlockId vote.blockId
  let chainId ← setChainId chainId
  return ⟨vote.type, vote.height, vote.round.toInt64, blockId, vote.timestamp, chainId⟩

def canonicalizeProposal (proposal : Proposal) :
    Except Failure CanonicalProposal := do
  let blockId ← canonicalizeBlockId proposal.blockId
  let chainId ← setChainId chainId
  return ⟨proposalType, proposal.height, proposal.round.toInt64, proposal.polRound.toInt64,
    blockId, proposal.timestamp, chainId⟩

def canonicalizeVoteExtension (vote : Vote) :
    Except Failure CanonicalVoteExtension := do
  let chainId ← setChainId chainId
  return ⟨vote.extension, vote.height, vote.round.toInt64, chainId⟩

end

/-- `psh_wr` -/
def PartSetHeader.encode (header : PartSetHeader) : Bytes :=
  varintField 1 header.total.toNat ++ bytesField 2 header.hash

/-- `block_id_wr` -/
def BlockId.encode (id : BlockId) : Bytes :=
  bytesField 1 id.hash ++ messageField 2 id.partSetHeader.encode

/-- `ts_wr`; the caller has checked the time. -/
def Time.encode (time : Time) : Bytes :=
  varintField 1 (wireInt64 time.seconds) ++ varintField 2 (wireInt32 time.nanos)

def optionalBlockId (field : Nat) : Option BlockId → Bytes
  | none => []
  | some id => messageField field id.encode

/-- `canonical_vote_wr` -/
def CanonicalVote.encode (vote : CanonicalVote) : Bytes :=
  varintField 1 (wireInt32 vote.type) ++ (fixed64Field 2 (wireInt64 vote.height) ++
    (fixed64Field 3 (wireInt64 vote.round) ++ (optionalBlockId 4 vote.blockId ++
      (messageField 5 vote.timestamp.encode ++ bytesField 6 vote.chainId))))

/-- `canonical_proposal_wr` -/
def CanonicalProposal.encode (proposal : CanonicalProposal) : Bytes :=
  varintField 1 (wireInt32 proposal.type) ++ (fixed64Field 2 (wireInt64 proposal.height) ++
    (fixed64Field 3 (wireInt64 proposal.round) ++
      (varintField 4 (wireInt64 proposal.polRound) ++ (optionalBlockId 5 proposal.blockId ++
        (messageField 6 proposal.timestamp.encode ++ bytesField 7 proposal.chainId)))))

/-- `canonical_vote_extension_wr` -/
def CanonicalVoteExtension.encode (extension : CanonicalVoteExtension) : Bytes :=
  bytesField 1 extension.extension ++ (fixed64Field 2 (wireInt64 extension.height) ++
    (fixed64Field 3 (wireInt64 extension.round) ++ bytesField 4 extension.chainId))

/-- `CMT_VOTE_SIGN_BYTES_MAX` and `CMT_PROPOSAL_SIGN_BYTES_MAX`. -/
def signBytesMax : Nat := 256

/-- A writer with a buffer of limited size refuses what does not fit. -/
def fitting (capacity : Nat) (bytes : Bytes) : Except Failure Bytes :=
  if capacity < bytes.length then .error .reject else .ok bytes

def CanonicalVote.marshal (vote : CanonicalVote) (capacity : Nat) : Except Failure Bytes :=
  if chainIdMax < vote.chainId.length then .error .reject
  else if !vote.timestamp.validate then .error .reject
  else fitting capacity vote.encode

def CanonicalProposal.marshal (proposal : CanonicalProposal) (capacity : Nat) :
    Except Failure Bytes :=
  if chainIdMax < proposal.chainId.length then .error .reject
  else if !proposal.timestamp.validate then .error .reject
  else fitting capacity proposal.encode

def marshalDelimited (message : Bytes) (capacity : Nat) : Except Failure Bytes :=
  fitting capacity (putUvarint message.length ++ message)

def voteSignBytes (chainId : Bytes) (vote : Vote) : Except Failure Bytes := do
  let canonical ← canonicalizeVote chainId vote
  let body ← canonical.marshal signBytesMax
  marshalDelimited body signBytesMax

def proposalSignBytes (chainId : Bytes) (proposal : Proposal) : Except Failure Bytes := do
  let canonical ← canonicalizeProposal chainId proposal
  let body ← canonical.marshal signBytesMax
  marshalDelimited body signBytesMax

/-- `cmt_vote_extension_sign_bytes`, into a buffer of the caller. -/
def voteExtensionSignBytes (chainId : Bytes) (vote : Vote) (capacity : Nat) :
    Except Failure Bytes := do
  let canonical ← canonicalizeVoteExtension chainId vote
  let body ← fitting (64 + 11 + vote.extension.length) canonical.encode
  marshalDelimited body capacity

/-- A length-delimited field merged into a part of the message. -/
def readInto {α μ : Type} (decode : Bytes → Option α) (store : α → μ) : Reader μ := fun input => do
  let (body, rest) ← readDelimited input
  let value ← decode body
  return (store value, rest)

def copyFixed (capacity : Nat) (bytes : Bytes) : Option Bytes :=
  if capacity < bytes.length then none else some bytes

def readWord {μ : Type} (word : Reader Nat) (store : Nat → μ) : Reader μ := fun input => do
  let (value, rest) ← word input
  return (store value, rest)

/-- `psh_merge` -/
def partSetHeaderFields : Fields PartSetHeader := fun header field =>
  match field with
  | 1 => some (0, readWord getUvarint fun v => { header with total := UInt32.ofNat v })
  | 2 => some (2, readInto (copyFixed tmhashSize) fun hash => { header with hash })
  | _ => none

/-- `block_id_merge`; the part-set header is merged into what is there. -/
def blockIdFields : Fields BlockId := fun id field =>
  match field with
  | 1 => some (2, readInto (copyFixed tmhashSize) fun hash => { id with hash })
  | 2 => some (2, readInto (merge partSetHeaderFields id.partSetHeader)
      fun partSetHeader => { id with partSetHeader })
  | _ => none

/-- `ts_merge` -/
def timeFields : Fields Time := fun time field =>
  match field with
  | 1 => some (0, readWord getUvarint fun v => { time with seconds := unwireInt64 v })
  | 2 => some (0, readWord getUvarint fun v => { time with nanos := unwireInt32 v })
  | _ => none

/-- An absent field is zero, and the time must be valid. -/
def Time.unmarshal (input : Bytes) : Option Time := do
  let time ← merge timeFields ⟨0, 0⟩ input
  if time.validate then some time else none

/-- `canonical_vote_merge` -/
def canonicalVoteFields : Fields CanonicalVote := fun vote field =>
  match field with
  | 1 => some (0, readWord getUvarint fun v => { vote with type := unwireInt32 v })
  | 2 => some (1, readWord readFixed64 fun v => { vote with height := unwireInt64 v })
  | 3 => some (1, readWord readFixed64 fun v => { vote with round := unwireInt64 v })
  | 4 => some (2, readInto (merge blockIdFields (vote.blockId.getD .zero))
      fun id => { vote with blockId := some id })
  | 5 => some (2, readInto Time.unmarshal fun timestamp => { vote with timestamp })
  | 6 => some (2, readInto (copyFixed chainIdMax) fun chainId => { vote with chainId })
  | _ => none

def CanonicalVote.unmarshal (input : Bytes) : Option CanonicalVote :=
  merge canonicalVoteFields ⟨0, 0, 0, none, .zero, []⟩ input

/-- `canonical_proposal_merge` -/
def canonicalProposalFields : Fields CanonicalProposal := fun proposal field =>
  match field with
  | 1 => some (0, readWord getUvarint fun v => { proposal with type := unwireInt32 v })
  | 2 => some (1, readWord readFixed64 fun v => { proposal with height := unwireInt64 v })
  | 3 => some (1, readWord readFixed64 fun v => { proposal with round := unwireInt64 v })
  | 4 => some (0, readWord getUvarint fun v => { proposal with polRound := unwireInt64 v })
  | 5 => some (2, readInto (merge blockIdFields (proposal.blockId.getD .zero))
      fun id => { proposal with blockId := some id })
  | 6 => some (2, readInto Time.unmarshal fun timestamp => { proposal with timestamp })
  | 7 => some (2, readInto (copyFixed chainIdMax) fun chainId => { proposal with chainId })
  | _ => none

def CanonicalProposal.unmarshal (input : Bytes) : Option CanonicalProposal :=
  merge canonicalProposalFields ⟨0, 0, 0, 0, none, .zero, []⟩ input

/-! ## Decoding sign bytes -/

variable {μ : Type} {bytes : Bytes}
variable {word : Reader Nat} {α : Type} {decode : Bytes → Option α} {header : PartSetHeader}
variable {time timestamp : Time} {rest : Bytes} {message : μ}

theorem reads_readWord {value : Nat} (reads : Reads word bytes value) (store : Nat → μ) :
    Reads (readWord word store) bytes (store value) := by
  intro rest
  rw [readWord, reads rest]
  rfl

variable {body : Bytes}

theorem reads_readInto {value : α} (short : body.length < 2 ^ 64)
    (read : decode body = some value) (store : α → μ) :
    Reads (readInto decode store) (putUvarint body.length ++ body) (store value) := by
  intro rest
  rw [readInto, readDelimited_putUvarint short rest]
  simp [read]

variable {capacity : Nat}

theorem copyFixed_eq_some (fits : bytes.length ≤ capacity) :
    copyFixed capacity bytes = some bytes := by
  rw [copyFixed, if_neg (by omega)]

section

variable {μ : Type} {fields : Fields μ} {before : μ} (field : Nat) (number : FieldNumber field)

include number

variable {store : Nat → μ} {value : Nat}

theorem decodes_word (word : value < 2 ^ 64)
    (known : fields before field = some (0, readWord getUvarint store)) (blank : store 0 = before) :
    Decodes fields before (varintField field value) (store value) :=
  decodes_varintField fields before field number known
    (reads_readWord (getUvarint_putUvarint word) store) (by rintro rfl; exact blank)

theorem decodes_fixed64 (word : value < 2 ^ 64)
    (known : fields before field = some (1, readWord readFixed64 store))
    (blank : store 0 = before) :
    Decodes fields before (fixed64Field field value) (store value) :=
  decodes_fixed64Field fields before field number known
    (reads_readWord (readFixed64_littleEndian word) store) (by rintro rfl; exact blank)

theorem decodes_fixed {store : Bytes → μ} {value : Bytes} (fits : value.length ≤ capacity)
    (small : capacity < 2 ^ 64)
    (known : fields before field = some (2, readInto (copyFixed capacity) store))
    (blank : store [] = before) :
    Decodes fields before (bytesField field value) (store value) :=
  decodes_bytesField fields before field number known
    (reads_readInto (Nat.lt_of_le_of_lt fits small) (copyFixed_eq_some fits) store)
    (by rintro rfl; exact blank)

theorem decodes_part {α : Type} {decode : Bytes → Option α} {store : α → μ} {value : α}
    (short : body.length < 2 ^ 64) (read : decode body = some value)
    (known : fields before field = some (2, readInto decode store)) :
    Decodes fields before (messageField field body) (store value) :=
  decodes_messageField fields before field number known (reads_readInto short read store)

end

theorem PartSetHeader.merge_encode (fits : header.hash.length ≤ tmhashSize) :
    merge partSetHeaderFields ⟨0, []⟩ header.encode = some header := by
  have word : header.total.toNat < 2 ^ 64 := by
    have := header.total.toNat_lt
    omega
  have read : Decodes partSetHeaderFields ⟨0, []⟩ header.encode
      { header with total := UInt32.ofNat header.total.toNat } :=
    (decodes_word 1 (by decide) word (by rfl) (by rfl)).append
      (decodes_fixed 2 (by decide) fits (by decide) (by rfl) (by rfl))
  simpa using read.merge

theorem PartSetHeader.length_encode_le (fits : header.hash.length ≤ tmhashSize) :
    header.encode.length ≤ 72 := by
  have bound := header.total.toNat_lt
  have total := length_varintField_of_lt (show 1 < 16 by decide) 4
    (show header.total.toNat < 128 ^ 5 by omega)
  rw [tmhashSize] at fits
  have hash := length_bytesField_le (show 2 < 16 by decide) (show header.hash.length < 128 by omega)
  rw [PartSetHeader.encode, length_append]
  omega

variable {id : BlockId}

theorem BlockId.merge_encode (fits : id.hash.length ≤ tmhashSize)
    (headerFits : id.partSetHeader.hash.length ≤ tmhashSize) :
    merge blockIdFields .zero id.encode = some id := by
  have short : id.hash.length < 2 ^ 64 := Nat.lt_of_le_of_lt fits (by decide)
  have headerShort : id.partSetHeader.encode.length < 2 ^ 64 :=
    Nat.lt_of_le_of_lt (PartSetHeader.length_encode_le headerFits) (by decide)
  have hash := decodes_bytesField blockIdFields .zero 1 (by decide) rfl
    (reads_readInto short (copyFixed_eq_some fits) _) (by intro empty; rw [empty]; rfl)
  have header := decodes_messageField blockIdFields ⟨id.hash, ⟨0, []⟩⟩ 2 (by decide) rfl
    (reads_readInto headerShort (PartSetHeader.merge_encode headerFits) _)
  exact (hash.append header).merge

theorem BlockId.length_encode_le (fits : id.hash.length ≤ tmhashSize)
    (headerFits : id.partSetHeader.hash.length ≤ tmhashSize) : id.encode.length ≤ 140 := by
  have header := PartSetHeader.length_encode_le headerFits
  rw [tmhashSize] at fits
  have hash := length_bytesField_le (show 1 < 16 by decide) (show id.hash.length < 128 by omega)
  have framed := length_messageField_le (show 2 < 16 by decide) 0
    (show id.partSetHeader.encode.length < 128 ^ 1 by omega)
  rw [BlockId.encode, length_append]
  omega

theorem Time.length_encode_le (time : Time) : time.encode.length ≤ 22 := by
  have seconds := length_varintField_le (show 1 < 16 by decide) (wireInt64 time.seconds)
  have nanos := length_varintField_le (show 2 < 16 by decide) (wireInt32 time.nanos)
  rw [Time.encode, length_append]
  omega

theorem Time.length_messageField_le (time : Time) {field : Nat} (low : field < 16) :
    (messageField field time.encode).length ≤ 24 := by
  have body := time.length_encode_le
  have framed := Wire.length_messageField_le low 0 (show time.encode.length < 128 ^ 1 by omega)
  omega

theorem Time.unmarshal_encode (valid : time.validate = true) :
    Time.unmarshal time.encode = some time := by
  have seconds := @decodes_word _ timeFields ⟨0, 0⟩ 1 (by decide) _ _ (wireInt64_lt time.seconds)
    rfl rfl
  have nanos := @decodes_word _ timeFields ⟨unwireInt64 (wireInt64 time.seconds), 0⟩ 2 (by decide)
    _ _ (wireInt32_lt time.nanos) rfl rfl
  have read := (seconds.append nanos).merge
  rw [← Time.encode] at read
  simp [Time.unmarshal, read, valid]

/-- The parts of a canonical message that canonicalizing checks. -/
structure CanonicalParts (blockId : Option BlockId) (timestamp : Time) (chainId : Bytes) :
    Prop where
  hash_fits : ∀ id ∈ blockId, id.hash.length ≤ tmhashSize ∧
    id.partSetHeader.hash.length ≤ tmhashSize
  valid : timestamp.validate = true
  chainId_fits : chainId.length ≤ chainIdMax

section

variable {blockId : Option BlockId} {timestamp : Time} {chainId : Bytes}
  (parts : CanonicalParts blockId timestamp chainId)

include parts

variable {field : Nat}

theorem length_optionalBlockId_le (low : field < 16) :
    (optionalBlockId field blockId).length ≤ 143 := by
  cases blockId with
  | none => simp [optionalBlockId]
  | some id =>
    obtain ⟨fits, headerFits⟩ := parts.hash_fits id rfl
    have body := BlockId.length_encode_le fits headerFits
    have framed := length_messageField_le low 1 (show id.encode.length < 128 ^ 2 by omega)
    rw [optionalBlockId]
    omega

theorem length_chainId_le (low : field < 16) : (bytesField field chainId).length ≤ 34 := by
  have fits := parts.chainId_fits
  rw [chainIdMax] at fits
  have framed := length_bytesField_le low (show chainId.length < 128 by omega)
  omega

theorem decodes_optionalBlockId (fields : Fields μ) (before : μ) (field : Nat)
    (number : FieldNumber field) {store : BlockId → μ}
    (known : fields before field = some (2, readInto (merge blockIdFields .zero) store))
    {after : μ} (absent : blockId = none → after = before)
    (there : ∀ id, blockId = some id → after = store id) :
    Decodes fields before (optionalBlockId field blockId) after := by
  cases blockId with
  | none =>
    rw [absent rfl]
    exact Decodes.nil before
  | some id =>
    obtain ⟨fits, headerFits⟩ := parts.hash_fits id rfl
    have short : id.encode.length < 2 ^ 64 :=
      Nat.lt_of_le_of_lt (BlockId.length_encode_le fits headerFits) (by decide)
    rw [there id rfl]
    exact decodes_messageField fields before field number known
      (reads_readInto short (BlockId.merge_encode fits headerFits) store)

end

variable {vote : CanonicalVote}

theorem CanonicalVote.length_encode_le
    (parts : CanonicalParts vote.blockId vote.timestamp vote.chainId) :
    vote.encode.length ≤ 230 := by
  have type := length_varintField_le (show 1 < 16 by decide) (wireInt32 vote.type)
  have height := length_fixed64Field_le (show 2 < 16 by decide) (wireInt64 vote.height)
  have round := length_fixed64Field_le (show 3 < 16 by decide) (wireInt64 vote.round)
  have blockId := length_optionalBlockId_le parts (show 4 < 16 by decide)
  have timestamp := vote.timestamp.length_messageField_le (show 5 < 16 by decide)
  have chainId := length_chainId_le parts (show 6 < 16 by decide)
  simp only [CanonicalVote.encode, length_append]
  omega

variable {proposal : CanonicalProposal}

theorem CanonicalProposal.length_encode_le
    (parts : CanonicalParts proposal.blockId proposal.timestamp proposal.chainId) :
    proposal.encode.length ≤ 241 := by
  have type := length_varintField_le (show 1 < 16 by decide) (wireInt32 proposal.type)
  have height := length_fixed64Field_le (show 2 < 16 by decide) (wireInt64 proposal.height)
  have round := length_fixed64Field_le (show 3 < 16 by decide) (wireInt64 proposal.round)
  have polRound := length_varintField_le (show 4 < 16 by decide) (wireInt64 proposal.polRound)
  have blockId := length_optionalBlockId_le parts (show 5 < 16 by decide)
  have timestamp := proposal.timestamp.length_messageField_le (show 6 < 16 by decide)
  have chainId := length_chainId_le parts (show 7 < 16 by decide)
  simp only [CanonicalProposal.encode, length_append]
  omega

theorem CanonicalVote.unmarshal_encode
    (parts : CanonicalParts vote.blockId vote.timestamp vote.chainId) :
    CanonicalVote.unmarshal vote.encode = some vote := by
  have short : vote.timestamp.encode.length < 2 ^ 64 :=
    Nat.lt_of_le_of_lt vote.timestamp.length_encode_le (by decide)
  have blockId {before : CanonicalVote} (blank : before.blockId = none) :
      Decodes canonicalVoteFields before (optionalBlockId 4 vote.blockId)
        { before with blockId := vote.blockId } :=
    decodes_optionalBlockId parts canonicalVoteFields before 4 (by decide)
      (by rw [canonicalVoteFields, blank]; rfl) (by intro absent; rw [absent, ← blank])
      (by intro id there; rw [there])
  have read : Decodes canonicalVoteFields ⟨0, 0, 0, none, .zero, []⟩ vote.encode
      { vote with
        type := unwireInt32 (wireInt32 vote.type)
        height := unwireInt64 (wireInt64 vote.height)
        round := unwireInt64 (wireInt64 vote.round) } :=
    (decodes_word 1 (by decide) (wireInt32_lt _) (by rfl) (by rfl)).append
      ((decodes_fixed64 2 (by decide) (wireInt64_lt _) (by rfl) (by rfl)).append
        ((decodes_fixed64 3 (by decide) (wireInt64_lt _) (by rfl) (by rfl)).append
          ((blockId rfl).append
            ((decodes_part 5 (by decide) short (Time.unmarshal_encode parts.valid) (by rfl)).append
              (decodes_fixed 6 (by decide) parts.chainId_fits (by decide) (by rfl) (by rfl))))))
  simpa [CanonicalVote.unmarshal] using read.merge

theorem CanonicalProposal.unmarshal_encode
    (parts : CanonicalParts proposal.blockId proposal.timestamp proposal.chainId) :
    CanonicalProposal.unmarshal proposal.encode = some proposal := by
  have short : proposal.timestamp.encode.length < 2 ^ 64 :=
    Nat.lt_of_le_of_lt proposal.timestamp.length_encode_le (by decide)
  have blockId {before : CanonicalProposal} (blank : before.blockId = none) :
      Decodes canonicalProposalFields before (optionalBlockId 5 proposal.blockId)
        { before with blockId := proposal.blockId } :=
    decodes_optionalBlockId parts canonicalProposalFields before 5 (by decide)
      (by rw [canonicalProposalFields, blank]; rfl) (by intro absent; rw [absent, ← blank])
      (by intro id there; rw [there])
  have read : Decodes canonicalProposalFields ⟨0, 0, 0, 0, none, .zero, []⟩ proposal.encode
      { proposal with
        type := unwireInt32 (wireInt32 proposal.type)
        height := unwireInt64 (wireInt64 proposal.height)
        round := unwireInt64 (wireInt64 proposal.round)
        polRound := unwireInt64 (wireInt64 proposal.polRound) } :=
    (decodes_word 1 (by decide) (wireInt32_lt _) (by rfl) (by rfl)).append
      ((decodes_fixed64 2 (by decide) (wireInt64_lt _) (by rfl) (by rfl)).append
        ((decodes_fixed64 3 (by decide) (wireInt64_lt _) (by rfl) (by rfl)).append
          ((decodes_word 4 (by decide) (wireInt64_lt _) (by rfl) (by rfl)).append
            ((blockId rfl).append
              ((decodes_part 6 (by decide) short (Time.unmarshal_encode parts.valid)
                  (by rfl)).append
                (decodes_fixed 7 (by decide) parts.chainId_fits (by decide) (by rfl)
                  (by rfl)))))))
  simpa [CanonicalProposal.unmarshal] using read.merge

variable {input : Bytes}

theorem readWord_eq_some {store : Nat → μ}
    (read : readWord word store input = some (message, rest)) :
    ∃ value, message = store value := by
  simp only [readWord, Option.bind_eq_bind, Option.bind_eq_some_iff] at read
  obtain ⟨⟨value, left⟩, -, eq⟩ := read
  exact ⟨value, (congrArg Prod.fst (Option.some.inj eq)).symm⟩

theorem readInto_eq_some {store : α → μ}
    (read : readInto decode store input = some (message, rest)) :
    ∃ body value, decode body = some value ∧ message = store value := by
  simp only [readInto, Option.bind_eq_bind, Option.bind_eq_some_iff] at read
  obtain ⟨⟨body, left⟩, -, value, decoded, eq⟩ := read
  exact ⟨body, value, decoded, (congrArg Prod.fst (Option.some.inj eq)).symm⟩

theorem Time.validate_of_unmarshal (read : Time.unmarshal input = some time) :
    time.validate = true := by
  simp only [Time.unmarshal, Option.bind_eq_bind, Option.bind_eq_some_iff] at read
  obtain ⟨other, -, fine⟩ := read
  split at fine
  next valid => exact Option.some.inj fine ▸ valid
  next => cases fine

/-- The time of a decoded vote is checked where it is there, and the default one is valid. -/
theorem CanonicalVote.timely_of_unmarshal (decoded : CanonicalVote.unmarshal input = some vote) :
    vote.timestamp.validate = true := by
  apply merge_invariant (fun vote : CanonicalVote => vote.timestamp.validate = true) _
    (by decide) decoded
  intro message field wireType read known timely input next rest run
  unfold canonicalVoteFields at known
  split at known <;> cases known
  case h_5 =>
    obtain ⟨body, time, valid, rfl⟩ := readInto_eq_some run
    exact Time.validate_of_unmarshal valid
  case h_1 | h_2 | h_3 =>
    obtain ⟨value, rfl⟩ := readWord_eq_some run
    exact timely
  case h_4 | h_6 =>
    obtain ⟨body, value, -, rfl⟩ := readInto_eq_some run
    exact timely

theorem CanonicalProposal.timely_of_unmarshal
    (decoded : CanonicalProposal.unmarshal input = some proposal) :
    proposal.timestamp.validate = true := by
  apply merge_invariant (fun proposal : CanonicalProposal => proposal.timestamp.validate = true) _
    (by decide) decoded
  intro message field wireType read known timely input next rest run
  unfold canonicalProposalFields at known
  split at known <;> cases known
  case h_6 =>
    obtain ⟨body, time, valid, rfl⟩ := readInto_eq_some run
    exact Time.validate_of_unmarshal valid
  case h_1 | h_2 | h_3 | h_4 =>
    obtain ⟨value, rfl⟩ := readWord_eq_some run
    exact timely
  case h_5 | h_7 =>
    obtain ⟨body, value, -, rfl⟩ := readInto_eq_some run
    exact timely

def delimited (message : Bytes) : Bytes :=
  putUvarint message.length ++ message

/-- Nil has no canonical block identifier. -/
def canonicalBlockId (id : BlockId) : Option BlockId :=
  if id.isZero then none else some id

def canonicalVote (chainId : Bytes) (vote : Vote) : CanonicalVote :=
  ⟨vote.type, vote.height, vote.round.toInt64, canonicalBlockId vote.blockId, vote.timestamp,
    chainId⟩

def canonicalProposal (chainId : Bytes) (proposal : Proposal) : CanonicalProposal :=
  ⟨proposalType, proposal.height, proposal.round.toInt64, proposal.polRound.toInt64,
    canonicalBlockId proposal.blockId, proposal.timestamp, chainId⟩

theorem canonicalBlockId_injective {first second : BlockId}
    (eq : canonicalBlockId first = canonicalBlockId second) : first = second := by
  rw [canonicalBlockId, canonicalBlockId] at eq
  by_cases firstZero : first.isZero <;> by_cases secondZero : second.isZero <;>
    simp [firstZero, secondZero] at eq
  · rw [BlockId.isZero_iff.mp firstZero, BlockId.isZero_iff.mp secondZero]
  · exact eq

theorem canonicalizeBlockId_eq_ok {canon : Option BlockId} :
    canonicalizeBlockId id = .ok canon ↔
      id.validateBasic = true ∧ canon = canonicalBlockId id := by
  rw [canonicalizeBlockId, canonicalBlockId]
  cases valid : id.validateBasic <;> cases zero : id.isZero <;> simp [eq_comm]

variable {chainId : Bytes}

theorem setChainId_eq_ok {stored : Bytes} :
    setChainId chainId = .ok stored ↔ chainId.length ≤ chainIdMax ∧ stored = chainId := by
  rw [setChainId]
  split
  next long => simp [Nat.not_le.mpr long]
  next short => simp [Nat.not_lt.mp short, eq_comm]

theorem fitting_eq_ok {written : Bytes} :
    fitting capacity bytes = .ok written ↔ bytes.length ≤ capacity ∧ written = bytes := by
  rw [fitting]
  split
  next long => simp [Nat.not_le.mpr long]
  next short => simp [Nat.not_lt.mp short, eq_comm]

/-- What it takes for a message with these parts to have sign bytes. -/
structure Signable (id : BlockId) (timestamp : Time) (chainId : Bytes) : Prop where
  valid : id.validateBasic = true
  timely : timestamp.validate = true
  fits : chainId.length ≤ chainIdMax

theorem Signable.parts (signable : Signable id timestamp chainId) :
    CanonicalParts (canonicalBlockId id) timestamp chainId where
  hash_fits := by
    intro other mem
    have valid := signable.valid
    have eq : other = id := by
      rw [canonicalBlockId] at mem
      split at mem
      next => cases mem
      next => exact (Option.some.inj mem).symm
    simp only [BlockId.validateBasic, PartSetHeader.validateBasic, validateHash,
      Bool.and_eq_true, Bool.or_eq_true, decide_eq_true_eq] at valid
    rw [eq]
    omega
  valid := signable.timely
  chainId_fits := signable.fits

theorem length_delimited_le (short : body.length ≤ 241) :
    (delimited body).length ≤ signBytesMax := by
  have size : (putUvarint body.length).length ≤ 2 :=
    length_uvarintBytes_of_lt 1 9 (by omega)
  rw [delimited, length_append, signBytesMax]
  omega

theorem signBytes_eq_ok {encode : Option BlockId → Bytes → Bytes}
    (short : Signable id timestamp chainId → (encode (canonicalBlockId id) chainId).length ≤ 241) :
    (do
      let blockId ← canonicalizeBlockId id
      let chainId ← setChainId chainId
      let body ← (if chainIdMax < chainId.length then .error .reject
        else if !timestamp.validate then .error .reject
        else fitting signBytesMax (encode blockId chainId))
      marshalDelimited body signBytesMax) = .ok bytes ↔
      Signable id timestamp chainId ∧
        bytes = delimited (encode (canonicalBlockId id) chainId) := by
  simp only [bind_eq_ok, canonicalizeBlockId_eq_ok, setChainId_eq_ok, ite_error_eq_ok,
    marshalDelimited, fitting_eq_ok]
  constructor
  · rintro ⟨_, ⟨valid, rfl⟩, _, ⟨fits, rfl⟩, _, ⟨-, timely, -, rfl⟩, -, rfl⟩
    exact ⟨⟨valid, by simpa using timely, fits⟩, rfl⟩
  · rintro ⟨signable, rfl⟩
    have length := short signable
    refine ⟨_, ⟨signable.valid, rfl⟩, _, ⟨signable.fits, rfl⟩, _,
      ⟨Nat.not_lt.mpr signable.fits, by simp [signable.timely], ?_, rfl⟩, ?_, rfl⟩
    · rw [signBytesMax]
      omega
    · exact length_delimited_le length

/-- A vote has sign bytes exactly when its parts are well formed: the framed encoding of its
canonical form. -/
theorem voteSignBytes_eq_ok {vote : Vote} :
    voteSignBytes chainId vote = .ok bytes ↔
      Signable vote.blockId vote.timestamp chainId ∧
      bytes = delimited (canonicalVote chainId vote).encode := by
  simp only [voteSignBytes, canonicalizeVote, CanonicalVote.marshal, bind_assoc, pure_bind]
  apply signBytes_eq_ok
  intro signable
  have length : (canonicalVote chainId vote).encode.length ≤ 230 :=
    CanonicalVote.length_encode_le signable.parts
  exact length.trans (by decide)

theorem proposalSignBytes_eq_ok {proposal : Proposal} :
    proposalSignBytes chainId proposal = .ok bytes ↔
      Signable proposal.blockId proposal.timestamp chainId ∧
      bytes = delimited (canonicalProposal chainId proposal).encode := by
  simp only [proposalSignBytes, canonicalizeProposal, CanonicalProposal.marshal, bind_assoc,
    pure_bind]
  apply signBytes_eq_ok
  intro signable
  exact CanonicalProposal.length_encode_le signable.parts

theorem readDelimited_delimited (short : body.length < 2 ^ 64) :
    readDelimited (delimited body) = some (body, []) := by
  have read := readDelimited_putUvarint short []
  rwa [append_nil] at read

def decodeVote (bytes : Bytes) : Option CanonicalVote := do
  let (body, _) ← readDelimited bytes
  CanonicalVote.unmarshal body

def decodeProposal (bytes : Bytes) : Option CanonicalProposal := do
  let (body, _) ← readDelimited bytes
  CanonicalProposal.unmarshal body

theorem decodeVote_timely (read : decodeVote bytes = some vote) :
    vote.timestamp.validate = true := by
  obtain ⟨⟨body, rest⟩, -, unmarshalled⟩ := Option.bind_eq_some_iff.mp read
  exact CanonicalVote.timely_of_unmarshal unmarshalled

theorem decodeProposal_timely (read : decodeProposal bytes = some proposal) :
    proposal.timestamp.validate = true := by
  obtain ⟨⟨body, rest⟩, -, unmarshalled⟩ := Option.bind_eq_some_iff.mp read
  exact CanonicalProposal.timely_of_unmarshal unmarshalled

theorem decodeVote_voteSignBytes {vote : Vote} (signed : voteSignBytes chainId vote = .ok bytes) :
    decodeVote bytes = some (canonicalVote chainId vote) := by
  obtain ⟨signable, rfl⟩ := voteSignBytes_eq_ok.mp signed
  have length : (canonicalVote chainId vote).encode.length ≤ 230 :=
    CanonicalVote.length_encode_le signable.parts
  have read : CanonicalVote.unmarshal (canonicalVote chainId vote).encode = _ :=
    CanonicalVote.unmarshal_encode signable.parts
  have framed := readDelimited_delimited
    (show (canonicalVote chainId vote).encode.length < 2 ^ 64 by omega)
  simp [decodeVote, framed, read]

theorem decodeProposal_proposalSignBytes {proposal : Proposal}
    (signed : proposalSignBytes chainId proposal = .ok bytes) :
    decodeProposal bytes = some (canonicalProposal chainId proposal) := by
  obtain ⟨signable, rfl⟩ := proposalSignBytes_eq_ok.mp signed
  have length : (canonicalProposal chainId proposal).encode.length ≤ 241 :=
    CanonicalProposal.length_encode_le signable.parts
  have read : CanonicalProposal.unmarshal (canonicalProposal chainId proposal).encode = _ :=
    CanonicalProposal.unmarshal_encode signable.parts
  have framed := readDelimited_delimited
    (show (canonicalProposal chainId proposal).encode.length < 2 ^ 64 by omega)
  simp [decodeProposal, framed, read]

/-- Sign bytes determine what was signed. -/
theorem voteSignBytes_injective {otherChainId : Bytes} {vote other : Vote}
    (signed : voteSignBytes chainId vote = .ok bytes)
    (otherSigned : voteSignBytes otherChainId other = .ok bytes) :
    canonicalVote chainId vote = canonicalVote otherChainId other := by
  have first := decodeVote_voteSignBytes signed
  have second := decodeVote_voteSignBytes otherSigned
  exact Option.some.inj (first.symm.trans second)

end DnaLedger.Cmt
