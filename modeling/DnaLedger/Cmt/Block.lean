import DnaLedger.Cmt.Commit
import DnaLedger.Cmt.Merkle

/-!
# Blocks

Model of the headers, commits and blocks of `cmt_block.c` and of the evidence of `cmt_evidence.c`,
with their messages in `cmt_pb.c` and `cmt_pb_store.c`. Of the encoders only those whose bytes are
hashed are here. A list that outgrows the array of the caller is refused.
-/

namespace DnaLedger.Cmt

open Wire

structure Consensus where
  block : UInt64
  app : UInt64
  deriving DecidableEq

structure Header where
  version : Consensus
  chainId : Bytes
  height : Int64
  time : Time
  lastBlockId : BlockId
  lastCommitHash : Bytes
  dataHash : Bytes
  validatorsHash : Bytes
  nextValidatorsHash : Bytes
  consensusHash : Bytes
  appHash : Bytes
  lastResultsHash : Bytes
  evidenceHash : Bytes
  proposerAddress : Bytes
  deriving DecidableEq

structure DuplicateVoteEvidence where
  voteA : Option Vote
  voteB : Option Vote
  totalVotingPower : Int64
  validatorPower : Int64
  timestamp : Time
  deriving DecidableEq

structure Evidence where
  duplicateVoteEvidence : Option DuplicateVoteEvidence
  deriving DecidableEq

structure Block where
  header : Header
  txs : List Bytes
  evidence : List Evidence
  lastCommit : Option Commit
  deriving DecidableEq

def Header.init : Header where
  version := ⟨0, 0⟩
  chainId := []
  height := 0
  time := .zero
  lastBlockId := .zero
  lastCommitHash := []
  dataHash := []
  validatorsHash := []
  nextValidatorsHash := []
  consensusHash := []
  appHash := []
  lastResultsHash := []
  evidenceHash := []
  proposerAddress := []

def Vote.init : Vote :=
  ⟨0, 0, 0, .zero, .zero, [], 0, [], [], []⟩

def CommitSig.init : CommitSig :=
  ⟨0, [], .zero, []⟩

def Commit.init : Commit :=
  ⟨0, 0, .zero, []⟩

def DuplicateVoteEvidence.init : DuplicateVoteEvidence :=
  ⟨none, none, 0, 0, .zero⟩

/-- `consensus_wr` -/
def Consensus.encode (version : Consensus) : Bytes :=
  varintField 1 version.block.toNat ++ varintField 2 version.app.toNat

/-- `commit_sig_wr`; the caller has checked the time. -/
def CommitSig.encode (sig : CommitSig) : Bytes :=
  varintField 1 (wireInt32 sig.blockIdFlag) ++ (bytesField 2 sig.validatorAddress ++
    (messageField 3 sig.timestamp.encode ++ bytesField 4 sig.signature))

def CommitSig.marshal (sig : CommitSig) (capacity : Nat) : Except Failure Bytes :=
  if addressSize < sig.validatorAddress.length ∨ maxSignatureSize < sig.signature.length then
    .error .reject
  else if !sig.timestamp.validate then .error .reject
  else fitting capacity sig.encode

/-- `vote_wr`; the caller has checked the time. -/
def Vote.encode (vote : Vote) : Bytes :=
  varintField 1 (wireInt32 vote.type) ++ (varintField 2 (wireInt64 vote.height) ++
    (varintField 3 (wireInt32 vote.round) ++ (messageField 4 vote.blockId.encode ++
      (messageField 5 vote.timestamp.encode ++ (bytesField 6 vote.validatorAddress ++
        (varintField 7 (wireInt32 vote.validatorIndex) ++ (bytesField 8 vote.signature ++
          (bytesField 9 vote.extension ++ bytesField 10 vote.extensionSignature))))))))

def optionalVote (field : Nat) : Option Vote → Bytes
  | none => []
  | some vote => messageField field vote.encode

/-- `dve_wr`; the caller has checked the times. -/
def DuplicateVoteEvidence.encode (dve : DuplicateVoteEvidence) : Bytes :=
  optionalVote 1 dve.voteA ++ (optionalVote 2 dve.voteB ++
    (varintField 3 (wireInt64 dve.totalVotingPower) ++
      (varintField 4 (wireInt64 dve.validatorPower) ++ messageField 5 dve.timestamp.encode)))

/-- The times that `dve_wr` checks. -/
def DuplicateVoteEvidence.timely (dve : DuplicateVoteEvidence) : Bool :=
  dve.timestamp.validate && dve.voteB.all (·.timestamp.validate) &&
    dve.voteA.all (·.timestamp.validate)

def DuplicateVoteEvidence.marshal (dve : DuplicateVoteEvidence) (capacity : Nat) :
    Except Failure Bytes :=
  if !dve.timely then .error .reject else fitting capacity dve.encode

/-- `consensus_merge` -/
def consensusFields : Fields Consensus := fun version field =>
  match field with
  | 1 => some (0, readWord getUvarint fun v => { version with block := UInt64.ofNat v })
  | 2 => some (0, readWord getUvarint fun v => { version with app := UInt64.ofNat v })
  | _ => none

/-- A field of a header that is copied into an array of a fixed size. -/
def headerBytes (capacity : Nat) (store : Bytes → Header) : Option (Nat × Reader Header) :=
  some (2, readInto (copyFixed capacity) store)

/-- `header_merge` -/
def headerFields : Fields Header := fun header field =>
  match field with
  | 1 => some (2, readInto (merge consensusFields header.version)
      fun version => { header with version })
  | 2 => headerBytes chainIdMax fun chainId => { header with chainId }
  | 3 => some (0, readWord getUvarint fun v => { header with height := unwireInt64 v })
  | 4 => some (2, readInto Time.unmarshal fun time => { header with time })
  | 5 => some (2, readInto (merge blockIdFields header.lastBlockId)
      fun lastBlockId => { header with lastBlockId })
  | 6 => headerBytes tmhashSize fun lastCommitHash => { header with lastCommitHash }
  | 7 => headerBytes tmhashSize fun dataHash => { header with dataHash }
  | 8 => headerBytes tmhashSize fun validatorsHash => { header with validatorsHash }
  | 9 => headerBytes tmhashSize fun nextValidatorsHash => { header with nextValidatorsHash }
  | 10 => headerBytes tmhashSize fun consensusHash => { header with consensusHash }
  | 11 => headerBytes tmhashSize fun appHash => { header with appHash }
  | 12 => headerBytes tmhashSize fun lastResultsHash => { header with lastResultsHash }
  | 13 => headerBytes tmhashSize fun evidenceHash => { header with evidenceHash }
  | 14 => headerBytes addressSize fun proposerAddress => { header with proposerAddress }
  | _ => none

def Header.unmarshal (input : Bytes) : Option Header :=
  merge headerFields .init input

/-- `vote_merge` -/
def voteFields : Fields Vote := fun vote field =>
  match field with
  | 1 => some (0, readWord getUvarint fun v => { vote with type := unwireInt32 v })
  | 2 => some (0, readWord getUvarint fun v => { vote with height := unwireInt64 v })
  | 3 => some (0, readWord getUvarint fun v => { vote with round := unwireInt32 v })
  | 4 => some (2, readInto (merge blockIdFields vote.blockId) fun blockId => { vote with blockId })
  | 5 => some (2, readInto Time.unmarshal fun timestamp => { vote with timestamp })
  | 6 => some (2, readInto (copyFixed addressSize)
      fun validatorAddress => { vote with validatorAddress })
  | 7 => some (0, readWord getUvarint fun v => { vote with validatorIndex := unwireInt32 v })
  | 8 => some (2, readInto (copyFixed maxSignatureSize) fun signature => { vote with signature })
  | 9 => some (2, readInto some fun extension => { vote with extension })
  | 10 => some (2, readInto (copyFixed maxSignatureSize)
      fun extensionSignature => { vote with extensionSignature })
  | _ => none

/-- `dve_merge`; a vote that comes twice is merged into what is there. -/
def dveFields : Fields DuplicateVoteEvidence := fun dve field =>
  match field with
  | 1 => some (2, readInto (merge voteFields (dve.voteA.getD .init))
      fun vote => { dve with voteA := some vote })
  | 2 => some (2, readInto (merge voteFields (dve.voteB.getD .init))
      fun vote => { dve with voteB := some vote })
  | 3 => some (0, readWord getUvarint fun v => { dve with totalVotingPower := unwireInt64 v })
  | 4 => some (0, readWord getUvarint fun v => { dve with validatorPower := unwireInt64 v })
  | 5 => some (2, readInto Time.unmarshal fun timestamp => { dve with timestamp })
  | _ => none

/-- The tag loop of `cmt_pb_evidence_unmarshal`; an unknown field is refused, not skipped. -/
def evidenceFields : Fields Evidence := fun evidence field =>
  match field with
  | 1 => some (2, readInto (merge dveFields (evidence.duplicateVoteEvidence.getD .init))
      fun dve => ⟨some dve⟩)
  | _ => some (2, fun _ => none)

def Evidence.unmarshal (input : Bytes) : Option Evidence :=
  merge evidenceFields ⟨none⟩ input

/-- `commit_sig_merge` -/
def commitSigFields : Fields CommitSig := fun sig field =>
  match field with
  | 1 => some (0, readWord getUvarint fun v => { sig with blockIdFlag := unwireInt32 v })
  | 2 => some (2, readInto (copyFixed addressSize)
      fun validatorAddress => { sig with validatorAddress })
  | 3 => some (2, readInto Time.unmarshal fun timestamp => { sig with timestamp })
  | 4 => some (2, readInto (copyFixed maxSignatureSize) fun signature => { sig with signature })
  | _ => none

/-- The caller's arrays for the lists of a block.  No array of the machine has `2 ^ 63`
entries. -/
structure BlockStorage where
  txsCap : Nat
  evidenceCap : Nat
  signaturesCap : Nat
  txs_fit : txsCap < 2 ^ 63
  evidence_fit : evidenceCap < 2 ^ 63
  signatures_fit : signaturesCap < 2 ^ 63

/-- An item of a repeated field goes to the end of an array that has room for it. -/
def appendItem {α : Type} (capacity : Nat) (decode : Bytes → Option α) (items : List α) :
    Option (Nat × Reader (List α)) :=
  some (2, readInto (fun body => if capacity ≤ items.length then none else decode body)
    fun item => items ++ [item])

/-- `data_merge` -/
def dataFields (capacity : Nat) : Fields (List Bytes) := fun txs field =>
  match field with
  | 1 => appendItem capacity some txs
  | _ => none

/-- `evidence_list_merge` -/
def evidenceListFields (capacity : Nat) : Fields (List Evidence) := fun evidence field =>
  match field with
  | 1 => appendItem capacity Evidence.unmarshal evidence
  | _ => none

/-- `commit_merge` -/
def commitFields (capacity : Nat) : Fields Commit := fun commit field =>
  match field with
  | 1 => some (0, readWord getUvarint fun v => { commit with height := unwireInt64 v })
  | 2 => some (0, readWord getUvarint fun v => { commit with round := unwireInt32 v })
  | 3 => some (2, readInto (merge blockIdFields commit.blockId)
      fun blockId => { commit with blockId })
  | 4 => some (2, readInto
      (fun body => if capacity ≤ commit.signatures.length then none
        else merge commitSigFields .init body)
      fun sig => { commit with signatures := commit.signatures ++ [sig] })
  | _ => none

/-- The tag loop of `cmt_pb_block_unmarshal`. A second header, list of transactions or commit
replaces the first; the evidence of a second list is appended. -/
def blockFields (storage : BlockStorage) : Fields Block := fun block field =>
  match field with
  | 1 => some (2, readInto Header.unmarshal fun header => { block with header })
  | 2 => some (2, readInto (merge (dataFields storage.txsCap) []) fun txs => { block with txs })
  | 3 => some (2, readInto (merge (evidenceListFields storage.evidenceCap) block.evidence)
      fun evidence => { block with evidence })
  | 4 => some (2, readInto (merge (commitFields storage.signaturesCap) .init)
      fun commit => { block with lastCommit := some commit })
  | _ => none

def Block.unmarshal (storage : BlockStorage) (input : Bytes) : Option Block :=
  merge (blockFields storage) ⟨.init, [], [], none⟩ input

def maxChainIdLen : Nat := 50

def maxCommitSigBytes : Nat := 4685

def headerLeafMax : Nat := blockIdMaxBytes

/-- Why there is no hash: `CMT_HASH_NIL`, or a failure. -/
inductive HashRefusal where
  | nil
  | failed (code : Failure)
  deriving DecidableEq

/-- A failure that the caller answers with a refusal of its own. -/
def answer {α : Type} (refusal : HashRefusal) : Except Failure α → Except HashRefusal α
  | .ok value => .ok value
  | .error _ => .error refusal

/-- A failure that the caller hands on. -/
def handOn {α : Type} : Except Failure α → Except HashRefusal α
  | .ok value => .ok value
  | .error code => .error (.failed code)

def Vote.fromProto (vote : Vote) : Except Failure Vote :=
  if vote.blockId.validateBasic then .ok vote else .error .reject

/-- `key_compare` is negative: the first key comes before the second one. -/
def keyBefore : Bytes → Bytes → Bool
  | [], [] => false
  | [], _ :: _ => true
  | _ :: _, [] => false
  | first :: rest, second :: rest' =>
    if first = second then keyBefore rest rest' else first < second

def DuplicateVoteEvidence.validateBasic (dve : DuplicateVoteEvidence) : Except Failure Unit :=
  match dve.voteA, dve.voteB with
  | some voteA, some voteB =>
    if !voteA.validateBasic then .error .reject
    else if !voteB.validateBasic then .error .reject
    else do
      let keyA ← voteA.blockId.key
      let keyB ← voteB.blockId.key
      if keyBefore keyA keyB then .ok () else .error .reject
  | _, _ => .error .reject

/-- A vote of `cmt_dve_from_proto`, where there is one. -/
def dveVote : Option Vote → Except Failure (Option Vote)
  | none => .ok none
  | some vote => do
      let vote ← vote.fromProto
      if vote.validateBasic then .ok (some vote) else .error .reject

def DuplicateVoteEvidence.fromProto (dve : DuplicateVoteEvidence) :
    Except Failure DuplicateVoteEvidence := do
  let voteA ← dveVote dve.voteA
  let voteB ← dveVote dve.voteB
  let decoded := { dve with voteA, voteB }
  decoded.validateBasic
  return decoded

def Evidence.fromProto (evidence : Evidence) : Except Failure DuplicateVoteEvidence :=
  match evidence.duplicateVoteEvidence with
  | none => .error .reject
  | some dve => dve.fromProto

/-- `vote_bound`, before it is cut to a `size_t`. -/
def voteBound (vote : Vote) : Nat :=
  11 + 11 + 11 + (11 + blockIdMaxBytes) + (11 + 17) + (11 + addressSize) + 11 +
    (11 + maxSignatureSize) + (11 + vote.extension.length) + (11 + maxSignatureSize)

/-- A vote that is not there has no extension. -/
def dveUpperBound (dve : DuplicateVoteEvidence) : Nat :=
  ((11 + voteBound (dve.voteA.getD .init)) + (11 + voteBound (dve.voteB.getD .init)) +
    11 + 11 + (11 + 17)) % 2 ^ 64

variable (tmhash : Hash)

/-- A leaf of `cmt_evidence_list_hash`. -/
def Evidence.leaf (evidence : Evidence) : Except Failure Bytes :=
  match evidence.duplicateVoteEvidence with
  | none => .error .reject
  | some dve => dve.marshal (dveUpperBound dve)

def evidenceListHash (evidence : List Evidence) : Except Failure Digest := do
  let leaves ← evidence.mapM Evidence.leaf
  hashFromByteSlices tmhash leaves

def txHash (tx : Bytes) : Digest :=
  tmhash tx

def dataHash (txs : List Bytes) : Except Failure Digest :=
  hashFromByteSlices tmhash (txs.map fun tx => (txHash tmhash tx).val)

def Commit.validateBasic (commit : Commit) : Bool :=
  0 ≤ commit.height && 0 ≤ commit.round &&
    (commit.height < 1 || (!commit.blockId.isZero && commit.signatures.length ≠ 0 &&
      commit.signatures.all CommitSig.validateBasic))

def commitHash : Option Commit → Except HashRefusal Digest
  | none => .error .nil
  | some commit => handOn do
      let leaves ← commit.signatures.mapM fun sig => sig.marshal maxCommitSigBytes
      hashFromByteSlices tmhash leaves

/-- The application hash is not checked. -/
def Header.validateBasic (header : Header) (blockProtocol : UInt64) : Bool :=
  header.version.block = blockProtocol && header.chainId.length ≤ maxChainIdLen &&
    0 < header.height && header.lastBlockId.validateBasic &&
    validateHash header.lastCommitHash && validateHash header.dataHash &&
    validateHash header.evidenceHash && header.proposerAddress.length = addressSize &&
    validateHash header.validatorsHash && validateHash header.nextValidatorsHash &&
    validateHash header.consensusHash && validateHash header.lastResultsHash

/-- `cmt_pb_cdc_encode_string` and `cmt_pb_cdc_encode_bytes`; an empty value is a nil leaf. -/
def cdcEncodeBytes (value : Bytes) : Except Failure Bytes :=
  if value.length = 0 then .ok [] else fitting headerLeafMax (bytesField 1 value)

def cdcEncodeInt64 (value : Int64) : Except Failure Bytes :=
  fitting headerLeafMax (varintField 1 (wireInt64 value))

def Time.marshal (time : Time) (capacity : Nat) : Except Failure Bytes :=
  if !time.validate then .error .reject else fitting capacity time.encode

def BlockId.marshal (id : BlockId) (capacity : Nat) : Except Failure Bytes :=
  if tmhashSize < id.hash.length ∨ tmhashSize < id.partSetHeader.hash.length then .error .reject
  else fitting capacity id.encode

/-- The eight hashes and the proposer's address, in the order of the leaves. -/
def Header.byteFields (header : Header) : List Bytes :=
  [header.lastCommitHash, header.dataHash, header.validatorsHash, header.nextValidatorsHash,
    header.consensusHash, header.appHash, header.lastResultsHash, header.evidenceHash,
    header.proposerAddress]

/-- The leaves of `cmt_header_hash`. -/
def Header.leaves (header : Header) : Except HashRefusal (List Bytes) :=
  if header.validatorsHash.length = 0 then .error .nil
  else do
    let version ← answer .nil (fitting headerLeafMax header.version.encode)
    let chainId ← answer (.failed .fault) (cdcEncodeBytes header.chainId)
    let height ← answer (.failed .fault) (cdcEncodeInt64 header.height)
    let time ← answer .nil (header.time.marshal headerLeafMax)
    let lastBlockId ← answer .nil (header.lastBlockId.marshal headerLeafMax)
    let bytes ← answer (.failed .fault) (header.byteFields.mapM cdcEncodeBytes)
    return [version, chainId, height, time, lastBlockId] ++ bytes

def Header.hash (header : Header) : Except HashRefusal Digest := do
  let leaves ← header.leaves
  handOn (hashFromByteSlices tmhash leaves)

/-- The hashes that the header does not have yet. -/
def fillHeader : Program Block Unit := do
  let block ← get
  if block.header.lastCommitHash.length = 0 then
    match commitHash tmhash block.lastCommit with
    | .error .nil => pure ()
    | .error (.failed code) => throw code
    | .ok digest =>
      set { block with header := { block.header with lastCommitHash := digest.val } }
  let block ← get
  if block.header.dataHash.length = 0 then
    let digest ← liftM (dataHash tmhash block.txs)
    set { block with header := { block.header with dataHash := digest.val } }
  let block ← get
  if block.header.evidenceHash.length = 0 then
    let digest ← liftM (evidenceListHash tmhash block.evidence)
    set { block with header := { block.header with evidenceHash := digest.val } }

/-- The commit hash that `cmt_block_validate_basic` compares; the commit is there. -/
def lastCommitDigest (commit : Commit) : Except Failure Digest :=
  match commitHash tmhash (some commit) with
  | .ok digest => .ok digest
  | .error .nil => .error .reject
  | .error (.failed code) => .error code

/-- A recomputed hash against the one of the header. -/
def sameHash (stored : Bytes) (digest : Digest) : Except Failure Unit :=
  if stored = digest.val then .ok () else .error .reject

def Block.validateBasic (block : Block) (blockProtocol : UInt64) : Except Failure Unit :=
  if !block.header.validateBasic blockProtocol then .error .reject
  else
    match block.lastCommit with
    | none => .error .reject
    | some commit =>
      if !commit.validateBasic then .error .reject
      else do
        let lastCommit ← lastCommitDigest tmhash commit
        sameHash block.header.lastCommitHash lastCommit
        let data ← dataHash tmhash block.txs
        sameHash block.header.dataHash data
        let _ ← block.evidence.mapM Evidence.fromProto
        let evidence ← evidenceListHash tmhash block.evidence
        sameHash block.header.evidenceHash evidence

/-- None where the last commit is missing or a header has no hash. -/
def Block.hash : Program Block (Option Digest) := do
  let block ← get
  match block.lastCommit with
  | none => return none
  | some _ =>
    fillHeader tmhash
    let block ← get
    match block.header.hash tmhash with
    | .ok digest => return some digest
    | .error .nil => return none
    | .error (.failed code) => throw code

end DnaLedger.Cmt
