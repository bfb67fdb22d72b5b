import DnaLedger.Foundation.Bytes
import DnaLedger.Foundation.Program

/-!
# Block identifiers, votes and proposals

The messages that validators sign, as `cmt_pb.h` lays them out, with the checks of
`cmt_part_set.c`, `cmt_block.c`, `cmt_vote.c` and `cmt_proposal.c` on them.  A byte
field with an explicit length is a list of bytes.
-/

namespace DnaLedger.Cmt

def tmhashSize : Nat := 64

def addressSize : Nat := 32

def maxSignatureSize : Nat := 4627

def chainIdMax : Nat := 32

/-- `CMT_PB_MSG_TYPE_PREVOTE` -/
def prevoteType : Int32 := 1

/-- `CMT_PB_MSG_TYPE_PRECOMMIT` -/
def precommitType : Int32 := 2

/-- `CMT_PB_MSG_TYPE_PROPOSAL` -/
def proposalType : Int32 := 32

structure PartSetHeader where
  total : UInt32
  hash : Bytes
  deriving DecidableEq

structure BlockId where
  hash : Bytes
  partSetHeader : PartSetHeader
  deriving DecidableEq

structure Time where
  seconds : Int64
  nanos : Int32
  deriving DecidableEq

structure Vote where
  type : Int32
  height : Int64
  round : Int32
  blockId : BlockId
  timestamp : Time
  validatorAddress : Bytes
  validatorIndex : Int32
  signature : Bytes
  extension : Bytes
  extensionSignature : Bytes
  deriving DecidableEq

structure Proposal where
  type : Int32
  height : Int64
  round : Int32
  polRound : Int32
  blockId : BlockId
  timestamp : Time
  signature : Bytes
  deriving DecidableEq

/-- No hash, or one digest. -/
def validateHash (hash : Bytes) : Bool :=
  hash.length = 0 || hash.length = tmhashSize

def PartSetHeader.isZero (header : PartSetHeader) : Bool :=
  header.total = 0 && header.hash.length = 0

def PartSetHeader.validateBasic (header : PartSetHeader) : Bool :=
  validateHash header.hash

def BlockId.validateBasic (id : BlockId) : Bool :=
  validateHash id.hash && id.partSetHeader.validateBasic

def BlockId.isZero (id : BlockId) : Bool :=
  id.hash.length = 0 && id.partSetHeader.isZero

def BlockId.isComplete (id : BlockId) : Bool :=
  id.hash.length = tmhashSize && 0 < id.partSetHeader.total &&
    id.partSetHeader.hash.length = tmhashSize

/-- The zero block identifier, which stands for nil. -/
def BlockId.zero : BlockId :=
  ⟨[], ⟨0, []⟩⟩

theorem BlockId.isZero_iff {id : BlockId} : id.isZero = true ↔ id = BlockId.zero := by
  cases id with
  | mk hash header =>
    cases header with
    | mk total headerHash =>
      simp [isZero, PartSetHeader.isZero, BlockId.zero]

def timeMinSeconds : Int64 := -62135596800

def timeMaxSeconds : Int64 := 253402300800

def timeNanosPerSecond : Int32 := 1000000000

def Time.zero : Time :=
  ⟨timeMinSeconds, 0⟩

def Time.validate (time : Time) : Bool :=
  timeMinSeconds ≤ time.seconds && time.seconds < timeMaxSeconds &&
    0 ≤ time.nanos && time.nanos < timeNanosPerSecond

def isVoteTypeValid (type : Int32) : Bool :=
  type = prevoteType || type = precommitType

def Vote.validateBasic (vote : Vote) : Bool :=
  isVoteTypeValid vote.type && 0 < vote.height && 0 ≤ vote.round &&
    vote.blockId.validateBasic && (vote.blockId.isZero || vote.blockId.isComplete) &&
    vote.validatorAddress.length = addressSize && 0 ≤ vote.validatorIndex &&
    vote.signature.length ≠ 0 && vote.signature.length ≤ maxSignatureSize &&
    (if vote.type ≠ precommitType ∨ vote.blockId.isZero then
      vote.extension.length = 0 && vote.extensionSignature.length = 0
    else
      vote.extensionSignature.length ≤ maxSignatureSize &&
        !(vote.extensionSignature.length = 0 && vote.extension.length ≠ 0))

section

variable {vote : Vote} (valid : vote.validateBasic = true)

include valid

theorem Vote.validateBasic_blockId : vote.blockId.validateBasic = true := by
  grind [Vote.validateBasic]

theorem Vote.validateBasic_address : vote.validatorAddress.length = addressSize := by
  grind [Vote.validateBasic]

/-- The identifier of a valid vote is nil or complete. -/
theorem Vote.validateBasic_votable :
    vote.blockId.isZero = true ∨ vote.blockId.isComplete = true := by
  grind [Vote.validateBasic]

theorem Vote.validateBasic_signature :
    vote.signature.length ≠ 0 ∧ vote.signature.length ≤ maxSignatureSize := by
  grind [Vote.validateBasic]

theorem Vote.validateBasic_extensionSignature :
    vote.extensionSignature.length ≤ maxSignatureSize := by
  grind [Vote.validateBasic]

theorem Vote.validateBasic_extension (zero : vote.blockId.isZero = true) :
    vote.extension = [] ∧ vote.extensionSignature = [] := by
  grind [Vote.validateBasic]

end

def Proposal.validateBasic (proposal : Proposal) : Bool :=
  proposal.type = proposalType && 0 ≤ proposal.height && 0 ≤ proposal.round &&
    -1 ≤ proposal.polRound && proposal.blockId.validateBasic && proposal.blockId.isComplete &&
    proposal.signature.length ≠ 0 && proposal.signature.length ≤ maxSignatureSize

end DnaLedger.Cmt
