import DnaLedger.Foundation.Layout
import DnaLedger.Foundation.Sorting

/-!
# The version-2 ledger roots

Model of the tagged roots of `ledger_roots_v2.c`. Parallel arrays are one list of rows.
-/

namespace DnaLedger.Ledger

section

variable (sha3 : Hash) (nodeTag : Tag)

/-- What `tagged_merkle` hashes for an inner node. -/
def nodeInput (left right : Digest) : Bytes :=
  nodeTag.val ++ (left.val ++ right.val)

/-- The inner loop of `tagged_merkle`, which reads pairs at `i` and writes at `next`. -/
def pairLevel (n : Nat) (level : List Digest) (i next : Nat) : Option (List Digest × Nat) :=
  if i + 1 < n then
    match level[i]?, level[i + 1]? with
    | some left, some right =>
      pairLevel n (level.set next (sha3 (nodeInput nodeTag left right))) (i + 2) (next + 1)
    | _, _ => none
  else some (level, next)
termination_by n - i

/-- One round of the loop of `tagged_merkle`: the pairs, then the unpaired node. -/
def taggedLevel (n : Nat) (level : List Digest) : Option (List Digest × Nat) := do
  let (level, next) ← pairLevel sha3 nodeTag n level 0 0
  if n % 2 = 1 then
    match level[n - 1]? with
    | some last => return (level.set next last, next + 1)
    | none => none
  else return (level, next)

/-- `tagged_merkle` over the first `n` hashes; each round makes the level smaller. -/
def taggedMerkle : Nat → List Digest → Nat → Option Digest
  | 0, _, _ => none
  | fuel + 1, level, n =>
    if 1 < n then do
      let (level, n) ← taggedLevel sha3 nodeTag n level
      taggedMerkle fuel level n
    else level[0]?

end

/-- What the root functions differ in: tags, order and the input for a row, which some rows lack. -/
structure RootKind (Row : Type) where
  emptyTag : Tag
  leafTag : Tag
  nodeTag : Tag
  precedes : Row → Row → Bool
  leafInput : Row → Option Bytes

namespace RootKind

variable {Row : Type} (kind : RootKind Row) (sha3 : Hash)

def leafHash (row : Row) : Option Digest :=
  (kind.leafInput row).map sha3

def root (rows : List Row) : Option Digest :=
  match rows with
  | [] => some (sha3 kind.emptyTag.val)
  | row :: rest =>
    if Sorting.ascending kind.precedes (row :: rest) then do
      let hashes ← (row :: rest).mapM (kind.leafHash sha3)
      taggedMerkle sha3 kind.nodeTag hashes.length hashes hashes.length
    else none

end RootKind

def tokenStrMax : Nat := 1024

@[ext] structure TokenLeaf where
  tokenId : Digest
  name : Bytes
  symbol : Bytes
  creatorFp : Bytes
  decimals : UInt8
  flags : UInt8
  supply : UInt64
  blockHeight : UInt64

/-- The preimage of `dna_v2_token_leaf_hash`. -/
def tokenLeafInput (leaf : TokenLeaf) : Option Bytes :=
  if tokenStrMax < leaf.name.length ∨ tokenStrMax < leaf.symbol.length ∨
      tokenStrMax < leaf.creatorFp.length then none
  else some ((tag "NDS.TOKLEAF.v1").val ++ (leaf.tokenId.val ++ (leaf.decimals :: leaf.flags ::
    (Layout.be64.write leaf.supply ++ (Layout.be64.write leaf.blockHeight ++
      (sized 2 leaf.name ++ (sized 2 leaf.symbol ++ sized 2 leaf.creatorFp)))))))

def tokenKind : RootKind TokenLeaf where
  emptyTag := tag "NDS.E.TOKENS.v1"
  leafTag := tag "NDS.TOKLEAF.v1"
  nodeTag := tag "NDS.TOKNODE.v1"
  precedes first second := decide (first.tokenId.val < second.tokenId.val)
  leafInput := tokenLeafInput

section

variable (sha3 : Hash)

def tokenRoot : List TokenLeaf → Option Digest :=
  tokenKind.root sha3

@[ext] structure VsetRow where
  epoch : UInt64
  snapshotHash : Digest

def vsetLeafInput (row : VsetRow) : Bytes :=
  (tag "NDS.VSLEAF.v1").val ++ (Layout.be64.write row.epoch ++ row.snapshotHash.val)

def vsetKind : RootKind VsetRow where
  emptyTag := tag "NDS.E.VSET.v1"
  leafTag := tag "NDS.VSLEAF.v1"
  nodeTag := tag "NDS.VSNODE.v1"
  precedes first second := decide (first.epoch < second.epoch)
  leafInput row := some (vsetLeafInput row)

def vsetRoot : List VsetRow → Option Digest :=
  vsetKind.root sha3

@[ext] structure AccrualRow where
  ownerFp : Digest
  amount : UInt64

/-- The preimage of `dna_v2_accrual_leaf_hash`. -/
def accrualLeafInput (row : AccrualRow) : Bytes :=
  (tag "NDS.ACLEAF.v1").val ++ (row.ownerFp.val ++ Layout.be64.write row.amount)

def accrualKind : RootKind AccrualRow where
  emptyTag := tag "NDS.E.ACCRU.v1"
  leafTag := tag "NDS.ACLEAF.v1"
  nodeTag := tag "NDS.ACNODE.v1"
  precedes first second := decide (first.ownerFp.val < second.ownerFp.val)
  leafInput row := some (accrualLeafInput row)

def accrualRoot : List AccrualRow → Option Digest :=
  accrualKind.root sha3

def nameMaxLen : Nat := 36

/-- `dna_v2_name_row_t`; the name has the bytes that its length covers. -/
@[ext] structure NameRow where
  name : Bytes
  owner : Digest
  registeredHeight : UInt64

/-- The preimage of `dna_v2_name_leaf_hash`. -/
def nameLeafInput (row : NameRow) : Option Bytes :=
  if row.name.length = 0 ∨ nameMaxLen < row.name.length then none
  else some ((tag "NDS.NMLEAF.v1").val ++ (sized 1 row.name ++
    (row.owner.val ++ Layout.be64.write row.registeredHeight)))

/-- `dna_v2_name_cmp` is the order on byte strings. -/
def namesKind : RootKind NameRow where
  emptyTag := tag "NDS.E.NAMES.v1"
  leafTag := tag "NDS.NMLEAF.v1"
  nodeTag := tag "NDS.NMNODE.v1"
  precedes first second := decide (first.name < second.name)
  leafInput := nameLeafInput

def namesRoot : List NameRow → Option Digest :=
  namesKind.root sha3

@[ext] structure TreasuryRow where
  poolId : UInt32
  balance : UInt64

/-- The preimage of `dna_v2_treasury_leaf_hash`. -/
def treasuryLeafInput (row : TreasuryRow) : Bytes :=
  (tag "NDS.TRLEAF.v1").val ++ (Layout.be32.write row.poolId ++ Layout.be64.write row.balance)

def treasuryKind : RootKind TreasuryRow where
  emptyTag := tag "NDS.E.TREAS.v1"
  leafTag := tag "NDS.TRLEAF.v1"
  nodeTag := tag "NDS.TRNODE.v1"
  precedes first second := decide (first.poolId < second.poolId)
  leafInput row := some (treasuryLeafInput row)

def treasuryRoot : List TreasuryRow → Option Digest :=
  treasuryKind.root sha3

def storageActive : UInt8 := 1

def storageReleased : UInt8 := 3

@[ext] structure StorageNodeRow where
  nodeFp : Digest
  payeeFp : Digest
  bond : UInt64
  status : UInt8
  registeredHeight : UInt64
  exitHeight : UInt64
  failStreak : UInt32
  graceUntil : UInt64

/-- The preimage of `dna_v2_storage_node_leaf_hash`. -/
def storageNodeLeafInput (row : StorageNodeRow) : Option Bytes :=
  if row.status < storageActive ∨ storageReleased < row.status then none
  else some ((tag "NDS.STLEAF.v2").val ++ (row.nodeFp.val ++ (row.payeeFp.val ++
    (Layout.be64.write row.bond ++ (row.status :: (Layout.be64.write row.registeredHeight ++
      (Layout.be64.write row.exitHeight ++ (Layout.be32.write row.failStreak ++
        Layout.be64.write row.graceUntil))))))))

def storageRegistryKind : RootKind StorageNodeRow where
  emptyTag := tag "NDS.E.STREG.v1"
  leafTag := tag "NDS.STLEAF.v2"
  nodeTag := tag "NDS.STRNODE.v1"
  precedes first second := decide (first.nodeFp.val < second.nodeFp.val)
  leafInput := storageNodeLeafInput

def storageRegistryRoot : List StorageNodeRow → Option Digest :=
  storageRegistryKind.root sha3

def storageBitmapMax : Nat := 32

/-- `dna_v2_storage_report_t`; the bitmap has the bytes that its length covers. -/
@[ext] structure StorageReport where
  epochStart : UInt64
  seat : UInt32
  setHash : Digest
  bitmap : Bytes

/-- The preimage of `dna_v2_storage_report_leaf_hash`. -/
def storageReportLeafInput (report : StorageReport) : Option Bytes :=
  if storageBitmapMax < report.bitmap.length then none
  else some ((tag "NDS.STREP.v1").val ++ (Layout.be64.write report.epochStart ++
    (Layout.be32.write report.seat ++ (report.setHash.val ++ sized 2 report.bitmap))))

/-- An earlier epoch, or the same epoch and a lower seat. -/
def storageReportsKind : RootKind StorageReport where
  emptyTag := tag "NDS.E.STREP.v1"
  leafTag := tag "NDS.STREP.v1"
  nodeTag := tag "NDS.STRPNODE.v1"
  precedes first second :=
    !decide (second.epochStart < first.epochStart) &&
      !(first.epochStart == second.epochStart && decide (second.seat ≤ first.seat))
  leafInput := storageReportLeafInput

def storageReportsRoot : List StorageReport → Option Digest :=
  storageReportsKind.root sha3

end

inductive LedgerRoot where
  | tokens
  | validatorSet
  | accrual
  | names
  | treasury
  | storageRegistry
  | storageReports
  deriving DecidableEq

namespace LedgerRoot

abbrev Row : LedgerRoot → Type
  | tokens => TokenLeaf
  | validatorSet => VsetRow
  | accrual => AccrualRow
  | names => NameRow
  | treasury => TreasuryRow
  | storageRegistry => StorageNodeRow
  | storageReports => StorageReport

def kind : (which : LedgerRoot) → RootKind which.Row
  | tokens => tokenKind
  | validatorSet => vsetKind
  | accrual => accrualKind
  | names => namesKind
  | treasury => treasuryKind
  | storageRegistry => storageRegistryKind
  | storageReports => storageReportsKind

/-- The order of token identifiers, epochs, owners, names, pools, nodes, and epochs with seats. -/
def Before : (which : LedgerRoot) → which.Row → which.Row → Prop
  | tokens, first, second => first.tokenId.val < second.tokenId.val
  | validatorSet, first, second => first.epoch < second.epoch
  | accrual, first, second => first.ownerFp.val < second.ownerFp.val
  | names, first, second => first.name < second.name
  | treasury, first, second => first.poolId < second.poolId
  | storageRegistry, first, second => first.nodeFp.val < second.nodeFp.val
  | storageReports, first, second =>
    first.epochStart < second.epochStart ∨
      first.epochStart = second.epochStart ∧ first.seat < second.seat

def root (sha3 : Hash) : (which : LedgerRoot) → List which.Row → Option Digest
  | tokens => tokenRoot sha3
  | validatorSet => vsetRoot sha3
  | accrual => accrualRoot sha3
  | names => namesRoot sha3
  | treasury => treasuryRoot sha3
  | storageRegistry => storageRegistryRoot sha3
  | storageReports => storageReportsRoot sha3

end LedgerRoot

end DnaLedger.Ledger
