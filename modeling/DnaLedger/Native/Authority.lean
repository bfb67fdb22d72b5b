import DnaLedger.Arith.Checked
import DnaLedger.Envelope.Wire
import DnaLedger.Foundation.Program
import DnaLedger.Foundation.Sorting

/-!
# Authorization of a leg

Model of the authorizer of `nodus_witness_rt_native.c` and of the descriptor parser of
`msig_wire.c`. The signature scheme and the hash are parameters. The bit of `msig_signers_in_desc`
that belongs to a descriptor is a field of its entry.
-/

namespace DnaLedger.Native

open DnaLedger.Envelope

def pubkeySize : Nat := 2592

def sigSize : Nat := 4627

def maxSigners : Nat := 15

def msigMaxKeys : Nat := maxSigners

def msigMaxDesc : Nat := 7

def msigMinN : Nat := 2

def msigMaxN : Nat := 7

def msigHdrLen : Nat := 18

def maxActiveValidators : Nat := 128

/-- `NODUS_RT_AUTHKIND_DSA87_MULTI_V1` -/
def authkindMulti : UInt8 := 1

/-- `NODUS_RT_AUTHKIND_DSA87_CC_V1` -/
def authkindCc : UInt8 := 2

/-- `NODUS_RT_AUTHKIND_DSA87_MSIG_V1` -/
def authkindMsig : UInt8 := 3

/-- `TAG_MSIG` -/
def msigTag : Tag := tag "NDS.MSIG.v1"

/-- `TAG_CCAPPR` -/
def ccapprTag : Tag := tag "NDS.CCAPPR.v1"

abbrev Pubkey := { bytes : Bytes // bytes.length = pubkeySize }

abbrev Signature := { bytes : Bytes // bytes.length = sigSize }

/-- `qgp_dsa87_verify` of a signature, the signed digest and a public key. -/
abbrev Verify := Signature → Digest → Pubkey → Bool

/-- A leg with its header, its call data and its authorization data. -/
structure LegView where
  hdr : LegHdr
  call : Bytes
  auth : Bytes

/-- The leg at an index; there is none from `leg_count` on. -/
def legAt (env : EnvView) (index : Nat) : Option LegView :=
  if env.legCount.toNat ≤ index then none
  else do
    let hdr ← env.leg[index]?
    let call ← env.callData[index]?
    let auth ← env.authData[index]?
    return ⟨hdr, call, auth⟩

/-- What the verdict says about a descriptor. -/
structure MsigVerdict where
  satisfied : Bool
  addr : Digest
  signersInDesc : Bool
  deriving DecidableEq

structure AuthVerdict where
  signerFp : List Digest
  nApprovals : Nat
  committeeN : Nat
  msig : List MsigVerdict
  approvedPower : UInt64
  committeePower : UInt64
  deriving DecidableEq

structure Seat where
  pubkey : Pubkey
  power : UInt64

structure Committee where
  seats : List Seat
  epoch : UInt64
  setHash : Digest

structure Signer where
  pk : Pubkey
  sig : Signature

def signerLayout : Layout Signer :=
  ((Layout.raw pubkeySize).both (Layout.raw sigSize)).record (fun (pk, sig) => ⟨pk, sig⟩)
    (fun signer => (signer.pk, signer.sig)) (fun _ => rfl) (fun _ => rfl)

def zeroKey (pk : Pubkey) : Bool :=
  (pk.val.take 32).all (· == 0)

/-- The loop of `rtn_auth_submitters`: no null key, strictly ascending, and every signature
verifies. -/
def signersOk (verify : Verify) (digest : Digest) (verifying : Bool) :
    Option Pubkey → List Signer → Bool
  | _, [] => true
  | previous, signer :: rest =>
    !zeroKey signer.pk && previous.all (fun pk => pk.val < signer.pk.val) &&
      (!verifying || verify signer.sig digest signer.pk) &&
      signersOk verify digest verifying (some signer.pk) rest

/-- The signers, and how many bytes they take. -/
def authSubmitters (verify : Verify) (a : Bytes) (digest : Digest) (exact verifying : Bool) :
    Except Failure (List Signer × Nat) :=
  if a.length < 1 then .error .reject
  else
    let n := (a.getD 0 0).toNat
    if n < 1 ∨ maxSigners < n then .error .reject
    else
      let need := 1 + n * signerLayout.width
      if exact ∧ a.length ≠ need ∨ ¬ exact ∧ a.length < need then .error .reject
      else
        let signers := signerLayout.table n (a.drop 1)
        if !signersOk verify digest verifying none signers then .error .reject
        else .ok (signers, need)

/-- A multisig descriptor: `threshold` of `keys`. -/
structure Descriptor where
  threshold : Nat
  keys : List Pubkey

def msigKeysOk (desc : Descriptor) : Bool :=
  if desc.keys.length < msigMinN ∨ msigMaxN < desc.keys.length then false
  else if desc.threshold < 1 ∨ desc.keys.length < desc.threshold then false
  else desc.keys.all (fun pk => !zeroKey pk) &&
    Sorting.ascending (fun first second => decide (first.val < second.val)) desc.keys

def msigDescParse (d : Bytes) : Option Descriptor :=
  if d.length < msigHdrLen then none
  else if d.take 16 ≠ msigTag.val then none
  else
    let m := (d.getD 16 0).toNat
    let n := (d.getD 17 0).toNat
    if n < msigMinN ∨ msigMaxN < n then none
    else if d.length ≠ msigHdrLen + n * pubkeySize then none
    else
      let desc : Descriptor := ⟨m, (Layout.raw pubkeySize).table n (d.drop msigHdrLen)⟩
      if !msigKeysOk desc then none else some desc

/-- One signer against the keys of a descriptor: smaller keys are passed over, a hit uses up
both. -/
def hitsStep (signer : Pubkey) (rest : List Pubkey → Nat) : List Pubkey → Nat
  | [] => 0
  | key :: keys =>
    if signer = key then rest keys + 1
    else if signer.val < key.val then rest (key :: keys)
    else hitsStep signer rest keys

/-- The merge of the signers with the keys of a descriptor counts the common ones. -/
def hits : List Pubkey → List Pubkey → Nat
  | [], _ => 0
  | signer :: signers, keys => hitsStep signer (hits signers) keys

/-- The loop of `rtn_auth_msig` over the descriptors that are left. -/
def msigDescriptors (hash : Hash) (signers : List Pubkey) :
    Nat → Nat → Option Digest → Bytes → Except Failure (List MsigVerdict)
  | 0, _, _, rest => if rest.length ≠ 0 then .error .reject else .ok []
  | count + 1, sumN, previous, rest =>
    if rest.length < 2 then .error .reject
    else
      let dlen := (Layout.be16.read rest).toNat
      let rest := rest.drop 2
      if rest.length < dlen then .error .reject
      else
        let d := rest.take dlen
        match msigDescParse d with
        | none => .error .reject
        | some desc =>
          let sumN := sumN + desc.keys.length
          if msigMaxKeys < sumN then .error .reject
          else
            let addr := hash d
            if !previous.all (fun earlier => earlier.val < addr.val) then .error .reject
            else do
              let hit := hits signers desc.keys
              let later ← msigDescriptors hash signers count sumN (some addr)
                (rest.drop dlen)
              return ⟨desc.threshold ≤ hit, addr, hit = signers.length⟩ :: later

/-- `rtn_auth_msig` on the bytes behind the signers. -/
def authMsig (hash : Hash) (signers : List Pubkey) (rest : Bytes) :
    Except Failure (List MsigVerdict) :=
  if rest.length = 0 then .error .reject
  else
    let dc := (rest.getD 0 0).toNat
    if dc < 1 ∨ msigMaxDesc < dc then .error .reject
    else msigDescriptors hash signers dc 0 none (rest.drop 1)

structure Approval where
  index : UInt16
  sig : Signature

def approvalLayout : Layout Approval :=
  (Layout.be16.both (Layout.raw sigSize)).record (fun (index, sig) => ⟨index, sig⟩)
    (fun approval => (approval.index, approval.sig)) (fun _ => rfl) (fun _ => rfl)

def ccApprovalDigest (hash : Hash) (legAuthDigest setHash : Digest) (epoch : UInt64)
    (index : UInt16) : Digest :=
  hash (ccapprTag.val ++ legAuthDigest.val ++ setHash.val ++ Layout.be64.write epoch ++
    Layout.be16.write index)

/-- The powers of the seats, added while the sum fits. -/
def sumPowers (powers : List UInt64) : Option UInt64 :=
  powers.foldlM ckAdd 0

/-- The loop over the approvals: indices ascend strictly and name a seat, whose signature verifies.
The powers are returned in order. -/
def approvalsOk (hash : Hash) (verify : Verify) (digest : Digest) (committee : Committee) :
    Option UInt16 → List Approval → Option (List UInt64)
  | _, [] => some []
  | previous, approval :: rest =>
    if !previous.all (fun index => index < approval.index) then none
    else do
      let seat ← committee.seats[approval.index.toNat]?
      if !verify approval.sig
          (ccApprovalDigest hash digest committee.setHash committee.epoch approval.index)
          seat.pubkey then none
      else
        let later ← approvalsOk hash verify digest committee (some approval.index) rest
        return seat.power :: later

/-- The part of `nodus_rt_auth_dsa87_v1` behind the signers of kind 2. -/
def authApprovals (hash : Hash) (verify : Verify) (digest : Digest) (committee : Committee)
    (signers : List Signer) (rest : Bytes) : Except Failure AuthVerdict :=
  if rest.length < 2 then .error .reject
  else
    let ac := (Layout.be16.read rest).toNat
    if ac < 1 ∨ committee.seats.length < ac then .error .reject
    else if rest.length ≠ 2 + ac * approvalLayout.width then .error .reject
    else
      match approvalsOk hash verify digest committee none
          (approvalLayout.table ac (rest.drop 2)) with
      | none => .error .reject
      | some powers =>
        -- A sum that does not fit makes both powers zero.
        let weighed := do
          let committeePower ← sumPowers (committee.seats.map Seat.power)
          let approvedPower ← sumPowers powers
          return (approvedPower, committeePower)
        let (approvedPower, committeePower) := weighed.getD (0, 0)
        .ok ⟨signers.map fun signer => hash signer.pk.val, ac, committee.seats.length, [],
          approvedPower, committeePower⟩

/-- `nodus_rt_auth_dsa87_v1` on a leg that exists; the committee is resolved by the engine. -/
def authLeg (hash : Hash) (verify : Verify) (leg : LegView) (legAuthDigest : Digest)
    (committee : Option Committee) : Except Failure AuthVerdict :=
  if leg.hdr.authKind = authkindMulti then do
    let (signers, _) ← authSubmitters verify leg.auth legAuthDigest true true
    return ⟨signers.map fun signer => hash signer.pk.val, 0, 0, [], 0, 0⟩
  else if leg.hdr.authKind = authkindMsig then do
    let (signers, consumed) ← authSubmitters verify leg.auth legAuthDigest false true
    let msig ← authMsig hash (signers.map Signer.pk) (leg.auth.drop consumed)
    return ⟨signers.map fun signer => hash signer.pk.val, 0, 0, msig, 0, 0⟩
  else if leg.hdr.authKind = authkindCc then
    match committee with
    | none => .error .fault
    | some committee =>
      if committee.seats.length = 0 ∨ maxActiveValidators < committee.seats.length then
        .error .reject
      else do
        let (signers, consumed) ← authSubmitters verify leg.auth legAuthDigest false true
        authApprovals hash verify legAuthDigest committee signers (leg.auth.drop consumed)
  else .error .reject

/-- `nodus_rt_auth_dsa87_v1` -/
def authDsa87 (hash : Hash) (verify : Verify) (env : EnvView) (legIndex : Nat)
    (legAuthDigest : Digest) (committee : Option Committee) : Except Failure AuthVerdict :=
  match legAt env legIndex with
  | none => .error .fault
  | some leg => authLeg hash verify leg legAuthDigest committee

end DnaLedger.Native
