import DnaLedger.Native.Coins

/-!
# What a verdict of the authorizer says

A verdict lists the fingerprints of keys whose signatures verify, and marks a descriptor as
satisfied only when the verified keys meet its threshold.
-/

namespace DnaLedger.Native

open DnaLedger.Envelope Sorting List

/-- A key that signed: the authorization data holds it with a signature that verifies. -/
def VerifiedSigner (verify : Verify) (auth : Bytes) (digest : Digest) (pk : Pubkey) : Prop :=
  ∃ sig, verify sig digest pk = true ∧ pk.val ++ sig.val <:+: auth

/-- A descriptor whose threshold is met by different keys that signed. -/
def ThresholdMet (verify : Verify) (auth : Bytes) (digest : Digest) (desc : Descriptor) : Prop :=
  ∃ keys : List Pubkey, keys.Sublist desc.keys ∧ keys.Nodup ∧ desc.threshold ≤ keys.length ∧
    ∀ pk ∈ keys, VerifiedSigner verify auth digest pk

/-- The owner is a verified signer, or a descriptor whose threshold the verified signers meet. -/
def Owned (hash : Hash) (verify : Verify) (auth : Bytes) (digest : Digest) (owner : OwnerHex) :
    Prop :=
  (∃ pk, VerifiedSigner verify auth digest pk ∧ owner = fpHex (hash pk.val)) ∨
    ∃ bytes desc, bytes <:+: auth ∧ msigDescParse bytes = some desc ∧
      owner = fpHex (hash bytes) ∧ ThresholdMet verify auth digest desc

variable {hash : Hash} {verify : Verify} {digest : Digest} {signers : List Signer}

theorem of_signersOk {previous : Option Pubkey}
    (ok : signersOk verify digest true previous signers = true) :
    (previous.toList ++ signers.map Signer.pk).IsChain (·.val < ·.val) ∧
      ∀ signer ∈ signers, verify signer.sig digest signer.pk = true := by
  induction signers generalizing previous with
  | nil => exact ⟨by cases previous <;> simp, nofun⟩
  | cons first rest ih =>
    simp only [signersOk, Bool.and_eq_true, Bool.not_true, Bool.false_or] at ok
    obtain ⟨⟨⟨-, above⟩, good⟩, later⟩ := ok
    obtain ⟨chain, each⟩ := ih later
    refine ⟨?_, forall_mem_cons.mpr ⟨good, each⟩⟩
    cases previous with
    | none => exact chain
    | some earlier => exact .cons_cons (by simpa using above) chain

/-- The signers of authorization data, once each of them is checked. -/
structure Submitted (verify : Verify) (auth : Bytes) (digest : Digest) (signers : List Signer) :
    Prop where
  some_one : 1 ≤ signers.length
  few : signers.length ≤ maxSigners
  verified : ∀ signer ∈ signers, VerifiedSigner verify auth digest signer.pk

theorem submitted_of_authSubmitters {auth : Bytes} {entire : Bool} {consumed : Nat}
    (passed : authSubmitters verify auth digest entire true = .ok (signers, consumed)) :
    Submitted verify auth digest signers ∧ (signers.map Signer.pk).Nodup ∧
      consumed = 1 + signers.length * signerLayout.width := by
  simp only [authSubmitters, ite_error_eq_ok] at passed
  obtain ⟨-, count, room, fine, made⟩ := passed
  cases made
  obtain ⟨chain, good⟩ := of_signersOk (of_not_bnot fine)
  have long : (auth.getD 0 0).toNat * signerLayout.width ≤ (auth.drop 1).length := by
    rw [length_drop]
    obtain ⟨tooLong, tooShort⟩ := not_or.mp room
    by_cases whole : entire = true
    · have length := of_not_not fun other => tooLong ⟨whole, other⟩
      omega
    · have length := Nat.not_lt.mp fun short => tooShort ⟨whole, short⟩
      omega
  refine ⟨⟨?_, ?_, fun signer mem => ⟨signer.sig, good signer mem, ?_⟩⟩, ?_, ?_⟩
  · rw [Layout.length_table]
    omega
  · rw [Layout.length_table]
    omega
  · exact (signerLayout.write_infix_of_mem_table long mem).trans
      (drop_suffix 1 auth).isInfix
  · refine Pairwise.imp ?_ chain.pairwise
    intro first second less eq
    exact lt_irrefl _ (eq ▸ less)
  · rw [Layout.length_table]

theorem exists_of_hits (signers keys : List Pubkey) :
    ∃ common : List Pubkey, common.Sublist keys ∧ common.Sublist signers ∧
      common.length = hits signers keys := by
  induction signers generalizing keys with
  | nil => exact ⟨[], nil_sublist _, nil_sublist _, rfl⟩
  | cons signer signers ih =>
    rw [hits]
    induction keys with
    | nil => exact ⟨[], nil_sublist _, nil_sublist _, rfl⟩
    | cons key keys passed =>
      rw [hitsStep]
      split
      next eq =>
        obtain ⟨common, inKeys, inSigners, length⟩ := ih keys
        subst eq
        exact ⟨signer :: common, inKeys.cons_cons _, inSigners.cons_cons _, congrArg (· + 1) length⟩
      next =>
        split
        next =>
          obtain ⟨common, inKeys, inSigners, length⟩ := ih (key :: keys)
          exact ⟨common, inKeys, inSigners.cons _, length⟩
        next =>
          obtain ⟨common, inKeys, inSigners, length⟩ := passed
          exact ⟨common, inKeys.cons _, inSigners, length⟩

theorem nodup_keys_of_parse {bytes : Bytes} {desc : Descriptor}
    (parsed : msigDescParse bytes = some desc) : desc.keys.Nodup := by
  simp only [msigDescParse, Option.ite_none_left_eq_some] at parsed
  obtain ⟨-, -, -, -, bad, eq⟩ := parsed
  cases eq
  have ok := of_not_bnot bad
  obtain ⟨-, ok⟩ := ite_false_left (msigKeysOk.eq_1 _ ▸ ok)
  obtain ⟨-, ok⟩ := ite_false_left ok
  rw [Bool.and_eq_true] at ok
  have compares : ComparesBy (fun first second : Pubkey => decide (first.val < second.val))
      Subtype.val := fun _ _ => decide_eq_true_iff
  exact (sortedBy_of_ascending compares ok.2).nodup.of_map

def Judged (hash : Hash) (signers : List Pubkey) (rest : Bytes) (m : MsigVerdict) : Prop :=
  ∃ bytes desc, bytes <:+: rest ∧ msigDescParse bytes = some desc ∧ m.addr = hash bytes ∧
    (m.satisfied = true → desc.threshold ≤ hits signers desc.keys)

variable {rest : Bytes}

theorem Judged.within {signers : List Pubkey} {whole : Bytes} {m : MsigVerdict}
    (judged : Judged hash signers rest m) (inside : rest <:+: whole) :
    Judged hash signers whole m := by
  obtain ⟨bytes, desc, place, facts⟩ := judged
  exact ⟨bytes, desc, place.trans inside, facts⟩

theorem judged_of_msigDescriptors {signers : List Pubkey} {count sumN : Nat}
    {previous : Option Digest} {msig : List MsigVerdict}
    (passed : msigDescriptors hash signers count sumN previous rest = .ok msig) :
    msig.length = count ∧ ∀ m ∈ msig, Judged hash signers rest m := by
  induction count generalizing sumN previous rest msig with
  | zero =>
    obtain ⟨-, made⟩ := ite_error_eq_ok.mp passed
    cases made
    exact ⟨rfl, fun _ mem => absurd mem not_mem_nil⟩
  | succ count ih =>
    simp only [msigDescriptors, ite_error_eq_ok] at passed
    obtain ⟨-, -, passed⟩ := passed
    split at passed
    next => cases passed
    next desc parsed =>
      simp only [ite_error_eq_ok] at passed
      obtain ⟨-, -, passed⟩ := passed
      obtain ⟨later, following, made⟩ := bind_eq_ok.mp passed
      cases made
      obtain ⟨length, each⟩ := ih following
      have tail : ∀ k, (rest.drop 2).drop k <:+: rest := fun k =>
        ((drop_suffix k _).trans (drop_suffix 2 rest)).isInfix
      refine ⟨congrArg (· + 1) length, fun m mem => ?_⟩
      rcases mem_cons.mp mem with rfl | inside
      · refine ⟨_, desc, ?_, parsed, rfl, fun satisfied => of_decide_eq_true satisfied⟩
        exact ( take_prefix _ _).isInfix.trans (tail 0)
      · exact (each m inside).within (tail _)

theorem judged_of_authMsig {signers : List Pubkey} {msig : List MsigVerdict}
    (passed : authMsig hash signers rest = .ok msig) :
    (1 ≤ msig.length ∧ msig.length ≤ msigMaxDesc) ∧ ∀ m ∈ msig, Judged hash signers rest m := by
  simp only [authMsig, ite_error_eq_ok] at passed
  obtain ⟨-, count, passed⟩ := passed
  obtain ⟨length, each⟩ := judged_of_msigDescriptors passed
  refine ⟨by omega, fun m mem => (each m mem).within ?_⟩
  exact (drop_suffix 1 rest).isInfix

variable {v : AuthVerdict}

theorem of_authApprovals {committee : Committee}
    (passed : authApprovals hash verify digest committee signers rest = .ok v) :
    (v.signerFp = signers.map fun signer => hash signer.pk.val) ∧ v.msig = [] := by
  simp only [authApprovals, ite_error_eq_ok] at passed
  obtain ⟨-, -, -, passed⟩ := passed
  split at passed
  next => cases passed
  next =>
    cases passed
    exact ⟨rfl, rfl⟩

structure Verdict (hash : Hash) (verify : Verify) (leg : LegView) (digest : Digest)
    (v : AuthVerdict) : Prop where
  some_signer : 1 ≤ v.signerFp.length
  few_signers : v.signerFp.length ≤ maxSigners
  signers : ∀ fp ∈ v.signerFp, ∃ pk, VerifiedSigner verify leg.auth digest pk ∧ fp = hash pk.val
  some_msig : leg.hdr.authKind = authkindMsig → 1 ≤ v.msig.length ∧ v.msig.length ≤ msigMaxDesc
  no_msig : leg.hdr.authKind ≠ authkindMsig → v.msig = []
  msig : ∀ m ∈ v.msig, m.satisfied = true → ∃ bytes desc, bytes <:+: leg.auth ∧
    msigDescParse bytes = some desc ∧ m.addr = hash bytes ∧
      ThresholdMet verify leg.auth digest desc

theorem authLeg_cases {leg : LegView} {committee : Option Committee}
    (passed : authLeg hash verify leg digest committee = .ok v) :
    ∃ exact signers consumed,
      authSubmitters verify leg.auth digest exact true = .ok (signers, consumed) ∧
      (v.signerFp = signers.map fun signer => hash signer.pk.val) ∧
      (leg.hdr.authKind ≠ authkindMsig ∧ v.msig = [] ∨ leg.hdr.authKind = authkindMsig ∧
        authMsig hash (signers.map Signer.pk) (leg.auth.drop consumed) = .ok v.msig) ∧
      (v.nApprovals = 0 ∧ v.approvedPower = 0 ∨ ∃ members ∈ committee,
        authApprovals hash verify digest members signers (leg.auth.drop consumed) = .ok v) := by
  unfold authLeg at passed
  split at passed
  next multi =>
    obtain ⟨⟨signers, consumed⟩, listed, made⟩ := bind_eq_ok.mp passed
    cases made
    refine ⟨_, signers, consumed, listed, rfl, .inl ⟨fun isMsig => ?_, rfl⟩, .inl ⟨rfl, rfl⟩⟩
    exact absurd (multi.symm.trans isMsig) (by decide)
  next =>
    split at passed
    next isMsig =>
      obtain ⟨⟨signers, consumed⟩, listed, passed⟩ := bind_eq_ok.mp passed
      obtain ⟨msig, described, made⟩ := bind_eq_ok.mp passed
      cases made
      exact ⟨_, signers, consumed, listed, rfl, .inr ⟨isMsig, described⟩, .inl ⟨rfl, rfl⟩⟩
    next other =>
      split at passed
      next =>
        split at passed
        next => cases passed
        next members =>
          obtain ⟨-, passed⟩ := ite_error_eq_ok.mp passed
          obtain ⟨⟨signers, consumed⟩, listed, passed⟩ := bind_eq_ok.mp passed
          obtain ⟨fps, noMsig⟩ := of_authApprovals passed
          exact ⟨_, signers, consumed, listed, fps, .inl ⟨other, noMsig⟩,
            .inr ⟨members, rfl, passed⟩⟩
      next => cases passed

theorem judged_of_cases {leg : LegView} {consumed : Nat}
    (cases : leg.hdr.authKind ≠ authkindMsig ∧ v.msig = [] ∨ leg.hdr.authKind = authkindMsig ∧
      authMsig hash (signers.map Signer.pk) (leg.auth.drop consumed) = .ok v.msig) :
    ∀ m ∈ v.msig, Judged hash (signers.map Signer.pk) leg.auth m := by
  rcases cases with ⟨-, empty⟩ | ⟨-, described⟩
  · rw [empty]
    exact nofun
  · intro m mem
    exact ((judged_of_authMsig described).2 m mem).within
      (drop_suffix consumed leg.auth).isInfix

theorem verdict_of_authLeg {leg : LegView} {committee : Option Committee}
    (passed : authLeg hash verify leg digest committee = .ok v) :
    Verdict hash verify leg digest v := by
  obtain ⟨_, signers, consumed, listed, fps, msig, -⟩ := authLeg_cases passed
  obtain ⟨submitted, -⟩ := submitted_of_authSubmitters listed
  constructor
  · rw [fps, length_map]
    exact submitted.some_one
  · rw [fps, length_map]
    exact submitted.few
  · intro fp mem
    rw [fps] at mem
    obtain ⟨signer, inside, rfl⟩ := mem_map.mp mem
    exact ⟨signer.pk, submitted.verified signer inside, rfl⟩
  · intro isMsig
    rcases msig with ⟨other, -⟩ | ⟨-, described⟩
    · exact absurd isMsig other
    · exact (judged_of_authMsig described).1
  · intro other
    rcases msig with ⟨-, empty⟩ | ⟨isMsig, -⟩
    · exact empty
    · exact absurd isMsig other
  · intro m mem satisfied
    obtain ⟨bytes, desc, place, parsed, addr, met⟩ := judged_of_cases msig m mem
    obtain ⟨common, inKeys, inSigners, length⟩ := exists_of_hits (signers.map Signer.pk) desc.keys
    refine ⟨bytes, desc, place, parsed, addr, common, inKeys,
      (nodup_keys_of_parse parsed).sublist inKeys, length ▸ met satisfied, fun pk inside => ?_⟩
    obtain ⟨signer, listed, rfl⟩ := mem_map.mp (inSigners.subset inside)
    exact submitted.verified signer listed

end DnaLedger.Native
