import DnaLedger.Native.CoreLegs

/-!
# What backs a verdict

Behind every verdict of the authorizer there are different keys that signed the leg, enough
of them for each descriptor that counts as satisfied, and the seats of all the approvals in
the data.
-/

namespace DnaLedger.Native

open DnaLedger.Envelope Sorting List

def powerAt (seats : List Seat) (index : UInt16) : Nat :=
  (seats[index.toNat]?).elim 0 fun seat => seat.power.toNat

def totalPower (seats : List Seat) : Nat :=
  ((seats.map Seat.power).map UInt64.toNat).sum

/-- What the approvals count for: nothing, where the committee's power does not fit in a word. -/
def weight (seats : List Seat) (approving : List UInt16) : Nat :=
  if totalPower seats < 2 ^ 64 then (approving.map (powerAt seats)).sum else 0

/-- The signers and the approvals behind a verdict.  The approvals are all that the data hold: as
many as the verdict counts, from behind the signers to the end. -/
structure Backed (hash : Hash) (verify : Verify) (auth : Bytes) (digest : Digest)
    (committee : Option Committee) (v : AuthVerdict) (signers : List Pubkey)
    (approvals : List Approval) : Prop where
  fps : v.signerFp = signers.map fun pk => hash pk.val
  distinct : signers.Nodup
  signed : ∀ pk ∈ signers, VerifiedSigner verify auth digest pk
  msig : ∀ m ∈ v.msig, ∃ bytes desc, bytes <:+: auth ∧ msigDescParse bytes = some desc ∧
    m.addr = hash bytes ∧ desc.keys.Nodup ∧ (m.satisfied = true →
      ∃ keys : List Pubkey, keys.Sublist desc.keys ∧ keys.Sublist signers ∧
        desc.threshold ≤ keys.length)
  slots : approvals =
    approvalLayout.table v.nApprovals (auth.drop (3 + signers.length * signerLayout.width))
  whole : v.nApprovals ≠ 0 → auth.length =
    3 + signers.length * signerLayout.width + v.nApprovals * approvalLayout.width
  once : (approvals.map Approval.index).Nodup
  approved : ∀ a ∈ approvals, ∃ members ∈ committee, ∃ seat,
    members.seats[a.index.toNat]? = some seat ∧
      verify a.sig (ccApprovalDigest hash digest members.setHash members.epoch a.index)
        seat.pubkey = true
  power : v.approvedPower.toNat =
    weight (committee.elim [] Committee.seats) (approvals.map Approval.index)

section

variable {hash : Hash} {verify : Verify} {digest : Digest} {signers : List Signer}
  {committee : Committee}

/-- The approvals that pass the loop are made by later and later seats, whose powers are
returned. -/
theorem of_approvalsOk {previous : Option UInt16} {approvals : List Approval} {powers : List UInt64}
    (ok : approvalsOk hash verify digest committee previous approvals = some powers) :
    (previous.toList ++ approvals.map Approval.index).IsChain (· < ·) ∧
      powers.Sublist ((committee.seats.drop (previous.elim 0 (·.toNat + 1))).map Seat.power) ∧
      powers.map UInt64.toNat = (approvals.map Approval.index).map (powerAt committee.seats) ∧
      ∀ a ∈ approvals, ∃ seat, committee.seats[a.index.toNat]? = some seat ∧
        verify a.sig (ccApprovalDigest hash digest committee.setHash committee.epoch a.index)
          seat.pubkey = true := by
  induction approvals generalizing previous powers with
  | nil =>
    cases ok
    exact ⟨by cases previous <;> simp, nil_sublist _, rfl, nofun⟩
  | cons first rest ih =>
    obtain ⟨order, ok⟩ := Option.ite_none_left_eq_some.mp ok
    obtain ⟨seat, found, ok⟩ := Option.bind_eq_some_iff.mp ok
    obtain ⟨good, ok⟩ := Option.ite_none_left_eq_some.mp ok
    obtain ⟨later, following, made⟩ := Option.bind_eq_some_iff.mp ok
    cases made
    obtain ⟨chain, sublist, eq, each⟩ := ih following
    have above : ∀ index ∈ previous, index < first.index := by
      rintro index ⟨⟩
      simpa using order
    have start : previous.elim 0 (·.toNat + 1) ≤ first.index.toNat := by
      cases previous with
      | none => exact Nat.zero_le _
      | some index => exact UInt16.lt_iff_toNat_lt.mp (above index rfl)
    obtain ⟨inside, atIndex⟩ := List.getElem?_eq_some_iff.mp found
    refine ⟨?_, ?_, ?_, ?_⟩
    · cases previous with
      | none => exact chain
      | some index => exact .cons_cons (above index rfl) chain
    · -- No later approval can name a seat up to `first`, so the powers come in seat order.
      refine Sublist.trans ?_ ((drop_sublist_drop_left _ start).map Seat.power)
      rw [drop_eq_getElem_cons inside, atIndex, map_cons]
      exact sublist.cons_cons _
    · rw [map_cons, map_cons, map_cons, eq, powerAt, found]
      rfl
    · intro a mem
      rcases mem_cons.mp mem with rfl | listed
      · exact ⟨seat, found, of_not_bnot good⟩
      · exact each a listed

theorem toNat_weighed {all powers : List UInt64} (part : powers.Sublist all) :
    ((do
      let committeePower ← sumPowers all
      let approvedPower ← sumPowers powers
      return (approvedPower, committeePower)).getD (0, 0)).1.toNat =
        if (all.map UInt64.toNat).sum < 2 ^ 64 then (powers.map UInt64.toNat).sum else 0 := by
  have less : (powers.map UInt64.toNat).sum ≤ (all.map UInt64.toNat).sum :=
    (part.map UInt64.toNat).sum_le_sum fun _ _ => Nat.zero_le _
  have sums (items : List UInt64) := foldlM_ckAdd_eq id items 0
  simp only [id, UInt64.toNat_zero, Nat.zero_add] at sums
  rw [sumPowers, sumPowers, sums, sums]
  by_cases fits : (all.map UInt64.toNat).sum < 2 ^ 64
  · rw [if_pos fits, if_pos fits, if_pos (less.trans_lt fits)]
    exact UInt64.toNat_ofNat_of_lt (less.trans_lt fits)
  · rw [if_neg fits, if_neg fits]
    rfl

theorem approved_of_cases {auth : Bytes} {start : Nat} {committee : Option Committee}
    {v : AuthVerdict}
    (approvals : v.nApprovals = 0 ∧ v.approvedPower = 0 ∨ ∃ members ∈ committee,
      authApprovals hash verify digest members signers (auth.drop (1 + start)) = .ok v) :
    (v.nApprovals ≠ 0 → auth.length = 3 + start + v.nApprovals * approvalLayout.width) ∧
    ((approvalLayout.table v.nApprovals (auth.drop (3 + start))).map Approval.index).Nodup ∧
    (∀ a ∈ approvalLayout.table v.nApprovals (auth.drop (3 + start)), ∃ members ∈ committee,
      ∃ seat, members.seats[a.index.toNat]? = some seat ∧
        verify a.sig (ccApprovalDigest hash digest members.setHash members.epoch a.index)
          seat.pubkey = true) ∧
    v.approvedPower.toNat = weight (committee.elim [] Committee.seats)
      ((approvalLayout.table v.nApprovals (auth.drop (3 + start))).map Approval.index) := by
  rcases approvals with ⟨empty, zero⟩ | ⟨members, rfl, passed⟩
  · rw [empty, zero]
    exact ⟨fun full => absurd rfl full, nodup_nil, nofun, by simp [weight, Layout.table]⟩
  simp only [authApprovals, ite_error_eq_ok] at passed
  obtain ⟨long, -, length, passed⟩ := passed
  split at passed
  next => cases passed
  next powers ok =>
    cases passed
    rw [drop_drop, show 1 + start + 2 = 3 + start by omega] at ok
    obtain ⟨chain, sublist, eq, each⟩ := of_approvalsOk ok
    refine ⟨fun _ => ?_, chain.pairwise.imp fun less => UInt16.ne_of_lt less,
      fun a listed => ⟨members, rfl, each a listed⟩, ?_⟩
    · rw [length_drop] at long length
      dsimp only
      omega
    · refine (toNat_weighed sublist).trans ?_
      rw [eq]
      rfl

/-- Behind every verdict there are different keys that signed, enough of them for each satisfied
descriptor, and the seats of all approvals in the data. -/
theorem authDsa87_backed {env : EnvView} {legIndex : Nat} {committee : Option Committee}
    {v : AuthVerdict}
    (authorized : authDsa87 hash verify env legIndex digest committee = .ok v) :
    ∃ leg, legAt env legIndex = some leg ∧ ∃ signers approvals,
      Backed hash verify leg.auth digest committee v signers approvals := by
  unfold authDsa87 at authorized
  split at authorized
  next => cases authorized
  next leg found =>
    obtain ⟨_, signers, consumed, listed, fps, msig, approvals⟩ := authLeg_cases authorized
    obtain ⟨submitted, nodup, rfl⟩ := submitted_of_authSubmitters listed
    obtain ⟨whole, once, approved, power⟩ := approved_of_cases approvals
    rw [← length_map Signer.pk] at whole once approved power
    refine ⟨leg, found, signers.map Signer.pk, _, ?_, nodup, ?_, ?_, rfl, whole, once, approved,
      power⟩
    · rw [fps, map_map]
      rfl
    · intro pk mem
      obtain ⟨signer, inside, rfl⟩ := mem_map.mp mem
      exact submitted.verified signer inside
    · intro m mem
      obtain ⟨bytes, desc, place, parsed, addr, met⟩ := judged_of_cases msig m mem
      obtain ⟨keys, inKeys, inSigners, length⟩ := exists_of_hits (signers.map Signer.pk) desc.keys
      exact ⟨bytes, desc, place, parsed, addr, nodup_keys_of_parse parsed,
        fun satisfied => ⟨keys, inKeys, inSigners, length ▸ met satisfied⟩⟩

end

/-- A leg with one signer and with an approval by the first seat. -/
def approvalEnv : EnvView :=
  { paymentEnv with
    leg := [⟨domainCore, Corerule.spend, 1, 0, authkindCc, 0, 11851, 0, 0⟩]
    authOff := [0]
    buf := some ([1] ++ oneKey.val ++ replicate sigSize 0 ++ [0, 1, 0, 0] ++ replicate sigSize 0)
    envLen := 11851 }

def twoSeats (power : UInt64) : Committee := ⟨[⟨oneKey, power⟩, ⟨oneKey, power⟩], 1, default⟩

theorem approval_backed :
    ∃ leg signers approvals, legAt approvalEnv 0 = some leg ∧
      Backed paddingHash (fun _ _ _ => true) leg.auth default (some (twoSeats 7))
        ⟨[paddingHash oneKey.val], 1, 2, [], 7, 14⟩ signers approvals := by
  have authorized : authDsa87 paddingHash (fun _ _ _ => true) approvalEnv 0 default
      (some (twoSeats 7)) = .ok ⟨[paddingHash oneKey.val], 1, 2, [], 7, 14⟩ := by decide +kernel
  obtain ⟨leg, found, signers, approvals, backed⟩ := authDsa87_backed authorized
  exact ⟨leg, signers, approvals, found, backed⟩

/-- The powers of the seats do not fit in a word, so the approval counts for nothing. -/
theorem approval_unweighable :
    authDsa87 paddingHash (fun _ _ _ => true) approvalEnv 0 default
        (some (twoSeats (.ofNat (2 ^ 63)))) = .ok ⟨[paddingHash oneKey.val], 1, 2, [], 0, 0⟩ ∧
      powerAt (twoSeats (.ofNat (2 ^ 63))).seats 0 = 2 ^ 63 := by
  decide +kernel

end DnaLedger.Native
