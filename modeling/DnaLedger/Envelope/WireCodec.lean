import DnaLedger.Envelope.Wire

/-!
# The envelope codec is canonical

The encoder accepts the valid envelopes and writes their bytes; the decoder accepts
exactly those bytes and finds every field and every blob again.
-/

namespace DnaLedger.Envelope

open Sections Option

theorem width_envHeadLayout : envHeadLayout.width = fixedHead := rfl

theorem width_legSections : legSections.layout.width = legHdrLen := rfl

abbrev callTotal (hdrs : List LegHdr) : Nat :=
  (hdrs.map fun hdr => hdr.callLen.toNat).sum

abbrev authTotal (hdrs : List LegHdr) : Nat :=
  (hdrs.map fun hdr => hdr.authLen.toNat).sum

abbrev EnvIn.hdrs (input : EnvIn) : List LegHdr :=
  input.legs.map Item.hdr

theorem EnvIn.length_bytes (input : EnvIn) :
    input.bytes.length = fixedHead + input.legs.length * legHdrLen +
      callTotal input.hdrs + authTotal input.hdrs := by
  rw [EnvIn.bytes, List.length_append, envHeadLayout.length_write, width_envHeadLayout,
    length_body, width_legSections, Nat.add_assoc, Nat.add_assoc]
  rfl

theorem toNat_offset {offset : Nat} (within : offset ≤ maxTotalLen) :
    (UInt32.ofNat offset).toNat = offset := by
  rw [maxTotalLen] at within
  exact UInt32.toNat_ofNat_of_lt' (Nat.lt_of_le_of_lt within (by decide))

theorem base_le {count : Nat} (few : count ≤ maxLegs) :
    fixedHead + count * legHdrLen ≤ maxTotalLen := by
  rw [maxLegs] at few
  rw [fixedHead, legHdrLen, maxTotalLen]
  omega

/-- What the encoder asks for. -/
structure EnvIn.Valid (input : EnvIn) : Prop where
  some_leg : input.legs.length ≠ 0
  few_legs : input.legs.length ≤ maxLegs
  legs_ok : legsOk none input.hdrs = true
  fits : input.bytes.length ≤ maxTotalLen

variable {input : EnvIn} {src : Bytes}

theorem encodedSize_eq (some_leg : input.legs.length ≠ 0) (few : input.legs.length ≤ maxLegs) :
    encodedSize input.legs =
      if input.bytes.length ≤ maxTotalLen then some input.bytes.length else none := by
  have base := base_le few
  have calls : (input.legs.map fun leg => leg.hdr.callLen.toNat).sum = callTotal input.hdrs := by
    rw [callTotal, List.map_map]
    rfl
  have auths : (input.legs.map fun leg => leg.hdr.authLen.toNat).sum = authTotal input.hdrs := by
    rw [authTotal, List.map_map]
    rfl
  rw [encodedSize, if_neg (by omega), foldlM_accAdd base, calls, input.length_bytes]
  by_cases call : fixedHead + input.legs.length * legHdrLen + callTotal input.hdrs ≤ maxTotalLen
  · rw [if_pos call, bind_eq_bind, bind_some, foldlM_accAdd call, auths]
  · rw [if_neg call, if_neg (by omega)]
    rfl

theorem encode_eq_some {cap : Nat} :
    encode input cap = some src ↔ input.Valid ∧ input.bytes.length ≤ cap ∧ input.bytes = src := by
  rw [encode]
  constructor
  · intro encoded
    simp only [ite_none_left_eq_some] at encoded
    obtain ⟨count, ok, encoded⟩ := encoded
    rw [encodedSize_eq (by omega) (by omega)] at encoded
    split at encoded
    next fits =>
      rw [bind_eq_bind, bind_some] at encoded
      split at encoded
      next => cases encoded
      next room =>
        rw [if_neg (by simp)] at encoded
        refine ⟨⟨by omega, by omega, ?_, fits⟩, by omega, some.inj encoded⟩
        simpa using ok
    next => cases encoded
  · rintro ⟨valid, room, rfl⟩
    have few := valid.few_legs
    rw [if_neg (by have := valid.some_leg; omega), if_neg, encodedSize_eq valid.some_leg few,
      if_pos valid.fits, bind_eq_bind, bind_some, if_neg (by omega), if_neg (by simp)]
    have ok := valid.legs_ok
    simp only [EnvIn.hdrs] at ok
    simp [ok]

theorem readLegs_eq (count : Nat) (previous : Option UInt32) (p : Bytes) :
    readLegs count previous p =
      if legsOk previous (legHdrLayout.table count p) then some (legHdrLayout.table count p)
      else none := by
  induction count generalizing previous p with
  | zero => rfl
  | succ count ih =>
    have width : legHdrLayout.width = legHdrLen := rfl
    rw [readLegs, Layout.table, legsOk, width]
    cases legHdrOk (legHdrLayout.read p) with
    | false => rfl
    | true =>
      cases previous.all fun domainId => domainId < (legHdrLayout.read p).domainId with
      | false => rfl
      | true =>
        rw [if_neg (by decide), if_neg (by decide), ih]
        cases legsOk (some (legHdrLayout.read p).domainId)
          (legHdrLayout.table count (p.drop legHdrLen)) <;> rfl

/-- The view of bytes with a given head and given leg headers. -/
def viewAt (src : Bytes) (head : EnvHead) (hdrs : List LegHdr) : EnvView where
  envelopeVersion := head.version
  expiryHeight := head.expiryHeight
  feeAmount := head.feeAmount
  resMaxTotalUnits := head.resMaxTotalUnits
  legCount := head.legCount
  leg := hdrs
  callOff := (offsets (fixedHead + hdrs.length * legHdrLen)
    (hdrs.map fun hdr => hdr.callLen.toNat)).map UInt32.ofNat
  authOff := (offsets (fixedHead + hdrs.length * legHdrLen + callTotal hdrs)
    (hdrs.map fun hdr => hdr.authLen.toNat)).map UInt32.ofNat
  buf := some src
  envLen := src.length

theorem finishView_eq (head : EnvHead) {hdrs : List LegHdr} (some_leg : hdrs ≠ [])
    (length : src.length = fixedHead + hdrs.length * legHdrLen + callTotal hdrs + authTotal hdrs)
    (fits : src.length ≤ maxTotalLen) :
    finishView src head hdrs
      (offsets (fixedHead + hdrs.length * legHdrLen) (hdrs.map fun hdr => hdr.callLen.toNat))
      (offsets (fixedHead + hdrs.length * legHdrLen + callTotal hdrs)
        (hdrs.map fun hdr => hdr.authLen.toNat))
      (fixedHead + hdrs.length * legHdrLen + callTotal hdrs + authTotal hdrs) =
      some (viewAt src head hdrs) := by
  rw [maxTotalLen, length, authTotal] at fits
  obtain ⟨offset, hdr, atOffset, atHdr, last⟩ :=
    exists_last_word (fun hdr => hdr.authLen.toNat) some_leg
      (show fixedHead + hdrs.length * legHdrLen + callTotal hdrs + _ < 2 ^ 32 by omega)
  rw [finishView, if_neg (by rw [length]; simp)]
  dsimp only
  rw [atOffset, atHdr]
  dsimp only
  rw [if_neg (by rw [last]; simp [authTotal]), viewAt, length]

theorem decodeLegs_eq_some {head : EnvHead} {view : EnvView} (some_leg : head.legCount.toNat ≠ 0)
    (few : head.legCount.toNat ≤ maxLegs) :
    decodeLegs src head = some view ↔
      ∃ hdrs, hdrs = legHdrLayout.table head.legCount.toNat (src.drop fixedHead) ∧
        legsOk none hdrs = true ∧
        src.length = fixedHead + hdrs.length * legHdrLen + callTotal hdrs + authTotal hdrs ∧
        src.length ≤ maxTotalLen ∧ viewAt src head hdrs = view := by
  have base := base_le few
  have size : (legHdrLayout.table head.legCount.toNat (src.drop fixedHead)).length =
      head.legCount.toNat := Layout.length_table _ _ _
  rw [decodeLegs, readLegs_eq]
  generalize legHdrLayout.table head.legCount.toNat (src.drop fixedHead) = hdrs at *
  rw [← size] at base some_leg ⊢
  have filled : hdrs ≠ [] := fun empty => some_leg (congrArg List.length empty)
  rw [exists_eq_left]
  by_cases ok : legsOk none hdrs = true
  · rw [if_pos ok, bind_eq_bind, bind_some, walk_walk base _ _ (finishView src head hdrs)]
    by_cases fits :
        fixedHead + hdrs.length * legHdrLen + callTotal hdrs + authTotal hdrs ≤ maxTotalLen
    · rw [if_pos fits]
      by_cases length : src.length =
          fixedHead + hdrs.length * legHdrLen + callTotal hdrs + authTotal hdrs
      · rw [finishView_eq head filled length (by omega), some.injEq]
        constructor
        · intro eq
          exact ⟨ok, length, by omega, eq⟩
        · intro made
          exact made.2.2.2
      · rw [finishView, if_pos length]
        constructor
        · intro refused
          cases refused
        · intro made
          exact absurd made.2.1 length
    · rw [if_neg fits]
      constructor
      · intro refused
        cases refused
      · rintro ⟨-, length, within, -⟩
        omega
  · rw [if_neg ok]
    constructor
    · intro refused
      cases refused
    · intro made
      exact absurd made.1 ok

/-- A view that has every field and every blob of an envelope. -/
structure EnvView.Holds (view : EnvView) (input : EnvIn) : Prop where
  envelopeVersion : view.envelopeVersion = envVersion
  expiryHeight : view.expiryHeight = input.expiryHeight
  feeAmount : view.feeAmount = input.feeAmount
  resMaxTotalUnits : view.resMaxTotalUnits = input.resMaxTotalUnits
  legCount : view.legCount.toNat = input.legs.length
  leg : view.leg = input.legs.map fun leg => leg.hdr
  callData : view.callData = input.legs.map LegIn.callData
  authData : view.authData = input.legs.map LegIn.authData

def EnvIn.head (input : EnvIn) : EnvHead :=
  ⟨envFamily, envVersion, input.expiryHeight, input.feeAmount, input.resMaxTotalUnits,
    UInt16.ofNat input.legs.length⟩

def EnvIn.view (input : EnvIn) : EnvView :=
  viewAt input.bytes input.head input.hdrs

theorem EnvIn.Valid.holds_view (valid : input.Valid) : input.view.Holds input where
  envelopeVersion := rfl
  expiryHeight := rfl
  feeAmount := rfl
  resMaxTotalUnits := rfl
  legCount := UInt16.toNat_ofNat_of_lt' (Nat.lt_of_le_of_lt valid.few_legs (by decide))
  leg := rfl
  callData := by
    have fits := valid.fits
    have size : input.hdrs.length = input.legs.length := List.length_map _
    rw [input.length_bytes, callTotal, maxTotalLen, ← size] at fits
    have found := slices_first (envHeadLayout.write input.head) input.legs
    rw [envHeadLayout.length_write, width_envHeadLayout, width_legSections, ← size] at found
    exact (slices_words input.bytes _ (by omega)).trans found
  authData := by
    have fits := valid.fits
    have size : input.hdrs.length = input.legs.length := List.length_map _
    rw [input.length_bytes, authTotal, maxTotalLen, ← size] at fits
    have found := slices_second (envHeadLayout.write input.head) input.legs
    rw [envHeadLayout.length_write, width_envHeadLayout, width_legSections, ← size] at found
    exact (slices_words input.bytes _ (by omega)).trans found

theorem EnvView.Holds.unique {view : EnvView} {input' : EnvIn} (holds : view.Holds input)
    (holds' : view.Holds input') : input = input' := by
  refine EnvIn.ext (holds.expiryHeight.symm.trans holds'.expiryHeight)
    (holds.feeAmount.symm.trans holds'.feeAmount)
    (holds.resMaxTotalUnits.symm.trans holds'.resMaxTotalUnits) ?_
  exact items_ext (holds.leg.symm.trans holds'.leg) (holds.callData.symm.trans holds'.callData)
    (holds.authData.symm.trans holds'.authData)

theorem EnvIn.bytes_eq (input : EnvIn) :
    input.bytes = envHeadLayout.write input.head ++ body input.legs := rfl

theorem EnvIn.Valid.decode_bytes (valid : input.Valid) (out : EnvView) :
    decode input.bytes out = (true, input.view) := by
  have length := input.length_bytes
  have read : envHeadLayout.read input.bytes = input.head := envHeadLayout.read_write _ _
  have count : input.head.legCount.toNat = input.legs.length := valid.holds_view.legCount
  have size : input.hdrs.length = input.legs.length := List.length_map _
  have rest : input.bytes.drop fixedHead = body input.legs := envHeadLayout.drop_write _ _
  have some_leg := valid.some_leg
  have few := valid.few_legs
  have decoded : decodeLegs input.bytes input.head = some input.view := by
    rw [decodeLegs_eq_some (by rwa [count]) (by rwa [count]), count, rest]
    refine ⟨input.hdrs, (table_body input.legs).symm, valid.legs_ok, ?_, valid.fits, rfl⟩
    rw [length, size]
  have ne : ¬ (input.head.legCount = 0 ∨ maxLegs < input.head.legCount.toNat) := by
    rw [count]
    rintro (zero | many)
    · rw [zero] at count
      exact some_leg count.symm
    · omega
  rw [decode]
  dsimp only
  rw [if_neg (by omega), read, if_neg (by simp [EnvIn.head]), if_neg (by simp [EnvIn.head]),
    if_neg ne, if_neg (by rw [count]; omega), decoded]

theorem decode_cases (src : Bytes) (out : EnvView) :
    decode src out = (false, EnvView.zero) ∨
      ∃ head view, head = envHeadLayout.read src ∧ decode src out = (true, view) ∧
        fixedHead ≤ src.length ∧ head.family = envFamily ∧ head.version = envVersion ∧
        head.legCount.toNat ≠ 0 ∧ head.legCount.toNat ≤ maxLegs ∧
        decodeLegs src head = some view := by
  rw [decode]
  dsimp only
  split
  next => exact Or.inl rfl
  next long =>
    split
    next => exact Or.inl rfl
    next family =>
      split
      next => exact Or.inl rfl
      next version =>
        split
        next => exact Or.inl rfl
        next count =>
          split
          next => exact Or.inl rfl
          next =>
            cases decoded : decodeLegs src (envHeadLayout.read src) with
            | none => exact Or.inl rfl
            | some view =>
              refine Or.inr ⟨_, view, rfl, rfl, by omega, of_not_not family, of_not_not version,
                ?_, by omega, decoded⟩
              intro zero
              exact count (Or.inl (UInt16.toNat_inj.mp zero))

theorem exists_of_decode {out view : EnvView} (passed : decode src out = (true, view)) :
    ∃ input : EnvIn, input.Valid ∧ input.bytes = src := by
  obtain refused | ⟨head, other, read, -, long, family, version, some_leg, few, decoded⟩ :=
    decode_cases src out
  · rw [refused] at passed
    cases passed
  · obtain ⟨hdrs, table, ok, length, fits, -⟩ := (decodeLegs_eq_some some_leg few).mp decoded
    have size : hdrs.length = head.legCount.toNat := by rw [table, Layout.length_table]
    have bodyLength : (src.drop fixedHead).length = head.legCount.toNat * legHdrLen +
        (callTotal hdrs + authTotal hdrs) := by
      rw [List.length_drop, length, size]
      omega
    rw [table] at bodyLength
    obtain ⟨legs, count, legHdrs, bytes⟩ : ∃ legs : List LegIn, _ := exists_body bodyLength
    have written : (EnvIn.mk head.expiryHeight head.feeAmount head.resMaxTotalUnits legs).bytes =
        src := by
      have eq : (EnvIn.mk head.expiryHeight head.feeAmount head.resMaxTotalUnits legs).head =
          head := by
        refine EnvHead.ext family.symm version.symm rfl rfl rfl ?_
        rw [EnvIn.head, count, UInt16.ofNat_toNat]
      rw [EnvIn.bytes_eq, eq, bytes, read, envHeadLayout.write_read src long,
        width_envHeadLayout, List.take_append_drop]
    refine ⟨_, ⟨?_, ?_, ?_, ?_⟩, written⟩
    · rwa [count]
    · rwa [count]
    · rw [EnvIn.hdrs, legHdrs]
      rwa [table] at ok
    · rwa [written]

/-- The decoder accepts exactly what the encoder writes; it finds every field and every blob
again, so writing what it found gives the same bytes; and it clears the view it refuses. -/
theorem envelope_codec :
    (∀ src out, (decode src out).1 = true ↔ ∃ input cap, encode input cap = some src) ∧
    (∀ input cap src out, encode input cap = some src →
      ∃ view, decode src out = (true, view) ∧ view.Holds input) ∧
    (∀ src out view, decode src out = (true, view) →
      ∃ input, view.Holds input ∧ ∀ other cap, view.Holds other → src.length ≤ cap →
        encode other cap = some src) ∧
    ∀ src out, (decode src out).1 = false → (decode src out).2 = EnvView.zero := by
  have written : ∀ input cap src out, encode input cap = some src →
      ∃ view, decode src out = (true, view) ∧ view.Holds input := by
    intro input cap src out encoded
    obtain ⟨valid, -, rfl⟩ := encode_eq_some.mp encoded
    exact ⟨input.view, valid.decode_bytes out, valid.holds_view⟩
  refine ⟨?_, written, ?_, ?_⟩
  · intro src out
    constructor
    · intro passed
      obtain ⟨input, valid, rfl⟩ := exists_of_decode (Prod.ext passed rfl)
      exact ⟨input, _, encode_eq_some.mpr ⟨valid, Nat.le_refl _, rfl⟩⟩
    · rintro ⟨input, cap, encoded⟩
      obtain ⟨view, read, -⟩ := written input cap src out encoded
      rw [read]
  · intro src out view passed
    obtain ⟨input, valid, rfl⟩ := exists_of_decode passed
    obtain rfl : input.view = view := by
      rw [valid.decode_bytes out] at passed
      exact (Prod.mk.inj passed).2
    refine ⟨input, valid.holds_view, ?_⟩
    intro other cap holds room
    obtain rfl := holds.unique valid.holds_view
    exact encode_eq_some.mpr ⟨valid, room, rfl⟩
  · intro src out refused
    obtain cleared | ⟨-, view, -, passed, -⟩ := decode_cases src out
    · rw [cleared]
    · rw [passed] at refused
      cases refused

def sampleLeg (domainId : UInt32) (auth : UInt8) : LegIn :=
  ⟨⟨domainId, 1, 1, accessInvoke, 1, 3, 2, 4, 64⟩, [1, 2, 3], [8, auth], rfl, rfl⟩

/-- Two legs in two domains. -/
def sampleEnvelope (auth : UInt8) : EnvIn :=
  ⟨100, 5, 1000, [sampleLeg 7 9, sampleLeg 8 auth]⟩

theorem sampleEnvelope_valid (auth : UInt8) : (sampleEnvelope auth).Valid where
  some_leg := of_decide_eq_true rfl
  few_legs := of_decide_eq_true rfl
  legs_ok := rfl
  fits := of_decide_eq_true rfl

/-- An envelope that is written, read and written again, and bytes that are refused. -/
theorem envelope_codec_two_legs :
    (∃ view, decode (sampleEnvelope 0).bytes EnvView.zero = (true, view) ∧
      view.Holds (sampleEnvelope 0) ∧
      encode (sampleEnvelope 0) 200 = some (sampleEnvelope 0).bytes) ∧
    (decode [1, 2, 3] (sampleEnvelope 0).view).2 = EnvView.zero := by
  obtain ⟨-, written, again, cleared⟩ := envelope_codec
  have encoded : encode (sampleEnvelope 0) 200 = some (sampleEnvelope 0).bytes :=
    encode_eq_some.mpr ⟨sampleEnvelope_valid 0, by decide, rfl⟩
  obtain ⟨view, read, holds⟩ := written _ _ _ EnvView.zero encoded
  obtain ⟨-, -, rewritten⟩ := again _ _ _ read
  exact ⟨⟨view, read, holds, rewritten _ _ holds (by decide)⟩,
    cleared [1, 2, 3] (sampleEnvelope 0).view rfl⟩

end DnaLedger.Envelope
