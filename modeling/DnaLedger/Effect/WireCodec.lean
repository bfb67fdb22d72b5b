import DnaLedger.Effect.Wire
import DnaLedger.Foundation.Program

/-!
# The effect-result codec is canonical

The encoder accepts the valid lists of effects and writes their bytes; the decoder accepts exactly
those bytes and finds every effect again.
-/

namespace DnaLedger.Effect

open Sections Sorting List

theorem width_effectHeadLayout : effectHeadLayout.width = fixedHead := rfl

theorem width_effectSections : effectSections.layout.width = recordLen := rfl

abbrev keyTotal (hdrs : List EffectHdr) : Nat :=
  (hdrs.map fun hdr => hdr.keyLen.toNat).sum

abbrev valueTotal (hdrs : List EffectHdr) : Nat :=
  (hdrs.map fun hdr => hdr.valueLen.toNat).sum

theorem length_resultBytes (effects : List EffectIn) :
    (resultBytes effects).length = fixedHead + effects.length * recordLen +
      keyTotal (effects.map Item.hdr) + valueTotal (effects.map Item.hdr) := by
  rw [resultBytes, length_append, effectHeadLayout.length_write, width_effectHeadLayout,
    length_body, width_effectSections, Nat.add_assoc, Nat.add_assoc]
  rfl

theorem base_le {count : Nat} (few : count ≤ maxCount) :
    fixedHead + count * recordLen ≤ maxTotalLen := by
  rw [maxCount] at few
  rw [fixedHead, recordLen, maxTotalLen]
  omega

abbrev records (effects : List EffectIn) : List (EffectHdr × Bytes) :=
  effects.map fun effect => (effect.hdr, effect.key)

/-- What the encoder asks for. -/
structure Valid (effects : List EffectIn) : Prop where
  few : effects.length ≤ maxCount
  hdrs_ok : ∀ effect ∈ effects, effectHdrOk effect.hdr = true
  order_ok : effOrderOk (records effects) = true
  fits : (resultBytes effects).length ≤ maxTotalLen

theorem lengths_of_effectHdrOk {hdr : EffectHdr} (ok : effectHdrOk hdr = true) :
    ¬ (hdr.keyLen.toNat = 0 ∨ maxKeyLen < hdr.keyLen.toNat) ∧
      ¬ maxValueLen < hdr.valueLen.toNat := by
  obtain ⟨-, ok⟩ := ite_false_left (effectHdrOk.eq_1 hdr ▸ ok)
  obtain ⟨-, ok⟩ := ite_false_left ok
  obtain ⟨-, ok⟩ := ite_false_left ok
  obtain ⟨-, ok⟩ := ite_false_left ok
  obtain ⟨-, ok⟩ := ite_false_left ok
  obtain ⟨-, ok⟩ := ite_false_left ok
  obtain ⟨keys, ok⟩ := ite_false_left ok
  obtain ⟨values, -⟩ := ite_false_left ok
  refine ⟨?_, values⟩
  rintro (zero | long)
  · exact keys (Or.inl (UInt16.toNat_inj.mp zero))
  · exact keys (Or.inr long)

variable {effects : List EffectIn}

theorem encodedSize_eq (few : effects.length ≤ maxCount)
    (ok : ∀ effect ∈ effects, effectHdrOk effect.hdr = true) :
    encodedSize effects =
      if (resultBytes effects).length ≤ maxTotalLen then some (resultBytes effects).length
      else none := by
  have base := base_le few
  have keys : (effects.map fun effect => effect.hdr.keyLen.toNat).sum =
      keyTotal (effects.map Item.hdr) := by
    rw [keyTotal, map_map]
    rfl
  have values : (effects.map fun effect => effect.hdr.valueLen.toNat).sum =
      valueTotal (effects.map Item.hdr) := by
    rw [valueTotal, map_map]
    rfl
  have goodKeys : ∀ len ∈ effects.map fun effect => effect.hdr.keyLen.toNat,
      ¬ (len = 0 ∨ maxKeyLen < len) := by
    intro len mem
    obtain ⟨effect, inside, rfl⟩ := mem_map.mp mem
    exact (lengths_of_effectHdrOk (ok effect inside)).1
  have goodValues : ∀ len ∈ effects.map fun effect => effect.hdr.valueLen.toNat,
      ¬ maxValueLen < len := by
    intro len mem
    obtain ⟨effect, inside, rfl⟩ := mem_map.mp mem
    exact (lengths_of_effectHdrOk (ok effect inside)).2
  rw [encodedSize, if_neg (by omega), foldlM_guarded goodKeys, foldlM_accAdd base, keys,
    length_resultBytes]
  by_cases key : fixedHead + effects.length * recordLen + keyTotal (effects.map Item.hdr) ≤
      maxTotalLen
  · rw [if_pos key, Option.bind_eq_bind, Option.bind_some, foldlM_guarded goodValues,
      foldlM_accAdd key, values]
  · rw [if_neg key, if_neg (by omega)]
    rfl

variable {src : Bytes}

theorem encode_eq_some {cap : Nat} :
    encode effects cap = some src ↔
      Valid effects ∧ (resultBytes effects).length ≤ cap ∧ resultBytes effects = src := by
  rw [encode]
  constructor
  · intro encoded
    simp only [Option.ite_none_left_eq_some] at encoded
    obtain ⟨count, ok, order, encoded⟩ := encoded
    have hdrs_ok : ∀ effect ∈ effects, effectHdrOk effect.hdr = true := by simpa using ok
    rw [encodedSize_eq (by omega) hdrs_ok] at encoded
    split at encoded
    next fits =>
      rw [Option.bind_eq_bind, Option.bind_some] at encoded
      split at encoded
      next => cases encoded
      next room =>
        rw [if_neg (by simp)] at encoded
        exact ⟨⟨by omega, hdrs_ok, by simpa using order, fits⟩, by omega, Option.some.inj encoded⟩
    next => cases encoded
  · rintro ⟨valid, room, rfl⟩
    have few := valid.few
    have all : effects.all (fun effect => effectHdrOk effect.hdr) = true :=
      all_eq_true.mpr valid.hdrs_ok
    rw [if_neg (by omega), all, if_neg (by decide), valid.order_ok, if_neg (by decide),
      encodedSize_eq few valid.hdrs_ok, if_pos valid.fits, Option.bind_eq_bind, Option.bind_some,
      if_neg (by omega), if_neg (by simp)]

/-! ## The decoder -/

theorem readEffects_eq (count : Nat) (p : Bytes) :
    readEffects count p =
      if (effectHdrLayout.table count p).all effectHdrOk then some (effectHdrLayout.table count p)
      else none := by
  induction count generalizing p with
  | zero => rfl
  | succ count ih =>
    have width : effectHdrLayout.width = recordLen := rfl
    rw [readEffects, Layout.table, all_cons, width]
    cases effectHdrOk (effectHdrLayout.read p) with
    | false => rfl
    | true =>
      rw [if_neg (by decide), ih]
      cases (effectHdrLayout.table count (p.drop recordLen)).all effectHdrOk <;> rfl

/-- The view of bytes with a given head and given records. -/
def viewAt (src : Bytes) (head : EffectHead) (hdrs : List EffectHdr) : EffectView where
  resultVersion := head.version
  effectCount := head.effectCount
  eff := hdrs
  keyOff := (offsets (fixedHead + hdrs.length * recordLen)
    (hdrs.map fun hdr => hdr.keyLen.toNat)).map UInt32.ofNat
  valOff := (offsets (fixedHead + hdrs.length * recordLen + keyTotal hdrs)
    (hdrs.map fun hdr => hdr.valueLen.toNat)).map UInt32.ofNat
  buf := some src
  resLen := src.length

theorem finishView_eq (head : EffectHead) {hdrs : List EffectHdr}
    (length : src.length = fixedHead + hdrs.length * recordLen + keyTotal hdrs + valueTotal hdrs)
    (fits : src.length ≤ maxTotalLen) :
    finishView src head hdrs
      (offsets (fixedHead + hdrs.length * recordLen) (hdrs.map fun hdr => hdr.keyLen.toNat))
      (offsets (fixedHead + hdrs.length * recordLen + keyTotal hdrs)
        (hdrs.map fun hdr => hdr.valueLen.toNat))
      (fixedHead + hdrs.length * recordLen + keyTotal hdrs + valueTotal hdrs) =
      if effOrderOk (hdrs.zip (viewAt src head hdrs).keys) then some (viewAt src head hdrs)
      else none := by
  rw [maxTotalLen, length] at fits
  rw [finishView, if_neg (by rw [length]; simp), ← length]
  cases order : effOrderOk (hdrs.zip (viewAt src head hdrs).keys) with
  | false =>
    rw [if_pos]
    · rfl
    · rw [← Bool.not_eq_true'] at order
      exact order
  | true =>
    rw [if_neg]
    · by_cases empty : hdrs = []
      · subst empty
        rfl
      · obtain ⟨offset, hdr, atOffset, atHdr, last⟩ :=
          exists_last_word (fun hdr => hdr.valueLen.toNat) empty
            (show fixedHead + hdrs.length * recordLen + keyTotal hdrs + valueTotal hdrs <
              2 ^ 32 by omega)
        dsimp only
        rw [atOffset, atHdr]
        dsimp only
        rw [if_neg (by rw [last, length]; simp)]
        rfl
    · rw [Bool.not_eq_true', Bool.not_eq_false]
      exact order

variable {view : EffectView}

theorem decodeEffects_eq_some {head : EffectHead} (few : head.effectCount.toNat ≤ maxCount) :
    decodeEffects src head = some view ↔
      ∃ hdrs, hdrs = effectHdrLayout.table head.effectCount.toNat (src.drop fixedHead) ∧
        hdrs.all effectHdrOk = true ∧
        src.length = fixedHead + hdrs.length * recordLen + keyTotal hdrs + valueTotal hdrs ∧
        src.length ≤ maxTotalLen ∧
        effOrderOk (hdrs.zip (viewAt src head hdrs).keys) = true ∧
        viewAt src head hdrs = view := by
  have base := base_le few
  have size : (effectHdrLayout.table head.effectCount.toNat (src.drop fixedHead)).length =
      head.effectCount.toNat := Layout.length_table _ _ _
  rw [decodeEffects, readEffects_eq]
  generalize effectHdrLayout.table head.effectCount.toNat (src.drop fixedHead) = hdrs at *
  rw [← size] at base ⊢
  rw [exists_eq_left]
  by_cases ok : hdrs.all effectHdrOk = true
  · rw [if_pos ok, Option.bind_eq_bind, Option.bind_some,
      walk_walk base _ _ (finishView src head hdrs)]
    by_cases fits :
        fixedHead + hdrs.length * recordLen + keyTotal hdrs + valueTotal hdrs ≤ maxTotalLen
    · rw [if_pos fits]
      by_cases length : src.length =
          fixedHead + hdrs.length * recordLen + keyTotal hdrs + valueTotal hdrs
      · rw [finishView_eq head length (by omega)]
        cases order : effOrderOk (hdrs.zip (viewAt src head hdrs).keys) with
        | false =>
          constructor
          · intro refused
            cases refused
          · intro made
            cases made.2.2.2.1
        | true =>
          rw [if_pos rfl, Option.some.injEq]
          constructor
          · intro eq
            exact ⟨ok, length, by omega, rfl, eq⟩
          · intro made
            exact made.2.2.2.2
      · rw [finishView, if_pos length]
        constructor
        · intro refused
          cases refused
        · intro made
          exact absurd made.2.1 length
    · rw [if_neg fits]
      constructor
      · intro refused
        cases refused
      · rintro ⟨-, length, within, -⟩
        omega
  · rw [if_neg ok]
    constructor
    · intro refused
      cases refused
    · intro made
      exact absurd made.1 ok

/-- A view that has every record, every key and every value of a list of effects. -/
structure EffectView.Holds (view : EffectView) (effects : List EffectIn) : Prop where
  resultVersion : view.resultVersion = Effect.resultVersion
  effectCount : view.effectCount.toNat = effects.length
  eff : view.eff = effects.map fun effect => effect.hdr
  keys : view.keys = effects.map EffectIn.key
  values : view.values = effects.map EffectIn.value

def headOf (effects : List EffectIn) : EffectHead :=
  ⟨effFamily, resultVersion, UInt16.ofNat effects.length, 0⟩

def viewOf (effects : List EffectIn) : EffectView :=
  viewAt (resultBytes effects) (headOf effects) (effects.map Item.hdr)

theorem holds_viewOf (few : effects.length ≤ maxCount)
    (fits : (resultBytes effects).length ≤ maxTotalLen) : (viewOf effects).Holds effects where
  resultVersion := rfl
  effectCount := UInt16.toNat_ofNat_of_lt' (Nat.lt_of_le_of_lt few (by decide))
  eff := rfl
  keys := by
    have size : (effects.map Item.hdr).length = effects.length := length_map _
    rw [length_resultBytes, maxTotalLen, ← size] at fits
    have found := slices_first (effectHeadLayout.write (headOf effects)) effects
    rw [effectHeadLayout.length_write, width_effectHeadLayout, width_effectSections,
      ← size] at found
    refine (slices_words (resultBytes effects) _ ?_).trans found
    show fixedHead + (effects.map Item.hdr).length * recordLen + keyTotal (effects.map Item.hdr) <
      2 ^ 32
    omega
  values := by
    have size : (effects.map Item.hdr).length = effects.length := length_map _
    rw [length_resultBytes, maxTotalLen, ← size] at fits
    have found := slices_second (effectHeadLayout.write (headOf effects)) effects
    rw [effectHeadLayout.length_write, width_effectHeadLayout, width_effectSections,
      ← size] at found
    refine (slices_words (resultBytes effects) _ ?_).trans found
    show fixedHead + (effects.map Item.hdr).length * recordLen + keyTotal (effects.map Item.hdr) +
      valueTotal (effects.map Item.hdr) < 2 ^ 32
    omega

theorem EffectView.Holds.unique {effects' : List EffectIn} (holds : view.Holds effects)
    (holds' : view.Holds effects') : effects = effects' :=
  items_ext (holds.eff.symm.trans holds'.eff) (holds.keys.symm.trans holds'.keys)
    (holds.values.symm.trans holds'.values)

theorem resultBytes_eq (effects : List EffectIn) :
    resultBytes effects = effectHeadLayout.write (headOf effects) ++ body effects := rfl

theorem EffectView.Holds.zip_keys (holds : view.Holds effects) :
    view.eff.zip view.keys = records effects := by
  rw [holds.eff, holds.keys, zip_map']

theorem Valid.decode_bytes (valid : Valid effects) (out : EffectView) :
    decode (resultBytes effects) out = (true, viewOf effects) := by
  have length := length_resultBytes effects
  have read : effectHeadLayout.read (resultBytes effects) = headOf effects :=
    effectHeadLayout.read_write _ _
  have few := valid.few
  have holds := holds_viewOf few valid.fits
  have count : (headOf effects).effectCount.toNat = effects.length := holds.effectCount
  have size : (effects.map Item.hdr).length = effects.length := length_map _
  have rest : (resultBytes effects).drop fixedHead = body effects :=
    effectHeadLayout.drop_write _ _
  have decoded : decodeEffects (resultBytes effects) (headOf effects) = some (viewOf effects) := by
    rw [decodeEffects_eq_some (by rwa [count]), count, rest]
    refine ⟨effects.map Item.hdr, (table_body effects).symm, ?_, ?_, valid.fits, ?_, rfl⟩
    · rw [all_map, all_eq_true]
      exact valid.hdrs_ok
    · rw [length, size]
    · exact holds.zip_keys ▸ valid.order_ok
  rw [decode]
  dsimp only
  rw [if_neg (by omega), read, if_neg (by simp [headOf]), if_neg (by simp [headOf]),
    if_neg (by omega), if_neg (by simp [headOf]), if_neg (by rw [count]; omega), decoded]

theorem decode_cases (src : Bytes) (out : EffectView) :
    decode src out = (false, EffectView.zero) ∨
      ∃ head view, head = effectHeadLayout.read src ∧ decode src out = (true, view) ∧
        fixedHead ≤ src.length ∧ head.family = effFamily ∧ head.version = resultVersion ∧
        head.effectCount.toNat ≤ maxCount ∧ head.reserved = 0 ∧
        decodeEffects src head = some view := by
  rw [decode]
  dsimp only
  split
  next => exact Or.inl rfl
  next long =>
    split
    next => exact Or.inl rfl
    next family =>
      split
      next => exact Or.inl rfl
      next version =>
        split
        next => exact Or.inl rfl
        next few =>
          split
          next => exact Or.inl rfl
          next reserved =>
            split
            next => exact Or.inl rfl
            next =>
              cases decoded : decodeEffects src (effectHeadLayout.read src) with
              | none => exact Or.inl rfl
              | some view =>
                exact Or.inr ⟨_, view, rfl, rfl, by omega, of_not_not family,
                  of_not_not version, by omega, of_not_not reserved, decoded⟩

theorem exists_of_decode {out : EffectView} (passed : decode src out = (true, view)) :
    ∃ effects, Valid effects ∧ resultBytes effects = src := by
  obtain refused | ⟨head, other, read, -, long, family, version, few, reserved, decoded⟩ :=
    decode_cases src out
  · rw [refused] at passed
    cases passed
  · obtain ⟨hdrs, table, ok, length, fits, order, -⟩ := (decodeEffects_eq_some few).mp decoded
    have size : hdrs.length = head.effectCount.toNat := by rw [table, Layout.length_table]
    have bodyLength : (src.drop fixedHead).length = head.effectCount.toNat * recordLen +
        (keyTotal hdrs + valueTotal hdrs) := by
      rw [length_drop, length, size]
      omega
    rw [table] at bodyLength
    obtain ⟨effects, count, effectHdrs, bytes⟩ : ∃ effects : List EffectIn, _ :=
      exists_body bodyLength
    have eq : headOf effects = head := by
      refine EffectHead.ext family.symm version.symm ?_ reserved.symm
      rw [headOf, count, UInt16.ofNat_toNat]
    have written : resultBytes effects = src := by
      rw [resultBytes_eq, eq, bytes, read, effectHeadLayout.write_read src long,
        width_effectHeadLayout, take_append_drop]
    have hdrs_eq : hdrs = effects.map Item.hdr := table.trans effectHdrs.symm
    subst written
    rw [← count] at few
    refine ⟨effects, ⟨few, ?_, ?_, fits⟩, rfl⟩
    · rw [hdrs_eq, all_map, all_eq_true] at ok
      exact ok
    · rw [hdrs_eq, ← eq] at order
      exact (holds_viewOf few fits).zip_keys ▸ order

end DnaLedger.Effect
