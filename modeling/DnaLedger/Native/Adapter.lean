import DnaLedger.Effect.WireCodec
import DnaLedger.Native.Coins

/-!
# Storage adapters

Model of `nodus_witness_v2_adapter.c`. The store is a parameter.
-/

namespace DnaLedger.Native

open DnaLedger.Effect

/-- The errors of `nodus_adapter_status_t` that are returned here. -/
inductive AdapterError where
  | arg
  | unknownOp
  | kind
  | precondForm
  | shape
  | precondExists
  | precondMissing
  | precondVersion
  | precondHash
  | storageFault
  deriving DecidableEq

structure AdapterOp where
  opId : UInt32
  allowedKinds : List UInt8
  allowedPreconds : List UInt8
  keyLenMin : Nat
  keyLenMax : Nat
  valueLenMin : Nat
  valueLenMax : Nat

/-- `nodus_adapter_row_facts_t` of a row that exists. -/
structure RowFacts where
  version : UInt64
  valueHash : Digest

/-- `nodus_domain_adapter_t` over a store; `none` is a storage fault, and no facts or no value is a
row that does not exist. -/
structure Adapter (σ : Type) where
  ops : List AdapterOp
  probe : σ → UInt32 → Bytes → Option (Option RowFacts)
  read : σ → UInt32 → Bytes → Option (Option Bytes)
  mutate : σ → UInt32 → UInt8 → Bytes → Bytes → Option σ

/-- `nodus_adapter_op_lookup` in a table that is ordered by `op_id`. -/
def opLookup (opId : UInt32) : List AdapterOp → Option AdapterOp
  | [] => none
  | op :: rest =>
    if op.opId = opId then some op
    else if opId < op.opId then none
    else opLookup opId rest

def pairLegal (kind tag : UInt8) : Bool :=
  if kind = kindCreate then tag = preAbsent
  else if kind = kindSet ∨ kind = kindDelete then
    tag = preExists ∨ tag = preExistsVersion ∨ tag = preExistsVhash
  else false

/-- The ranges that every row of the table states. -/
def rangesOk (op : AdapterOp) : Bool :=
  op.keyLenMin ≤ op.keyLenMax && op.keyLenMax ≤ maxKeyLen &&
    op.valueLenMin ≤ op.valueLenMax && op.valueLenMax ≤ maxValueLen

/-- The checks of `nodus_adapter_selfcheck` on one operation. -/
def opOk (op : AdapterOp) : Bool :=
  if op.allowedKinds = [] then op.allowedPreconds = [] && rangesOk op
  else
    let kCreate := kindCreate ∈ op.allowedKinds
    let kMut := kindSet ∈ op.allowedKinds ∨ kindDelete ∈ op.allowedKinds
    let pAbsent := preAbsent ∈ op.allowedPreconds
    let pExists := ∃ tag ∈ op.allowedPreconds, tag ≠ preAbsent
    op.allowedKinds.all (fun kind => kindCreate ≤ kind && kind ≤ kindDelete) &&
      op.allowedPreconds ≠ [] &&
      op.allowedPreconds.all (fun tag => preAbsent ≤ tag && tag ≤ preExistsVhash) &&
      rangesOk op && decide (kCreate ↔ pAbsent) && decide (kMut ↔ pExists) &&
      decide (kindDelete ∈ op.allowedKinds → op.valueLenMin = 0)

section

variable (ops : List AdapterOp)

def selfcheck : Bool :=
  ops ≠ [] && Sorting.ascending (fun first second => first.opId < second.opId) ops && ops.all opOk

/-- `nodus_adapter_precond_eval` on the facts of a row. -/
def precondEval (hdr : EffectHdr) (facts : Option RowFacts) : Except AdapterError Unit :=
  if !pairLegal hdr.effectKind hdr.precondTag then .error .precondForm
  else
    match facts with
    | none =>
      if hdr.precondTag = preAbsent then .ok () else .error .precondMissing
    | some row =>
      if hdr.precondTag = preAbsent then .error .precondExists
      else if hdr.precondTag = preExistsVersion then
        if row.version = hdr.expectedVersion then .ok () else .error .precondVersion
      else if hdr.precondTag = preExistsVhash then
        if row.valueHash = hdr.expectedVhash then .ok () else .error .precondHash
      else .ok ()

/-- The loop body of `nodus_witness_v2_effects_validate`, for one record and its offsets. -/
def validateOne (resLen : Nat) (hdr : EffectHdr)
    (keyOff valOff : UInt32) : Except AdapterError Unit := do
  failWhen .arg (resLen < keyOff.toNat ∨ resLen - keyOff.toNat < hdr.keyLen.toNat ∨
    resLen < valOff.toNat ∨ resLen - valOff.toNat < hdr.valueLen.toNat)
  let op ← orFail .unknownOp (opLookup hdr.opId ops)
  failWhen .kind (hdr.effectKind < kindCreate ∨ kindDelete < hdr.effectKind ∨
    hdr.effectKind ∉ op.allowedKinds)
  failWhen .precondForm (hdr.precondTag < preAbsent ∨ preExistsVhash < hdr.precondTag ∨
    hdr.precondTag ∉ op.allowedPreconds)
  failWhen .precondForm (!pairLegal hdr.effectKind hdr.precondTag)
  failWhen .shape (hdr.keyLen.toNat < op.keyLenMin ∨ op.keyLenMax < hdr.keyLen.toNat ∨
    hdr.valueLen.toNat < op.valueLenMin ∨ op.valueLenMax < hdr.valueLen.toNat)

def effectsValidate (v : EffectView) : Except AdapterError Unit := do
  failWhen .arg (!selfcheck ops)
  failWhen .arg v.buf.isNone
  failWhen .arg (v.resultVersion ≠ Effect.resultVersion)
  failWhen .arg (maxCount < v.effectCount.toNat)
  (v.eff.zip (v.keyOff.zip v.valOff)).forM fun (hdr, keyOff, valOff) =>
    validateOne ops v.resLen hdr keyOff valOff

end

section

variable {σ : Type} (adapter : Adapter σ)

def readOne (store : σ) (req : ReadReq) : Except AdapterError ReadRes := do
  failWhen .arg (!selfcheck adapter.ops)
  let op ← orFail .unknownOp (opLookup req.opId adapter.ops)
  failWhen .shape (req.key.length < 1 ∨ maxKeyLen < req.key.length ∨
    req.key.length < op.keyLenMin ∨ op.keyLenMax < req.key.length)
  let found ← orFail .storageFault (adapter.read store req.opId req.key)
  match found with
  | none => return .absent
  | some value =>
    failWhen .storageFault (maxValueLen < value.length ∨ op.valueLenMax < value.length)
    return ⟨true, value⟩

/-- The loop body of `nodus_witness_v2_effects_apply`. -/
def applyOne (store : σ) (hdr : EffectHdr) (key value : Bytes) : Except AdapterError σ := do
  let _ ← orFail .unknownOp (opLookup hdr.opId adapter.ops)
  let facts ← orFail .storageFault (adapter.probe store hdr.opId key)
  precondEval hdr facts
  orFail .storageFault (adapter.mutate store hdr.opId hdr.effectKind key value)

/-- The engine rolls the store back when it fails. -/
def effectsApply (store : σ) (v : EffectView) : Except AdapterError σ := do
  effectsValidate adapter.ops v
  (v.eff.zip (v.keys.zip v.values)).foldlM
    (fun store (hdr, key, value) => applyOne adapter store hdr key value) store

end

/-- A record that the table of operations allows, wherever its bytes are. -/
def admits (ops : List AdapterOp) (hdr : EffectHdr) : Bool :=
  match opLookup hdr.opId ops with
  | none => false
  | some op =>
    hdr.effectKind ∈ op.allowedKinds ∧ hdr.precondTag ∈ op.allowedPreconds ∧
      op.keyLenMin ≤ hdr.keyLen.toNat ∧ hdr.keyLen.toNat ≤ op.keyLenMax ∧
      op.valueLenMin ≤ hdr.valueLen.toNat ∧ hdr.valueLen.toNat ≤ op.valueLenMax

variable {hdr : EffectHdr}

section

variable (ok : effectHdrOk hdr = true)

include ok

theorem pair_of_effectHdrOk :
    (hdr.effectKind = kindCreate ∧ hdr.precondTag = preAbsent) ∨
      (hdr.effectKind = kindSet ∨ hdr.effectKind = kindDelete) ∧
        (hdr.precondTag = preExists ∨ hdr.precondTag = preExistsVersion ∨
          hdr.precondTag = preExistsVhash) := by
  obtain ⟨kinds, ok⟩ := ite_false_left (effectHdrOk.eq_1 hdr ▸ ok)
  obtain ⟨tags, ok⟩ := ite_false_left ok
  obtain ⟨create, ok⟩ := ite_false_left ok
  obtain ⟨absent, -⟩ := ite_false_left ok
  by_cases isCreate : hdr.effectKind = kindCreate
  · exact Or.inl ⟨isCreate, of_not_not fun other => create ⟨isCreate, other⟩⟩
  · have there : hdr.precondTag ≠ preAbsent := fun eq => absent ⟨eq, isCreate⟩
    refine Or.inr ⟨?_, ?_⟩
    · by_contra other
      rw [not_or] at other
      exact kinds ⟨isCreate, other⟩
    · by_contra other
      rw [not_or, not_or] at other
      exact tags ⟨there, other⟩

theorem pairLegal_of_effectHdrOk : pairLegal hdr.effectKind hdr.precondTag = true := by
  obtain ⟨kind, tag⟩ | ⟨kind | kind, tag | tag | tag⟩ := pair_of_effectHdrOk ok <;>
    rw [kind, tag] <;> rfl

theorem range_of_effectHdrOk :
    (kindCreate ≤ hdr.effectKind ∧ hdr.effectKind ≤ kindDelete) ∧
      preAbsent ≤ hdr.precondTag ∧ hdr.precondTag ≤ preExistsVhash := by
  obtain ⟨kind, tag⟩ | ⟨kind | kind, tag | tag | tag⟩ := pair_of_effectHdrOk ok <;>
    rw [kind, tag] <;> decide

theorem validateOne_eq_ok {ops : List AdapterOp} {resLen : Nat} {keyOff valOff : UInt32}
    (allowed : admits ops hdr = true) (key : keyOff.toNat + hdr.keyLen.toNat ≤ resLen)
    (value : valOff.toNat + hdr.valueLen.toNat ≤ resLen) :
    validateOne ops resLen hdr keyOff valOff = .ok () := by
  obtain ⟨⟨kindLow, kindHigh⟩, tagLow, tagHigh⟩ := range_of_effectHdrOk ok
  rw [admits] at allowed
  split at allowed
  next => cases allowed
  next op found =>
    obtain ⟨kind, tag, keyMin, keyMax, valueMin, valueMax⟩ := of_decide_eq_true allowed
    have goodKind : ¬ (hdr.effectKind < kindCreate ∨ kindDelete < hdr.effectKind ∨
        hdr.effectKind ∉ op.allowedKinds) := by
      rintro (low | high | missing)
      · exact UInt8.not_lt.mpr kindLow low
      · exact UInt8.not_lt.mpr kindHigh high
      · exact missing kind
    have goodTag : ¬ (hdr.precondTag < preAbsent ∨ preExistsVhash < hdr.precondTag ∨
        hdr.precondTag ∉ op.allowedPreconds) := by
      rintro (low | high | missing)
      · exact UInt8.not_lt.mpr tagLow low
      · exact UInt8.not_lt.mpr tagHigh high
      · exact missing tag
    refine bind_eq_ok.mpr ⟨(), failWhen_eq_ok.mpr (by omega), bind_eq_ok.mpr
      ⟨op, orFail_eq_ok.mpr found, bind_eq_ok.mpr ⟨(), failWhen_eq_ok.mpr goodKind, bind_eq_ok.mpr
        ⟨(), failWhen_eq_ok.mpr goodTag, bind_eq_ok.mpr ⟨(), failWhen_eq_ok.mpr ?_,
          failWhen_eq_ok.mpr (by omega)⟩⟩⟩⟩⟩
    rw [pairLegal_of_effectHdrOk ok]
    decide

end

theorem word_add_le {start : Nat} {lens : List Nat} {i len : Nat} {offset : UInt32}
    (small : start + lens.sum < 2 ^ 32)
    (atOffset : ((offsets start lens).map UInt32.ofNat)[i]? = some offset)
    (atLen : lens[i]? = some len) : offset.toNat + len ≤ start + lens.sum := by
  rw [List.getElem?_map, Option.map_eq_some_iff] at atOffset
  obtain ⟨place, found, rfl⟩ := atOffset
  have within := offset_add_le found atLen
  rw [UInt32.toNat_ofNat_of_lt' (show place < 2 ^ 32 by omega)]
  exact within

theorem effectsValidate_viewOf {ops : List AdapterOp} (fine : selfcheck ops = true)
    {effects : List EffectIn} (valid : Valid effects)
    (allowed : ∀ effect ∈ effects, admits ops effect.hdr = true) :
    effectsValidate ops (viewOf effects) = .ok () := by
  have holds := holds_viewOf valid.few valid.fits
  have few := valid.few
  have size : (effects.map Sections.Item.hdr).length = effects.length := List.length_map _
  have length := length_resultBytes effects
  have fits := valid.fits
  rw [keyTotal, valueTotal, ← size] at length
  rw [length, maxTotalLen] at fits
  refine bind_eq_ok.mpr ⟨(), failWhen_eq_ok.mpr (by simp [fine]), bind_eq_ok.mpr
    ⟨(), failWhen_eq_ok.mpr (by simp [viewOf, viewAt]), bind_eq_ok.mpr
      ⟨(), failWhen_eq_ok.mpr (by simp [holds.resultVersion]), bind_eq_ok.mpr
        ⟨(), failWhen_eq_ok.mpr (by rw [holds.effectCount]; omega), ?_⟩⟩⟩⟩
  apply forM_eq_ok.mpr
  rintro ⟨hdr, keyOff, valOff⟩ mem
  obtain ⟨i, found⟩ := List.mem_iff_getElem?.mp mem
  obtain ⟨atHdr, atOffs⟩ := List.getElem?_zip_eq_some.mp found
  obtain ⟨atKey, atVal⟩ := List.getElem?_zip_eq_some.mp atOffs
  have atHdr : (effects.map Sections.Item.hdr)[i]? = some hdr := atHdr
  obtain ⟨effect, inside, rfl⟩ := List.mem_map.mp (List.mem_of_getElem? atHdr)
  have lens : ∀ len : EffectHdr → Nat,
      ((effects.map Sections.Item.hdr).map len)[i]? = some (len effect.hdr) := by
    intro len
    rw [List.getElem?_map, atHdr]
    rfl
  refine validateOne_eq_ok (valid.hdrs_ok effect inside) (allowed effect inside) ?_ ?_
  · have within := word_add_le (by omega) atKey (lens fun hdr => hdr.keyLen.toNat)
    refine within.trans ?_
    show _ ≤ (resultBytes effects).length
    rw [length]
    omega
  · have within := word_add_le (by rw [keyTotal]; omega) atVal (lens fun hdr => hdr.valueLen.toNat)
    refine within.trans ?_
    show _ ≤ (resultBytes effects).length
    rw [length]

theorem foldlM_of_effectsApply {σ : Type} {adapter : Adapter σ} {effects : List EffectIn}
    (valid : Valid effects) {store after : σ}
    (applied : effectsApply adapter store (viewOf effects) = .ok after) :
    effects.foldlM (fun store effect =>
      applyOne adapter store effect.hdr effect.key effect.value) store = .ok after := by
  have holds := holds_viewOf valid.few valid.fits
  rw [effectsApply] at applied
  obtain ⟨-, -, applied⟩ := bind_eq_ok.mp applied
  rw [holds.eff, holds.keys, holds.values, List.zip_map', List.zip_map', List.foldlM_map]
    at applied
  exact applied

end DnaLedger.Native
