import DnaLedger.Cmt.MerkleProof
import DnaLedger.Cmt.PartSet
import Mathlib.Data.List.Dedup
import Mathlib.Data.List.Perm.Subperm

/-!
# Reassembly of a block

A part that was taken has a proof under the root of the block, so without a collision it is the part
of the block at its index, and a reader over a complete set returns the block.
-/

namespace DnaLedger.Cmt

open HashTree List Int64

namespace PartSet

variable {buf bytes : Bytes} {offset : Nat} {taken : List Part}

section

variable (fits : offset + bytes.length ≤ buf.length)

include fits

theorem getElem?_copyAt (k : Nat) :
    (copyAt buf offset bytes)[k]? =
      if offset ≤ k ∧ k < offset + bytes.length then bytes[k - offset]? else buf[k]? := by
  have front : (buf.take offset).length = offset := by
    rw [length_take]
    omega
  rw [copyAt, getElem?_append, length_append, front, getElem?_append, front]
  split
  next before =>
    split
    next left => rw [if_neg (by omega), getElem?_take_of_lt left]
    next right => rw [if_pos (by omega)]
  next after =>
    rw [if_neg (by omega), getElem?_drop]
    congr 1
    omega

theorem copyAt_same : ((copyAt buf offset bytes).drop offset).take bytes.length = bytes := by
  apply ext_getElem?
  intro k
  rw [getElem?_take, getElem?_drop, getElem?_copyAt fits]
  split
  next inside => rw [if_pos (by omega), Nat.add_sub_cancel_left]
  next outside => rw [getElem?_eq_none (by omega)]

theorem copyAt_other {other length : Nat}
    (apart : other + length ≤ offset ∨ offset + bytes.length ≤ other) :
    ((copyAt buf offset bytes).drop other).take length = (buf.drop other).take length := by
  apply ext_getElem?
  intro k
  rw [getElem?_take, getElem?_take, getElem?_drop, getElem?_drop]
  split
  next inside => rw [getElem?_copyAt fits, if_neg (by omega)]
  next => rfl

end

theorem slots_apart {first second size length length' : Nat} (apart : first ≠ second)
    (small : length ≤ size) (small' : length' ≤ size) :
    second * size + length' ≤ first * size ∨ first * size + length ≤ second * size := by
  rcases Nat.lt_or_gt_of_ne apart with less | more
  · right
    calc first * size + length ≤ (first + 1) * size := by rw [Nat.succ_mul]; omega
      _ ≤ second * size := Nat.mul_le_mul_right _ less
  · left
    calc second * size + length' ≤ (second + 1) * size := by rw [Nat.succ_mul]; omega
      _ ≤ first * size := Nat.mul_le_mul_right _ more

/-- Where a set with a given store keeps the bytes of a part. -/
def payloadFor (store : Option PayloadStore) (part : Part) : Payload :=
  match store with
  | none => .caller part.bytes
  | some store => .slot (part.index.toNat * store.partSize.toNat) part.bytes.length

structure Holds (ps : PartSet) (part : Part) : Prop where
  bit : ps.partsBitArray[part.index.toNat]? = some true
  held : ps.parts[part.index.toNat]? = some ⟨part.index, payloadFor ps.store part, part.proof⟩
  stored : ∀ store, ps.store = some store → part.bytes.length ≤ store.partSize.toNat ∧
    (store.payloadBuf.drop (part.index.toNat * store.partSize.toNat)).take part.bytes.length =
      part.bytes

theorem Holds.bytesOf {ps : PartSet} {part : Part} (holds : Holds ps part) :
    ps.bytesOf ⟨part.index, payloadFor ps.store part, part.proof⟩ = part.bytes := by
  cases bound : ps.store with
  | none => simp only [PartSet.bytesOf, payloadFor]
  | some store =>
    simp only [PartSet.bytesOf, payloadFor, bound]
    exact (holds.stored store bound).2

/-- A run of offers: the set has each part that it took, and nothing else. -/
structure Tracks (tmhash : Hash) (ps : PartSet) (taken : List Part) : Prop where
  partsLength : ps.parts.length = ps.total.toNat
  bitsLength : ps.partsBitArray.length = ps.total.toNat
  cap : ps.total.toNat ≤ ps.partsCap
  few : ps.total.toNat ≤ partSetMaxParts
  inside : ∀ part ∈ taken, part.index.toNat < ps.total.toNat
  distinct : (taken.map fun part => part.index.toNat).Nodup
  holds : ∀ part ∈ taken, Holds ps part
  accounted : ∀ i, ps.partsBitArray[i]? = some true → ∃ part ∈ taken, part.index.toNat = i
  small : ∀ part ∈ taken, part.bytes.length ≤ blockPartSizeBytes
  count : ps.count.toNat = taken.length
  byteSize : ps.byteSize.toInt = ((taken.map fun part => part.bytes.length).sum : Nat)
  proven : ∀ part ∈ taken, part.proof.total = ofNat ps.total.toNat ∧
    ∃ sized, part.proof.verify tmhash ⟨ps.hash, sized⟩ part.bytes = .ok ()

section

variable {tmhash : Hash} {ps : PartSet} {taken : List Part}

theorem subperm_range {total : Nat} (nodup : (taken.map fun part => part.index.toNat).Nodup)
    (inside : ∀ part ∈ taken, part.index.toNat < total) :
    (taken.map fun part => part.index.toNat).Subperm (range total) := by
  apply nodup.subperm
  intro i mem
  obtain ⟨part, listed, eq⟩ := mem_map.mp mem
  exact mem_range.mpr (eq ▸ inside part listed)

variable (tracks : Tracks tmhash ps taken)

include tracks

theorem Tracks.subperm : (taken.map fun part => part.index.toNat).Subperm (range ps.total.toNat) :=
  subperm_range tracks.distinct tracks.inside

theorem Tracks.length_le : taken.length ≤ ps.total.toNat := by
  simpa using tracks.subperm.length_le

theorem Tracks.getPart {part : Part} (mem : part ∈ taken) :
    ps.getPart part.index.toNat = some part := by
  have inside := tracks.inside part mem
  have holds := tracks.holds part mem
  rw [PartSet.getPart, if_neg (by have := tracks.cap; omega), if_pos holds.bit, holds.held,
    Option.map_some, holds.bytesOf]

end

/-! ## Taking a part -/

/-- What a store looks like after a part was put into it. -/
def storeWith (store : Option PayloadStore) (part : Part) : Option PayloadStore :=
  store.map fun store => { store with
    payloadBuf :=
      copyAt store.payloadBuf (part.index.toNat * store.partSize.toNat) part.bytes }

structure Takes (tmhash : Hash) (ps : PartSet) (part : Part) : Prop where
  inside : part.index.toNat < ps.total.toNat
  free : ps.partsBitArray[part.index.toNat]? ≠ some true
  total : part.proof.total = Int64.ofNat ps.total.toNat
  verified : ∃ sized, part.proof.verify tmhash ⟨ps.hash, sized⟩ part.bytes = .ok ()
  fits : ∀ store, ps.store = some store → part.bytes.length ≤ store.partSize.toNat ∧
    part.index.toNat * store.partSize.toNat + part.bytes.length ≤ store.payloadBuf.length

variable (tmhash : Hash) (ps : PartSet)

theorem offer_cases (part : Part) :
    ps.offer tmhash part = (ps, []) ∨
      (Takes tmhash ps part ∧ ps.offer tmhash part =
        (ps.storePart part (payloadFor ps.store part) (storeWith ps.store part), [part])) := by
  unfold offer
  cases run : ps.addPart tmhash part with
  | error code => exact Or.inl rfl
  | ok outcome =>
    obtain ⟨inside, run⟩ := ite_error_eq_ok.mp run
    obtain ⟨-, run⟩ := ite_error_eq_ok.mp run
    split at run
    next =>
      cases run
      exact Or.inl rfl
    next free =>
    obtain ⟨total, run⟩ := ite_error_eq_ok.mp run
    split at run
    next => cases run
    next sized =>
    right
    obtain ⟨⟨⟩, good, stored⟩ := bind_eq_ok.mp run
    have below : part.index.toNat < ps.total.toNat := by
      rw [UInt32.le_iff_toNat_le] at inside
      omega
    cases bound : ps.store with
    | none =>
      rw [bound] at stored
      cases stored
      exact ⟨⟨below, free, not_not.mp total, ⟨_, good⟩, by simp [bound]⟩, rfl⟩
    | some store =>
      simp only [bound, ite_error_eq_ok] at stored
      obtain ⟨small, room, ⟨⟩⟩ := stored
      refine ⟨⟨below, free, not_not.mp total, ⟨_, good⟩, ?_⟩, rfl⟩
      intro other eq
      cases bound.symm.trans eq
      omega

section

variable {tmhash : Hash} {ps : PartSet} {part : Part}

theorem Takes.holds_same (takes : Takes tmhash ps part)
    (partsLength : ps.parts.length = ps.total.toNat)
    (bitsLength : ps.partsBitArray.length = ps.total.toNat) :
    Holds (ps.storePart part (payloadFor ps.store part) (storeWith ps.store part)) part := by
  have inside := takes.inside
  constructor
  · exact getElem?_set_self (by omega)
  · simp only [storePart]
    rw [getElem?_set_self (by omega)]
    cases ps.store <;> rfl
  · intro store bound
    obtain ⟨before, old, rfl⟩ := Option.map_eq_some_iff.mp bound
    obtain ⟨small, fits⟩ := takes.fits before old
    exact ⟨small, copyAt_same fits⟩

theorem Takes.holds_other (takes : Takes tmhash ps part) {other : Part}
    (apart : part.index.toNat ≠ other.index.toNat) (holds : Holds ps other) :
    Holds (ps.storePart part (payloadFor ps.store part) (storeWith ps.store part)) other := by
  constructor
  · simp only [storePart]
    rw [getElem?_set_ne apart]
    exact holds.bit
  · simp only [storePart]
    rw [getElem?_set_ne apart, holds.held]
    cases ps.store <;> rfl
  · intro store bound
    obtain ⟨before, old, rfl⟩ := Option.map_eq_some_iff.mp bound
    obtain ⟨small, fits⟩ := takes.fits before old
    obtain ⟨small', stored⟩ := holds.stored before old
    refine ⟨small', ?_⟩
    simp only
    rw [copyAt_other fits (slots_apart apart small small')]
    exact stored

theorem Tracks.offer {taken : List Part} (tracks : Tracks tmhash ps taken)
    (valid : part.bytes.length ≤ blockPartSizeBytes) :
    Tracks tmhash (ps.offer tmhash part).1 (taken ++ (ps.offer tmhash part).2) := by
  rcases offer_cases tmhash ps part with unchanged | ⟨takes, stored⟩
  · rw [unchanged, append_nil]
    exact tracks
  rw [stored]
  have fresh : ∀ other ∈ taken, part.index.toNat ≠ other.index.toNat := by
    intro other mem eq
    exact takes.free (eq ▸ (tracks.holds other mem).bit)
  have inside := forall_mem_append.mpr
    ⟨tracks.inside, forall_mem_singleton.mpr takes.inside⟩
  have distinct : ((taken ++ [part]).map fun other => other.index.toNat).Nodup := by
    rw [map_append, map_singleton, nodup_append]
    refine ⟨tracks.distinct, pairwise_singleton _ _, ?_⟩
    intro i old j new eq
    obtain ⟨other, mem, rfl⟩ := mem_map.mp old
    rw [mem_singleton.mp new] at eq
    exact fresh other mem eq.symm
  have lengths := tracks.length_le
  have few := tracks.few
  -- the new index is not among the old ones, so there was room for it
  have room : taken.length + 1 ≤ ps.total.toNat := by
    simpa using (subperm_range distinct inside).length_le
  have total : ((taken ++ [part]).map fun other => other.bytes.length).sum =
      (taken.map fun other => other.bytes.length).sum + part.bytes.length := by simp
  have bound : (taken.map fun other => other.bytes.length).sum ≤
      taken.length * blockPartSizeBytes := by
    simpa using sum_le_card_nsmul (taken.map fun other => other.bytes.length) blockPartSizeBytes
      (by simpa using tracks.small)
  rw [partSetMaxParts, maxBlockSizeBytes, blockPartSizeBytes] at few
  rw [blockPartSizeBytes] at bound
  have short : part.bytes.length ≤ 65536 := valid
  exact {
    partsLength := by simp [storePart, tracks.partsLength]
    bitsLength := by simp [storePart, tracks.bitsLength]
    cap := tracks.cap
    few := tracks.few
    inside := inside
    distinct := distinct
    holds := by
      refine forall_mem_append.mpr ⟨?_, forall_mem_singleton.mpr ?_⟩
      · exact fun other old => takes.holds_other (fresh other old) (tracks.holds other old)
      · exact takes.holds_same tracks.partsLength tracks.bitsLength
    accounted := by
      intro i set
      by_cases eq : part.index.toNat = i
      · exact ⟨part, by simp, eq⟩
      · simp only [storePart] at set
        rw [getElem?_set_ne eq] at set
        obtain ⟨other, mem, place⟩ := tracks.accounted i set
        exact ⟨other, mem_append_left _ mem, place⟩
    small := forall_mem_append.mpr ⟨tracks.small, forall_mem_singleton.mpr valid⟩
    count := by
      simp only [storePart]
      rw [UInt32.toNat_add, tracks.count, length_append, length_singleton, UInt32.toNat_one]
      omega
    byteSize := by
      simp only [storePart]
      have shown : (ofNat part.bytes.length).toInt = part.bytes.length :=
        toInt_ofNat_of_lt (by omega)
      have product : taken.length * 65536 ≤ 1601 * 65536 := by omega
      rw [toInt_add, tracks.byteSize, shown, total, Int.bmod_eq_of_le (by omega) (by omega)]
      omega
    proven := forall_mem_append.mpr
      ⟨tracks.proven, forall_mem_singleton.mpr ⟨takes.total, takes.verified⟩⟩ }

end

theorem offerAll_append (first second : List Part) :
    ps.offerAll tmhash (first ++ second) =
      (((ps.offerAll tmhash first).1.offerAll tmhash second).1,
        (ps.offerAll tmhash first).2 ++
          ((ps.offerAll tmhash first).1.offerAll tmhash second).2) := by
  induction first generalizing ps with
  | nil => rfl
  | cons part rest ih => simp only [cons_append, offerAll, ih, append_assoc]

theorem Tracks.offerAll {tmhash : Hash} {ps : PartSet} {offered : List Part}
    (tracks : Tracks tmhash ps taken)
    (valid : ∀ part ∈ offered, part.bytes.length ≤ blockPartSizeBytes) :
    Tracks tmhash (ps.offerAll tmhash offered).1 (taken ++ (ps.offerAll tmhash offered).2) := by
  induction offered generalizing ps taken with
  | nil => simpa [offerAll] using tracks
  | cons part rest ih =>
    have step := tracks.offer (valid part mem_cons_self)
    have run := ih step fun other mem => valid other (mem_cons_of_mem _ mem)
    simpa only [offerAll, append_assoc] using run

theorem offerAll_header (offered : List Part) :
    (ps.offerAll tmhash offered).1.total = ps.total ∧
      (ps.offerAll tmhash offered).1.hash = ps.hash := by
  induction offered generalizing ps with
  | nil => exact ⟨rfl, rfl⟩
  | cons part rest ih =>
    have rested := ih (ps.offer tmhash part).1
    simp only [offerAll]
    rw [rested.1, rested.2]
    rcases offer_cases tmhash ps part with eq | ⟨-, stored⟩
    · rw [eq]
      exact ⟨rfl, rfl⟩
    · rw [stored]
      exact ⟨rfl, rfl⟩

theorem offerAll_sublist (offered : List Part) :
    (ps.offerAll tmhash offered).2.Sublist offered := by
  induction offered generalizing ps with
  | nil => exact Sublist.slnil
  | cons part rest ih =>
    have rested := ih (ps.offer tmhash part).1
    simp only [offerAll]
    rcases offer_cases tmhash ps part with eq | ⟨-, stored⟩
    · rw [eq] at rested ⊢
      exact rested.cons part
    · rw [stored] at rested ⊢
      exact rested.cons_cons part

theorem tracks_newPartSetFromHeader {tmhash : Hash} {header : PartSetHeader} {partsCap : Nat}
    {ps : PartSet} (made : newPartSetFromHeader header partsCap = .ok ps) :
    Tracks tmhash ps [] ∧ ps.header = header := by
  simp only [newPartSetFromHeader, ite_error_eq_ok] at made
  obtain ⟨few, room, -, ⟨⟩⟩ := made
  refine ⟨?_, rfl⟩
  exact {
    partsLength := length_replicate
    bitsLength := length_replicate
    cap := by
      by_cases empty : header.total = 0
      · simp [empty]
      · have := not_and.mp room empty
        simpa using this
    few := Nat.le_of_not_lt few
    inside := by simp
    distinct := nodup_nil
    holds := by simp
    accounted := by
      intro i set
      rw [getElem?_replicate] at set
      split at set <;> cases set
    small := by simp
    count := rfl
    byteSize := rfl
    proven := by simp }

theorem Tracks.bindPayloadStore {tmhash : Hash} {ps next : PartSet} {store : PayloadStore}
    (tracks : Tracks tmhash ps []) (bound : ps.bindPayloadStore store = .ok next) :
    Tracks tmhash next [] ∧ next.header = ps.header := by
  obtain ⟨-, ⟨⟩⟩ := ite_error_eq_ok.mp bound
  refine ⟨?_, rfl⟩
  exact { tracks with holds := by simp, accounted := tracks.accounted }

theorem Tracks.complete {tmhash : Hash} {ps : PartSet} (tracks : Tracks tmhash ps taken)
    (complete : ps.isComplete = true) {i : Nat} (inside : i < ps.total.toNat) :
    ∃ part ∈ taken, part.index.toNat = i := by
  have eq : ps.count = ps.total := of_decide_eq_true complete
  have full := tracks.count
  rw [eq] at full
  have perm := tracks.subperm.perm_of_length_le (by simp [full])
  exact mem_map.mp (perm.mem_iff.mpr (mem_range.mpr inside))

/-- The bytes of a complete set whose parts are the given items at their indices. -/
theorem Tracks.contents {tmhash : Hash} {ps : PartSet} {items : List Bytes}
    (tracks : Tracks tmhash ps taken) (complete : ps.isComplete = true)
    (size : items.length = ps.total.toNat)
    (right : ∀ part ∈ taken, items[part.index.toNat]? = some part.bytes) :
    ps.parts.map ps.bytesOf = items := by
  apply ext_getElem?
  intro i
  rw [getElem?_map]
  by_cases inside : i < ps.total.toNat
  · obtain ⟨part, mem, rfl⟩ := tracks.complete complete inside
    have holds := tracks.holds part mem
    rw [holds.held, Option.map_some, holds.bytesOf, right part mem]
  · rw [getElem?_eq_none (by have := tracks.partsLength; omega),
      getElem?_eq_none (by omega), Option.map_none]

end PartSet

theorem partBytes_eq (data : Bytes) (partSize i : Nat) :
    partBytes data partSize i = (data.drop (i * partSize)).take partSize := by
  apply ext_getElem?
  intro k
  rw [partBytes, getElem?_take, getElem?_take]
  split
  next inside => rw [if_pos (by omega)]
  next outside =>
    split
    next => rw [getElem?_eq_none (by rw [length_drop]; omega)]
    next => rfl

theorem flatten_splitData (data : Bytes) (partSize total : Nat) :
    (splitData data partSize total).flatten = data.take (total * partSize) := by
  induction total with
  | zero => simp [splitData]
  | succ total ih =>
    rw [splitData] at ih ⊢
    rw [range_succ, map_append, flatten_append, ih, map_singleton,
      flatten_singleton, partBytes_eq, Nat.succ_mul, ← take_add]

theorem newPartSetFromData_eq_ok {tmhash : Hash} {data : Bytes} {partSize : UInt32}
    {partsCap : Nat} {source : PartSet}
    (made : newPartSetFromData tmhash data partSize partsCap = .ok source) :
    ∃ items proofs root, items.flatten = data ∧ items.length = source.total.toNat ∧
      items.length ≤ partSetMaxParts ∧ (items = [] ↔ data = []) ∧
      items = splitData data partSize.toNat
        ((data.length + partSize.toNat - 1) / partSize.toNat) ∧
      proofsFromByteSlices tmhash items = .ok (root, proofs) ∧ source.hash = root.val := by
  simp only [newPartSetFromData, ite_error_eq_ok] at made
  obtain ⟨ne, few, -, made⟩ := made
  obtain ⟨⟨root, proofs⟩, hashed, ⟨⟩⟩ := bind_eq_ok.mp made
  have pos : 0 < partSize.toNat := by
    rw [Nat.pos_iff_ne_zero]
    intro zero
    exact ne (UInt32.toNat_inj.mp zero)
  have length : (splitData data partSize.toNat
      ((data.length + partSize.toNat - 1) / partSize.toNat)).length =
        (data.length + partSize.toNat - 1) / partSize.toNat := by simp [splitData]
  have few' := Nat.le_of_not_lt few
  refine ⟨_, proofs, root, ?_, ?_, ?_, ?_, rfl, hashed, rfl⟩
  · rw [flatten_splitData]
    apply take_of_length_le
    have low := @Nat.lt_div_mul_add (data.length + partSize.toNat - 1) _ pos
    omega
  · rw [length, UInt32.toNat_ofNat_of_lt']
    rw [partSetMaxParts, maxBlockSizeBytes, blockPartSizeBytes] at few'
    rw [UInt32.size]
    omega
  · rw [length]
    exact few'
  · rw [← length_eq_zero_iff, length, ← length_eq_zero_iff, Nat.div_eq_zero_iff]
    omega

namespace PartSetReader

/-- The bytes that a reader has not returned yet. -/
def rest (psr : PartSetReader) : Bytes :=
  (psr.parts[psr.i]?.getD []).drop psr.off ++ (psr.parts.drop (psr.i + 1)).flatten

variable {psr : PartSetReader}

theorem rest_of_some {part : Bytes} (held : psr.parts[psr.i]? = some part) :
    psr.rest = part.drop psr.off ++ (psr.parts.drop (psr.i + 1)).flatten := by
  rw [rest, held, Option.getD_some]

theorem rest_of_none (ended : psr.parts[psr.i]? = none) : psr.rest = [] := by
  have past : psr.parts.length ≤ psr.i := getElem?_eq_none_iff.mp ended
  rw [rest, ended, Option.getD_none, drop_eq_nil_of_le (by omega : _ ≤ psr.i + 1)]
  simp

theorem rest_next {part : Bytes} (held : psr.parts[psr.i]? = some part)
    (used : part.length ≤ psr.off) : rest { psr with i := psr.i + 1, off := 0 } = psr.rest := by
  rw [rest_of_some held, drop_eq_nil_of_le used, nil_append, rest]
  simp only [drop_zero]
  cases next : psr.parts[psr.i + 1]? with
  | none =>
    have past : psr.parts.length ≤ psr.i + 1 := getElem?_eq_none_iff.mp next
    rw [drop_eq_nil_of_le past, drop_eq_nil_of_le (by omega : _ ≤ psr.i + 1 + 1)]
    rfl
  | some following =>
    obtain ⟨inside, eq⟩ := List.getElem?_eq_some_iff.mp next
    rw [drop_eq_getElem_cons inside, eq]
    rfl

theorem readLoop_spec (psr : PartSetReader) (room : Nat) :
    (psr.readLoop room).1 = psr.rest.take room ∧
      (psr.readLoop room).2.rest = psr.rest.drop room := by
  fun_induction readLoop psr room with
  | case1 psr room pos ended => simp [rest_of_none ended]
  | case2 psr room pos part held remaining used ih =>
    rw [rest_next held (by omega)] at ih
    exact ih
  | case3 psr room pos part held remaining unused taken more last run ih =>
    have further : rest { psr with off := psr.off + taken } = psr.rest.drop taken := by
      rw [rest_of_some held, @rest_of_some { psr with off := psr.off + taken } part held,
        drop_append_of_le_length (by rw [length_drop]; omega), drop_drop]
    rw [run, further] at ih
    refine ⟨?_, ?_⟩
    · have front : (part.drop psr.off).take taken = psr.rest.take taken := by
        rw [rest_of_some held, take_append_of_le_length (by rw [length_drop]; omega)]
      have whole : room = taken + (room - taken) := by omega
      calc (part.drop psr.off).take taken ++ more
          = psr.rest.take taken ++ (psr.rest.drop taken).take (room - taken) := by
            rw [front, show more = _ from ih.1]
        _ = psr.rest.take room := by rw [← take_add, ← whole]
    · calc last.rest = (psr.rest.drop taken).drop (room - taken) := ih.2
        _ = psr.rest.drop room := by
            rw [drop_drop]
            congr 1
            omega
  | case4 psr room empty =>
    have zero : room = 0 := by omega
    simp [zero]

/-- Reads into buffers of the given sizes: each gets the next bytes, and only a stream that has
ended has none. -/
def streamReads (stream : Bytes) : List Nat → List Read
  | [] => []
  | len :: rest =>
    (if len ≠ 0 ∧ stream = [] then .eof else .bytes (stream.take len)) ::
      streamReads (stream.drop len) rest

def Read.content : Read → Bytes
  | .bytes content => content
  | .eof => []

theorem content_streamReads (stream : Bytes) (sizes : List Nat) :
    ((streamReads stream sizes).map Read.content).flatten = stream.take sizes.sum := by
  induction sizes generalizing stream with
  | nil => simp [streamReads]
  | cons len rest ih =>
    rw [streamReads, map_cons, flatten_cons, ih, sum_cons, take_add]
    congr 1
    split
    next ended => rw [ended.2, take_nil, Read.content]
    next => rfl

theorem readAll_eq (psr : PartSetReader) (sizes : List Nat) :
    psr.readAll sizes = streamReads psr.rest sizes := by
  induction sizes generalizing psr with
  | nil => rfl
  | cons len rest ih =>
    rw [readAll, streamReads]
    by_cases empty : len = 0
    · simp [read, empty, ih]
    · obtain ⟨bytes, left⟩ := readLoop_spec psr len
      simp only [read, if_neg empty]
      rw [ih, left, bytes]
      congr 1
      rw [length_take]
      by_cases ended : psr.rest = []
      · simp [ended, empty]
      · have pos := length_pos_iff.mpr ended
        rw [if_neg (by omega), if_neg (by tauto)]

end PartSetReader

/-! ## Reassembly -/

/-- The inputs hashed for a block's root and for the proofs that are offered for it. -/
def reassemblyInputs (tmhash : Hash) (items : List Bytes) (offered : List Part) : Set Bytes :=
  rootInputs tmhash items ∪
    { input | ∃ part ∈ offered, input ∈ part.proof.inputs tmhash part.bytes }

theorem Part.validateBasic_length {part : Part} (valid : part.validateBasic = true) :
    part.bytes.length ≤ blockPartSizeBytes := by
  grind [Part.validateBasic]

theorem Part.validateBasic_index {part : Part} (valid : part.validateBasic = true) :
    part.proof.index = ofNat part.index.toNat := by
  grind [Part.validateBasic]

theorem item_of_taken {tmhash : Hash} {items : List Bytes} {proofs : List MerkleProof}
    {root : Digest} {ps : PartSet} {taken offered : List Part}
    (hashed : proofsFromByteSlices tmhash items = .ok (root, proofs))
    (few : items.length ≤ partSetMaxParts) (filled : items ≠ [])
    (tracks : ps.Tracks tmhash taken) (size : items.length = ps.total.toNat)
    (hash : ps.hash = root.val) (listed : taken ⊆ offered)
    (valid : ∀ part ∈ offered, part.validateBasic = true)
    (free : Set.InjOn tmhash (reassemblyInputs tmhash items offered)) :
    ∀ part ∈ taken, items[part.index.toNat]? = some part.bytes := by
  intro part mem
  rw [partSetMaxParts, maxBlockSizeBytes, blockPartSizeBytes] at few
  obtain ⟨tree, balanced⟩ := exists_balanced filled
  obtain ⟨proofs', made, -, -⟩ := @proofsFromByteSlices_eq tmhash _ _ balanced
    (by rw [proofNodeSize]; omega)
  have eq := Except.ok.inj (hashed.symm.trans made)
  obtain ⟨total, sized, good⟩ := tracks.proven part mem
  have target : (⟨ps.hash, sized⟩ : Digest) = (merkleScheme tmhash).digest tree :=
    (Subtype.ext hash).trans (congrArg Prod.fst eq)
  have index := part.validateBasic_index (valid part (listed mem))
  have place : part.proof.index.toInt = part.index.toNat := by
    rw [index]
    exact toInt_ofNat_of_lt (by have := part.index.toNat_lt; omega)
  have count : part.proof.total.toInt = items.length := by
    rw [total, size]
    exact toInt_ofNat_of_lt (by omega)
  have free' : Set.InjOn tmhash
      (rootInputs tmhash items ∪ part.proof.inputs tmhash part.bytes) := by
    apply free.mono
    apply Set.union_subset_union_right
    intro input hashed
    exact ⟨part, listed mem, hashed⟩
  obtain ⟨-, found⟩ := item_of_verify balanced count free' (target ▸ good)
  rwa [place, Int.toNat_natCast] at found

/-- A set that was made from the header of a block keeps the parts it took, each at its index;
without a collision a reader over the complete set returns the block. -/
theorem part_set_reassembles (tmhash : Hash) {data : Bytes} {partSize : UInt32}
    {sourceCap partsCap : Nat} {source fresh ps : PartSet} {store : Option PayloadStore}
    {offered : List Part}
    (split : newPartSetFromData tmhash data partSize sourceCap = .ok source)
    (made : newPartSetFromHeader source.header partsCap = .ok fresh)
    (bound : store.elim (.ok fresh) fresh.bindPayloadStore = .ok ps)
    (valid : ∀ part ∈ offered, part.validateBasic = true) :
    (∀ before after, offered = before ++ after →
      (ps.offerAll tmhash before).1.count.toNat =
          ((ps.offerAll tmhash before).2.map Part.index).dedup.length ∧
        ((ps.offerAll tmhash before).2.map Part.index).Nodup ∧
        (ps.offerAll tmhash before).1.byteSize.toInt =
          (((ps.offerAll tmhash before).2.map fun part => part.bytes.length).sum : Nat) ∧
        ∀ part ∈ (ps.offerAll tmhash before).2,
          (ps.offerAll tmhash offered).1.getPart part.index.toNat = some part) ∧
      (data ≠ [] → Set.InjOn tmhash (reassemblyInputs tmhash
          (splitData data partSize.toNat
            ((data.length + partSize.toNat - 1) / partSize.toNat)) offered) →
        (ps.offerAll tmhash offered).1.isComplete = true →
        ∃ psr, (ps.offerAll tmhash offered).1.getReader = .ok psr ∧
          ∀ sizes, psr.readAll sizes = PartSetReader.streamReads data sizes ∧
            ((psr.readAll sizes).map PartSetReader.Read.content).flatten =
              data.take sizes.sum) := by
  obtain ⟨items, proofs, root, whole, size, few, empty, cut, hashed, hash⟩ :=
    newPartSetFromData_eq_ok split
  obtain ⟨start, header⟩ : ps.Tracks tmhash [] ∧ ps.header = source.header := by
    obtain ⟨tracks, eq⟩ := @PartSet.tracks_newPartSetFromHeader tmhash _ _ _ made
    cases store with
    | none =>
      cases bound
      exact ⟨tracks, eq⟩
    | some store =>
      obtain ⟨next, kept⟩ := tracks.bindPayloadStore bound
      exact ⟨next, kept.trans eq⟩
  have lengths : ∀ part ∈ offered, part.bytes.length ≤ blockPartSizeBytes := fun part mem =>
    part.validateBasic_length (valid part mem)
  have final := start.offerAll lengths
  rw [nil_append] at final
  refine ⟨?_, ?_⟩
  · rintro before after rfl
    have tracks := start.offerAll fun part mem => lengths part (mem_append_left _ mem)
    rw [nil_append] at tracks
    have distinct : ((ps.offerAll tmhash before).2.map Part.index).Nodup := by
      apply Nodup.of_map UInt32.toNat
      rw [map_map]
      exact tracks.distinct
    refine ⟨?_, distinct, tracks.byteSize, ?_⟩
    · rw [distinct.dedup, length_map]
      exact tracks.count
    · intro part mem
      apply final.getPart
      rw [PartSet.offerAll_append]
      exact mem_append_left _ mem
  · intro filled free complete
    obtain ⟨total, root'⟩ := PartSet.offerAll_header tmhash ps offered
    have totals : ps.total = source.total := congrArg PartSetHeader.total header
    have hashes : ps.hash = source.hash := congrArg PartSetHeader.hash header
    rw [← cut] at free
    have size' : items.length = (ps.offerAll tmhash offered).1.total.toNat := by
      rw [total, totals, size]
    have items_ne : items ≠ [] := fun blank => filled (empty.mp blank)
    have right := item_of_taken hashed few items_ne final size'
      (root'.trans (hashes.trans hash)) (PartSet.offerAll_sublist tmhash ps offered).subset valid
      free
    have contents := final.contents complete size' right
    refine ⟨⟨items, 0, 0⟩, ?_, ?_⟩
    · rw [PartSet.getReader, if_pos complete, contents, newPartSetReader,
        if_neg (by rwa [length_eq_zero_iff])]
    · intro sizes
      have unread : PartSetReader.rest ⟨items, 0, 0⟩ = data := by
        rw [← whole]
        cases items with
        | nil => rfl
        | cons first others => simp [PartSetReader.rest]
      rw [PartSetReader.readAll_eq, unread]
      exact ⟨rfl, PartSetReader.content_streamReads data sizes⟩

/-- A block of one byte is read from its only part. -/
theorem part_set_reassembles_single :
    ∃ source fresh part psr, newPartSetFromData paddingHash [7] 65536 1 = .ok source ∧
      newPartSetFromHeader source.header 1 = .ok fresh ∧ part.validateBasic = true ∧
      (fresh.offerAll paddingHash [part]).1.isComplete = true ∧
      (fresh.offerAll paddingHash [part]).1.getReader = .ok psr ∧
      psr.readAll [1, 1] = [.bytes [7], .eof] := by
  have hashed := @proofsFromByteSlices_eq paddingHash _ _ (Balanced.leaf [(7 : UInt8)]) (by decide)
  obtain ⟨proofs, hashed, -⟩ := hashed
  have good := @verify_proofFor paddingHash _ _ (Balanced.leaf [(7 : UInt8)]) [7] (by decide)
    0 rfl
  let digest := (merkleScheme paddingHash).digest (.leaf [(7 : UInt8)])
  let part : Part := ⟨0, [7], proofFor paddingHash (.leaf [7]) 1 0 [7]⟩
  let fresh : PartSet := ⟨1, digest.val, [.init], 1, [false], 0, 0, none⟩
  have split : newPartSetFromData paddingHash [7] 65536 1 = .ok ⟨1, digest.val,
      zipWith (fun entry proof => ⟨UInt32.ofNat entry.2, .caller entry.1, proof⟩)
        [[(7 : UInt8)]].zipIdx proofs, 1, [true], 1, 1, none⟩ := by
    simp +decide only [newPartSetFromData, ↓reduceIte]
    have cut : splitData [7] (65536 : UInt32).toNat
        (([(7 : UInt8)].length + (65536 : UInt32).toNat - 1) / (65536 : UInt32).toNat) = [[7]] := by
      decide
    rw [cut, hashed]
    rfl
  have made : newPartSetFromHeader ⟨1, digest.val⟩ 1 = .ok fresh := by
    rw [newPartSetFromHeader, if_neg (by decide), if_neg (by decide),
      if_neg (by have := digest.property; simp [this, tmhashSize, digestSize])]
    rfl
  have valid : part.validateBasic = true := by decide
  have taken : fresh.offerAll paddingHash [part] =
      (fresh.storePart part (.caller [7]) none, [part]) := by
    have added : fresh.addPart paddingHash part =
        .ok (fresh.storePart part (.caller [7]) none, true) := by
      rw [PartSet.addPart, if_neg (by decide), if_neg (by decide), if_neg (by decide),
        if_neg (by decide), dif_neg (not_not.mpr digest.property)]
      rw [show part.proof.verify paddingHash ⟨fresh.hash, _⟩ part.bytes = .ok () from good]
      rfl
    simp [PartSet.offerAll, PartSet.offer, added]
  have complete : (fresh.offerAll paddingHash [part]).1.isComplete = true := by
    rw [taken]
    decide
  have free : Set.InjOn paddingHash (reassemblyInputs paddingHash
      (splitData [7] (65536 : UInt32).toNat
        (([(7 : UInt8)].length + (65536 : UInt32).toNat - 1) / (65536 : UInt32).toNat))
      [part]) := by
    apply Set.Subsingleton.injOn
    have only : ∀ input ∈ reassemblyInputs paddingHash [[7]] [part], input = [0, 7] := by
      rintro input (⟨tree, balanced, mem⟩ | ⟨other, listed, mem⟩)
      · rw [balanced.eq_leaf rfl] at mem
        exact mem
      · rw [mem_singleton.mp listed] at mem
        rcases mem with leaf | inner
        · exact leaf
        · exact absurd inner (Set.notMem_empty input)
    intro first firstIn second secondIn
    exact (only first firstIn).trans (only second secondIn).symm
  obtain ⟨psr, reader, reads⟩ := (@part_set_reassembles paddingHash _ _ _ _ _ _ _ none _ split
    made rfl (forall_mem_singleton.mpr valid)).2 (by decide) free complete
  exact ⟨_, _, part, psr, split, made, valid, complete, reader, (reads [1, 1]).1⟩

/-- The set of the empty block has no parts.  It is complete from the start, and there is
no reader for it. -/
theorem part_set_empty_no_reader :
    ∃ source fresh, newPartSetFromData paddingHash [] 65536 0 = .ok source ∧
      newPartSetFromHeader source.header 0 = .ok fresh ∧ fresh.isComplete = true ∧
      fresh.getReader = .error .reject := by
  have hashed : proofsFromByteSlices paddingHash [] = .ok (emptyHash paddingHash, []) := by
    rw [proofsFromByteSlices, if_neg (by decide)]
    simp [trailsFromByteSlices, trailsRec, arenaTake, bind, Except.bind, pure, Except.pure]
  refine ⟨⟨0, (emptyHash paddingHash).val, [], 0, [], 0, 0, none⟩,
    ⟨0, (emptyHash paddingHash).val, [], 0, [], 0, 0, none⟩, ?_, ?_, rfl, rfl⟩
  · simp +decide only [newPartSetFromData, ↓reduceIte]
    have cut : splitData [] (65536 : UInt32).toNat
        ((([] : Bytes).length + (65536 : UInt32).toNat - 1) / (65536 : UInt32).toNat) = [] := by
      decide
    rw [cut, hashed]
    rfl
  · have sized := (emptyHash paddingHash).property
    simp [newPartSetFromHeader, PartSet.header, sized, tmhashSize, digestSize]

end DnaLedger.Cmt
