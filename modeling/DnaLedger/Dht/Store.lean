import DnaLedger.Foundation.Bytes
import DnaLedger.Foundation.Outcome
import DnaLedger.Foundation.Table
import Mathlib.Data.Prod.Lex

/-!
# The value store of the DHT

A node keeps the values of many owners in one table. The column `data_hash` is computed. Row counts
and byte sums do not reach the range of `uint64_t`.
-/

namespace DnaLedger.Dht

open Table AList

inductive ValueType where
  | ephemeral
  | permanent
  | exclusive
  deriving DecidableEq

/-- The primary key of `nodus_values`. -/
structure Slot where
  keyHash : Digest
  ownerFp : Digest
  valueId : UInt64
  deriving DecidableEq

/-- `nodus_value_t`, and a row of `nodus_values`. -/
structure Value where
  keyHash : Digest
  valueId : UInt64
  data : Bytes
  type : ValueType
  ttl : UInt32
  createdAt : UInt64
  expiresAt : UInt64
  seq : UInt64
  ownerPk : Bytes
  ownerFp : Digest
  signature : Bytes

abbrev Store := Table Slot Value

namespace Value

def slot (val : Value) : Slot := ⟨val.keyHash, val.ownerFp, val.valueId⟩

/-- The column `seq`, a signed integer. -/
def storedSeq (val : Value) : Int := val.seq.toInt64.toInt

/-- The column `expires_at`, a signed integer. -/
def storedExpiry (val : Value) : Int := val.expiresAt.toInt64.toInt

def expired (val : Value) (now : Int) : Bool := 0 < val.storedExpiry ∧ val.storedExpiry ≤ now

/-- The column `data_hash`. -/
def dataHash (hash : Bytes → Bytes) (val : Value) : Bytes :=
  if val.data = [] then List.replicate 32 0 else hash val.data

end Value

def maxValues : Nat := 100000

def maxBytes : Nat := 500 * 1024 * 1024

def maxPerOwner : Nat := 1000

def ownerMaxBytes : Nat := 16 * 1024 * 1024

/-- The data, the key, the signature and a fixed part. -/
def rowCharge (dataLen : Nat) : Nat := dataLen + 2592 + 4627 + 1024

section

variable (store : Store)

def ownerRows (owner : Digest) : Nat :=
  tally (fun row => if row.ownerFp = owner then 1 else 0) store

def ownerData (owner : Digest) : Nat :=
  tally (fun row => if row.ownerFp = owner then row.data.length else 0) store

def ownerCharge (owner : Digest) : Nat :=
  ownerData store owner + ownerRows store owner * rowCharge 0

def totalData : Nat := tally (fun row => row.data.length) store

def overCap (used add cap : Nat) : Bool := cap < add ∨ cap - add < used

/-- Whether a value may be written over the stored row, if there is one. -/
def writeCapsCheck (val : Value) (row : Option Value) (withGlobal : Bool) : Bool :=
  let held := (row.map fun row => row.data.length).getD 0
  if row.isSome ∧ val.data.length ≤ held then true
  else
    let dataGrowth := val.data.length - held
    let chargeGrowth := if row.isNone then rowCharge val.data.length else dataGrowth
    if row.isNone ∧ maxPerOwner ≤ ownerRows store val.ownerFp then false
    else if overCap (ownerCharge store val.ownerFp) chargeGrowth ownerMaxBytes then false
    else if ¬withGlobal then true
    else if row.isNone ∧ maxValues ≤ store.entries.length then false
    else !(0 < dataGrowth && overCap (totalData store) dataGrowth maxBytes)

inductive Refusal where
  | invalid
  | keyOwned
  | quota
  | stale
  | expired
  deriving DecidableEq

/-- `EXCLUSIVE_OWNER_SQL` -/
def exclusiveOwner (keyHash : Digest) : Option Digest :=
  (store.entries.find? fun entry => entry.1.keyHash = keyHash ∧ entry.2.type = .exclusive).map
    fun entry => entry.1.ownerFp

/-- The key has an exclusive row of another owner. -/
def keyOwned (val : Value) : Bool :=
  (exclusiveOwner store val.keyHash).any (· ≠ val.ownerFp)

end

section

variable (verify : Value → Bool)

def nodusStoragePut (store : Store) (val : Value) :
    Except Refusal Store := do
  failWhen .invalid (¬verify val)
  failWhen .keyOwned (keyOwned store val)
  failWhen .stale ((store.lookup val.slot).any (val.storedSeq < ·.storedSeq))
  failWhen .quota (¬writeCapsCheck store val (store.lookup val.slot) true)
  pure (store.insert val.slot val)

/-- `NEWER_EXISTS_SQL`: the stored row is not older than the value. -/
def newerExists (hash : Bytes → Bytes) (store : Store) (val : Value) : Bool :=
  (store.lookup val.slot).any fun row =>
    val.storedSeq < row.storedSeq ∨
      row.storedSeq = val.storedSeq ∧ val.dataHash hash ≤ row.dataHash hash

/-- `PUT_IF_NEWER_SQL`, and whether it changed the table. -/
def putIfNewerSql (hash : Bytes → Bytes) (store : Store) (val : Value) : Bool × Store :=
  if newerExists hash store val then (false, store) else (true, store.insert val.slot val)

/-- Whether the value was stored or skipped. -/
def nodusStoragePutIfNewer (hash : Bytes → Bytes) (now : Int) (store : Store) (val : Value) :
    Except Refusal (Bool × Store) := do
  failWhen .expired (val.expired now)
  failWhen .keyOwned (keyOwned store val)
  if newerExists hash store val then pure (false, store)
  else do
    failWhen .quota (¬writeCapsCheck store val (store.lookup val.slot) false)
    pure (putIfNewerSql hash store val)

inductive Op where
  | put (val : Value)
  | putIfNewer (now : Int) (val : Value)
  | delete (slot : Slot)
  | cleanup (now : Int)

/-- The store after an operation; a refused write changes nothing. -/
def step (hash : Bytes → Bytes) (store : Store) : Op → Store
  | .put val => (nodusStoragePut verify store val).toOption.getD store
  | .putIfNewer now val =>
    ((nodusStoragePutIfNewer hash now store val).toOption.map Prod.snd).getD store
  | .delete slot => store.deleteWhere fun key _ => key = slot
  | .cleanup now => store.deleteWhere fun _ row => row.expired now

def run (hash : Bytes → Bytes) (ops : List Op) : Store :=
  ops.foldl (step verify hash) ∅

end

/-- What an accepted write has checked. -/
structure Admitted (store : Store) (val : Value) : Prop where
  free : keyOwned store val = false
  newer : ∀ row, store.lookup val.slot = some row → row.storedSeq ≤ val.storedSeq
  newRow : store.lookup val.slot = none → ownerRows store val.ownerFp < maxPerOwner ∧
    ownerCharge store val.ownerFp + rowCharge val.data.length ≤ ownerMaxBytes
  replace : ∀ row, store.lookup val.slot = some row → row.data.length < val.data.length →
    ownerCharge store val.ownerFp + (val.data.length - row.data.length) ≤ ownerMaxBytes

variable {verify : Value → Bool} {hash : Bytes → Bytes} {now : Int} {store : Store} {val : Value}

theorem add_le_of_not_overCap {used add cap : Nat} (fits : ¬overCap used add cap = true) :
    used + add ≤ cap := by
  simp only [overCap, decide_eq_true_eq] at fits
  omega

theorem admitted_of_checks {withGlobal : Bool} (free : ¬keyOwned store val = true)
    (newer : ∀ row, store.lookup val.slot = some row → row.storedSeq ≤ val.storedSeq)
    (fits : ¬¬writeCapsCheck store val (store.lookup val.slot) withGlobal = true) :
    Admitted store val := by
  refine ⟨Bool.not_eq_true _ ▸ free, newer, fun absent => ?_, fun row found grows => ?_⟩
  · rw [absent, writeCapsCheck] at fits
    by_cases full : maxPerOwner ≤ ownerRows store val.ownerFp
    · simp [full] at fits
    · by_cases above : overCap (ownerCharge store val.ownerFp) (rowCharge val.data.length)
        ownerMaxBytes = true
      · simp [above] at fits
      · exact ⟨Nat.not_le.mp full, add_le_of_not_overCap above⟩
  · rw [found, writeCapsCheck] at fits
    by_cases above : overCap (ownerCharge store val.ownerFp) (val.data.length - row.data.length)
      ownerMaxBytes = true
    · simp [above, grows] at fits
    · exact add_le_of_not_overCap above

variable {after : Store} {stored : Bool} {slot : Slot} {row : Value}

theorem nodusStoragePut_eq_ok (passed : nodusStoragePut verify store val = .ok after) :
    Admitted store val ∧ after = store.insert val.slot val := by
  simp only [nodusStoragePut, bind_eq_ok, failWhen_eq_ok] at passed
  obtain ⟨-, -, -, free, -, fresh, -, fits, eq⟩ := passed
  cases eq
  refine ⟨admitted_of_checks free (fun row found => ?_) fits, rfl⟩
  rw [found] at fresh
  simpa using fresh

theorem nodusStoragePutIfNewer_eq_ok
    (passed : nodusStoragePutIfNewer hash now store val = .ok (stored, after)) :
    newerExists hash store val = true ∧ after = store ∨
      newerExists hash store val = false ∧ Admitted store val ∧
        after = store.insert val.slot val := by
  simp only [nodusStoragePutIfNewer, bind_eq_ok, failWhen_eq_ok] at passed
  obtain ⟨-, -, -, free, rest⟩ := passed
  split at rest
  next newer =>
    cases rest
    exact .inl ⟨newer, rfl⟩
  next older =>
    have older := Bool.not_eq_true _ ▸ older
    simp only [bind_eq_ok, failWhen_eq_ok, putIfNewerSql, older] at rest
    obtain ⟨-, fits, eq⟩ := rest
    cases eq
    refine .inr ⟨older, admitted_of_checks free (fun row found => ?_) fits, rfl⟩
    rw [newerExists, found] at older
    exact Int.not_lt.mp fun less => by simp [less] at older

theorem step_cases (verify : Value → Bool) (hash : Bytes → Bytes) (store : Store) (op : Op) :
    step verify hash store op = store ∨
      (∃ val, Admitted store val ∧ step verify hash store op = store.insert val.slot val) ∨
      ∃ bad, step verify hash store op = store.deleteWhere bad := by
  cases op with
  | put val =>
    rw [step]
    cases result : nodusStoragePut verify store val with
    | error code => exact .inl rfl
    | ok after =>
      obtain ⟨admitted, rfl⟩ := nodusStoragePut_eq_ok result
      exact .inr (.inl ⟨val, admitted, rfl⟩)
  | putIfNewer now val =>
    rw [step]
    cases result : nodusStoragePutIfNewer hash now store val with
    | error code => exact .inl rfl
    | ok after =>
      rcases nodusStoragePutIfNewer_eq_ok result with ⟨-, eq⟩ | ⟨-, admitted, eq⟩
      · exact .inl eq
      · exact .inr (.inl ⟨val, admitted, eq⟩)
  | delete slot => exact .inr (.inr ⟨fun key _ => decide (key = slot), rfl⟩)
  | cleanup now => exact .inr (.inr ⟨fun _ row => row.expired now, rfl⟩)

structure Sound (store : Store) : Prop where
  keyed : ∀ {slot row}, store.lookup slot = some row → row.slot = slot
  rows : ∀ owner, ownerRows store owner ≤ maxPerOwner
  charge : ∀ owner, ownerCharge store owner ≤ ownerMaxBytes
  exclusive : ∀ {slot slot' row row'}, store.lookup slot = some row →
    store.lookup slot' = some row' → slot.keyHash = slot'.keyHash → row.type = .exclusive →
    row'.type = .exclusive → slot.ownerFp = slot'.ownerFp

/-- At an exclusive key, only its owner passes the check. -/
theorem Sound.owner_of_free (sound : Sound store) (free : keyOwned store val = false)
    (found : store.lookup slot = some row) (eq : slot.keyHash = val.keyHash)
    (exclusive : row.type = .exclusive) : slot.ownerFp = val.ownerFp := by
  rw [keyOwned, exclusiveOwner] at free
  cases first : store.entries.find? fun entry =>
      entry.1.keyHash = val.keyHash ∧ entry.2.type = .exclusive with
  | none =>
    have empty := List.find?_eq_none.mp first ⟨slot, row⟩ (store.mem_lookup_iff.mp found)
    simp [eq, exclusive] at empty
  | some entry =>
    have inside := store.mem_lookup_iff.mpr (List.mem_of_find?_eq_some first)
    have holds := List.find?_some first
    simp only [decide_eq_true_eq] at holds
    rw [first] at free
    have owner : entry.1.ownerFp = val.ownerFp := by simpa using free
    rw [← owner]
    exact sound.exclusive found inside (eq.trans holds.1.symm) exclusive holds.2

theorem sound_empty : Sound ∅ where
  keyed found := by cases found
  rows owner := by
    rw [show ownerRows ∅ owner = 0 from rfl]
    exact Nat.zero_le _
  charge owner := by
    rw [ownerCharge, show ownerRows ∅ owner = 0 from rfl, show ownerData ∅ owner = 0 from rfl,
      Nat.zero_mul]
    exact Nat.zero_le _
  exclusive found := by cases found

section

variable (sound : Sound store)

include sound

theorem Sound.deleteWhere (bad : Slot → Value → Bool) : Sound (store.deleteWhere bad) where
  keyed found := sound.keyed (lookup_deleteWhere found)
  rows owner := (tally_deleteWhere_le bad).trans (sound.rows owner)
  charge owner := by
    apply (Nat.add_le_add _ (Nat.mul_le_mul_right _ _)).trans (sound.charge owner)
    · exact tally_deleteWhere_le bad
    · exact tally_deleteWhere_le bad
  exclusive found found' :=
    sound.exclusive (lookup_deleteWhere found) (lookup_deleteWhere found')

theorem Sound.caps_insert (admitted : Admitted store val) (owner : Digest) :
    ownerRows (store.insert val.slot val) owner ≤ maxPerOwner ∧
      ownerCharge (store.insert val.slot val) owner ≤ ownerMaxBytes := by
  have rows := sound.rows owner
  have charge := sound.charge owner
  cases found : store.lookup val.slot with
  | none =>
    have fresh : val.slot ∉ store := lookup_eq_none.mp found
    obtain ⟨few, fits⟩ := admitted.newRow found
    rw [ownerCharge, ownerRows, ownerData, tally_insert fresh, tally_insert fresh]
    rw [ownerCharge, ownerRows, ownerData] at charge
    rw [ownerRows] at rows
    by_cases own : val.ownerFp = owner
    · subst own
      rw [ownerCharge, ownerRows, ownerData] at fits
      rw [ownerRows] at few
      simp only [if_true, rowCharge] at *
      omega
    · simp only [own, if_false, Nat.zero_add]
      exact ⟨rows, charge⟩
  | some row =>
    have eq : row.ownerFp = val.ownerFp := congrArg Slot.ownerFp (sound.keyed found)
    have rowSum : ownerRows (store.insert val.slot val) owner + _ = _ + ownerRows store owner :=
      tally_replace found
    have dataSum : ownerData (store.insert val.slot val) owner + _ = _ + ownerData store owner :=
      tally_replace found
    simp only [eq] at rowSum dataSum
    rw [ownerCharge] at charge ⊢
    obtain sameRows : ownerRows (store.insert val.slot val) owner = ownerRows store owner := by
      omega
    rw [sameRows]
    refine ⟨rows, ?_⟩
    by_cases own : val.ownerFp = owner
    · subst own
      have fits := admitted.replace row found
      rw [ownerCharge] at fits
      simp only [if_true] at dataSum
      by_cases grows : row.data.length < val.data.length
      · have := fits grows
        omega
      · omega
    · simp only [own, if_false] at dataSum
      omega

theorem Sound.insert (admitted : Admitted store val) : Sound (store.insert val.slot val) where
  keyed {slot row} found := by
    by_cases own : slot = val.slot
    · subst own
      rw [lookup_insert] at found
      cases found
      rfl
    · rw [lookup_insert_ne own] at found
      exact sound.keyed found
  rows owner := (sound.caps_insert admitted owner).1
  charge owner := (sound.caps_insert admitted owner).2
  exclusive {slot slot' row row'} found found' same exclusive exclusive' := by
    -- An exclusive row at the key of the value belongs to its owner, whether it is old or new.
    have owner : ∀ {slot row}, (store.insert val.slot val).lookup slot = some row →
        row.type = .exclusive → slot.keyHash = val.keyHash → slot.ownerFp = val.ownerFp := by
      intro slot row found exclusive same
      by_cases own : slot = val.slot
      · rw [own]
        rfl
      · rw [lookup_insert_ne own] at found
        exact sound.owner_of_free admitted.free found same exclusive
    by_cases here : slot.keyHash = val.keyHash
    · exact (owner found exclusive here).trans
        (owner found' exclusive' (same.symm.trans here)).symm
    · have other : slot ≠ val.slot := fun eq => here (congrArg Slot.keyHash eq)
      have other' : slot' ≠ val.slot := fun eq =>
        here (same.trans (congrArg Slot.keyHash eq))
      rw [lookup_insert_ne other] at found
      rw [lookup_insert_ne other'] at found'
      exact sound.exclusive found found' same exclusive exclusive'

theorem Sound.step (op : Op) : Sound (step verify hash store op) := by
  rcases step_cases verify hash store op with eq | ⟨val, admitted, eq⟩ | ⟨bad, eq⟩
  · rw [eq]
    exact sound
  · rw [eq]
    exact sound.insert admitted
  · rw [eq]
    exact sound.deleteWhere bad

theorem Sound.foldl_step (ops : List Op) : Sound (ops.foldl (Dht.step verify hash) store) := by
  induction ops generalizing store with
  | nil => exact sound
  | cons op rest ih => exact ih (sound.step op)

end

theorem storedSeq_le_step (op : Op) {row' : Value} (found : store.lookup slot = some row)
    (after : (step verify hash store op).lookup slot = some row') :
    row.storedSeq ≤ row'.storedSeq := by
  rcases step_cases verify hash store op with eq | ⟨val, admitted, eq⟩ | ⟨bad, eq⟩
  · rw [eq, found] at after
    cases after
    exact Int.le_refl _
  · rw [eq] at after
    by_cases own : slot = val.slot
    · subst own
      rw [lookup_insert] at after
      cases after
      exact admitted.newer row found
    · rw [lookup_insert_ne own, found] at after
      cases after
      exact Int.le_refl _
  · rw [eq] at after
    cases found.symm.trans (lookup_deleteWhere after)
    exact Int.le_refl _

theorem Sound.refuses (sound : Sound store) (found : store.lookup slot = some row)
    (exclusive : row.type = .exclusive) (eq : val.keyHash = slot.keyHash)
    (other : val.ownerFp ≠ slot.ownerFp) :
    keyOwned store val = true := by
  apply Bool.of_not_eq_false
  intro free
  exact other (sound.owner_of_free free found eq.symm exclusive).symm

/-! ## Replicas in any order -/

/-- Values that other nodes offer, each at its time. -/
def offerAll (hash : Bytes → Bytes) (store : Store) (offers : List (Int × Value)) :
    Except Refusal Store :=
  offers.foldlM (fun store offer =>
    (nodusStoragePutIfNewer hash offer.1 store offer.2).map Prod.snd) store

/-- The order in which stored rows replace each other. -/
def Value.rank (hash : Bytes → Bytes) (val : Value) : Int ×ₗ Bytes :=
  toLex (val.storedSeq, val.dataHash hash)

/-- The row is stored in a slot, or offered for it. -/
def Among (store : Store) (offers : List (Int × Value)) (slot : Slot) (row : Value) : Prop :=
  store.lookup slot = some row ∨ row ∈ offers.map Prod.snd ∧ row.slot = slot

variable {slot : Slot} {row : Value} {offers : List (Int × Value)} {final : Store}

theorem newerExists_eq_true : newerExists hash store val = true ↔
    ∃ row, store.lookup val.slot = some row ∧ val.rank hash ≤ row.rank hash := by
  cases found : store.lookup val.slot with
  | none => simp [newerExists, found]
  | some row =>
    rw [newerExists, found, Option.any_some, decide_eq_true_eq, eq_comm (a := row.storedSeq)]
    constructor
    · intro newer
      exact ⟨row, rfl, Prod.Lex.toLex_le_toLex.mpr newer⟩
    · rintro ⟨_, eq, less⟩
      cases eq
      exact Prod.Lex.toLex_le_toLex.mp less

theorem among_of_offer {next : Store}
    (passed : nodusStoragePutIfNewer hash now store val = .ok (stored, next)) :
    (next.lookup slot = some row → store.lookup slot = some row ∨ row = val ∧ val.slot = slot) ∧
      (store.lookup slot = some row ∨ row = val ∧ val.slot = slot →
        ∃ best, next.lookup slot = some best ∧ row.rank hash ≤ best.rank hash) := by
  rcases nodusStoragePutIfNewer_eq_ok passed with ⟨newer, rfl⟩ | ⟨older, -, rfl⟩
  · refine ⟨Or.inl, ?_⟩
    rintro (found | ⟨rfl, rfl⟩)
    · exact ⟨row, found, le_refl _⟩
    · exact newerExists_eq_true.mp newer
  · by_cases own : slot = val.slot
    · subst own
      rw [lookup_insert]
      refine ⟨fun eq => .inr ⟨(Option.some.inj eq).symm, rfl⟩, fun source => ⟨val, rfl, ?_⟩⟩
      rcases source with found | ⟨rfl, -⟩
      · apply le_of_not_ge
        intro less
        have newer := newerExists_eq_true.mpr ⟨row, found, less⟩
        rw [older] at newer
        cases newer
      · exact le_refl _
    · rw [lookup_insert_ne own]
      refine ⟨Or.inl, ?_⟩
      rintro (found | ⟨-, eq⟩)
      · exact ⟨row, found, le_refl _⟩
      · exact absurd eq.symm own

theorem among_of_offerAll (passed : offerAll hash store offers = .ok final) :
    (final.lookup slot = some row → Among store offers slot row) ∧
      (Among store offers slot row →
        ∃ best, final.lookup slot = some best ∧ row.rank hash ≤ best.rank hash) := by
  induction offers generalizing store row with
  | nil =>
    cases passed
    refine ⟨Or.inl, ?_⟩
    rintro (found | ⟨offered, -⟩)
    · exact ⟨row, found, le_refl _⟩
    · cases offered
  | cons offer rest ih =>
    rw [offerAll, List.foldlM_cons, bind_eq_ok] at passed
    obtain ⟨next, put, others⟩ := passed
    cases result : nodusStoragePutIfNewer hash offer.1 store offer.2 with
    | error code =>
      rw [result] at put
      cases put
    | ok after =>
      obtain ⟨stored, after⟩ := after
      rw [result] at put
      cases put
      constructor
      · intro found
        rcases (ih others).1 found with earlier | ⟨offered, eq⟩
        · rcases (among_of_offer result).1 earlier with old | ⟨rfl, eq⟩
          · exact .inl old
          · exact .inr ⟨List.mem_cons_self, eq⟩
        · exact .inr ⟨List.mem_cons_of_mem _ offered, eq⟩
      · intro source
        have now : (store.lookup slot = some row ∨ row = offer.2 ∧ offer.2.slot = slot) ∨
            row ∈ rest.map Prod.snd ∧ row.slot = slot := by
          rcases source with old | ⟨offered, eq⟩
          · exact .inl (.inl old)
          · rcases List.mem_cons.mp offered with rfl | later
            · exact .inl (.inr ⟨rfl, eq⟩)
            · exact .inr ⟨later, eq⟩
        rcases now with first | later
        · obtain ⟨better, held, less⟩ := (among_of_offer result).2 first
          obtain ⟨best, found, more⟩ := (ih others).2 (.inl held)
          exact ⟨best, found, less.trans more⟩
        · exact (ih others).2 (.inr later)

/-- Two ways to offer the same values leave the same sequence numbers, and the same data where no
two values have one hash. -/
theorem lookup_offerAll_congr {offers' : List (Int × Value)} {final' : Store}
    (same : ∀ val, val ∈ offers.map Prod.snd ↔ val ∈ offers'.map Prod.snd)
    (passed : offerAll hash store offers = .ok final)
    (passed' : offerAll hash store offers' = .ok final') (slot : Slot) :
    (final.lookup slot).map Value.storedSeq = (final'.lookup slot).map Value.storedSeq ∧
      ((∀ {row row'}, Among store offers slot row → Among store offers slot row' →
        row.dataHash hash = row'.dataHash hash → row.data = row'.data) →
        (final.lookup slot).map Value.data = (final'.lookup slot).map Value.data) := by
  have among : ∀ row, Among store offers slot row ↔ Among store offers' slot row := by
    intro row
    rw [Among, Among, same]
  cases found : final.lookup slot with
  | none =>
    cases found' : final'.lookup slot with
    | none => exact ⟨rfl, fun _ => rfl⟩
    | some row =>
      have source := (among row).mpr ((among_of_offerAll passed').1 found')
      obtain ⟨best, held, -⟩ := (among_of_offerAll passed).2 source
      cases found.symm.trans held
  | some row =>
    have source := (among_of_offerAll passed).1 found
    obtain ⟨row', found', less⟩ := (among_of_offerAll passed').2 ((among row).mp source)
    have source' := (among row').mpr ((among_of_offerAll passed').1 found')
    obtain ⟨best, held, more⟩ := (among_of_offerAll passed).2 source'
    cases found.symm.trans held
    have eq := congrArg ofLex (le_antisymm less more)
    have seq : row.storedSeq = row'.storedSeq := congrArg Prod.fst eq
    rw [found']
    refine ⟨congrArg some seq, fun free => ?_⟩
    exact congrArg some (free source source' (congrArg Prod.snd eq))

/-- The rules of the store hold after every sequence of operations, and replicas may arrive in
any order and any number of times: the row that stays is the newest one of those offered and the
one before.  Data that share a hash are the one case in which the first of two replicas stays. -/
theorem run_keeps_rules (verify : Value → Bool) (hash : Bytes → Bytes) :
    (∀ ops : List Op, let store := run verify hash ops
      (∀ owner, ownerRows store owner ≤ maxPerOwner ∧ ownerCharge store owner ≤ ownerMaxBytes) ∧
      (∀ {slot slot' row row'}, store.lookup slot = some row → store.lookup slot' = some row' →
        slot.keyHash = slot'.keyHash → row.type = .exclusive → row'.type = .exclusive →
        slot.ownerFp = slot'.ownerFp) ∧
      (∀ {slot row val}, store.lookup slot = some row → row.type = .exclusive →
        val.keyHash = slot.keyHash → val.ownerFp ≠ slot.ownerFp →
        (∃ code, nodusStoragePut verify store val = .error code) ∧
          ∀ now, ∃ code, nodusStoragePutIfNewer hash now store val = .error code) ∧
      ∀ (op : Op) {slot row row'}, store.lookup slot = some row →
        (step verify hash store op).lookup slot = some row' → row.storedSeq ≤ row'.storedSeq) ∧
    ∀ (ops : List Op) {offers offers' : List (Int × Value)} {final final' : Store},
      let store := run verify hash ops
      (∀ val, val ∈ offers.map Prod.snd ↔ val ∈ offers'.map Prod.snd) →
      offerAll hash store offers = .ok final → offerAll hash store offers' = .ok final' →
      ∀ slot, (final.lookup slot).map Value.storedSeq = (final'.lookup slot).map Value.storedSeq ∧
        ((∀ {row row'}, Among store offers slot row → Among store offers slot row' →
          row.dataHash hash = row'.dataHash hash → row.data = row'.data) →
          (final.lookup slot).map Value.data = (final'.lookup slot).map Value.data) ∧
        ∀ row, (final.lookup slot = some row → Among store offers slot row) ∧
          (Among store offers slot row →
            ∃ newest, final.lookup slot = some newest ∧ row.rank hash ≤ newest.rank hash) := by
  constructor
  · intro ops store
    have sound : Sound store := sound_empty.foldl_step ops
    refine ⟨fun owner => ⟨sound.rows owner, sound.charge owner⟩, sound.exclusive, ?_, ?_⟩
    · intro slot row val found exclusive eq other
      have owned := sound.refuses found exclusive eq other
      constructor
      · cases result : nodusStoragePut verify store val with
        | error code => exact ⟨code, rfl⟩
        | ok after =>
          have free := (nodusStoragePut_eq_ok result).1.free
          rw [owned] at free
          cases free
      · intro now
        rw [nodusStoragePutIfNewer]
        by_cases late : val.expired now = true
        · exact ⟨.expired, by simp [failWhen, late, bind, Except.bind]⟩
        · exact ⟨.keyOwned, by simp [failWhen, late, owned, bind, Except.bind]⟩
    · intro op slot row row' found after
      exact storedSeq_le_step op found after
  · intro ops offers offers' final final' store eq passed passed' slot
    obtain ⟨seq, data⟩ := lookup_offerAll_congr eq passed passed' slot
    exact ⟨seq, data, fun _ => among_of_offerAll passed⟩

def replica (data : Bytes) : Value :=
  ⟨default, 0, data, .permanent, 0, 0, 0, 7, [], default, []⟩

/-- Two replicas with one sequence number, offered in both orders: the larger hash stays. -/
theorem run_keeps_rules_two_replicas :
    ∃ final final', offerAll id ∅ [(0, replica [1]), (0, replica [2])] = .ok final ∧
      offerAll id ∅ [(0, replica [2]), (0, replica [1])] = .ok final' ∧
      (final.lookup (replica []).slot).map Value.data = some [2] ∧
      (final'.lookup (replica []).slot).map Value.data = some [2] := by
  have one : ∃ final, offerAll id ∅ [(0, replica [1]), (0, replica [2])] = .ok final := ⟨_, rfl⟩
  have two : ∃ final, offerAll id ∅ [(0, replica [2]), (0, replica [1])] = .ok final := ⟨_, rfl⟩
  obtain ⟨final, first⟩ := one
  obtain ⟨final', second⟩ := two
  obtain ⟨-, data, newest⟩ := (run_keeps_rules (fun _ => true) id).2 [] (fun val =>
    (List.Perm.swap (replica [2]) (replica [1]) []).mem_iff) first second (replica []).slot
  have pair : ∀ {row}, Among ∅ [(0, replica [1]), (0, replica [2])] (replica []).slot row →
      row = replica [1] ∨ row = replica [2] := by
    rintro row (found | ⟨offered, -⟩)
    · cases found
    · exact List.mem_pair.mp offered
  have eq : (final.lookup (replica []).slot).map Value.data =
      (final'.lookup (replica []).slot).map Value.data := by
    apply data
    intro row row' source source' eq
    rcases pair source with rfl | rfl <;> rcases pair source' with rfl | rfl <;> exact eq
  obtain ⟨best, held, less⟩ :=
    (newest (replica [2])).2 (.inr ⟨List.mem_pair.mpr (.inr rfl), rfl⟩)
  rcases pair ((newest _).1 held) with rfl | rfl
  · exact absurd less (by decide)
  · exact ⟨final, final', first, second, by rw [held]; rfl, by rw [← eq, held]; rfl⟩

end DnaLedger.Dht
