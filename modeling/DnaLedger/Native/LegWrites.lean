import DnaLedger.Effect.ResultSet
import DnaLedger.Native.CoreAdapter
import DnaLedger.Native.CoreExec

/-!
# What a CORE leg writes

Every executor of the CORE domain makes coins, may register a token or a name, moves one or two
counters and deletes the coins that are spent: `LegWrites`.
-/

namespace DnaLedger.Native

open DnaLedger.Effect Sorting List CoreOp

inductive Entry where
  | token (t : TcCall)
  | name (text : NameText) (owner : Digest)

/-- A counter that is moved from an old value to a new one. -/
structure Counter where
  sel : UInt8
  old : UInt64
  new : UInt64

structure LegWrites where
  coins : List NewCoin
  entry : Option Entry
  counters : List Counter
  spent : List (Digest × UtxoRec)
  coins_sorted : SortedBy (fun coin => coin.id.val) coins
  counters_sorted : SortedBy Counter.sel counters
  spent_sorted : SortedBy (fun row => row.1.val) spent
  coins_few : coins.length ≤ spendMaxOut + 1
  counters_few : counters.length ≤ 2
  spent_few : spent.length ≤ spendMaxIn

def Entry.effect (ctx : ExecCtx) : Entry → EffectIn
  | .token t => tokenCreateEff ctx t
  | .name text owner => nameCreateEff ctx text owner

def Counter.effect (counter : Counter) : EffectIn :=
  supplySetEff counter.sel counter.old counter.new

/-- The effect that deletes a coin whose record was read. -/
def spentEff (hash : Hash) (row : Digest × UtxoRec) : EffectIn :=
  utxoDeleteEff hash row.1 ⟨true, utxoLayout.write row.2⟩

/-- The effects of what a leg writes, in the order of the executors. -/
def LegWrites.effects (w : LegWrites) (hash : Hash) (ctx : ExecCtx) : List EffectIn :=
  w.coins.map (utxoCreateEff ctx) ++
    (w.entry.toList.map (Entry.effect ctx) ++ w.counters.map Counter.effect) ++
      w.spent.map (spentEff hash)

/-- The three shapes of a record that the executors make. -/
inductive Shape (hdr : EffectHdr) : Prop where
  | create (kind : hdr.effectKind = kindCreate) (tag : hdr.precondTag = preAbsent)
      (version : hdr.expectedVersion = 0) (vhash : hdr.expectedVhash = default)
  | set (kind : hdr.effectKind = kindSet) (tag : hdr.precondTag = preExistsVersion)
      (vhash : hdr.expectedVhash = default)
  | delete (kind : hdr.effectKind = kindDelete) (tag : hdr.precondTag = preExistsVhash)
      (version : hdr.expectedVersion = 0) (empty : hdr.valueLen = 0)

theorem allZero_default : allZero (default : Digest).val = true := by decide

theorem effectHdrOk_of_shape {hdr : EffectHdr} (shape : Shape hdr) (key_pos : 1 ≤ hdr.keyLen.toNat)
    (key_le : hdr.keyLen.toNat ≤ maxKeyLen) (value_le : hdr.valueLen.toNat ≤ maxValueLen) :
    effectHdrOk hdr = true := by
  have filled : hdr.keyLen ≠ 0 := by
    intro zero
    rw [zero] at key_pos
    exact absurd key_pos (by decide)
  have lengths : ¬ (hdr.keyLen = 0 ∨ maxKeyLen < hdr.keyLen.toNat) :=
    not_or.mpr ⟨filled, by omega⟩
  rw [effectHdrOk, if_neg lengths, if_neg (Nat.not_lt.mpr value_le)]
  cases shape with
  | create kind tag version vhash =>
    rw [kind, tag, version, vhash, allZero_default]
    simp [kindSet, preExistsVersion, kindCreate, kindDelete, preAbsent, preExists, preExistsVhash]
  | set kind tag vhash =>
    rw [kind, tag, vhash, allZero_default]
    simp [kindSet, preExistsVersion, kindCreate, kindDelete, preAbsent, preExists, preExistsVhash]
  | delete kind tag version empty =>
    rw [kind, tag, version, empty]
    simp [kindSet, preExistsVersion, kindCreate, kindDelete, preAbsent, preExists, preExistsVhash]

/-- One effect comes before another in the canonical order, and they have different targets. -/
def Follows (first second : EffectIn) : Prop :=
  canonicalKey first < canonicalKey second ∧ ¬ SameTarget first second

variable {first second : EffectIn}

theorem follows_of_kind (kind : first.hdr.effectKind < second.hdr.effectKind)
    (op : first.hdr.opId ≠ second.hdr.opId) :
    Follows first second := by
  refine ⟨?_, fun eq => op eq.1⟩
  rw [canonicalKey, canonicalKey, Prod.Lex.toLex_lt_toLex]
  exact Or.inl (UInt8.lt_iff_toNat_lt.mp kind)

section

variable (kind : first.hdr.effectKind = second.hdr.effectKind)

include kind

theorem follows_of_op (op : first.hdr.opId < second.hdr.opId) : Follows first second := by
  refine ⟨?_, fun eq => UInt32.ne_of_lt op eq.1⟩
  rw [canonicalKey, canonicalKey, Prod.Lex.toLex_lt_toLex]
  refine Or.inr ⟨congrArg UInt8.toNat kind, ?_⟩
  rw [Prod.Lex.toLex_lt_toLex]
  exact Or.inl (UInt32.lt_iff_toNat_lt.mp op)

theorem follows_of_key (op : first.hdr.opId = second.hdr.opId) (key : first.key < second.key) :
    Follows first second := by
  refine ⟨?_, fun eq => (ne_of_lt key) eq.2⟩
  rw [canonicalKey, canonicalKey, Prod.Lex.toLex_lt_toLex]
  refine Or.inr ⟨congrArg UInt8.toNat kind, ?_⟩
  rw [Prod.Lex.toLex_lt_toLex]
  exact Or.inr ⟨congrArg UInt32.toNat op, key⟩

end

variable (w : LegWrites) (hash : Hash) (ctx : ExecCtx)

theorem pairwise_coins : (w.coins.map (utxoCreateEff ctx)).Pairwise Follows := by
  rw [pairwise_map]
  refine Pairwise.imp ?_ w.coins_sorted
  intro first second before
  exact follows_of_key rfl rfl before

theorem pairwise_counters : (w.counters.map Counter.effect).Pairwise Follows := by
  rw [pairwise_map]
  refine Pairwise.imp ?_ w.counters_sorted
  intro first second before
  exact follows_of_key rfl rfl (cons_lt_cons_iff.mpr (Or.inl before))

theorem pairwise_spent : (w.spent.map (spentEff hash)).Pairwise Follows := by
  rw [pairwise_map]
  refine Pairwise.imp ?_ w.spent_sorted
  intro first second before
  exact follows_of_key rfl rfl before

variable (coin : NewCoin) (entry : Entry) (counter : Counter) (row : Digest × UtxoRec)

theorem coin_follows_entry : Follows (utxoCreateEff ctx coin) (entry.effect ctx) := by
  cases entry with
  | token t => exact follows_of_op rfl (by decide : utxo < token)
  | name text owner => exact follows_of_op rfl (by decide : utxo < name)

theorem coin_follows_counter : Follows (utxoCreateEff ctx coin) counter.effect :=
  follows_of_kind (by decide : kindCreate < kindSet) (by decide : utxo ≠ supply)

theorem coin_follows_spent : Follows (utxoCreateEff ctx coin) (spentEff hash row) :=
  follows_of_kind (by decide : kindCreate < kindDelete) (by decide : utxo ≠ utxdel)

theorem entry_follows_counter : Follows (entry.effect ctx) counter.effect := by
  cases entry with
  | token t =>
    exact follows_of_kind (by decide : kindCreate < kindSet)
      (by decide : token ≠ supply)
  | name text owner =>
    exact follows_of_kind (by decide : kindCreate < kindSet)
      (by decide : name ≠ supply)

theorem entry_follows_spent : Follows (entry.effect ctx) (spentEff hash row) := by
  cases entry with
  | token t =>
    exact follows_of_kind (by decide : kindCreate < kindDelete)
      (by decide : token ≠ utxdel)
  | name text owner =>
    exact follows_of_kind (by decide : kindCreate < kindDelete)
      (by decide : name ≠ utxdel)

theorem counter_follows_spent : Follows counter.effect (spentEff hash row) :=
  follows_of_kind (by decide : kindSet < kindDelete) (by decide : supply ≠ utxdel)

theorem LegWrites.pairwise_effects : (w.effects hash ctx).Pairwise Follows := by
  rw [effects, pairwise_append, pairwise_append, pairwise_append]
  refine ⟨⟨pairwise_coins w ctx, ⟨?_, pairwise_counters w, ?_⟩, ?_⟩, pairwise_spent w hash, ?_⟩
  · cases w.entry with
    | none => exact .nil
    | some entry => exact pairwise_singleton _ _
  · simp only [mem_map]
    rintro _ ⟨entry, -, rfl⟩ _ ⟨counter, -, rfl⟩
    exact entry_follows_counter ctx entry counter
  · simp only [mem_append, mem_map]
    rintro _ ⟨coin, -, rfl⟩ _ (⟨entry, -, rfl⟩ | ⟨counter, -, rfl⟩)
    · exact coin_follows_entry ctx coin entry
    · exact coin_follows_counter ctx coin counter
  · simp only [mem_append, mem_map]
    rintro _ (⟨coin, -, rfl⟩ | ⟨entry, -, rfl⟩ | ⟨counter, -, rfl⟩) _ ⟨row, -, rfl⟩
    · exact coin_follows_spent hash ctx coin row
    · exact entry_follows_spent hash ctx entry row
    · exact counter_follows_spent hash counter row

/-- An effect of an executor: in order by itself, short, and allowed by the adapter. -/
structure Fine (effect : EffectIn) : Prop where
  hdr_ok : effectHdrOk effect.hdr = true
  key_le : effect.key.length ≤ 64
  value_le : effect.value.length ≤ 284
  allowed : admits coreOps effect.hdr = true

/-- What an operation of the table allows is fine where the table's own limits are low. -/
theorem fine_of_op {effect : EffectIn} {op : AdapterOp} (shape : Shape effect.hdr)
    (found : opLookup effect.hdr.opId coreOps = some op)
    (kind : effect.hdr.effectKind ∈ op.allowedKinds)
    (tag : effect.hdr.precondTag ∈ op.allowedPreconds)
    (key : op.keyLenMin ≤ effect.key.length ∧ effect.key.length ≤ op.keyLenMax)
    (value : op.valueLenMin ≤ effect.value.length ∧ effect.value.length ≤ op.valueLenMax)
    (low : 1 ≤ op.keyLenMin ∧ op.keyLenMax ≤ 64 ∧ op.valueLenMax ≤ 284) : Fine effect := by
  obtain ⟨pos, keyLow, valueLow⟩ := low
  have keyLen : effect.key.length = effect.hdr.keyLen.toNat := effect.length_first
  have valueLen : effect.value.length = effect.hdr.valueLen.toNat := effect.length_second
  refine ⟨?_, key.2.trans keyLow, value.2.trans valueLow, ?_⟩
  · refine effectHdrOk_of_shape shape ?_ ?_ ?_
    · rw [← keyLen]
      exact pos.trans key.1
    · rw [← keyLen]
      exact key.2.trans (keyLow.trans (by decide))
    · rw [← valueLen]
      exact value.2.trans (valueLow.trans (by decide))
  · rw [admits, found]
    rw [keyLen] at key
    rw [valueLen] at value
    exact decide_eq_true ⟨kind, tag, key.1, key.2, value.1, value.2⟩

theorem fine_coin : Fine (utxoCreateEff ctx coin) := by
  have key : (utxoCreateEff ctx coin).key.length = 64 := coin.id.property
  have value : (utxoCreateEff ctx coin).value.length = 284 := utxoLayout.length_write _
  exact fine_of_op (.create rfl rfl rfl rfl) rfl mem_cons_self mem_cons_self
    ⟨key.ge, key.le⟩ ⟨value.ge, value.le⟩ (by decide)

theorem fine_entry : Fine (entry.effect ctx) := by
  cases entry with
  | token t =>
    have key : (Entry.effect ctx (.token t)).key.length = 64 := t.tokenId.property
    have value : (Entry.effect ctx (.token t)).value.length = 188 := tokenLayout.length_write _
    exact fine_of_op (.create rfl rfl rfl rfl) rfl mem_cons_self mem_cons_self
      ⟨key.ge, key.le⟩ ⟨value.ge, value.le⟩ (by decide)
  | name text owner =>
    have value : (Entry.effect ctx (.name text owner)).value.length = 72 :=
      nameLayout.length_write _
    exact fine_of_op (.create rfl rfl rfl rfl) rfl mem_cons_self mem_cons_self
      (length_name text) ⟨value.ge, value.le⟩ (by decide)

theorem fine_counter : Fine counter.effect := by
  have value : counter.effect.value.length = 8 := Layout.be64.length_write _
  exact fine_of_op (.set rfl rfl rfl) rfl mem_cons_self
    (mem_cons_of_mem _ mem_cons_self) ⟨le_refl 1, le_refl 1⟩ ⟨value.ge, value.le⟩
    (by decide)

theorem fine_spent : Fine (spentEff hash row) := by
  have key : (spentEff hash row).key.length = 64 := row.1.property
  exact fine_of_op (.delete rfl rfl rfl rfl) rfl mem_cons_self
    (mem_cons_of_mem _ (mem_cons_of_mem _ mem_cons_self)) ⟨key.ge, key.le⟩
    ⟨le_refl 0, le_refl 0⟩ (by decide)

theorem LegWrites.fine_effects : ∀ effect ∈ w.effects hash ctx, Fine effect := by
  simp only [effects, mem_append, mem_map]
  rintro _ ((⟨coin, -, rfl⟩ | ⟨entry, -, rfl⟩ | ⟨counter, -, rfl⟩) | ⟨row, -, rfl⟩)
  · exact fine_coin ctx coin
  · exact fine_entry ctx entry
  · exact fine_counter counter
  · exact fine_spent hash row

theorem LegWrites.length_effects : (w.effects hash ctx).length ≤ 35 := by
  have coins := w.coins_few
  have counters := w.counters_few
  have spent := w.spent_few
  have entry : w.entry.toList.length ≤ 1 := by cases w.entry <;> simp
  rw [spendMaxOut] at coins
  rw [spendMaxIn] at spent
  simp only [effects, length_append, length_map]
  omega

theorem sum_le_of_forall_le {lens : List Nat} {most : Nat} (each : ∀ len ∈ lens, len ≤ most) :
    lens.sum ≤ lens.length * most := by
  induction lens with
  | nil => simp
  | cons len rest ih =>
    have head := each len mem_cons_self
    have tail := ih fun other mem => each other (mem_cons_of_mem len mem)
    rw [sum_cons, length_cons, Nat.succ_mul]
    omega

theorem LegWrites.valid : Valid (w.effects hash ctx) := by
  have fine := w.fine_effects hash ctx
  have few := w.length_effects hash ctx
  have follow := w.pairwise_effects hash ctx
  refine ⟨few.trans (by decide), fun effect mem => (fine effect mem).hdr_ok, ?_, ?_⟩
  · rw [effOrderOk_iff]
    exact ⟨follow.imp And.left, follow.imp And.right⟩
  · have keys : keyTotal ((w.effects hash ctx).map Sections.Item.hdr) ≤
        (w.effects hash ctx).length * 64 := by
      rw [keyTotal, map_map]
      refine (sum_le_of_forall_le ?_).trans (by rw [length_map])
      intro len mem
      obtain ⟨effect, inside, rfl⟩ := mem_map.mp mem
      exact effect.length_first.symm.le.trans (fine effect inside).key_le
    have values : valueTotal ((w.effects hash ctx).map Sections.Item.hdr) ≤
        (w.effects hash ctx).length * 284 := by
      rw [valueTotal, map_map]
      refine (sum_le_of_forall_le ?_).trans (by rw [length_map])
      intro len mem
      obtain ⟨effect, inside, rfl⟩ := mem_map.mp mem
      exact effect.length_second.symm.le.trans (fine effect inside).value_le
    rw [length_resultBytes, fixedHead, recordLen, maxTotalLen]
    omega

theorem LegWrites.validated : effectsValidate coreOps (viewOf (w.effects hash ctx)) = .ok () :=
  effectsValidate_viewOf selfcheck_coreOps (w.valid hash ctx)
    fun effect mem => (w.fine_effects hash ctx effect mem).allowed

end DnaLedger.Native
