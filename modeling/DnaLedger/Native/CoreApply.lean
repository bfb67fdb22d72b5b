import DnaLedger.Native.CoreLegs

/-!
# Reading and writing the CORE store

What the adapter of the CORE domain answers to a plan, and what the store holds once the
effects of a leg are applied: coins are made under fresh ids, a token or a name is
registered, counters are moved, and the coins that are spent are gone.
-/

namespace DnaLedger.Native

open DnaLedger.Effect Option

variable {hash : Hash} {dom : UInt32} {store after : CoreStore}

section

@[simp] theorem asDigest_val (id : Digest) : asDigest id.val = some id :=
  dif_pos id.property

variable {coin : UtxoRec}

theorem coin_of_coreRowRecord {record : UtxoRec} (recorded : coreRowRecord coin = some record) :
    record = coin := by
  obtain ⟨-, recorded⟩ := ite_none_left_eq_some.mp recorded
  obtain ⟨-, eq⟩ := ite_none_right_eq_some.mp recorded
  exact (some.inj eq).symm

theorem lookup_of_coreUtxoFetch {id : Digest}
    (fetched : coreUtxoFetch store dom id.val = some (some coin)) :
    store.utxoSet.lookup id = some ⟨dom, coin⟩ := by
  rw [coreUtxoFetch, asDigest_val] at fetched
  dsimp only [bind_eq_bind, bind_some] at fetched
  split at fetched
  next => cases fetched
  next row filtered =>
    obtain ⟨found, domain⟩ := filter_eq_some_iff.mp filtered
    obtain ⟨record, recorded, made⟩ := bind_eq_some_iff.mp fetched
    cases made
    rw [found, coin_of_coreRowRecord recorded, ← eq_of_beq domain]

theorem lookup_of_readOne {id : Digest}
    (answered : readOne (coreAdapter hash dom) store (utxoReq id) = .ok (foundCoin coin)) :
    store.utxoSet.lookup id = some ⟨dom, coin⟩ := by
  obtain ⟨found, read, eq⟩ := of_readOne answered
  have read : coreRead dom store CoreOp.utxo id.val = some found := read
  rw [coreRead, if_pos (Or.inl rfl)] at read
  obtain ⟨fetched, fetch, made⟩ := bind_eq_some_iff.mp read
  cases made
  cases fetched with
  | none => cases congrArg ReadRes.present eq
  | some record =>
    have bytes : utxoLayout.write coin = utxoLayout.write record := congrArg ReadRes.value eq
    rw [utxoLayout.write_inj bytes]
    exact lookup_of_coreUtxoFetch fetch

end

variable {ctx : ExecCtx}

abbrev applyEffect (hash : Hash) (dom : UInt32) (store : CoreStore) (effect : EffectIn) :
    Except AdapterError CoreStore :=
  applyOne (coreAdapter hash dom) store effect.hdr effect.key effect.value

theorem mutate_of_applyEffect {effect : EffectIn}
    (applied : applyEffect hash dom store effect = .ok after) :
    coreMutate dom store effect.hdr.opId effect.hdr.effectKind effect.key effect.value =
      some after := by
  obtain ⟨_, -, applied⟩ := bind_eq_ok.mp applied
  obtain ⟨_, -, applied⟩ := bind_eq_ok.mp applied
  obtain ⟨_, -, applied⟩ := bind_eq_ok.mp applied
  exact orFail_eq_ok.mp applied

def NewCoin.row (coin : NewCoin) (dom : UInt32) (ctx : ExecCtx) : Digest × UtxoRow :=
  (coin.id, ⟨dom, coin.toRec ctx⟩)

theorem of_create {coin : NewCoin}
    (applied : applyEffect hash dom store (utxoCreateEff ctx coin) = .ok after) :
    coin.id ∉ store.utxoSet ∧ after =
      { store with utxoSet := store.utxoSet.insert coin.id ⟨dom, coin.toRec ctx⟩ } := by
  have mutated := mutate_of_applyEffect applied
  change coreMutate dom store CoreOp.utxo kindCreate coin.id.val
    (utxoLayout.write (coin.toRec ctx)) = some after at mutated
  rw [coreMutate, if_pos ⟨rfl, rfl⟩, asDigest_val] at mutated
  obtain ⟨-, inserted⟩ := ite_none_left_eq_some.mp mutated
  obtain ⟨fresh, made⟩ := ite_none_left_eq_some.mp inserted
  rw [utxoLayout.read_write_self] at made
  exact ⟨fresh, (some.inj made).symm⟩

theorem of_spent {row : Digest × UtxoRec}
    (applied : applyEffect hash dom store (spentEff hash row) = .ok after) :
    after = { store with utxoSet := store.utxoSet.erase row.1 } := by
  have mutated := mutate_of_applyEffect applied
  change coreMutate dom store CoreOp.utxdel kindDelete row.1.val [] = some after at mutated
  rw [coreMutate, if_neg (by decide), if_pos ⟨rfl, rfl⟩, asDigest_val] at mutated
  change store.deleteUtxo dom row.1 = some after at mutated
  rw [CoreStore.deleteUtxo] at mutated
  split at mutated
  next => cases mutated
  next => exact (some.inj mutated).symm

theorem of_counter {counter : Counter}
    (applied : applyEffect hash dom store counter.effect = .ok after) :
    after.utxoSet = store.utxoSet ∧ after.tokens = store.tokens := by
  have mutated := mutate_of_applyEffect applied
  change coreMutate dom store CoreOp.supply kindSet [counter.sel] (Layout.be64.write counter.new) =
    some after at mutated
  rw [coreMutate, if_neg (by decide), if_neg (by decide), if_pos ⟨rfl, rfl⟩] at mutated
  obtain ⟨sel, -, mutated⟩ := bind_eq_some_iff.mp mutated
  simp only [ite_none_left_eq_some] at mutated
  obtain ⟨-, -, mutated⟩ := mutated
  rw [CoreStore.setCounter] at mutated
  split at mutated
  next =>
    obtain ⟨row, -, rfl⟩ := map_eq_some_iff.mp mutated
    exact ⟨rfl, rfl⟩
  next =>
    split at mutated
    next =>
      obtain ⟨row, -, rfl⟩ := map_eq_some_iff.mp mutated
      exact ⟨rfl, rfl⟩
    next =>
      obtain ⟨-, mutated⟩ := ite_none_right_eq_some.mp mutated
      obtain ⟨value, -, rfl⟩ := map_eq_some_iff.mp mutated
      exact ⟨rfl, rfl⟩

/-- What becomes of the tokens when a row is registered. -/
def Registers (before after : Table Digest TokenRow) : Option Entry → Prop
  | some (.token t) => t.tokenId ∉ before ∧
      ∃ row : TokenRow, after = before.insert t.tokenId row ∧ row.supply = t.minted.amount
  | _ => after = before

theorem of_entry {entry : Entry}
    (applied : applyEffect hash dom store (entry.effect ctx) = .ok after) :
    after.utxoSet = store.utxoSet ∧ Registers store.tokens after.tokens (some entry) := by
  have mutated := mutate_of_applyEffect applied
  cases entry with
  | token t =>
    change coreMutate dom store CoreOp.token kindCreate t.tokenId.val
      (tokenLayout.write (t.toRec ctx)) = some after at mutated
    rw [coreMutate, if_neg (by decide), if_neg (by decide), if_neg (by decide),
      if_pos ⟨rfl, rfl⟩, asDigest_val] at mutated
    obtain ⟨-, mutated⟩ := ite_none_left_eq_some.mp mutated
    obtain ⟨-, mutated⟩ := ite_none_left_eq_some.mp mutated
    obtain ⟨fresh, made⟩ := ite_none_left_eq_some.mp mutated
    cases made
    rw [tokenLayout.read_write_self]
    exact ⟨rfl, fresh, _, rfl, rfl⟩
  | name text owner =>
    change coreMutate dom store CoreOp.name kindCreate text.val
      (nameLayout.write ⟨owner, ctx.globalHeight⟩) = some after at mutated
    rw [coreMutate, if_neg (by decide), if_neg (by decide), if_neg (by decide),
      if_neg (by decide), if_pos ⟨rfl, rfl⟩] at mutated
    obtain ⟨-, mutated⟩ := ite_none_left_eq_some.mp mutated
    obtain ⟨-, mutated⟩ := ite_none_left_eq_some.mp mutated
    obtain ⟨-, made⟩ := ite_none_left_eq_some.mp mutated
    cases made
    exact ⟨rfl, rfl⟩

theorem of_creates {coins : List NewCoin}
    (applied : (coins.map (utxoCreateEff ctx)).foldlM (applyEffect hash dom) store = .ok after) :
    (∀ coin ∈ coins, coin.id ∉ store.utxoSet) ∧
      after.utxoSet = store.utxoSet.insertAll (coins.map fun coin => coin.row dom ctx) ∧
      after.tokens = store.tokens := by
  induction coins generalizing store with
  | nil =>
    cases applied
    exact ⟨fun _ mem => absurd mem List.not_mem_nil, rfl, rfl⟩
  | cons coin rest ih =>
    obtain ⟨next, first, applied⟩ := bind_eq_ok.mp applied
    obtain ⟨fresh, rfl⟩ := of_create first
    obtain ⟨others, coins_eq, tokens_eq⟩ := ih applied
    refine ⟨fun later mem => ?_, coins_eq, tokens_eq⟩
    rcases List.mem_cons.mp mem with rfl | inside
    · exact fresh
    · exact fun known => others later inside ((AList.mem_insert _).mpr (Or.inr known))

theorem of_counters {counters : List Counter}
    (applied : (counters.map Counter.effect).foldlM (applyEffect hash dom) store = .ok after) :
    after.utxoSet = store.utxoSet ∧ after.tokens = store.tokens := by
  induction counters generalizing store with
  | nil =>
    cases applied
    exact ⟨rfl, rfl⟩
  | cons counter rest ih =>
    obtain ⟨next, first, applied⟩ := bind_eq_ok.mp applied
    obtain ⟨coins_eq, tokens_eq⟩ := of_counter first
    obtain ⟨later_coins, later_tokens⟩ := ih applied
    exact ⟨later_coins.trans coins_eq, later_tokens.trans tokens_eq⟩

theorem of_spents {spent : List (Digest × UtxoRec)}
    (applied : (spent.map (spentEff hash)).foldlM (applyEffect hash dom) store = .ok after) :
    after.utxoSet = store.utxoSet.eraseAll (spent.map Prod.fst) ∧ after.tokens = store.tokens := by
  induction spent generalizing store with
  | nil =>
    cases applied
    exact ⟨rfl, rfl⟩
  | cons row rest ih =>
    obtain ⟨next, first, applied⟩ := bind_eq_ok.mp applied
    obtain rfl := of_spent first
    exact ih applied

/-- What the store holds once the effects of a leg are applied. -/
structure Written (store after : CoreStore) (dom : UInt32) (ctx : ExecCtx) (w : LegWrites) :
    Prop where
  fresh : ∀ coin ∈ w.coins, coin.id ∉ store.utxoSet
  coins : after.utxoSet =
    (store.utxoSet.insertAll (w.coins.map fun coin => coin.row dom ctx)).eraseAll
      (w.spent.map Prod.fst)
  tokens : Registers store.tokens after.tokens w.entry

theorem written_of_foldlM {w : LegWrites}
    (applied : (w.effects hash ctx).foldlM (applyEffect hash dom) store = .ok after) :
    Written store after dom ctx w := by
  rw [LegWrites.effects, List.foldlM_append, List.foldlM_append] at applied
  obtain ⟨moved, applied, spent⟩ := bind_eq_ok.mp applied
  obtain ⟨made, creates, applied⟩ := bind_eq_ok.mp applied
  rw [List.foldlM_append] at applied
  obtain ⟨entered, entries, counters⟩ := bind_eq_ok.mp applied
  obtain ⟨fresh, coins_eq, tokens_eq⟩ := of_creates creates
  obtain ⟨kept, eq⟩ := of_counters counters
  obtain ⟨erased, left⟩ := of_spents spent
  have registered : entered.utxoSet = made.utxoSet ∧
      Registers made.tokens entered.tokens w.entry := by
    cases entry : w.entry with
    | none =>
      rw [entry] at entries
      cases entries
      exact ⟨rfl, rfl⟩
    | some row =>
      rw [entry] at entries
      obtain ⟨next, first, last⟩ := bind_eq_ok.mp entries
      cases last
      exact of_entry first
  refine ⟨fresh, ?_, ?_⟩
  · rw [erased, kept, registered.1, coins_eq]
  · rw [left, eq, ← tokens_eq]
    exact registered.2

end DnaLedger.Native
