import DnaLedger.Native.CoreApply

/-!
# The rules of the coins

Applying what the executor of the CORE domain accepts keeps the rules of the coins: the
coins that the leg lists are there, unlocked and owned by its signers, and are gone
afterwards; the coins that are made are new; and amounts change only by what the leg moves.
-/

namespace DnaLedger.Native

open DnaLedger.Envelope (EnvView)
open LegWrites List
open DnaLedger.Effect

def UtxoRow.worthIn (token : Digest) (row : UtxoRow) : Nat :=
  amountIn token row.coin.token row.coin.amount

def rowsWorth (token : Digest) (rows : List (Digest × UtxoRow)) : Nat :=
  (rows.map fun row => row.2.worthIn token).sum

def CoreStore.total (store : CoreStore) (token : Digest) : Nat :=
  store.utxoSet.tally (UtxoRow.worthIn token)

/-- The supply of a token that a transfer registers. -/
def Transfer.registered (transfer : Transfer) (token : Digest) : Nat :=
  registeredIn token transfer.entry

variable {hash : Hash} {verify : Verify} {dom : UInt32} {store after : CoreStore} {ctx : ExecCtx}
  {w : LegWrites}

def LegWrites.spentRows (w : LegWrites) (dom : UInt32) : List (Digest × UtxoRow) :=
  w.spent.map fun row => (row.1, ⟨dom, row.2⟩)

def LegWrites.madeRows (w : LegWrites) (dom : UInt32) (ctx : ExecCtx) : List (Digest × UtxoRow) :=
  w.coins.map fun coin => coin.row dom ctx

theorem map_fst_spentRows : (w.spentRows dom).map Prod.fst = w.spent.map Prod.fst := by
  rw [spentRows, map_map]
  rfl

theorem map_fst_madeRows : (w.madeRows dom ctx).map Prod.fst = w.coins.map NewCoin.id := by
  rw [madeRows, map_map]
  rfl

theorem rowsWorth_spentRows (token : Digest) :
    rowsWorth token (w.spentRows dom) = worth token w.spentHeld := by
  rw [rowsWorth, spentRows, worth, spentHeld, map_map, map_map]
  rfl

theorem rowsWorth_madeRows (token : Digest) :
    rowsWorth token (w.madeRows dom ctx) = worth token w.madeHeld := by
  rw [rowsWorth, madeRows, worth, madeHeld, map_map, map_map]
  rfl

theorem nodup_spent : (w.spent.map Prod.fst).Nodup := by
  have nodup := w.spent_sorted.nodup
  rw [show (fun row : Digest × UtxoRec => row.1.val) = Subtype.val ∘ Prod.fst from rfl,
    ← map_map] at nodup
  exact nodup.of_map

theorem nodup_made : (w.coins.map NewCoin.id).Nodup := by
  have nodup := w.coins_sorted.nodup
  rw [show (fun coin : NewCoin => coin.id.val) = Subtype.val ∘ NewCoin.id from rfl,
    ← map_map] at nodup
  exact nodup.of_map

theorem notMem_made (fresh : ∀ coin ∈ w.coins, coin.id ∉ store.utxoSet) {id : Digest}
    {row : UtxoRow} (found : store.utxoSet.lookup id = some row) :
    id ∉ w.coins.map NewCoin.id := by
  intro made
  obtain ⟨coin, mem, rfl⟩ := mem_map.mp made
  exact fresh coin mem (AList.lookup_isSome.mp (by rw [found]; rfl))

/-- What is spent leaves the total of a token, and what is made is added to it. -/
theorem total_of_written (written : Written store after dom ctx w)
    (present : ∀ row ∈ w.spentRows dom, store.utxoSet.lookup row.1 = some row.2)
    (token : Digest) :
    after.total token + rowsWorth token (w.spentRows dom) =
      store.total token + rowsWorth token (w.madeRows dom ctx) := by
  have kept : ∀ row ∈ w.spentRows dom,
      (store.utxoSet.insertAll (w.madeRows dom ctx)).lookup row.1 = some row.2 := by
    intro row mem
    have found := present row mem
    rw [Table.lookup_insertAll_of_notMem, found]
    rw [map_fst_madeRows]
    exact notMem_made written.fresh found
  have made : (store.utxoSet.insertAll (w.madeRows dom ctx)).tally (UtxoRow.worthIn token) =
      store.total token + rowsWorth token (w.madeRows dom ctx) := by
    refine Table.tally_insertAll ?_ ?_
    · rw [map_fst_madeRows]
      exact nodup_made
    · intro row mem
      obtain ⟨coin, inside, rfl⟩ := mem_map.mp mem
      exact written.fresh coin inside
  rw [← made, CoreStore.total, written.coins, ← map_fst_spentRows]
  refine Table.tally_eraseAll ?_ kept
  rw [map_fst_spentRows]
  exact nodup_spent

theorem present_of_reads {reqs : List ReadReq} {reads : List ReadRes} {c : SpendCall}
    {rest : List ReadReq} (asked : reqs = planFor c rest) (ids : w.spent.map Prod.fst = c.ins)
    (answered : reqs.mapM (readOne (coreAdapter hash dom) store) = .ok reads)
    (found : reads.take c.ins.length = w.spent.map fun row => foundCoin row.2) :
    ∀ row ∈ w.spentRows dom, store.utxoSet.lookup row.1 = some row.2 := by
  have answers := forall₂_take c.ins.length (forall₂_of_mapM_eq_ok answered)
  have front : reqs.take c.ins.length = w.spent.map fun row => utxoReq row.1 := by
    rw [asked, planFor, take_left' (length_map _), ← ids, map_map]
    rfl
  rw [front, found, forall₂_map_left_iff, forall₂_map_right_iff, forall₂_same]
    at answers
  intro row mem
  obtain ⟨⟨id, coin⟩, inside, rfl⟩ := mem_map.mp mem
  exact lookup_of_readOne (answers (id, coin) inside)

/-- The rules that a transfer keeps when it takes the store from one state to the next. -/
structure KeepsRules (hash : Hash) (verify : Verify) (leg : LegView) (digest : Digest)
    (height : UInt64) (dom : UInt32) (transfer : Transfer) (store after : CoreStore)
    (spent created : List (Digest × UtxoRow)) : Prop where
  listed : spent.map Prod.fst = transfer.call.ins
  once : transfer.call.ins.Nodup
  present : ∀ row ∈ spent, store.utxoSet.lookup row.1 = some row.2 ∧ row.2.domainId = dom
  unlocked : ∀ row ∈ spent, row.2.coin.unlockBlock < height
  owned : ∀ row ∈ spent, Owned hash verify leg.auth digest row.2.coin.owner
  gone : ∀ id ∈ transfer.call.ins, after.utxoSet.lookup id = none
  distinct : (created.map Prod.fst).Nodup
  absent : ∀ row ∈ created, row.1 ∉ store.utxoSet
  made : ∀ row ∈ created, after.utxoSet.lookup row.1 = some row.2
  untouched : ∀ id ∉ transfer.call.ins, id ∉ created.map Prod.fst →
    after.utxoSet.lookup id = store.utxoSet.lookup id
  native : rowsWorth nativeToken spent + transfer.moves.release =
    rowsWorth nativeToken created + transfer.moves.fee + transfer.moves.price +
      transfer.moves.burn + transfer.moves.lock
  others : ∀ token ≠ nativeToken,
    after.total token = store.total token + transfer.registered token
  tokens : Registers store.tokens after.tokens transfer.entry

section

variable {transfer : Transfer} {reads : List ReadRes} {bytes : Bytes}
variable (accepts : Accepts hash ctx (verdictOwners ctx.auth) reads transfer w bytes)
variable (written : Written store after dom ctx w)
variable (present : ∀ row ∈ w.spentRows dom, store.utxoSet.lookup row.1 = some row.2)

include accepts written present

theorem Accepts.total (token : Digest) (other : token ≠ nativeToken) :
    after.total token = store.total token + transfer.registered token := by
  have totals := total_of_written written present token
  have balance := accepts.balanced.others token other
  rw [rowsWorth_spentRows, rowsWorth_madeRows, balance] at totals
  rw [minted, accepts.entry, ← Transfer.registered] at totals
  omega

def Moves.paid (moves : Moves) : Nat :=
  moves.fee + moves.price + moves.burn + moves.lock

/-- A leg gains and loses native coins by what it moves. -/
theorem Accepts.native : after.total nativeToken + transfer.moves.paid =
    store.total nativeToken + transfer.moves.release := by
  have totals := total_of_written written present nativeToken
  have balance := accepts.balanced.native
  rw [rowsWorth_spentRows, rowsWorth_madeRows] at totals
  rw [Moves.paid]
  omega

theorem keepsRules_of_written {leg : LegView} {digest : Digest}
    (verdict : Verdict hash verify leg digest ctx.auth) :
    KeepsRules hash verify leg digest ctx.globalHeight dom transfer store after (w.spentRows dom)
      (w.madeRows dom ctx) where
  listed := map_fst_spentRows.trans accepts.ids
  once := accepts.ids ▸ nodup_spent
  present row mem := by
    refine ⟨present row mem, ?_⟩
    obtain ⟨_, -, rfl⟩ := mem_map.mp mem
    rfl
  unlocked row mem := by
    obtain ⟨held, inside, rfl⟩ := mem_map.mp mem
    exact (accepts.spendable held inside).1
  owned row mem := by
    obtain ⟨held, inside, rfl⟩ := mem_map.mp mem
    exact owned_of_grants verdict (accepts.spendable held inside).2
  gone id mem := by
    rw [written.coins, accepts.ids]
    exact Table.lookup_eraseAll_of_mem mem
  distinct := by
    rw [map_fst_madeRows]
    exact nodup_made
  absent row mem := by
    obtain ⟨coin, inside, rfl⟩ := mem_map.mp mem
    exact written.fresh coin inside
  made row mem := by
    have kept : row.1 ∉ w.spent.map Prod.fst := by
      intro spent
      obtain ⟨held, inside, eq⟩ := mem_map.mp spent
      refine notMem_made written.fresh (present _ (mem_map_of_mem inside)) ?_
      rw [← map_fst_madeRows, eq]
      exact mem_map_of_mem mem
    rw [written.coins, Table.lookup_eraseAll_of_notMem kept]
    refine Table.lookup_insertAll_of_mem ?_ mem
    rw [← madeRows, map_fst_madeRows]
    exact nodup_made
  untouched id notSpent notMade := by
    rw [written.coins, accepts.ids, Table.lookup_eraseAll_of_notMem notSpent]
    exact Table.lookup_insertAll_of_notMem notMade
  native := by
    rw [rowsWorth_spentRows, rowsWorth_madeRows]
    exact accepts.balanced.native
  others := accepts.total written present
  tokens := accepts.entry ▸ written.tokens

end

/-- A leg that was read, accepted and applied: its transfer, and the writes that made it. -/
theorem written_of_leg {generation : Nat} {env : EnvView} {legIndex : Nat} {leg : LegView}
    {maxReqs resCap : Nat} {reqs : List ReadReq} {reads : List ReadRes} {bytes : Bytes}
    {out view : EffectView} (found : legAt env legIndex = some leg)
    (plan : coreReadPlan hash generation env legIndex ctx maxReqs = .ok reqs)
    (answered : reqs.mapM (readOne (coreAdapter hash dom) store) = .ok reads)
    (passed : coreExec hash generation env legIndex ctx reads resCap = .ok bytes)
    (read : decode bytes out = (true, view))
    (applied : effectsApply (coreAdapter hash dom) store view = .ok after) :
    ∃ transfer, transferOf generation env legIndex leg ctx = some transfer ∧
      ∃ w, Accepts hash ctx (verdictOwners ctx.auth) reads transfer w bytes ∧
        Written store after dom ctx w ∧
        ∀ row ∈ w.spentRows dom, store.utxoSet.lookup row.1 = some row.2 := by
  obtain ⟨transfer, asks, asked, w, accepts⟩ := transfers_of_coreExec found passed
  obtain ⟨other, eq, legPlan⟩ := exists_leg_of_plan plan
  obtain rfl : other = leg := Option.some.inj (eq.symm.trans found)
  obtain ⟨rest, reqs_eq⟩ := asked reqs maxReqs legPlan
  have valid := w.valid hash ctx
  obtain rfl : viewOf (w.effects hash ctx) = view := by
    have decodes := valid.decode_bytes out
    rw [← accepts.bytes_eq, read] at decodes
    exact (Prod.mk.inj decodes).2.symm
  exact ⟨transfer, asks, w, accepts, written_of_foldlM (foldlM_of_effectsApply valid applied),
    present_of_reads reqs_eq accepts.ids answered accepts.found⟩

/-- What the executor accepts keeps the rules of the coins when its effects are applied. -/
theorem coreExec_keeps_rules {generation : Nat} {env : EnvView} {legIndex : Nat} {leg : LegView}
    {digest : Digest} {committee : Option Committee} {maxReqs resCap : Nat}
    {reqs : List ReadReq} {reads : List ReadRes} {bytes : Bytes} {out view : EffectView}
    (found : legAt env legIndex = some leg)
    (authorized : authDsa87 hash verify env legIndex digest committee = .ok ctx.auth)
    (plan : coreReadPlan hash generation env legIndex ctx maxReqs = .ok reqs)
    (answered : reqs.mapM (readOne (coreAdapter hash dom) store) = .ok reads)
    (passed : coreExec hash generation env legIndex ctx reads resCap = .ok bytes)
    (read : decode bytes out = (true, view))
    (applied : effectsApply (coreAdapter hash dom) store view = .ok after) :
    ∃ transfer, transferOf generation env legIndex leg ctx = some transfer ∧
      ∃ spent created, KeepsRules hash verify leg digest ctx.globalHeight dom transfer store after
        spent created := by
  obtain ⟨transfer, asks, w, accepts, written, present⟩ :=
    written_of_leg found plan answered passed read applied
  exact ⟨transfer, asks, w.spentRows dom, w.madeRows dom ctx,
    keepsRules_of_written accepts written present (verdict_of_authDsa87 found authorized)⟩

def paymentResult : Bytes :=
  (coreExec residueHash 1 paymentEnv 0 paymentCtx paymentReads maxTotalLen).toOption.getD []

theorem payment_keeps_rules :
    ∃ leg after, legAt paymentEnv 0 = some leg ∧
      effectsApply (coreAdapter residueHash domainCore) paymentStore
        (decode paymentResult .zero).2 = .ok after ∧
      ∃ transfer, transferOf 1 paymentEnv 0 leg paymentCtx = some transfer ∧
        ∃ spent created, KeepsRules residueHash (fun _ _ _ => true) leg default
          paymentCtx.globalHeight domainCore transfer paymentStore after spent created := by
  obtain ⟨leg, found⟩ := Option.isSome_iff_exists.mp
    (by decide +kernel : (legAt paymentEnv 0).isSome = true)
  obtain ⟨after, applied⟩ := exists_of_isOk
    (by decide +kernel : (effectsApply (coreAdapter residueHash domainCore) paymentStore
      (decode paymentResult .zero).2).isOk = true)
  have passed : coreExec residueHash 1 paymentEnv 0 paymentCtx paymentReads maxTotalLen =
      .ok paymentResult := by decide +kernel
  have whole : ∀ result : Bool × EffectView, result.1 = true → result = (true, result.2) := by
    rintro ⟨_, view⟩ rfl
    rfl
  have read := whole (decode paymentResult .zero) (by decide +kernel)
  exact ⟨leg, after, found, applied, coreExec_keeps_rules found payment_authorized payment_planned
    payment_answered passed read applied⟩

/-! ## Runs of legs -/

/-- The coins in a token are worth what was registered for it. -/
def CoreStore.Backed (store : CoreStore) : Prop :=
  ∀ token ≠ nativeToken,
    store.total token = ((store.tokens.lookup token).map fun row => row.supply.toNat).getD 0

/-- Legs that were executed and applied one after the other, with their transfers. -/
inductive LegRun (hash : Hash) (dom : UInt32) (store : CoreStore) :
    List Transfer → CoreStore → Prop
  | nil : LegRun hash dom store [] store
  | leg {transfers middle generation env legIndex leg ctx transfer maxReqs reqs reads resCap bytes
      out view after} (earlier : LegRun hash dom store transfers middle)
      (found : legAt env legIndex = some leg)
      (asks : transferOf generation env legIndex leg ctx = some transfer)
      (plan : coreReadPlan hash generation env legIndex ctx maxReqs = .ok reqs)
      (answered : reqs.mapM (readOne (coreAdapter hash dom) middle) = .ok reads)
      (accepted : coreExec hash generation env legIndex ctx reads resCap = .ok bytes)
      (decoded : decode bytes out = (true, view))
      (applied : effectsApply (coreAdapter hash dom) middle view = .ok after) :
      LegRun hash dom store (transfer :: transfers) after

theorem CoreStore.Backed.registers {entry : Option Entry} (backed : store.Backed)
    (others : ∀ token, token ≠ nativeToken →
      after.total token = store.total token + registeredIn token entry)
    (tokens : Registers store.tokens after.tokens entry) : after.Backed := by
  intro token other
  rw [others token other, backed token other]
  rcases entry with - | (t | _)
  · rw [show after.tokens = store.tokens from tokens]
    rfl
  · obtain ⟨fresh, row, inserted, supply⟩ := tokens
    rw [inserted, registeredIn]
    by_cases eq : t.tokenId = token
    · subst eq
      rw [AList.lookup_eq_none.mpr fresh, AList.lookup_insert]
      simp [amountIn, supply]
    · rw [AList.lookup_insert_ne (Ne.symm eq)]
      simp [amountIn, eq]
  · rw [show after.tokens = store.tokens from tokens]
    rfl

/-- Over every run of legs, the coins in a token stay worth its registered supply, and native
coins are lost and gained only by what the legs pay and release. -/
theorem legRun_supply {transfers : List Transfer} (backed : store.Backed)
    (run : LegRun hash dom store transfers after) : after.Backed ∧
      after.total nativeToken + (transfers.map fun t => t.moves.paid).sum =
        store.total nativeToken + (transfers.map fun t => t.moves.release).sum := by
  induction run with
  | nil => exact ⟨backed, rfl⟩
  | leg _ found asks plan answered passed read applied ih =>
    obtain ⟨backed, native⟩ := ih
    obtain ⟨_, eq, w, accepts, written, present⟩ :=
      written_of_leg found plan answered passed read applied
    obtain rfl := Option.some.inj (eq.symm.trans asks)
    have moved := accepts.native written present
    refine ⟨backed.registers (accepts.total written present) (accepts.entry ▸ written.tokens), ?_⟩
    rw [map_cons, map_cons, sum_cons, sum_cons]
    omega

theorem paymentStore_backed : paymentStore.Backed := by
  intro token other
  have foreign : (UtxoRow.mk domainCore heldCoin).worthIn token = 0 := if_neg (Ne.symm other)
  simp [CoreStore.total, Table.tally, paymentStore, foreign]

/-- The first leg of an envelope, from its plan to the store. -/
def runLeg (store : CoreStore) (env : EnvView) : Option (Transfer × CoreStore) := do
  let leg ← legAt env 0
  let transfer ← transferOf 1 env 0 leg paymentCtx
  let reqs ← (coreReadPlan residueHash 1 env 0 paymentCtx rtMaxReads).toOption
  let reads ← (reqs.mapM (readOne (coreAdapter residueHash domainCore) store)).toOption
  let bytes ← (coreExec residueHash 1 env 0 paymentCtx reads maxTotalLen).toOption
  if (decode bytes .zero).1 then
    let after ← (effectsApply (coreAdapter residueHash domainCore) store
      (decode bytes .zero).2).toOption
    return (transfer, after)
  else none

theorem legRun_of_runLeg {transfers : List Transfer} {middle : CoreStore} {env : EnvView}
    {transfer : Transfer} (earlier : LegRun residueHash domainCore store transfers middle)
    (ran : runLeg middle env = some (transfer, after)) :
    LegRun residueHash domainCore store (transfer :: transfers) after := by
  obtain ⟨leg, found, ran⟩ := Option.bind_eq_some_iff.mp ran
  obtain ⟨_, asks, ran⟩ := Option.bind_eq_some_iff.mp ran
  obtain ⟨reqs, plan, ran⟩ := Option.bind_eq_some_iff.mp ran
  obtain ⟨reads, answered, ran⟩ := Option.bind_eq_some_iff.mp ran
  obtain ⟨bytes, passed, ran⟩ := Option.bind_eq_some_iff.mp ran
  obtain ⟨read, ran⟩ := Option.ite_none_right_eq_some.mp ran
  obtain ⟨_, applied, ran⟩ := Option.bind_eq_some_iff.mp ran
  cases ran
  exact .leg earlier found asks (eq_ok_of_toOption plan) (eq_ok_of_toOption answered)
    (eq_ok_of_toOption passed) (Prod.ext read rfl) (eq_ok_of_toOption applied)

/-- A coin is paid on, and what was paid is paid on again. -/
theorem payment_supply : ∃ first second after,
    LegRun residueHash domainCore paymentStore [second, first] after ∧ after.Backed ∧
      after.total nativeToken + (second.moves.paid + first.moves.paid) =
        paymentStore.total nativeToken + (second.moves.release + first.moves.release) := by
  have known : ((runLeg paymentStore paymentEnv).bind fun middle => (runLeg middle.2
      (paymentOf (residueHash ((payment 4000000).owner.val ++ (payment 4000000).seed.val))
        3000000)).map fun after => (middle, after)).isSome = true := by decide +kernel
  obtain ⟨_, both⟩ := Option.isSome_iff_exists.mp known
  obtain ⟨⟨first, middle⟩, ran, both⟩ := Option.bind_eq_some_iff.mp both
  obtain ⟨⟨second, after⟩, ran', -⟩ := Option.map_eq_some_iff.mp both
  have run := legRun_of_runLeg (legRun_of_runLeg .nil ran) ran'
  obtain ⟨backed, native⟩ := legRun_supply paymentStore_backed run
  refine ⟨first, second, after, run, backed, ?_⟩
  simpa using native

end DnaLedger.Native
