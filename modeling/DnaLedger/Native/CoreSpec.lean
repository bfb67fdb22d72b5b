import DnaLedger.Native.CoinSums
import DnaLedger.Native.LegWrites

/-!
# What the executors ensure

Every executor of the CORE domain, when it accepts, returns the bytes of what a leg writes: the
listed coins are deleted, each was read, is unlocked and is granted by the owners of the leg, and
the amounts balance.
-/

namespace DnaLedger.Native

open DnaLedger.Effect Sorting Outcome List SupplySel

/-- The form of the answers: records have their length, a counter eight bytes, and the EVM's
reserve is there. -/
structure Answers (req : ReadReq) (res : ReadRes) : Prop where
  utxo : req.opId = CoreOp.utxo → res.present = true → res.value.length = utxoRecLen
  supply : req.opId = CoreOp.supply → res.present = true → res.value.length = 8
  reserve : req = ⟨CoreOp.supply, [SupplySel.evmReserve]⟩ → res.present = true
  named : req.opId = CoreOp.nameown → res.present = true →
    nameMinLen ≤ res.value.length ∧ res.value.length ≤ nameMaxLen

section

variable {req : ReadReq} {res : ReadRes}

def answerOf : Option Bytes → ReadRes
  | none => .absent
  | some value => ⟨true, value⟩

theorem of_readOne {σ : Type} {adapter : Adapter σ} {store : σ}
    (answered : readOne adapter store req = .ok res) :
    ∃ found, adapter.read store req.opId req.key = some found ∧ res = answerOf found := by
  obtain ⟨-, -, answered⟩ := bind_eq_ok.mp answered
  obtain ⟨op, -, answered⟩ := bind_eq_ok.mp answered
  obtain ⟨-, -, answered⟩ := bind_eq_ok.mp answered
  obtain ⟨found, read, answered⟩ := bind_eq_ok.mp answered
  refine ⟨found, orFail_eq_ok.mp read, ?_⟩
  cases found with
  | none => exact (Except.ok.inj answered).symm
  | some value =>
    obtain ⟨-, -, made⟩ := bind_eq_ok.mp answered
    exact (Except.ok.inj made).symm

theorem length_answerOf {α : Type} (layout : Layout α) {found : Option α}
    (present : (answerOf (found.map layout.write)).present = true) :
    (answerOf (found.map layout.write)).value.length = layout.width := by
  cases found with
  | none => cases present
  | some value => exact layout.length_write value

/-- The adapter's answers have that form when the row of the EVM's reserve exists. -/
theorem answers_of_readOne {hash : Hash} {dom : UInt32} {store : CoreStore}
    (reserved : store.evmReserve.isSome = true)
    (answered : readOne (coreAdapter hash dom) store req = .ok res) : Answers req res := by
  obtain ⟨found, read, rfl⟩ := of_readOne answered
  obtain ⟨opId, key⟩ := req
  have read : coreRead dom store opId key = some found := read
  constructor
  · rintro rfl
    rw [coreRead, if_pos (Or.inl rfl)] at read
    obtain ⟨coin, -, made⟩ := Option.bind_eq_some_iff.mp read
    cases made
    exact length_answerOf utxoLayout
  · rintro rfl
    rw [coreRead, if_neg (by decide), if_pos rfl] at read
    obtain ⟨sel, -, read⟩ := Option.bind_eq_some_iff.mp read
    obtain ⟨value, -, made⟩ := Option.bind_eq_some_iff.mp read
    cases made
    exact length_answerOf Layout.be64
  · rintro ⟨⟩
    obtain ⟨value, held⟩ := Option.isSome_iff_exists.mp reserved
    have fetched : coreSupplyFetch store evmReserve =
        if nonNegative value then some (some value) else none := by
      simp [coreSupplyFetch, CoreStore.counter, held, burned, pool, evmReserve]
    rw [coreRead, if_neg (by decide), if_pos rfl, selector, Option.bind_eq_bind, Option.bind_some,
      fetched] at read
    split at read <;> cases read
    rfl
  · rintro rfl
    change coreNameownFetch store key = some found at read
    obtain ⟨-, read⟩ := Option.ite_none_left_eq_some.mp read
    split at read
    next =>
      cases read
      exact nofun
    next =>
      obtain ⟨range, made⟩ := Option.ite_none_right_eq_some.mp read
      cases made
      exact fun _ => range

end

def utxoReq (id : Digest) : ReadReq := ⟨CoreOp.utxo, id.val⟩

def supplyReq (sel : UInt8) : ReadReq := ⟨CoreOp.supply, [sel]⟩

/-- The requests for the coins of a call, and what else is asked for. -/
def planFor (c : SpendCall) (rest : List ReadReq) : List ReadReq :=
  c.ins.map utxoReq ++ rest

theorem xferReads_eq (c : SpendCall) (withBurned : Bool) :
    xferReads c withBurned =
      planFor c (if withBurned then [supplyReq burned, supplyReq pool] else [supplyReq pool]) := by
  rw [xferReads, append_assoc]
  cases withBurned <;> rfl

theorem planFor_append (c : SpendCall) (rest more : List ReadReq) :
    planFor c rest ++ more = planFor c (rest ++ more) :=
  append_assoc _ _ _

variable {reads : List ReadRes}
  {i : Nat} {req : ReadReq} {owner : OwnerHex} {height : UInt64} {r : ReadRes} {β : Type}
  {reliable : Prop} {coins : List NewCoin} {sel : UInt8}

theorem answers_readAt {reqs : List ReadReq} (all : Forall₂ Answers reqs reads)
    (found : reqs[i]? = some req) : Answers req (readAt reads i) := by
  induction all generalizing i with
  | nil => cases found
  | cons head _ ih =>
    cases i with
    | zero =>
      cases found
      exact head
    | succ i => exact ih found

section

variable {c : SpendCall} {rest : List ReadReq} {reads : List ReadRes}
  (all : List.Forall₂ Answers (planFor c rest) reads)

include all

theorem length_of_plan : reads.length = c.ins.length + rest.length := by
  rw [← all.length_eq, planFor, length_append, length_map]

theorem answers_of_plan {k : Nat} (found : rest[k]? = some req) :
    Answers req (readAt reads (c.ins.length + k)) := by
  apply answers_readAt all
  rw [planFor, getElem?_append_right (by rw [length_map]; omega), length_map,
    Nat.add_sub_cancel_left, found]

/-- Coins that are found have the length of a record. -/
def InputsOk (reads : List ReadRes) : Prop :=
  ∀ r ∈ reads, r.present = true → r.value.length = utxoRecLen

theorem inputsOk_of_plan : InputsOk (reads.take c.ins.length) := by
  intro r mem
  obtain ⟨i, found⟩ := mem_iff_getElem?.mp mem
  rw [getElem?_take] at found
  split at found
  next below =>
    have asked : (planFor c rest)[i]? = some (utxoReq (c.ins.get ⟨i, below⟩)) := by
      rw [planFor, getElem?_append_left (by rwa [length_map]), getElem?_map,
        getElem?_eq_getElem below]
      rfl
    have answer := answers_readAt all asked
    have eq : readAt reads i = r := by
      rw [readAt, getD_eq_getElem?_getD, found]
      rfl
    rw [eq] at answer
    exact answer.utxo rfl
  next => cases found

end

/-- The owner is one of the signers, or the address of a descriptor that is satisfied. -/
def Owners.Grants (own : Owners) (owner : OwnerHex) : Prop :=
  owner ∈ own.sig ∨ (owner, true) ∈ own.msig.map fun m => (m.hex, m.sat)

theorem of_msigOwned {msig next : List MsigOwner} (owned : msigOwned owner msig = some next) :
    (owner, true) ∈ msig.map (fun m => (m.hex, m.sat)) ∧
      next.map (fun m => (m.hex, m.sat)) = msig.map fun m => (m.hex, m.sat) := by
  induction msig generalizing next with
  | nil => cases owned
  | cons m rest ih =>
    rw [msigOwned] at owned
    split at owned
    next eq =>
      split at owned
      next satisfied =>
        cases owned
        rw [map_cons, map_cons, eq, satisfied]
        exact ⟨mem_cons_self, rfl⟩
      next => cases owned
    next =>
      obtain ⟨later, step, rfl⟩ := Option.map_eq_some_iff.mp owned
      obtain ⟨inside, kept⟩ := ih step
      rw [map_cons, map_cons, kept]
      exact ⟨mem_cons_of_mem _ inside, rfl⟩

variable {own : Owners}

theorem of_inputOwned {next : Owners} (owned : inputOwned own owner = some next) :
    own.Grants owner ∧ ∀ other, next.Grants other ↔ own.Grants other := by
  rw [inputOwned] at owned
  split at owned
  next signer =>
    cases owned
    exact ⟨Or.inl signer, fun _ => Iff.rfl⟩
  next =>
    obtain ⟨msig, step, rfl⟩ := Option.map_eq_some_iff.mp owned
    obtain ⟨inside, kept⟩ := of_msigOwned step
    refine ⟨Or.inr inside, fun other => ?_⟩
    rw [Owners.Grants, Owners.Grants, kept]

def foundCoin (coin : UtxoRec) : ReadRes := ⟨true, utxoLayout.write coin⟩

def Spendable (height : UInt64) (own : Owners) (coin : UtxoRec) : Prop :=
  coin.unlockBlock < height ∧ own.Grants coin.owner

theorem ensures_takeInput :
    Ensures (r.present = true → r.value.length = utxoRecLen) (takeInput height own r)
      fun taken => r = foundCoin taken.2 ∧ Spendable height own taken.2 ∧
        ∀ other, taken.1.Grants other ↔ own.Grants other := by
  refine ensures_unless fun absent => ?_
  have present := of_not_bnot absent
  refine (ensures_faultWhen fun wrong reliable => wrong (reliable present)).bind fun _ length => ?_
  refine ensures_unless fun locked => ?_
  refine ensures_given fun next owned => ?_
  have length : r.value.length = utxoRecLen := of_not_not length
  obtain ⟨granted, eq⟩ := of_inputOwned owned
  refine ensures_pure ⟨?_, ⟨UInt64.not_le.mp locked, granted⟩, eq⟩
  have written : utxoLayout.write (utxoLayout.read r.value) = r.value.take utxoRecLen :=
    utxoLayout.write_read r.value length.ge
  rw [foundCoin, written, take_of_length_le length.le, ← present]

/-- The loop over the inputs finds a spendable coin in every answer and counts them all. -/
theorem ensures_spendInputs {count : β → UtxoRec → Option β} {sums : β} :
    Ensures (InputsOk reads) (spendInputs height count own sums reads)
      fun result => ∃ coins : List UtxoRec, reads = coins.map foundCoin ∧
        (∀ coin ∈ coins, Spendable height own coin) ∧
        coins.foldlM count sums = some result.2 := by
  induction reads generalizing own sums with
  | nil => exact ensures_ok ⟨[], rfl, fun _ mem => absurd mem not_mem_nil, rfl⟩
  | cons r rest ih =>
    have tailOk : InputsOk (r :: rest) → InputsOk rest :=
      fun all later mem => all later (mem_cons_of_mem r mem)
    refine (ensures_takeInput.relying fun all => all r mem_cons_self).bind ?_
    intro taken ⟨found, spendable, eq⟩
    refine ensures_given fun next counted => ?_
    refine (ih.relying tailOk).mono ?_
    intro result ⟨coins, others, spendables, total⟩
    refine ⟨taken.2 :: coins, ?_, ?_, ?_⟩
    · rw [found, others]
      rfl
    · refine forall_mem_cons.mpr ⟨spendable, fun coin later => ?_⟩
      obtain ⟨unlocked, granted⟩ := spendables coin later
      exact ⟨unlocked, (eq _).mp granted⟩
    · rw [foldlM_cons, counted]
      exact total

theorem comparesBy_id :
    ComparesBy (fun key last : NewCoin => decide (key.id.val < last.id.val))
      fun coin => coin.id.val :=
  fun _ _ => decide_eq_true_iff

theorem ensures_sortCoins :
    Ensures reliable (sortCoins coins)
      fun sorted => sorted.Perm coins ∧ SortedBy (fun coin => coin.id.val) sorted := by
  refine ensures_unless fun differ => ?_
  refine ensures_pure ⟨insertionSort_perm _ _, ?_⟩
  refine sortedBy_of_differing comparesBy_id ?_ _
    (insertionSort_sorted comparesBy_id.strictWeak coins) (of_not_bnot differ)
  intro first second
  rw [bne_iff_ne, ne_eq, Subtype.ext_iff]

def NewCoin.held (coin : NewCoin) : Digest × UInt64 := (coin.token, coin.amount)

def SpendOut.held (out : SpendOut) : Digest × UInt64 := (out.token, out.amount)

def UtxoRec.held (coin : UtxoRec) : Digest × UInt64 := (coin.token, coin.amount)

theorem map_held_coinsOf (hash : Hash) (outs : List SpendOut) :
    (coinsOf hash outs).map NewCoin.held = outs.map SpendOut.held := by
  rw [coinsOf, map_map]
  exact map_zipIdx_fst outs SpendOut.held

@[simp] theorem length_coinsOf (hash : Hash) (outs : List SpendOut) :
    (coinsOf hash outs).length = outs.length := by
  rw [coinsOf, length_map, length_zipIdx]

theorem ensures_supplyAddEff {delta : UInt64} :
    Ensures (r.present = true → r.value.length = 8) (supplyAddEff r delta sel)
      fun effect => ∃ counter : Counter, counter.sel = sel ∧ effect = counter.effect ∧
        counter.new.toNat = counter.old.toNat + delta.toNat := by
  refine ensures_unless fun absent => ?_
  have present := of_not_bnot absent
  refine (ensures_faultWhen fun wrong reliable => wrong (reliable present)).bind fun _ _ => ?_
  refine ensures_given fun new added => ?_
  exact ensures_pure ⟨⟨sel, Layout.be64.read r.value, new⟩, rfl, rfl, toNat_of_ckAdd added⟩

theorem utxoDeletes_eq {hash : Hash} {ins : List Digest} {coins : List UtxoRec}
    (found : reads.take ins.length = coins.map foundCoin) :
    utxoDeletes hash ins reads = (ins.zip coins).map (spentEff hash) := by
  induction ins generalizing reads coins with
  | nil => rfl
  | cons id rest ih =>
    cases reads with
    | nil =>
      cases coins with
      | nil => rfl
      | cons coin later => cases found
    | cons r reads =>
      cases coins with
      | nil => cases found
      | cons coin later =>
        rw [length_cons, take_succ_cons, map_cons] at found
        obtain ⟨head, tail⟩ := cons.inj found
        rw [zip_cons_cons, map_cons, ← ih tail, head]
        rfl

theorem sortedBy_ins (c : SpendCall) : SortedBy (fun id => id.val) c.ins := by
  have ok := c.ok
  rw [sectionOk, Bool.and_eq_true] at ok
  exact sortedBy_of_ascending (fun _ _ => decide_eq_true_iff) ok.1

/-! ## What an accepted leg does -/

structure Moves where
  fee : Nat
  price : Nat
  burn : Nat
  lock : Nat
  release : Nat
  deriving DecidableEq

/-- The supply of a token that is registered with an entry. -/
def registeredIn (token : Digest) : Option Entry → Nat
  | some (.token t) => amountIn token t.tokenId t.minted.amount
  | _ => 0

def LegWrites.minted (w : LegWrites) (token : Digest) : Nat :=
  registeredIn token w.entry

def LegWrites.spentHeld (w : LegWrites) : List (Digest × UInt64) :=
  w.spent.map fun row => row.2.held

def LegWrites.madeHeld (w : LegWrites) : List (Digest × UInt64) :=
  w.coins.map NewCoin.held

/-- Native coins are spent for native coins and what the leg moves, others for coins in the same
token and what is registered. -/
structure Balanced (w : LegWrites) (moves : Moves) : Prop where
  native : worth nativeToken w.spentHeld + moves.release =
    worth nativeToken w.madeHeld + moves.fee + moves.price + moves.burn + moves.lock
  others : ∀ token ≠ nativeToken,
    worth token w.madeHeld = worth token w.spentHeld + w.minted token

/-- What a leg asks for: the coins of its call, a row to register and what it moves. -/
structure Transfer where
  call : SpendCall
  entry : Option Entry
  moves : Moves

/-- The bytes are those of what a leg writes, and it spends the coins of the call as read. -/
structure Accepts (hash : Hash) (ctx : ExecCtx) (own : Owners) (reads : List ReadRes)
    (transfer : Transfer) (w : LegWrites) (bytes : Bytes) : Prop where
  bytes_eq : bytes = resultBytes (w.effects hash ctx)
  ids : w.spent.map Prod.fst = transfer.call.ins
  entry : w.entry = transfer.entry
  found : reads.take transfer.call.ins.length = w.spent.map fun row => foundCoin row.2
  spendable : ∀ row ∈ w.spent, Spendable ctx.globalHeight own row.2
  balanced : Balanced w transfer.moves

theorem sortedBy_zip {ids : List Digest} (sorted : SortedBy (fun id => id.val) ids)
    (coins : List UtxoRec) : SortedBy (fun row => row.1.val) (ids.zip coins) := by
  induction ids generalizing coins with
  | nil => exact .nil
  | cons id rest ih =>
    cases coins with
    | nil => exact .nil
    | cons coin later =>
      obtain ⟨head, tail⟩ := pairwise_cons.mp sorted
      refine pairwise_cons.mpr ⟨?_, ih tail later⟩
      rintro ⟨other, held⟩ mem
      exact head other (of_mem_zip mem).1

/-- The writes of a call whose coins were read. -/
def SpendCall.writes (c : SpendCall) (few : c.ins.length ≤ spendMaxIn) (recs : List UtxoRec)
    (coins : List NewCoin) (sorted : SortedBy (fun coin => coin.id.val) coins)
    (short : coins.length ≤ spendMaxOut + 1) (entry : Option Entry) (counters : List Counter)
    (ordered : SortedBy Counter.sel counters) (atMost : counters.length ≤ 2) : LegWrites where
  coins := coins
  entry := entry
  counters := counters
  spent := c.ins.zip recs
  coins_sorted := sorted
  counters_sorted := ordered
  spent_sorted := sortedBy_zip (sortedBy_ins c) recs
  coins_few := short
  counters_few := atMost
  spent_few := by
    rw [length_zip]
    exact (Nat.min_le_left _ _).trans few

section

variable {hash : Hash} {fee : UInt64} {ctx : ExecCtx} {own : Owners} {reads : List ReadRes}
  {c : SpendCall} {recs : List UtxoRec} {w : LegWrites} {moves : Moves} {resCap : Nat}

theorem map_snd_spent (length : recs.length = c.ins.length) (image : UtxoRec → β) :
    (c.ins.zip recs).map (fun row => image row.2) = recs.map image := by
  rw [show (fun row : Digest × UtxoRec => image row.2) = image ∘ Prod.snd from rfl,
    ← map_map, map_snd_zip length.le]

theorem ensures_finish {effects : List EffectIn} (spent : w.spent = c.ins.zip recs)
    (found : reads.take c.ins.length = recs.map foundCoin) (long : c.ins.length ≤ reads.length)
    (spendable : ∀ coin ∈ recs, Spendable ctx.globalHeight own coin)
    (balanced : w.spentHeld = recs.map UtxoRec.held → Balanced w moves)
    (eq : effects = w.coins.map (utxoCreateEff ctx) ++
      (w.entry.toList.map (Entry.effect ctx) ++ w.counters.map Counter.effect) ++
        utxoDeletes hash c.ins reads) :
    Ensures (maxTotalLen ≤ resCap) (resultEncode effects resCap)
      fun bytes => ∃ writes, Accepts hash ctx own reads ⟨c, w.entry, moves⟩ writes bytes := by
  have length : recs.length = c.ins.length := by
    have lengths := congrArg length found
    rw [length_take_of_le long, length_map] at lengths
    exact lengths.symm
  rw [utxoDeletes_eq found, ← spent] at eq
  subst eq
  refine (ensures_orFault fun refused room => ?_).mono fun bytes encoded =>
    ⟨w, (encode_eq_some.mp encoded).2.2.symm, ?_, rfl, ?_, ?_, balanced ?_⟩
  · have valid := w.valid hash ctx
    have encoded := encode_eq_some.mpr ⟨valid, valid.fits.trans room, rfl⟩
    cases refused.symm.trans encoded
  · rw [spent, map_fst_zip length.ge]
  · rw [spent, map_snd_spent length, found]
  · rw [spent]
    rintro ⟨id, coin⟩ mem
    exact spendable coin (of_mem_zip mem).2
  · rw [LegWrites.spentHeld, spent, map_snd_spent length]

variable {total : UInt64} {released : List NewCoin}

theorem balanced_of_native (counted : recs.foldlM countNative 0 = some total)
    (native : total.toNat + moves.release =
      worth nativeToken w.madeHeld + moves.fee + moves.price + moves.burn + moves.lock)
    (others : ∀ token ≠ nativeToken, worth token w.madeHeld = w.minted token)
    (spent : w.spentHeld = recs.map UtxoRec.held) : Balanced w moves := by
  obtain ⟨natives, sum⟩ := of_foldlM_countNative counted
  have tokens : ∀ held ∈ recs.map UtxoRec.held, held.1 = nativeToken := by
    intro held mem
    obtain ⟨coin, inside, rfl⟩ := mem_map.mp mem
    exact natives coin inside
  constructor
  · rw [spent, worth_eq_sum tokens, map_map]
    rw [sum, UInt64.toNat_zero, Nat.zero_add] at native
    exact native
  · intro token other
    rw [spent, worth_eq_zero fun held mem => (tokens held mem).trans_ne other.symm, Nat.zero_add]
    exact others token other

theorem balanced_of_tallied {toks : List TokSum} {burnAmount destroyed : UInt64}
    (tallied : Tallied toks (recs.map UtxoRec.held) (c.outs.map SpendOut.held))
    (balanced : toks.all (tokBalanced destroyed) = true)
    (burned : ckAdd fee burnAmount = some destroyed)
    (made : ∀ token, worth token w.madeHeld = worth token (c.outs.map SpendOut.held))
    (noEntry : w.entry = none) (spent : w.spentHeld = recs.map UtxoRec.held) :
    Balanced w ⟨fee.toNat, 0, burnAmount.toNat, 0, 0⟩ := by
  obtain ⟨native, others⟩ := tallied.balanced balanced
  rw [toNat_of_ckAdd burned] at native
  constructor
  · rw [spent, made, native]
    dsimp only
    omega
  · intro token other
    rw [spent, made, others token other, LegWrites.minted, noEntry]
    rfl

variable {outs : List SpendOut}

theorem worth_made (perm : coins.Perm (coinsOf hash outs ++ released)) (token : Digest) :
    worth token (coins.map NewCoin.held) =
      worth token (outs.map SpendOut.held) + worth token (released.map NewCoin.held) := by
  rw [worth_perm (perm.map NewCoin.held), map_append, worth_append, map_held_coinsOf]

section

variable (native : nativeOuts outs = true)

include native

theorem mem_held_of_native : ∀ held ∈ outs.map SpendOut.held, held.1 = nativeToken := by
  intro held mem
  obtain ⟨out, inside, rfl⟩ := mem_map.mp mem
  exact eq_of_beq (all_eq_true.mp native out inside)

theorem worth_native_outs {sum : UInt64} (summed : sumOuts outs = some sum) :
    worth nativeToken (outs.map SpendOut.held) = sum.toNat := by
  rw [worth_eq_sum (mem_held_of_native native), map_map, toNat_of_foldlM_ckAdd summed,
    UInt64.toNat_zero, Nat.zero_add]
  rfl

theorem worth_other_outs {token : Digest} (other : token ≠ nativeToken) :
    worth token (outs.map SpendOut.held) = 0 :=
  worth_eq_zero fun held mem => (mem_held_of_native native held mem).trans_ne other.symm

end

/-- The coins that a leg releases are native and make up the amount. -/
structure Released (coins : List NewCoin) (amount : UInt64) : Prop where
  few : coins.length ≤ 1
  native : worth nativeToken (coins.map NewCoin.held) = amount.toNat
  others : ∀ token ≠ nativeToken, worth token (coins.map NewCoin.held) = 0

theorem eq_zero_of_not_pos {amount : UInt64} (nothing : ¬ 0 < amount) : amount = 0 :=
  UInt64.toNat_inj.mp (Nat.eq_zero_of_not_pos fun pos =>
    nothing (UInt64.lt_iff_toNat_lt.mpr pos))

theorem released_none : Released [] 0 :=
  ⟨Nat.zero_le 1, rfl, fun _ _ => rfl⟩

theorem released_one {coin : NewCoin} (native : coin.token = nativeToken) :
    Released [coin] coin.amount := by
  refine ⟨le_rfl, ?_, ?_⟩
  · rw [map_singleton, worth_cons, NewCoin.held, if_pos native]
    rfl
  · intro token other
    rw [map_singleton, worth_cons, NewCoin.held, native, if_neg other.symm]
    rfl

theorem balanced_of_call {made release : UInt64}
    {fee price lock : Nat} (counted : recs.foldlM countNative 0 = some total)
    (perm : coins.Perm (coinsOf hash outs ++ released)) (rel : Released released release)
    (native : nativeOuts outs = true) (summed : sumOuts outs = some made)
    (coins_eq : w.coins = coins) (noToken : ∀ token, w.minted token = 0)
    (eq : total.toNat = made.toNat + fee + price + lock)
    (spent : w.spentHeld = recs.map UtxoRec.held) :
    Balanced w ⟨fee, price, 0, lock, release.toNat⟩ := by
  refine balanced_of_native counted ?_ ?_ spent
  · rw [LegWrites.madeHeld, coins_eq, worth_made perm, worth_native_outs native summed, rel.native]
    dsimp only
    omega
  · intro token other
    rw [LegWrites.madeHeld, coins_eq, worth_made perm, worth_other_outs native other,
      rel.others token other, noToken]

end

/-! ## The executors -/

variable {hash : Hash} {fee : UInt64} {ctx : ExecCtx} {own : Owners} {reads : List ReadRes}
  {resCap : Nat}

/-- What an executor relies on: the answers to its plan, and room for a result. -/
structure Reliable (c : SpendCall) (rest : List ReadReq) (reads : List ReadRes) (resCap : Nat) :
    Prop where
  answers : Forall₂ Answers (planFor c rest) reads
  room : maxTotalLen ≤ resCap

variable {c : SpendCall}

theorem Reliable.counter {rest : List ReadReq} (reliable : Reliable c rest reads resCap) (k : Nat)
    (place : i = c.ins.length + k)
    (found : rest[k]? = some (supplyReq sel)) :
    (readAt reads i).present = true → (readAt reads i).value.length = 8 := by
  subst place
  exact (answers_of_plan reliable.answers found).supply rfl

theorem sortedBy_singleton (counter : Counter) : SortedBy Counter.sel [counter] :=
  pairwise_singleton _ _

theorem sortedBy_pair {first second : Counter} (less : first.sel < second.sel) :
    SortedBy Counter.sel [first, second] :=
  pairwise_pair.mpr less

theorem length_sorted {released : List NewCoin} {outs : List SpendOut}
    (perm : coins.Perm (coinsOf hash outs ++ released)) (fewOut : outs.length ≤ spendMaxOut)
    (atMost : released.length ≤ 1) : coins.length ≤ spendMaxOut + 1 := by
  rw [perm.length_eq, length_append, length_coinsOf]
  omega

def transferRest (burnAmount : UInt64) : List ReadReq :=
  if 0 < burnAmount then [supplyReq burned, supplyReq pool]
  else [supplyReq pool]

theorem ensures_xferExec (few : c.ins.length ≤ spendMaxIn) (fewOut : c.outs.length ≤ spendMaxOut)
    (burnAmount : UInt64) :
    Ensures (Reliable c (transferRest burnAmount) reads resCap)
      (xferExec hash fee ctx own reads resCap c burnAmount) fun bytes =>
        ∃ w, Accepts hash ctx own reads
          ⟨c, none, ⟨fee.toNat, 0, burnAmount.toNat, 0, 0⟩⟩ w bytes := by
  rw [xferExec, transferRest]
  refine (ensures_faultWhen ?_).bind fun _ count => ?_
  · intro wrong reliable
    apply wrong
    rw [length_of_plan reliable.answers]
    split <;> rfl
  have long : c.ins.length ≤ reads.length := by omega
  refine (ensures_spendInputs.relying fun reliable => inputsOk_of_plan reliable.answers).bind ?_
  rintro ⟨left, toks⟩ ⟨recs, found, spendable, counted⟩
  refine ensures_unless fun _ => ?_
  refine ensures_given fun next made => ?_
  refine ensures_unless fun _ => ?_
  refine ensures_given fun destroyed burned => ?_
  refine ensures_unless fun unbalanced => ?_
  refine ensures_sortCoins.bind fun coins ⟨perm, sorted⟩ => ?_
  have tallied := (tallied_start.foldlM_spend counted).foldlM_make made
  have balanced := of_not_bnot unbalanced
  have worths : ∀ token, worth token (coins.map NewCoin.held) =
      worth token (c.outs.map SpendOut.held) := by
    intro token
    rw [← map_held_coinsOf hash]
    exact worth_perm (perm.map NewCoin.held)
  rw [← append_nil (coinsOf hash c.outs)] at perm
  have short := length_sorted perm fewOut (Nat.zero_le 1)
  by_cases isBurn : 0 < burnAmount
  · rw [if_pos isBurn, if_pos isBurn, if_pos isBurn]
    refine ((ensures_supplyAddEff.relying fun reliable => reliable.counter 0 rfl rfl).map _).bind ?_
    rintro _ ⟨_, ⟨burnedCounter, burnedSel, rfl, -⟩, rfl⟩
    refine (ensures_supplyAddEff.relying fun reliable => reliable.counter 1 rfl rfl).bind ?_
    rintro _ ⟨poolCounter, poolSel, rfl, -⟩
    have ordered : SortedBy Counter.sel [burnedCounter, poolCounter] :=
      sortedBy_pair (by rw [burnedSel, poolSel]; decide)
    let w := c.writes few recs coins sorted short none _ ordered le_rfl
    have amounts : w.spentHeld = recs.map UtxoRec.held → Balanced w _ :=
      balanced_of_tallied tallied balanced burned worths rfl
    exact (ensures_finish rfl found long spendable amounts rfl).relying Reliable.room
  · rw [if_neg isBurn, if_neg isBurn, if_neg isBurn]
    refine Ensures.after_ok ?_
    refine (ensures_supplyAddEff.relying fun reliable => reliable.counter 0 rfl rfl).bind ?_
    rintro _ ⟨poolCounter, -, rfl, -⟩
    let w := c.writes few recs coins sorted short none [poolCounter] (sortedBy_singleton _)
      (Nat.le_succ 1)
    have amounts : w.spentHeld = recs.map UtxoRec.held → Balanced w _ :=
      balanced_of_tallied tallied balanced burned worths rfl
    exact (ensures_finish rfl found long spendable amounts rfl).relying Reliable.room

theorem worth_held_minted (t : TcCall) :
    worth nativeToken (t.xfer.outs.map SpendOut.held) =
        worth nativeToken (t.change.map SpendOut.held) ∧
      ∀ token ≠ nativeToken, worth token (t.xfer.outs.map SpendOut.held) =
        amountIn token t.tokenId t.minted.amount := by
  rw [t.outs_eq, map_cons]
  constructor
  · have other : t.minted.token ≠ nativeToken := t.minted_token ▸ t.tokenId_ne
    rw [worth_cons, SpendOut.held, if_neg other, Nat.zero_add]
  · intro token other
    rw [worth_cons, worth_other_outs t.native_change other, SpendOut.held, t.minted_token,
      Nat.add_zero]

theorem ensures_tcExec {t : TcCall} (few : t.xfer.ins.length ≤ spendMaxIn)
    (fewOut : t.xfer.outs.length ≤ spendMaxOut) :
    Ensures (Reliable t.xfer [supplyReq pool, ⟨CoreOp.token, t.tokenId.val⟩] reads resCap)
      (tcExec hash fee ctx own reads resCap t) fun bytes =>
        ∃ w, Accepts hash ctx own reads
          ⟨t.xfer, some (.token t), ⟨fee.toNat, 0, 0, 0, 0⟩⟩ w bytes := by
  rw [tcExec]
  refine (ensures_faultWhen ?_).bind fun _ count => ?_
  · intro wrong reliable
    exact wrong (length_of_plan reliable.answers)
  have long : t.xfer.ins.length ≤ reads.length := by omega
  refine ensures_unless fun _ => ?_
  refine (ensures_spendInputs.relying fun reliable => inputsOk_of_plan reliable.answers).bind ?_
  rintro ⟨left, nativeIn⟩ ⟨recs, found, spendable, counted⟩
  refine ensures_unless fun _ => ?_
  refine (ensures_faultWhen ?_).bind fun _ _ => ?_
  · intro low
    exact absurd ctx.governed.tokenCreateFee_ok (UInt64.not_le.mpr low)
  refine ensures_unless fun _ => ?_
  refine ensures_given fun nativeOut summed => ?_
  refine ensures_given fun need added => ?_
  refine ensures_unless fun eq => ?_
  refine ensures_sortCoins.bind fun coins ⟨perm, sorted⟩ => ?_
  refine (ensures_supplyAddEff.relying fun reliable => reliable.counter 0 rfl rfl).bind ?_
  rintro _ ⟨poolCounter, -, rfl, -⟩
  rw [← append_nil (coinsOf hash t.xfer.outs)] at perm
  obtain ⟨native, others⟩ := worth_held_minted t
  let w := t.xfer.writes few recs coins sorted (length_sorted perm fewOut (Nat.zero_le 1))
    (some (.token t)) [poolCounter] (sortedBy_singleton _) (Nat.le_succ 1)
  have amounts : w.spentHeld = recs.map UtxoRec.held → Balanced w ⟨fee.toNat, 0, 0, 0, 0⟩ := by
    refine balanced_of_native counted ?_ ?_
    · have total := toNat_of_ckAdd added
      rw [← of_not_not eq] at total
      rw [total]
      show _ = worth nativeToken (coins.map NewCoin.held) + _ + _ + _ + _
      rw [worth_made perm, native, worth_native_outs t.native_change summed]
      rfl
    · intro token other
      show worth token (coins.map NewCoin.held) = _
      rw [worth_made perm, others token other]
      rfl
  exact (ensures_finish rfl found long spendable amounts rfl).relying Reliable.room

theorem foldl_max_mem (first : UInt64) (rest : List UInt64) :
    rest.foldl (fun most price => if most < price then price else most) first ∈ first :: rest := by
  induction rest generalizing first with
  | nil => exact mem_cons_self
  | cons price rest ih =>
    rw [foldl_cons]
    split
    · exact mem_cons_of_mem _ (ih price)
    · exact cons_subset_cons _ (subset_cons_self _ _) (ih first)

theorem namePriceForLen_mem {prices : List UInt64} (four : prices.length = 4) (name : NameText) :
    namePriceForLen prices name.val.length ∈ prices := by
  obtain ⟨low, high⟩ := length_name name
  rw [nameMinLen] at low
  rw [namePriceForLen, if_neg (by rw [nameMinLen]; omega)]
  split
  next empty =>
    have short := congrArg length empty
    rw [length_drop, four, length_nil] at short
    split at short <;> omega
  next first rest tiers =>
    have mem := foldl_max_mem first rest
    rw [← tiers] at mem
    exact mem_of_mem_drop mem

theorem ensures_nameExec {nc : NameCall} {owner : Digest} {legCount : UInt16}
    (few : nc.xfer.ins.length ≤ spendMaxIn) (fewOut : nc.xfer.outs.length ≤ spendMaxOut) :
    Ensures (Reliable nc.xfer.toSpendCall [supplyReq pool, ⟨CoreOp.name, nc.name.val⟩,
        ⟨CoreOp.nameown, owner.val⟩] reads resCap)
      (nameExec hash fee ctx own reads resCap legCount nc owner) fun bytes =>
        ∃ w, Accepts hash ctx own reads
          ⟨nc.xfer.toSpendCall, some (.name nc.name owner),
            ⟨fee.toNat, nc.price.toNat, 0, 0, 0⟩⟩ w bytes := by
  rw [nameExec]
  refine (ensures_faultWhen ?_).bind fun _ count => ?_
  · intro wrong reliable
    exact wrong (length_of_plan reliable.answers)
  have long : nc.xfer.ins.length ≤ reads.length := by omega
  refine ensures_unless fun _ => ?_
  refine ensures_unless fun _ => ?_
  refine ensures_unless fun _ => ?_
  refine ensures_unless fun _ => ?_
  refine (ensures_faultWhen ?_).bind fun _ _ => ?_
  · intro outside
    obtain ⟨price, mem, wrong⟩ := any_eq_true.mp outside
    obtain ⟨low, high⟩ := ctx.governed.namePrice_ok price mem
    rw [Bool.or_eq_true, decide_eq_true_iff, decide_eq_true_iff] at wrong
    rcases wrong with below | above
    · exact absurd low (UInt64.not_le.mpr below)
    · exact absurd high (UInt64.not_le.mpr above)
  refine (ensures_faultWhen ?_).bind fun _ _ => ?_
  · intro free
    have mem := namePriceForLen_mem ctx.governed.length_namePrice nc.name
    have low := (ctx.governed.namePrice_ok _ mem).1
    rw [free] at low
    exact absurd low (by decide)
  refine ensures_unless fun priced => ?_
  refine (ensures_spendInputs.relying fun reliable => inputsOk_of_plan reliable.answers).bind ?_
  rintro ⟨left, nativeIn⟩ ⟨recs, found, spendable, counted⟩
  refine ensures_unless fun _ => ?_
  refine ensures_given fun nativeOut summed => ?_
  refine ensures_given fun credit credited => ?_
  refine ensures_given fun need added => ?_
  refine ensures_unless fun eq => ?_
  refine ensures_sortCoins.bind fun coins ⟨perm, sorted⟩ => ?_
  refine (ensures_supplyAddEff.relying fun reliable => reliable.counter 0 rfl rfl).bind ?_
  rintro _ ⟨poolCounter, -, rfl, -⟩
  rw [← append_nil (coinsOf hash nc.xfer.outs)] at perm
  let w := nc.xfer.toSpendCall.writes few recs coins sorted
    (length_sorted perm fewOut (Nat.zero_le 1)) (some (.name nc.name owner)) [poolCounter]
    (sortedBy_singleton _) (Nat.le_succ 1)
  have amounts : w.spentHeld = recs.map UtxoRec.held →
      Balanced w ⟨fee.toNat, nc.price.toNat, 0, 0, 0⟩ := by
    refine balanced_of_call (foldlM_countNative_of_countOwn counted) perm released_none
      nc.xfer.native summed rfl (fun _ => rfl) ?_
    have total := toNat_of_ckAdd added
    rw [← of_not_not eq, toNat_of_ckAdd credited, ← of_not_not priced] at total
    dsimp only
    omega
  exact (ensures_finish rfl found long spendable amounts rfl).relying Reliable.room

/-! ### Funding legs -/

variable {sys : LegView} {generation : Nat}

theorem ensures_sysfundNameGate :
    Ensures reliable (sysfundNameGate hash sys ctx generation)
      fun gate => sysfundNameGate hash sys ctx generation = .ok gate := by
  refine ⟨fun _ eq => eq, fun faulted => ?_⟩
  have never : Ensures True (sysfundNameGate hash sys ctx generation) fun _ => True := by
    rw [sysfundNameGate]
    split
    next => exact ensures_ok trivial
    next =>
      split
      next => exact ensures_ok trivial
      next =>
        split
        next => exact ensures_given fun _ _ => ensures_pure trivial
        next =>
          refine ensures_given fun d _ => ?_
          split
          next => exact ensures_pure trivial
          next => exact ensures_pure trivial
  exact absurd trivial (never.sound faulted)

def gateReqs (gate : Option Digest) : List ReadReq :=
  (gate.map fun fp => (⟨CoreOp.nameown, fp.val⟩ : ReadReq)).toList

theorem length_gateReqs (gate : Option Digest) :
    (gateReqs gate).length = if gate.isSome then 1 else 0 := by
  cases gate <;> rfl

/-- What a SYSFUND leg relies on: the answers to the plan with the name that is asked for. -/
def ReliableGate (hash : Hash) (ctx : ExecCtx) (sys : LegView) (generation : Nat) (c : SpendCall)
    (reads : List ReadRes) (resCap : Nat) : Prop :=
  ∃ gate, sysfundNameGate hash sys ctx generation = .ok gate ∧
    Reliable c (supplyReq pool :: gateReqs gate) reads resCap

theorem ReliableGate.at_gate {gate : Option Digest}
    (reliable : ReliableGate hash ctx sys generation c reads resCap)
    (gated : sysfundNameGate hash sys ctx generation = .ok gate) :
    Reliable c (supplyReq pool :: gateReqs gate) reads resCap := by
  obtain ⟨other, eq, answers⟩ := reliable
  obtain rfl := Except.ok.inj (gated.symm.trans eq)
  exact answers

theorem ensures_sysfundReleased {release : UInt64} :
    Ensures reliable (sysfundReleased hash ctx sys generation release)
      fun released => Released released release := by
  rw [sysfundReleased]
  split
  next =>
    refine (ensures_orReject.map singleton).mono ?_
    rintro _ ⟨coin, made, rfl⟩
    rw [sysfundReleaseCoin] at made
    obtain ⟨exit, -, made⟩ := Option.bind_eq_some_iff.mp made
    obtain ⟨unlock, -, made⟩ := Option.bind_eq_some_iff.mp made
    obtain ⟨-, made⟩ := Option.ite_none_left_eq_some.mp made
    obtain ⟨ofp, -, made⟩ := Option.bind_eq_some_iff.mp made
    cases made
    exact released_one rfl
  next nothing =>
    rw [eq_zero_of_not_pos nothing]
    exact ensures_ok released_none

theorem ensures_sysfundExec {core : LegView} {c : NativeCall} (few : c.ins.length ≤ spendMaxIn)
    (fewOut : c.outs.length ≤ spendMaxOut) :
    Ensures (ReliableGate hash ctx sys generation c.toSpendCall reads resCap)
      (sysfundExec hash fee ctx own reads resCap core sys generation c) fun bytes =>
        ∃ flow, sysCallFlow sys.hdr.runtimeOp sys.call generation = some flow ∧
          ∃ w, Accepts hash ctx own reads
            ⟨c.toSpendCall, none,
              ⟨fee.toNat, 0, 0, flow.lock.toNat, flow.release.toNat⟩⟩ w bytes := by
  rw [sysfundExec]
  refine ensures_sysfundNameGate.bind fun gate gated => ?_
  refine (ensures_faultWhen ?_).bind fun _ count => ?_
  · intro wrong reliable
    apply wrong
    rw [length_of_plan (reliable.at_gate gated).answers, length_cons, length_gateReqs]
    omega
  have long : c.ins.length ≤ reads.length := by omega
  refine ensures_unless fun _ => ?_
  refine ensures_unless fun named => ?_
  refine (ensures_faultWhen ?_).bind fun _ _ => ?_
  · rintro ⟨asked, wrong⟩ reliable
    obtain ⟨fp, rfl⟩ := Option.isSome_iff_exists.mp asked
    have present : (readAt reads (c.ins.length + 1)).present = true := by simpa using named
    have answer : Answers ⟨CoreOp.nameown, fp.val⟩ (readAt reads (c.ins.length + 1)) :=
      answers_of_plan (reliable.at_gate gated).answers rfl
    obtain ⟨low, high⟩ := answer.named rfl present
    omega
  refine ensures_given fun flow moved => ?_
  refine ensures_unless fun _ => ?_
  refine (ensures_spendInputs.relying fun reliable =>
    inputsOk_of_plan (reliable.at_gate gated).answers).bind ?_
  rintro ⟨left, nativeIn⟩ ⟨recs, found, spendable, counted⟩
  refine ensures_unless fun _ => ?_
  refine ensures_unless fun _ => ?_
  refine ensures_given fun changeOut summed => ?_
  refine ensures_given fun withFee feeAdded => ?_
  refine ensures_given fun rhs lockAdded => ?_
  refine ensures_unless fun eq => ?_
  refine ensures_sysfundReleased.bind fun released rel => ?_
  refine ensures_sortCoins.bind fun coins ⟨perm, sorted⟩ => ?_
  refine (ensures_supplyAddEff.relying fun reliable =>
    (reliable.at_gate gated).counter 0 rfl rfl).bind ?_
  rintro _ ⟨poolCounter, -, rfl, -⟩
  let w := c.toSpendCall.writes few recs coins sorted (length_sorted perm fewOut rel.few) none
    [poolCounter] (sortedBy_singleton _) (Nat.le_succ 1)
  have amounts : w.spentHeld = recs.map UtxoRec.held →
      Balanced w ⟨fee.toNat, 0, 0, flow.lock.toNat, flow.release.toNat⟩ := by
    refine balanced_of_call counted perm rel c.native summed rfl (fun _ => rfl) ?_
    have total := toNat_of_ckAdd lockAdded
    rw [← of_not_not eq, toNat_of_ckAdd feeAdded] at total
    omega
  refine ((ensures_finish rfl found long spendable amounts rfl).relying fun reliable =>
    (reliable.at_gate gated).room).mono fun bytes passed => ?_
  exact ⟨flow, moved, passed⟩

variable {role : Role} {flow : Flow}

theorem ensures_reserveEff :
    Ensures (r.present = true ∧ r.value.length = 8) (reserveEff r role flow)
      fun effect => ∃ counter : Counter, counter.sel = evmReserve ∧
        effect = counter.effect := by
  rw [reserveEff]
  refine (ensures_faultWhen ?_).bind fun _ _ => ?_
  · intro absent reliable
    rw [reliable.1] at absent
    cases absent
  refine (ensures_faultWhen fun wrong reliable => wrong reliable.2).bind fun _ _ => ?_
  refine ensures_given fun new moved => ?_
  exact ensures_pure ⟨⟨evmReserve, Layout.be64.read r.value, new⟩, rfl, rfl⟩

variable (hash ctx) in
theorem released_of_evmFlow {head : EvmHead} (moved : evmFlow role head = some flow) :
    Released ((head.destFp.filter fun _ => 0 < flow.release).map fun destFp =>
      evmfundReleaseCoin hash ctx destFp flow.release).toList flow.release := by
  have dest : 0 < flow.release → head.destFp.isSome = true := by
    intro pos
    cases role with
    | fee =>
      cases moved
      cases pos
    | deposit =>
      obtain ⟨-, eq⟩ := Option.ite_none_left_eq_some.mp moved
      cases eq
      cases pos
    | release =>
      obtain ⟨fine, -⟩ := Option.ite_none_left_eq_some.mp moved
      exact Option.isSome_iff_ne_none.mpr fun missing => fine (Or.inr (by rw [missing]; rfl))
  by_cases pos : 0 < flow.release
  · obtain ⟨destFp, found⟩ := Option.isSome_iff_exists.mp (dest pos)
    rw [found, Option.filter_some_pos (by simpa using pos)]
    exact released_one rfl
  · have dropped : (head.destFp.filter fun _ => decide (0 < flow.release)) = none := by
      rw [Option.filter_eq_none_iff]
      intro _ _
      simpa using pos
    rw [dropped, eq_zero_of_not_pos pos]
    exact released_none

/-- The request for the reserve, unless the leg pays a fee only. -/
def reserveReqs (role : Role) : List ReadReq :=
  if role = .fee then [] else [supplyReq evmReserve]

theorem length_reserveReqs (role : Role) :
    (reserveReqs role).length = if role = .fee then 0 else 1 := by
  rw [reserveReqs]
  split <;> rfl

theorem ensures_reserveEffs :
    Ensures (Reliable c (supplyReq pool :: reserveReqs role) reads resCap)
      (reserveEffs (readAt reads (c.ins.length + 1)) role flow)
      fun effects => ∃ counters : List Counter, effects = counters.map Counter.effect ∧
        counters.length ≤ 1 ∧ ∀ first : Counter, first.sel = pool →
          SortedBy Counter.sel (first :: counters) := by
  rw [reserveEffs, reserveReqs]
  split
  next => exact ensures_ok ⟨[], rfl, Nat.zero_le 1, fun first _ => sortedBy_singleton first⟩
  next =>
    refine ((ensures_reserveEff.relying fun reliable => ?_).map singleton).mono ?_
    · have answer : Answers (supplyReq evmReserve) (readAt reads (c.ins.length + 1)) :=
        answers_of_plan reliable.answers rfl
      have there := answer.reserve rfl
      exact ⟨there, answer.supply rfl there⟩
    · rintro _ ⟨_, ⟨counter, sel, rfl⟩, rfl⟩
      refine ⟨[counter], rfl, le_rfl, fun first pool => sortedBy_pair ?_⟩
      rw [sel, pool]
      decide

theorem ensures_evmfundExec {evm : LegView} {f : EvmfundCall}
    (few : f.xfer.ins.length ≤ spendMaxIn) (fewOut : f.xfer.outs.length ≤ spendMaxOut) :
    Ensures (Reliable f.xfer.toSpendCall (supplyReq pool :: reserveReqs f.role) reads resCap)
      (evmfundExec hash fee ctx own reads resCap evm f) fun bytes =>
        ∃ head, evmCallHead evm.hdr.runtimeOp evm.call = some head ∧
          ∃ flow, evmFlow f.role head = some flow ∧
            ∃ w, Accepts hash ctx own reads
              ⟨f.xfer.toSpendCall, none,
                ⟨fee.toNat, 0, 0, flow.lock.toNat, flow.release.toNat⟩⟩ w bytes := by
  rw [evmfundExec]
  refine (ensures_faultWhen ?_).bind fun _ count => ?_
  · intro wrong reliable
    apply wrong
    rw [length_of_plan reliable.answers, length_cons, length_reserveReqs]
    omega
  have long : f.xfer.ins.length ≤ reads.length := by omega
  refine ensures_given fun head parsed => ?_
  refine ensures_given fun flow moved => ?_
  refine (ensures_spendInputs.relying fun reliable => inputsOk_of_plan reliable.answers).bind ?_
  rintro ⟨left, nativeIn⟩ ⟨recs, found, spendable, counted⟩
  refine ensures_unless fun _ => ?_
  refine ensures_unless fun _ => ?_
  refine ensures_given fun changeOut summed => ?_
  refine ensures_given fun withFee feeAdded => ?_
  refine ensures_given fun rhs lockAdded => ?_
  refine ensures_unless fun eq => ?_
  refine ensures_reserveEffs.bind ?_
  rintro _ ⟨reserve, rfl, atMost, ordered⟩
  refine ensures_sortCoins.bind fun coins ⟨perm, sorted⟩ => ?_
  refine (ensures_supplyAddEff.relying fun reliable => reliable.counter 0 rfl rfl).bind ?_
  rintro _ ⟨poolCounter, poolSel, rfl, -⟩
  have rel := released_of_evmFlow hash ctx moved
  let w := f.xfer.toSpendCall.writes few recs coins sorted (length_sorted perm fewOut rel.few)
    none (poolCounter :: reserve) (ordered poolCounter poolSel) (Nat.succ_le_succ atMost)
  have amounts : w.spentHeld = recs.map UtxoRec.held →
      Balanced w ⟨fee.toNat, 0, 0, flow.lock.toNat, flow.release.toNat⟩ := by
    refine balanced_of_call counted perm rel f.xfer.native summed rfl (fun _ => rfl) ?_
    have total := toNat_of_ckAdd lockAdded
    rw [← of_not_not eq, toNat_of_ckAdd feeAdded] at total
    omega
  refine ((ensures_finish rfl found long spendable amounts rfl).relying Reliable.room).mono ?_
  exact fun bytes passed => ⟨head, parsed, flow, moved, passed⟩

end DnaLedger.Native
