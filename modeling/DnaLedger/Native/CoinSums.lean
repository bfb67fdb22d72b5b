import DnaLedger.Native.CoreExec

/-!
# Sums over coins

What the sums of the executors say.
-/

namespace DnaLedger.Native

open List Option

/-- The sum of the amounts that are in a token. -/
def worth (token : Digest) (amounts : List (Digest × UInt64)) : Nat :=
  (amounts.map fun entry => if entry.1 = token then entry.2.toNat else 0).sum

variable {token : Digest} {amounts : List (Digest × UInt64)}

theorem worth_cons (entry : Digest × UInt64) :
    worth token (entry :: amounts) =
      (if entry.1 = token then entry.2.toNat else 0) + worth token amounts := by
  rw [worth, map_cons, sum_cons, ← worth]

theorem worth_append (others : List (Digest × UInt64)) :
    worth token (amounts ++ others) = worth token amounts + worth token others := by
  rw [worth, map_append, sum_append, ← worth, ← worth]

theorem worth_perm {others : List (Digest × UInt64)} (perm : amounts.Perm others) :
    worth token amounts = worth token others :=
  (perm.map _).sum_eq

theorem worth_eq_zero (other : ∀ entry ∈ amounts, entry.1 ≠ token) : worth token amounts = 0 := by
  induction amounts with
  | nil => rfl
  | cons entry rest ih =>
    rw [worth_cons, if_neg (other entry mem_cons_self),
      ih fun later mem => other later (mem_cons_of_mem entry mem)]

theorem worth_eq_sum (eq : ∀ entry ∈ amounts, entry.1 = token) :
    worth token amounts = (amounts.map fun entry => entry.2.toNat).sum := by
  rw [worth]
  exact congrArg sum (map_congr_left fun entry mem => if_pos (eq entry mem))

variable {start total : UInt64}

theorem foldlM_ckAdd_eq {α : Type} (amount : α → UInt64) (items : List α) (start : UInt64) :
    items.foldlM (fun sum item => ckAdd sum (amount item)) start =
      if start.toNat + (items.map fun item => (amount item).toNat).sum < 2 ^ 64 then
        some (.ofNat (start.toNat + (items.map fun item => (amount item).toNat).sum))
      else none := by
  induction items generalizing start with
  | nil => simp [start.toNat_lt]
  | cons item rest ih =>
    rw [foldlM_cons, map_cons, sum_cons, ← Nat.add_assoc]
    cases added : ckAdd start (amount item) with
    | none =>
      rw [ckAdd] at added
      split at added
      next =>
        rw [if_neg (by omega)]
        rfl
      next => cases added
    | some sum =>
      rw [← toNat_of_ckAdd added]
      exact ih sum

theorem toNat_of_foldlM_ckAdd {α : Type} {amount : α → UInt64} {items : List α}
    (added : items.foldlM (fun sum item => ckAdd sum (amount item)) start = some total) :
    total.toNat = start.toNat + (items.map fun item => (amount item).toNat).sum := by
  rw [foldlM_ckAdd_eq] at added
  obtain ⟨fits, eq⟩ := ite_none_right_eq_some.mp added
  cases eq
  exact UInt64.toNat_ofNat_of_lt fits

variable {coins : List UtxoRec}

theorem of_foldlM_countNative (counted : coins.foldlM countNative start = some total) :
    (∀ coin ∈ coins, coin.token = nativeToken) ∧
      total.toNat = start.toNat + (coins.map fun coin => coin.amount.toNat).sum := by
  induction coins generalizing start with
  | nil =>
    cases counted
    exact ⟨fun coin mem => absurd mem not_mem_nil, rfl⟩
  | cons coin rest ih =>
    rw [foldlM_cons, bind_eq_bind, bind_eq_some_iff] at counted
    obtain ⟨sum, step, rest_counted⟩ := counted
    obtain ⟨native, step⟩ := ite_none_left_eq_some.mp step
    obtain ⟨natives, total_eq⟩ := ih rest_counted
    refine ⟨List.forall_mem_cons.mpr ⟨of_not_not native, natives⟩, ?_⟩
    rw [total_eq, toNat_of_ckAdd step, map_cons, sum_cons, Nat.add_assoc]

theorem foldlM_countNative_of_countOwn {owner : OwnerHex}
    (counted : coins.foldlM (countOwn owner) start = some total) :
    coins.foldlM countNative start = some total := by
  induction coins generalizing start with
  | nil => exact counted
  | cons coin rest ih =>
    rw [foldlM_cons, bind_eq_bind, bind_eq_some_iff] at counted ⊢
    obtain ⟨sum, step, rest_counted⟩ := counted
    exact ⟨sum, (ite_none_left_eq_some.mp step).2, ih rest_counted⟩

/-! ## The table of sums -/

/-- What a table has on its two sides in a token. -/
def inTotal (token : Digest) (toks : List TokSum) : Nat :=
  worth token (toks.map fun sum => (sum.token, sum.inSum))

def outTotal (token : Digest) (toks : List TokSum) : Nat :=
  worth token (toks.map fun sum => (sum.token, sum.outSum))

theorem inTotal_cons (sum : TokSum) (toks : List TokSum) :
    inTotal token (sum :: toks) =
      (if sum.token = token then sum.inSum.toNat else 0) + inTotal token toks :=
  worth_cons _

theorem outTotal_cons (sum : TokSum) (toks : List TokSum) :
    outTotal token (sum :: toks) =
      (if sum.token = token then sum.outSum.toNat else 0) + outTotal token toks :=
  worth_cons _

abbrev amountIn (token held : Digest) (amount : UInt64) : Nat :=
  if held = token then amount.toNat else 0

variable {amount : UInt64} {isIn : Bool}

theorem TokSum.add_eq_some {sum next : TokSum} (added : sum.add amount isIn = some next) :
    next.token = sum.token ∧
      next.inSum.toNat = sum.inSum.toNat + (if isIn then amount.toNat else 0) ∧
      next.outSum.toNat = sum.outSum.toNat + (if isIn then 0 else amount.toNat) := by
  cases isIn with
  | true =>
    obtain ⟨total, step, rfl⟩ := map_eq_some_iff.mp added
    exact ⟨rfl, toNat_of_ckAdd step, rfl⟩
  | false =>
    obtain ⟨total, step, rfl⟩ := map_eq_some_iff.mp added
    exact ⟨rfl, rfl, toNat_of_ckAdd step⟩

variable {held : Digest} {room : Nat} {toks next : List TokSum}

/-- The table that belongs to what was counted on both sides. -/
structure Tallied (toks : List TokSum) (ins outs : List (Digest × UInt64)) : Prop where
  inTotal_eq : ∀ token, inTotal token toks = worth token ins
  outTotal_eq : ∀ token, outTotal token toks = worth token outs
  native_once : (toks.map TokSum.token).count nativeToken = 1

theorem tallied_start : Tallied [⟨nativeToken, 0, 0⟩] [] [] where
  inTotal_eq token := by
    rw [inTotal_cons]
    simp [inTotal, worth]
  outTotal_eq token := by
    rw [outTotal_cons]
    simp [outTotal, worth]
  native_once := by simp

section

variable (added : tokAdd held amount isIn room toks = some next)

include added

theorem totals_of_tokAdd :
    inTotal token next = inTotal token toks + (if isIn then amountIn token held amount else 0) ∧
      outTotal token next =
        outTotal token toks + (if isIn then 0 else amountIn token held amount) := by
  induction toks generalizing next with
  | nil =>
    obtain ⟨-, ⟨⟩⟩ := ite_none_left_eq_some.mp added
    rw [inTotal_cons, outTotal_cons]
    cases isIn <;> simp [inTotal, outTotal, worth]
  | cons sum rest ih =>
    rw [tokAdd] at added
    split at added
    next same =>
      obtain ⟨changed, step, rfl⟩ := map_eq_some_iff.mp added
      obtain ⟨kept, ins, outs⟩ := TokSum.add_eq_some step
      rw [inTotal_cons, outTotal_cons, inTotal_cons, outTotal_cons, kept, ins, outs, same]
      cases isIn <;> by_cases eq : held = token <;> simp [amountIn, eq] <;> omega
    next =>
      obtain ⟨later, step, rfl⟩ := map_eq_some_iff.mp added
      obtain ⟨ins, outs⟩ := ih step
      rw [inTotal_cons, outTotal_cons, inTotal_cons, outTotal_cons, ins, outs]
      constructor <;> omega

theorem tokens_of_tokAdd :
    next.map TokSum.token = toks.map TokSum.token ∨
      held ∉ toks.map TokSum.token ∧
        next.map TokSum.token = toks.map TokSum.token ++ [held] := by
  induction toks generalizing next with
  | nil =>
    obtain ⟨-, ⟨⟩⟩ := ite_none_left_eq_some.mp added
    exact Or.inr ⟨not_mem_nil, rfl⟩
  | cons sum rest ih =>
    rw [tokAdd] at added
    split at added
    next eq =>
      obtain ⟨changed, step, rfl⟩ := map_eq_some_iff.mp added
      refine Or.inl ?_
      rw [map_cons, map_cons, (TokSum.add_eq_some step).1]
    next apart =>
      obtain ⟨later, step, rfl⟩ := map_eq_some_iff.mp added
      rcases ih step with eq | ⟨missing, longer⟩
      · exact Or.inl (by rw [map_cons, map_cons, eq])
      · refine Or.inr ⟨?_, by rw [map_cons, map_cons, longer, cons_append]⟩
        rw [map_cons, mem_cons, not_or]
        exact ⟨fun eq => apart eq.symm, missing⟩

theorem count_of_tokAdd (once : (toks.map TokSum.token).count nativeToken = 1) :
    (next.map TokSum.token).count nativeToken = 1 := by
  rcases tokens_of_tokAdd added with eq | ⟨missing, longer⟩
  · rw [eq, once]
  · have apart : held ≠ nativeToken := by
      rintro rfl
      exact missing (count_pos_iff.mp (by rw [once]; decide))
    rw [longer, count_append, once, count_cons_of_ne apart, count_nil]

end

variable {ins outs : List (Digest × UInt64)}

section

variable (tallied : Tallied toks ins outs)

include tallied

theorem Tallied.spend {coin : UtxoRec} (added : countToken toks coin = some next) :
    Tallied next (ins ++ [(coin.token, coin.amount)]) outs where
  inTotal_eq token := by
    rw [(totals_of_tokAdd added).1, tallied.inTotal_eq, worth_append]
    simp [worth]
  outTotal_eq token := by
    rw [(totals_of_tokAdd added).2, tallied.outTotal_eq]
    rfl
  native_once := count_of_tokAdd added tallied.native_once

theorem Tallied.make {out : SpendOut} (added : countMade toks out = some next) :
    Tallied next ins (outs ++ [(out.token, out.amount)]) where
  inTotal_eq token := by
    rw [(totals_of_tokAdd added).1, tallied.inTotal_eq]
    rfl
  outTotal_eq token := by
    rw [(totals_of_tokAdd added).2, tallied.outTotal_eq, worth_append]
    simp [worth]
  native_once := count_of_tokAdd added tallied.native_once

theorem Tallied.foldlM_spend (counted : coins.foldlM countToken toks = some next) :
    Tallied next (ins ++ coins.map fun coin => (coin.token, coin.amount)) outs := by
  induction coins generalizing toks ins with
  | nil =>
    cases counted
    rwa [map_nil, append_nil]
  | cons coin rest ih =>
    rw [foldlM_cons, bind_eq_bind, bind_eq_some_iff] at counted
    obtain ⟨middle, step, rest_counted⟩ := counted
    have whole := ih (tallied.spend step) rest_counted
    rwa [append_assoc] at whole

theorem Tallied.foldlM_make {made : List SpendOut}
    (counted : made.foldlM countMade toks = some next) :
    Tallied next ins (outs ++ made.map fun out => (out.token, out.amount)) := by
  induction made generalizing toks outs with
  | nil =>
    cases counted
    rwa [map_nil, append_nil]
  | cons out rest ih =>
    rw [foldlM_cons, bind_eq_bind, bind_eq_some_iff] at counted
    obtain ⟨middle, step, rest_counted⟩ := counted
    have whole := ih (tallied.make step) rest_counted
    rwa [append_assoc] at whole

end

theorem totals_of_balanced {destroyed : UInt64}
    (balanced : toks.all (tokBalanced destroyed) = true) :
    inTotal nativeToken toks = outTotal nativeToken toks +
        (toks.map TokSum.token).count nativeToken * destroyed.toNat ∧
      ∀ token ≠ nativeToken, inTotal token toks = outTotal token toks := by
  induction toks with
  | nil =>
    refine ⟨?_, fun _ _ => rfl⟩
    rw [map_nil, count_nil, Nat.zero_mul]
    rfl
  | cons sum rest ih =>
    rw [all_cons, Bool.and_eq_true] at balanced
    obtain ⟨native, others⟩ := ih balanced.2
    have head := balanced.1
    rw [tokBalanced] at head
    by_cases isNative : sum.token = nativeToken
    · rw [if_pos isNative] at head
      have total := toNat_of_ckAdd (of_decide_eq_true head)
      constructor
      · rw [inTotal_cons, outTotal_cons, if_pos isNative, if_pos isNative, native,
          map_cons, isNative, count_cons_self, total, Nat.succ_mul]
        omega
      · intro token other
        have apart : sum.token ≠ token := fun same => other (same ▸ isNative)
        rw [inTotal_cons, outTotal_cons, if_neg apart, if_neg apart, others token other]
    · rw [if_neg isNative] at head
      have eq : sum.inSum = sum.outSum := of_decide_eq_true head
      constructor
      · rw [inTotal_cons, outTotal_cons, if_neg isNative, if_neg isNative, native,
          map_cons, count_cons_of_ne isNative]
        omega
      · intro token other
        rw [inTotal_cons, outTotal_cons, eq, others token other]

theorem Tallied.balanced (tallied : Tallied toks ins outs) {destroyed : UInt64}
    (balanced : toks.all (tokBalanced destroyed) = true) :
    worth nativeToken ins = worth nativeToken outs + destroyed.toNat ∧
      ∀ token ≠ nativeToken, worth token ins = worth token outs := by
  obtain ⟨native, others⟩ := totals_of_balanced balanced
  rw [tallied.inTotal_eq, tallied.outTotal_eq, tallied.native_once, Nat.one_mul] at native
  refine ⟨native, fun token other => ?_⟩
  rw [← tallied.inTotal_eq, ← tallied.outTotal_eq]
  exact others token other

end DnaLedger.Native
