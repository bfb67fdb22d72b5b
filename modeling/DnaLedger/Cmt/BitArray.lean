import DnaLedger.Foundation.Program
import Mathlib.Algebra.Order.Ring.Nat

/-!
# Bit arrays

Model of `cmt_bits.c`, as far as bits are counted, found by their number and picked at random.
-/

namespace DnaLedger.Cmt

open List

def bitsNumElems (bits : Nat) : Nat :=
  (bits + 63) / 64

/-- `cmt_bit_array_t`. Every array that is built or decoded has as many words as its size asks for;
behind the last bit they may hold anything. -/
structure BitArray where
  bits : Nat
  elems : List UInt64
  bits_le : bits ≤ 10000
  length_eq : elems.length = bitsNumElems bits

/-- `(elems[w] & ((uint64_t)1 << j)) != 0` -/
def hasBit (word : UInt64) (j : Nat) : Bool :=
  word.toNat.testBit j

section

variable (ba : BitArray)

def BitArray.getIndex (i : Nat) : Bool :=
  i < ba.bits && hasBit (ba.elems[i / 64]?.getD 0) (i % 64)

def onesCount64 (v c : Nat) : Nat :=
  if v = 0 then c else onesCount64 (v &&& (v - 1)) (c + 1)
termination_by v
decreasing_by
  have bound : v &&& (v - 1) ≤ v - 1 := Nat.and_le_right
  omega

def BitArray.getNumTrueIndices : Nat :=
  if ba.bits = 0 ∨ ba.elems.length = 0 ∨ ba.elems.length ≠ bitsNumElems ba.bits then 0
  else
    (range (min (ba.bits - (ba.elems.length - 1) * 64) 64)).foldl
      (fun count j => if hasBit (ba.elems.getLastD 0) j then count + 1 else count)
      (ba.elems.dropLast.foldl (fun count word => count + onesCount64 word.toNat 0) 0)

/-- The bits of a word in `cmt_bits_get_nth_true_index`: the index, or the count behind them. -/
def scanBits (word : UInt64) (base n : Nat) : List Nat → Nat → Except Nat Nat
  | [], count => .ok count
  | j :: rest, count =>
    if hasBit word j then
      if count = n then .error (base + j) else scanBits word base n rest (count + 1)
    else scanBits word base n rest count

/-- The words in `cmt_bits_get_nth_true_index`. -/
def scanWords (n : Nat) : List UInt64 → Nat → Nat → Option Nat
  | [], _, _ => none
  | word :: rest, i, count =>
    if n ≤ count + onesCount64 word.toNat 0 then
      match scanBits word (i * 64) n (range 64) count with
      | .error index => some index
      | .ok count => scanWords n rest (i + 1) count
    else scanWords n rest (i + 1) (count + onesCount64 word.toNat 0)

/-- No index is `-1` there. -/
def BitArray.getNthTrueIndex (n : Nat) : Option Nat :=
  scanWords n ba.elems 0 0

/-- Random numbers from `limit` on are drawn again. -/
def BitArray.limit : Nat :=
  (2 ^ 32 - 1) / ba.getNumTrueIndices * ba.getNumTrueIndices

/-- The random source fails behind the last of the draws. -/
def BitArray.pickRandom (draws : List UInt32) : Except Failure Nat :=
  if ba.getNumTrueIndices = 0 then .error .reject
  else
    match draws.find? fun draw => draw.toNat < ba.limit with
    | none => .error .fault
    | some draw =>
      (ba.getNthTrueIndex (draw.toNat % ba.getNumTrueIndices)).elim (.error .reject) .ok

end

variable {n : Nat}

theorem countP_testBit_succ (width v : Nat) :
    (range (width + 1)).countP v.testBit = v % 2 + (range width).countP (v / 2).testBit := by
  have rest : v.testBit ∘ Nat.succ = (v / 2).testBit := funext fun i => Nat.testBit_succ v i
  rw [range_succ_eq_map, countP_cons, countP_map, rest, Nat.testBit_zero]
  rcases Nat.mod_two_eq_zero_or_one v with even | odd
  · simp [even]
  · simp [odd, Nat.add_comm]

theorem countP_testBit_and_sub_one {width v : Nat} (ne : v ≠ 0) (small : v < 2 ^ width) :
    (range width).countP (v &&& (v - 1)).testBit + 1 = (range width).countP v.testBit := by
  induction width generalizing v with
  | zero => omega
  | succ width ih =>
    have lower := @Nat.and_mod_two_pow v (v - 1) 1
    rw [countP_testBit_succ, countP_testBit_succ, Nat.and_div_two]
    rcases Nat.mod_two_eq_zero_or_one v with even | odd
    · have step := @ih (v / 2) (by omega) (by omega)
      rw [Nat.pow_one, even, Nat.zero_and] at lower
      rw [lower, show (v - 1) / 2 = v / 2 - 1 by omega]
      omega
    · rw [Nat.pow_one, show (v - 1) % 2 = 0 by omega, Nat.and_zero] at lower
      rw [lower, show (v - 1) / 2 = v / 2 by omega, Nat.and_self]
      omega

theorem onesCount64_eq {v : Nat} (small : v < 2 ^ 64) (c : Nat) :
    onesCount64 v c = c + (range 64).countP v.testBit := by
  fun_induction onesCount64 v c with
  | case1 c => simp
  | case2 v c ne ih =>
    have step := countP_testBit_and_sub_one ne small
    rw [ih (Nat.and_lt_two_pow _ (by omega))]
    omega

section

variable (word : UInt64)

theorem onesCount64_word : onesCount64 word.toNat 0 = ((range 64).filter (hasBit word)).length := by
  rw [onesCount64_eq word.toNat_lt, Nat.zero_add, countP_eq_length_filter]
  rfl

theorem scanBits_eq (base : Nat) {js : List Nat} {count : Nat} (le : count ≤ n) :
    scanBits word base n js count =
      match (js.filter (hasBit word))[n - count]? with
      | some j => .error (base + j)
      | none => .ok (count + (js.filter (hasBit word)).length) := by
  induction js generalizing count with
  | nil => rfl
  | cons j rest ih =>
    rw [scanBits, filter_cons]
    split
    next =>
      split
      next eq =>
        subst eq
        rw [Nat.sub_self]
        rfl
      next apart =>
        have behind : n - count = n - (count + 1) + 1 := by omega
        rw [ih (by omega), behind, getElem?_cons_succ, length_cons, Nat.add_right_comm]
        rfl
    next => exact ih le

/-- The set bits among the first `n` of some words. -/
def setBits (words : List UInt64) (n : Nat) : List Nat :=
  (range n).filter fun i => hasBit (words[i / 64]?.getD 0) (i % 64)

theorem setBits_of_le (rest : List UInt64) {n : Nat} (small : n ≤ 64) :
    setBits (word :: rest) n = (range n).filter (hasBit word) := by
  refine filter_congr fun i inside => ?_
  have bound := mem_range.mp inside
  rw [Nat.div_eq_of_lt (by omega), Nat.mod_eq_of_lt (by omega)]
  rfl

theorem setBits_cons (rest : List UInt64) (n : Nat) :
    setBits (word :: rest) (64 + n) =
      (range 64).filter (hasBit word) ++ (setBits rest n).map (64 + ·) := by
  rw [← setBits_of_le word rest (Nat.le_refl 64), setBits, range_add, filter_append, filter_map]
  refine congrArg (_ ++ map (64 + ·) ·) (filter_congr fun i _ => ?_)
  rw [Function.comp_apply, Nat.add_mod_left, Nat.add_div_left _ (by decide)]
  rfl

end

theorem scanWords_eq {words : List UInt64} {count : Nat} (i : Nat) (le : count ≤ n) :
    scanWords n words i count =
      ((setBits words (64 * words.length))[n - count]?).map (i * 64 + ·) := by
  induction words generalizing i count with
  | nil => rfl
  | cons word rest ih =>
    have size : 64 * (rest.length + 1) = 64 + 64 * rest.length := by omega
    rw [scanWords, length_cons, size, setBits_cons, onesCount64_word, scanBits_eq _ _ le]
    cases hit : ((range 64).filter (hasBit word))[n - count]? with
    | some j =>
      obtain ⟨inside, -⟩ := List.getElem?_eq_some_iff.mp hit
      rw [if_pos (by omega), getElem?_append_left inside, hit]
      rfl
    | none =>
      -- On either side of the test the search goes on with the bits of this word counted.
      have behind := getElem?_eq_none_iff.mp hit
      have shift : ((i + 1) * 64 + ·) = (i * 64 + ·) ∘ (64 + ·) := by
        funext x
        simp only [Function.comp_apply]
        omega
      dsimp only
      rw [ite_self, ih (i + 1) (by omega), getElem?_append_right behind, getElem?_map,
        Option.map_map, Nat.sub_sub, shift]

theorem foldl_ones (last : UInt64) {final : Nat} (small : final ≤ 64) (words : List UInt64)
    (count : Nat) :
    words.foldl (fun count word => count + onesCount64 word.toNat 0) count +
        (range final).countP (hasBit last) =
      count + (setBits (words ++ [last]) (64 * words.length + final)).length := by
  induction words generalizing count with
  | nil =>
    rw [foldl_nil, length_nil, Nat.mul_zero, Nat.zero_add, nil_append, setBits_of_le _ _ small,
      countP_eq_length_filter]
  | cons word rest ih =>
    have size : 64 * (rest.length + 1) + final = 64 + (64 * rest.length + final) := by omega
    rw [foldl_cons, ih, length_cons, size, cons_append, setBits_cons, length_append, length_map,
      onesCount64_word, Nat.add_assoc]

theorem foldl_hasBit (last : UInt64) (js : List Nat) (count : Nat) :
    js.foldl (fun count j => if hasBit last j then count + 1 else count) count =
      count + js.countP (hasBit last) := by
  induction js generalizing count with
  | nil => rfl
  | cons j rest ih =>
    rw [foldl_cons, ih, countP_cons]
    split <;> omega

namespace BitArray

variable (ba : BitArray)

def trueIndices : List Nat :=
  (range ba.bits).filter ba.getIndex

theorem trueIndices_eq : ba.trueIndices = setBits ba.elems ba.bits := by
  refine filter_congr fun i inside => ?_
  rw [getIndex, decide_eq_true (mem_range.mp inside), Bool.true_and]

theorem getNumTrueIndices_eq : ba.getNumTrueIndices = ba.trueIndices.length := by
  have length := ba.length_eq
  rw [bitsNumElems] at length
  rw [getNumTrueIndices, trueIndices_eq, bitsNumElems]
  split
  next empty =>
    have blank : ba.bits = 0 := by omega
    rw [blank]
    rfl
  next full =>
    obtain ⟨words, last, parts⟩ := (eq_nil_or_concat' ba.elems).resolve_left fun blank =>
      full (.inr (.inl (by rw [blank]; rfl)))
    have count : ba.elems.length = words.length + 1 := by
      rw [parts, length_append, length_singleton]
    obtain ⟨final, size⟩ : ∃ final, ba.bits = 64 * words.length + final :=
      Nat.exists_eq_add_of_le (by omega)
    have finalBits : min (ba.bits - (ba.elems.length - 1) * 64) 64 = final := by omega
    rw [finalBits, foldl_hasBit, size, parts, dropLast_concat, getLastD_concat,
      foldl_ones last (by omega), Nat.zero_add]

/-- The padding stands behind the last index, so the first set bits are those in range. -/
theorem getNthTrueIndex_eq {n : Nat} (inside : n < ba.trueIndices.length) :
    ba.getNthTrueIndex n = ba.trueIndices[n]? := by
  have length := ba.length_eq
  rw [bitsNumElems] at length
  rw [trueIndices_eq] at inside ⊢
  obtain ⟨padding, size⟩ : ∃ padding, 64 * ba.elems.length = ba.bits + padding :=
    Nat.exists_eq_add_of_le (by omega)
  have all : setBits ba.elems (64 * ba.elems.length) = setBits ba.elems ba.bits ++
      ((range padding).map (ba.bits + ·)).filter fun i =>
        hasBit (ba.elems[i / 64]?.getD 0) (i % 64) := by
    rw [size, setBits, range_add, filter_append, setBits]
  rw [getNthTrueIndex, scanWords_eq 0 (Nat.zero_le n), all, Nat.sub_zero,
    getElem?_append_left inside]
  simp

theorem map_getNthTrueIndex :
    (range ba.getNumTrueIndices).map ba.getNthTrueIndex = ba.trueIndices.map some := by
  refine ext_getElem? fun n => ?_
  rw [getNumTrueIndices_eq]
  by_cases inside : n < ba.trueIndices.length
  · simp [inside, getNthTrueIndex_eq]
  · simp [inside]

/-- Whatever stands behind the last bit and whatever is drawn: an index in range that is set is
picked where there is one, none otherwise, and the indices are numbered in their order. -/
theorem pickRandom_sound :
    ((∃ i < ba.bits, ba.getIndex i) →
      2 ^ 31 < ba.limit ∧ ∀ draws : List UInt32, (∃ draw ∈ draws, draw.toNat < ba.limit) →
        ∃ i < ba.bits, ba.getIndex i ∧ ba.pickRandom draws = .ok i) ∧
    ((¬ ∃ i < ba.bits, ba.getIndex i) → ∀ draws, ba.pickRandom draws = .error .reject) ∧
    (range ba.getNumTrueIndices).map ba.getNthTrueIndex =
      ((range ba.bits).filter ba.getIndex).map some := by
  have some_iff : (∃ i < ba.bits, ba.getIndex i) ↔ ba.getNumTrueIndices ≠ 0 := by
    rw [getNumTrueIndices_eq]
    simp [trueIndices, filter_eq_nil_iff]
  refine ⟨fun set => ?_, fun unset draws => ?_, ba.map_getNthTrueIndex⟩
  · have ne := some_iff.mp set
    have small : ba.getNumTrueIndices ≤ 10000 := by
      have bound := ba.bits_le
      have filtered := (range ba.bits).length_filter_le ba.getIndex
      rw [length_range] at filtered
      rw [getNumTrueIndices_eq, trueIndices]
      omega
    refine ⟨?_, fun draws found => ?_⟩
    · have division := Nat.div_add_mod (2 ^ 32 - 1) ba.getNumTrueIndices
      have remainder := Nat.mod_lt (2 ^ 32 - 1) (Nat.pos_of_ne_zero ne)
      rw [limit, Nat.mul_comm]
      omega
    · obtain ⟨draw, taken⟩ : ∃ draw, draws.find? (fun draw => draw.toNat < ba.limit) = some draw :=
        Option.isSome_iff_exists.mp (find?_isSome.mpr (by simpa using found))
      have residue : draw.toNat % ba.getNumTrueIndices < ba.trueIndices.length := by
        rw [← getNumTrueIndices_eq]
        exact Nat.mod_lt _ (Nat.pos_of_ne_zero ne)
      have mem := getElem_mem residue
      obtain ⟨inRange, isSet⟩ := mem_filter.mp mem
      refine ⟨_, mem_range.mp inRange, isSet, ?_⟩
      rw [pickRandom, if_neg ne, taken]
      dsimp only
      rw [getNthTrueIndex_eq _ residue, getElem?_eq_getElem residue]
      rfl
  · rw [pickRandom, if_pos (not_not.mp (mt some_iff.mpr unset))]

end BitArray

end DnaLedger.Cmt
