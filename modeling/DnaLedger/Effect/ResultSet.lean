import DnaLedger.Effect.WireCodec
import Mathlib.Algebra.BigOperators.Group.Finset.Defs
import Mathlib.Data.Finset.Card
import Mathlib.Data.Prod.Lex

/-!
# One encoding for a set of effects

A valid list of effects is strictly ascending in the canonical order, so a set of effects has at
most one encoding.
-/

namespace DnaLedger.Effect

open Sections Sorting Finset

/-- The kind, the operation and the key, in this order of weight. -/
def canonicalKey (effect : EffectIn) : Nat ×ₗ Nat ×ₗ Bytes :=
  toLex (effect.hdr.effectKind.toNat, toLex (effect.hdr.opId.toNat, effect.key))

theorem effPrecedes_iff (first second : EffectIn) :
    effPrecedes (first.hdr, first.key) (second.hdr, second.key) = true ↔
      canonicalKey first < canonicalKey second := by
  rw [canonicalKey, canonicalKey, Prod.Lex.toLex_lt_toLex]
  simp only [Prod.Lex.toLex_lt_toLex, effPrecedes]
  by_cases kind : first.hdr.effectKind = second.hdr.effectKind
  · rw [if_neg (not_not.mpr kind), kind]
    by_cases op : first.hdr.opId = second.hdr.opId
    · rw [if_neg (not_not.mpr op), op]
      simp
    · have apart : first.hdr.opId.toNat ≠ second.hdr.opId.toNat :=
        fun eq => op (UInt32.toNat_inj.mp eq)
      rw [if_pos op, decide_eq_true_iff, UInt32.lt_iff_toNat_lt]
      simp [apart]
  · have apart : first.hdr.effectKind.toNat ≠ second.hdr.effectKind.toNat :=
      fun eq => kind (UInt8.toNat_inj.mp eq)
    rw [if_pos kind, decide_eq_true_iff, UInt8.lt_iff_toNat_lt]
    simp [apart]

def SameTarget (first second : EffectIn) : Prop :=
  first.hdr.opId = second.hdr.opId ∧ first.key = second.key

section

variable (effects : List EffectIn)

theorem logicalKeysUnique_iff :
    logicalKeysUnique (records effects) = true ↔
      effects.Pairwise fun first second => ¬ SameTarget first second := by
  induction effects with
  | nil => simp [records, logicalKeysUnique]
  | cons first rest ih =>
    rw [records, List.map_cons, logicalKeysUnique, Bool.and_eq_true, List.pairwise_cons,
      show rest.map _ = records rest from rfl, ih]
    refine and_congr_left fun _ => ?_
    rw [List.all_eq_true]
    constructor
    · intro differ second mem eq
      have free := differ _ (List.mem_map_of_mem mem)
      rw [eq.1, eq.2] at free
      simp at free
    · rintro differ _ mem
      obtain ⟨second, inside, rfl⟩ := List.mem_map.mp mem
      have free := differ second inside
      rw [SameTarget] at free
      simpa [imp_iff_not_or] using free

theorem ascending_records :
    ascending effPrecedes (records effects) =
      ascending (fun first second => effPrecedes (first.hdr, first.key) (second.hdr, second.key))
        effects := by
  induction effects with
  | nil => rfl
  | cons first rest ih =>
    cases rest with
    | nil => rfl
    | cons second rest =>
      rw [records, List.map_cons, List.map_cons, ascending, ascending, ← ih]
      rfl

theorem effOrderOk_iff :
    effOrderOk (records effects) = true ↔
      SortedBy canonicalKey effects ∧
        effects.Pairwise fun first second => ¬ SameTarget first second := by
  rw [effOrderOk, Bool.and_eq_true, logicalKeysUnique_iff, ascending_records]
  refine and_congr_left fun _ => ?_
  constructor
  · exact pairwise_of_ascending effPrecedes_iff (fun _ _ _ => lt_trans) effects
  · exact ascending_of_pairwise effPrecedes_iff effects

end

/-! ## Sets of effects -/

/-- Bytes that the decoder accepts and in which it finds exactly these effects. -/
def Encodes (src : Bytes) (set : Finset EffectIn) : Prop :=
  ∃ view effects, decode src EffectView.zero = (true, view) ∧ view.Holds effects ∧
    ∀ effect, effect ∈ effects ↔ effect ∈ set

structure Encodable (set : Finset EffectIn) : Prop where
  few : set.card ≤ maxCount
  hdrs_ok : ∀ effect ∈ set, effectHdrOk effect.hdr = true
  distinct : ∀ first ∈ set, ∀ second ∈ set, SameTarget first second → first = second
  fits : fixedHead + set.card * recordLen +
    set.sum (fun effect => effect.key.length) + set.sum (fun effect => effect.value.length) ≤
      maxTotalLen

variable {set : Finset EffectIn}

theorem encodes_iff {src : Bytes} :
    Encodes src set ↔
      ∃ effects, Valid effects ∧ resultBytes effects = src ∧
        ∀ effect, effect ∈ effects ↔ effect ∈ set := by
  constructor
  · rintro ⟨view, effects, read, holds, members⟩
    obtain ⟨others, valid, rfl⟩ := exists_of_decode read
    rw [valid.decode_bytes] at read
    obtain rfl : viewOf others = view := (Prod.mk.inj read).2
    obtain rfl := holds.unique (holds_viewOf valid.few valid.fits)
    exact ⟨effects, valid, rfl, members⟩
  · rintro ⟨effects, valid, rfl, members⟩
    exact ⟨_, effects, valid.decode_bytes _, holds_viewOf valid.few valid.fits, members⟩

variable {effects : List EffectIn}

theorem Valid.sorted (valid : Valid effects) : SortedBy canonicalKey effects :=
  ((effOrderOk_iff effects).mp valid.order_ok).1

theorem length_resultBytes_set (perm : effects.Perm set.toList) :
    (resultBytes effects).length = fixedHead + set.card * recordLen +
      set.sum (fun effect => effect.key.length) + set.sum (fun effect => effect.value.length) := by
  have keys : keyTotal (effects.map Item.hdr) = set.sum fun effect => effect.key.length := by
    rw [← sum_map_toList, ← (perm.map _).sum_eq, keyTotal, List.map_map]
    refine congrArg List.sum (List.map_congr_left fun effect _ => ?_)
    exact effect.length_first.symm
  have values : valueTotal (effects.map Item.hdr) = set.sum fun effect => effect.value.length := by
    rw [← sum_map_toList, ← (perm.map _).sum_eq, valueTotal, List.map_map]
    refine congrArg List.sum (List.map_congr_left fun effect _ => ?_)
    exact effect.length_second.symm
  rw [length_resultBytes, keys, values, perm.length_eq, length_toList]

theorem Encodable.exists_valid (encodable : Encodable set) :
    ∃ effects, Valid effects ∧ ∀ effect, effect ∈ effects ↔ effect ∈ set := by
  have keys : (set.toList.map canonicalKey).Nodup := by
    rw [List.nodup_map_iff_inj_on set.nodup_toList]
    intro first firstMember second secondMember eq
    rw [mem_toList] at firstMember secondMember
    obtain ⟨-, rest⟩ := Prod.mk.inj (toLex_inj.mp eq)
    obtain ⟨op, key⟩ := Prod.mk.inj (toLex_inj.mp rest)
    exact encodable.distinct first firstMember second secondMember ⟨UInt32.toNat_inj.mp op, key⟩
  have sorted : SortedBy canonicalKey (insertionSort
      (fun first second => effPrecedes (first.hdr, first.key) (second.hdr, second.key))
      set.toList) := sortedBy_insertionSort effPrecedes_iff keys
  have perm := insertionSort_perm
    (fun first second : EffectIn => effPrecedes (first.hdr, first.key) (second.hdr, second.key))
    set.toList
  generalize insertionSort _ set.toList = effects at sorted perm
  have members : ∀ effect, effect ∈ effects ↔ effect ∈ set := by
    intro effect
    rw [perm.mem_iff, mem_toList]
  refine ⟨effects, ⟨?_, ?_, ?_, ?_⟩, members⟩
  · rw [perm.length_eq, length_toList]
    exact encodable.few
  · intro effect mem
    exact encodable.hdrs_ok effect ((members effect).mp mem)
  · rw [effOrderOk_iff]
    refine ⟨sorted, ?_⟩
    have inside : ∀ effect ∈ effects, effect ∈ set := fun effect => (members effect).mp
    refine (List.Pairwise.imp_of_mem ?_ sorted)
    intro first second firstMember secondMember less eq
    rw [encodable.distinct first (inside first firstMember) second (inside second secondMember)
      eq] at less
    exact lt_irrefl _ less
  · rw [length_resultBytes_set perm]
    exact encodable.fits

theorem Valid.encodable (valid : Valid effects)
    (members : ∀ effect, effect ∈ effects ↔ effect ∈ set) : Encodable set := by
  obtain ⟨sorted, apart⟩ := (effOrderOk_iff effects).mp valid.order_ok
  have perm : effects.Perm set.toList :=
    (List.perm_ext_iff_of_nodup sorted.nodup.of_map set.nodup_toList).mpr fun effect =>
      (members effect).trans mem_toList.symm
  refine ⟨?_, ?_, ?_, ?_⟩
  · rw [← length_toList, ← perm.length_eq]
    exact valid.few
  · intro effect mem
    exact valid.hdrs_ok effect ((members effect).mpr mem)
  · intro first firstMember second secondMember eq
    by_contra different
    have symm : Std.Symm fun first second : EffectIn => ¬ SameTarget first second :=
      ⟨fun first second apart eq => apart ⟨eq.1.symm, eq.2.symm⟩⟩
    exact apart.forall ((members first).mpr firstMember) ((members second).mpr secondMember)
      different eq
  · rw [← length_resultBytes_set perm]
    exact valid.fits

/-- The decoder accepts exactly what the encoder writes and finds every effect again, and a set of
effects has one encoding at most. -/
theorem effectResult_codec :
    (∀ src out, (decode src out).1 = true ↔ ∃ effects cap, encode effects cap = some src) ∧
    (∀ effects cap src out, encode effects cap = some src →
      ∃ view, decode src out = (true, view) ∧ view.Holds effects) ∧
    (∀ src out view, decode src out = (true, view) →
      ∃ effects, view.Holds effects ∧
        (effects.Pairwise fun first second => ¬ SameTarget first second) ∧
        ∀ others cap, view.Holds others → src.length ≤ cap → encode others cap = some src) ∧
    (∀ src out, (decode src out).1 = false → (decode src out).2 = EffectView.zero) ∧
    (∀ set src src', Encodes src set → Encodes src' set → src = src') ∧
    ∀ set, (∃ src, Encodes src set) ↔ Encodable set := by
  have written : ∀ effects cap src out, encode effects cap = some src →
      ∃ view, decode src out = (true, view) ∧ view.Holds effects := by
    intro effects cap src out encoded
    obtain ⟨valid, -, rfl⟩ := encode_eq_some.mp encoded
    exact ⟨_, valid.decode_bytes out, holds_viewOf valid.few valid.fits⟩
  refine ⟨?_, written, ?_, ?_, ?_, ?_⟩
  · intro src out
    constructor
    · intro passed
      obtain ⟨effects, valid, rfl⟩ := exists_of_decode (Prod.ext passed rfl)
      exact ⟨effects, _, encode_eq_some.mpr ⟨valid, Nat.le_refl _, rfl⟩⟩
    · rintro ⟨effects, cap, encoded⟩
      obtain ⟨view, read, -⟩ := written effects cap src out encoded
      rw [read]
  · intro src out view passed
    obtain ⟨effects, valid, rfl⟩ := exists_of_decode passed
    obtain rfl : viewOf effects = view := by
      rw [valid.decode_bytes out] at passed
      exact (Prod.mk.inj passed).2
    have holds := holds_viewOf valid.few valid.fits
    refine ⟨effects, holds, ((effOrderOk_iff effects).mp valid.order_ok).2, ?_⟩
    intro others cap held room
    obtain rfl := held.unique holds
    exact encode_eq_some.mpr ⟨valid, room, rfl⟩
  · intro src out refused
    obtain cleared | ⟨-, view, -, passed, -⟩ := decode_cases src out
    · rw [cleared]
    · rw [passed] at refused
      cases refused
  · intro set src src' encodes encodes'
    obtain ⟨effects, valid, rfl, members⟩ := encodes_iff.mp encodes
    obtain ⟨effects', valid', rfl, members'⟩ := encodes_iff.mp encodes'
    rw [valid.sorted.eq_of_mem_iff valid'.sorted fun effect =>
      (members effect).trans (members' effect).symm]
  · intro set
    constructor
    · rintro ⟨src, encodes⟩
      obtain ⟨effects, valid, -, members⟩ := encodes_iff.mp encodes
      exact valid.encodable members
    · intro encodable
      obtain ⟨effects, valid, members⟩ := encodable.exists_valid
      exact ⟨_, encodes_iff.mpr ⟨effects, valid, rfl, members⟩⟩

def createdKey : EffectIn :=
  ⟨⟨1, kindCreate, preAbsent, 0, default, 1, 5⟩, [7], [4, 5, 6, 7, 8], rfl, rfl⟩

def deletedKey (key : UInt8) : EffectIn :=
  ⟨⟨1, kindDelete, preExists, 0, default, 1, 0⟩, [key], [], rfl, rfl⟩

theorem createdKey_ne_deletedKey (key : UInt8) :
    createdKey ∉ ({deletedKey key} : Finset EffectIn) := by
  rw [mem_singleton]
  intro eq
  exact absurd (congrArg (fun effect => effect.hdr.effectKind) eq) (by decide : (1 : UInt8) ≠ 3)

/-- One row is created and the next one deleted. -/
def twoKeys : List EffectIn := [createdKey, deletedKey 8]

theorem effectResult_codec_two :
    (∃ view, decode (resultBytes twoKeys) EffectView.zero = (true, view) ∧
      view.Holds twoKeys ∧ encode twoKeys 300 = some (resultBytes twoKeys)) ∧
    (decode [1, 2, 3] (viewOf twoKeys)).2 = EffectView.zero ∧
    ∃ set src, Encodes src set ∧ ∀ effect, effect ∈ twoKeys ↔ effect ∈ set := by
  obtain ⟨-, written, again, cleared, -, sets⟩ := effectResult_codec
  have valid : Valid twoKeys := ⟨by decide, by decide, by decide, by decide +kernel⟩
  have encoded : encode twoKeys 300 = some (resultBytes twoKeys) :=
    encode_eq_some.mpr ⟨valid, by decide +kernel, rfl⟩
  obtain ⟨view, read, holds⟩ := written _ _ _ EffectView.zero encoded
  obtain ⟨-, -, -, rewritten⟩ := again _ _ _ read
  have members (effect : EffectIn) : effect ∈ twoKeys ↔
      effect ∈ Finset.cons createdKey {deletedKey 8} (createdKey_ne_deletedKey 8) := by
    simp [twoKeys]
  obtain ⟨src, encodes⟩ := (sets _).mpr (valid.encodable members)
  exact ⟨⟨view, read, holds, rewritten _ _ holds (by decide +kernel)⟩, cleared _ _ rfl,
    _, src, encodes, members⟩

/-- Two effects that are each in order have no encoding together when they name the same
operation and key. -/
theorem clashing_effects_not_encoded :
    ∃ set : Finset EffectIn, (∀ effect ∈ set, effectHdrOk effect.hdr = true) ∧
      ∀ src, ¬ Encodes src set := by
  refine ⟨Finset.cons createdKey {deletedKey 7} (createdKey_ne_deletedKey 7), ?_, ?_⟩
  · intro effect mem
    rcases mem_cons.mp mem with rfl | other
    · decide
    · rw [mem_singleton.mp other]
      decide
  · intro src encodes
    obtain ⟨effects, valid, -, members⟩ := encodes_iff.mp encodes
    refine createdKey_ne_deletedKey 7 (mem_singleton.mpr ?_)
    exact (valid.encodable members).distinct createdKey (by simp) (deletedKey 7) (by simp)
      ⟨rfl, rfl⟩

end DnaLedger.Effect
