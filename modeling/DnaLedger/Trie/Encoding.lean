import DnaLedger.Trie.Node
import Mathlib.Data.List.GetD

/-!
# Encoded nodes

The reader of a stored node accepts a byte string only when it is what the writer gives for the node
that is read.
-/

namespace DnaLedger.Trie

open Program List Item Option

/-! ## Nibbles -/

@[simp] theorem val_highNibble (byte : UInt8) : (highNibble byte).val = byte.toNat / 16 := rfl

@[simp] theorem val_lowNibble (byte : UInt8) : (lowNibble byte).val = byte.toNat % 16 := rfl

theorem byteNibbles_pair (high low : Nibble) :
    byteNibbles (UInt8.ofNat (16 * high.val + low.val)) = [high, low] := by
  have value : (UInt8.ofNat (16 * high.val + low.val)).toNat = 16 * high.val + low.val := by
    apply UInt8.toNat_ofNat_of_lt
    rw [UInt8.size]
    omega
  have first : highNibble (UInt8.ofNat (16 * high.val + low.val)) = high := by
    apply Fin.ext
    rw [val_highNibble, value]
    omega
  have second : lowNibble (UInt8.ofNat (16 * high.val + low.val)) = low := by
    apply Fin.ext
    rw [val_lowNibble, value]
    omega
  rw [byteNibbles, first, second]

theorem pairs_byteNibbles (byte : UInt8) :
    UInt8.ofNat (16 * (highNibble byte).val + (lowNibble byte).val) = byte := by
  have parts : 16 * (highNibble byte).val + (lowNibble byte).val = byte.toNat := by
    rw [val_highNibble, val_lowNibble]
    omega
  rw [parts, UInt8.ofNat_toNat]

theorem pairs_flatMap (bytes : Bytes) : pairs (bytes.flatMap byteNibbles) = bytes := by
  induction bytes with
  | nil => rfl
  | cons byte bytes ih =>
    rw [flatMap_cons]
    show UInt8.ofNat _ :: pairs (bytes.flatMap byteNibbles) = byte :: bytes
    rw [pairs_byteNibbles, ih]

theorem flatMap_pairs : ∀ {nib : List Nibble}, nib.length % 2 = 0 →
    (pairs nib).flatMap byteNibbles = nib
  | [], _ => rfl
  | [_], odd => by cases odd
  | high :: low :: rest, even => by
      have even' : rest.length % 2 = 0 := by
        rw [length_cons, length_cons] at even
        omega
      rw [pairs, flatMap_cons, byteNibbles_pair, flatMap_pairs even']
      rfl

theorem length_flatMap_byteNibbles (bytes : Bytes) :
    (bytes.flatMap byteNibbles).length = 2 * bytes.length := by
  induction bytes with
  | nil => rfl
  | cons byte bytes ih =>
    rw [flatMap_cons, length_append, ih, length_cons]
    show 2 + _ = _
    omega

theorem length_pairs_le : ∀ nib : List Nibble, (pairs nib).length ≤ nib.length
  | [] => Nat.le_refl 0
  | [_] => Nat.zero_le 1
  | _ :: _ :: rest => by
      have below := length_pairs_le rest
      rw [pairs, length_cons, length_cons, length_cons]
      omega

@[simp] theorem length_pathToNibbles (path : Digest) :
    (pathToNibbles path).length = pathNibbles := by
  rw [pathToNibbles, length_flatMap_byteNibbles, path.property]
  rfl

theorem pathToNibbles_injective : Function.Injective pathToNibbles := by
  intro first second eq
  apply Subtype.ext
  rw [← pairs_flatMap first.val, ← pairs_flatMap second.val]
  exact congrArg pairs eq

variable {nib : List Nibble}

theorem compact_even (even : nib.length % 2 = 0) (isLeaf : Bool) :
    compact nib isLeaf = UInt8.ofNat (16 * compactFlag isLeaf) :: pairs nib := by
  rw [compact, if_pos even]

theorem compact_odd {first : Nibble} {rest : List Nibble} (even : rest.length % 2 = 0)
    (isLeaf : Bool) : compact (first :: rest) isLeaf =
      UInt8.ofNat (16 * (compactFlag isLeaf + 1) + first.val) :: pairs rest := by
  have odd : ¬ (first :: rest).length % 2 = 0 := by
    rw [length_cons]
    omega
  rw [compact, if_neg odd]
  rfl

theorem length_compact_le (nib : List Nibble) (isLeaf : Bool) :
    (compact nib isLeaf).length ≤ nib.length + 1 := by
  by_cases even : nib.length % 2 = 0
  · rw [compact_even even, length_cons]
    exact Nat.succ_le_succ (length_pairs_le nib)
  · cases nib with
    | nil => exact absurd rfl even
    | cons first rest =>
      have even' : rest.length % 2 = 0 := by
        rw [length_cons] at even
        omega
      have below := length_pairs_le rest
      rw [compact_odd even', length_cons, length_cons]
      omega

variable {item : Item} {max : Nat} {items : List Item}

theorem compact_of_readCompact {isLeaf : Bool} (read : readCompact item = some (nib, isLeaf)) :
    item.isList = false ∧ compact nib isLeaf = item.payload ∧ nib.length ≤ pathNibbles := by
  rw [readCompact] at read
  split at read
  next => cases read
  next first rest payload =>
    simp only [ite_none_left_eq_some] at read
    obtain ⟨plain, padded, short, read⟩ := read
    cases read
    have top : first.toNat < 256 := first.toNat_lt
    have string : item.isList = false := by
      cases list : item.isList with
      | false => rfl
      | true => exact absurd (Or.inl list) plain
    have low : ¬ 3 < first.toNat / 16 := fun high => plain (Or.inr high)
    have even : (rest.flatMap byteNibbles).length % 2 = 0 := by
      rw [length_flatMap_byteNibbles]
      omega
    refine ⟨string, ?_, Nat.not_lt.mp short⟩
    rw [payload]
    by_cases odd : first.toNat / 16 % 2 = 1
    · have value : 16 * (compactFlag (decide (first.toNat / 16 / 2 % 2 = 1)) + 1) +
          (lowNibble first).val = first.toNat := by
        rw [val_lowNibble, compactFlag]
        split <;> simp_all <;> omega
      rw [oddNibble, if_pos odd, singleton_append, compact_odd even, pairs_flatMap,
        value, UInt8.ofNat_toNat]
    · have pad : first.toNat % 16 = 0 := by
        by_contra ne
        exact padded ⟨by omega, ne⟩
      have value : 16 * compactFlag (decide (first.toNat / 16 / 2 % 2 = 1)) =
          first.toNat := by
        rw [compactFlag]
        split <;> simp_all <;> omega
      rw [oddNibble, if_neg odd, nil_append, compact_even even, pairs_flatMap, value,
        UInt8.ofNat_toNat]

theorem readCompact_compact (fits : nib.length ≤ pathNibbles) (isLeaf : Bool)
    (string : item.isList = false) (payload : item.payload = compact nib isLeaf) :
    readCompact item = some (nib, isLeaf) := by
  have flag : compactFlag isLeaf = 0 ∧ isLeaf = false ∨ compactFlag isLeaf = 2 ∧ isLeaf = true := by
    cases isLeaf
    · exact Or.inl ⟨rfl, rfl⟩
    · exact Or.inr ⟨rfl, rfl⟩
  by_cases even : nib.length % 2 = 0
  · rw [compact_even even] at payload
    have value : (UInt8.ofNat (16 * compactFlag isLeaf)).toNat = 16 * compactFlag isLeaf := by
      apply UInt8.toNat_ofNat_of_lt
      rw [UInt8.size]
      omega
    have plain : oddNibble (UInt8.ofNat (16 * compactFlag isLeaf)) = [] := by
      rw [oddNibble, value, if_neg]
      omega
    have short : ¬ pathNibbles < nib.length := Nat.not_lt.mpr fits
    rw [readCompact, payload]
    simp only [plain, value, string, flatMap_pairs even, nil_append, if_neg short]
    rcases flag with ⟨zero, rfl⟩ | ⟨two, rfl⟩
    · rw [zero]
      rfl
    · rw [two]
      rfl
  · cases nib with
    | nil => exact absurd rfl even
    | cons first rest =>
      have even' : rest.length % 2 = 0 := by
        rw [length_cons] at even
        omega
      rw [compact_odd even'] at payload
      have value : (UInt8.ofNat (16 * (compactFlag isLeaf + 1) + first.val)).toNat =
          16 * (compactFlag isLeaf + 1) + first.val := by
        apply UInt8.toNat_ofNat_of_lt
        rw [UInt8.size]
        omega
      have quotient : (16 * (compactFlag isLeaf + 1) + first.val) / 16 =
          compactFlag isLeaf + 1 := by omega
      have beside : oddNibble (UInt8.ofNat (16 * (compactFlag isLeaf + 1) + first.val)) =
          [first] := by
        have low : lowNibble (UInt8.ofNat (16 * (compactFlag isLeaf + 1) + first.val)) =
            first := by
          apply Fin.ext
          rw [val_lowNibble, value]
          omega
        rw [oddNibble, value, quotient, low, if_pos]
        omega
      have short : ¬ pathNibbles < (first :: rest).length := Nat.not_lt.mpr fits
      rw [readCompact, payload]
      simp only [beside, value, quotient, string, flatMap_pairs even', singleton_append,
        if_neg short]
      rcases flag with ⟨zero, rfl⟩ | ⟨two, rfl⟩
      · rw [zero]
        rfl
      · rw [two]
        rfl

theorem splitList_spec {payload : Bytes} (split : splitList max payload = some items) :
    items.flatMap raw = payload ∧ ∀ item ∈ items, item.raw = item.encoded := by
  induction max generalizing payload items with
  | zero =>
    rw [splitList] at split
    split at split
    next empty =>
      cases split
      exact ⟨(eq_nil_of_length_eq_zero empty).symm, fun _ mem => by cases mem⟩
    next => cases split
  | succ max ih =>
    rw [splitList] at split
    split at split
    next empty =>
      cases split
      exact ⟨(eq_nil_of_length_eq_zero empty).symm, fun _ mem => by cases mem⟩
    next =>
      split at split
      next => cases split
      next item read =>
        obtain ⟨rest, later, rfl⟩ := map_eq_some_iff.mp split
        obtain ⟨eq, ⟨back, whole⟩⟩ := decodeItem_spec read
        obtain ⟨joined, others⟩ := ih later
        rw [← whole, drop_left] at joined
        refine ⟨by rw [flatMap_cons, joined, whole], ?_⟩
        rintro other mem
        rcases mem_cons.mp mem with rfl | mem
        · exact eq
        · exact others other mem

/-- The reader takes an item from the front of whatever follows it. -/
def Reads (bytes : Bytes) (item : Item) : Prop :=
  item.raw = bytes ∧ ∀ rest, decodeItem (bytes ++ rest) = some item

theorem splitList_flatten {parts : List Bytes} (reads : Forall₂ Reads parts items)
    (few : items.length ≤ max) :
    splitList max parts.flatten = some items := by
  induction reads generalizing max with
  | nil => cases max <;> rfl
  | @cons part item parts items first _ ih =>
    obtain ⟨max, rfl⟩ : ∃ less, max = less + 1 := ⟨max - 1, by
      rw [length_cons] at few
      omega⟩
    have filled : ¬ (part :: parts).flatten.length = 0 := by
      intro blank
      have empty : part = [] := by
        rw [flatten_cons, length_append] at blank
        exact eq_nil_of_length_eq_zero (by omega)
      have read := first.2 []
      rw [empty] at read
      cases read
    rw [splitList, if_neg filled, flatten_cons, first.2]
    dsimp only
    rw [first.1, drop_left, ih (Nat.le_of_succ_le_succ few)]
    rfl

/-! ## Decoded nodes encode to their bytes -/

variable {σ : Type} (hash : Hash) (store : NodeStore σ) (write : Bool)

/-- Encoding a node gives the bytes and leaves the store alone. -/
def Encodes (node : TNode) (bytes : Bytes) : Prop :=
  ∀ state, exec (nodeEncode hash store write node) state = (.ok bytes, state)

/-- What decoding gives: a node without a digest that encodes to the bytes it came from. -/
def Faithful (decode : Bytes → Option TNode) : Prop :=
  ∀ bytes node, decode bytes = some node →
    node.present = true ∧ node.knownDigest = none ∧ Encodes hash store write node bytes

variable {hash store write}

theorem exec_mapM_ok {α β : Type} {values : List α} {step : α → Program σ β} {image : α → β}
    {state : σ} (each : ∀ value ∈ values, exec (step value) state = (.ok (image value), state)) :
    exec (values.mapM step) state = (.ok (values.map image), state) := by
  induction values with
  | nil => rfl
  | cons value rest ih =>
    rw [mapM_cons, exec_bind_ok (each value mem_cons_self),
      exec_bind_ok (ih fun other mem => each other (mem_cons_of_mem value mem))]
    rfl

variable {expectBranch : Bool} {child : TNode} {nib : List Nibble}
variable {decode : Nat → Bytes → Option TNode} {items : List Item}

theorem putChildRef_of_decodeChild {decode : Bytes → Option TNode}
    (faithful : Faithful hash store write decode) {item : Item} (eq : item.raw = item.encoded)
    (read : decodeChild decode expectBranch item = some child) (state : σ) :
    exec (putChildRef hash store write child (nodeEncode hash store write child)) state =
      (.ok item.raw, state) := by
  rw [decodeChild] at read
  split at read
  next list =>
    obtain ⟨small, read⟩ := ite_none_left_eq_some.mp read
    obtain ⟨there, unknown, encodes⟩ := faithful _ _ read
    have room : item.raw.length < inlineLimit := Nat.not_le.mp small
    rw [putChildRef, if_pos there, unknown]
    dsimp only
    rw [exec_bind_ok (encodes state), embed, if_pos room]
    rfl
  next string =>
    have written : item.raw = putBytes item.payload := by
      rw [eq, encoded, if_neg string]
    split at read
    next empty =>
      obtain ⟨-, ⟨⟩⟩ := ite_none_left_eq_some.mp read
      rw [written, eq_nil_of_length_eq_zero empty]
      rfl
    next =>
      split at read
      next fits =>
        cases read
        rw [written]
        rfl
      next => cases read

theorem encodes_leaf (fits : nib.length ≤ pathNibbles) (mark : Mark) (val : Bytes) :
    Encodes hash store write (.leaf mark nib val)
      (wrapList (putBytes (compact nib true) ++ putBytes val)) := by
  intro state
  rw [nodeEncode, putCompact, if_neg (Nat.not_lt.mpr fits)]
  rfl

theorem encodes_branch {child : Nibble → TNode} (mark : Mark) {below : Nibble → Bytes}
    (encoded : ∀ k state, exec (putChildRef hash store write (child k)
      (nodeEncode hash store write (child k))) state = (.ok (below k), state)) :
    Encodes hash store write (.branch mark child)
      (wrapList ((finRange 16).flatMap below ++ putBytes [])) := by
  intro state
  rw [nodeEncode, exec_bind_ok (exec_mapM_ok fun k _ => encoded k state), flatMap_def]
  rfl

variable {depth : Nat} {node : TNode}

section

variable (faithful : ∀ depth, Faithful hash store write (decode depth))

include faithful

theorem faithful_decodePair
    {key value : Item} (eq : key.raw = key.encoded) (same' : value.raw = value.encoded)
    (decoded : decodePair decode depth key value = some node) :
    node.present = true ∧ node.knownDigest = none ∧
      Encodes hash store write node (wrapList (key.raw ++ value.raw)) := by
  rw [decodePair] at decoded
  split at decoded
  next => cases decoded
  next nib read =>
    obtain ⟨good, decoded⟩ := ite_none_left_eq_some.mp decoded
    cases decoded
    obtain ⟨string, bytes, fits⟩ := compact_of_readCompact read
    have string' : value.isList = false := by
      cases list : value.isList with
      | false => rfl
      | true => exact absurd (Or.inr (Or.inl list)) good
    rw [eq, same', encoded, encoded, string, string', if_neg Bool.false_ne_true,
      if_neg Bool.false_ne_true, ← bytes]
    exact ⟨rfl, rfl, encodes_leaf fits _ _⟩
  next nib read =>
    obtain ⟨-, decoded⟩ := ite_none_left_eq_some.mp decoded
    obtain ⟨string, bytes, fits⟩ := compact_of_readCompact read
    split at decoded
    next => cases decoded
    next => cases decoded
    next child below =>
      cases decoded
      have encoded := putChildRef_of_decodeChild (faithful _) same' below
      rw [eq, Item.encoded, string, if_neg Bool.false_ne_true, ← bytes]
      refine ⟨rfl, rfl, fun state => ?_⟩
      rw [nodeEncode, putCompact, if_neg (Nat.not_lt.mpr fits), exec_bind_ok (exec_liftExcept _ _),
        exec_bind_ok (encoded state)]
      rfl

theorem faithful_decodeBranch (same : ∀ item ∈ items, item.raw = item.encoded)
    (decoded : decodeBranch decode depth items = some node) :
    node.present = true ∧ node.knownDigest = none ∧
      Encodes hash store write node (wrapList (items.flatMap raw)) := by
  rw [decodeBranch] at decoded
  obtain ⟨-, decoded⟩ := ite_none_left_eq_some.mp decoded
  split at decoded
  next value last =>
    obtain ⟨good, decoded⟩ := ite_none_left_eq_some.mp decoded
    split at decoded
    next => cases decoded
    next children read =>
      obtain ⟨-, decoded⟩ := ite_none_left_eq_some.mp decoded
      cases decoded
      have parts : items = items.take 16 ++ [value] := by
        rw [← last, take_append_drop]
      have size : (items.take 16).length = 16 := by
        have total := congrArg length last
        rw [length_drop, length_singleton] at total
        rw [length_take]
        omega
      have mem : value ∈ items := by
        rw [parts]
        exact mem_append_right _ mem_cons_self
      have string : value.isList = false := by
        cases list : value.isList with
        | false => rfl
        | true => exact absurd (Or.inl list) good
      have empty : value.payload = [] := by
        apply eq_nil_of_length_eq_zero
        by_contra full
        exact good (Or.inr full)
      have final : value.raw = putBytes [] := by
        rw [same value mem, encoded, string, if_neg Bool.false_ne_true, empty]
      have rows := mapM_eq_some.mp read
      have count : children.length = 16 := by rw [← rows.length_eq, size]
      refine ⟨rfl, rfl, ?_⟩
      have joined : items.flatMap raw =
          (finRange 16).flatMap (fun (k : Nibble) =>
            ((items.take 16).map raw).getD k []) ++ putBytes [] := by
        have listed : (finRange 16).map
            (fun (k : Nibble) => ((items.take 16).map raw).getD k []) =
              (items.take 16).map raw := by
          apply ext_getElem
          · rw [length_map, length_finRange, length_map, size]
          · intro i inside inside'
            rw [getElem_map, getElem_finRange]
            exact (getD_eq_getElem _ _ inside')
        conv_lhs => rw [parts]
        rw [flatMap_append, flatMap_singleton, final, flatMap_def, flatMap_def, listed]
      rw [joined]
      apply encodes_branch
      intro k state
      have inside : k.val < (items.take 16).length := by
        rw [size]
        exact k.isLt
      have inside' : k.val < children.length := by
        rw [count]
        exact k.isLt
      have child := rows.get inside inside'
      have eq := putChildRef_of_decodeChild (faithful _)
        (same _ (mem_of_mem_take (getElem_mem inside))) child state
      rw [getD_eq_getElem _ _ inside']
      rw [getD_eq_getElem _ _ (by rwa [length_map]), getElem_map]
      exact eq
  next => cases decoded

end

theorem faithful_decodeNode (room : Nat) : ∀ (expectBranch : Bool) (depth : Nat),
    Faithful hash store write (decodeNode room expectBranch depth) := by
  induction room with
  | zero =>
    intro expectBranch depth bytes node decoded
    cases decoded
  | succ room ih =>
    intro expectBranch depth bytes node decoded
    rw [decodeNode] at decoded
    obtain ⟨-, decoded⟩ := ite_none_left_eq_some.mp decoded
    split at decoded
    next => cases decoded
    next top read =>
      obtain ⟨whole, decoded⟩ := ite_none_left_eq_some.mp decoded
      simp only [Bool.or_eq_true, Bool.not_eq_true', bne_iff_ne, ne_eq, not_or,
        Bool.not_eq_false, not_not] at whole
      obtain ⟨list, size⟩ := whole
      obtain ⟨eq, front⟩ := decodeItem_spec read
      split at decoded
      next => cases decoded
      next items split =>
        obtain ⟨joined, each⟩ := splitList_spec split
        have bytes_eq : bytes = wrapList (items.flatMap raw) := by
          rw [← front.eq_of_length size, eq, encoded, if_pos list, joined]
        rw [bytes_eq]
        unfold decodeItems at decoded
        split at decoded
        next key value =>
          obtain ⟨-, decoded⟩ := ite_none_left_eq_some.mp decoded
          have pair := faithful_decodePair (ih true) (each key mem_cons_self)
            (each value (mem_cons_of_mem _ mem_cons_self)) decoded
          rwa [flatMap_cons, flatMap_singleton]
        next => exact faithful_decodeBranch (ih false) each decoded

end DnaLedger.Trie
