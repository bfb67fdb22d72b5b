import DnaLedger.Foundation.Layout

/-!
# The item encoding of trie nodes

`evm_trie_rlp.c` writes byte strings and lists of items with a length in front, and reads one item
at a time. A writer appends to a buffer; here it returns what it appends.
-/

namespace DnaLedger.Trie

open List UInt8

/-- The bytes of a length, lowest first: the loop of `make_header` over its eight bytes. -/
def lengthBytes : Nat → Nat → Bytes
  | 0, _ => []
  | room + 1, value =>
    if value = 0 then [] else ofNat (value % 256) :: lengthBytes room (value / 256)

/-- The header of a payload; the base is `0x80` for strings and `0xc0` for lists. -/
def makeHeader (base length : Nat) : Bytes :=
  if length ≤ 55 then
    [ofNat (base + length)]
  else
    ofNat (base + 55 + (lengthBytes 8 length).length) :: (lengthBytes 8 length).reverse

/-- A single byte below `0x80` that stands for itself. -/
def isSelf : Bytes → Bool
  | [byte] => byte.toNat < 0x80
  | _ => false

def putBytes (data : Bytes) : Bytes :=
  if isSelf data then data else makeHeader 0x80 data.length ++ data

def wrapList (payload : Bytes) : Bytes :=
  makeHeader 0xc0 payload.length ++ payload

def readLongLen (bytes : Bytes) : Option Nat :=
  if bytes.length = 0 ∨ 8 < bytes.length ∨ bytes.head? = some 0 then none
  else if ofBigEndian bytes ≤ 55 then none
  else some (ofBigEndian bytes)

/-- A decoded item: its header and payload as they stand in the input. -/
structure Item where
  isList : Bool
  header : Bytes
  payload : Bytes

def Item.raw (item : Item) : Bytes := item.header ++ item.payload

/-- The end of `evm_trie_rlp_decode_item`: the length fits, and one byte below `0x80` is not
wrapped. -/
def takeItem (isList : Bool) (input : Bytes) (headerLength length : Nat) : Option Item :=
  if input.length - headerLength < length then none
  else if !isList && headerLength == 1 && isSelf ((input.drop 1).take length) then none
  else some ⟨isList, input.take headerLength, (input.drop headerLength).take length⟩

def takeLongItem (isList : Bool) (input : Bytes) (count : Nat) : Option Item :=
  if input.length < 1 + count then none
  else
    match readLongLen ((input.drop 1).take count) with
    | none => none
    | some length => takeItem isList input (1 + count) length

def decodeItem (input : Bytes) : Option Item :=
  match input with
  | [] => none
  | first :: _ =>
    let h := first.toNat
    if h < 0x80 then some ⟨false, [], [first]⟩
    else if h ≤ 0xb7 then takeItem false input 1 (h - 0x80)
    else if h < 0xc0 then takeLongItem false input (h - 0xb7)
    else if h ≤ 0xf7 then takeItem true input 1 (h - 0xc0)
    else takeLongItem true input (h - 0xf7)

theorem ofBigEndian_reverse_cons (byte : UInt8) (bytes : Bytes) :
    ofBigEndian (byte :: bytes).reverse = ofBigEndian bytes.reverse * 256 + byte.toNat := by
  rw [reverse_cons, ofBigEndian_append]
  simp [ofBigEndian]

theorem length_lengthBytes_le (room value : Nat) : (lengthBytes room value).length ≤ room := by
  induction room generalizing value with
  | zero => exact Nat.le_refl 0
  | succ room ih =>
    rw [lengthBytes]
    split
    next => exact Nat.zero_le _
    next => exact Nat.succ_le_succ (ih _)

theorem toNat_low_byte (value : Nat) : (ofNat (value % 256)).toNat = value % 256 :=
  toNat_ofNat_of_lt (Nat.mod_lt _ (by decide))

theorem ofBigEndian_lengthBytes {room value : Nat} (fits : value < 256 ^ room) :
    ofBigEndian (lengthBytes room value).reverse = value := by
  induction room generalizing value with
  | zero =>
    have zero : value = 0 := Nat.lt_one_iff.mp fits
    rw [zero]
    rfl
  | succ room ih =>
    rw [lengthBytes]
    split
    next zero =>
      rw [zero]
      rfl
    next =>
      have smaller : value / 256 < 256 ^ room := by
        apply Nat.div_lt_of_lt_mul
        rwa [Nat.pow_succ, Nat.mul_comm] at fits
      rw [ofBigEndian_reverse_cons, ih smaller, toNat_low_byte]
      omega

theorem head_lengthBytes {room value : Nat} (fits : value < 256 ^ room) :
    (lengthBytes room value).reverse.head? ≠ some 0 := by
  induction room generalizing value with
  | zero => simp [lengthBytes]
  | succ room ih =>
    rw [lengthBytes]
    split
    next => simp
    next ne =>
      have smaller : value / 256 < 256 ^ room := by
        apply Nat.div_lt_of_lt_mul
        rwa [Nat.pow_succ, Nat.mul_comm] at fits
      rw [reverse_cons, head?_append]
      by_cases last : value / 256 = 0
      · have empty : lengthBytes room (value / 256) = [] := by
          rw [last]
          cases room <;> rfl
        rw [empty]
        intro zero
        have byte := congrArg toNat (Option.some.inj zero)
        rw [toNat_low_byte] at byte
        have value_zero : value % 256 = 0 := byte
        omega
      · intro zero
        cases found : (lengthBytes room (value / 256)).reverse.head? with
        | none =>
          rw [head?_eq_none_iff, reverse_eq_nil_iff] at found
          have eq := ofBigEndian_lengthBytes smaller
          rw [found] at eq
          exact last eq.symm
        | some byte =>
          rw [found] at zero
          exact ih smaller (found.trans zero)

variable {bytes input payload data : Bytes} {length count : Nat} {isList : Bool} {item : Item}
variable {first : UInt8}

theorem lengthBytes_ofBigEndian (head : bytes.reverse.head? ≠ some 0) {room : Nat}
    (fits : bytes.length ≤ room) :
    lengthBytes room (ofBigEndian bytes.reverse) = bytes := by
  induction bytes generalizing room with
  | nil => cases room <;> rfl
  | cons byte bytes ih =>
    obtain ⟨room, rfl⟩ : ∃ less, room = less + 1 := ⟨room - 1, by
      rw [length_cons] at fits
      omega⟩
    have low : byte.toNat < 256 := byte.toNat_lt
    have higher : bytes.reverse.head? ≠ some 0 := by
      intro zero
      rw [reverse_cons, head?_append, zero] at head
      exact head rfl
    have rest := ih higher (Nat.le_of_succ_le_succ fits)
    rw [ofBigEndian_reverse_cons, lengthBytes]
    have ne : ofBigEndian bytes.reverse * 256 + byte.toNat ≠ 0 := by
      intro zero
      have above : ofBigEndian bytes.reverse = 0 := by omega
      have below : byte = 0 := UInt8.toNat_inj.mp (by
        rw [UInt8.toNat_zero]
        omega)
      rw [above] at rest
      have empty : bytes = [] := by
        rw [← rest]
        cases room <;> rfl
      rw [empty, below] at head
      exact head rfl
    have digit : (ofBigEndian bytes.reverse * 256 + byte.toNat) % 256 = byte.toNat := by omega
    have quotient : (ofBigEndian bytes.reverse * 256 + byte.toNat) / 256 =
        ofBigEndian bytes.reverse := by omega
    rw [if_neg ne, digit, quotient, rest, UInt8.ofNat_toNat]

def lengthLimit : Nat := 2 ^ 64

theorem readLongLen_lengthBytes (long : 55 < length) (fits : length < lengthLimit) :
    readLongLen (lengthBytes 8 length).reverse = some length := by
  have value : ofBigEndian (lengthBytes 8 length).reverse = length :=
    ofBigEndian_lengthBytes fits
  have filled : (lengthBytes 8 length).reverse.length ≠ 0 := by
    intro empty
    rw [eq_nil_of_length_eq_zero empty] at value
    have zero : length = 0 := value.symm
    omega
  have short : ¬ 8 < (lengthBytes 8 length).reverse.length := by
    rw [length_reverse]
    exact Nat.not_lt.mpr (length_lengthBytes_le 8 length)
  rw [readLongLen, if_neg, value, if_neg (Nat.not_le.mpr long)]
  rintro (empty | many | zero)
  · exact filled empty
  · exact short many
  · exact head_lengthBytes fits zero

theorem lengthBytes_of_readLongLen (read : readLongLen bytes = some length) :
    55 < length ∧ (lengthBytes 8 length).reverse = bytes := by
  rw [readLongLen] at read
  obtain ⟨good, read⟩ := Option.ite_none_left_eq_some.mp read
  obtain ⟨long, ⟨⟩⟩ := Option.ite_none_left_eq_some.mp read
  have back := @lengthBytes_ofBigEndian bytes.reverse (by
    rw [reverse_reverse]
    exact fun zero => good (Or.inr (Or.inr zero))) 8 (by
    rw [length_reverse]
    exact Nat.not_lt.mp fun many => good (Or.inr (Or.inl many)))
  rw [reverse_reverse] at back
  exact ⟨Nat.not_le.mp long, by rw [back, reverse_reverse]⟩

/-! ## Reading back what was written -/

def Item.encoded (item : Item) : Bytes :=
  if item.isList then wrapList item.payload else putBytes item.payload

def headerBase (isList : Bool) : Nat := if isList then 0xc0 else 0x80

theorem takeItem_spec {headerLength : Nat}
    (taken : takeItem isList input headerLength length = some item) :
    item = ⟨isList, input.take headerLength, (input.drop headerLength).take length⟩ ∧
      length ≤ input.length - headerLength ∧
      (isList = false → headerLength = 1 → isSelf item.payload = false) := by
  simp only [takeItem, Option.ite_none_left_eq_some] at taken
  obtain ⟨fits, wrapped, ⟨⟩⟩ := taken
  refine ⟨rfl, Nat.not_lt.mp fits, ?_⟩
  rintro rfl rfl
  simpa using wrapped

theorem encoded_of_header {header : Bytes}
    (made : header = makeHeader (headerBase isList) payload.length)
    (wrapped : isList = false → isSelf payload = false) :
    Item.raw ⟨isList, header, payload⟩ = Item.encoded ⟨isList, header, payload⟩ := by
  cases isList with
  | true => rw [Item.raw, Item.encoded, made, if_pos rfl, wrapList, headerBase, if_pos rfl]
  | false =>
    rw [Item.raw, Item.encoded, made, if_neg Bool.false_ne_true, putBytes, wrapped rfl,
      if_neg Bool.false_ne_true, headerBase, if_neg Bool.false_ne_true]

variable (isList : Bool)

theorem takeItem_short (head : input.head? = some first)
    (value : first.toNat = headerBase isList + length) (short : length ≤ 55)
    (taken : takeItem isList input 1 length = some item) :
    item.raw = item.encoded ∧ item.raw <+: input ∧ item.isList = isList := by
  obtain ⟨rfl, fits, wrapped⟩ := takeItem_spec taken
  obtain ⟨rest, rfl⟩ : ∃ rest, input = first :: rest := head?_eq_some_iff.mp head
  have payload : (take length rest).length = length := by
    rw [length_take]
    exact Nat.min_eq_left fits
  refine ⟨?_, ?_, rfl⟩
  · apply encoded_of_header
    · have size : ((first :: rest).drop 1 |>.take length).length = length := payload
      rw [size, makeHeader, if_pos short, ← value, UInt8.ofNat_toNat]
      rfl
    · exact fun string => wrapped string rfl
  · exact (prefix_append_right_inj [first]).mpr ( take_prefix length rest)

theorem takeLongItem_spec (head : input.head? = some first)
    (value : first.toNat = headerBase isList + 55 + count)
    (taken : takeLongItem isList input count = some item) :
    item.raw = item.encoded ∧ item.raw <+: input ∧ item.isList = isList := by
  rw [takeLongItem] at taken
  obtain ⟨room, taken⟩ := Option.ite_none_left_eq_some.mp taken
  split at taken
  next => cases taken
  next length read =>
    obtain ⟨rest, rfl⟩ : ∃ rest, input = first :: rest := head?_eq_some_iff.mp head
    obtain ⟨long, bytes⟩ := lengthBytes_of_readLongLen read
    obtain ⟨rfl, fits, -⟩ := takeItem_spec taken
    rw [length_cons] at room fits
    have wide : (take count rest).length = count := by
      rw [length_take]
      omega
    have payload : (take length (drop count rest)).length = length := by
      rw [length_take, length_drop]
      omega
    have header : take (1 + count) (first :: rest) = first :: take count rest := by
      rw [Nat.add_comm, take_succ_cons]
    have below : drop (1 + count) (first :: rest) = drop count rest := by
      rw [Nat.add_comm, drop_succ_cons]
    have number : take count rest = (lengthBytes 8 length).reverse := bytes.symm
    have digits : (lengthBytes 8 length).length = count := by
      rw [← length_reverse, ← number, wide]
    rw [header, below]
    refine ⟨?_, ?_, rfl⟩
    · apply encoded_of_header
      · rw [payload, makeHeader, if_neg (Nat.not_le.mpr long), digits, ← value,
          UInt8.ofNat_toNat, number]
      · intro string
        cases payloadShape : take length (drop count rest) with
        | nil => rfl
        | cons byte tail =>
          cases tail with
          | nil =>
            rw [payloadShape, length_singleton] at payload
            omega
          | cons => rfl
    · have parts : first :: rest =
          (first :: take count rest) ++ drop count rest := by
        rw [cons_append, take_append_drop]
      rw [parts, Item.raw]
      exact (prefix_append_right_inj _).mpr ( take_prefix length _)

@[simp] theorem headerBase_string : headerBase false = 0x80 := rfl

@[simp] theorem headerBase_list : headerBase true = 0xc0 := rfl

theorem headerBase_le : headerBase isList ≤ 0xc0 := by
  cases isList <;> decide

theorem decodeItem_spec (read : decodeItem input = some item) :
    item.raw = item.encoded ∧ item.raw <+: input := by
  cases input with
  | nil => cases read
  | cons first rest =>
    have top : first.toNat < 256 := first.toNat_lt
    simp only [decodeItem] at read
    split at read
    next self =>
      cases read
      have alone : isSelf [first] = true := by simpa [isSelf] using self
      refine ⟨?_, prefix_append [first] rest⟩
      rw [Item.raw, Item.encoded, if_neg Bool.false_ne_true, putBytes, alone, if_pos rfl]
      rfl
    next =>
      split at read
      next =>
        have value : first.toNat = headerBase false + (first.toNat - 0x80) := by
          rw [headerBase_string]
          omega
        obtain ⟨eq, front, -⟩ := takeItem_short false rfl value (by omega) read
        exact ⟨eq, front⟩
      next =>
        split at read
        next =>
          have value : first.toNat = headerBase false + 55 + (first.toNat - 0xb7) := by
            rw [headerBase_string]
            omega
          obtain ⟨eq, front, -⟩ := takeLongItem_spec false rfl value read
          exact ⟨eq, front⟩
        next =>
          split at read
          next =>
            have value : first.toNat = headerBase true + (first.toNat - 0xc0) := by
              rw [headerBase_list]
              omega
            obtain ⟨eq, front, -⟩ := takeItem_short true rfl value (by omega) read
            exact ⟨eq, front⟩
          next =>
            have value : first.toNat = headerBase true + 55 + (first.toNat - 0xf7) := by
              rw [headerBase_list]
              omega
            obtain ⟨eq, front, -⟩ := takeLongItem_spec true rfl value read
            exact ⟨eq, front⟩

theorem decodeItem_short (short : length ≤ 55) (rest : Bytes) :
    decodeItem (ofNat (headerBase isList + length) :: rest) =
      takeItem isList (ofNat (headerBase isList + length) :: rest) 1 length := by
  have value : (ofNat (headerBase isList + length)).toNat = headerBase isList + length := by
    have low := headerBase_le isList
    apply toNat_ofNat_of_lt
    rw [size]
    omega
  simp only [decodeItem, value]
  cases isList with
  | false =>
    rw [headerBase_string, if_neg (by omega), if_pos (by omega), Nat.add_sub_cancel_left]
  | true =>
    rw [headerBase_list, if_neg (by omega), if_neg (by omega), if_neg (by omega),
      if_pos (by omega), Nat.add_sub_cancel_left]

theorem decodeItem_long (full : 1 ≤ count) (few : count ≤ 8) (rest : Bytes) :
    decodeItem (ofNat (headerBase isList + 55 + count) :: rest) =
      takeLongItem isList (ofNat (headerBase isList + 55 + count) :: rest) count := by
  have value : (ofNat (headerBase isList + 55 + count)).toNat =
      headerBase isList + 55 + count := by
    have low := headerBase_le isList
    apply toNat_ofNat_of_lt
    rw [size]
    omega
  simp only [decodeItem, value]
  cases isList with
  | false =>
    rw [headerBase_string, if_neg (by omega), if_neg (by omega), if_pos (by omega),
      Nat.add_sub_cancel_left]
  | true =>
    rw [headerBase_list, if_neg (by omega), if_neg (by omega), if_neg (by omega),
      if_neg (by omega), Nat.add_sub_cancel_left]

theorem takeItem_header (header payload rest : Bytes)
    (wrapped : isList = false → header.length = 1 → isSelf payload = false) :
    takeItem isList (header ++ payload ++ rest) header.length payload.length =
      some ⟨isList, header, payload⟩ := by
  have fits : ¬ (header ++ payload ++ rest).length - header.length < payload.length := by
    rw [length_append, length_append]
    omega
  have below : ((header ++ payload ++ rest).drop header.length).take payload.length = payload := by
    rw [append_assoc, drop_left, take_left]
  rw [takeItem, if_neg fits, below, append_assoc, take_left, if_neg]
  intro unwrapped
  simp only [Bool.and_eq_true, Bool.not_eq_true', beq_iff_eq] at unwrapped
  obtain ⟨⟨string, short⟩, self⟩ := unwrapped
  rw [← short, drop_left, take_left, wrapped string short] at self
  cases self

theorem decodeItem_makeHeader (fits : payload.length < lengthLimit)
    (wrapped : isList = false → isSelf payload = false) (rest : Bytes) :
    decodeItem (makeHeader (headerBase isList) payload.length ++ payload ++ rest) =
      some ⟨isList, makeHeader (headerBase isList) payload.length, payload⟩ := by
  by_cases short : payload.length ≤ 55
  · rw [makeHeader, if_pos short]
    have taken := takeItem_header isList [ofNat (headerBase isList + payload.length)] payload
      rest fun string _ => wrapped string
    rw [← taken]
    exact decodeItem_short isList short (payload ++ rest)
  · have long : 55 < payload.length := Nat.not_le.mp short
    have read := readLongLen_lengthBytes long fits
    have few := length_lengthBytes_le 8 payload.length
    have value : ofBigEndian (lengthBytes 8 payload.length).reverse = payload.length :=
      ofBigEndian_lengthBytes fits
    have many : 1 ≤ (lengthBytes 8 payload.length).length := by
      apply Nat.pos_of_ne_zero
      intro empty
      rw [eq_nil_of_length_eq_zero empty] at value
      have zero : payload.length = 0 := value.symm
      omega
    have taken := takeItem_header isList (makeHeader (headerBase isList) payload.length) payload
      rest (by
        intro string one
        exact wrapped string)
    rw [makeHeader, if_neg short] at taken ⊢
    generalize lengthBytes 8 payload.length = digits at *
    rw [← taken]
    refine (decodeItem_long isList many few (digits.reverse ++ payload ++ rest)).trans ?_
    have count : digits.length = digits.reverse.length := length_reverse.symm
    have number : take digits.length (digits.reverse ++ payload ++ rest) = digits.reverse := by
      rw [append_assoc, count, take_left]
    have room : ¬ (ofNat (headerBase isList + 55 + digits.length) ::
        (digits.reverse ++ payload ++ rest)).length < 1 + digits.length := by
      rw [length_cons, length_append, length_append, length_reverse]
      omega
    rw [takeLongItem, if_neg room, drop_succ_cons, drop_zero, number, read]
    rw [length_cons, length_reverse, Nat.add_comm digits.length 1]
    rfl

theorem exists_of_isSelf (self : isSelf data = true) :
    ∃ byte, data = [byte] ∧ byte.toNat < 0x80 := by
  cases data with
  | nil => cases self
  | cons byte rest =>
    cases rest with
    | nil => exact ⟨byte, rfl, of_decide_eq_true self⟩
    | cons => cases self

theorem decodeItem_putBytes (fits : data.length < lengthLimit) (rest : Bytes) :
    ∃ item, decodeItem (putBytes data ++ rest) = some item ∧ item.isList = false ∧
      item.payload = data ∧ item.raw = putBytes data := by
  rw [putBytes]
  split
  next self =>
    obtain ⟨byte, rfl, small⟩ := exists_of_isSelf self
    refine ⟨⟨false, [], [byte]⟩, ?_, rfl, rfl, rfl⟩
    simp only [cons_append, decodeItem, if_pos small]
  next wrapped =>
    have read := decodeItem_makeHeader false fits (fun _ => by simpa using wrapped) rest
    exact ⟨_, read, rfl, rfl, rfl⟩

theorem decodeItem_wrapList (fits : payload.length < lengthLimit) (rest : Bytes) :
    ∃ item, decodeItem (wrapList payload ++ rest) = some item ∧ item.isList = true ∧
      item.payload = payload ∧ item.raw = wrapList payload :=
  ⟨_, decodeItem_makeHeader true fits (fun string => by cases string) rest, rfl, rfl, rfl⟩

end DnaLedger.Trie
