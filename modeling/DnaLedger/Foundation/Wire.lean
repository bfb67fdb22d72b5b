import DnaLedger.Foundation.Bytes
import Mathlib.Tactic.Ring

/-!
# Tagged fields on the wire

Messages as sequences of tagged fields: variable-length integers, fixed 64-bit words and
length-delimited bytes. A writer omits a field that is zero or empty. A reader cuts what it
accumulates to 64 bits.
-/

namespace DnaLedger.Wire

open List Option

/-- Seven bits a byte, lowest first, with the high bit set on all but the last. -/
def uvarintBytes : Nat → Nat → Bytes
  | 0, value => [UInt8.ofNat value]
  | fuel + 1, value =>
    if value < 128 then [UInt8.ofNat value]
    else UInt8.ofNat (value % 128 + 128) :: uvarintBytes fuel (value / 128)

/-- A 64-bit word takes at most ten bytes. -/
def putUvarint (value : Nat) : Bytes :=
  uvarintBytes 9 value

def littleEndian : Nat → Nat → Bytes
  | 0, _ => []
  | count + 1, value => UInt8.ofNat (value % 256) :: littleEndian count (value / 256)

def putTag (field wireType : Nat) : Bytes :=
  putUvarint (field * 8 + wireType)

def varintField (field value : Nat) : Bytes :=
  if value = 0 then [] else putTag field 0 ++ putUvarint value

def fixed64Field (field value : Nat) : Bytes :=
  if value = 0 then [] else putTag field 1 ++ littleEndian 8 value

/-- A length-delimited field that is written even when it is empty. -/
def messageField (field : Nat) (body : Bytes) : Bytes :=
  putTag field 2 ++ (putUvarint body.length ++ body)

def bytesField (field : Nat) (body : Bytes) : Bytes :=
  if body = [] then [] else messageField field body

/-- A reader takes a value off the front of its input, or refuses. -/
abbrev Reader (α : Type) := Bytes → Option (α × Bytes)

/-- Seven bits a byte. Bits beyond the 64th are lost, and a word that has not ended after the fuel
is refused. -/
def readUvarint : Nat → Nat → Nat → Reader Nat
  | 0, _, _, _ => none
  | _ + 1, _, _, [] => none
  | fuel + 1, shift, acc, byte :: rest =>
    let acc := acc + byte.toNat % 128 * 2 ^ shift % 2 ^ 64
    if byte.toNat < 128 then some (acc, rest) else readUvarint fuel (shift + 7) acc rest

def getUvarint : Reader Nat :=
  readUvarint 10 0 0

def takeBytes (count : Nat) : Reader Bytes := fun input =>
  if count ≤ input.length then some (input.take count, input.drop count) else none

def readDelimited : Reader Bytes := fun input => do
  let (count, rest) ← getUvarint input
  takeBytes count rest

def ofLittleEndian : Bytes → Nat
  | [] => 0
  | byte :: rest => byte.toNat + 256 * ofLittleEndian rest

def readFixed64 : Reader Nat := fun input => do
  let (word, rest) ← takeBytes 8 input
  return (ofLittleEndian word, rest)

/-- The field number, cut to a signed 32-bit number that must be positive, and the wire type, not
an end of group. -/
def readTag : Reader (Nat × Nat) := fun input => do
  let (wire, rest) ← getUvarint input
  let field := wire / 8 % 2 ^ 32
  if wire % 8 = 4 then none
  else if field = 0 ∨ 2 ^ 31 ≤ field then none
  else some ((field, wire % 8), rest)

/-- Skip one whole field, groups included. Every round takes a byte, so the length is
enough fuel. -/
def skipField : Nat → Nat → Bytes → Option Bytes
  | 0, _, _ => none
  | fuel + 1, depth, input => do
      let (wire, rest) ← getUvarint input
      let (depth, rest) ←
        match wire % 8 with
        | 0 => (getUvarint rest).map fun (_, rest) => (depth, rest)
        | 1 => (takeBytes 8 rest).map fun (_, rest) => (depth, rest)
        | 2 => (readDelimited rest).map fun (_, rest) => (depth, rest)
        | 3 => some (depth + 1, rest)
        | 4 => if depth = 0 then none else some (depth - 1, rest)
        | 5 => (takeBytes 4 rest).map fun (_, rest) => (depth, rest)
        | _ => none
      if depth = 0 then some rest else skipField fuel depth rest

/-- The wire type a known field must have and how it is merged into the message. -/
abbrev Fields (μ : Type) := μ → Nat → Option (Nat × Reader μ)

/-- The tag loop of a message. Every round takes a byte, so the length is enough fuel. -/
def mergeFields {μ : Type} (fields : Fields μ) : Nat → μ → Bytes → Option μ
  | _, message, [] => some message
  | 0, _, _ :: _ => none
  | fuel + 1, message, input => do
      let ((field, wireType), rest) ← readTag input
      match fields message field with
      | none =>
        let rest ← skipField input.length 0 input
        mergeFields fields fuel message rest
      | some (expected, read) =>
        if wireType ≠ expected then none
        else
          let (message, rest) ← read rest
          mergeFields fields fuel message rest

/-- Merge a whole input into a message. -/
def merge {μ : Type} (fields : Fields μ) (message : μ) (input : Bytes) : Option μ :=
  mergeFields fields input.length message input

/-- The reader takes exactly these bytes off its input and returns the value. -/
def Reads {α : Type} (reader : Reader α) (bytes : Bytes) (value : α) : Prop :=
  ∀ rest, reader (bytes ++ rest) = some (value, rest)

variable {value : Nat}

theorem toNat_ofNat (byte : value < 256) : (UInt8.ofNat value).toNat = value := by
  rw [UInt8.toNat_ofNat']
  exact Nat.mod_eq_of_lt byte

theorem readUvarint_last (fuel shift acc : Nat) (small : value < 128)
    (bits : value * 2 ^ shift < 2 ^ 64) :
    Reads (readUvarint (fuel + 1) shift acc) [UInt8.ofNat value] (acc + value * 2 ^ shift) := by
  intro rest
  rw [singleton_append, readUvarint, toNat_ofNat (by omega), Nat.mod_eq_of_lt small,
    Nat.mod_eq_of_lt bits]
  exact if_pos small

theorem readUvarint_uvarintBytes (fuel shift acc value : Nat)
    (bits : value * 2 ^ shift < 2 ^ 64) (short : value < 128 ^ (fuel + 1)) :
    Reads (readUvarint (fuel + 1) shift acc) (uvarintBytes fuel value)
      (acc + value * 2 ^ shift) := by
  induction fuel generalizing shift acc value with
  | zero => exact readUvarint_last 0 shift acc (by simpa using short) bits
  | succ fuel ih =>
    rw [uvarintBytes]
    split
    next small => exact readUvarint_last (fuel + 1) shift acc small bits
    next large =>
      intro rest
      have low : (value % 128 + 128) % 128 = value % 128 := by omega
      have parts : value % 128 * 2 ^ shift + value / 128 * 2 ^ (shift + 7) =
          value * 2 ^ shift := by
        calc value % 128 * 2 ^ shift + value / 128 * 2 ^ (shift + 7)
            = (value % 128 + 128 * (value / 128)) * 2 ^ shift := by ring
          _ = value * 2 ^ shift := by rw [Nat.mod_add_div]
      have next := ih (shift + 7) (acc + value % 128 * 2 ^ shift) (value / 128) (by omega)
        (by rw [Nat.pow_succ] at short; omega) rest
      have lost : value % 128 * 2 ^ shift % 2 ^ 64 = value % 128 * 2 ^ shift :=
        Nat.mod_eq_of_lt (by omega)
      rw [cons_append, readUvarint, toNat_ofNat (by omega), low, lost]
      rw [if_neg (by omega), next, Nat.add_assoc, parts]

theorem getUvarint_putUvarint (word : value < 2 ^ 64) :
    Reads getUvarint (putUvarint value) value := by
  intro rest
  have read := readUvarint_uvarintBytes 9 0 0 value (by omega) (by omega) rest
  simpa [getUvarint, putUvarint] using read

theorem takeBytes_append (bytes : Bytes) : Reads (takeBytes bytes.length) bytes bytes := by
  intro rest
  simp [takeBytes]

theorem readDelimited_putUvarint {body : Bytes} (word : body.length < 2 ^ 64) :
    Reads readDelimited (putUvarint body.length ++ body) body := by
  intro rest
  simp only [readDelimited, append_assoc, getUvarint_putUvarint word (body ++ rest)]
  exact takeBytes_append body rest

theorem length_littleEndian (count value : Nat) : (littleEndian count value).length = count := by
  induction count generalizing value with
  | zero => rfl
  | succ count ih => rw [littleEndian, length_cons, ih]

theorem ofLittleEndian_littleEndian (count : Nat) (short : value < 256 ^ count) :
    ofLittleEndian (littleEndian count value) = value := by
  induction count generalizing value with
  | zero =>
    have zero : value = 0 := by simpa using short
    rw [zero]
    rfl
  | succ count ih =>
    rw [littleEndian, ofLittleEndian, toNat_ofNat (by omega),
      ih (by rw [Nat.pow_succ] at short; omega)]
    omega

theorem readFixed64_littleEndian (word : value < 2 ^ 64) :
    Reads readFixed64 (littleEndian 8 value) value := by
  intro rest
  have take := takeBytes_append (littleEndian 8 value) rest
  rw [length_littleEndian] at take
  simp only [readFixed64, take]
  simp [ofLittleEndian_littleEndian 8 (show value < 256 ^ 8 by omega)]

variable {field : Nat}

theorem readTag_putTag {wireType : Nat} (pos : 0 < field) (small : field < 2 ^ 28)
    (typed : wireType < 8) (plain : wireType ≠ 4) :
    Reads readTag (putTag field wireType) (field, wireType) := by
  intro rest
  have read := getUvarint_putUvarint (show field * 8 + wireType < 2 ^ 64 by omega) rest
  have number : (field * 8 + wireType) / 8 % 2 ^ 32 = field := by omega
  have kind : (field * 8 + wireType) % 8 = wireType := by omega
  have passed : ¬ (field = 0 ∨ 2 ^ 31 ≤ field) := by omega
  simp only [readTag, putTag, read, bind_eq_bind, bind_some, number, kind,
    if_neg plain, if_neg passed]

/-! ## Decoding what was encoded -/

section

variable {μ : Type} {fields : Fields μ}

/-- Reading these bytes takes the message from one value to another, with enough fuel
for the rest. -/
def Decodes (fields : Fields μ) (before : μ) (bytes : Bytes) (after : μ) : Prop :=
  ∀ rest fuel, (bytes ++ rest).length ≤ fuel → ∃ left, rest.length ≤ left ∧
    mergeFields fields fuel before (bytes ++ rest) = mergeFields fields left after rest

theorem Decodes.nil (message : μ) : Decodes fields message [] message := by
  intro rest fuel enough
  exact ⟨fuel, enough, rfl⟩

variable {before after : μ}

theorem Decodes.append {middle : μ} {first second : Bytes}
    (firstRead : Decodes fields before first middle)
    (secondRead : Decodes fields middle second after) :
    Decodes fields before (first ++ second) after := by
  intro rest fuel enough
  rw [append_assoc] at enough ⊢
  obtain ⟨between, betweenEnough, firstRun⟩ := firstRead (second ++ rest) fuel enough
  obtain ⟨left, leftEnough, secondRun⟩ := secondRead rest between betweenEnough
  exact ⟨left, leftEnough, firstRun.trans secondRun⟩

theorem Decodes.merge {bytes : Bytes} (decodes : Decodes fields before bytes after) :
    merge fields before bytes = some after := by
  obtain ⟨left, -, run⟩ := decodes [] bytes.length (by simp)
  rw [append_nil] at run
  rw [Wire.merge, run, mergeFields]

theorem merge_invariant (Holds : μ → Prop)
    (kept : ∀ message field wireType read, fields message field = some (wireType, read) → Holds
      message → ∀ input next rest, read input = some (next, rest) → Holds next) {input : Bytes}
    (holds : Holds before) (run : merge fields before input = some after) : Holds after := by
  have loop : ∀ fuel message input, Holds message →
      mergeFields fields fuel message input = some after → Holds after := by
    intro fuel
    induction fuel with
    | zero =>
      intro message input holds run
      cases input with
      | nil => exact some.inj run ▸ holds
      | cons byte rest => cases run
    | succ fuel ih =>
      intro message input holds run
      cases input with
      | nil => exact some.inj run ▸ holds
      | cons byte rest =>
        simp only [mergeFields, bind_eq_bind, bind_eq_some_iff] at run
        obtain ⟨⟨⟨field, wireType⟩, left⟩, -, run⟩ := run
        cases known : fields message field with
        | none =>
          simp only [known, bind_eq_some_iff] at run
          obtain ⟨skipped, -, run⟩ := run
          exact ih _ _ holds run
        | some entry =>
          simp only [known] at run
          split at run
          next => cases run
          next =>
            obtain ⟨⟨next, left⟩, read, run⟩ := bind_eq_some_iff.mp run
            exact ih _ _ (kept _ _ _ _ known holds _ _ _ read) run
  exact loop _ _ _ holds run

theorem putUvarint_ne_nil (value : Nat) : putUvarint value ≠ [] := by
  rw [putUvarint, uvarintBytes]
  split <;> simp

def FieldNumber (field : Nat) : Prop :=
  0 < field ∧ field < 2 ^ 28

instance decidableFieldNumber (field : Nat) : Decidable (FieldNumber field) :=
  inferInstanceAs (Decidable (_ ∧ _))

theorem decodes_field {wireType : Nat} {payload : Bytes} {read : Reader μ}
    (number : FieldNumber field) (typed : wireType < 3)
    (known : fields before field = some (wireType, read)) (reads : Reads read payload after) :
    Decodes fields before (putTag field wireType ++ payload) after := by
  intro rest fuel enough
  have tag := readTag_putTag number.1 number.2 (show wireType < 8 by omega)
    (show wireType ≠ 4 by omega) (payload ++ rest)
  obtain ⟨byte, bytes, split⟩ := exists_cons_of_ne_nil
    (putUvarint_ne_nil (field * 8 + wireType))
  rw [append_assoc] at enough ⊢
  have length : (putTag field wireType ++ (payload ++ rest)).length =
      bytes.length + 1 + (payload.length + rest.length) := by
    simp [putTag, split]
    omega
  cases fuel with
  | zero => omega
  | succ fuel =>
    refine ⟨fuel, by omega, ?_⟩
    have filled : putTag field wireType ++ (payload ++ rest) =
        byte :: (bytes ++ (payload ++ rest)) := by
      rw [putTag, split, cons_append]
    rw [filled] at tag ⊢
    simp only [mergeFields, tag, bind_eq_bind, bind_some, known, ne_eq,
      not_true_eq_false, if_false, reads rest]

variable (fields) (before : μ) {after : μ} (field : Nat) {read : Reader μ}
  (number : FieldNumber field)

include number

theorem decodes_varintField (known : fields before field = some (0, read))
    (reads : Reads read (putUvarint value) after) (omitted : value = 0 → after = before) :
    Decodes fields before (varintField field value) after := by
  rw [varintField]
  split
  next zero => exact omitted zero ▸ Decodes.nil after
  next => exact decodes_field number (by decide) known reads

theorem decodes_fixed64Field (known : fields before field = some (1, read))
    (reads : Reads read (littleEndian 8 value) after) (omitted : value = 0 → after = before) :
    Decodes fields before (fixed64Field field value) after := by
  rw [fixed64Field]
  split
  next zero => exact omitted zero ▸ Decodes.nil after
  next => exact decodes_field number (by decide) known reads

theorem decodes_messageField {body : Bytes} (known : fields before field = some (2, read))
    (reads : Reads read (putUvarint body.length ++ body) after) :
    Decodes fields before (messageField field body) after :=
  decodes_field number (by decide) known reads

theorem decodes_bytesField {body : Bytes} (known : fields before field = some (2, read))
    (reads : Reads read (putUvarint body.length ++ body) after)
    (omitted : body = [] → after = before) :
    Decodes fields before (bytesField field body) after := by
  rw [bytesField]
  split
  next empty => exact omitted empty ▸ Decodes.nil after
  next => exact decodes_messageField fields before field number known reads

end

theorem Reads.unique {α : Type} {reader : Reader α} {bytes : Bytes} {first second : α}
    (reads : Reads reader bytes first) (reads' : Reads reader bytes second) : first = second :=
  congrArg Prod.fst (some.inj ((reads []).symm.trans (reads' [])))

theorem messageField_ne_nil (field : Nat) (body : Bytes) : messageField field body ≠ [] := by
  intro empty
  exact putUvarint_ne_nil _ (append_eq_nil_iff.mp empty).1

theorem bytesField_injective {first second : Bytes} (short : first.length < 2 ^ 64)
    (short' : second.length < 2 ^ 64) (eq : bytesField field first = bytesField field second) :
    first = second := by
  rw [bytesField, bytesField] at eq
  split at eq <;> split at eq
  next empty empty' => rw [empty, empty']
  next => exact absurd eq.symm (messageField_ne_nil field second)
  next => exact absurd eq (messageField_ne_nil field first)
  next =>
    have payload := append_cancel_left eq
    have reads := readDelimited_putUvarint short
    rw [payload] at reads
    exact reads.unique (readDelimited_putUvarint short')

theorem varintField_injective {first second : Nat} (word : first < 2 ^ 64)
    (word' : second < 2 ^ 64) (eq : varintField field first = varintField field second) :
    first = second := by
  have tagged : ∀ value, putTag field 0 ++ putUvarint value ≠ [] := by
    intro value empty
    exact putUvarint_ne_nil _ (append_eq_nil_iff.mp empty).1
  rw [varintField, varintField] at eq
  split at eq <;> split at eq
  next zero zero' => rw [zero, zero']
  next => exact absurd eq.symm (tagged second)
  next => exact absurd eq (tagged first)
  next =>
    have reads := getUvarint_putUvarint word
    rw [append_cancel_left eq] at reads
    exact reads.unique (getUvarint_putUvarint word')

theorem length_le_messageField (field : Nat) (body : Bytes) :
    body.length ≤ (messageField field body).length := by
  rw [messageField, length_append, length_append]
  omega

theorem length_le_bytesField (field : Nat) (body : Bytes) :
    body.length ≤ (bytesField field body).length := by
  rw [bytesField]
  split
  next empty => simp [empty]
  next => exact length_le_messageField field body

theorem length_uvarintBytes_le (fuel value : Nat) :
    (uvarintBytes fuel value).length ≤ fuel + 1 := by
  induction fuel generalizing value with
  | zero => exact Nat.le_refl 1
  | succ fuel ih =>
    have rest := ih (value / 128)
    rw [uvarintBytes]
    split
    next => simp
    next => simpa using rest

theorem length_putUvarint_le (value : Nat) : (putUvarint value).length ≤ 10 :=
  length_uvarintBytes_le 9 value

theorem length_uvarintBytes_of_lt (count fuel : Nat) (small : value < 128 ^ (count + 1)) :
    (uvarintBytes fuel value).length ≤ count + 1 := by
  induction fuel generalizing count value with
  | zero => simp [uvarintBytes]
  | succ fuel ih =>
    rw [uvarintBytes]
    split
    next => simp
    next large =>
      cases count with
      | zero => omega
      | succ count =>
        have rest := ih count
          (show value / 128 < 128 ^ (count + 1) by rw [Nat.pow_succ] at small; omega)
        simpa using rest

variable {field : Nat} (low : field < 16)

include low

theorem length_putTag_le {wireType : Nat} (typed : wireType < 8) :
    (putTag field wireType).length ≤ 1 :=
  length_uvarintBytes_of_lt 0 9 (by omega)

theorem length_varintField_le (value : Nat) : (varintField field value).length ≤ 11 := by
  have tag := length_putTag_le low (show 0 < 8 by decide)
  have word := length_putUvarint_le value
  rw [varintField]
  split
  next => simp
  next => rw [length_append]; omega

theorem length_varintField_of_lt (count : Nat) (small : value < 128 ^ (count + 1)) :
    (varintField field value).length ≤ count + 2 := by
  have tag := length_putTag_le low (show 0 < 8 by decide)
  have word : (putUvarint value).length ≤ count + 1 := length_uvarintBytes_of_lt count 9 small
  rw [varintField]
  split
  next => simp
  next => rw [length_append]; omega

theorem length_fixed64Field_le (value : Nat) : (fixed64Field field value).length ≤ 9 := by
  have tag := length_putTag_le low (show 1 < 8 by decide)
  have word := length_littleEndian 8 value
  rw [fixed64Field]
  split
  next => simp
  next => rw [length_append]; omega

theorem length_messageField_le (count : Nat) {body : Bytes}
    (short : body.length < 128 ^ (count + 1)) :
    (messageField field body).length ≤ count + 2 + body.length := by
  have tag := length_putTag_le low (show 2 < 8 by decide)
  have size : (putUvarint body.length).length ≤ count + 1 :=
    length_uvarintBytes_of_lt count 9 short
  rw [messageField, length_append, length_append]
  omega

theorem length_bytesField_le {body : Bytes} (short : body.length < 128) :
    (bytesField field body).length ≤ 2 + body.length := by
  have framed := length_messageField_le low 0 (by simpa using short)
  rw [bytesField]
  split
  next => simp
  next => exact framed

end DnaLedger.Wire
