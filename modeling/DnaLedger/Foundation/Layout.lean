import DnaLedger.Foundation.Bytes
import Mathlib.Algebra.Ring.Nat

/-!
# Fixed-width layouts

A layout writes a value in a fixed number of bytes, words big-endian, and reads it back from the
front of its input.
-/

namespace DnaLedger

open List

/-- The low `count` bytes of a number, highest first. -/
def bigEndian : Nat → Nat → Bytes
  | 0, _ => []
  | count + 1, value => UInt8.ofNat (value / 256 ^ count % 256) :: bigEndian count value

def ofBigEndian : Bytes → Nat
  | [] => 0
  | byte :: rest => byte.toNat * 256 ^ rest.length + ofBigEndian rest

variable (bytes : Bytes) (count : Nat)

@[simp] theorem length_bigEndian (value : Nat) : (bigEndian count value).length = count := by
  induction count with
  | zero => rfl
  | succ count ih => rw [bigEndian, length_cons, ih]

theorem ofBigEndian_lt : ofBigEndian bytes < 256 ^ bytes.length := by
  induction bytes with
  | nil => exact Nat.one_pos
  | cons byte rest ih =>
    have head : (byte.toNat + 1) * 256 ^ rest.length ≤ 256 * 256 ^ rest.length :=
      Nat.mul_le_mul_right _ byte.toNat_lt
    rw [Nat.add_mul, Nat.one_mul] at head
    rw [ofBigEndian, length_cons, Nat.pow_succ, Nat.mul_comm _ 256]
    omega

theorem ofBigEndian_bigEndian (value : Nat) :
    ofBigEndian (bigEndian count value) = value % 256 ^ count := by
  induction count with
  | zero => rw [bigEndian, ofBigEndian, Nat.pow_zero, Nat.mod_one]
  | succ count ih =>
    have byte : (UInt8.ofNat (value / 256 ^ count % 256)).toNat = value / 256 ^ count % 256 :=
      Nat.mod_eq_of_lt (Nat.mod_lt _ (by decide))
    rw [bigEndian, ofBigEndian, ih, byte, length_bigEndian, Nat.pow_succ, Nat.mod_mul]
    rw [Nat.mul_comm, Nat.add_comm]

theorem bigEndian_add_mul (extra value : Nat) :
    bigEndian count (extra * 256 ^ count + value) = bigEndian count value := by
  induction count generalizing extra with
  | zero => rfl
  | succ count ih =>
    have shift : extra * 256 ^ (count + 1) = extra * 256 * 256 ^ count := by
      rw [Nat.pow_succ, Nat.mul_comm (256 ^ count), Nat.mul_assoc]
    have byte : (extra * 256 * 256 ^ count + value) / 256 ^ count % 256 =
        value / 256 ^ count % 256 := by
      rw [Nat.add_comm, Nat.add_mul_div_right _ _ (Nat.pow_pos (by decide)),
        Nat.add_mul_mod_self_right]
    rw [bigEndian, bigEndian, shift, ih, byte]

theorem bigEndian_ofBigEndian : bigEndian bytes.length (ofBigEndian bytes) = bytes := by
  induction bytes with
  | nil => rfl
  | cons byte rest ih =>
    have head : (byte.toNat * 256 ^ rest.length + ofBigEndian rest) / 256 ^ rest.length % 256 =
        byte.toNat := by
      rw [Nat.add_comm, Nat.add_mul_div_right _ _ (Nat.pow_pos (by decide)),
        Nat.div_eq_of_lt (ofBigEndian_lt rest), Nat.zero_add, Nat.mod_eq_of_lt byte.toNat_lt]
    rw [length_cons, bigEndian, ofBigEndian, bigEndian_add_mul, ih, head, UInt8.ofNat_toNat]

theorem ofBigEndian_append (front back : Bytes) :
    ofBigEndian (front ++ back) = ofBigEndian front * 256 ^ back.length + ofBigEndian back := by
  induction front with
  | nil => rw [nil_append, ofBigEndian, Nat.zero_mul, Nat.zero_add]
  | cons byte front ih =>
    rw [cons_append, ofBigEndian, ofBigEndian, ih, length_append, Nat.pow_add,
      Nat.add_mul, Nat.mul_assoc, Nat.add_assoc]

/-- How a value is laid out in a fixed number of bytes. -/
structure Layout (α : Type) where
  width : Nat
  write : α → Bytes
  read : Bytes → α
  length_write (value : α) : (write value).length = width
  read_write (value : α) (rest : Bytes) : read (write value ++ rest) = value
  write_read (bytes : Bytes) (long : width ≤ bytes.length) : write (read bytes) = bytes.take width

namespace Layout

variable {α β : Type}
variable (layout : Layout α)

theorem append_inj {first second : α} {rest rest' : Bytes}
    (eq : layout.write first ++ rest = layout.write second ++ rest') :
    first = second ∧ rest = rest' := by
  have values := congrArg layout.read eq
  rw [layout.read_write, layout.read_write] at values
  subst values
  exact ⟨rfl, append_cancel_left eq⟩

theorem read_write_self (value : α) : layout.read (layout.write value) = value := by
  have read := layout.read_write value []
  rwa [append_nil] at read

theorem write_inj {first second : α} (eq : layout.write first = layout.write second) :
    first = second :=
  (layout.append_inj (congrArg (· ++ []) eq)).1

theorem drop_write (value : α) (rest : Bytes) :
    (layout.write value ++ rest).drop layout.width = rest :=
  drop_left' (layout.length_write value)

/-- A word of `count` bytes. -/
def word (count : Nat) (toNat : α → Nat) (ofNat : Nat → α)
    (small : ∀ value, toNat value < 256 ^ count)
    (ofNat_toNat : ∀ value, ofNat (toNat value) = value)
    (toNat_ofNat : ∀ number < 256 ^ count, toNat (ofNat number) = number) : Layout α where
  width := count
  write value := bigEndian count (toNat value)
  read bytes := ofNat (ofBigEndian (bytes.take count))
  length_write value := length_bigEndian count (toNat value)
  read_write value rest := by
    rw [take_left' (length_bigEndian count _), ofBigEndian_bigEndian,
      Nat.mod_eq_of_lt (small value), ofNat_toNat]
  write_read bytes long := by
    have length : (bytes.take count).length = count := length_take_of_le long
    have fits := ofBigEndian_lt (bytes.take count)
    have back := bigEndian_ofBigEndian (bytes.take count)
    rw [length] at fits back
    rw [toNat_ofNat _ fits, back]

def byte : Layout UInt8 :=
  word 1 UInt8.toNat UInt8.ofNat UInt8.toNat_lt (fun _ => UInt8.ofNat_toNat)
    fun _ small => UInt8.toNat_ofNat_of_lt' small

def be16 : Layout UInt16 :=
  word 2 UInt16.toNat UInt16.ofNat UInt16.toNat_lt (fun _ => UInt16.ofNat_toNat)
    fun _ small => UInt16.toNat_ofNat_of_lt' small

def be32 : Layout UInt32 :=
  word 4 UInt32.toNat UInt32.ofNat UInt32.toNat_lt (fun _ => UInt32.ofNat_toNat)
    fun _ small => UInt32.toNat_ofNat_of_lt' small

def be64 : Layout UInt64 :=
  word 8 UInt64.toNat UInt64.ofNat UInt64.toNat_lt (fun _ => UInt64.ofNat_toNat)
    fun _ small => UInt64.toNat_ofNat_of_lt' small

def raw (count : Nat) : Layout { bytes : Bytes // bytes.length = count } where
  width := count
  write value := value.val
  read bytes :=
    if long : count ≤ bytes.length then ⟨bytes.take count, length_take_of_le long⟩
    else ⟨List.replicate count 0, length_replicate⟩
  length_write value := value.property
  read_write value rest := by
    have long : count ≤ (value.val ++ rest).length := by
      rw [length_append, value.property]
      exact Nat.le_add_right _ _
    rw [dif_pos long]
    exact Subtype.ext (take_left' value.property)
  write_read bytes long := by rw [dif_pos long]

def both (first : Layout α) (second : Layout β) : Layout (α × β) where
  width := first.width + second.width
  write value := first.write value.1 ++ second.write value.2
  read bytes := (first.read bytes, second.read (bytes.drop first.width))
  length_write value := by rw [length_append, first.length_write, second.length_write]
  read_write value rest := by
    rw [append_assoc, first.read_write, first.drop_write, second.read_write]
  write_read bytes long := by
    have rest : second.width ≤ (bytes.drop first.width).length := by
      rw [length_drop]
      omega
    rw [first.write_read bytes (by omega), second.write_read _ rest, take_add]

def record (layout : Layout α) (make : α → β) (fields : β → α)
    (make_fields : ∀ value, make (fields value) = value)
    (fields_make : ∀ value, fields (make value) = value) : Layout β where
  width := layout.width
  write value := layout.write (fields value)
  read bytes := make (layout.read bytes)
  length_write value := layout.length_write _
  read_write value rest := by rw [layout.read_write, make_fields]
  write_read bytes long := by rw [fields_make, layout.write_read bytes long]

/-- The first `count` entries of a table. -/
def table (layout : Layout α) : Nat → Bytes → List α
  | 0, _ => []
  | count + 1, bytes => layout.read bytes :: layout.table count (bytes.drop layout.width)

@[simp] theorem length_table (count : Nat) (bytes : Bytes) :
    (layout.table count bytes).length = count := by
  induction count generalizing bytes with
  | zero => rfl
  | succ count ih => rw [table, length_cons, ih]

theorem length_flatMap_write (values : List α) :
    (values.flatMap layout.write).length = values.length * layout.width := by
  induction values with
  | nil => simp
  | cons value rest ih =>
    rw [flatMap_cons, length_append, layout.length_write, ih, length_cons,
      Nat.succ_mul, Nat.add_comm]

theorem table_flatMap (values : List α) (rest : Bytes) :
    layout.table values.length (values.flatMap layout.write ++ rest) = values := by
  induction values with
  | nil => rfl
  | cons value values ih =>
    rw [flatMap_cons, append_assoc, length_cons, table, layout.read_write, layout.drop_write, ih]

theorem flatMap_write_inj (wide : 0 < layout.width) {first second : List α}
    (eq : first.flatMap layout.write = second.flatMap layout.write) : first = second := by
  have lengths := congrArg length eq
  rw [layout.length_flatMap_write, layout.length_flatMap_write] at lengths
  have count : first.length = second.length := Nat.eq_of_mul_eq_mul_right wide lengths
  have tables := layout.table_flatMap first []
  rw [eq, count, layout.table_flatMap second []] at tables
  exact tables.symm

theorem flatMap_table {count : Nat} {bytes : Bytes} (long : count * layout.width ≤ bytes.length) :
    (layout.table count bytes).flatMap layout.write = bytes.take (count * layout.width) := by
  induction count generalizing bytes with
  | zero => simp [table]
  | succ count ih =>
    rw [Nat.succ_mul] at long
    have tail : count * layout.width ≤ (bytes.drop layout.width).length := by
      rw [length_drop]
      omega
    rw [table, flatMap_cons, ih tail, layout.write_read bytes (by omega), ← take_add,
      Nat.succ_mul, Nat.add_comm]

theorem write_infix_of_mem_table {count : Nat} {bytes : Bytes}
    (long : count * layout.width ≤ bytes.length) {value : α}
    (mem : value ∈ layout.table count bytes) : layout.write value <:+: bytes := by
  obtain ⟨front, back, split⟩ := append_of_mem mem
  have written := layout.flatMap_table long
  rw [split, flatMap_append, flatMap_cons, ← append_assoc] at written
  refine ⟨front.flatMap layout.write,
    back.flatMap layout.write ++ bytes.drop (count * layout.width), ?_⟩
  rw [← append_assoc, written, take_append_drop]

end Layout

/-- A string behind its length, which takes `count` bytes. -/
def sized (count : Nat) (text : Bytes) : Bytes :=
  bigEndian count text.length ++ text

theorem sized_append_inj {count : Nat} {first second rest rest' : Bytes}
    (firstFits : first.length < 256 ^ count) (secondFits : second.length < 256 ^ count)
    (eq : sized count first ++ rest = sized count second ++ rest') :
    first = second ∧ rest = rest' := by
  rw [sized, sized, append_assoc, append_assoc] at eq
  obtain ⟨lengths, texts⟩ := append_inj eq (by rw [length_bigEndian, length_bigEndian])
  have length := congrArg ofBigEndian lengths
  rw [ofBigEndian_bigEndian, ofBigEndian_bigEndian, Nat.mod_eq_of_lt firstFits,
    Nat.mod_eq_of_lt secondFits] at length
  exact append_inj texts length

theorem sized_inj {count : Nat} {first second : Bytes} (firstFits : first.length < 256 ^ count)
    (secondFits : second.length < 256 ^ count) (eq : sized count first = sized count second) :
    first = second :=
  (sized_append_inj firstFits secondFits (congrArg (· ++ []) eq)).1

/-- The marker in front of everything that is hashed or sent under one meaning. -/
abbrev Tag := { bytes : Bytes // bytes.length = 16 }

theorem length_take_padded : ((bytes ++ replicate count 0).take count).length = count := by
  rw [length_take, length_append, length_replicate]
  omega

def tag (text : String) : Tag :=
  ⟨((text.toList.map fun char : Char => UInt8.ofNat char.toNat) ++ replicate 16 0).take 16,
    length_take_padded _ 16⟩

theorem Tag.append_inj {first second : Tag} {rest rest' : Bytes}
    (eq : first.val ++ rest = second.val ++ rest') : first = second ∧ rest = rest' :=
  (Layout.raw 16).append_inj eq

end DnaLedger
