import DnaLedger.Foundation.Layout
import Mathlib.Algebra.BigOperators.Group.List.Basic

/-!
# Tables with blobs behind them

A table of fixed-width headers, followed by one blob for each header and then by a second blob for
each header.
-/

namespace DnaLedger

open List UInt32

/-! ## Running offsets -/

/-- Add a length to a total that stays within a cap; the comparison subtracts, so nothing
wraps. -/
def accAdd (cap acc len : Nat) : Option Nat :=
  if cap < acc then none
  else if cap - acc < len then none
  else some (acc + len)

/-- Where pieces of these lengths start when they are put one after the other. -/
def offsets : Nat → List Nat → List Nat
  | _, [] => []
  | start, len :: rest => start :: offsets (start + len) rest

/-- The offsets of the pieces and where they end, as long as the end stays within the cap. -/
def walk (cap : Nat) : Nat → List Nat → Option (List Nat × Nat)
  | acc, [] => some ([], acc)
  | acc, len :: rest => do
      let next ← accAdd cap acc len
      let (later, last) ← walk cap next rest
      return (acc :: later, last)

def slice (bytes : Bytes) (offset len : Nat) : Bytes :=
  (bytes.drop offset).take len

@[simp] theorem length_offsets (start : Nat) (lens : List Nat) :
    (offsets start lens).length = lens.length := by
  induction lens generalizing start with
  | nil => rfl
  | cons len rest ih => rw [offsets, length_cons, ih, length_cons]

variable {cap acc : Nat}

theorem accAdd_eq (within : acc ≤ cap) (len : Nat) :
    accAdd cap acc len = if acc + len ≤ cap then some (acc + len) else none := by
  rw [accAdd, if_neg (Nat.not_lt.mpr within)]
  by_cases fits : acc + len ≤ cap
  · rw [if_pos fits, if_neg (by omega)]
  · rw [if_neg fits, if_pos (by omega)]

theorem foldlM_accAdd (within : acc ≤ cap) (lens : List Nat) :
    lens.foldlM (accAdd cap) acc =
      if acc + lens.sum ≤ cap then some (acc + lens.sum) else none := by
  induction lens generalizing acc with
  | nil => simp [within]
  | cons len rest ih =>
    rw [foldlM_cons, accAdd_eq within, sum_cons, ← Nat.add_assoc]
    by_cases fits : acc + len ≤ cap
    · rw [if_pos fits]
      exact ih fits
    · rw [if_neg fits, if_neg (by omega)]
      rfl

variable {lens : List Nat}

theorem foldlM_guarded {bad : Nat → Prop} [DecidablePred bad] (good : ∀ len ∈ lens, ¬ bad len) :
    lens.foldlM (fun acc len => if bad len then none else accAdd cap acc len) acc =
      lens.foldlM (accAdd cap) acc := by
  induction lens generalizing acc with
  | nil => rfl
  | cons len rest ih =>
    rw [foldlM_cons, foldlM_cons, if_neg (good len mem_cons_self)]
    congr 1
    funext next
    exact ih fun later mem => good later (mem_cons_of_mem len mem)

theorem walk_eq (within : acc ≤ cap) (lens : List Nat) :
    walk cap acc lens =
      if acc + lens.sum ≤ cap then some (offsets acc lens, acc + lens.sum) else none := by
  induction lens generalizing acc with
  | nil => simp [walk, offsets, within]
  | cons len rest ih =>
    rw [walk, accAdd_eq within, sum_cons, ← Nat.add_assoc]
    by_cases fits : acc + len ≤ cap
    · rw [if_pos fits, Option.bind_eq_bind, Option.bind_some, ih fits]
      by_cases whole : acc + len + rest.sum ≤ cap
      · rw [if_pos whole, if_pos whole]
        rfl
      · rw [if_neg whole, if_neg whole]
        rfl
    · rw [if_neg fits, if_neg (by omega)]
      rfl

theorem walk_walk {β : Type} {base : Nat} (within : base ≤ cap) (firsts seconds : List Nat)
    (rest : List Nat → List Nat → Nat → Option β) :
    (do
      let (firstOffsets, acc) ← walk cap base firsts
      let (secondOffsets, acc) ← walk cap acc seconds
      rest firstOffsets secondOffsets acc) =
      if base + firsts.sum + seconds.sum ≤ cap then
        rest (offsets base firsts) (offsets (base + firsts.sum) seconds)
          (base + firsts.sum + seconds.sum)
      else none := by
  rw [walk_eq within]
  by_cases first : base + firsts.sum ≤ cap
  · rw [if_pos first, Option.bind_eq_bind, Option.bind_some]
    dsimp only
    rw [walk_eq first]
    by_cases second : base + firsts.sum + seconds.sum ≤ cap
    · rw [if_pos second, if_pos second]
      rfl
    · rw [if_neg second, if_neg second]
      rfl
  · rw [if_neg first, if_neg (by omega)]
    rfl

variable {start : Nat}

theorem offset_add_le {i offset len : Nat} (atOffset : (offsets start lens)[i]? = some offset)
    (atLen : lens[i]? = some len) :
    offset + len ≤ start + lens.sum := by
  induction lens generalizing start i with
  | nil => cases atLen
  | cons first rest ih =>
    rw [sum_cons]
    cases i with
    | zero =>
      obtain rfl : start = offset := Option.some.inj atOffset
      obtain rfl : first = len := Option.some.inj atLen
      omega
    | succ i =>
      have later : offset + len ≤ start + first + rest.sum := ih atOffset atLen
      omega

theorem getLast_offsets {offset len : Nat}
    (atOffset : (offsets start lens).getLast? = some offset) (atLen : lens.getLast? = some len) :
    offset + len = start + lens.sum := by
  induction lens generalizing start with
  | nil => cases atLen
  | cons first rest ih =>
    cases rest with
    | nil =>
      rw [offsets, offsets, getLast?_singleton] at atOffset
      rw [getLast?_singleton] at atLen
      rw [← Option.some.inj atOffset, ← Option.some.inj atLen, sum_singleton]
    | cons second rest =>
      rw [getLast?_cons_cons] at atLen
      rw [offsets, offsets, getLast?_cons_cons] at atOffset
      have rest_eq := ih atOffset atLen
      rw [sum_cons, ← Nat.add_assoc]
      exact rest_eq

theorem slices_flatten (front : Bytes) (pieces : List Bytes) (back : Bytes) :
    zipWith (slice (front ++ (pieces.flatten ++ back)))
      (offsets front.length (pieces.map length)) (pieces.map length) = pieces := by
  induction pieces generalizing front with
  | nil => rfl
  | cons piece rest ih =>
    have here : slice (front ++ ((piece :: rest).flatten ++ back)) front.length piece.length =
        piece := by
      rw [slice, drop_left, flatten_cons, append_assoc, take_left]
    have later := ih (front ++ piece)
    rw [length_append, append_assoc, ← append_assoc piece] at later
    rw [map_cons, offsets, zipWith_cons_cons, here, flatten_cons, later]

theorem slices_words {α : Type} (bytes : Bytes) (len : α → Nat) {headers : List α}
    (small : start + (headers.map len).sum < 2 ^ 32) :
    zipWith (fun (offset : UInt32) header => slice bytes offset.toNat (len header))
        ((offsets start (headers.map len)).map ofNat) headers =
      zipWith (slice bytes) (offsets start (headers.map len)) (headers.map len) := by
  induction headers generalizing start with
  | nil => rfl
  | cons header rest ih =>
    rw [map_cons, sum_cons] at small
    have word : (ofNat start).toNat = start :=
      toNat_ofNat_of_lt' (show start < 2 ^ 32 by omega)
    rw [map_cons, offsets, map_cons, zipWith_cons_cons, zipWith_cons_cons, word, ih (by omega)]

theorem exists_last_word {α : Type} (len : α → Nat) {headers : List α}
    (some_header : headers ≠ []) (small : start + (headers.map len).sum < 2 ^ 32) :
    ∃ (offset : UInt32) (header : α),
      ((offsets start (headers.map len)).map ofNat).getLast? = some offset ∧
      headers.getLast? = some header ∧
      offset.toNat + len header = start + (headers.map len).sum := by
  have filled : offsets start (headers.map len) ≠ [] := by
    intro empty
    have lengths := congrArg length empty
    rw [length_offsets, length_map] at lengths
    exact some_header (eq_nil_of_length_eq_zero lengths)
  have atOffset := getLast?_eq_some_getLast filled
  have atHeader := getLast?_eq_some_getLast some_header
  generalize (offsets start (headers.map len)).getLast filled = offset at atOffset
  generalize headers.getLast some_header = header at atHeader
  have last : offset + len header = start + (headers.map len).sum := by
    apply getLast_offsets atOffset
    rw [getLast?_map, atHeader]
    rfl
  refine ⟨ofNat offset, header, ?_, atHeader, ?_⟩
  · rw [getLast?_map, atOffset]
    rfl
  · rw [toNat_ofNat_of_lt' (show offset < 2 ^ 32 by omega), last]

/-- How headers are laid out, and the lengths of the blobs they state. -/
structure Sections (α : Type) where
  layout : Layout α
  firstLen : α → Nat
  secondLen : α → Nat

namespace Sections

variable {α : Type}

/-- A header with the blobs whose lengths it states. -/
@[ext] structure Item (sections : Sections α) where
  hdr : α
  first : Bytes
  second : Bytes
  length_first : first.length = sections.firstLen hdr
  length_second : second.length = sections.secondLen hdr

variable {sections : Sections α}

/-- The table, then all first blobs, then all second blobs. -/
def body (items : List sections.Item) : Bytes :=
  items.flatMap (fun item => sections.layout.write item.hdr) ++
    ((items.map Item.first).flatten ++ (items.map Item.second).flatten)

variable (items : List sections.Item)

theorem map_length_first :
    (items.map Item.first).map length = (items.map Item.hdr).map sections.firstLen := by
  rw [map_map, map_map]
  exact map_congr_left fun item _ => item.length_first

theorem map_length_second :
    (items.map Item.second).map length = (items.map Item.hdr).map sections.secondLen := by
  rw [map_map, map_map]
  exact map_congr_left fun item _ => item.length_second

theorem flatMap_hdr :
    items.flatMap (fun item => sections.layout.write item.hdr) =
      (items.map Item.hdr).flatMap sections.layout.write :=
  (flatMap_map _ _ items).symm

theorem length_body :
    (body items).length = items.length * sections.layout.width +
      (((items.map Item.hdr).map sections.firstLen).sum +
        ((items.map Item.hdr).map sections.secondLen).sum) := by
  rw [body, length_append, length_append, flatMap_hdr, sections.layout.length_flatMap_write,
    length_map, length_flatten, length_flatten, map_length_first, map_length_second]

theorem table_body : sections.layout.table items.length (body items) = items.map Item.hdr := by
  have read := sections.layout.table_flatMap (items.map Item.hdr)
    ((items.map Item.first).flatten ++ (items.map Item.second).flatten)
  rw [length_map] at read
  rw [body, flatMap_hdr, read]

theorem slices_first (front : Bytes) (items : List sections.Item) :
    zipWith (slice (front ++ body items))
      (offsets (front.length + items.length * sections.layout.width)
        ((items.map Item.hdr).map sections.firstLen))
      ((items.map Item.hdr).map sections.firstLen) = items.map Item.first := by
  have found := slices_flatten (front ++ (items.map Item.hdr).flatMap sections.layout.write)
    (items.map Item.first) (items.map Item.second).flatten
  rwa [map_length_first, length_append, sections.layout.length_flatMap_write, length_map,
    append_assoc, ← flatMap_hdr] at found

theorem slices_second (front : Bytes) (items : List sections.Item) :
    zipWith (slice (front ++ body items))
      (offsets (front.length + items.length * sections.layout.width +
        ((items.map Item.hdr).map sections.firstLen).sum)
        ((items.map Item.hdr).map sections.secondLen))
      ((items.map Item.hdr).map sections.secondLen) = items.map Item.second := by
  have found := slices_flatten (front ++ ((items.map Item.hdr).flatMap sections.layout.write ++
    (items.map Item.first).flatten)) (items.map Item.second) []
  rwa [map_length_second, length_append, length_append, sections.layout.length_flatMap_write,
    length_map, length_flatten, map_length_first, append_assoc, append_assoc, append_nil, ←
    flatMap_hdr, ← Nat.add_assoc] at found

theorem exists_items (headers : List α) (firsts seconds : Bytes)
    (firstsLength : firsts.length = (headers.map sections.firstLen).sum)
    (secondsLength : seconds.length = (headers.map sections.secondLen).sum) :
    ∃ items : List sections.Item, items.map Item.hdr = headers ∧
      (items.map Item.first).flatten = firsts ∧ (items.map Item.second).flatten = seconds := by
  induction headers generalizing firsts seconds with
  | nil =>
    rw [eq_nil_of_length_eq_zero firstsLength, eq_nil_of_length_eq_zero secondsLength]
    exact ⟨[], rfl, rfl, rfl⟩
  | cons hdr rest ih =>
    rw [map_cons, sum_cons] at firstsLength secondsLength
    obtain ⟨items, headers, restFirsts, restSeconds⟩ :=
      ih (firsts.drop (sections.firstLen hdr)) (seconds.drop (sections.secondLen hdr))
        (by rw [length_drop]; omega) (by rw [length_drop]; omega)
    refine ⟨⟨hdr, firsts.take (sections.firstLen hdr), seconds.take (sections.secondLen hdr),
      length_take_of_le (by omega), length_take_of_le (by omega)⟩ :: items, ?_, ?_, ?_⟩
    · rw [map_cons, headers]
    · rw [map_cons, flatten_cons, restFirsts, take_append_drop]
    · rw [map_cons, flatten_cons, restSeconds, take_append_drop]

theorem exists_body {count : Nat} {bytes : Bytes}
    (length : bytes.length = count * sections.layout.width +
      (((sections.layout.table count bytes).map sections.firstLen).sum +
        ((sections.layout.table count bytes).map sections.secondLen).sum)) :
    ∃ items : List sections.Item, items.length = count ∧
      items.map Item.hdr = sections.layout.table count bytes ∧ body items = bytes := by
  have long : count * sections.layout.width ≤ bytes.length := by omega
  have written := sections.layout.flatMap_table long
  have tail : (bytes.drop (count * sections.layout.width)).length =
      ((sections.layout.table count bytes).map sections.firstLen).sum +
        ((sections.layout.table count bytes).map sections.secondLen).sum := by
    rw [length_drop]
    omega
  obtain ⟨items, hdrs, firsts, seconds⟩ : ∃ items : List sections.Item, _ :=
    exists_items (sections.layout.table count bytes)
      ((bytes.drop (count * sections.layout.width)).take
        ((sections.layout.table count bytes).map sections.firstLen).sum)
      ((bytes.drop (count * sections.layout.width)).drop
        ((sections.layout.table count bytes).map sections.firstLen).sum)
      (length_take_of_le (by omega)) (by rw [length_drop]; omega)
  refine ⟨items, ?_, hdrs, ?_⟩
  · have length_eq := congrArg List.length hdrs
    rwa [length_map, Layout.length_table] at length_eq
  · rw [body, flatMap_hdr, hdrs, written, firsts, seconds, take_append_drop, take_append_drop]

theorem items_ext {items items' : List sections.Item}
    (hdrs : items.map Item.hdr = items'.map Item.hdr)
    (firsts : items.map Item.first = items'.map Item.first)
    (seconds : items.map Item.second = items'.map Item.second) : items = items' := by
  induction items generalizing items' with
  | nil => exact (map_eq_nil_iff.mp hdrs.symm).symm
  | cons item rest ih =>
    cases items' with
    | nil => cases hdrs
    | cons item' rest' =>
      obtain ⟨hdr, hdrs⟩ := cons.inj hdrs
      obtain ⟨first, firsts⟩ := cons.inj firsts
      obtain ⟨second, seconds⟩ := cons.inj seconds
      rw [Item.ext hdr first second, ih hdrs firsts seconds]

end Sections

end DnaLedger
