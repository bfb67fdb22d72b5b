import Mathlib.Data.Set.Card

/-!
# Linear probing

Tables with open addressing. Every entry is reached from the home slot of its key over used
slots. A deletion keeps that without tombstones, by moving later entries into the gap.
-/

namespace DnaLedger.Probing

open Function

/-- The slots of a table in their cyclic order, with a home slot for every key. -/
structure ProbeLayout (κ : Type) where
  cap : Nat
  home : κ → Fin cap
  next : Fin cap → Fin cap
  next_eq : ∀ i, (next i).val = if i.val + 1 = cap then 0 else i.val + 1

namespace ProbeLayout

variable {κ : Type} (layout : ProbeLayout κ)

abbrev Slots (α : Type) : Type :=
  Fin layout.cap → Option (κ × α)

/-- The steps from one slot to another. -/
def dist (i j : Fin layout.cap) : Nat :=
  if i ≤ j then j - i else j + layout.cap - i

variable {layout} {h i j x : Fin layout.cap}

theorem dist_lt : layout.dist i j < layout.cap := by
  grind [dist]

theorem dist_eq_zero : layout.dist i j = 0 ↔ i = j := by
  grind [dist]

theorem eq_of_dist (eq : layout.dist h i = layout.dist h j) : i = j := by
  grind [dist]

theorem dist_next (other : i ≠ j) : layout.dist i j = layout.dist (layout.next i) j + 1 := by
  grind [dist, layout.next_eq i]

theorem dist_next_right (near : layout.dist i j + 1 < layout.cap) :
    layout.dist i (layout.next j) = layout.dist i j + 1 := by
  grind [dist, layout.next_eq j]

theorem dist_lt_of_between (beyond : layout.dist i j < layout.dist i x)
    (past : layout.dist h i < layout.dist h x) : layout.dist h j < layout.dist h x := by
  grind [dist]

theorem movable_iff (other : i ≠ j) :
    (if i < j then h ≤ i ∨ j < h else h ≤ i ∧ j < h) ↔ layout.dist h i < layout.dist h j := by
  grind [dist]

end ProbeLayout

open ProbeLayout

variable {κ α : Type} [DecidableEq κ] (layout : ProbeLayout κ)

/-- The first slot from `i` on that is free or has the key, if it is one of the next `n`. -/
def seek (slots : layout.Slots α) (key : κ) : Nat → Fin layout.cap → Option (Fin layout.cap)
  | 0, _ => none
  | n + 1, i =>
    match slots i with
    | none => some i
    | some entry => if entry.1 = key then some i else seek slots key n (layout.next i)

def find (slots : layout.Slots α) (key : κ) : Option (Fin layout.cap) :=
  (seek layout slots key layout.cap (layout.home key)).filter fun i => (slots i).isSome

def load (slots : layout.Slots α) (key : κ) : Option α :=
  (find layout slots key).bind fun i => (slots i).map Prod.snd

/-- There is no table where no slot is left. -/
def store (slots : layout.Slots α) (key : κ) (value : α) : Option (layout.Slots α) :=
  (seek layout slots key layout.cap (layout.home key)).map fun i =>
    update slots i (some (key, value))

/-- Closes the gap `i`, with the slots up to `j` done. -/
def shift : Nat → Fin layout.cap → Fin layout.cap → layout.Slots α → Option (layout.Slots α)
  | 0, _, _, _ => none
  | n + 1, i, j, slots =>
    let j := layout.next j
    match slots j with
    | none => some slots
    | some entry =>
      let k := layout.home entry.1
      if (if i < j then k ≤ i ∨ j < k else k ≤ i ∧ j < k) then
        shift n j j (update (update slots i (some entry)) j none)
      else shift n i j slots

def delete (slots : layout.Slots α) (key : κ) : Option (layout.Slots α) :=
  match find layout slots key with
  | none => some slots
  | some i => shift layout layout.cap i i (update slots i none)

inductive Op (κ α : Type) where
  | store (key : κ) (value : α)
  | delete (key : κ)

/-- What an operation does to the contents. -/
def Op.change : Op κ α → (κ → Option α) → κ → Option α
  | store key value, contents => update contents key (some value)
  | delete key, contents => update contents key none

def Op.exec : Op κ α → layout.Slots α → Option (layout.Slots α)
  | store key value, slots => Probing.store layout slots key value
  | delete key, slots => Probing.delete layout slots key

def run (ops : List (Op κ α)) (slots : layout.Slots α) : Option (layout.Slots α) :=
  ops.foldlM (fun slots op => op.exec layout slots) slots

/-- The value last stored for each key and not deleted since. -/
def contentsAfter (ops : List (Op κ α)) (contents : κ → Option α) : κ → Option α :=
  ops.foldl (fun contents op => op.change contents) contents

/-! ## Contents -/

/-- A table with these contents, each key at its place, and every slot on the way from its home
used or a `gap`. -/
structure Represents (gap : Fin layout.cap → Prop) (slots : layout.Slots α)
    (contents : κ → Option α) (place : κ → Fin layout.cap) : Prop where
  slot_iff : ∀ {j key value},
    slots j = some (key, value) ↔ contents key = some value ∧ place key = j
  reach : ∀ {key value x}, contents key = some value →
    layout.dist (layout.home key) x < layout.dist (layout.home key) (place key) →
    slots x = none → gap x

/-- The ways of the keys in the first `n` slots from `i` on do not lead over `i`. -/
def Clear (contents : κ → Option α) (place : κ → Fin layout.cap) (i : Fin layout.cap) (n : Nat) :
    Prop :=
  ∀ {key value}, contents key = some value → layout.dist i (place key) < n →
    layout.dist (layout.home key) (place key) ≤ layout.dist (layout.home key) i

variable {layout} {slots : layout.Slots α} {contents : κ → Option α} {place : κ → Fin layout.cap}

section

omit [DecidableEq κ]

variable {gap : Fin layout.cap → Prop} {i j : Fin layout.cap} {key : κ} {value : α}

theorem represents_empty :
    Represents layout (fun _ => False) (fun _ => none : layout.Slots α) (fun _ => none)
      layout.home := by
  constructor <;> simp

section

variable (rep : Represents layout gap slots contents place)

include rep

theorem Represents.place_ne
    (free : slots j = none) (stored : contents key = some value) : j ≠ place key := by
  rintro rfl
  rw [rep.slot_iff.mpr ⟨stored, rfl⟩] at free
  cases free

theorem Represents.clear
    (free : slots i = none) : Clear layout contents place i (layout.dist i i + 1) := by
  intro key value stored near
  have self : layout.dist i i = 0 := dist_eq_zero.mpr rfl
  have apart := mt dist_eq_zero.mp (rep.place_ne free stored)
  omega

theorem Represents.stay (used : slots j = some (key, value))
    (stays : ¬ layout.dist (layout.home key) i < layout.dist (layout.home key) j)
    (clear : Clear layout contents place i (layout.dist i j)) :
    Clear layout contents place i (layout.dist i j + 1) := by
  intro k v stored near
  rcases Nat.lt_succ_iff_lt_or_eq.mp near with nearer | last
  · exact clear stored nearer
  · have eq := eq_of_dist last
    have taken := rep.slot_iff.mpr ⟨stored, eq⟩
    rw [used] at taken
    cases taken
    rw [eq]
    exact Nat.not_lt.mp stays

theorem Represents.room
    (few : {key | contents key ≠ none}.encard < layout.cap) : ∃ f, slots f = none := by
  by_contra full
  have covered : Set.univ ⊆ place '' {key | contents key ≠ none} := by
    intro j _
    obtain ⟨⟨key, value⟩, used⟩ := Option.ne_none_iff_exists'.mp (not_exists.mp full j)
    obtain ⟨stored, here⟩ := rep.slot_iff.mp used
    exact ⟨key, by simp [stored], here⟩
  have count := (Set.encard_le_encard covered).trans (Set.encard_image_le ..)
  rw [Set.encard_univ, ENat.card_eq_coe_fintype_card, Fintype.card_fin] at count
  exact absurd few (not_lt.mpr count)

end

/-- The gap is closed where a free slot follows the slots whose ways do not lead over it. -/
theorem Represents.close (rep : Represents layout (· = i) slots contents place) (other : i ≠ j)
    (free : slots j = none) (clear : Clear layout contents place i (layout.dist i j)) :
    Represents layout (fun _ => False) slots contents place := by
  refine ⟨rep.slot_iff, fun {key value x} stored before unused => ?_⟩
  cases rep.reach stored before unused
  rcases Nat.lt_trichotomy (layout.dist i (place key)) (layout.dist i j) with near | eq | far
  · exact absurd (clear stored near) (Nat.not_le.mpr before)
  · exact rep.place_ne free stored (eq_of_dist eq).symm
  · exact other (rep.reach stored (dist_lt_of_between far before) free).symm

end

theorem Represents.move {i j : Fin layout.cap} {key : κ} {value : α}
    (rep : Represents layout (· = i) slots contents place) (gap : slots i = none)
    (used : slots j = some (key, value))
    (past : layout.dist (layout.home key) i < layout.dist (layout.home key) j) :
    Represents layout (· = j) (update (update slots i (some (key, value))) j none) contents
      (update place key i) := by
  obtain ⟨stored, here⟩ := rep.slot_iff.mp used
  refine ⟨fun {x k v} => ?_, fun {k v x} there before free => ?_⟩
  · have old := @rep.slot_iff x k v
    have oldGap := @rep.slot_iff i k v
    grind [update_apply]
  · by_contra other
    rw [update_of_ne other] at free
    have notGap : x ≠ i := by
      rintro rfl
      simp at free
    rw [update_of_ne notGap] at free
    refine notGap (rep.reach there ?_ free)
    by_cases eq : k = key
    · subst eq
      rw [update_self] at before
      rw [here]
      omega
    · rwa [update_of_ne eq] at before

/-! ## Operations -/

theorem seek_eq_some {n : Nat} {i f : Fin layout.cap} {key : κ} (free : slots f = none)
    (near : layout.dist i f < n) :
    ∃ t, seek layout slots key n i = some t ∧ (∀ entry, slots t = some entry → entry.1 = key) ∧
      ∀ x, layout.dist i x < layout.dist i t → ∃ entry, slots x = some entry ∧ entry.1 ≠ key := by
  induction n generalizing i with
  | zero => omega
  | succ n ih =>
    have start : layout.dist i i = 0 := dist_eq_zero.mpr rfl
    rw [seek]
    cases here : slots i with
    | none => exact ⟨i, rfl, by simp [here], by omega⟩
    | some entry =>
      by_cases eq : entry.1 = key
      · exact ⟨i, if_pos eq, by simp [here, eq], by omega⟩
      · have other : i ≠ f := by
          rintro rfl
          simp [free] at here
        have step := dist_next other
        obtain ⟨t, found, stop, passed⟩ := @ih (layout.next i) (by omega)
        refine ⟨t, by rw [← found]; exact if_neg eq, stop, fun x before => ?_⟩
        by_cases first : i = x
        · exact ⟨entry, first ▸ here, eq⟩
        · have far : i ≠ t := by
            rintro rfl
            omega
          have stepT := dist_next far
          have stepX := dist_next first
          exact passed x (by omega)

variable (rep : Represents layout (fun _ => False) slots contents place)
  (room : ∃ f, slots f = none) (key : κ)

include rep room

theorem seek_home :
    ∃ t, seek layout slots key layout.cap (layout.home key) = some t ∧
      (∀ entry, slots t = some entry → entry.1 = key) ∧
      (∀ value, contents key = some value → place key = t) ∧
      ∀ x, layout.dist (layout.home key) x < layout.dist (layout.home key) t →
        slots x ≠ none := by
  obtain ⟨f, free⟩ := room
  obtain ⟨t, found, stop, passed⟩ :=
    @seek_eq_some _ _ _ _ slots _ (layout.home key) _ key free dist_lt
  refine ⟨t, found, stop, fun value stored => ?_, fun x before => ?_⟩
  · have here := rep.slot_iff.mpr ⟨stored, rfl⟩
    rcases Nat.lt_trichotomy (layout.dist (layout.home key) (place key))
      (layout.dist (layout.home key) t) with before | eq | behind
    · obtain ⟨entry, used, apart⟩ := passed _ before
      rw [here] at used
      cases used
      exact absurd rfl apart
    · exact eq_of_dist eq
    · cases used : slots t with
      | none => exact (rep.reach stored behind used).elim
      | some entry =>
        cases stop entry used
        exact (rep.slot_iff.mp used).2
  · obtain ⟨entry, used, -⟩ := passed x before
    simp [used]

theorem load_eq : load layout slots key = contents key := by
  obtain ⟨t, found, stop, settled, -⟩ := seek_home rep room key
  rw [load, find, found]
  cases stored : contents key with
  | none =>
    cases used : slots t with
    | none => simp [used]
    | some entry =>
      cases stop entry used
      rw [(rep.slot_iff.mp used).1] at stored
      cases stored
  | some value =>
    have used := rep.slot_iff.mpr ⟨stored, settled value stored⟩
    simp [used, Option.filter]

theorem store_represents (value : α) :
    ∃ after place', store layout slots key value = some after ∧
      Represents layout (fun _ => False) after (update contents key (some value)) place' := by
  obtain ⟨t, found, stop, settled, passed⟩ := seek_home rep room key
  refine ⟨update slots t (some (key, value)), update place key t, by rw [store, found]; rfl,
    fun {j other stored} => ?_, fun {other stored x} there before free => ?_⟩
  · have old := @rep.slot_iff j other stored
    grind [update_apply]
  · have notHere : x ≠ t := by
      rintro rfl
      simp at free
    rw [update_of_ne notHere] at free
    by_cases eq : other = key
    · subst eq
      rw [update_self] at before
      exact passed x before free
    · rw [update_of_ne eq] at there before
      exact rep.reach there before free

omit rep room in
theorem shift_represents {n : Nat} {i j f : Fin layout.cap}
    (rep : Represents layout (· = i) slots contents place) (gap : slots i = none)
    (free : slots f = none) (before : layout.dist i j < layout.dist i f)
    (fuel : layout.dist j f ≤ n)
    (clear : Clear layout contents place i (layout.dist i j + 1)) :
    ∃ after place', shift layout n i j slots = some after ∧
      Represents layout (fun _ => False) after contents place' := by
  induction n generalizing i j slots place with
  | zero =>
    cases dist_eq_zero.mp (Nat.le_zero.mp fuel)
    omega
  | succ n ih =>
    have self (i : Fin layout.cap) : layout.dist i i = 0 := dist_eq_zero.mpr rfl
    have bound : layout.dist i f < layout.cap := dist_lt
    have step : layout.dist i (layout.next j) = layout.dist i j + 1 := dist_next_right (by omega)
    have other : i ≠ layout.next j := by
      intro eq
      rw [← eq, self] at step
      omega
    have notFree : j ≠ f := by
      rintro rfl
      omega
    have stepFree := dist_next notFree
    rw [← step] at clear
    rw [shift]
    cases used : slots (layout.next j) with
    | none => exact ⟨slots, place, rfl, rep.close other used clear⟩
    | some entry =>
      obtain ⟨key, value⟩ := entry
      have moves := @movable_iff _ _ (layout.home key) _ _ other
      have beyond : layout.next j ≠ f := by
        intro eq
        simp [eq, free] at used
      by_cases past :
          layout.dist (layout.home key) i < layout.dist (layout.home key) (layout.next j)
      · -- The gap moves on to the slot that the entry leaves.
        have moved := rep.move gap used past
        have atGap : f ≠ i := by
          rintro rfl
          simp [self] at before
        have ahead := mt dist_eq_zero.mp beyond
        obtain ⟨after, place', run, rep'⟩ := ih moved (update_self ..)
          (by rwa [update_of_ne beyond.symm, update_of_ne atGap]) (by rw [self]; omega) (by omega)
          (moved.clear (update_self ..))
        exact ⟨after, place', by rw [← run]; exact if_pos (moves.mpr past), rep'⟩
      · have apart : layout.dist i (layout.next j) ≠ layout.dist i f := fun eq =>
          beyond (eq_of_dist eq)
        obtain ⟨after, place', run, rep'⟩ :=
          ih rep gap free (by omega) (by omega) (rep.stay used past clear)
        exact ⟨after, place', by rw [← run]; exact if_neg (mt moves.mp past), rep'⟩

theorem delete_represents :
    ∃ after place', delete layout slots key = some after ∧
      Represents layout (fun _ => False) after (update contents key none) place' := by
  obtain ⟨t, found, stop, settled, -⟩ := seek_home rep room key
  obtain ⟨f, free⟩ := room
  rw [delete, find, found, Option.filter]
  cases used : slots t with
  | none =>
    have absent : contents key = none := by
      refine Option.eq_none_iff_forall_ne_some.mpr fun value stored => ?_
      rw [rep.slot_iff.mpr ⟨stored, settled value stored⟩] at used
      cases used
    refine ⟨slots, place, rfl, ?_⟩
    rwa [← absent, update_eq_self]
  | some entry =>
    obtain ⟨key, value⟩ := entry
    cases stop _ used
    have apart : t ≠ f := by
      rintro rfl
      simp [free] at used
    have opened : Represents layout (· = t) (update slots t none) (update contents key none)
        place := by
      have kept {k : κ} {v : α} (there : update contents key none k = some v) :
          contents k = some v := by
        grind [update_apply]
      refine ⟨fun {x k v} => ?_, fun {k v x} there before gap => ?_⟩
      · have old := @rep.slot_iff x k v
        grind [update_apply]
      · by_contra elsewhere
        rw [update_of_ne elsewhere] at gap
        exact rep.reach (kept there) before gap
    have self : layout.dist t t = 0 := dist_eq_zero.mpr rfl
    have ahead := mt dist_eq_zero.mp apart
    exact shift_represents opened (update_self ..) (by rwa [update_of_ne apart.symm]) (by omega)
      dist_lt.le (opened.clear (update_self ..))

omit room key in
theorem run_represents {ops : List (Op κ α)} (within : ∀ prior, prior <+: ops →
      {key | contentsAfter prior contents key ≠ none}.encard < layout.cap) :
    ∃ after place', run layout ops slots = some after ∧
      Represents layout (fun _ => False) after (contentsAfter ops contents) place' := by
  induction ops generalizing slots contents place with
  | nil => exact ⟨slots, place, rfl, rep⟩
  | cons op rest ih =>
    have room := rep.room (within [] List.nil_prefix)
    obtain ⟨next, place', step, rep'⟩ : ∃ next place', op.exec layout slots = some next ∧
        Represents layout (fun _ => False) next (op.change contents) place' := by
      cases op with
      | store key value => exact store_represents rep room key value
      | delete key => exact delete_represents rep room key
    obtain ⟨after, placed, run, final⟩ := ih rep' fun prior before =>
      within (op :: prior) (List.prefix_cons_inj op |>.mpr before)
    exact ⟨after, placed, by rw [Probing.run, List.foldlM_cons, step]; exact run, final⟩

end DnaLedger.Probing
