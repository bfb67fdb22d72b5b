import Mathlib.Data.List.Sort
import Mathlib.Algebra.BigOperators.Group.List.Basic
import Mathlib.Algebra.Order.Ring.Int

/-!
# Insertion sort and sorted passes

Arrays that are sorted in place by insertion and then walked two at once, as list functions:
the insertion sort, the merge in which the second list overrides the first, the removal of a
sorted list of keys, and sums over what a list of keys looks up.
-/

namespace DnaLedger.Sorting

open List

variable {α κ : Type}

/-- Insert into a sorted array whose last element comes first. -/
def insertBack (less : α → α → Bool) (key : α) : List α → List α
  | [] => [key]
  | last :: rest =>
    if less key last then last :: insertBack less key rest else key :: last :: rest

/-- `for (i = 1; i < len; i++)` with the shifting inner loop; the sorted part has its last element
first. -/
def insertionSort (less : α → α → Bool) (items : List α) : List α :=
  (items.foldl (fun sorted key => insertBack less key sorted) []).reverse

variable (less : α → α → Bool) (items : List α)

theorem insertBack_perm (key : α) (sorted : List α) :
    (insertBack less key sorted).Perm (key :: sorted) := by
  induction sorted with
  | nil => exact .refl _
  | cons last rest ih =>
    rw [insertBack]
    split
    · exact (ih.cons last).trans (.swap key last rest)
    · exact .refl _

theorem foldl_insertBack_perm (sorted : List α) :
    (items.foldl (fun sorted key => insertBack less key sorted) sorted).Perm
      (items ++ sorted) := by
  induction items generalizing sorted with
  | nil => exact .refl _
  | cons item items ih =>
    have tail := (insertBack_perm less item sorted).append_left items
    exact (ih _).trans (tail.trans perm_middle)

theorem insertionSort_perm : (insertionSort less items).Perm items := by
  have loop := foldl_insertBack_perm less items []
  rw [append_nil] at loop
  exact (reverse_perm _).trans loop

@[simp] theorem mem_insertionSort {less : α → α → Bool} {items : List α} {item : α} :
    item ∈ insertionSort less items ↔ item ∈ items :=
  (insertionSort_perm less items).mem_iff

@[simp] theorem length_insertionSort : (insertionSort less items).length = items.length :=
  (insertionSort_perm less items).length_eq

section

variable {less : α → α → Bool}

/-- The negation of `less` is transitive and `less` never holds both ways. -/
structure StrictWeak (less : α → α → Bool) : Prop where
  asymm : ∀ {a b}, less a b = true → less b a = false
  negTrans : ∀ {a b c}, less b a = false → less c b = false → less c a = false

/-- The order in which the sort leaves two elements. -/
def Ordered (less : α → α → Bool) (a b : α) : Prop :=
  less b a = false

theorem insertBack_sorted (weak : StrictWeak less) (key : α) {sorted : List α}
    (before : sorted.Pairwise fun later earlier => Ordered less earlier later) :
    (insertBack less key sorted).Pairwise fun later earlier => Ordered less earlier later := by
  induction sorted with
  | nil => exact pairwise_singleton _ _
  | cons last rest ih =>
    obtain ⟨lastAfter, restSorted⟩ := pairwise_cons.mp before
    rw [insertBack]
    split
    next precedes =>
      refine pairwise_cons.mpr ⟨fun item mem => ?_, ih restSorted⟩
      rcases mem_cons.mp ((insertBack_perm less key rest).mem_iff.mp mem) with
        eq | old
      · rw [eq]
        exact weak.asymm precedes
      · exact lastAfter item old
    next follows =>
      have follows : less key last = false := by simpa using follows
      refine pairwise_cons.mpr ⟨fun item mem => ?_, before⟩
      rcases mem_cons.mp mem with eq | old
      · rw [eq]
        exact follows
      · exact weak.negTrans (lastAfter item old) follows

theorem insertionSort_sorted (weak : StrictWeak less) (items : List α) :
    (insertionSort less items).Pairwise (Ordered less) := by
  rw [insertionSort, pairwise_reverse]
  have loop : ∀ (items sorted : List α),
      (sorted.Pairwise fun later earlier => Ordered less earlier later) →
      (items.foldl (fun sorted key => insertBack less key sorted) sorted).Pairwise
        fun later earlier => Ordered less earlier later := by
    intro items
    induction items with
    | nil => exact fun _ before => before
    | cons item items ih =>
      exact fun sorted before => ih _ (insertBack_sorted weak item before)
  exact loop items [] .nil

/-- `less` compares by a key. -/
def ComparesBy [LT κ] (less : α → α → Bool) (key : α → κ) : Prop :=
  ∀ a b, less a b = true ↔ key a < key b

variable {key : α → κ}

theorem ComparesBy.eq_false [LinearOrder κ] (compares : ComparesBy less key) {a b : α} :
    less a b = false ↔ key b ≤ key a := by
  rw [← not_lt, ← compares a b, Bool.not_eq_true]

theorem ComparesBy.strictWeak [LinearOrder κ] (compares : ComparesBy less key) :
    StrictWeak less where
  asymm precedes := compares.eq_false.mpr ((compares _ _).mp precedes).le
  negTrans first second :=
    compares.eq_false.mpr ((compares.eq_false.mp first).trans (compares.eq_false.mp second))

end

/-- The check of every element against the one before it. -/
def ascending (precedes : α → α → Bool) : List α → Bool
  | first :: second :: rest => precedes first second && ascending precedes (second :: rest)
  | _ => true

variable {precedes : α → α → Bool} {Before : α → α → Prop}

theorem pairwise_of_ascending
    (precedes_iff : ∀ first second, precedes first second = true ↔ Before first second)
    (trans : ∀ first second third, Before first second → Before second third → Before first third) :
    (items : List α) → ascending precedes items = true → items.Pairwise Before
  | [], _ => Pairwise.nil
  | [item], _ => pairwise_singleton _ _
  | first :: second :: rest, ordered => by
      rw [ascending, Bool.and_eq_true, precedes_iff] at ordered
      have tail := pairwise_of_ascending precedes_iff trans (second :: rest) ordered.2
      refine pairwise_cons.mpr ⟨?_, tail⟩
      intro later mem
      rcases mem_cons.mp mem with rfl | behind
      · exact ordered.1
      · exact trans _ _ _ ordered.1 (rel_of_pairwise_cons tail behind)

theorem ascending_of_pairwise
    (precedes_iff : ∀ first second, precedes first second = true ↔ Before first second) :
    (items : List α) → items.Pairwise Before → ascending precedes items = true
  | [], _ => rfl
  | [item], _ => rfl
  | first :: second :: rest, ordered => by
      obtain ⟨head, tail⟩ := pairwise_cons.mp ordered
      rw [ascending, Bool.and_eq_true, precedes_iff]
      exact ⟨head second mem_cons_self, ascending_of_pairwise precedes_iff _ tail⟩

/-! ## Passes over two sorted lists -/

section

variable [LinearOrder κ]

def SortedBy (key : α → κ) (items : List α) : Prop :=
  items.Pairwise fun a b => key a < key b

variable {key : α → κ} {items : List α}

theorem SortedBy.nodup (sorted : SortedBy key items) : (items.map key).Nodup := by
  rw [Nodup, pairwise_map]
  exact sorted.imp fun less => less.ne

variable {others : List α} {less : α → α → Bool}

omit [LinearOrder κ] in
theorem perm_of_keys (nodup : (items.map key).Nodup) (otherDistinct : (others.map key).Nodup)
    (eq : ∀ item, item ∈ items ↔ item ∈ others) :
    items.Perm others :=
  (perm_ext_iff_of_nodup nodup.of_map otherDistinct.of_map).mpr eq

theorem SortedBy.eq_of_mem_iff (sorted : SortedBy key items) (otherSorted : SortedBy key others)
    (eq : ∀ item, item ∈ items ↔ item ∈ others) :
    items = others := by
  refine (perm_of_keys sorted.nodup otherSorted.nodup eq).eq_of_pairwise ?_ sorted otherSorted
  intro first second _ _ less greater
  exact absurd (less.trans greater) (lt_irrefl _)

theorem sortedBy_insertionSort (compares : ComparesBy less key) (nodup : (items.map key).Nodup) :
    SortedBy key (insertionSort less items) := by
  have ordered := insertionSort_sorted compares.strictWeak items
  have keys : ((insertionSort less items).map key).Nodup :=
    ((insertionSort_perm _ items).map key).nodup_iff.mpr nodup
  rw [Nodup, pairwise_map] at keys
  refine (ordered.and keys).imp fun {a b} both => ?_
  exact lt_of_le_of_ne (compares.eq_false.mp both.1) both.2

theorem sortedBy_of_ascending {precedes : α → α → Bool} (compares : ComparesBy precedes key)
    (ordered : ascending precedes items = true) : SortedBy key items :=
  pairwise_of_ascending compares (fun _ _ _ => lt_trans) items ordered

theorem sortedBy_of_differing {differs : α → α → Bool} (compares : ComparesBy less key)
    (differs_iff : ∀ first second, differs first second = true ↔ key first ≠ key second) :
    (items : List α) → items.Pairwise (Ordered less) → ascending differs items = true →
      SortedBy key items
  | [], _, _ => Pairwise.nil
  | [item], _, _ => pairwise_singleton _ _
  | first :: second :: rest, ordered, differ => by
      rw [ascending, Bool.and_eq_true, differs_iff] at differ
      obtain ⟨head, tail⟩ := pairwise_cons.mp ordered
      have sorted := sortedBy_of_differing compares differs_iff (second :: rest) tail differ.2
      have before : key first < key second :=
        lt_of_le_of_ne (compares.eq_false.mp (head second mem_cons_self)) differ.1
      refine pairwise_cons.mpr ⟨?_, sorted⟩
      intro later mem
      rcases mem_cons.mp mem with rfl | behind
      · exact before
      · exact before.trans (rel_of_pairwise_cons sorted behind)

/-- One old element against the new ones: smaller keys go first, and the same key
takes its place. -/
def overrideStep (key : α → κ) (old : α) (rest : List α → List α) : List α → List α
  | [] => old :: rest []
  | new :: news =>
    if key old < key new then old :: rest (new :: news)
    else if key old = key new then new :: rest news
    else new :: overrideStep key old rest news

/-- Merge two lists sorted by key; where both have a key, the new element wins. -/
def overrideMerge (key : α → κ) : List α → List α → List α
  | [], news => news
  | old :: olds, news => overrideStep key old (overrideMerge key olds) news

theorem mem_overrideMerge (key : α → κ) {olds news : List α} (oldSorted : SortedBy key olds)
    (newSorted : SortedBy key news) (item : α) :
    item ∈ overrideMerge key olds news ↔
      (item ∈ olds ∧ key item ∉ news.map key) ∨ item ∈ news := by
  induction olds generalizing news with
  | nil => simp [overrideMerge]
  | cons old olds ih =>
    obtain ⟨oldFirst, oldSorted⟩ := pairwise_cons.mp oldSorted
    rw [overrideMerge]
    induction news with
    | nil =>
      rw [overrideStep, mem_cons, ih oldSorted .nil]
      simp
    | cons new news inner =>
      obtain ⟨newFirst, newTail⟩ := pairwise_cons.mp newSorted
      rw [overrideStep]
      split
      next less =>
        -- `old` precedes every new element, so none of them has its key.
        have absent : ∀ other ∈ new :: news, key old ≠ key other := by
          rintro other (_ | ⟨_, later⟩)
          · exact less.ne
          · exact (less.trans (newFirst other later)).ne
        rw [mem_cons, ih oldSorted newSorted]
        grind
      next notLess =>
        split
        next eq =>
          -- The later old elements have larger keys than `new`.
          have fresh : ∀ other ∈ olds, key other ≠ key new := fun other later =>
            (eq ▸ oldFirst other later).ne'
          rw [mem_cons, ih oldSorted newTail]
          grind
        next notEqual =>
          have greater : key new < key old :=
            lt_of_le_of_ne (not_lt.mp notLess) (Ne.symm notEqual)
          have fresh : ∀ other ∈ old :: olds, key other ≠ key new := by
            rintro other (_ | ⟨_, later⟩)
            · exact notEqual
            · exact (greater.trans (oldFirst other later)).ne'
          rw [mem_cons, inner newTail]
          grind

theorem sortedBy_overrideMerge (key : α → κ) {olds news : List α}
    (oldSorted : SortedBy key olds) (newSorted : SortedBy key news) :
    SortedBy key (overrideMerge key olds news) := by
  induction olds generalizing news with
  | nil => exact newSorted
  | cons old olds ih =>
    obtain ⟨oldFirst, oldTail⟩ := pairwise_cons.mp oldSorted
    rw [overrideMerge]
    induction news with
    | nil =>
      refine pairwise_cons.mpr ⟨fun item mem => ?_, ih oldTail .nil⟩
      rcases (mem_overrideMerge key oldTail .nil item).mp mem with ⟨later, -⟩ | none
      · exact oldFirst item later
      · cases none
    | cons new news inner =>
      obtain ⟨newFirst, newTail⟩ := pairwise_cons.mp newSorted
      rw [overrideStep]
      split
      next less =>
        refine pairwise_cons.mpr ⟨fun item mem => ?_, ih oldTail newSorted⟩
        rcases (mem_overrideMerge key oldTail newSorted item).mp mem with
          ⟨later, -⟩ | _ | ⟨_, later⟩
        · exact oldFirst item later
        · exact less
        · exact less.trans (newFirst item later)
      next notLess =>
        split
        next eq =>
          refine pairwise_cons.mpr ⟨fun item mem => ?_, ih oldTail newTail⟩
          rcases (mem_overrideMerge key oldTail newTail item).mp mem with
            ⟨later, -⟩ | later
          · exact eq ▸ oldFirst item later
          · exact newFirst item later
        next notEqual =>
          have greater : key new < key old :=
            lt_of_le_of_ne (not_lt.mp notLess) (Ne.symm notEqual)
          refine pairwise_cons.mpr ⟨fun item mem => ?_, inner newTail⟩
          rcases (mem_overrideMerge key oldSorted newTail item).mp mem with
            ⟨_ | ⟨_, later⟩, -⟩ | later
          · exact greater
          · exact greater.trans (oldFirst item later)
          · exact newFirst item later

theorem length_overrideMerge_le (key : α → κ) (olds news : List α) :
    (overrideMerge key olds news).length ≤ olds.length + news.length := by
  induction olds generalizing news with
  | nil => simp [overrideMerge]
  | cons old olds ih =>
    rw [overrideMerge]
    induction news with
    | nil =>
      have := ih []
      simp only [overrideStep, length_cons, length_nil] at this ⊢
      omega
    | cons new news inner =>
      have kept := ih (new :: news)
      have replaced := ih news
      rw [overrideStep]
      split <;> [skip; split] <;> simp only [length_cons] at kept inner ⊢ <;> omega

/-- Drop the elements whose keys a second sorted list names; a name that is not found
is an error. -/
def removeKeys (key : α → κ) : List α → List α → Option (List α)
  | items, [] => some items
  | [], _ :: _ => none
  | item :: items, gone :: rest =>
    if key item = key gone then removeKeys key items rest
    else (removeKeys key items (gone :: rest)).map (item :: ·)

theorem removeKeys_eq (key : α → κ) {names : List α} (sorted : SortedBy key items)
    (namesSorted : SortedBy key names) (known : ∀ name ∈ names, key name ∈ items.map key) :
    removeKeys key items names =
      some (items.filter fun item => decide (key item ∉ names.map key)) := by
  induction items generalizing names with
  | nil =>
    cases names with
    | nil => rfl
    | cons name names => exact absurd (known name (mem_cons_self ..)) (by simp)
  | cons item items ih =>
    obtain ⟨first, tail⟩ := pairwise_cons.mp sorted
    cases names with
    | nil => simp [removeKeys]
    | cons name names =>
      obtain ⟨nameFirst, namesTail⟩ := pairwise_cons.mp namesSorted
      rw [removeKeys]
      split
      next eq =>
        have others : ∀ other ∈ names, key other ∈ items.map key := by
          intro other later
          have less := nameFirst other later
          have found := known other (mem_cons_of_mem _ later)
          rw [map_cons, mem_cons] at found
          exact found.resolve_left fun same => less.ne' (same.trans eq)
        have same : ∀ other ∈ items, (key other ∉ names.map key ↔
            key other ∉ (name :: names).map key) := by
          intro other later
          have less := first other later
          rw [map_cons, mem_cons, not_or, ← eq]
          exact ⟨fun fresh => ⟨less.ne', fresh⟩, And.right⟩
        rw [ih tail namesTail others, filter_cons_of_neg (by simp [eq])]
        congr 1
        exact filter_congr fun other later => by simp only [same other later]
      next notEqual =>
        -- The smallest name is a later element, so no name is this one.
        have nameLater : key item < key name := by
          have found := known name (mem_cons_self ..)
          rw [map_cons, mem_cons, mem_map] at found
          rcases found with same | ⟨other, later, same⟩
          · exact absurd same.symm notEqual
          · exact same ▸ first other later
        have absent : key item ∉ (name :: names).map key := by
          intro mem
          obtain ⟨other, other_mem, same⟩ := mem_map.mp mem
          rcases mem_cons.mp other_mem with rfl | later
          · exact nameLater.ne' same
          · exact (nameLater.trans (nameFirst other later)).ne' same
        have others : ∀ other ∈ name :: names, key other ∈ items.map key := by
          intro other other_mem
          have found := known other other_mem
          rw [map_cons, mem_cons] at found
          exact found.resolve_left fun same =>
            absent (same ▸ mem_map_of_mem other_mem)
        rw [ih tail namesSorted others, filter_cons_of_pos (by simpa using absent)]
        rfl

end

variable [BEq κ]

/-- The weight of the first element with the key, or zero. -/
def weightAt (key : α → κ) (weight : α → Int) (items : List α) (wanted : κ) : Int :=
  (items.find? fun item => key item == wanted).elim 0 weight

theorem weightAt_cons (key : α → κ) (weight : α → Int) (item : α) (items : List α) (wanted : κ) :
    weightAt key weight (item :: items) wanted =
      if key item == wanted then weight item else weightAt key weight items wanted := by
  rw [weightAt, find?_cons]
  cases key item == wanted <;> rfl

variable [LawfulBEq κ]
variable {items : List α}

theorem weightAt_eq_zero {key : α → κ} {weight : α → Int} {wanted : κ}
    (absent : wanted ∉ items.map key) : weightAt key weight items wanted = 0 := by
  have empty : (items.find? fun item => key item == wanted) = none := by
    rw [find?_eq_none]
    intro item mem eq
    exact absent (mem_map.mpr ⟨item, mem, by simpa using eq⟩)
  rw [weightAt, empty]
  rfl

theorem sum_weightAt (key : α → κ) (weight : α → Int) (nodup : (items.map key).Nodup)
    {keys : List κ} (keysDistinct : keys.Nodup) :
    (keys.map (weightAt key weight items)).sum =
      ((items.filter fun item => keys.contains (key item)).map weight).sum := by
  induction items with
  | nil =>
    have zero : weightAt key weight [] = fun _ => 0 := rfl
    simp [zero]
  | cons item items ih =>
    rw [map_cons, nodup_cons] at nodup
    obtain ⟨fresh, nodup⟩ := nodup
    have split : weightAt key weight (item :: items) = fun wanted =>
        (if key item == wanted then weight item else 0) + weightAt key weight items wanted := by
      funext wanted
      rw [weightAt_cons]
      split
      next eq => rw [← eq_of_beq eq, weightAt_eq_zero fresh, add_zero]
      next => rw [zero_add]
    rw [split, sum_map_add, ih nodup]
    have here : (keys.map fun wanted => if key item == wanted then weight item else 0).sum =
        if keys.contains (key item) then weight item else 0 := by
      clear split ih
      induction keys with
      | nil => rfl
      | cons first rest inner =>
        obtain ⟨notLater, restDistinct⟩ := nodup_cons.mp keysDistinct
        rw [map_cons, sum_cons, inner restDistinct, contains_cons]
        by_cases eq : key item = first
        · subst eq
          simp [notLater]
        · simp [eq]
    rw [here, filter_cons]
    by_cases mem : key item ∈ keys <;> simp [mem]

end DnaLedger.Sorting
