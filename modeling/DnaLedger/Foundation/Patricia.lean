import Mathlib.Data.List.Infix

/-!
# Compressed prefix trees

A tree maps keys, which are lists of digits of one length, to values. A tree is canonical when an
extension leads to a branch and a branch has at least two subtrees. A canonical tree is determined
by the map it stands for.
-/

namespace DnaLedger

open List Function

/-- A compressed prefix tree with digits `ι` and values `α`. -/
inductive Patricia (ι α : Type) where
  | empty
  | leaf (rest : List ι) (value : α)
  | extension (segment : List ι) (child : Patricia ι α)
  | branch (child : ι → Patricia ι α)

namespace Patricia

variable {ι α : Type} [DecidableEq ι]

def lookup : Patricia ι α → List ι → Option α
  | empty, _ => none
  | leaf rest value, key => if rest = key then some value else none
  | extension segment child, key =>
    if segment <+: key then child.lookup (key.drop segment.length) else none
  | branch _, [] => none
  | branch child, digit :: key => (child digit).lookup key

@[simp] theorem lookup_empty (key : List ι) : (empty : Patricia ι α).lookup key = none := rfl

theorem lookup_leaf (rest : List ι) (value : α) (key : List ι) :
    (leaf rest value).lookup key = if rest = key then some value else none := rfl

@[simp] theorem lookup_leaf_self (rest : List ι) (value : α) :
    (leaf rest value).lookup rest = some value :=
  if_pos rfl

variable (segment : List ι) (tree : Patricia ι α)

theorem lookup_extension (child : Patricia ι α) (key : List ι) :
    (extension segment child).lookup key =
      if segment <+: key then child.lookup (key.drop segment.length) else none := rfl

@[simp] theorem lookup_extension_append (child : Patricia ι α) (key : List ι) :
    (extension segment child).lookup (segment ++ key) = child.lookup key := by
  rw [lookup_extension, if_pos (prefix_append segment key), drop_left]

@[simp] theorem lookup_branch_cons (child : ι → Patricia ι α) (digit : ι) (key : List ι) :
    (branch child).lookup (digit :: key) = (child digit).lookup key := rfl

/-- The tree whose keys are those of the given tree with a segment in front. -/
def prepend (segment : List ι) : Patricia ι α → Patricia ι α
  | empty => empty
  | leaf rest value => leaf (segment ++ rest) value
  | extension rest child => extension (segment ++ rest) child
  | branch child => if segment = [] then branch child else extension segment (branch child)

variable {key : List ι}

omit [DecidableEq ι] in
theorem append_isPrefix_iff {front back : List ι} :
    front ++ back <+: key ↔ front <+: key ∧ back <+: key.drop front.length := by
  constructor
  · rintro ⟨rest, rfl⟩
    rw [append_assoc, drop_left]
    exact ⟨prefix_append _ _, prefix_append _ _⟩
  · rintro ⟨⟨rest, rfl⟩, below⟩
    rw [drop_left] at below
    exact (prefix_append_right_inj front).mpr below

theorem lookup_prepend (key : List ι) :
    (prepend segment tree).lookup key =
      if segment <+: key then tree.lookup (key.drop segment.length) else none := by
  cases tree with
  | empty => simp [prepend]
  | leaf rest value =>
    by_cases front : segment <+: key
    · obtain ⟨back, rfl⟩ := front
      rw [if_pos (prefix_append _ _), drop_left]
      simp only [prepend, lookup_leaf, append_cancel_left_eq]
    · have apart : segment ++ rest ≠ key := by
        rintro rfl
        exact front (prefix_append _ _)
      rw [prepend, lookup_leaf, if_neg apart, if_neg front]
  | extension rest child =>
    rw [prepend, lookup_extension, lookup_extension]
    by_cases front : segment <+: key
    · simp only [append_isPrefix_iff, front, true_and, if_true, length_append, drop_drop]
    · simp only [append_isPrefix_iff, front, false_and, if_false]
  | branch child =>
    rw [prepend]
    split
    next blank =>
      rw [blank, if_pos nil_prefix, length_nil, drop_zero]
    next => rfl

@[simp] theorem lookup_prepend_append (key : List ι) :
    (prepend segment tree).lookup (segment ++ key) = tree.lookup key := by
  rw [lookup_prepend, if_pos (prefix_append segment key), drop_left]

omit [DecidableEq ι] in
theorem prepend_nil : prepend [] tree = tree := by
  cases tree <;> rfl

omit [DecidableEq ι] in
theorem prepend_prepend (first second : List ι) (tree : Patricia ι α) :
    prepend first (prepend second tree) = prepend (first ++ second) tree := by
  cases tree with
  | empty => rfl
  | leaf rest value | extension segment child => simp only [prepend, append_assoc]
  | branch child =>
    by_cases blank : second = []
    · rw [blank, prepend_nil, append_nil]
    · have full : first ++ second ≠ [] := append_ne_nil_of_right_ne_nil first blank
      simp only [prepend, if_neg blank, if_neg full]

variable {rest : List ι}

theorem lookup_branch_update (child : ι → Patricia ι α) (digit : ι) (tree : Patricia ι α)
    {changed : Option α}
    (below : ∀ key, tree.lookup key = if key = rest then changed else (child digit).lookup key)
    (key : List ι) :
    (branch (update child digit tree)).lookup key =
      if key = digit :: rest then changed else (branch child).lookup key := by
  cases key with
  | nil => rfl
  | cons first key =>
    rw [lookup_branch_cons, lookup_branch_cons]
    by_cases eq : first = digit
    · subst eq
      rw [update_self, below]
      simp only [cons.injEq, true_and]
    · rw [update_of_ne eq]
      simp only [cons.injEq, eq, false_and, if_false]

theorem lookup_prepend_update (before after : Patricia ι α) {changed : Option α}
    (below : ∀ key, after.lookup key = if key = rest then changed else before.lookup key)
    (key : List ι) :
    (prepend segment after).lookup key =
      if key = segment ++ rest then changed else (prepend segment before).lookup key := by
  rw [lookup_prepend, lookup_prepend]
  by_cases front : segment <+: key
  · obtain ⟨back, rfl⟩ := front
    rw [if_pos (prefix_append _ _), drop_left, below, if_pos (prefix_append _ _)]
    simp only [append_cancel_left_eq]
  · have apart : key ≠ segment ++ rest := by
      rintro rfl
      exact front (prefix_append _ _)
    rw [if_neg front, if_neg apart, if_neg front]

def fork (first : ι) (tree : Patricia ι α) (second : ι) (other : Patricia ι α) : Patricia ι α :=
  branch (update (update (fun _ => empty) first tree) second other)

variable {child : ι → Patricia ι α}

theorem lookup_branch_single {digit : ι} (alone : ∀ other, other ≠ digit → child other = empty)
    (key : List ι) :
    (branch child).lookup key = (prepend [digit] (child digit)).lookup key := by
  rw [lookup_prepend]
  cases key with
  | nil => rfl
  | cons first key =>
    by_cases eq : first = digit
    · subst eq
      have front : [first] <+: first :: key := prefix_append [first] key
      rw [lookup_branch_cons, if_pos front]
      rfl
    · have apart : ¬ [digit] <+: first :: key := by
        intro front
        exact eq (cons_prefix_cons.mp front).1.symm
      rw [lookup_branch_cons, alone first eq, if_neg apart, lookup_empty]

variable {first second : ι}

theorem lookup_fork_leaf (different : first ≠ second) (tree : Patricia ι α) (rest : List ι)
    (value : α) (key : List ι) :
    (fork first tree second (leaf rest value)).lookup key =
      if key = second :: rest then some value else (prepend [first] tree).lookup key := by
  have single := @lookup_branch_single _ _ _ (update (fun _ => empty) first tree) first
    (fun other apart => update_of_ne apart _ _) key
  rw [update_self] at single
  rw [← single]
  apply lookup_branch_update
  intro key
  rw [update_of_ne different.symm, lookup_leaf]
  simp only [eq_comm, lookup_empty]

/-! ## Canonical trees -/

/-- A tree for keys of one length that is as compressed as possible. -/
inductive Canonical : Nat → Patricia ι α → Prop where
  | nothing (length : Nat) : Canonical length empty
  | single (rest : List ι) (value : α) : Canonical rest.length (leaf rest value)
  | shared {length : Nat} {segment : List ι} {child : ι → Patricia ι α}
      (nonempty : segment ≠ []) (below : Canonical length (branch child)) :
      Canonical (segment.length + length) (extension segment (branch child))
  | forked {length : Nat} {child : ι → Patricia ι α}
      (below : ∀ digit, Canonical length (child digit)) {first second : ι}
      (different : first ≠ second) (present : child first ≠ empty)
      (present' : child second ≠ empty) : Canonical (length + 1) (branch child)

variable {length : Nat} {tree : Patricia ι α}

omit [DecidableEq ι] in
theorem canonical_prepend (canon : Canonical length tree) :
    Canonical (segment.length + length) (prepend segment tree) := by
  cases canon with
  | nothing => exact .nothing _
  | single rest value =>
    rw [← length_append]
    exact .single _ _
  | @shared length rest child filled below =>
    rw [← Nat.add_assoc, ← length_append]
    exact .shared (append_ne_nil_of_right_ne_nil segment filled) below
  | @forked length child below first second apart there present' =>
    rw [prepend]
    split
    next empty =>
      rw [empty, length_nil, Nat.zero_add]
      exact .forked below apart there present'
    next filled => exact .shared filled (.forked below apart there present')

theorem canonical_fork (apart : first ≠ second) {other : Patricia ι α}
    (canon : Canonical length tree) (canon' : Canonical length other)
    (there : tree ≠ empty) (present' : other ≠ empty) :
    Canonical (length + 1) (fork first tree second other) := by
  apply @Canonical.forked _ _ _ _ _ first second apart
  · rwa [update_of_ne apart, update_self]
  · rwa [update_self]
  · intro digit
    by_cases eq : digit = second
    · rwa [eq, update_self]
    · rw [update_of_ne eq]
      by_cases same' : digit = first
      · rwa [same', update_self]
      · rw [update_of_ne same']
        exact .nothing length

variable {value : α}

omit [DecidableEq ι] in
theorem Canonical.of_leaf (canon : Canonical length (leaf rest value)) : length = rest.length := by
  cases canon
  rfl

variable {segment : List ι}

omit [DecidableEq ι] in
theorem Canonical.of_extension {child : Patricia ι α}
    (canon : Canonical length (extension segment child)) :
    ∃ rest below, length = segment.length + rest ∧ segment ≠ [] ∧ child = branch below ∧
      Canonical rest (branch below) := by
  cases canon with
  | @shared rest _ below filled inside => exact ⟨rest, below, rfl, filled, rfl, inside⟩

omit [DecidableEq ι] in
theorem Canonical.of_branch (canon : Canonical length (branch child)) :
    ∃ rest first second, length = rest + 1 ∧ (∀ digit, Canonical rest (child digit)) ∧
      first ≠ second ∧ child first ≠ empty ∧ child second ≠ empty := by
  cases canon with
  | @forked rest _ below first second apart there present' =>
    exact ⟨rest, first, second, rfl, below, apart, there, present'⟩

theorem canonical_update (canon : Canonical (length + 1) (branch child)) (digit : ι)
    (below : Canonical length tree) (present : tree ≠ empty) :
    Canonical (length + 1) (branch (update child digit tree)) := by
  obtain ⟨rest, first, second, eq, others, apart, there, there'⟩ := canon.of_branch
  obtain rfl := Nat.succ.inj eq
  have still : ∀ other, child other ≠ empty → update child digit tree other ≠ empty := by
    intro other present'
    by_cases eq : other = digit
    · rwa [eq, update_self]
    · rwa [update_of_ne eq]
  apply Canonical.forked _ apart (still first there) (still second there')
  intro other
  by_cases eq : other = digit
  · rwa [eq, update_self]
  · rw [update_of_ne eq]
    exact others other

namespace Canonical

variable {length length' : Nat} {tree tree' : Patricia ι α}

theorem exists_lookup (canon : Canonical length tree) (there : tree ≠ empty) :
    ∃ key value, tree.lookup key = some value := by
  induction canon with
  | nothing => exact absurd rfl there
  | single rest value => exact ⟨rest, value, lookup_leaf_self rest value⟩
  | @shared _ segment child _ _ ih =>
    obtain ⟨key, value, found⟩ := ih (by simp)
    exact ⟨segment ++ key, value, by rw [lookup_extension_append, found]⟩
  | @forked _ child _ first _ _ present' _ ih =>
    obtain ⟨key, value, found⟩ := ih first present'
    exact ⟨first :: key, value, found⟩

theorem exists_fork (canon : Canonical length (branch child)) :
    ∃ first second key key' value value', first ≠ second ∧
      (branch child).lookup (first :: key) = some value ∧
      (branch child).lookup (second :: key') = some value' := by
  cases canon with
  | @forked _ _ below first second apart there present' =>
    obtain ⟨key, value, found⟩ := (below first).exists_lookup there
    obtain ⟨key', value', found'⟩ := (below second).exists_lookup present'
    exact ⟨first, second, key, key', value, value', apart, found, found'⟩

end Canonical

/-- A segment that is in front of every key. -/
def Shared (segment : List ι) (tree : Patricia ι α) : Prop :=
  ∀ key value, tree.lookup key = some value → segment <+: key

variable {key' : List ι}

omit [DecidableEq ι] in
theorem isPrefix_of_fork (apart : first ≠ second) :
    ∀ {segment common : List ι}, common <+: segment ++ first :: key →
      common <+: segment ++ second :: key' → common <+: segment
  | _, [], _, _ => nil_prefix
  | [], digit :: common, front, front' => by
      obtain ⟨eq, -⟩ := cons_prefix_cons.mp front
      obtain ⟨same', -⟩ := cons_prefix_cons.mp front'
      exact absurd (eq.symm.trans same') apart
  | digit :: segment, other :: common, front, front' => by
      obtain ⟨eq, front⟩ := cons_prefix_cons.mp front
      obtain ⟨-, front'⟩ := cons_prefix_cons.mp front'
      exact cons_prefix_cons.mpr ⟨eq, isPrefix_of_fork apart front front'⟩

theorem Shared.eq_nil (shared : Shared segment (branch child))
    (canon : Canonical length (branch child)) :
    segment = [] := by
  obtain ⟨first, second, key, key', value, value', apart, found, found'⟩ :=
    canon.exists_fork
  exact prefix_nil.mp
    (isPrefix_of_fork apart (shared _ _ found : segment <+: [] ++ _) (shared _ _ found'))

theorem shared_segment (segment : List ι) (child : Patricia ι α) :
    Shared segment (extension segment child) := by
  intro key value found
  rw [lookup_extension] at found
  split at found
  next front => exact front
  next => cases found

/-- The segment of an extension is the longest one that is in front of every key. -/
theorem shared_extension_iff {common : List ι} (canon : Canonical length (branch child)) :
    Shared common (extension segment (branch child)) ↔ common <+: segment := by
  constructor
  · intro shared
    obtain ⟨first, second, key, key', value, value', apart, found, found'⟩ :=
      canon.exists_fork
    rw [← lookup_extension_append segment] at found found'
    exact isPrefix_of_fork apart (shared _ _ found) (shared _ _ found')
  · intro front key value found
    exact front.trans (shared_segment _ _ key value found)

theorem not_leaf {first second : α} (found : (leaf rest value).lookup key = some first)
    (found' : (leaf rest value).lookup key' = some second) : key = key' := by
  rw [lookup_leaf] at found found'
  split at found
  next eq =>
    split at found'
    next same' => rw [← eq, same']
    next => cases found'
  next => cases found

theorem Canonical.exists_branch (canon : Canonical length tree) (apart : first ≠ second)
    {value' : α} (found : tree.lookup (first :: key) = some value)
    (found' : tree.lookup (second :: key') = some value') : ∃ child, tree = branch child := by
  cases canon with
  | nothing => cases found
  | single => exact absurd (cons.inj (not_leaf found found')).1 apart
  | shared filled below =>
    have front : _ <+: [] ++ first :: key := shared_segment _ _ _ _ found
    have front' : _ <+: [] ++ second :: key' := shared_segment _ _ _ _ found'
    exact absurd (prefix_nil.mp (isPrefix_of_fork apart front front')) filled
  | @forked _ child => exact ⟨child, rfl⟩

theorem leaf_ne_of_lookup_eq (canon : Canonical length (branch child)) (segment : List ι)
    (same : ∀ key, (leaf rest value).lookup key = (prepend segment (branch child)).lookup key) :
    False := by
  obtain ⟨first, second, key, key', held, held', apart, found, found'⟩ :=
    canon.exists_fork
  rw [← lookup_prepend_append segment, ← same] at found found'
  have eq := append_cancel_left (not_leaf found found')
  exact apart (cons.inj eq).1

omit [DecidableEq ι] in
theorem prepend_branch_of_ne_nil (filled : segment ≠ []) (child : ι → Patricia ι α) :
    prepend segment (branch child) = extension segment (branch child) :=
  if_neg filled

theorem Canonical.eq_of_lookup_eq {length' : Nat} {tree' : Patricia ι α}
    (canon : Canonical length tree) (canon' : Canonical length' tree')
    (same : ∀ key, tree.lookup key = tree'.lookup key) : tree = tree' := by
  induction canon generalizing length' tree' with
  | nothing length =>
    by_contra apart
    obtain ⟨key, value, found⟩ := canon'.exists_lookup (Ne.symm apart)
    rw [← same] at found
    cases found
  | single rest value =>
    cases canon' with
    | nothing =>
      have found := same rest
      rw [lookup_leaf_self] at found
      cases found
    | single rest' value' =>
      have found := same rest
      rw [lookup_leaf_self, lookup_leaf] at found
      split at found
      next eq => rw [eq, Option.some.inj found]
      next => cases found
    | @shared _ segment child filled below =>
      rw [← prepend_branch_of_ne_nil filled] at same
      exact (leaf_ne_of_lookup_eq below segment same).elim
    | forked below apart there present' =>
      exact (leaf_ne_of_lookup_eq (.forked below apart there present') [] same).elim
  | @shared length segment child filled below ih =>
    cases canon' with
    | nothing =>
      obtain ⟨key, value, found⟩ :=
        (Canonical.shared filled below).exists_lookup (by simp)
      rw [same] at found
      cases found
    | single rest value =>
      rw [← prepend_branch_of_ne_nil filled] at same
      exact (leaf_ne_of_lookup_eq below segment fun key => (same key).symm).elim
    | @shared length' segment' child' nonempty' below' =>
      have front : segment <+: segment' := by
        apply (shared_extension_iff below').mp
        intro key value found
        rw [← same] at found
        exact shared_segment _ _ key value found
      have front' : segment' <+: segment := by
        apply (shared_extension_iff below).mp
        intro key value found
        rw [same] at found
        exact shared_segment _ _ key value found
      have eq : segment = segment' :=
        front.eq_of_length (Nat.le_antisymm front.length_le front'.length_le)
      subst eq
      rw [ih below' fun key => by
        rw [← lookup_extension_append segment, same, lookup_extension_append]]
    | @forked _ child' below' _ _ apart there present' =>
      have shared : Shared segment (branch child') := by
        intro key value found
        rw [← same] at found
        exact shared_segment _ _ key value found
      exact absurd (shared.eq_nil (.forked below' apart there present')) filled
  | @forked length child below first second apart there present' ih =>
    have canon := Canonical.forked below apart there present'
    cases canon' with
    | nothing =>
      obtain ⟨key, value, found⟩ := canon.exists_lookup (by simp)
      rw [same] at found
      cases found
    | single rest value =>
      exact (leaf_ne_of_lookup_eq canon [] fun key => (same key).symm).elim
    | @shared _ segment child' filled below' =>
      have shared : Shared segment (branch child) := by
        intro key value found
        rw [same] at found
        exact shared_segment _ _ key value found
      exact absurd (shared.eq_nil canon) filled
    | @forked _ child' below' =>
      congr 1
      funext digit
      exact ih digit (below' digit) fun key => same (digit :: key)

end Patricia

end DnaLedger
