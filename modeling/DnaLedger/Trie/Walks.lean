import DnaLedger.Trie.Image
import Mathlib.Data.Set.Function

/-!
# Walks along a path

An answer with the right digest is, without collisions, the encoding of the tree that the reference
stands for; any other answer ends the walk. So a walk that returns has worked on the tree behind the
node.
-/

namespace DnaLedger.Trie

open Program Function List TNode Patricia
open Patricia (Canonical prepend)

variable {σ : Type}

/-- An answer in place of a kept string is among the hashed inputs, and a reliable store answers
with what it has. -/
structure Serves (store : NodeStore σ) (inputs : Set Bytes) (has : Digest → Bytes → Prop)
    (reliable : Prop) (invariant : σ → Prop) : Prop where
  keeps : ∀ {state}, invariant state → ∀ digest, invariant (store.get state digest).2
  answers : ∀ {state}, invariant state → ∀ {digest kept rlp}, has digest kept →
    (store.get state digest).1 = some rlp → rlp ∈ inputs
  known : ∀ {digest rlp}, has digest rlp → rlp ∈ inputs
  serves : reliable → ∀ {state}, invariant state → ∀ {digest rlp}, has digest rlp →
    (store.get state digest).1 = some rlp

def TNode.Loaded (node : TNode) : Prop :=
  ∀ digest isRoot mustBranch, node ≠ .ref digest isRoot mustBranch

/-- The node stands for a canonical tree with one value changed. -/
def Changed (hash : Hash) (has : Digest → Bytes → Prop) (tree : Tree) (rest : List Nibble)
    (value : Option Bytes) (node : TNode) : Prop :=
  ∃ after, Denotes hash has false node after ∧ Canonical rest.length after ∧
    ∀ key, after.lookup key = if key = rest then value else tree.lookup key

section

variable {hash : Hash} {has : Digest → Bytes → Prop}
variable {tree : Tree} {node : TNode} {below : Nibble → Tree}

theorem Changed.denotes_of_absent {rest : List Nibble}
    (changed : Changed hash has tree rest none node) (canon : Canonical rest.length tree)
    (absent : tree.lookup rest = none) : Denotes hash has false node tree := by
  obtain ⟨after, denotes, canon', values⟩ := changed
  have same : after = tree := by
    apply canon'.eq_of_lookup_eq canon
    intro key
    rw [values]
    split
    next eq => rw [eq, absent]
    next => rfl
  rwa [← same]

variable {child : Nibble → TNode}

section

variable (inside : ∀ k, Denotes hash has false (child k) (below k))

include inside

theorem denotes_update (digit : Nibble) (denotes : Denotes hash has false node tree) (k : Nibble) :
    Denotes hash has false (update child digit node k)
      (update below digit tree k) := by
  by_cases eq : k = digit
  · rwa [eq, update_self, update_self]
  · rw [update_of_ne eq, update_of_ne eq]
    exact inside k

theorem denotes_replace (digit : Nibble)
    (denotes : Denotes hash has false node (below digit)) (k : Nibble) :
    Denotes hash has false (update child digit node k) (below k) := by
  have updated := denotes_update inside digit denotes k
  rwa [update_eq_self] at updated

end

theorem denotes_splitNode {first second : Nibble} {other : TNode} {tree' : Tree}
    (shared : List Nibble) (denotes : Denotes hash has false node tree)
    (denotes' : Denotes hash has false other tree') :
    Denotes hash has false (splitNode shared first node second other)
      (prepend shared (.fork first tree second tree')) := by
  have inside :=
    denotes_update (denotes_update (fun _ => @Denotes.null hash has false) first denotes) second
      denotes'
  rw [splitNode, fork, prepend]
  by_cases empty : shared = []
  · rw [empty, if_pos rfl, if_pos (length_nil : ([] : List Nibble).length = 0)]
    exact .branch (marked_touched _) inside
  · have full : ¬ shared.length = 0 := fun zero => empty (eq_nil_of_length_eq_zero zero)
    rw [if_neg full, if_neg empty]
    exact .ext (marked_touched _) (.branch (marked_touched _) inside)

theorem denotes_prepend (denotes : Denotes hash has false node tree) (loaded : node.Loaded)
    (there : tree ≠ .empty) {segment : List Nibble} (filled : segment ≠ []) :
    Denotes hash has false
      (if node.isBranch then .ext .touched segment node else node.nibPrepend segment)
      (prepend segment tree) ∧
    (if node.isBranch then .ext .touched segment node else node.nibPrepend segment).Loaded := by
  cases denotes with
  | null => exact absurd rfl there
  | ref => exact absurd rfl (loaded _ _ _)
  | leaf =>
    exact ⟨.leaf (marked_touched _), by simp [Loaded, isBranch, nibPrepend]⟩
  | ext _ inside =>
    exact ⟨.ext (marked_touched _) inside, by simp [Loaded, isBranch, nibPrepend]⟩
  | branch marked inside =>
    rw [prepend_branch_of_ne_nil filled]
    exact ⟨.ext (marked_touched _) (.branch marked inside), by simp [Loaded, isBranch]⟩

theorem denotes_tail (denotes : Denotes hash has false node (.branch below))
    (segment : List Nibble) :
    Denotes hash has false (if 0 < segment.length then .ext .touched segment node else node)
      (prepend segment (.branch below)) := by
  by_cases empty : segment = []
  · rw [empty, prepend_nil]
    exact denotes
  · rw [if_pos (length_pos_iff.mpr empty), prepend_branch_of_ne_nil empty]
    exact .ext (marked_touched _) denotes

theorem Denotes.withMark (denotes : Denotes hash has false node tree) (loaded : node.Loaded)
    {mark : Mark} (marked : Marked hash has mark tree) :
    Denotes hash has false (node.withMark mark) tree ∧ (node.withMark mark).Loaded := by
  cases denotes with
  | null => exact ⟨.null, by simp [Loaded, withMark]⟩
  | ref => exact absurd rfl (loaded _ _ _)
  | leaf => exact ⟨.leaf marked, by simp [Loaded, withMark]⟩
  | ext _ inside => exact ⟨.ext marked inside, by simp [Loaded, withMark]⟩
  | branch _ inside => exact ⟨.branch marked inside, by simp [Loaded, withMark]⟩

theorem loaded_of_knownDigest (unknown : node.knownDigest = none) : node.Loaded := by
  rintro digest isRoot mustBranch rfl
  cases unknown

end

theorem commonPrefix_spec : ∀ first second : List Nibble, ∃ shared rest rest',
    first = shared ++ rest ∧ second = shared ++ rest' ∧
      commonPrefix first second = shared.length ∧
        ∀ digit digit' tail tail', rest = digit :: tail → rest' = digit' :: tail' → digit ≠ digit'
  | [], second => ⟨[], [], second, rfl, rfl, by cases second <;> rfl, by simp⟩
  | digit :: first, [] => ⟨[], digit :: first, [], rfl, rfl, rfl, by simp⟩
  | digit :: first, digit' :: second => by
      by_cases same : digit = digit'
      · obtain ⟨shared, rest, rest', eq, eq', size, differ⟩ := commonPrefix_spec first second
        refine ⟨digit :: shared, rest, rest', by rw [eq, cons_append],
          by rw [eq', same, cons_append], ?_, differ⟩
        rw [commonPrefix, if_pos same, size, length_cons]
      · refine ⟨[], digit :: first, digit' :: second, rfl, rfl, ?_, ?_⟩
        · rw [commonPrefix, if_neg same, length_nil]
        · rintro _ _ _ _ ⟨⟩ ⟨⟩
          exact same

variable {hash : Hash} {store : NodeStore σ} {inputs : Set Bytes} {has : Digest → Bytes → Prop}
variable {reliable : Prop} {invariant : σ → Prop}
variable (serves : Serves store inputs has reliable invariant) (free : Set.InjOn hash inputs)

include serves

theorem fetch_ensures {digest : Digest} {rlp : Bytes} (kept : has digest rlp)
    (filled : rlp.length ≠ 0) :
    Ensures reliable invariant (fetch store digest)
      fun answer => answer ∈ inputs ∧ (reliable → answer = rlp) := by
  intro state holds
  have keeps := serves.keeps holds digest
  have answered : reliable → (store.get state digest).1 = some rlp := fun sure =>
    serves.serves sure holds kept
  have among : ∀ answer, (store.get state digest).1 = some answer → answer ∈ inputs :=
    fun answer found => serves.answers holds kept found
  have run : exec (fetch store digest) state =
      (checkAnswer (store.get state digest).1, (store.get state digest).2) := by
    simp only [fetch, exec_bind, exec_get, exec_set, exec_liftExcept]
  rw [run]
  refine ⟨keeps, ?_, ?_⟩
  · intro answer eq
    cases found : (store.get state digest).1 with
    | none =>
      rw [found] at eq
      cases eq
    | some other =>
      rw [found] at eq answered
      rw [checkAnswer] at eq
      obtain ⟨-, eq⟩ := ite_error_eq_ok.mp eq
      cases eq
      exact ⟨among _ found, fun sure => Option.some.inj (answered sure)⟩
  · intro code eq sure
    rw [answered sure, checkAnswer, if_neg filled] at eq
    cases eq

include free

variable {length steps : Nat} {top : Bool} {node : TNode} {tree : Tree} {rest : List Nibble}
variable {depth : Nat} {val : Bytes} {child : Nibble → TNode} {below : Nibble → Tree}

theorem resolve_ensures (denotes : Denotes hash has top node tree)
    (canon : Canonical length tree) (position : length + depth = pathNibbles)
    (fair : Fair tree) :
    Ensures reliable invariant (resolve hash store depth node)
      fun next => Denotes hash has false next tree ∧ next.Loaded := by
  cases denotes with
  | null => exact ensures_pure ⟨.null, by simp [Loaded]⟩
  | leaf marked => exact ensures_pure ⟨.leaf marked, by simp [Loaded]⟩
  | ext marked inside => exact ensures_pure ⟨.ext marked inside, by simp [Loaded]⟩
  | branch marked inside => exact ensures_pure ⟨.branch marked inside, by simp [Loaded]⟩
  | @ref _ _ isRoot mustBranch there size shape kept stored =>
    obtain ⟨payload, whole, -⟩ := @exists_payload hash _ _ canon (by omega) fair there
    have filled : (encode hash tree).length ≠ 0 := by
      rw [whole, wrapList, makeHeader]
      split <;> simp
    obtain ⟨read, found, denotes⟩ := decodeNode_encode canon fair stored there position
      (by rw [roomAt]; omega : pathNibbles < roomAt depth + depth) shape
    obtain ⟨-, unknown, encodes⟩ :=
      @faithful_decodeNode _ hash store false _ _ _ _ _ found
    apply (fetch_ensures serves kept filled).bind
    rintro rlp ⟨mem, sure⟩
    by_cases same : rlp = encode hash tree
    · subst same
      have large : ¬ (!isRoot && decide ((encode hash tree).length < inlineLimit)) = true := by
        intro small
        rw [Bool.and_eq_true, Bool.not_eq_true', decide_eq_true_iff] at small
        rcases size with ⟨-, root⟩ | big
        · rw [root] at small
          cases small.1
        · omega
      have mark : Marked hash has
          ⟨false, if inlineLimit ≤ (encode hash tree).length then some (hash (encode hash tree))
            else none⟩ tree := by
        intro digest _ known
        by_cases big : inlineLimit ≤ (encode hash tree).length
        · rw [if_pos big] at known
          exact ⟨(Option.some.inj known).symm, big, stored⟩
        · rw [if_neg big] at known
          cases known
      simp only [ne_eq, not_true_eq_false, if_false, if_neg large, found]
      refine ensures_of_exec (fun state => ?_)
        (denotes.withMark (loaded_of_knownDigest unknown) mark)
      simp only [exec_bind, exec_pure, encodes state, not_true_eq_false, if_false]
    · have differ : hash rlp ≠ hash (encode hash tree) := fun eq =>
        same (free mem (serves.known kept) eq)
      simp only [if_pos differ]
      exact ensures_throw fun rely => same (sure rely)

omit serves free in
theorem below_extension {segment : List Nibble} {child : Tree}
    (canon : Canonical (segment ++ rest).length (.extension segment child)) :
    segment ≠ [] ∧ (∃ children, child = .branch children) ∧ Canonical rest.length child ∧
      rest.length < (segment ++ rest).length ∧
        ¬ ((segment ++ rest).length ≤ segment.length ∨ ¬ segment <+: segment ++ rest) := by
  obtain ⟨length, children, size, filled, rfl, inside⟩ := canon.of_extension
  have pos : 0 < segment.length := length_pos_iff.mpr filled
  obtain ⟨height, -, -, height', -⟩ := inside.of_branch
  rw [length_append] at size ⊢
  obtain rfl : rest.length = length := by omega
  refine ⟨filled, ⟨children, rfl⟩, inside, by omega, ?_⟩
  rintro (less | apart)
  · omega
  · exact apart (prefix_append _ _)

omit serves free in
theorem ins_of_present (present : node.present = true) (val : Bytes) (steps : Nat)
    (rest : List Nibble) :
    ins hash store val (steps + 1) node rest =
      resolve hash store (pathNibbles - rest.length) node >>= insLoaded (ins hash store val steps)
        rest val := by
  cases node with
  | null => cases present
  | ref | leaf | ext | branch => rfl

omit serves free in
theorem insLoaded_ensures {below : TNode → List Nibble → Program σ TNode}
    (denotes : Denotes hash has false node tree) (loaded : node.Loaded) (present : tree ≠ .empty)
    (canon : Canonical rest.length tree) (fair : Fair tree)
    (inside : ∀ child subtree rest', rest'.length < rest.length →
      Denotes hash has false child subtree → Canonical rest'.length subtree → Fair subtree →
        Ensures reliable invariant (below child rest')
          (Changed hash has subtree rest' (some val))) :
    Ensures reliable invariant (insLoaded below rest val node)
      (Changed hash has tree rest (some val)) := by
  cases denotes with
  | null => exact absurd rfl present
  | ref => exact absurd rfl (loaded _ _ _)
  | @leaf _ mark nib old marked =>
    have size := canon.of_leaf
    obtain ⟨shared, tail, tail', rfl, rfl, count, differ⟩ := commonPrefix_spec nib rest
    rw [length_append, length_append] at size
    rw [insLoaded, count]
    by_cases whole : shared.length = (shared ++ tail').length
    · have empty' : tail' = [] := by
        rw [length_append] at whole
        exact eq_nil_of_length_eq_zero (by omega)
      have empty : tail = [] := by
        rw [empty', length_nil] at size
        exact eq_nil_of_length_eq_zero (by omega)
      subst empty empty'
      rw [if_pos whole]
      refine ensures_pure ⟨.leaf (shared ++ []) val, .leaf (marked_touched _), .single _ _, ?_⟩
      intro key
      rw [lookup_leaf, lookup_leaf]
      simp only [eq_comm]
      split <;> rfl
    · rw [if_neg whole, drop_left, drop_left, take_left]
      cases tail' with
      | nil => exact absurd (by rw [append_nil]) whole
      | cons newNib tail' =>
        cases tail with
        | nil =>
          rw [length_nil, length_cons] at size
          omega
        | cons oldNib tail =>
          have apart := differ _ _ _ _ rfl rfl
          rw [length_cons, length_cons] at size
          have eq : tail.length = tail'.length := by omega
          refine ensures_pure ⟨prepend shared (.fork oldNib (.leaf tail old) newNib
            (.leaf tail' val)), ?_, ?_, ?_⟩
          · exact denotes_splitNode shared (.leaf (marked_touched _))
              (.leaf (marked_touched _))
          · rw [length_append, length_cons]
            apply canonical_prepend
            apply canonical_fork apart _ (.single tail' val) (by simp) (by simp)
            rw [← eq]
            exact .single tail old
          · exact lookup_prepend_update shared (.leaf (oldNib :: tail) old) _
              (lookup_fork_leaf apart (.leaf tail old) tail' val)
  | @ext _ mark nib child subtree marked denotes =>
    obtain ⟨length, children, size, filled, rfl, canon'⟩ := canon.of_extension
    obtain ⟨length, -, -, rfl, -⟩ := canon'.of_branch
    obtain ⟨shared, tail, tail', rfl, rfl, count, differ⟩ := commonPrefix_spec nib rest
    rw [length_append, length_append] at size
    rw [insLoaded, count]
    by_cases whole : shared.length = (shared ++ tail).length
    · have empty : tail = [] := by
        rw [length_append] at whole
        exact eq_nil_of_length_eq_zero (by omega)
      subst empty
      rw [if_pos whole, append_nil, drop_left]
      rw [append_nil] at filled fair
      have segment : 0 < shared.length := length_pos_iff.mpr filled
      have height : length + 1 = tail'.length := by
        rw [length_nil] at size
        omega
      rw [height] at canon'
      have shorter : tail'.length < (shared ++ tail').length := by
        rw [length_append]
        omega
      apply (inside child _ tail' shorter denotes canon' fair.extension).bind
      rintro next ⟨after, denotes, canonical'', values⟩
      have branches : ∃ below, after = .branch below := by
        obtain ⟨first, second, key, key', held, held', apart, found, found'⟩ :=
          canon'.exists_fork
        have kept : ∀ key value, (branch children).lookup key = some value →
            ∃ value, after.lookup key = some value := by
          intro key value found
          rw [values]
          split
          next => exact ⟨val, rfl⟩
          next => exact ⟨value, found⟩
        obtain ⟨_, found⟩ := kept _ _ found
        obtain ⟨_, found'⟩ := kept _ _ found'
        exact canonical''.exists_branch apart found found'
      obtain ⟨below, rfl⟩ := branches
      refine ensures_pure ⟨.extension shared (.branch below), .ext (marked_touched _) denotes, ?_,
        ?_⟩
      · rw [length_append]
        exact .shared filled canonical''
      · have changed := lookup_prepend_update shared _ _ values
        rwa [prepend_branch_of_ne_nil filled,
          prepend_branch_of_ne_nil filled] at changed
    · rw [if_neg whole, drop_left, drop_left, take_left]
      cases tail with
      | nil => exact absurd (by rw [append_nil]) whole
      | cons oldNib tail =>
        cases tail' with
        | nil =>
          rw [length_nil, length_cons] at size
          omega
        | cons newNib tail' =>
          have apart := differ _ _ _ _ rfl rfl
          rw [length_cons, length_cons] at size
          have eq : tail.length + (length + 1) = tail'.length := by omega
          have front : prepend shared (prepend [oldNib] (prepend tail (.branch children))) =
              .extension (shared ++ oldNib :: tail) (.branch children) := by
            rw [prepend_prepend, prepend_prepend, append_assoc,
              singleton_append, prepend_branch_of_ne_nil filled]
          refine ensures_pure ⟨prepend shared (.fork oldNib (prepend tail (.branch children))
            newNib (.leaf tail' val)), ?_, ?_, ?_⟩
          · exact denotes_splitNode shared (denotes_tail denotes tail)
              (.leaf (marked_touched _))
          · rw [length_append, length_cons]
            apply canonical_prepend
            apply canonical_fork apart _ (.single tail' val) _ (by simp)
            · rw [← eq]
              exact canonical_prepend tail canon'
            · rw [prepend]
              split <;> simp
          · rw [← front]
            exact lookup_prepend_update shared _ _
              (lookup_fork_leaf apart (prepend tail (.branch children)) tail' val)
  | @branch _ mark child subtree marked denotes =>
    obtain ⟨length, first, second, size, below', apart, there, there'⟩ := canon.of_branch
    cases rest with
    | nil => cases size
    | cons digit rest =>
      obtain rfl := Nat.succ.inj size
      rw [insLoaded]
      apply (inside (child digit) (subtree digit) rest (Nat.lt_succ_self _)
        (denotes digit) (below' digit) (fair.child digit)).bind
      rintro next ⟨after, denotes', canon', values⟩
      have filled : after ≠ .empty := by
        rintro rfl
        have found := values rest
        rw [if_pos rfl] at found
        cases found
      refine ensures_pure ⟨.branch (update subtree digit after),
        .branch (marked_touched _) (denotes_update denotes digit denotes'), ?_, ?_⟩
      · exact canonical_update canon digit canon' filled
      · exact lookup_branch_update subtree digit after values

theorem ins_ensures (denotes : Denotes hash has top node tree)
    (canon : Canonical rest.length tree) (fair : Fair tree) (short : rest.length ≤ pathNibbles)
    (enough : rest.length < steps) :
    Ensures reliable invariant (ins hash store val steps node rest)
      (Changed hash has tree rest (some val)) := by
  induction steps generalizing top node tree rest with
  | zero => exact absurd enough (Nat.not_lt_zero _)
  | succ steps ih =>
    by_cases there : tree = .empty
    · subst there
      cases denotes with
      | null =>
        refine ensures_pure ⟨.leaf rest val, .leaf (marked_touched _), .single rest val, ?_⟩
        intro key
        rw [lookup_leaf, lookup_empty]
        simp only [eq_comm]
      | ref there => exact absurd rfl there
    · rw [ins_of_present (denotes.present_iff.mpr there)]
      apply (resolve_ensures serves free denotes canon (by omega) fair).bind
      rintro next ⟨denotes', loaded⟩
      apply insLoaded_ensures denotes' loaded there canon fair
      intro child subtree rest' shorter denotes'' canonical'' fair''
      exact ih denotes'' canonical'' fair'' (by omega) (by omega)

/-! ## Deleting -/

section

variable (denotes : ∀ k, Denotes hash has false (child k) (below k))

include denotes

omit serves free in
theorem mem_kids (k : Nibble) : k ∈ kids child ↔ below k ≠ .empty := by
  rw [kids, mem_filter, (denotes k).present_iff]
  exact ⟨And.right, fun there => ⟨mem_finRange k, there⟩⟩

theorem collapse_ensures
    (canon : ∀ k, Canonical length (below k)) (position : length + 1 + depth = pathNibbles)
    (fair : ∀ k, Fair (below k)) {full : Nibble} (present : below full ≠ .empty) :
    Ensures reliable invariant (collapse hash store depth child) fun node =>
      node.Loaded ∧ ∃ after, Denotes hash has false node after ∧ Canonical (length + 1) after ∧
        ∀ key, after.lookup key = (Patricia.branch below).lookup key := by
  have nodup : (kids child).Nodup := (nodup_finRange 16).filter _
  have members := mem_kids denotes
  rw [collapse]
  split
  next empty =>
    have mem := (members full).mpr present
    rw [empty] at mem
    cases mem
  next last single =>
    rw [single] at members
    have there : below last ≠ .empty := (members last).mp mem_cons_self
    have alone : ∀ other, other ≠ last → below other = .empty := by
      intro other apart
      by_contra filled
      exact apart (mem_singleton.mp ((members other).mpr filled))
    apply (resolve_ensures serves free (denotes last) (canon last)
      (by omega : length + (depth + 1) = pathNibbles) (fair last)).bind
    rintro next ⟨denotes', loaded⟩
    obtain ⟨stands, loaded'⟩ := denotes_prepend denotes' loaded there (cons_ne_nil last [])
    refine ensures_pure ⟨loaded', _, stands, ?_, ?_⟩
    · rw [Nat.add_comm]
      exact canonical_prepend [last] (canon last)
    · exact fun key => (lookup_branch_single alone key).symm
  next many several =>
    cases listed : kids child with
    | nil => exact absurd listed many
    | cons first rest =>
      cases rest with
      | nil => exact absurd listed (several first)
      | cons second rest =>
        rw [listed] at nodup members
        have different : first ≠ second := by
          rintro rfl
          exact (nodup_cons.mp nodup).1 mem_cons_self
        have there : below first ≠ .empty := (members first).mp mem_cons_self
        have there' : below second ≠ .empty :=
          (members second).mp (mem_cons_of_mem _ mem_cons_self)
        exact ensures_pure ⟨by simp [Loaded], _, .branch (marked_touched _) denotes,
          .forked canon different there there', fun _ => rfl⟩

end

/-- What a deletion gives: whether the key was there, and a node without it. -/
def Removed (hash : Hash) (has : Digest → Bytes → Prop) (tree : Tree) (rest : List Nibble)
    (result : TNode × Bool) : Prop :=
  result.2 = (tree.lookup rest).isSome ∧ (result.2 = true → result.1.Loaded) ∧
    Changed hash has tree rest none result.1

omit serves free in
theorem removed_absent (denotes : Denotes hash has false node tree)
    (canon : Canonical rest.length tree) (absent : tree.lookup rest = none) :
    Removed hash has tree rest (node, false) := by
  refine ⟨?_, ?_, tree, denotes, canon, ?_⟩
  · rw [absent]
    rfl
  · intro found
    cases found
  · intro key
    split
    next eq => rw [eq, absent]
    next => rfl

omit serves free in
theorem exists_other {child : Nibble → Tree} (rest : List Nibble)
    (canon : Canonical length (.branch child)) :
    ∃ key value, key ≠ rest ∧ (Patricia.branch child).lookup key = some value := by
  obtain ⟨first, second, key, key', value, value', apart, found, found'⟩ :=
    canon.exists_fork
  by_cases eq : first :: key = rest
  · refine ⟨second :: key', value', ?_, found'⟩
    rintro rfl
    exact apart (cons.inj eq).1
  · exact ⟨first :: key, value, eq, found⟩

theorem delLoaded_ensures {below : TNode → List Nibble → Program σ (TNode × Bool)}
    (denotes : Denotes hash has false node tree) (loaded : node.Loaded) (present : tree ≠ .empty)
    (canon : Canonical rest.length tree) (fair : Fair tree) (short : rest.length ≤ pathNibbles)
    (inside : ∀ child subtree rest', rest'.length < rest.length →
      Denotes hash has false child subtree → Canonical rest'.length subtree → Fair subtree →
        Ensures reliable invariant (below child rest') (Removed hash has subtree rest')) :
    Ensures reliable invariant (delLoaded hash store below rest node)
      (Removed hash has tree rest) := by
  cases denotes with
  | null => exact absurd rfl present
  | ref => exact absurd rfl (loaded _ _ _)
  | @leaf _ mark nib val marked =>
    rw [delLoaded]
    by_cases eq : nib = rest
    · subst eq
      rw [if_pos rfl]
      refine ensures_pure ⟨by rw [lookup_leaf_self]; rfl,
        fun _ => by simp [Loaded], .empty, .null, .nothing _, ?_⟩
      intro key
      rw [lookup_empty, lookup_leaf]
      split
      next => rfl
      next apart => rw [if_neg (Ne.symm apart)]
    · rw [if_neg eq]
      exact ensures_pure (removed_absent (.leaf marked) canon (if_neg eq))
  | @ext _ mark nib child subtree marked denotes =>
    rw [delLoaded]
    by_cases front : nib <+: rest
    · obtain ⟨rest, rfl⟩ := front
      obtain ⟨nonempty, ⟨children, rfl⟩, canon', shorter, longer⟩ := below_extension canon
      rw [if_neg longer, drop_left]
      apply (inside child _ rest shorter denotes canon' fair.extension).bind
      rintro ⟨next, found⟩ ⟨flag, loaded', changed⟩
      have value : (extension nib (.branch children)).lookup (nib ++ rest) =
          (branch children).lookup rest := lookup_extension_append _ _ _
      cases found with
      | false =>
        have absent : (branch children).lookup rest = none :=
          Option.isSome_eq_false_iff.mp flag.symm |> Option.isNone_iff_eq_none.mp
        have eq := changed.denotes_of_absent canon' absent
        exact ensures_pure (removed_absent (.ext marked eq) canon (value.trans absent))
      | true =>
        obtain ⟨after, denotes', canonical'', values⟩ := changed
        have filled : after ≠ .empty := by
          rintro rfl
          obtain ⟨key, held, apart, found⟩ := exists_other rest canon'
          have lost := values key
          rw [if_neg apart, found] at lost
          cases lost
        have there : ¬ (!next.present) = true := by
          rw [denotes'.present_iff.mpr filled]
          exact Bool.false_ne_true
        obtain ⟨stands, loaded''⟩ := denotes_prepend denotes' (loaded' rfl) filled nonempty
        dsimp only
        rw [if_neg (by simp : ¬ (!true) = true), if_neg there]
        refine ensures_pure ⟨?_, fun _ => loaded'', _, stands, ?_, ?_⟩
        · rw [value]
          exact flag
        · rw [length_append]
          exact canonical_prepend nib canonical''
        · have changed := lookup_prepend_update nib (.branch children) after values
          rwa [prepend_branch_of_ne_nil nonempty] at changed
    · rw [if_pos (Or.inr front)]
      exact ensures_pure (removed_absent (.ext marked denotes) canon (if_neg front))
  | @branch _ mark child subtree marked denotes =>
    obtain ⟨length, first, second, size, below', different, there, there'⟩ := canon.of_branch
    cases rest with
    | nil => cases size
    | cons digit rest =>
      obtain rfl := Nat.succ.inj size
      rw [delLoaded]
      apply (inside (child digit) (subtree digit) rest (Nat.lt_succ_self _) (denotes digit)
        (below' digit) (fair.child digit)).bind
      rintro ⟨next, found⟩ ⟨flag, -, changed⟩
      cases found with
      | false =>
        have absent : (subtree digit).lookup rest = none :=
          Option.isSome_eq_false_iff.mp flag.symm |> Option.isNone_iff_eq_none.mp
        have eq := changed.denotes_of_absent (below' digit) absent
        exact ensures_pure (removed_absent
          (.branch marked (denotes_replace denotes digit eq)) canon absent)
      | true =>
        obtain ⟨after, denotes', canon', values⟩ := changed
        have updated := denotes_update denotes digit denotes'
        have shapes : ∀ k, Canonical rest.length (update subtree digit after k) := by
          intro k
          by_cases eq : k = digit
          · rwa [eq, update_self]
          · rw [update_of_ne eq]
            exact below' k
        have sizes : ∀ k, Fair (update subtree digit after k) := by
          intro k
          by_cases eq : k = digit
          · rw [eq, update_self]
            intro key value held
            rw [values] at held
            split at held
            next => cases held
            next => exact fair.child digit key value held
          · rw [update_of_ne eq]
            exact fair.child k
        -- one of the two subtrees of a canon branch is not the one below which a key went
        have other : ∃ k, k ≠ digit ∧ subtree k ≠ .empty := by
          by_cases eq : first = digit
          · exact ⟨second, fun same' => different (eq.trans same'.symm), there'⟩
          · exact ⟨first, eq, there⟩
        obtain ⟨k, apart, filled⟩ := other
        have filled' : update subtree digit after k ≠ .empty := by
          rwa [update_of_ne apart]
        dsimp only
        rw [if_neg (by simp : ¬ (!true) = true)]
        rw [length_cons] at short
        apply (collapse_ensures serves free updated shapes
          (by rw [length_cons]; omega) sizes filled').bind
        rintro node ⟨loaded', after', stands, canonical'', values'⟩
        refine ensures_pure ⟨flag, fun _ => loaded', after', stands, canonical'', ?_⟩
        intro key
        rw [values']
        exact lookup_branch_update subtree digit after values key

omit serves free in
theorem del_of_present (present : node.present = true) (steps : Nat) (rest : List Nibble) :
    del hash store (steps + 1) node rest =
      resolve hash store (pathNibbles - rest.length) node >>= delLoaded hash store
        (del hash store steps) rest := by
  cases node with
  | null => cases present
  | ref | leaf | ext | branch => rfl

theorem del_ensures (denotes : Denotes hash has top node tree)
    (canon : Canonical rest.length tree) (fair : Fair tree) (short : rest.length ≤ pathNibbles)
    (enough : rest.length < steps) :
    Ensures reliable invariant (del hash store steps node rest) (Removed hash has tree rest) := by
  induction steps generalizing top node tree rest with
  | zero => exact absurd enough (Nat.not_lt_zero _)
  | succ steps ih =>
    by_cases there : tree = .empty
    · subst there
      cases denotes with
      | null => exact ensures_pure (removed_absent .null canon rfl)
      | ref there => exact absurd rfl there
    · rw [del_of_present (denotes.present_iff.mpr there)]
      apply (resolve_ensures serves free denotes canon (by omega) fair).bind
      rintro next ⟨denotes', loaded⟩
      apply delLoaded_ensures serves free denotes' loaded there canon fair short
      intro child subtree rest' shorter denotes'' canonical'' fair''
      exact ih denotes'' canonical'' fair'' (by omega) (by omega)

omit serves free in
theorem getLoaded_ensures {below : TNode → List Nibble → Program σ (TNode × Option Bytes)}
    (denotes : Denotes hash has false node tree) (loaded : node.Loaded) (there : tree ≠ .empty)
    (canon : Canonical rest.length tree) (fair : Fair tree)
    (inside : ∀ child subtree rest', rest'.length < rest.length →
      Denotes hash has false child subtree → Canonical rest'.length subtree → Fair subtree →
        Ensures reliable invariant (below child rest') fun result =>
          Denotes hash has false result.1 subtree ∧ result.2 = subtree.lookup rest') :
    Ensures reliable invariant (getLoaded below rest node) fun result =>
      Denotes hash has false result.1 tree ∧ result.2 = tree.lookup rest := by
  cases denotes with
  | null => exact absurd rfl there
  | ref => exact absurd rfl (loaded _ _ _)
  | leaf marked => exact ensures_pure ⟨.leaf marked, rfl⟩
  | @ext _ mark nib child subtree marked denotes =>
    rw [getLoaded]
    by_cases front : nib <+: rest
    · obtain ⟨rest, rfl⟩ := front
      obtain ⟨-, -, canon', shorter, longer⟩ := below_extension canon
      rw [if_neg longer, drop_left]
      apply (inside child _ rest shorter denotes canon' fair.extension).bind
      rintro ⟨next, value⟩ ⟨denotes', held⟩
      refine ensures_pure ⟨.ext marked denotes', ?_⟩
      rw [lookup_extension_append]
      exact held
    · rw [if_pos (Or.inr front)]
      exact ensures_pure ⟨.ext marked denotes, (if_neg front).symm⟩
  | @branch _ mark child subtree marked denotes =>
    obtain ⟨length, -, -, size, below', -⟩ := canon.of_branch
    cases rest with
    | nil => cases size
    | cons digit rest =>
      obtain rfl := Nat.succ.inj size
      rw [getLoaded]
      apply (inside (child digit) (subtree digit) rest (Nat.lt_succ_self _) (denotes digit)
        (below' digit) (fair.child digit)).bind
      rintro ⟨next, value⟩ ⟨denotes', held⟩
      exact ensures_pure ⟨.branch marked (denotes_replace denotes digit denotes'), held⟩

omit serves free in
theorem getPath_of_present (present : node.present = true) (steps : Nat) (rest : List Nibble) :
    getPath hash store (steps + 1) node rest =
      resolve hash store (pathNibbles - rest.length) node >>= getLoaded (getPath hash store steps)
        rest := by
  cases node with
  | null => cases present
  | ref | leaf | ext | branch => rfl

theorem getPath_ensures (denotes : Denotes hash has top node tree)
    (canon : Canonical rest.length tree) (fair : Fair tree) (short : rest.length ≤ pathNibbles)
    (enough : rest.length < steps) :
    Ensures reliable invariant (getPath hash store steps node rest) fun result =>
      Denotes hash has false result.1 tree ∧ result.2 = tree.lookup rest := by
  induction steps generalizing top node tree rest with
  | zero => exact absurd enough (Nat.not_lt_zero _)
  | succ steps ih =>
    by_cases there : tree = .empty
    · subst there
      cases denotes with
      | null => exact ensures_pure ⟨.null, rfl⟩
      | ref there => exact absurd rfl there
    · rw [getPath_of_present (denotes.present_iff.mpr there)]
      apply (resolve_ensures serves free denotes canon (by omega) fair).bind
      rintro next ⟨denotes', loaded⟩
      apply getLoaded_ensures denotes' loaded there canon fair
      intro child subtree rest' shorter denotes'' canonical'' fair''
      exact ih denotes'' canonical'' fair'' (by omega) (by omega)

end DnaLedger.Trie
