import DnaLedger.Trie.Walks
import Mathlib.Data.List.Nodup

/-!
# The root computed from scratch

`evm_trie_full.c` computes the root of a list of keys and values in one pass: it partitions the
entries by their nibbles and encodes each node as it goes, without ever holding a tree. For keys of
one length it encodes the canonical tree of its entries.
-/

namespace DnaLedger.Trie

open Patricia (Canonical)
open List Patricia

inductive FullHash where
  | sha3
  | keccak
  deriving DecidableEq

structure FullHashes where
  sha3 : Hash
  keccak : Bytes → { bytes : Bytes // bytes.length = 32 }

/-- The hash of a mode and its digest length, which is also the limit for embedded nodes. -/
structure FullCtx where
  hashf : Bytes → Bytes
  dl : Nat

def FullHashes.ctx (hashes : FullHashes) : FullHash → FullCtx
  | .sha3 => ⟨fun bytes => (hashes.sha3 bytes).val, 64⟩
  | .keccak => ⟨fun bytes => (hashes.keccak bytes).val, 32⟩

structure Ent where
  nib : List Nibble
  val : Bytes

/-- What a parent stores for the node of some entries; there is none for no entries. -/
def putSubnode (ctx : FullCtx) (node : Option Bytes) : Bytes :=
  match node with
  | none => putBytes []
  | some enc => if enc.length < ctx.dl then enc else putBytes (ctx.hashf enc)

/-- The number of nibbles from `level` on that all entries share with the first. -/
def prefixLength (substring : List Nibble) (obj : List Ent) (level : Nat) : Nat :=
  obj.foldl (fun shared e => min shared (commonPrefix substring (e.nib.drop level)))
    substring.length

/-- The entries that go on with a nibble, in their order. -/
def bucket (obj : List Ent) (level : Nat) (k : Nibble) : List Ent :=
  obj.filter fun e => e.nib[level]? = some k

/-- The value of the last entry whose key ends at a level. -/
def endValue (obj : List Ent) (level : Nat) : Bytes :=
  ((obj.filter fun e => e.nib.length = level).getLast?.map Ent.val).getD []

/-- The encoding of the node for some entries. Every call works below its caller's level, so the
room is the number of nibbles and one more. -/
def patricialize (ctx : FullCtx) : Nat → List Ent → Nat → Except Failure (Option Bytes)
  | 0, _, _ => .error .fault
  | _ + 1, [], _ => .ok none
  | _ + 1, [e], level =>
    .ok (some (wrapList (putBytes (compact (e.nib.drop level) true) ++ putBytes e.val)))
  | room + 1, e :: f :: rest, level => do
      let obj := e :: f :: rest
      let substring := e.nib.drop level
      let shared := prefixLength substring obj level
      if 0 < shared then
        let below ← patricialize ctx room obj (level + shared)
        pure (some (wrapList (putBytes (compact (substring.take shared) false) ++
          putSubnode ctx below)))
      else
        let below ← (finRange 16).mapM fun k =>
          patricialize ctx room (bucket obj level k) (level + 1)
        pure (some (wrapList ((below.map (putSubnode ctx)).flatten ++
          putBytes (endValue obj level))))

/-- `_prepare_data` for one entry: an empty value is refused. -/
def prepareEnt (ctx : FullCtx) (secured : Bool) (entry : Bytes × Bytes) : Except Failure Ent :=
  if entry.2.length = 0 then .error .reject
  else
    let key := if secured then ctx.hashf entry.1 else entry.1
    .ok ⟨key.flatMap byteNibbles, entry.2⟩

/-- The room that the nested calls need. -/
def fullRoom (ents : List Ent) : Nat :=
  (ents.map fun e => e.nib.length).foldl max 0 + 1

/-- The root of a list of entries.  A key that occurs twice is refused. -/
def evmTrieFullRoot (hashes : FullHashes) (entries : List (Bytes × Bytes)) (secured : Bool)
    (mode : FullHash) : Except Failure Bytes := do
  let ctx := hashes.ctx mode
  let ents ← entries.mapM (prepareEnt ctx secured)
  if ¬ (ents.map Ent.nib).Nodup then
    .error .reject
  else
    match ← patricialize ctx (fullRoom ents) ents 0 with
    | none => .ok (ctx.hashf [0x80])
    | some enc => .ok (ctx.hashf enc)

/-! ## The tree of the entries -/

/-- A tree has exactly the entries, each with the rest of its key from a level on. -/
def Lists (obj : List Ent) (level : Nat) (tree : Tree) : Prop :=
  ∀ key value, tree.lookup key = some value ↔ ∃ e ∈ obj, e.nib.drop level = key ∧ e.val = value

/-- The encoding of a tree, or nothing for the empty one. -/
def image (hash : Hash) (tree : Tree) : Option Bytes :=
  match tree with
  | .empty => none
  | tree => some (encode hash tree)

variable {hash : Hash} {tree : Tree} {e : Ent} {level : Nat} {shared : List Nibble} {obj : List Ent}
variable {hashes : FullHashes}

theorem image_of_ne (there : tree ≠ .empty) : image hash tree = some (encode hash tree) := by
  cases tree with
  | empty => exact absurd rfl there
  | leaf | extension | branch => rfl

theorem putSubnode_image (hashes : FullHashes) (tree : Tree) :
    putSubnode (hashes.ctx .sha3) (image hashes.sha3 tree) =
      childItem hashes.sha3 tree (encode hashes.sha3 tree) := by
  cases tree with
  | empty | leaf | extension | branch => rfl

theorem foldl_min_spec {α : Type} {values : List α} {size : α → Nat} {start least : Nat}
    (folded : values.foldl (fun least value => min least (size value)) start = least) :
    (∀ value ∈ values, least ≤ size value) ∧ least ≤ start ∧
      (least = start ∨ ∃ value ∈ values, least = size value) := by
  induction values generalizing start with
  | nil => exact ⟨by simp, folded.ge, Or.inl folded.symm⟩
  | cons value rest ih =>
    simp only [foldl_cons] at folded
    obtain ⟨each, below, attained⟩ := ih folded
    refine ⟨forall_mem_cons.mpr ⟨by omega, each⟩, by omega, ?_⟩
    rcases attained with least | ⟨other, mem, least⟩
    · rcases Nat.le_total start (size value) with less | less
      · exact Or.inl (by omega)
      · exact Or.inr ⟨value, mem_cons_self, by omega⟩
    · exact Or.inr ⟨other, mem_cons_of_mem value mem, least⟩

/-- Two entries with different keys of one length part behind the nibbles that all share. -/
theorem prefixLength_spec {f : Ent} {rest : List Ent} {length : Nat}
    (sizes : ∀ g ∈ e :: f :: rest, g.nib.length = level + length)
    (nodup : ((e :: f :: rest).map fun g => g.nib.drop level).Nodup) :
    ∃ shared : List Nibble,
      prefixLength (e.nib.drop level) (e :: f :: rest) level = shared.length ∧
      (∀ g ∈ e :: f :: rest, shared <+: g.nib.drop level) ∧
      ∃ g ∈ e :: f :: rest, ∃ digit digit' tail tail', digit ≠ digit' ∧
        e.nib.drop level = shared ++ digit :: tail ∧
        g.nib.drop level = shared ++ digit' :: tail' := by
  obtain ⟨each, -, attained⟩ :=
    foldl_min_spec (rfl : _ = prefixLength (e.nib.drop level) (e :: f :: rest) level)
  have total : ∀ g ∈ e :: f :: rest, (g.nib.drop level).length = length := by
    intro g mem
    rw [length_drop, sizes g mem]
    omega
  have size := total e mem_cons_self
  have apart : e.nib.drop level ≠ f.nib.drop level := by
    intro same
    rw [map_cons, map_cons, nodup_cons] at nodup
    exact nodup.1 (same ▸ mem_cons_self)
  -- the second entry alone makes the shared part shorter than a key
  have less : prefixLength (e.nib.drop level) (e :: f :: rest) level < length := by
    have bound := each f (mem_cons_of_mem _ mem_cons_self)
    obtain ⟨shared, tail, tail', eq, eq', count, -⟩ :=
      commonPrefix_spec (e.nib.drop level) (f.nib.drop level)
    rw [count] at bound
    have size' := total f (mem_cons_of_mem _ mem_cons_self)
    have filled : tail ≠ [] := by
      rintro rfl
      rw [eq, append_nil] at size
      rw [eq', length_append, size] at size'
      have empty : tail' = [] := eq_nil_of_length_eq_zero (by omega)
      exact apart (by rw [eq, eq', empty])
    have pos := length_pos_iff.mpr filled
    rw [eq, length_append] at size
    omega
  have reached : ∃ g ∈ e :: f :: rest, prefixLength (e.nib.drop level) (e :: f :: rest) level =
      commonPrefix (e.nib.drop level) (g.nib.drop level) := by
    rcases attained with whole | found
    · exact absurd (whole.trans size) less.ne
    · exact found
  obtain ⟨g, mem, least⟩ := reached
  obtain ⟨shared, tail, tail', eq, eq', count, differ⟩ :=
    commonPrefix_spec (e.nib.drop level) (g.nib.drop level)
  rw [count] at least
  have size' := total g mem
  rw [least] at less
  refine ⟨shared, least, ?_, g, mem, ?_⟩
  · intro other inside
    have bound := each other inside
    obtain ⟨common, back, back', first, second, count', -⟩ :=
      commonPrefix_spec (e.nib.drop level) (other.nib.drop level)
    rw [count'] at bound
    have longer : shared.length ≤ common.length := by
      rw [← least]
      exact bound
    rw [second]
    have front : shared <+: e.nib.drop level := eq ▸ prefix_append _ _
    have front' : common <+: e.nib.drop level := first ▸ prefix_append _ _
    exact (prefix_of_prefix_length_le front front' longer).trans (prefix_append _ _)
  · rw [eq, length_append] at size
    rw [eq', length_append] at size'
    cases tail with
    | nil =>
      rw [length_nil] at size
      omega
    | cons digit tail =>
      cases tail' with
      | nil =>
        rw [length_nil] at size'
        omega
      | cons digit' tail' =>
        exact ⟨digit, digit', tail, tail', differ _ _ _ _ rfl rfl, eq, eq'⟩

theorem drop_shared (front : shared <+: e.nib.drop level) :
    e.nib.drop level = shared ++ e.nib.drop (level + shared.length) := by
  obtain ⟨rest, eq⟩ := front
  rw [← drop_drop, ← eq, drop_left]

theorem nodup_drop_shared (nodup : (obj.map fun e => e.nib.drop level).Nodup)
    (front : ∀ e ∈ obj, shared <+: e.nib.drop level) :
    (obj.map fun e => e.nib.drop (level + shared.length)).Nodup := by
  have eq : obj.map (fun e => e.nib.drop level) =
      (obj.map fun e => e.nib.drop (level + shared.length)).map (shared ++ ·) := by
    rw [map_map]
    apply map_congr_left
    intro e mem
    exact drop_shared (front e mem)
  rw [eq] at nodup
  exact Nodup.of_map _ nodup

theorem mem_bucket {k : Nibble} : e ∈ bucket obj level k ↔ e ∈ obj ∧ [k] <+: e.nib.drop level := by
  rw [bucket, mem_filter, decide_eq_true_iff]
  apply and_congr_right
  intro _
  constructor
  · intro found
    obtain ⟨inside, same⟩ := List.getElem?_eq_some_iff.mp found
    rw [drop_eq_getElem_cons inside, same]
    exact prefix_append [k] _
  · rintro ⟨rest, eq⟩
    have found : (e.nib.drop level)[0]? = some k := by
      rw [← eq]
      rfl
    rwa [getElem?_drop, Nat.add_zero] at found

section

variable (hashes : FullHashes)

/-- What the builder gives for some entries. -/
def Builds (room : Nat) (obj : List Ent) (level length : Nat) (tree : Tree) : Prop :=
  Canonical length tree ∧ Lists obj level tree ∧
    patricialize (hashes.ctx .sha3) room obj level = .ok (image hashes.sha3 tree)

variable {hashes}
variable {level length : Nat} {rest : List Ent} {below : Nibble → Tree}

theorem builds_nil (room level length : Nat) : Builds hashes (room + 1) [] level length .empty := by
  refine ⟨.nothing _, fun key value => ⟨nofun, ?_⟩, rfl⟩
  rintro ⟨e, mem, -⟩
  cases mem

theorem builds_extension {room : Nat} {e f : Ent} {shared : List Nibble} (filled : shared ≠ [])
    (count : prefixLength (e.nib.drop level) (e :: f :: rest) level = shared.length)
    (front : ∀ g ∈ e :: f :: rest, shared <+: g.nib.drop level)
    (builds : Builds hashes room (e :: f :: rest) (level + shared.length) length (.branch below)) :
    Builds hashes (room + 1) (e :: f :: rest) level (shared.length + length)
      (.extension shared (.branch below)) := by
  obtain ⟨canon, lists, run⟩ := builds
  refine ⟨.shared filled canon, ?_, ?_⟩
  · intro key value
    constructor
    · intro found
      obtain ⟨key, rfl⟩ := shared_segment _ _ _ _ found
      rw [lookup_extension_append] at found
      obtain ⟨g, mem, same, held⟩ := (lists key value).mp found
      exact ⟨g, mem, by rw [drop_shared (front g mem), same], held⟩
    · rintro ⟨g, mem, rfl, held⟩
      rw [drop_shared (front g mem), lookup_extension_append]
      exact (lists _ value).mpr ⟨g, mem, rfl, held⟩
  · have pos : 0 < shared.length := length_pos_iff.mpr filled
    obtain ⟨back, eq⟩ := front e mem_cons_self
    have taken : (e.nib.drop level).take shared.length = shared := by
      rw [← eq, take_left]
    rw [patricialize, count, if_pos pos, run, taken]
    rw [image_of_ne (by simp : branch below ≠ .empty)]
    exact congrArg (fun item => Except.ok (some (wrapList (_ ++ item))))
      (putSubnode_image hashes (.branch below))

theorem builds_branch {room : Nat} {e f : Ent}
    (sizes : ∀ g ∈ e :: f :: rest, g.nib.length = level + (length + 1))
    (blank : prefixLength (e.nib.drop level) (e :: f :: rest) level = 0)
    (builds : ∀ k,
      Builds hashes room (bucket (e :: f :: rest) level k) (level + 1) length (below k)) {g : Ent}
    (mem : g ∈ e :: f :: rest) {digit digit' : Nibble} {tail tail' : List Nibble}
    (apart : digit ≠ digit') (first : e.nib.drop level = digit :: tail)
    (second : g.nib.drop level = digit' :: tail') :
    Builds hashes (room + 1) (e :: f :: rest) level (length + 1) (.branch below) := by
  have lists : Lists (e :: f :: rest) level (.branch below) := by
    intro key value
    cases key with
    | nil =>
      constructor
      · intro found
        cases found
      · rintro ⟨other, inside, short, -⟩
        have size := congrArg List.length short
        rw [length_drop, sizes other inside, length_nil] at size
        omega
    | cons k key =>
      rw [lookup_branch_cons, (builds k).2.1 key value]
      constructor
      · rintro ⟨other, inside, same, held⟩
        obtain ⟨inside, front⟩ := mem_bucket.mp inside
        exact ⟨other, inside, by rw [drop_shared front, ← same]; rfl, held⟩
      · rintro ⟨other, inside, same, held⟩
        have front : [k] <+: other.nib.drop level := by
          rw [same]
          exact prefix_append [k] key
        have eq := drop_shared front
        rw [same] at eq
        exact ⟨other, mem_bucket.mpr ⟨inside, front⟩, (cons.inj eq).2.symm, held⟩
  have there : ∀ {other : Ent}, other ∈ e :: f :: rest → ∀ {k rest'},
      other.nib.drop level = k :: rest' → below k ≠ .empty := by
    intro other inside k rest' same empty
    have found := (lists (k :: rest') other.val).mpr ⟨other, inside, same, rfl⟩
    rw [lookup_branch_cons, empty] at found
    cases found
  refine ⟨.forked (fun k => (builds k).1) apart (there mem_cons_self first)
    (there mem second), lists, ?_⟩
  have ended : endValue (e :: f :: rest) level = [] := by
    have empty : (e :: f :: rest).filter (fun g => g.nib.length = level) = [] := by
      rw [filter_eq_nil_iff]
      intro other inside short
      rw [decide_eq_true_iff, sizes other inside] at short
      omega
    rw [endValue, empty]
    rfl
  have children : (finRange 16).mapM (fun k =>
      patricialize (hashes.ctx .sha3) room (bucket (e :: f :: rest) level k) (level + 1)) =
        .ok ((finRange 16).map fun k => image hashes.sha3 (below k)) :=
    mapM_eq_ok fun k _ => (builds k).2.2
  have items : ((finRange 16).map fun k => image hashes.sha3 (below k)).map
      (putSubnode (hashes.ctx .sha3)) =
        (finRange 16).map fun k => childItem hashes.sha3 (below k)
          (encode hashes.sha3 (below k)) := by
    rw [map_map]
    apply map_congr_left
    intro k _
    exact putSubnode_image hashes (below k)
  rw [patricialize, blank, if_neg (Nat.lt_irrefl 0), children, ended]
  refine (congrArg (fun parts => Except.ok (some (wrapList (flatten parts ++ putBytes []))))
    items).trans ?_
  rw [← flatMap_def]
  rfl

theorem exists_builds (room : Nat) {obj : List Ent}
    (sizes : ∀ e ∈ obj, e.nib.length = level + length)
    (nodup : (obj.map fun e => e.nib.drop level).Nodup) (enough : length < room) :
    ∃ tree, Builds hashes room obj level length tree := by
  induction room generalizing obj level length with
  | zero => exact absurd enough (Nat.not_lt_zero _)
  | succ room ih =>
    cases obj with
    | nil =>
      exact ⟨.empty, builds_nil room level length⟩
    | cons e others =>
      cases others with
      | nil =>
        have size : (e.nib.drop level).length = length := by
          rw [length_drop, sizes e mem_cons_self]
          omega
        refine ⟨.leaf (e.nib.drop level) e.val, ?_, ?_, rfl⟩
        · rw [← size]
          exact .single _ _
        · intro key value
          rw [lookup_leaf]
          constructor
          · intro found
            split at found
            next eq => exact ⟨e, mem_cons_self, eq, Option.some.inj found⟩
            next => cases found
          · rintro ⟨g, mem, eq, held⟩
            obtain rfl := mem_singleton.mp mem
            rw [if_pos eq, held]
      | cons f rest =>
        obtain ⟨shared, count, front, g, mem, digit, digit', tail, tail', apart, first,
          second⟩ := prefixLength_spec sizes nodup
        have size : shared.length + (tail.length + 1) = length := by
          have total := congrArg List.length first
          rw [length_drop, sizes e mem_cons_self, length_append, length_cons] at total
          omega
        by_cases empty : shared = []
        · subst empty
          rw [length_nil, Nat.zero_add] at size
          subst size
          have below : ∀ k, ∃ tree, Builds hashes room (bucket (e :: f :: rest) level k)
              (level + 1) tail.length tree := by
            intro k
            apply ih _ _ (Nat.lt_of_succ_lt_succ enough)
            · intro other inside
              rw [sizes other (mem_bucket.mp inside).1]
              omega
            · apply @nodup_drop_shared _ [k]
              · exact nodup.sublist (filter_sublist.map _)
              · exact fun other inside => (mem_bucket.mp inside).2
          choose below builds using below
          exact ⟨.branch below, builds_branch sizes count builds mem apart first second⟩
        · have pos := length_pos_iff.mpr empty
          have deeper : ∀ other ∈ e :: f :: rest,
              other.nib.length = level + shared.length + (tail.length + 1) := by
            intro other inside
            rw [sizes other inside]
            omega
          obtain ⟨tree, canon, lists, run⟩ :=
            ih deeper (nodup_drop_shared nodup front) (by omega)
          have branches : ∃ below, tree = .branch below := by
            have cut : e.nib.drop (level + shared.length) = digit :: tail := by
              rw [← drop_drop, first, drop_left]
            have cut' : g.nib.drop (level + shared.length) = digit' :: tail' := by
              rw [← drop_drop, second, drop_left]
            exact canon.exists_branch apart
              ((lists _ _).mpr ⟨e, mem_cons_self, cut, rfl⟩)
              ((lists _ _).mpr ⟨g, mem, cut', rfl⟩)
          obtain ⟨below, rfl⟩ := branches
          rw [← size]
          exact ⟨_, builds_extension empty count front ⟨canon, lists, run⟩⟩

end

def rootOf (hash : Hash) (tree : Tree) : Digest :=
  match image hash tree with
  | none => emptyRoot hash
  | some enc => hash enc

theorem rootOf_of_ne (there : tree ≠ .empty) : rootOf hash tree = hash (encode hash tree) := by
  rw [rootOf, image_of_ne there]

theorem le_foldl_max {values : List Nat} {value : Nat} (mem : value ∈ values) (start : Nat) :
    value ≤ values.foldl max start := by
  have grows : ∀ (values : List Nat) start, start ≤ values.foldl max start := by
    intro values
    induction values with
    | nil => exact fun start => Nat.le_refl start
    | cons value rest ih => exact fun start => (Nat.le_max_left _ _).trans (ih _)
  induction values generalizing start with
  | nil => cases mem
  | cons first rest ih =>
    rw [foldl_cons]
    rcases mem_cons.mp mem with rfl | mem
    · exact (Nat.le_max_right _ _).trans (grows rest _)
    · exact ih mem _

/-- From scratch, the root of a list of keys and values is that of its canonical tree. -/
theorem evmTrieFullRoot_spec {entries : List (Bytes × Bytes)}
    (filled : ∀ entry ∈ entries, 0 < entry.2.length)
    (nodup : (entries.map fun entry => hashes.sha3 entry.1).Nodup) :
    ∃ tree, Canonical pathNibbles tree ∧
      (∀ path value, tree.lookup path = some value ↔
        ∃ entry ∈ entries, pathToNibbles (hashes.sha3 entry.1) = path ∧ entry.2 = value) ∧
      evmTrieFullRoot hashes entries true .sha3 = .ok (rootOf hashes.sha3 tree).val := by
  let ents := entries.map fun entry => Ent.mk (pathToNibbles (hashes.sha3 entry.1)) entry.2
  have prepared : entries.mapM (prepareEnt (hashes.ctx .sha3) true) = .ok ents :=
    mapM_eq_ok fun entry mem => by
      rw [prepareEnt, if_neg (filled entry mem).ne']
      rfl
  have paths : (ents.map Ent.nib).Nodup := by
    rw [map_map]
    have mapped := nodup.map pathToNibbles_injective
    rwa [map_map] at mapped
  have sizes : ∀ e ∈ ents, e.nib.length = 0 + pathNibbles := by
    intro e mem
    obtain ⟨entry, -, rfl⟩ := mem_map.mp mem
    rw [Nat.zero_add, length_pathToNibbles]
  have built : ∃ tree, Builds hashes (fullRoom ents) ents 0 pathNibbles tree := by
    cases full : ents with
    | nil =>
      exact ⟨.empty, builds_nil 0 0 pathNibbles⟩
    | cons e rest =>
      rw [← full]
      apply exists_builds _ sizes paths
      have mem : e ∈ ents := by
        rw [full]
        exact mem_cons_self
      have longest := le_foldl_max (mem_map_of_mem (f := fun e => e.nib.length) mem) 0
      rw [sizes e mem] at longest
      rw [fullRoom]
      omega
  obtain ⟨tree, canon, lists, run⟩ := built
  refine ⟨tree, canon, ?_, ?_⟩
  · intro path value
    rw [lists path value]
    constructor
    · rintro ⟨e, mem, eq, held⟩
      obtain ⟨entry, inside, rfl⟩ := mem_map.mp mem
      exact ⟨entry, inside, eq, held⟩
    · rintro ⟨entry, inside, eq, held⟩
      exact ⟨_, mem_map_of_mem inside, eq, held⟩
  · simp only [evmTrieFullRoot]
    rw [prepared]
    show (if ¬ (ents.map Ent.nib).Nodup then _ else _) = _
    rw [if_neg (not_not.mpr paths), run]
    cases tree <;> rfl

end DnaLedger.Trie
