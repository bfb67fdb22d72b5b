import DnaLedger.Trie.Writing

/-!
# The trie over its whole life

The store of a session returns what was written. The session behaves as the map from keys to values
does, and what it commits is the root that is computed from scratch for the entries of that map.
-/

namespace DnaLedger.Trie

open Program Set List Function
open Patricia (Canonical)

abbrev Value := { bytes : Bytes // bytes.length < valueLimit }

inductive Op where
  | set (key : Bytes) (value : Value)
  | delete (key : Bytes)
  | get (key : Bytes)
  | commit
  | reopen

/-- The byte string an operation hashes before it walks. -/
def Op.key? : Op → Option Bytes
  | set key _ | delete key | get key => some key
  | commit | reopen => none

inductive Answer where
  | done
  | found (value : Option Bytes)
  | root (digest : Digest)
  | fault
  deriving DecidableEq

/-- The open handle and the root that was committed last. -/
structure Session where
  handle : Handle WriteLog
  committed : Digest

namespace Session

variable (hash : Hash)

def start (initial : Digest → Option Bytes) : Session :=
  { handle := evmTrieOpen hash ⟨initial, []⟩ (emptyRoot hash), committed := emptyRoot hash }

/-- A call on the handle, with what to do when it returns. -/
def call {α : Type} (program : Program (Handle WriteLog) α)
    (finish : α → Session → Answer × Session) (session : Session) : Answer × Session :=
  match program.exec session.handle with
  | (.ok value, handle) => finish value { session with handle := handle }
  | (.error _, handle) => (.fault, { session with handle := handle })

def step : Op → Session → Answer × Session
  | .set key value =>
    call (evmTrieSet hash logStore key value.val) fun _ session => (.done, session)
  | .delete key => call (evmTrieDelete hash logStore key) fun _ session => (.done, session)
  | .get key => call (evmTrieGet hash logStore key) fun value session => (.found value, session)
  | .commit => call (evmTrieCommit hash logStore) fun digest session =>
    (.root digest, { session with committed := digest })
  | .reopen => fun session =>
    (.done, { session with
      handle := evmTrieOpen hash session.handle.store session.committed })

def after (ops : List Op) (session : Session) : Session :=
  ops.foldl (fun session op => (step hash op session).2) session

end Session

/-- The hashed byte strings of a session: the empty trie, the keys, and what is stored. -/
def hashedInputs (hash : Hash) (initial : Digest → Option Bytes) (ops : List Op) : Set Bytes :=
  { bytes | bytes = [0x80] ∨ (∃ op ∈ ops, op.key? = some bytes) ∨
    ∃ before, before <+: ops ∧ ∃ digest,
      ((Session.start hash initial).after hash before).handle.store.Has digest bytes }

/-- The current map, and the one that was committed last. -/
structure Contents where
  current : Bytes → Option Bytes
  committed : Bytes → Option Bytes

namespace Contents

def empty : Contents := ⟨fun _ => none, fun _ => none⟩

def step : Op → Contents → Contents
  | .set key value, contents =>
    { contents with
      current := update contents.current key
        (if value.val.length = 0 then none else some value.val) }
  | .delete key, contents => { contents with current := update contents.current key none }
  | .get _, contents => contents
  | .commit, contents => { contents with committed := contents.current }
  | .reopen, contents => { contents with current := contents.committed }

def after (ops : List Op) : Contents :=
  ops.foldl (fun contents op => step op contents) empty

end Contents

structure EntriesOf (map : Bytes → Option Bytes) (entries : List (Bytes × Bytes)) : Prop where
  mem : ∀ key value, (key, value) ∈ entries ↔ map key = some value
  distinct : (entries.map Prod.fst).Nodup

def Right (hashes : FullHashes) (contents : Contents) : Op → Answer → Prop
  | .get key, answer => answer = .found (contents.current key)
  | .commit, answer => ∃ root, answer = .root root ∧
      (∃ entries, EntriesOf contents.current entries) ∧
        ∀ entries, EntriesOf contents.current entries →
          evmTrieFullRoot hashes entries true .sha3 = .ok root.val
  | _, answer => answer = .done

section

variable {hash : Hash} {keys : Set Bytes}

def pathOf (hash : Hash) (key : Bytes) : List Nibble := pathToNibbles (hash key)

/-- A canonical tree that has the entries of a map, whose keys are among the given ones. -/
structure TreeOf (hash : Hash) (keys : Set Bytes) (map : Bytes → Option Bytes) (tree : Tree) :
    Prop where
  canonical : Canonical pathNibbles tree
  fair : Fair tree
  among : ∀ key value, map key = some value → key ∈ keys
  complete : ∀ key value, map key = some value → tree.lookup (pathOf hash key) = some value
  exact : ∀ path value, tree.lookup path = some value →
    ∃ key, path = pathOf hash key ∧ map key = some value

theorem pathOf_injOn (free : InjOn hash keys) : InjOn (pathOf hash) keys :=
  fun _ mem _ mem' eq => free mem mem' (pathToNibbles_injective eq)

theorem TreeOf.at_path {map : Bytes → Option Bytes} {tree : Tree}
    (treeOf : TreeOf hash keys map tree) (key : Bytes) :
    Canonical (pathOf hash key).length tree ∧ (pathOf hash key).length = pathNibbles ∧
      (pathOf hash key).length < walkSteps := by
  have height : (pathOf hash key).length = pathNibbles := length_pathToNibbles _
  rw [height]
  exact ⟨treeOf.canonical, rfl, Nat.lt_succ_self _⟩

theorem treeOf_empty : TreeOf hash keys (fun _ => none) .empty where
  canonical := .nothing _
  fair := by
    intro key value found
    cases found
  among := by
    intro key value found
    cases found
  complete := by
    intro key value found
    cases found
  exact := by
    intro path value found
    cases found

variable {map : Bytes → Option Bytes} {tree : Tree}
variable {key : Bytes} {entries : List (Bytes × Bytes)}

theorem TreeOf.lookup (treeOf : TreeOf hash keys map tree) (free : InjOn hash keys)
    (mem : key ∈ keys) : tree.lookup (pathOf hash key) = map key := by
  cases found : tree.lookup (pathOf hash key) with
  | none =>
    cases held : map key with
    | none => rfl
    | some value =>
      rw [treeOf.complete key value held] at found
      cases found
  | some value =>
    obtain ⟨other, eq, held⟩ := treeOf.exact _ _ found
    rw [pathOf_injOn free mem (treeOf.among other value held) eq, held]

theorem TreeOf.update {after : Tree} (treeOf : TreeOf hash keys map tree)
    (free : InjOn hash keys) (mem : key ∈ keys) {changed : Option Bytes}
    (sized : ∀ value, changed = some value → 0 < value.length ∧ value.length < valueLimit)
    (canon : Canonical pathNibbles after)
    (values : ∀ path, after.lookup path =
      if path = pathOf hash key then changed else tree.lookup path) :
    TreeOf hash keys (update map key changed) after where
  canonical := canon
  fair := by
    intro path value found
    rw [values] at found
    split at found
    next => exact sized value found
    next => exact treeOf.fair path value found
  among := by
    intro other value found
    by_cases same : other = key
    · rwa [same]
    · rw [update_of_ne same] at found
      exact treeOf.among other value found
  complete := by
    intro other value found
    rw [values]
    by_cases same : other = key
    · rw [same, update_self] at found
      rw [same, if_pos rfl, found]
    · rw [update_of_ne same] at found
      have apart : pathOf hash other ≠ pathOf hash key := fun eq =>
        same (pathOf_injOn free (treeOf.among other value found) mem eq)
      rw [if_neg apart]
      exact treeOf.complete other value found
  exact := by
    intro path value found
    rw [values] at found
    split at found
    next same => exact ⟨key, same, by rw [update_self, found]⟩
    next apart =>
      obtain ⟨other, same, held⟩ := treeOf.exact path value found
      refine ⟨other, same, ?_⟩
      rw [update_of_ne, held]
      rintro rfl
      exact apart same

theorem TreeOf.fullRoot {hashes : FullHashes} (treeOf : TreeOf hashes.sha3 keys map tree)
    (free : InjOn hashes.sha3 keys) (listed : EntriesOf map entries) :
    evmTrieFullRoot hashes entries true .sha3 = .ok (rootOf hashes.sha3 tree).val := by
  have filled : ∀ entry ∈ entries, 0 < entry.2.length := by
    intro entry member
    have held := (listed.mem entry.1 entry.2).mp member
    exact (treeOf.fair _ _ (treeOf.complete _ _ held)).1
  have distinct : (entries.map fun entry => hashes.sha3 entry.1).Nodup := by
    have mapped : (entries.map Prod.fst).map hashes.sha3 =
        entries.map fun entry => hashes.sha3 entry.1 := by
      rw [map_map]
      rfl
    rw [← mapped]
    apply listed.distinct.map_on
    intro key member key' mem' eq
    obtain ⟨entry, inside, rfl⟩ := mem_map.mp member
    obtain ⟨entry', inside', rfl⟩ := mem_map.mp mem'
    exact free (treeOf.among _ _ ((listed.mem entry.1 entry.2).mp inside))
      (treeOf.among _ _ ((listed.mem entry'.1 entry'.2).mp inside')) eq
  obtain ⟨other, canonical, lists, run⟩ := evmTrieFullRoot_spec filled distinct
  have eq : other = tree := by
    apply canonical.eq_of_lookup_eq treeOf.canonical
    intro path
    apply Option.ext
    intro value
    rw [lists path value]
    constructor
    · rintro ⟨entry, member, rfl, rfl⟩
      exact treeOf.complete _ _ ((listed.mem entry.1 entry.2).mp member)
    · intro found
      obtain ⟨key, rfl, held⟩ := treeOf.exact path value found
      exact ⟨(key, value), (listed.mem key value).mpr held, rfl, rfl⟩
  rw [run, eq]

theorem EntriesOf.update (listed : EntriesOf map entries) (key : Bytes) (changed : Option Bytes) :
    ∃ entries', EntriesOf (update map key changed) entries' := by
  have kept : EntriesOf (Function.update map key none)
      (entries.filter fun entry => entry.1 ≠ key) := by
    constructor
    · intro other value
      rw [mem_filter, decide_eq_true_iff, listed.mem]
      by_cases eq : other = key
      · rw [eq, update_self]
        constructor
        · exact fun both => absurd rfl both.2
        · intro found
          cases found
      · rw [update_of_ne eq]
        exact ⟨And.left, fun held => ⟨held, eq⟩⟩
    · exact listed.distinct.sublist (filter_sublist.map _)
  cases changed with
  | none => exact ⟨_, kept⟩
  | some value =>
    refine ⟨(key, value) :: entries.filter fun entry => entry.1 ≠ key, ?_, ?_⟩
    · intro other held
      rw [mem_cons, kept.mem]
      by_cases eq : other = key
      · rw [eq, update_self, update_self]
        simp [eq_comm]
      · rw [update_of_ne eq, update_of_ne eq]
        simp [eq]
    · rw [map_cons, nodup_cons]
      refine ⟨?_, kept.distinct⟩
      intro member
      obtain ⟨entry, inside, eq⟩ := mem_map.mp member
      have apart := (mem_filter.mp inside).2
      rw [decide_eq_true_iff] at apart
      exact apart eq

end

/-! ## Every answer is right -/

variable {hash : Hash}

theorem wrapList_ne_empty {payload : Bytes} (fits : payload.length < lengthLimit) :
    wrapList payload ≠ [0x80] := by
  intro eq
  have empty : putBytes [] = [0x80] := rfl
  obtain ⟨item, read, list, -⟩ := decodeItem_wrapList fits []
  obtain ⟨item', read', string, -⟩ := @decodeItem_putBytes [] (by decide) []
  rw [eq, ← empty, read'] at read
  rw [Option.some.inj read, list] at string
  cases string

variable {inputs : Set Bytes} {hashes : FullHashes}

theorem rootOf_ne_emptyRoot (free : InjOn hash inputs) (base : [0x80] ∈ inputs) {tree : Tree}
    (canon : Canonical pathNibbles tree) (fair : Fair tree) (there : tree ≠ .empty)
    (mem : encode hash tree ∈ inputs) :
    rootOf hash tree ≠ emptyRoot hash := by
  rw [rootOf_of_ne there, emptyRoot]
  intro same
  obtain ⟨payload, whole, fits⟩ :=
    @exists_payload hash _ _ canon (Nat.le_refl _) fair there
  have eq := free mem base same
  rw [whole] at eq
  exact wrapList_ne_empty fits eq

theorem exists_of_ensures {σ α : Type} {program : Program σ α} {post : α → Prop} {state : σ}
    (ensures : Ensures True (· = state) program post) :
    ∃ value, exec program state = (.ok value, state) ∧ post value := by
  obtain ⟨kept, good, fails⟩ := ensures state rfl
  rcases run : exec program state with ⟨value | code, next⟩
  · rw [run] at fails
    exact absurd trivial (fails _ rfl)
  · rw [run] at kept good
    obtain rfl : next = state := kept
    exact ⟨_, rfl, good _ rfl⟩

theorem exec_onRoot {α : Type} (walk : TNode → Program WriteLog (TNode × α))
    {handle : Handle WriteLog} (alive : handle.fault = false) {root : TNode} {value : α}
    {next : WriteLog} (run : exec (walk handle.root) handle.store = (.ok (root, value), next)) :
    exec (onRoot walk) handle = (.ok value, { handle with root := root, store := next }) := by
  simp only [onRoot, exec_bind, exec_get, alive, Bool.false_eq_true, if_false, run, exec_set,
    exec_pure]

/-- What a session keeps while it works on a map. -/
structure Tracks (hash : Hash) (keys : Set Bytes) (session : Session) (contents : Contents) :
    Prop where
  alive : session.handle.fault = false
  sound : session.handle.store.Sound hash
  held : ∃ tree, Denotes hash session.handle.store.Has true session.handle.root tree ∧
    TreeOf hash keys contents.current tree
  saved : ∃ tree, session.committed = rootOf hash tree ∧
    (tree ≠ .empty → session.handle.store.Has (hash (encode hash tree)) (encode hash tree)) ∧
    Stored hash session.handle.store.Has tree ∧ TreeOf hash keys contents.committed tree
  listed : (∃ entries, EntriesOf contents.current entries) ∧
    ∃ entries, EntriesOf contents.committed entries

theorem tracks_start (hash : Hash) (keys : Set Bytes) (initial : Digest → Option Bytes) :
    Tracks hash keys (Session.start hash initial) .empty := by
  have empty : EntriesOf (fun _ => Option.none) [] := by
    constructor
    · intro key value
      constructor
      · intro mem
        cases mem
      · intro found
        cases found
    · exact nodup_nil
  have opened : (Session.start hash initial).handle.root = .null := if_pos rfl
  refine ⟨rfl, fun entry mem => absurd mem not_mem_nil, ⟨.empty, ?_, treeOf_empty⟩,
    ⟨.empty, rfl, fun there => absurd rfl there, trivial, treeOf_empty⟩, ⟨[], empty⟩, ⟨[], empty⟩⟩
  rw [opened]
  exact .null

section

variable {inputs keys : Set Bytes} (free : Set.InjOn hash inputs) (within : keys ⊆ inputs)
variable {session : Session} {contents : Contents} (tracks : Tracks hash keys session contents)
variable (among : ∀ entry ∈ session.handle.store.writes, entry.2 ∈ inputs)

include free within tracks among

variable {key : Bytes}

theorem set_tracks (mem : key ∈ keys) {value : Bytes} (small : value.length < valueLimit) :
    ∃ root, exec (evmTrieSet hash logStore key value) session.handle =
        (.ok (), { session.handle with root := root }) ∧
      Tracks hash keys { session with handle := { session.handle with root := root } }
        { contents with
          current := update contents.current key
            (if value.length = 0 then none else some value) } := by
  obtain ⟨tree, denotes, treeOf⟩ := tracks.held
  have serves := logStore_serves free tracks.sound among
  obtain ⟨canon, height, enough⟩ := treeOf.at_path key
  have keep : ∀ {root : TNode} {changed : Option Bytes},
      (∀ value, changed = some value → 0 < value.length ∧ value.length < valueLimit) →
      Changed hash session.handle.store.Has tree (pathOf hash key) changed root →
      Tracks hash keys { session with handle := { session.handle with root := root } }
        { contents with current := update contents.current key changed } := by
    rintro root changed sized ⟨after, stands, canon', values⟩
    rw [height] at canon'
    obtain ⟨⟨entries, listed⟩, listed'⟩ := tracks.listed
    exact ⟨tracks.alive, tracks.sound, ⟨after, stands.atTop, treeOf.update (free.mono within) mem
      sized canon' values⟩, tracks.saved, listed.update key changed, listed'⟩
  rw [evmTrieSet, evmTrieSetPath]
  by_cases empty : value.length = 0
  · rw [if_pos empty, if_pos empty]
    obtain ⟨⟨root, found⟩, run, -, -, changed⟩ := exists_of_ensures
      (del_ensures serves free denotes canon treeOf.fair height.le enough)
    refine ⟨root, exec_onRoot _ tracks.alive ?_, keep (fun _ full => by cases full) changed⟩
    exact (exec_bind_ok run).trans rfl
  · rw [if_neg empty, if_neg empty]
    obtain ⟨root, run, changed⟩ := exists_of_ensures
      (@ins_ensures _ _ _ _ _ _ _ serves free _ _ _ _ _ value denotes canon treeOf.fair
        height.le enough)
    refine ⟨root, exec_onRoot _ tracks.alive ?_, keep ?_ changed⟩
    · exact (exec_bind_ok run).trans rfl
    · rintro _ ⟨⟩
      exact ⟨Nat.pos_of_ne_zero empty, small⟩

theorem get_tracks (mem : key ∈ keys) :
    ∃ root, exec (evmTrieGet hash logStore key) session.handle =
        (.ok (contents.current key), { session.handle with root := root }) ∧
      Tracks hash keys { session with handle := { session.handle with root := root } }
        contents := by
  obtain ⟨tree, denotes, treeOf⟩ := tracks.held
  have serves := logStore_serves free tracks.sound among
  obtain ⟨canon, height, enough⟩ := treeOf.at_path key
  obtain ⟨⟨root, value⟩, run, stands, eq⟩ := exists_of_ensures
    (getPath_ensures serves free denotes canon treeOf.fair height.le enough)
  obtain rfl : value = contents.current key := eq.trans (treeOf.lookup (free.mono within) mem)
  exact ⟨root, exec_onRoot (fun root => getPath hash logStore walkSteps root (pathOf hash key))
      tracks.alive run, tracks.alive, tracks.sound,
    ⟨tree, stands.atTop, treeOf⟩, tracks.saved, tracks.listed⟩

omit free within among in
theorem commit_tracks :
    ∃ tree, TreeOf hash keys contents.current tree ∧ ∃ handle,
      exec (evmTrieCommit hash logStore) session.handle = (.ok (rootOf hash tree), handle) ∧
      Tracks hash keys { handle := handle, committed := rootOf hash tree }
        { contents with committed := contents.current } := by
  obtain ⟨tree, denotes, treeOf⟩ := tracks.held
  obtain ⟨root, next, run, grown, stands, kept, stored⟩ := commit_writes denotes treeOf.canonical
  exact ⟨tree, treeOf, _, exec_onRoot _ tracks.alive run, tracks.alive, grown.sound tracks.sound,
    ⟨tree, stands, treeOf⟩, ⟨tree, rfl, kept, stored, treeOf⟩, tracks.listed.1, tracks.listed.1⟩

omit within in
theorem reopen_tracks (base : [0x80] ∈ inputs) :
    Tracks hash keys
      { session with handle := evmTrieOpen hash session.handle.store session.committed }
      { contents with current := contents.committed } := by
  obtain ⟨tree, root, kept, stored, treeOf⟩ := tracks.saved
  refine ⟨rfl, tracks.sound, ⟨tree, ?_, treeOf⟩, ⟨tree, root, kept, stored, treeOf⟩,
    tracks.listed.2, tracks.listed.2⟩
  by_cases there : tree = .empty
  · subst there
    have opened : (evmTrieOpen hash session.handle.store session.committed).root = .null := by
      rw [root]
      exact if_pos rfl
    rw [opened]
    exact .null
  · have apart : rootOf hash tree ≠ emptyRoot hash :=
      rootOf_ne_emptyRoot free base treeOf.canonical treeOf.fair there (among _ (kept there))
    have opened : (evmTrieOpen hash session.handle.store session.committed).root =
        .ref (hash (encode hash tree)) true false := by
      rw [root, ← @rootOf_of_ne hash tree there]
      exact if_neg apart
    rw [opened]
    exact .ref there (Or.inl ⟨rfl, rfl⟩) (fun flag => by cases flag) (kept there) stored

end

/-- Every operation is answered as the map answers it. -/
theorem step_right {keys : Set Bytes} (free : InjOn hashes.sha3 inputs) (within : keys ⊆ inputs)
    (base : [0x80] ∈ inputs) {session : Session} {contents : Contents}
    (tracks : Tracks hashes.sha3 keys session contents)
    (among : ∀ entry ∈ session.handle.store.writes, entry.2 ∈ inputs) {op : Op}
    (mem : ∀ key, op.key? = some key → key ∈ keys) :
    Right hashes contents op (session.step hashes.sha3 op).1 ∧
      Tracks hashes.sha3 keys (session.step hashes.sha3 op).2 (contents.step op) := by
  cases op with
  | set key value =>
    obtain ⟨root, run, kept⟩ :=
      set_tracks free within tracks among (mem key rfl) value.property
    have stepped : session.step hashes.sha3 (.set key value) =
        (.done, { session with handle := { session.handle with root := root } }) := by
      simp only [Session.step, Session.call, run]
    rw [stepped]
    exact ⟨rfl, kept⟩
  | delete key =>
    obtain ⟨root, run, kept⟩ := set_tracks free within tracks among (mem key rfl)
      (by decide : ([] : Bytes).length < valueLimit)
    have stepped : session.step hashes.sha3 (.delete key) =
        (.done, { session with handle := { session.handle with root := root } }) := by
      simp only [Session.step, Session.call, evmTrieDelete, run]
    rw [stepped]
    exact ⟨rfl, kept⟩
  | get key =>
    obtain ⟨root, run, kept⟩ := get_tracks free within tracks among (mem key rfl)
    have stepped : session.step hashes.sha3 (.get key) = (.found (contents.current key),
        { session with handle := { session.handle with root := root } }) := by
      simp only [Session.step, Session.call, run]
    rw [stepped]
    exact ⟨rfl, kept⟩
  | commit =>
    obtain ⟨tree, treeOf, handle, run, kept⟩ := commit_tracks tracks
    have stepped : session.step hashes.sha3 .commit = (.root (rootOf hashes.sha3 tree),
        { handle := handle, committed := rootOf hashes.sha3 tree }) := by
      simp only [Session.step, Session.call, run]
    rw [stepped]
    exact ⟨⟨_, rfl, tracks.listed.1, fun entries listed =>
      treeOf.fullRoot (free.mono within) listed⟩, kept⟩
  | reopen => exact ⟨rfl, reopen_tracks free tracks among base⟩

def keysOf (ops : List Op) : Set Bytes := { key | ∃ op ∈ ops, op.key? = some key }

theorem after_append (hash : Hash) (session : Session) (before : List Op) (op : Op) :
    session.after hash (before ++ [op]) = ((session.after hash before).step hash op).2 := by
  rw [Session.after, foldl_append]
  rfl

theorem contents_after_append (before : List Op) (op : Op) :
    Contents.after (before ++ [op]) = (Contents.after before).step op := by
  rw [Contents.after, foldl_append]
  rfl

theorem tracks_after {initial : Digest → Option Bytes} {ops : List Op}
    (free : InjOn hashes.sha3 (hashedInputs hashes.sha3 initial ops)) {before rest : List Op}
    (split : ops = before ++ rest) :
    Tracks hashes.sha3 (keysOf ops) ((Session.start hashes.sha3 initial).after hashes.sha3 before)
      (Contents.after before) := by
  induction before using reverseRecOn generalizing rest with
  | nil => exact tracks_start hashes.sha3 (keysOf ops) initial
  | append_singleton before op ih =>
    rw [append_assoc] at split
    have front : before <+: ops := by
      rw [split]
      exact prefix_append _ _
    rw [after_append, contents_after_append]
    apply (step_right free _ (Or.inl rfl) (ih split) _ _).2
    · exact fun key mem => Or.inr (Or.inl mem)
    · exact fun entry mem => Or.inr (Or.inr ⟨before, front, entry.1, mem⟩)
    · intro key eq
      refine ⟨op, ?_, eq⟩
      rw [split]
      exact mem_append_right _ mem_cons_self

/-- Over a store that returns what was written, every operation is answered as the map from keys
to values answers it, and a commit returns the root that is computed from scratch for the map. -/
theorem trie_is_map (hashes : FullHashes) (initial : Digest → Option Bytes) (ops : List Op)
    (free : InjOn hashes.sha3 (hashedInputs hashes.sha3 initial ops)) :
    ∀ before op rest, ops = before ++ op :: rest →
      Right hashes (Contents.after before) op
        (((Session.start hashes.sha3 initial).after hashes.sha3 before).step hashes.sha3 op).1 := by
  intro before op rest split
  have front : before <+: ops := by
    rw [split]
    exact prefix_append _ _
  apply (step_right free _ (Or.inl rfl) (tracks_after free split) _ _).1
  · exact fun key mem => Or.inr (Or.inl mem)
  · exact fun entry mem => Or.inr (Or.inr ⟨before, front, entry.1, mem⟩)
  · intro key eq
    refine ⟨op, ?_, eq⟩
    rw [split]
    exact mem_append_right _ mem_cons_self

/-! Two keys that share a nibble are committed below a branch, one of them is deleted, and a third
is committed in its place. -/

def sampleHashes : FullHashes :=
  ⟨residueHash, fun input => ⟨(input ++ replicate 32 0).take 32, by simp⟩⟩

def sampleOps : List Op :=
  [.set [1] ⟨[7], by decide⟩, .set [2] ⟨[8], by decide⟩, .commit, .reopen, .get [1], .delete [1],
    .set [3] ⟨[9], by decide⟩, .commit, .get [1], .get [2]]

def sampleSession (ops : List Op) : Session :=
  (Session.start residueHash fun _ => none).after residueHash ops

def sampleInputs : List Bytes :=
  [[0x80], [1], [2], [3]] ++ sampleOps.inits.flatMap fun before =>
    (sampleSession before).handle.store.writes.map Prod.snd

theorem sample_inputs {bytes : Bytes}
    (mem : bytes ∈ hashedInputs residueHash (fun _ => none) sampleOps) :
    bytes ∈ sampleInputs := by
  have keys : ∀ op ∈ sampleOps, ∀ key ∈ op.key?, key ∈ [[0x80], [1], [2], [3]] := by decide
  rcases mem with rfl | ⟨op, mem, key⟩ | ⟨before, front, digest, has⟩
  · exact mem_append_left _ mem_cons_self
  · exact mem_append_left _ (keys op mem bytes key)
  · exact mem_append_right _
      (mem_flatMap.mpr ⟨before, (mem_inits _ _).mpr front, mem_map.mpr ⟨_, has, rfl⟩⟩)

theorem sampleInputs_apart : ∀ first ∈ sampleInputs, ∀ second ∈ sampleInputs,
    residueHash first = residueHash second → first = second := by
  decide +kernel

theorem trie_is_map_branch :
    ((sampleSession (sampleOps.take 4)).step residueHash (.get [1])).1 = .found (some [7]) ∧
      ((sampleSession (sampleOps.take 8)).step residueHash (.get [1])).1 = .found none ∧
      ((sampleSession (sampleOps.take 9)).step residueHash (.get [2])).1 = .found (some [8]) := by
  have right := trie_is_map sampleHashes (fun _ => none) sampleOps
    (injOn_of_listed sampleInputs sampleInputs_apart fun _ => sample_inputs)
  exact ⟨right (sampleOps.take 4) (.get [1]) (sampleOps.drop 5) rfl,
    right (sampleOps.take 8) (.get [1]) (sampleOps.drop 9) rfl,
    right (sampleOps.take 9) (.get [2]) [] rfl⟩

end DnaLedger.Trie
