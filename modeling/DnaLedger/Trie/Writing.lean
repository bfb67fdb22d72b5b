import DnaLedger.Trie.FullRoot

/-!
# Writing a tree

Encoding a node for a commit gives the encoding of the tree behind it, and afterwards every large
part of the tree is in the store: it was written now, or it is unmodified and was written before.
-/

namespace DnaLedger.Trie

open Program List
open Patricia (Canonical)

/-- What a store held at first and what was written since, the last entry first. -/
structure WriteLog where
  initial : Digest → Option Bytes
  writes : List (Digest × Bytes)

def WriteLog.find (log : WriteLog) (digest : Digest) : Option Bytes :=
  match log.writes.find? fun entry => entry.1 = digest with
  | some entry => some entry.2
  | none => log.initial digest

def logStore : NodeStore WriteLog where
  get log digest := (log.find digest, log)
  put log digest rlp := (true, { log with writes := (digest, rlp) :: log.writes })

def WriteLog.Has (log : WriteLog) (digest : Digest) (rlp : Bytes) : Prop :=
  (digest, rlp) ∈ log.writes

/-- Every entry was written under its own digest. -/
def WriteLog.Sound (hash : Hash) (log : WriteLog) : Prop :=
  ∀ entry ∈ log.writes, entry.1 = hash entry.2

/-- A log after more entries were written. -/
def Extends (hash : Hash) (log next : WriteLog) : Prop :=
  ∃ more : List (Digest × Bytes), next = { log with writes := more ++ log.writes } ∧
    ∀ entry ∈ more, entry.1 = hash entry.2

section

variable {hash : Hash} {log next last : WriteLog}

theorem Extends.refl (log : WriteLog) : Extends hash log log :=
  ⟨[], rfl, fun _ mem => absurd mem not_mem_nil⟩

theorem Extends.trans (first : Extends hash log next) (second : Extends hash next last) :
    Extends hash log last := by
  obtain ⟨more, rfl, own⟩ := first
  obtain ⟨more', rfl, own'⟩ := second
  refine ⟨more' ++ more, by simp, ?_⟩
  intro entry mem
  rcases mem_append.mp mem with mem | mem
  · exact own' entry mem
  · exact own entry mem

theorem Extends.has (grown : Extends hash log next) (digest : Digest) (rlp : Bytes)
    (has : log.Has digest rlp) : next.Has digest rlp := by
  obtain ⟨more, rfl, -⟩ := grown
  exact mem_append_right more has

theorem Extends.sound (grown : Extends hash log next) (sound : log.Sound hash) :
    next.Sound hash := by
  obtain ⟨more, rfl, own⟩ := grown
  intro entry mem
  rcases mem_append.mp mem with mem | mem
  · exact own entry mem
  · exact sound entry mem

theorem find_of_has {inputs : Set Bytes} (free : Set.InjOn hash inputs)
    (sound : log.Sound hash) (among : ∀ entry ∈ log.writes, entry.2 ∈ inputs) {digest : Digest}
    {rlp : Bytes} (has : log.Has digest rlp) : log.find digest = some rlp := by
  rw [WriteLog.find]
  cases found : log.writes.find? fun entry => entry.1 = digest with
  | none =>
    have absent := find?_eq_none.mp found (digest, rlp) has
    simp at absent
  | some entry =>
    have mem := mem_of_find?_eq_some found
    have eq : entry.1 = digest := by simpa using find?_some found
    have digests : hash entry.2 = hash rlp := by
      rw [← sound entry mem, eq]
      exact sound _ has
    exact congrArg some (free (among entry mem) (among _ has) digests)

theorem logStore_serves {inputs : Set Bytes} (free : Set.InjOn hash inputs)
    (sound : log.Sound hash) (among : ∀ entry ∈ log.writes, entry.2 ∈ inputs) :
    Serves logStore inputs log.Has True (· = log) where
  keeps := fun holds _ => holds
  answers := by
    rintro _ rfl digest kept rlp has found
    have answer : some rlp = some kept := found.symm.trans (find_of_has free sound among has)
    rw [Option.some.inj answer]
    exact among _ has
  known := fun has => among _ has
  serves := by
    rintro - _ rfl digest rlp has
    exact find_of_has free sound among has

end

variable {hash : Hash}

theorem extends_deposit (log : WriteLog) (rlp : Bytes) :
    Extends hash log { log with writes := (hash rlp, rlp) :: log.writes } := by
  refine ⟨[(hash rlp, rlp)], rfl, ?_⟩
  intro entry mem
  rw [mem_singleton.mp mem]

/-- All proper parts of a tree are kept. -/
def PartsStored (hash : Hash) (has : Digest → Bytes → Prop) : Tree → Prop
  | .extension _ child => Stored hash has child
  | .branch child => ∀ k, Stored hash has (child k)
  | _ => True

variable {has : Digest → Bytes → Prop} {tree : Tree} {node : TNode} {log : WriteLog}

theorem PartsStored.stored (parts : PartsStored hash has tree) (kept : Kept hash has tree) :
    Stored hash has tree := by
  cases tree with
  | empty => trivial
  | leaf => exact kept
  | extension | branch => exact ⟨kept, parts⟩

theorem PartsStored.mono {has' : Digest → Bytes → Prop}
    (more : ∀ digest rlp, has digest rlp → has' digest rlp) (parts : PartsStored hash has tree) :
    PartsStored hash has' tree := by
  cases tree with
  | empty => trivial
  | leaf => trivial
  | extension => exact Stored.mono more parts
  | branch => exact fun k => (parts k).mono more

theorem Denotes.of_knownDigest {top : Bool} (denotes : Denotes hash has top node tree)
    {digest : Digest} (known : node.knownDigest = some digest) :
    digest = hash (encode hash tree) ∧ (top = false → inlineLimit ≤ (encode hash tree).length) ∧
      has (hash (encode hash tree)) (encode hash tree) ∧ Stored hash has tree := by
  have clean : ∀ {mark : Mark} {tree : Tree}, Marked hash has mark tree →
      (if mark.dirty then none else mark.digest) = some digest →
      digest = hash (encode hash tree) ∧ (top = false → inlineLimit ≤ (encode hash tree).length) ∧
        has (hash (encode hash tree)) (encode hash tree) ∧ Stored hash has tree := by
    intro mark tree marked found
    split at found
    next => cases found
    next unmodified =>
      obtain ⟨eq, size, stored⟩ := marked digest (by simpa using unmodified) found
      exact ⟨eq, fun _ => size, stored.kept size, stored⟩
  cases denotes with
  | null => cases known
  | ref _ size _ kept stored =>
    cases known
    refine ⟨rfl, ?_, kept, stored⟩
    rintro rfl
    rcases size with ⟨top, -⟩ | size
    · cases top
    · exact size
  | leaf marked => exact clean marked known
  | ext marked => exact clean marked known
  | branch marked => exact clean marked known

/-- What is written for a child: its parts, and itself when it is large. -/
def WritesChild (hash : Hash) (log : WriteLog) (node : TNode) (tree : Tree) : Prop :=
  ∃ next, exec (putChildRef hash logStore true node (nodeEncode hash logStore true node)) log =
      (.ok (childItem hash tree (encode hash tree)), next) ∧
    Extends hash log next ∧ Stored hash next.Has tree

/-- What is written for a node that is loaded: its parts. -/
def WritesParts (hash : Hash) (log : WriteLog) (node : TNode) (tree : Tree) : Prop :=
  ∃ next, exec (nodeEncode hash logStore true node) log = (.ok (encode hash tree), next) ∧
    Extends hash log next ∧ PartsStored hash next.Has tree

theorem writesChild_of_parts (denotes : Denotes hash log.Has false node tree)
    (writes : node.present = true → node.Loaded → WritesParts hash log node tree) :
    WritesChild hash log node tree := by
  by_cases present : tree = .empty
  · subst present
    cases denotes with
    | null => exact ⟨log, rfl, .refl log, trivial⟩
    | ref present => exact absurd rfl present
  · have there := denotes.present_iff.mpr present
    rw [WritesChild, putChildRef, if_pos there, childItem_of_ne hash present]
    cases known : node.knownDigest with
    | some digest =>
      obtain ⟨rfl, size, -, stored⟩ := denotes.of_knownDigest known
      refine ⟨log, ?_, .refl log, stored⟩
      rw [if_neg (Nat.not_lt.mpr (size rfl))]
      rfl
    | none =>
      obtain ⟨next, run, grown, parts⟩ := writes there (loaded_of_knownDigest known)
      dsimp only
      rw [exec_bind_ok run, embed]
      by_cases small : (encode hash tree).length < inlineLimit
      · rw [if_pos small, if_pos small]
        refine ⟨next, rfl, grown, parts.stored fun size => ?_⟩
        exact absurd size (Nat.not_le.mpr small)
      · have more := @extends_deposit hash next (encode hash tree)
        rw [if_neg small, if_neg small]
        exact ⟨_, rfl, grown.trans more, (parts.mono more.has).stored fun _ => mem_cons_self⟩

theorem writes_children {child : Nibble → TNode} {below : Nibble → Tree}
    (each : ∀ k log, Denotes hash log.Has false (child k) (below k) →
      WritesChild hash log (child k) (below k)) (digits : List Nibble)
    (denotes : ∀ k, Denotes hash log.Has false (child k) (below k)) :
    ∃ next, exec (digits.mapM fun k => putChildRef hash logStore true (child k)
          (nodeEncode hash logStore true (child k))) log =
        (.ok (digits.map fun k => childItem hash (below k) (encode hash (below k))), next) ∧
      Extends hash log next ∧ ∀ k ∈ digits, Stored hash next.Has (below k) := by
  induction digits generalizing log with
  | nil => exact ⟨log, rfl, .refl log, fun _ mem => absurd mem not_mem_nil⟩
  | cons k rest ih =>
    obtain ⟨next, run, grown, stored⟩ := each k log (denotes k)
    obtain ⟨last, run', grown', stored'⟩ := ih fun k => (denotes k).mono grown.has
    refine ⟨last, ?_, grown.trans grown', ?_⟩
    · rw [mapM_cons, exec_bind_ok run, exec_bind_ok run']
      rfl
    · intro other mem
      rcases mem_cons.mp mem with rfl | mem
      · exact stored.mono grown'.has
      · exact stored' other mem

theorem nodeEncode_writes {length : Nat} {top : Bool} (denotes : Denotes hash log.Has top node tree)
    (canon : Canonical length tree) (short : length ≤ pathNibbles)
    (present : node.present = true) (loaded : node.Loaded) :
    WritesParts hash log node tree := by
  induction node generalizing tree length log top with
  | null => cases present
  | ref => exact absurd rfl (loaded _ _ _)
  | leaf mark nib val =>
    cases denotes with
    | leaf marked =>
      have size := canon.of_leaf
      exact ⟨log, encodes_leaf (by omega) mark val log, .refl log, trivial⟩
  | ext mark nib child ih =>
    cases denotes with
    | ext marked inside =>
      obtain ⟨rest, below, size, -, rfl, canon'⟩ := canon.of_extension
      obtain ⟨next, run, grown, stored⟩ := writesChild_of_parts inside
        fun present loaded => ih inside canon' (by omega) present loaded
      refine ⟨next, ?_, grown, stored⟩
      rw [nodeEncode, putCompact, if_neg (by omega), exec_bind_ok (exec_liftExcept _ _),
        exec_bind_ok run]
      rfl
  | branch mark child ih =>
    cases denotes with
    | @branch _ _ _ below marked inside =>
      obtain ⟨rest, -, -, size, canon', -⟩ := canon.of_branch
      have each : ∀ k log, Denotes hash log.Has false (child k) (below k) →
          WritesChild hash log (child k) (below k) := fun k log inside =>
        writesChild_of_parts inside
          fun present loaded => ih k inside (canon' k) (by omega) present loaded
      obtain ⟨next, run, grown, stored⟩ := writes_children each (finRange 16) inside
      refine ⟨next, ?_, grown, fun k => stored k (mem_finRange k)⟩
      rw [nodeEncode, exec_bind_ok run, encode, flatMap_def]
      rfl

/-- A commit returns the root of the tree, and then the whole tree is in the store. -/
theorem commit_writes (denotes : Denotes hash log.Has true node tree)
    (canon : Canonical pathNibbles tree) :
    ∃ root next, exec (commit hash logStore node) log = (.ok (root, rootOf hash tree), next) ∧
      Extends hash log next ∧ Denotes hash next.Has true root tree ∧
      (tree ≠ .empty → next.Has (hash (encode hash tree)) (encode hash tree)) ∧
      Stored hash next.Has tree := by
  by_cases present : tree = .empty
  · subst present
    cases denotes with
    | null => exact ⟨.null, log, rfl, .refl log, .null, fun present => absurd rfl present, trivial⟩
    | ref present => exact absurd rfl present
  · have there := denotes.present_iff.mpr present
    rw [commit, if_pos there, rootOf_of_ne present]
    have root : ∀ {next : WriteLog}, next.Has (hash (encode hash tree)) (encode hash tree) →
        Stored hash next.Has tree →
          Denotes hash next.Has true (.ref (hash (encode hash tree)) true false) tree :=
      fun kept stored => .ref present (Or.inl ⟨rfl, rfl⟩) (fun flag => by cases flag) kept stored
    cases known : node.knownDigest with
    | some digest =>
      obtain ⟨rfl, -, kept, stored⟩ := denotes.of_knownDigest known
      exact ⟨_, log, rfl, .refl log, root kept stored, fun _ => kept, stored⟩
    | none =>
      obtain ⟨next, run, grown, parts⟩ := nodeEncode_writes denotes canon (Nat.le_refl _)
        there (loaded_of_knownDigest known)
      have more := @extends_deposit hash next (encode hash tree)
      have kept : (hash (encode hash tree), encode hash tree) ∈
          (hash (encode hash tree), encode hash tree) :: next.writes := mem_cons_self
      have stored := (parts.mono more.has).stored fun _ => kept
      dsimp only
      rw [exec_bind_ok run]
      exact ⟨_, _, rfl, grown.trans more, root kept stored, fun _ => kept, stored⟩

end DnaLedger.Trie
