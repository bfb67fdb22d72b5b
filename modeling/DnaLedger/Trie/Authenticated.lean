import DnaLedger.Trie.History

/-!
# Reads that cannot be forged

A lookup that returns a value returns the one that was committed for the key, and one that returns
nothing is for a key without a value; every other lookup fails. The store is the list of its
answers.
-/

namespace DnaLedger.Trie

open Program List
open Patricia (Canonical)

/-- A store that gives fixed answers, one for each call, and none when they are used up. -/
def answerStore : NodeStore (List (Option Bytes)) where
  get answers _ := (answers.head?.join, answers.tail)
  put answers _ _ := (true, answers)

def lookups (hash : Hash) : List Bytes → Handle (List (Option Bytes)) →
    List (Except Failure (Option Bytes))
  | [], _ => []
  | key :: keys, handle =>
    (exec (evmTrieGet hash answerStore key) handle).1 ::
      lookups hash keys (exec (evmTrieGet hash answerStore key) handle).2

section

variable {hash : Hash} {inputs : Set Bytes}

theorem answerStore_serves (has : Digest → Bytes → Prop) (known : ∀ d b, has d b → b ∈ inputs) :
    Serves answerStore inputs has False
      fun answers => ∀ rlp, some rlp ∈ answers → rlp ∈ inputs where
  keeps := fun holds _ rlp mem => holds rlp (mem_of_mem_tail mem)
  answers := by
    intro answers holds digest kept rlp _ found
    cases answers with
    | nil => cases found
    | cons answer rest =>
      have eq : answer = some rlp := found
      exact holds rlp (eq ▸ mem_cons_self)
  known := fun has => known _ _ has
  serves := fun impossible => impossible.elim

/-- A handle that stands for a tree, or is faulty. -/
def Standing (hash : Hash) (inputs : Set Bytes) (tree : Tree)
    (handle : Handle (List (Option Bytes))) : Prop :=
  handle.fault = true ∨ Denotes hash (fun _ rlp => rlp ∈ inputs) true handle.root tree ∧
    ∀ rlp, some rlp ∈ handle.store → rlp ∈ inputs

variable {keys : Set Bytes} {map : Bytes → Option Bytes} {tree : Tree}

theorem get_standing (free : Set.InjOn hash inputs) (within : keys ⊆ inputs)
    (treeOf : TreeOf hash keys map tree) {handle : Handle (List (Option Bytes))}
    (standing : Standing hash inputs tree handle) {key : Bytes} (mem : key ∈ keys) :
    Standing hash inputs tree (exec (evmTrieGet hash answerStore key) handle).2 ∧
      ∀ value, (exec (evmTrieGet hash answerStore key) handle).1 = .ok value → value = map key := by
  have run : exec (evmTrieGet hash answerStore key) handle =
      if handle.fault = true then (.error .fault, handle)
      else
        match exec (getPath hash answerStore walkSteps handle.root (pathOf hash key))
          handle.store with
        | (.ok (root, value), store) => (.ok value, { handle with root := root, store := store })
        | (.error _, store) => (.error .fault, { handle with fault := true, store := store }) := by
    simp only [evmTrieGet, evmTrieGetPath, onRoot, exec_bind, exec_get, exec_ite, exec_throw,
      pathOf]
    split
    next => rfl
    next =>
      rcases exec (getPath hash answerStore walkSteps handle.root (pathToNibbles (hash key)))
        handle.store with ⟨code | ⟨root, value⟩, store⟩
      · rfl
      · rfl
  rw [run]
  rcases standing with faulty | ⟨denotes, answers⟩
  · rw [if_pos faulty]
    exact ⟨Or.inl faulty, fun _ eq => by cases eq⟩
  · by_cases faulty : handle.fault = true
    · rw [if_pos faulty]
      exact ⟨Or.inl faulty, fun _ eq => by cases eq⟩
    · rw [if_neg faulty]
      obtain ⟨canon, height, enough⟩ := treeOf.at_path key
      obtain ⟨kept, good, -⟩ := getPath_ensures
        (answerStore_serves _ fun _ _ known => known) free denotes canon treeOf.fair height.le
        enough handle.store answers
      rcases walked : exec (getPath hash answerStore walkSteps handle.root (pathOf hash key))
        handle.store with ⟨code | ⟨root, value⟩, store⟩
      · exact ⟨Or.inl rfl, fun _ eq => by cases eq⟩
      · rw [walked] at kept good
        obtain ⟨stands, eq⟩ := good _ rfl
        refine ⟨Or.inr ⟨stands.atTop, kept⟩, ?_⟩
        rintro _ ⟨⟩
        exact eq.trans (treeOf.lookup (free.mono within) mem)

/-- A result that is an error or the value of the map. -/
def Authentic (map : Bytes → Option Bytes) (key : Bytes) :
    Except Failure (Option Bytes) → Prop
  | .ok value => value = map key
  | .error _ => True

theorem lookups_authentic (free : Set.InjOn hash inputs) (within : keys ⊆ inputs)
    (treeOf : TreeOf hash keys map tree) (asked : List Bytes) (mem : ∀ key ∈ asked, key ∈ keys)
    {handle : Handle (List (Option Bytes))} (standing : Standing hash inputs tree handle) :
    Forall₂ (Authentic map) asked (lookups hash asked handle) := by
  induction asked generalizing handle with
  | nil => exact .nil
  | cons key asked ih =>
    obtain ⟨next, good⟩ :=
      get_standing free within treeOf standing (mem key mem_cons_self)
    refine .cons ?_ (ih (fun key later => mem key (mem_cons_of_mem _ later)) next)
    cases result : (exec (evmTrieGet hash answerStore key) handle).1 with
    | error => trivial
    | ok value => exact good value result

theorem TreeOf.mono {more : Set Bytes} (within : keys ⊆ more) (treeOf : TreeOf hash keys map tree) :
    TreeOf hash more map tree :=
  { treeOf with among := fun key value held => within (treeOf.among key value held) }

end

/-- All byte strings hashed for lookups at a committed root over a store with these answers, or
before. -/
def lookupInputs (hash : Hash) (initial : Digest → Option Bytes) (ops : List Op)
    (answers : List (Option Bytes)) (asked : List Bytes) : Set Bytes :=
  hashedInputs hash initial ops ∪ { bytes | bytes ∈ asked ∨ some bytes ∈ answers }

/-- Over a store with any answers, a lookup returns the committed value or fails, and the decoder
takes only what the encoder gives. -/
theorem reads_authentic (hashes : FullHashes) (initial : Digest → Option Bytes) (ops : List Op)
    (answers : List (Option Bytes)) (asked : List Bytes)
    (free : Set.InjOn hashes.sha3 (lookupInputs hashes.sha3 initial ops answers asked)) :
    List.Forall₂ (Authentic (Contents.after ops).committed) asked
        (lookups hashes.sha3 asked (evmTrieOpen hashes.sha3 answers
          ((Session.start hashes.sha3 initial).after hashes.sha3 ops).committed)) ∧
      ∀ (room depth : Nat) (expectBranch : Bool) (bytes : Bytes) (node : TNode),
        decodeNode room expectBranch depth bytes = some node →
          ∀ (σ : Type) (store : NodeStore σ) (state : σ),
            exec (nodeEncode hashes.sha3 store false node) state = (.ok bytes, state) := by
  constructor
  · have tracks := tracks_after (free.mono Set.subset_union_left) (append_nil ops).symm
    obtain ⟨tree, root, kept, stored, treeOf⟩ := tracks.saved
    have written : ∀ digest rlp,
        ((Session.start hashes.sha3 initial).after hashes.sha3 ops).handle.store.Has digest rlp →
          rlp ∈ lookupInputs hashes.sha3 initial ops answers asked := fun digest rlp has =>
      Or.inl (Or.inr (Or.inr ⟨ops, prefix_refl ops, digest, has⟩))
    have within : keysOf ops ∪ { key | key ∈ asked } ⊆
        lookupInputs hashes.sha3 initial ops answers asked := by
      rintro key (mem | mem)
      · exact Or.inl (Or.inr (Or.inl mem))
      · exact Or.inr (Or.inl mem)
    apply lookups_authentic free within (treeOf.mono Set.subset_union_left) asked
    · exact fun key mem => Or.inr mem
    · refine Or.inr ⟨?_, fun rlp mem => Or.inr (Or.inr mem)⟩
      rw [root]
      by_cases there : tree = .empty
      · have opened : (evmTrieOpen hashes.sha3 answers (rootOf hashes.sha3 tree)).root = .null := by
          rw [there]
          exact if_pos rfl
        rw [opened, there]
        exact .null
      · have apart : rootOf hashes.sha3 tree ≠ emptyRoot hashes.sha3 :=
          rootOf_ne_emptyRoot free (Or.inl (Or.inl rfl)) treeOf.canonical treeOf.fair there
            (written _ _ (kept there))
        have opened : (evmTrieOpen hashes.sha3 answers (rootOf hashes.sha3 tree)).root =
            .ref (hashes.sha3 (encode hashes.sha3 tree)) true false := by
          rw [← @rootOf_of_ne hashes.sha3 tree there]
          exact if_neg apart
        rw [opened]
        exact .ref there (Or.inl ⟨rfl, rfl⟩) (fun flag => by cases flag)
          (written _ _ (kept there)) (stored.mono written)
  · intro room depth expectBranch bytes node read σ store state
    exact (faithful_decodeNode room expectBranch depth bytes node read).2.2 state

/-- What the sample session wrote, the last node first. -/
def sampleAnswers : List (Option Bytes) :=
  (sampleSession sampleOps).handle.store.writes.map (some ·.2)

/-- The sample session, read over a store that answers each node once. -/
theorem reads_authentic_branch :
    let looked := lookups residueHash [[1], [3], [2]]
      (evmTrieOpen residueHash sampleAnswers (sampleSession sampleOps).committed)
    looked = [.ok none, .ok (some [9]), .ok (some [8])] ∧
      List.Forall₂ (Authentic (Contents.after sampleOps).committed) [[1], [3], [2]] looked := by
  intro looked
  have listed : ∀ bytes ∈ lookupInputs residueHash (fun _ => none) sampleOps sampleAnswers
      [[1], [3], [2]], bytes ∈ sampleInputs := by
    have asked : ∀ key ∈ [[1], [3], [2]], key ∈ sampleInputs := by decide +kernel
    have answered : ∀ answer ∈ sampleAnswers, ∀ bytes ∈ answer, bytes ∈ sampleInputs := by
      decide +kernel
    rintro bytes (mem | mem | mem)
    · exact sample_inputs mem
    · exact asked bytes mem
    · exact answered _ mem bytes rfl
  exact ⟨by decide +kernel, (reads_authentic sampleHashes (fun _ => none) sampleOps sampleAnswers
    [[1], [3], [2]] (injOn_of_listed sampleInputs sampleInputs_apart listed)).1⟩

end DnaLedger.Trie
