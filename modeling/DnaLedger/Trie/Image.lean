import DnaLedger.Foundation.Patricia
import DnaLedger.Trie.Encoding

/-!
# Trees behind the nodes

A node in memory stands for a compressed prefix tree, of which it holds a part; the rest is in the
store, under the digests of the encodings.
-/

namespace DnaLedger.Trie

open Patricia (Canonical)
open List

abbrev Tree := Patricia Nibble Bytes

section

variable (hash : Hash)

/-- What a parent holds for a subtree with the given encoding. -/
def childItem (tree : Tree) (encoded : Bytes) : Bytes :=
  match tree with
  | .empty => putBytes []
  | _ => if encoded.length < inlineLimit then encoded else putBytes (hash encoded).val

def encode : Tree → Bytes
  | .empty => []
  | .leaf rest value => wrapList (putBytes (compact rest true) ++ putBytes value)
  | .extension segment child =>
    wrapList (putBytes (compact segment false) ++ childItem hash child (encode child))
  | .branch child =>
    wrapList ((finRange 16).flatMap (fun k => childItem hash (child k) (encode (child k))) ++
      putBytes [])

theorem childItem_of_ne {tree : Tree} (there : tree ≠ .empty) (encoded : Bytes) :
    childItem hash tree encoded =
      if encoded.length < inlineLimit then encoded else putBytes (hash encoded).val := by
  cases tree with
  | empty => exact absurd rfl there
  | leaf => rfl
  | extension => rfl
  | branch => rfl

end

/-- No object in memory is larger. -/
def valueLimit : Nat := 2 ^ 63

/-- All values of a tree are nonempty and fit the memory. -/
def Fair (tree : Tree) : Prop :=
  ∀ key value, tree.lookup key = some value → 0 < value.length ∧ value.length < valueLimit

theorem Fair.child {child : Nibble → Tree} (fair : Fair (.branch child)) (k : Nibble) :
    Fair (child k) :=
  fun key value found => fair (k :: key) value found

theorem Fair.extension {segment : List Nibble} {child : Tree}
    (fair : Fair (.extension segment child)) : Fair child := by
  intro key value found
  apply fair (segment ++ key)
  rwa [Patricia.lookup_extension_append]

theorem length_makeHeader_le (base length : Nat) : (makeHeader base length).length ≤ 9 := by
  rw [makeHeader]
  split
  next => exact (Nat.le_add_left 1 8 : 1 ≤ 9)
  next =>
    have few := length_lengthBytes_le 8 length
    rw [length_cons, length_reverse]
    omega

theorem length_putBytes_le (data : Bytes) : (putBytes data).length ≤ data.length + 9 := by
  rw [putBytes]
  split
  next => exact Nat.le_add_right _ _
  next =>
    have header := length_makeHeader_le 0x80 data.length
    rw [length_append]
    omega

/-- A bound for what a parent holds for a subtree. -/
def itemLimit : Nat := digestSize + 9

theorem length_childItem_le (hash : Hash) (tree : Tree) (encoded : Bytes) :
    (childItem hash tree encoded).length ≤ itemLimit := by
  have digest := length_putBytes_le (hash encoded).val
  rw [(hash encoded).property] at digest
  by_cases there : tree = .empty
  · rw [there]
    exact (by decide : (putBytes []).length ≤ itemLimit)
  · rw [childItem_of_ne hash there]
    split
    next small =>
      have small' : encoded.length < digestSize := small
      rw [itemLimit]
      omega
    next => exact digest

variable {α : Type} {node : TNode} {length room : Nat} {expectBranch : Bool}

theorem length_flatMap_le (values : List α) (image : α → Bytes) {limit : Nat}
    (each : ∀ value, (image value).length ≤ limit) :
    (values.flatMap image).length ≤ values.length * limit := by
  induction values with
  | nil => exact Nat.zero_le _
  | cons value rest ih =>
    have first := each value
    rw [flatMap_cons, length_append, length_cons, Nat.succ_mul]
    omega

section

variable {hash : Hash}

theorem leaf_fits {rest : List Nibble} {value : Bytes} (short : rest.length ≤ pathNibbles)
    (size : value.length < valueLimit) :
    (putBytes (compact rest true) ++ putBytes value).length < lengthLimit := by
  have key := length_putBytes_le (compact rest true)
  have key' := length_compact_le rest true
  have held := length_putBytes_le value
  rw [valueLimit] at size
  rw [pathNibbles] at short
  rw [length_append, lengthLimit]
  omega

theorem extension_fits {segment : List Nibble} (short : segment.length ≤ pathNibbles) (tree : Tree)
    (encoded : Bytes) :
    (putBytes (compact segment false) ++ childItem hash tree encoded).length < lengthLimit := by
  have key := length_putBytes_le (compact segment false)
  have key' := length_compact_le segment false
  have held := length_childItem_le hash tree encoded
  rw [pathNibbles] at short
  rw [itemLimit, digestSize] at held
  rw [length_append, lengthLimit]
  omega

theorem branch_fits (child : Nibble → Tree) :
    ((finRange 16).flatMap (fun k => childItem hash (child k) (encode hash (child k))) ++
      putBytes []).length < lengthLimit := by
  have held := length_flatMap_le (finRange 16)
    (fun k => childItem hash (child k) (encode hash (child k)))
    (fun k => length_childItem_le hash (child k) (encode hash (child k)))
  have last := length_putBytes_le []
  rw [length_finRange, itemLimit, digestSize] at held
  rw [length_append, lengthLimit]
  exact Nat.lt_of_le_of_lt (Nat.add_le_add held last) (by decide)

theorem exists_payload {length : Nat} {tree : Tree} (canon : Canonical length tree)
    (fits : length ≤ pathNibbles) (fair : Fair tree) (there : tree ≠ .empty) :
    ∃ payload, encode hash tree = wrapList payload ∧ payload.length < lengthLimit := by
  cases canon with
  | nothing => exact absurd rfl there
  | single rest value =>
    obtain ⟨-, size⟩ := fair rest value (Patricia.lookup_leaf_self rest value)
    exact ⟨_, rfl, leaf_fits fits size⟩
  | shared => exact ⟨_, rfl, extension_fits (by omega) _ _⟩
  | @forked _ child => exact ⟨_, rfl, branch_fits child⟩

end

section

variable (hash : Hash) (has : Digest → Bytes → Prop)

/-- A tree whose encoding is large is kept under its digest. -/
def Kept (tree : Tree) : Prop :=
  inlineLimit ≤ (encode hash tree).length → has (hash (encode hash tree)) (encode hash tree)

/-- A tree is kept with all its parts. -/
def Stored : Tree → Prop
  | .empty => True
  | .leaf rest value => Kept hash has (.leaf rest value)
  | .extension segment child => Kept hash has (.extension segment child) ∧ Stored child
  | .branch child => Kept hash has (.branch child) ∧ ∀ k, Stored (child k)

/-- The digest of an unmodified node is that of its tree, which is in the store. -/
def Marked (mark : Mark) (tree : Tree) : Prop :=
  ∀ digest, mark.dirty = false → mark.digest = some digest →
    digest = hash (encode hash tree) ∧ inlineLimit ≤ (encode hash tree).length ∧
      Stored hash has tree

/-- The tree a node stands for.  Only the reference at the top may have a small encoding. -/
inductive Denotes : Bool → TNode → Tree → Prop where
  | null {top : Bool} : Denotes top .null .empty
  | ref {top : Bool} {tree : Tree} {isRoot mustBranch : Bool} (present : tree ≠ .empty)
      (size : top = true ∧ isRoot = true ∨ inlineLimit ≤ (encode hash tree).length)
      (shape : mustBranch = true → ∃ child, tree = .branch child)
      (kept : has (hash (encode hash tree)) (encode hash tree))
      (stored : Stored hash has tree) :
      Denotes top (.ref (hash (encode hash tree)) isRoot mustBranch) tree
  | leaf {top : Bool} {mark : Mark} {nib : List Nibble} {val : Bytes}
      (marked : Marked hash has mark (.leaf nib val)) :
      Denotes top (.leaf mark nib val) (.leaf nib val)
  | ext {top : Bool} {mark : Mark} {nib : List Nibble} {child : TNode} {below : Tree}
      (marked : Marked hash has mark (.extension nib below)) (inside : Denotes false child below) :
      Denotes top (.ext mark nib child) (.extension nib below)
  | branch {top : Bool} {mark : Mark} {child : Nibble → TNode} {below : Nibble → Tree}
      (marked : Marked hash has mark (.branch below))
      (inside : ∀ k, Denotes false (child k) (below k)) :
      Denotes top (.branch mark child) (.branch below)

end

variable {hash : Hash} {has : Digest → Bytes → Prop}
variable {tree : Tree} {depth : Nat}

theorem Stored.kept (stored : Stored hash has tree) : Kept hash has tree := by
  cases tree with
  | empty =>
    intro large
    exact absurd large (by decide : ¬ inlineLimit ≤ 0)
  | leaf => exact stored
  | extension => exact stored.1
  | branch => exact stored.1

theorem marked_touched (tree : Tree) : Marked hash has .touched tree := by
  intro digest clean
  cases clean

theorem marked_clean (tree : Tree) : Marked hash has .clean tree := by
  intro digest _ full
  cases full

theorem Denotes.present_iff {top : Bool} (denotes : Denotes hash has top node tree) :
    node.present = true ↔ tree ≠ .empty := by
  cases denotes with
  | null => simp [TNode.present]
  | ref present => exact ⟨fun _ => present, fun _ => rfl⟩
  | leaf | ext | branch => simp [TNode.present]

theorem Denotes.atTop (denotes : Denotes hash has false node tree) :
    Denotes hash has true node tree := by
  cases denotes with
  | null => exact .null
  | ref there size shape kept stored =>
    refine .ref there (Or.inr (size.resolve_left ?_)) shape kept stored
    rintro ⟨top, -⟩
    cases top
  | leaf marked => exact .leaf marked
  | ext marked inside => exact .ext marked inside
  | branch marked inside => exact .branch marked inside

section

variable {has' : Digest → Bytes → Prop} (more : ∀ digest rlp, has digest rlp → has' digest rlp)

include more

variable {tree : Tree}

theorem Stored.mono (stored : Stored hash has tree) : Stored hash has' tree := by
  induction tree with
  | empty => trivial
  | leaf rest value => exact fun large => more _ _ (stored large)
  | extension segment child ih => exact ⟨fun large => more _ _ (stored.1 large), ih stored.2⟩
  | branch child ih => exact ⟨fun large => more _ _ (stored.1 large), fun k => ih k (stored.2 k)⟩

theorem Marked.mono {mark : Mark} (marked : Marked hash has mark tree) :
    Marked hash has' mark tree := by
  intro digest clean known
  obtain ⟨eq, large, stored⟩ := marked digest clean known
  exact ⟨eq, large, stored.mono more⟩

theorem Denotes.mono {top : Bool} {node : TNode} (denotes : Denotes hash has top node tree) :
    Denotes hash has' top node tree := by
  induction denotes with
  | null => exact .null
  | ref there size shape kept stored =>
    exact .ref there size shape (more _ _ kept) (stored.mono more)
  | leaf marked => exact .leaf (marked.mono more)
  | ext marked _ ih => exact .ext (marked.mono more) ih
  | branch marked _ ih => exact .branch (marked.mono more) ih

end

/-! ## Decoding the encoding of a tree -/

theorem reads_putBytes {data : Bytes} (fits : data.length < lengthLimit) :
    ∃ item, Reads (putBytes data) item ∧ item.isList = false ∧ item.payload = data := by
  obtain ⟨item, -, string, payload, raw⟩ := decodeItem_putBytes fits []
  refine ⟨item, ⟨raw, fun rest => ?_⟩, string, payload⟩
  obtain ⟨other, read, string', payload', raw'⟩ := decodeItem_putBytes fits rest
  have header : other.header = item.header := by
    have joined := raw'.trans raw.symm
    rw [Item.raw, Item.raw, payload, payload'] at joined
    exact append_cancel_right joined
  have eq : other = item := by
    cases other
    cases item
    simp_all
  rw [read, eq]

theorem reads_wrapList {payload : Bytes} (fits : payload.length < lengthLimit) :
    ∃ item, Reads (wrapList payload) item ∧ item.isList = true ∧ item.payload = payload := by
  have read := decodeItem_makeHeader true fits fun string => by cases string
  exact ⟨_, ⟨rfl, read⟩, rfl, rfl⟩

theorem decodeChild_childItem {child : Tree} (canon : Canonical length child)
    (short : length ≤ pathNibbles) (fair : Fair child) (stored : Stored hash has child)
    (decode : Bytes → Option TNode) (expectBranch : Bool)
    (shape : expectBranch = true → ∃ below, child = .branch below)
    (embedded : child ≠ .empty → ∃ node, decode (encode hash child) = some node ∧
      Denotes hash has false node child) :
    ∃ item node, Reads (childItem hash child (encode hash child)) item ∧
      decodeChild decode expectBranch item = some node ∧ Denotes hash has false node child := by
  by_cases there : child = .empty
  · obtain ⟨item, reads, string, payload⟩ := @reads_putBytes [] (by decide)
    subst there
    refine ⟨item, .null, reads, ?_, .null⟩
    have free : expectBranch = false := by
      cases expectBranch with
      | false => rfl
      | true =>
        obtain ⟨below, eq⟩ := shape rfl
        cases eq
    rw [decodeChild, string, payload, free]
    rfl
  · rw [childItem_of_ne hash there]
    split
    next small =>
      obtain ⟨bytes, whole, fits⟩ := exists_payload canon short fair there
      obtain ⟨item, reads, list, -⟩ := reads_wrapList fits
      obtain ⟨node, read, denotes⟩ := embedded there
      rw [← whole] at reads
      refine ⟨item, node, reads, ?_, denotes⟩
      rw [decodeChild, list, if_pos rfl, reads.1, if_neg (Nat.not_le.mpr small), read]
    next large =>
      have size : (hash (encode hash child)).val.length = digestSize :=
        (hash (encode hash child)).property
      obtain ⟨item, reads, string, payload⟩ := @reads_putBytes (hash (encode hash child)).val (by
        rw [size]
        decide)
      have large' := Nat.not_lt.mp large
      refine ⟨item, .ref (hash (encode hash child)) false expectBranch, reads, ?_,
        .ref there (Or.inr large') shape (stored.kept large') stored⟩
      have fits : item.payload.length = digestSize := by rw [payload, size]
      have filled : ¬ item.payload.length = 0 := by
        rw [fits]
        decide
      have eq : (⟨item.payload, fits⟩ : Digest) = hash (encode hash child) := Subtype.ext payload
      rw [decodeChild, string, if_neg Bool.false_ne_true, if_neg filled, dif_pos fits, eq]

theorem decodeNode_list {parts : List Bytes} {items : List Item} (inside : depth ≤ pathNibbles)
    (fits : parts.flatten.length < lengthLimit) (reads : Forall₂ Reads parts items)
    (few : items.length ≤ 17) :
    decodeNode (room + 1) expectBranch depth (wrapList parts.flatten) =
      decodeItems (decodeNode room) expectBranch depth items := by
  obtain ⟨top, read, list, payload⟩ := reads_wrapList fits
  have found := read.2 []
  rw [append_nil] at found
  rw [decodeNode, if_neg (Nat.not_lt.mpr inside), found]
  dsimp only
  rw [list, read.1, payload, splitList_flatten reads few]
  simp only [Bool.not_true, bne_self_eq_false, Bool.or_self, Bool.false_eq_true, if_false]

theorem two_le_length {values : List α} {first second : α} (apart : first ≠ second)
    (mem : first ∈ values) (mem' : second ∈ values) : 2 ≤ values.length := by
  cases values with
  | nil => cases mem
  | cons value rest =>
    cases rest with
    | nil =>
      rw [mem_singleton] at mem mem'
      exact absurd (mem.trans mem'.symm) apart
    | cons => exact Nat.le_add_left 2 _

theorem decodeItems_branch {decode : Bool → Nat → Bytes → Option TNode}
    (inside : depth < pathNibbles) {child : Nibble → Tree} {item : Nibble → Item}
    {node : Nibble → TNode} {last : Item} (string : last.isList = false) (empty : last.payload = [])
    (read : ∀ k, decodeChild (decode false (depth + 1)) false (item k) = some (node k))
    (denotes : ∀ k, Denotes hash has false (node k) (child k)) {first second : Nibble}
    (apart : first ≠ second) (present : child first ≠ .empty)
    (present' : child second ≠ .empty) :
    decodeItems decode expectBranch depth ((finRange 16).map item ++ [last]) =
      some (.branch .clean node) := by
  have size : ((finRange 16).map item).length = 16 := by
    rw [length_map, length_finRange]
  have shape : decodeItems decode expectBranch depth ((finRange 16).map item ++ [last]) =
      decodeBranch (decode false) depth ((finRange 16).map item ++ [last]) := rfl
  have front : ((finRange 16).map item ++ [last]).take 16 = (finRange 16).map item :=
    take_left' size
  have back : ((finRange 16).map item ++ [last]).drop 16 = [last] := drop_left' size
  have good : ¬ (last.isList = true ∨ last.payload.length ≠ 0) := by
    rw [string, empty]
    rintro (list | full)
    · cases list
    · exact full rfl
  have children : ((finRange 16).map item).mapM
      (decodeChild (decode false (depth + 1)) false) = some ((finRange 16).map node) := by
    rw [mapM_map]
    exact mapM_eq_some_map fun k _ => read k
  have count : ¬ ((finRange 16).map node).countP TNode.present < 2 := by
    rw [countP_map, countP_eq_length_filter, Nat.not_lt]
    apply two_le_length apart
    · exact mem_filter.mpr ⟨mem_finRange _, (denotes first).present_iff.mpr present⟩
    · exact mem_filter.mpr ⟨mem_finRange _, (denotes second).present_iff.mpr present'⟩
  rw [shape, decodeBranch, if_neg (Nat.not_le.mpr inside), back]
  dsimp only
  rw [if_neg good, front, children]
  dsimp only
  rw [if_neg count]
  congr 2
  funext k
  have inside : k.val < ((finRange 16).map node).length := by
    rw [length_map, length_finRange]
    exact k.isLt
  rw [getD_eq_getElem _ _ inside, getElem_map, getElem_finRange]
  rfl

theorem decodeNode_encode (canon : Canonical length tree) (fair : Fair tree)
    (stored : Stored hash has tree) (present : tree ≠ .empty) {mustBranch : Bool}
    (position : length + depth = pathNibbles) (enough : pathNibbles < room + depth)
    (shape : mustBranch = true → ∃ child, tree = .branch child) :
    ∃ node, decodeNode room mustBranch depth (encode hash tree) = some node ∧
      Denotes hash has false node tree := by
  induction canon generalizing room depth mustBranch with
  | nothing => exact absurd rfl present
  | single rest value =>
    obtain ⟨filled, size⟩ := fair rest value (Patricia.lookup_leaf_self rest value)
    have short : rest.length ≤ pathNibbles := by omega
    have flag : mustBranch = false := by
      cases mustBranch with
      | false => rfl
      | true =>
        obtain ⟨child, eq⟩ := shape rfl
        cases eq
    obtain ⟨room, rfl⟩ : ∃ less, room = less + 1 := ⟨room - 1, by omega⟩
    have keySize := length_compact_le rest true
    obtain ⟨key, reads, string, payload⟩ := @reads_putBytes (compact rest true) (by
      rw [pathNibbles] at short
      rw [lengthLimit]
      omega)
    obtain ⟨held, reads', string', payload'⟩ := @reads_putBytes value (by
      rw [valueLimit] at size
      rw [lengthLimit]
      omega)
    have parts : putBytes (compact rest true) ++ putBytes value =
        [putBytes (compact rest true), putBytes value].flatten := by simp
    have fits := leaf_fits short size
    have good : ¬ (rest.length ≠ pathNibbles - depth ∨ held.isList = true ∨
        held.payload.length = 0) := by
      rw [string', payload']
      rintro (long | list | empty)
      · omega
      · cases list
      · omega
    refine ⟨.leaf .clean rest value, ?_, .leaf (marked_clean _)⟩
    rw [parts] at fits
    rw [encode, parts,
      decodeNode_list (by omega) fits (.cons reads (.cons reads' .nil)) (by simp), decodeItems]
    rw [flag, if_neg Bool.false_ne_true, decodePair, readCompact_compact short true string payload]
    dsimp only
    rw [if_neg good, payload']
  | @shared length segment child filled below ih =>
    have segmentPos : 0 < segment.length := length_pos_iff.mpr filled
    have lengthPos : 0 < length := by
      cases below
      exact Nat.succ_pos _
    have flag : mustBranch = false := by
      cases mustBranch with
      | false => rfl
      | true =>
        obtain ⟨child, eq⟩ := shape rfl
        cases eq
    obtain ⟨room, rfl⟩ : ∃ less, room = less + 1 := ⟨room - 1, by omega⟩
    have keySize := length_compact_le segment false
    have short : segment.length ≤ pathNibbles := by omega
    obtain ⟨key, reads, string, payload⟩ := @reads_putBytes (compact segment false) (by
      rw [pathNibbles] at short
      rw [lengthLimit]
      omega)
    obtain ⟨held, node, reads', read, denotes⟩ := decodeChild_childItem below (by omega)
      fair.extension stored.2 (decodeNode room true (depth + segment.length)) true
      (fun _ => ⟨child, rfl⟩) fun there =>
        ih fair.extension stored.2 there (by omega) (by omega) fun _ => ⟨child, rfl⟩
    have parts : putBytes (compact segment false) ++
        childItem hash (.branch child) (encode hash (.branch child)) =
          [putBytes (compact segment false),
            childItem hash (.branch child) (encode hash (.branch child))].flatten := by simp
    have fits := @extension_fits hash segment short (.branch child) (encode hash (.branch child))
    have good : ¬ (segment.length = 0 ∨ pathNibbles ≤ depth + segment.length) := by omega
    refine ⟨.ext .clean segment node, ?_, .ext (marked_clean _) denotes⟩
    rw [parts] at fits
    rw [encode, parts,
      decodeNode_list (by omega) fits (.cons reads (.cons reads' .nil)) (by simp), decodeItems]
    rw [flag, if_neg Bool.false_ne_true, decodePair, readCompact_compact short false string payload]
    dsimp only
    rw [if_neg good, read]
    cases denotes <;> rfl
  | @forked length child below first second apart presence presence' ih =>
    obtain ⟨room, rfl⟩ : ∃ less, room = less + 1 := ⟨room - 1, by omega⟩
    have each : ∀ k, ∃ item node, Reads (childItem hash (child k) (encode hash (child k))) item ∧
        decodeChild (decodeNode room false (depth + 1)) false item = some node ∧
          Denotes hash has false node (child k) := by
      intro k
      apply decodeChild_childItem (below k) (by omega) (fair.child k) (stored.2 k)
      · intro flag
        cases flag
      · intro there
        apply ih k (fair.child k) (stored.2 k) there (by omega) (by omega)
        intro flag
        cases flag
    choose item node reads read denotes using each
    obtain ⟨last, readsLast, string, empty⟩ := @reads_putBytes [] (by decide)
    have parts : (finRange 16).flatMap
        (fun k => childItem hash (child k) (encode hash (child k))) ++ putBytes [] =
          ((finRange 16).map (fun k => childItem hash (child k) (encode hash (child k))) ++
            [putBytes []]).flatten := by
      rw [flatten_append, flatMap_def, flatten_singleton]
    have rows : Forall₂ Reads
        ((finRange 16).map (fun k => childItem hash (child k) (encode hash (child k))) ++
          [putBytes []]) ((finRange 16).map item ++ [last]) := by
      apply rel_append
      · rw [forall₂_map_left_iff, forall₂_map_right_iff, forall₂_same]
        exact fun k _ => reads k
      · exact .cons readsLast .nil
    have fits := @branch_fits hash child
    have few : ((finRange 16).map item ++ [last]).length ≤ 17 := by
      rw [length_append, length_map, length_finRange]
      exact Nat.le_refl 17
    rw [parts] at fits
    refine ⟨.branch .clean node, ?_, .branch (marked_clean _) denotes⟩
    rw [encode, parts, decodeNode_list (by omega) fits rows few]
    exact decodeItems_branch (by omega) string empty read denotes apart presence presence'

end DnaLedger.Trie
