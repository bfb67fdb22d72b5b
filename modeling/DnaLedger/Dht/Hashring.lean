import DnaLedger.Foundation.Bytes
import DnaLedger.Foundation.Sorting
import Mathlib.Data.List.Rotate
import Mathlib.Data.Prod.Lex

/-!
# The hash ring of the channels

The nodes stand on a ring in the order of their ids, and a channel belongs to the nodes that a walk
clockwise from its key meets first.
-/

namespace DnaLedger.Dht

open List

def ringMaxNodes : Nat := 256

/-- `NODUS_R` -/
def replicas : Nat := 8

structure RingMember where
  nodeId : Digest
  ip : Bytes
  tcpPort : UInt16
  deriving DecidableEq

/-- `nodus_hashring_t`, with the first `count` entries of its array. -/
structure Hashring where
  members : List RingMember
  version : UInt32
  sorted : Bool

def Hashring.init : Hashring := ⟨[], 1, true⟩

/-- `member_cmp` -/
def memberLess (a b : RingMember) : Bool := a.nodeId < b.nodeId

section

variable (ring : Hashring)

def Hashring.ensureSorted : Hashring :=
  if ring.sorted = false ∧ 1 < ring.members.length then
    { ring with members := Sorting.insertionSort memberLess ring.members, sorted := true }
  else ring

def Hashring.contains (nodeId : Digest) : Bool :=
  ring.members.any (·.nodeId = nodeId)

def Hashring.add (nodeId : Digest) (ip : Bytes) (tcpPort : UInt16) : Option Hashring :=
  if ringMaxNodes ≤ ring.members.length ∨ ring.contains nodeId then none
  else some ⟨ring.members ++ [⟨nodeId, ip.take 63, tcpPort⟩], ring.version + 1, false⟩

def Hashring.remove (nodeId : Digest) : Option Hashring :=
  if ring.contains nodeId then
    some ⟨ring.members.eraseP (·.nodeId = nodeId), ring.version + 1, ring.sorted⟩
  else none

/-- The bisection between `lo` and `hi`, where `hi` is one past the last candidate. -/
def bisect (members : List RingMember) (key : Digest) : Nat → Nat → Nat → Option Nat → Option Nat
  | 0, _, _, found => found
  | steps + 1, lo, hi, found =>
    if lo < hi then
      let mid := (lo + hi - 1) / 2
      -- a member that is not behind the key is the best start so far
      if members[mid]?.any (key ≤ ·.nodeId) then bisect members key steps lo mid (some mid)
      else bisect members key steps (mid + 1) hi found
    else found

def Hashring.responsibleForKey (key : Digest) : Option (List RingMember) × Hashring :=
  if ring.members = [] then (none, ring)
  else
    let ring := ring.ensureSorted
    let count := ring.members.length
    let start := (bisect ring.members key count 0 count none).getD 0
    ((range (min count replicas)).filterMap fun i => ring.members[(start + i) % count]?, ring)

inductive RingCall where
  | add (nodeId : Digest) (ip : Bytes) (tcpPort : UInt16)
  | remove (nodeId : Digest)
  | responsible (key : Digest)

def Hashring.step : RingCall → Hashring
  | .add nodeId ip tcpPort => (ring.add nodeId ip tcpPort).getD ring
  | .remove nodeId => (ring.remove nodeId).getD ring
  | .responsible key => (ring.responsibleForKey key).2

def Hashring.run (calls : List RingCall) : Hashring := calls.foldl step ring

end

/-- The members after a call, in no order: an id enters once, while there is room. -/
def register (members : List RingMember) : RingCall → List RingMember
  | .add nodeId ip tcpPort =>
    if members.length < ringMaxNodes ∧ ∀ member ∈ members, member.nodeId ≠ nodeId then
      ⟨nodeId, ip.take 63, tcpPort⟩ :: members
    else members
  | .remove nodeId => members.filter (·.nodeId ≠ nodeId)
  | .responsible _ => members

/-- Where a walk from the key meets a member: the members behind the key come last. -/
def clock (key : Digest) (member : RingMember) : Bool ×ₗ Digest :=
  toLex (member.nodeId < key, member.nodeId)

/-- The members in the order in which a walk from the key meets them. -/
def clockwise (key : Digest) (members : List RingMember) : List RingMember :=
  Sorting.insertionSort (fun a b => clock key a < clock key b) members

open Sorting

variable {key : Digest} {members : List RingMember}

theorem clock_lt_clock {a b : RingMember} : clock key a < clock key b ↔
    (key ≤ a.nodeId ∧ b.nodeId < key) ∨
      ((a.nodeId < key ↔ b.nodeId < key) ∧ a.nodeId < b.nodeId) := by
  rw [clock, clock, Prod.Lex.toLex_lt_toLex]
  by_cases before : a.nodeId < key <;> by_cases other : b.nodeId < key <;>
    simp [before, other, not_lt.mp, Bool.lt_iff]

theorem nodup_clock (nodup : (members.map (·.nodeId)).Nodup) : (members.map (clock key)).Nodup := by
  refine Nodup.of_map (fun place => (ofLex place).2) ?_
  rwa [map_map]

theorem sortedBy_clockwise (nodup : (members.map (·.nodeId)).Nodup) :
    SortedBy (clock key) (clockwise key members) :=
  sortedBy_insertionSort (fun a b => by simp) (nodup_clock nodup)

theorem mem_clockwise {member : RingMember} : member ∈ clockwise key members ↔ member ∈ members :=
  mem_insertionSort

theorem eq_clockwise {walk : List RingMember} (nodup : (members.map (·.nodeId)).Nodup)
    (sorted : SortedBy (clock key) walk) (eq : ∀ member, member ∈ walk ↔ member ∈ members) :
    walk = clockwise key members :=
  sorted.eq_of_mem_iff (sortedBy_clockwise nodup) fun member => by rw [eq, mem_clockwise]

theorem bisect_eq {below above : List RingMember} (behind : ∀ member ∈ below, member.nodeId < key)
    (ahead : ∀ member ∈ above, key ≤ member.nodeId) {steps lo hi : Nat} {found : Option Nat}
    (low : lo ≤ below.length) (high : below.length ≤ hi) (fits : hi ≤ (below ++ above).length)
    (enough : hi - lo ≤ steps)
    (candidate : found = if hi < (below ++ above).length then some hi else none) :
    bisect (below ++ above) key steps lo hi found =
      if below.length < (below ++ above).length then some below.length else none := by
  induction steps generalizing lo hi found with
  | zero =>
    obtain rfl : hi = below.length := by omega
    exact candidate
  | succ steps ih =>
    rw [bisect]
    split
    next apart =>
      have inside : (lo + hi - 1) / 2 < (below ++ above).length := by omega
      dsimp only
      by_cases side : (lo + hi - 1) / 2 < below.length
      · rw [getElem?_append_left side, getElem?_eq_getElem side, Option.any_some,
          if_neg (by simpa using behind _ (getElem_mem side))]
        exact ih (by omega) high fits (by omega) candidate
      · have rest : (lo + hi - 1) / 2 - below.length < above.length := by
          rw [length_append] at inside
          omega
        rw [getElem?_append_right (by omega), getElem?_eq_getElem rest, Option.any_some,
          if_pos (by simpa using ahead _ (getElem_mem rest))]
        exact ih low (by omega) (by omega) (by omega) (by rw [if_pos inside])
    next =>
      obtain rfl : hi = below.length := by omega
      exact candidate

theorem exists_split (key : Digest) (sorted : SortedBy (·.nodeId) members) :
    ∃ below above, members = below ++ above ∧ (∀ member ∈ below, member.nodeId < key) ∧
      ∀ member ∈ above, key ≤ member.nodeId := by
  refine ⟨members.filter (·.nodeId < key), members.filter (key ≤ ·.nodeId),
    sorted.eq_of_mem_iff (pairwise_append.mpr ⟨sorted.filter _, sorted.filter _, ?_⟩) ?_, by simp,
    by simp⟩
  · intro a behind b ahead
    rw [mem_filter, decide_eq_true_eq] at behind ahead
    exact behind.2.trans_le ahead.2
  · intro member
    rw [mem_append, mem_filter, mem_filter, decide_eq_true_eq, decide_eq_true_eq, ← and_or_left,
      and_iff_left (lt_or_ge _ _)]

theorem filterMap_range_eq_take (start : Nat) {want : Nat} (fits : want ≤ members.length) :
    (range want).filterMap (fun i => members[(start + i) % members.length]?) =
      (members.rotate start).take want := by
  induction want with
  | zero => rfl
  | succ want ih =>
    rw [range_succ, filterMap_append, ih (by omega), take_add_one, getElem?_rotate (by omega),
      Nat.add_comm want, filterMap_cons, filterMap_nil]
    cases members[(start + want) % members.length]? <;> rfl

theorem walk_eq_clockwise (sorted : SortedBy (·.nodeId) members) :
    (range (min members.length replicas)).filterMap (fun i =>
      members[((bisect members key members.length 0 members.length none).getD 0 + i) %
        members.length]?) = (clockwise key members).take replicas := by
  rw [filterMap_range_eq_take _ (Nat.min_le_left _ _)]
  have distinct := sorted.nodup
  obtain ⟨below, above, rfl, behind, ahead⟩ := exists_split key sorted
  obtain ⟨first, second, apart⟩ := pairwise_append.mp sorted
  have walk : above ++ below = clockwise key (below ++ above) := by
    refine eq_clockwise distinct (pairwise_append.mpr ⟨?_, ?_, ?_⟩) (by simp [or_comm])
    · refine second.imp_of_mem fun {a b} inside other less => clock_lt_clock.mpr (Or.inr ⟨?_, less⟩)
      simp [not_lt.mpr, ahead a inside, ahead b other]
    · refine first.imp_of_mem fun {a b} inside other less => clock_lt_clock.mpr (Or.inr ⟨?_, less⟩)
      simp [behind a inside, behind b other]
    · exact fun a inside b other => clock_lt_clock.mpr (Or.inl ⟨ahead a inside, behind b other⟩)
  rw [bisect_eq behind ahead (Nat.zero_le _) (by simp) (le_refl _) (Nat.sub_le _ _) (by simp)]
  have rotated : (below ++ above).rotate ((if below.length < (below ++ above).length then
      some below.length else none).getD 0) = above ++ below := by
    split
    next => exact rotate_append_length_eq below above
    next empty =>
      have : above = [] := by
        rw [length_append] at empty
        exact eq_nil_of_length_eq_zero (by omega)
      simp [this]
  have size : (clockwise key (below ++ above)).length = _ := length_insertionSort _ _
  rw [rotated, walk, Nat.min_comm, ← take_take, take_of_length_le size.le]

section

variable {α : Type} {front back : List α} {item : α} {limit : Nat}

theorem take_insert :
    (∀ other ∈ (front ++ item :: back).take limit,
      other = item ∨ other ∈ (front ++ back).take limit) ∧
      ∃ out, ∀ other ∈ (front ++ back).take limit,
        other ∈ (front ++ item :: back).take limit ∨ other = out := by
  rw [take_append, take_append]
  cases limit - front.length with
  | zero => exact ⟨fun _ => Or.inr, item, fun _ => Or.inl⟩
  | succ more =>
    rw [take_succ_cons, take_add_one]
    refine ⟨?_, back[more]?.getD item, ?_⟩
    · simp only [mem_append, mem_cons]
      tauto
    · intro other inside
      simp only [mem_append, mem_cons, Option.mem_toList] at inside ⊢
      rcases inside with early | kept | last
      · exact Or.inl (Or.inl early)
      · exact Or.inl (Or.inr (Or.inr kept))
      · exact Or.inr (by rw [last]; rfl)

theorem take_erase (absent : item ∉ (front ++ item :: back).take limit) :
    (front ++ item :: back).take limit = (front ++ back).take limit := by
  have short : limit ≤ front.length := by
    by_contra long
    refine absent (mem_take_iff_getElem.mpr ⟨front.length, by simp; omega, by simp⟩)
  rw [take_append_of_le_length short, take_append_of_le_length short]

end

theorem clockwise_split {fewer : List RingMember} {member : RingMember} (key : Digest)
    (nodup : (members.map (·.nodeId)).Nodup) (perm : members.Perm (member :: fewer)) :
    ∃ front back, clockwise key members = front ++ member :: back ∧
      clockwise key fewer = front ++ back := by
  have sorted : SortedBy (clock key) (clockwise key members) := sortedBy_clockwise nodup
  have met : member ∈ clockwise key members :=
    mem_clockwise.mpr (perm.mem_iff.mpr mem_cons_self)
  obtain ⟨front, back, walk⟩ := append_of_mem met
  have rest : (front ++ back).Perm fewer := by
    refine Perm.cons_inv (a := member) (perm_middle.symm.trans (.trans ?_ perm))
    exact walk ▸ insertionSort_perm _ members
  refine ⟨front, back, walk, (eq_clockwise ?_ ?_ fun _ => rest.mem_iff).symm⟩
  · exact (nodup_cons.mp ((perm.map _).nodup_iff.mp nodup)).2
  · rw [walk] at sorted
    exact sorted.sublist ((sublist_cons_self _ _).append_left front)

namespace Hashring

/-- What every ring keeps. -/
structure Tidy (ring : Hashring) : Prop where
  distinct : (ring.members.map (·.nodeId)).Nodup
  sorted : ring.sorted = true → SortedBy (·.nodeId) ring.members

variable {ring next : Hashring} {nodeId : Digest} (tidy : ring.Tidy)

include tidy

theorem ensureSorted_spec : ring.ensureSorted.Tidy ∧
    SortedBy (·.nodeId) ring.ensureSorted.members ∧
      ring.ensureSorted.members.Perm ring.members := by
  rw [ensureSorted]
  split
  next =>
    have sorted : SortedBy (·.nodeId) (Sorting.insertionSort memberLess ring.members) :=
      sortedBy_insertionSort (fun a b => by simp [memberLess]) tidy.distinct
    exact ⟨⟨sorted.nodup, fun _ => sorted⟩, sorted, insertionSort_perm _ _⟩
  next idle =>
    refine ⟨tidy, ?_, .refl _⟩
    cases flag : ring.sorted with
    | true => exact tidy.sorted flag
    | false =>
      match ring.members, idle with
      | [], _ => exact Pairwise.nil
      | [member], _ => exact pairwise_singleton _ _
      | _ :: _ :: _, idle => simp [flag] at idle

theorem responsibleForKey_spec (key : Digest) :
    (ring.responsibleForKey key).1 =
      (if ring.members = [] then none else some ((clockwise key ring.members).take replicas)) ∧
      (ring.responsibleForKey key).2.Tidy ∧
      (ring.responsibleForKey key).2.members.Perm ring.members := by
  obtain ⟨nextTidy, sorted, perm⟩ := ensureSorted_spec tidy
  rw [responsibleForKey]
  split
  next => exact ⟨rfl, tidy, .refl _⟩
  next =>
    refine ⟨congrArg some ((walk_eq_clockwise sorted).trans ?_), nextTidy, perm⟩
    rw [eq_clockwise tidy.distinct (sortedBy_clockwise nextTidy.distinct)
      fun member => by rw [mem_clockwise, perm.mem_iff]]

theorem add_spec {ip : Bytes} {tcpPort : UInt16} (added : ring.add nodeId ip tcpPort = some next) :
    next.Tidy ∧ ∃ member, member.nodeId = nodeId ∧ next.members.Perm (member :: ring.members) := by
  obtain ⟨free, ⟨⟩⟩ := Option.ite_none_left_eq_some.mp added
  have perm := perm_append_singleton ⟨nodeId, ip.take 63, tcpPort⟩ ring.members
  refine ⟨⟨(perm.map _).nodup_iff.mpr (nodup_cons.mpr ⟨?_, tidy.distinct⟩), by simp⟩, _, rfl, perm⟩
  simpa [contains] using (not_or.mp free).2

theorem remove_spec (removed : ring.remove nodeId = some next) :
    next.Tidy ∧ ∃ member, member.nodeId = nodeId ∧ ring.members.Perm (member :: next.members) := by
  obtain ⟨there, ⟨⟩⟩ := Option.ite_none_right_eq_some.mp removed
  have sub : (ring.members.eraseP (·.nodeId = nodeId)).Sublist ring.members := eraseP_sublist
  refine ⟨⟨tidy.distinct.sublist (sub.map _), fun flag => (tidy.sorted flag).sublist sub⟩, ?_⟩
  obtain ⟨member, inside, eq⟩ := any_eq_true.mp there
  obtain ⟨found, front, back, -, named, whole, erased⟩ :=
    exists_of_eraseP (p := (·.nodeId = nodeId)) inside eq
  refine ⟨found, by simpa using named, ?_⟩
  rw [erased, whole]
  exact perm_middle

/-- A call keeps the ring tidy and does to its members what it does to a plain list of them. -/
theorem step_spec (call : RingCall) :
    (ring.step call).Tidy ∧ (ring.step call).members.Perm (register ring.members call) := by
  cases call with
  | add nodeId ip tcpPort =>
    have full : (ringMaxNodes ≤ ring.members.length ∨ ring.contains nodeId = true) ↔
        ¬ (ring.members.length < ringMaxNodes ∧ ∀ member ∈ ring.members,
          member.nodeId ≠ nodeId) := by
      simp only [contains, any_eq_true, decide_eq_true_eq, not_and_or, not_lt, not_forall,
        exists_prop, not_not]
    rw [step, register]
    split
    next room =>
      have added : ring.add nodeId ip tcpPort = some _ := if_neg (mt full.mp (not_not.mpr room))
      rw [added]
      exact ⟨(add_spec tidy added).1, perm_append_singleton _ _⟩
    next empty =>
      rw [add, if_pos (full.mpr empty)]
      exact ⟨tidy, .refl _⟩
  | remove nodeId =>
    rw [step, register]
    cases removed : ring.remove nodeId with
    | none =>
      have absent : ∀ member ∈ ring.members, member.nodeId ≠ nodeId := by
        simpa [remove, contains] using removed
      rw [filter_eq_self.mpr (by simpa using absent)]
      exact ⟨tidy, .refl _⟩
    | some next =>
      obtain ⟨nextTidy, member, rfl, perm⟩ := remove_spec tidy removed
      have fresh := (nodup_cons.mp ((perm.map _).nodup_iff.mp tidy.distinct)).1
      refine ⟨nextTidy, Perm.trans ?_ (perm.filter _).symm⟩
      rw [filter_cons_of_neg (by simp), filter_eq_self.mpr]
      · exact .refl _
      · intro other inside
        have apart : other.nodeId ≠ member.nodeId :=
          fun eq => fresh (eq ▸ mem_map_of_mem inside)
        simpa using apart
  | responsible key => exact (responsibleForKey_spec tidy key).2

omit tidy in
theorem register_perm {first second : List RingMember} (perm : first.Perm second)
    (call : RingCall) : (register first call).Perm (register second call) := by
  cases call with
  | add nodeId ip tcpPort =>
    simp only [register, perm.length_eq, perm.mem_iff]
    split
    next => exact perm.cons _
    next => exact perm
  | remove nodeId => exact perm.filter _
  | responsible key => exact perm

omit tidy in
theorem run_spec (calls : List RingCall) :
    (init.run calls).Tidy ∧ (init.run calls).members.Perm (calls.foldl register []) := by
  induction calls using reverseRecOn with
  | nil => exact ⟨⟨nodup_nil, fun _ => Pairwise.nil⟩, .refl _⟩
  | append_singleton calls call ih =>
    obtain ⟨tidy, perm⟩ := ih
    obtain ⟨next, members⟩ := step_spec tidy call
    rw [run, foldl_concat, foldl_concat]
    exact ⟨next, members.trans (register_perm perm call)⟩

def placed (ring : Hashring) (key : Digest) : List RingMember :=
  (ring.responsibleForKey key).1.getD []

theorem placed_eq (key : Digest) :
    ring.placed key = (clockwise key ring.members).take replicas := by
  rw [placed, (responsibleForKey_spec tidy key).1]
  split
  next empty => rw [empty]; rfl
  next => rfl

omit tidy in
/-- A key belongs to the members that a walk from it meets first, whatever the calls were that
made the ring; a member that comes or goes moves at most one place of it. -/
theorem run_placed (calls : List RingCall) (key : Digest) :
    let ring := init.run calls
    ring.members.Perm (calls.foldl register []) ∧
      SortedBy (clock key) (clockwise key ring.members) ∧
      (clockwise key ring.members).Perm ring.members ∧
      (ring.responsibleForKey key).1 = (if ring.members = [] then none
        else some ((clockwise key ring.members).take (min replicas ring.members.length))) ∧
      (∀ others, (∀ member, member ∈ (init.run others).members ↔ member ∈ ring.members) →
        (init.run others).placed key = ring.placed key) ∧
      (∀ nodeId ip tcpPort next, ring.add nodeId ip tcpPort = some next →
        (∀ member ∈ next.placed key, member.nodeId = nodeId ∨ member ∈ ring.placed key) ∧
          ∃ out, ∀ member ∈ ring.placed key, member ∈ next.placed key ∨ member = out) ∧
      ∀ nodeId next, ring.remove nodeId = some next →
        (∀ member ∈ ring.placed key, member.nodeId ≠ nodeId) →
          next.placed key = ring.placed key := by
  intro ring
  obtain ⟨tidy, members⟩ : ring.Tidy ∧ ring.members.Perm (calls.foldl register []) := run_spec calls
  have perm : (clockwise key ring.members).Perm ring.members := insertionSort_perm _ _
  refine ⟨members, sortedBy_clockwise tidy.distinct, perm, ?_, ?_, ?_, ?_⟩
  · rw [(responsibleForKey_spec tidy key).1, ← take_take, take_of_length_le perm.length_eq.le]
  · intro others eq
    have otherTidy := (run_spec others).1
    rw [placed_eq tidy, placed_eq otherTidy, eq_clockwise tidy.distinct
      (sortedBy_clockwise otherTidy.distinct) fun member => by rw [mem_clockwise, eq]]
  · intro nodeId ip tcpPort next added
    obtain ⟨nextTidy, member, rfl, more⟩ := add_spec tidy added
    obtain ⟨front, back, walk, rest⟩ := clockwise_split key nextTidy.distinct more
    rw [placed_eq tidy, placed_eq nextTidy, walk, rest]
    exact ⟨fun other inside => (take_insert.1 other inside).imp_left (congrArg _), take_insert.2⟩
  · intro nodeId next removed absent
    obtain ⟨nextTidy, member, rfl, more⟩ := remove_spec tidy removed
    obtain ⟨front, back, walk, rest⟩ := clockwise_split key tidy.distinct more
    rw [placed_eq tidy, walk] at absent ⊢
    rw [placed_eq nextTidy, rest]
    exact (take_erase fun inside => absent member inside rfl).symm

def ringNode (k : UInt8) : Digest := ⟨replicate digestSize k, length_replicate⟩

omit tidy in
/-- Three nodes come, one twice, and one goes; the walk passes the end of the ring. -/
theorem run_placed_around :
    let calls : List RingCall := [.add (ringNode 5) [] 1, .add (ringNode 9) [] 1,
      .add (ringNode 5) [] 2, .add (ringNode 3) [] 1, .remove (ringNode 5)]
    (init.run calls).members.Perm [⟨ringNode 3, [], 1⟩, ⟨ringNode 9, [], 1⟩] ∧
      (init.run calls).placed (ringNode 4) = [⟨ringNode 9, [], 1⟩, ⟨ringNode 3, [], 1⟩] := by
  intro calls
  obtain ⟨members, -⟩ := run_placed calls (ringNode 4)
  rw [show calls.foldl register [] = [⟨ringNode 3, [], 1⟩, ⟨ringNode 9, [], 1⟩] by
    decide +kernel] at members
  exact ⟨members, by decide +kernel⟩

end Hashring

end DnaLedger.Dht
