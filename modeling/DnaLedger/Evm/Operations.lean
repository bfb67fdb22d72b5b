import DnaLedger.Evm.SnapshotRefinement

/-!
# Sequences of operations

The journaled state and the dictionaries give the same answers to every sequence, and a transaction
that is aborted leaves no answer behind.
-/

namespace DnaLedger.Evm

open Command List

/-- A revert names a mark of the running transaction, counted from the last one; the marks after it
are gone. -/
inductive Op where
  | call (call : Call)
  | logs
  | tickets
  | weiDestroyed
  | mark
  | revert (index : Nat)
  | commitTx
  | abortTx

inductive Answer where
  | call (call : Call) (result : Except Stop call.Result)
  | logs (logs : List Log)
  | tickets (tickets : List Ticket)
  | weiDestroyed (amount : Word)
  | nothing
  | ended (result : Except Stop Unit)

def Answer.Exhausted : Answer → Prop
  | .call _ result => result = .error .exhausted
  | .ended result => result = .error .exhausted
  | _ => False

def Op.ends : Op → Bool
  | .commitTx | .abortTx => true
  | _ => false

/-- The state with the marks that its user holds, the last one first. -/
structure Overlay where
  st : State
  marks : List Nat

namespace Overlay

def new : Overlay :=
  ⟨.new, []⟩

def step (host : Host) : Op → Overlay → Answer × Overlay
  | .call call, o =>
    let outcome := (call.prog host.keccak).run (State.handle host) o.st
    (.call call outcome.1, { o with st := outcome.2 })
  | .logs, o => (.logs o.st.logs, o)
  | .tickets, o => (.tickets o.st.tickets, o)
  | .weiDestroyed, o => (.weiDestroyed o.st.weiDestroyed, o)
  | .mark, o => (.nothing, { o with marks := o.st.mark :: o.marks })
  | .revert index, o =>
    match o.marks[index]? with
    | none => (.nothing, o)
    | some mark => (.nothing, ⟨o.st.revert mark, o.marks.drop index⟩)
  | .commitTx, o =>
    match o.st.commitTx with
    | (.ok _, st) => (.ended (.ok ()), ⟨st, []⟩)
    | (.error stop, st) => (.ended (.error stop), { o with st := st })
  | .abortTx, o => (.ended o.st.abortTx.1, ⟨o.st.abortTx.2, []⟩)

end Overlay

noncomputable def Snapshots.step (host : Host) : Op → Snapshots → Answer × Snapshots
  | .call call, m => (.call call (m.perform host call).1, (m.perform host call).2)
  | .logs, m => (.logs m.tx.logs, m)
  | .tickets, m => (.tickets m.tx.tickets, m)
  | .weiDestroyed, m => (.weiDestroyed m.tx.weiDestroyed, m)
  | .mark, m => (.nothing, m.mark)
  | .revert index, m => (.nothing, m.revert index)
  | .commitTx, m => (.ended m.commitTx.1, m.commitTx.2)
  | .abortTx, m => (.ended m.abortTx.1, m.abortTx.2)

section

variable {σ τ : Type}

def after (step : Op → σ → Answer × σ) (ops : List Op) (state : σ) : σ :=
  ops.foldl (fun state op => (step op state).2) state

def answers (step : Op → σ → Answer × σ) : List Op → σ → List Answer
  | [], _ => []
  | op :: ops, state => (step op state).1 :: answers step ops (step op state).2

/-- The same answers, up to the first that says that a counter was used up. -/
def AgreeUntilExhausted : List Answer → List Answer → Prop
  | [], [] => True
  | first :: rest, second :: rest' =>
    first.Exhausted ∨ (first = second ∧ AgreeUntilExhausted rest rest')
  | _, _ => False

theorem answers_append (step : Op → σ → Answer × σ) (first second : List Op) (state : σ) :
    answers step (first ++ second) state =
      answers step first state ++ answers step second (after step first state) := by
  induction first generalizing state with
  | nil => rfl
  | cons op ops ih =>
    rw [cons_append, answers, answers, ih, cons_append]
    rfl

theorem after_append (step : Op → σ → Answer × σ) (first second : List Op) (state : σ) :
    after step (first ++ second) state = after step second (after step first state) :=
  foldl_append

variable {step : Op → σ → Answer × σ} {step' : Op → τ → Answer × τ} {related : σ → τ → Prop}
variable {state : σ} {other : τ}

theorem answers_eq (each : ∀ op state other, related state other →
      (step op state).1 = (step' op other).1 ∧ related (step op state).2 (step' op other).2)
    (ops : List Op) (start : related state other) :
    answers step ops state = answers step' ops other ∧
      related (after step ops state) (after step' ops other) := by
  induction ops generalizing state other with
  | nil => exact ⟨rfl, start⟩
  | cons op ops ih =>
    obtain ⟨eq, next⟩ := each op state other start
    obtain ⟨rest, last⟩ := ih next
    exact ⟨by rw [answers, answers, eq, rest], last⟩

theorem answers_agree (each : ∀ op state other, related state other → (step op state).1.Exhausted ∨
      ((step op state).1 = (step' op other).1 ∧ related (step op state).2 (step' op other).2))
    (ops : List Op) (start : related state other) :
    AgreeUntilExhausted (answers step ops state) (answers step' ops other) := by
  induction ops generalizing state other with
  | nil => trivial
  | cons op ops ih =>
    rcases each op state other start with exhausted | ⟨eq, next⟩
    · exact Or.inl exhausted
    · exact Or.inr ⟨eq, ih next⟩

end

theorem le_of_mem_drop {marks : List Nat} (ordered : marks.Pairwise (· ≥ ·)) {index mark : Nat}
    (found : marks[index]? = some mark) {other : Nat} (mem : other ∈ marks.drop index) :
    other ≤ mark := by
  obtain ⟨inside, here⟩ := List.getElem?_eq_some_iff.mp found
  have ordered := ordered.drop (i := index)
  rw [drop_eq_getElem_cons inside, here] at ordered mem
  rcases mem_cons.mp mem with rfl | later
  · exact Nat.le_refl _
  · exact rel_of_pairwise_cons ordered later

/-! ## The journaled state and the dictionaries -/

namespace Follows

variable {host : Host} {marks : List Nat} {st : State} {m : Snapshots}

theorem run {α : Type} (steady : host.be.Steady) (follows : Follows host.be marks st m)
    (program : Access α) :
    (program.run (State.handle host) st).1 = (program.run (Snapshots.handle host) m).1 ∧
      Follows host.be marks (program.run (State.handle host) st).2
        (program.run (Snapshots.handle host) m).2 := by
  rcases @Prog.run_related _ _ _ α _ _ (State.handle host) (Snapshots.handle host)
    (Follows host.be marks) (fun _ => False)
    (fun command state other start => Or.inr (start.handle steady command)) program st m follows
    with ⟨_, never, _⟩ | eq
  · exact never.elim
  · exact eq

variable {be : Backend} (follows : Follows be marks st m)

include follows

variable {next : State}

theorem unwound (valid : next.Valid) (unwound : State.Unwound st next) :
    Follows be [] next { m with tx := next.layer.dicts, saved := [] } where
  valid := valid
  cached := follows.cached.of_cache unwound.cache
  tx := rfl
  block := by rw [unwound.committed]; exact follows.block
  created addr := (follows.created addr).trans (unwound.isCreated addr).symm
  touched := follows.touched.trans unwound.touched.symm
  clears := follows.clears.trans unwound.genCounter.symm
  transactions := follows.transactions.trans unwound.epoch.symm
  saved := rfl
  old _ mem := by cases mem
  ordered := Pairwise.nil

theorem revert {index mark : Nat} (found : marks[index]? = some mark) :
    Follows be (marks.drop index) (st.revert mark) (m.revert index) := by
  have old := follows.old mark (mem_of_getElem? found)
  obtain ⟨valid, length, layers, unwound⟩ := follows.valid.revert old
  have below : ∀ other ∈ marks.drop index, other ≤ mark :=
    fun other mem => le_of_mem_drop follows.ordered found mem
  have copy : m.saved[index]? = some (st.layerAt mark).dicts := by
    rw [follows.saved, getElem?_map, found]
    rfl
  rw [Snapshots.revert, copy]
  exact {
    follows.unwound valid unwound with
    tx := by rw [follows.valid.layer_revert old]
    saved := by
      dsimp only
      rw [follows.saved, ← map_drop]
      apply map_congr_left
      intro other mem
      rw [layers other (below other mem)]
    old := fun other mem => by
      rw [length]
      exact below other mem
    ordered := follows.ordered.drop }

theorem incorporate (incorporates : State.Incorporates st next) :
    Follows be marks next { m with block := m.block.incorporate m.tx } := by
  obtain ⟨records, eq⟩ := incorporates.rest
  have layer := incorporates.layer
  have journal : next.journal = st.journal := by rw [eq]
  have block : m.block.incorporate m.tx = next.committed.dicts := by
    rw [follows.block, follows.tx]
    apply BlockDicts.ext
    · funext addr
      exact (incorporates.accts addr).symm
    · funext addr key
      refine Eq.trans ?_ (incorporates.slots addr key).symm
      simp only [BlockDicts.incorporate, Layer.dicts, State.Committed.dicts,
        State.Committed.incorporate]
      split
      · rfl
      · rfl
    · funext addr
      exact (incorporates.cleared addr).symm
  exact {
    valid := incorporates.valid follows.valid
    cached := incorporates.cached follows.cached
    tx := follows.tx.trans (congrArg _ layer.symm)
    block := block
    created := fun addr => by
      rw [State.isCreated_eq, incorporates.sameTx.acctAt, ← State.isCreated_eq]
      exact follows.created addr
    touched := by rw [eq]; exact follows.touched
    clears := by rw [eq]; exact follows.clears
    transactions := by rw [eq]; exact follows.transactions
    saved := by
      refine follows.saved.trans (map_congr_left fun mark _ => ?_)
      rw [State.layerAt, State.layerAt, layer, journal]
    old := by
      rw [journal]
      exact follows.old
    ordered := follows.ordered }

theorem nextTx :
    st.nextTx.1 = m.nextTx.1 ∧
      ((st.nextTx.1 = .ok () ∧ Follows be [] st.nextTx.2 m.nextTx.2) ∨
        (st.nextTx.1 = .error .exhausted ∧ st.nextTx.2 = st ∧ m.nextTx.2 = m)) := by
  by_cases used : st.epoch = State.counterMax
  · have used' : m.transactions = State.counterMax := follows.transactions.trans used
    rw [State.nextTx, Snapshots.nextTx, if_pos used, if_pos used']
    exact ⟨rfl, Or.inr ⟨rfl, rfl, rfl⟩⟩
  · have left : ¬ m.transactions = State.counterMax :=
      fun eq => used (follows.transactions.symm.trans eq)
    obtain ⟨answer, starts⟩ := State.nextTx_spec follows.valid used
    rw [answer, Snapshots.nextTx, if_neg left]
    refine ⟨rfl, Or.inl ⟨rfl, ?_⟩⟩
    exact {
      valid := starts.valid
      cached := starts.cached follows.cached
      tx := by rw [starts.layer, Layer.dicts_blank]
      block := by rw [starts.committed]; exact follows.block
      created := fun addr => (starts.isCreated addr).symm
      touched := starts.touched.symm
      clears := follows.clears.trans starts.genCounter.symm
      transactions := by rw [starts.epoch, ← follows.transactions]
      saved := rfl
      old := fun _ mem => by cases mem
      ordered := Pairwise.nil }

theorem unwind : Follows be [] (st.revert 0) { m with tx := .blank, saved := [] } := by
  obtain ⟨valid, length, -, unwound⟩ := follows.valid.revert (Nat.zero_le _)
  have layer : (st.revert 0).layer = .blank := by
    have history := valid.history
    rw [length_eq_zero_iff.mp length] at history
    exact history
  have taken := follows.unwound valid unwound
  rwa [layer, Layer.dicts_blank] at taken

end Follows

/-- A state with its marks, and dictionaries. -/
def Overlay.Follows (be : Backend) (o : Overlay) (m : Snapshots) : Prop :=
  Evm.Follows be o.marks o.st m

theorem Overlay.follows_new (be : Backend) : Overlay.Follows be .new .new where
  valid := State.valid_new
  cached := State.cached_new be
  tx := by
    have blank : State.new.layer = .blank := Layer.ext rfl rfl rfl rfl rfl
    exact (congrArg Layer.dicts blank).trans Layer.dicts_blank |>.symm
  block := rfl
  created _ := rfl
  touched := rfl
  clears := rfl
  transactions := rfl
  saved := rfl
  old _ mem := by cases mem
  ordered := Pairwise.nil

theorem Overlay.step_follows {host : Host} (steady : host.be.Steady) (op : Op) {o : Overlay}
    {m : Snapshots} (follows : Overlay.Follows host.be o m) :
    (o.step host op).1 = (m.step host op).1 ∧
      Overlay.Follows host.be (o.step host op).2 (m.step host op).2 := by
  have follows : Evm.Follows host.be o.marks o.st m := follows
  cases op with
  | call call =>
    obtain ⟨eq, next⟩ := follows.run steady (call.prog host.keccak)
    rw [Snapshots.run_prog] at eq next
    exact ⟨congrArg (Answer.call call) eq, next⟩
  | logs | tickets | weiDestroyed =>
    refine ⟨?_, follows⟩
    rw [Overlay.step, Snapshots.step, follows.tx]
    rfl
  | mark =>
    refine ⟨rfl, ?_⟩
    exact { follows with
      saved := by
        rw [Overlay.step, Snapshots.step, Snapshots.mark]
        dsimp only
        rw [map_cons, ← follows.saved, State.mark, State.layerAt_length, follows.tx]
      old := fun mark mem => by
        rcases List.mem_cons.mp mem with rfl | older
        · exact Nat.le_refl _
        · exact follows.old mark older
      ordered := List.pairwise_cons.mpr ⟨follows.old, follows.ordered⟩ }
  | revert index =>
    simp only [Overlay.step, Snapshots.step]
    cases found : o.marks[index]? with
    | none =>
      refine ⟨rfl, ?_⟩
      have gone : m.saved[index]? = none := by
        rw [follows.saved, getElem?_map, found]
        rfl
      rw [Snapshots.revert, gone]
      exact follows
    | some mark => exact ⟨rfl, follows.revert found⟩
  | commitTx =>
    have merged := follows.incorporate (State.incorporates follows.valid)
    obtain ⟨eq, next⟩ := merged.nextTx
    have commit : o.st.commitTx = (o.st.commitAll o.st.touched).nextTx := rfl
    simp only [Overlay.step, Snapshots.step, Snapshots.commitTx]
    rw [commit]
    rcases next with ⟨answer, started⟩ | ⟨answer, kept, kept'⟩
    · generalize (o.st.commitAll o.st.touched).nextTx = outcome at eq answer started
      obtain ⟨result, next⟩ := outcome
      cases answer
      exact ⟨congrArg Answer.ended eq, started⟩
    · generalize (o.st.commitAll o.st.touched).nextTx = outcome at eq answer kept
      obtain ⟨result, next⟩ := outcome
      cases answer
      refine ⟨congrArg Answer.ended eq, ?_⟩
      rw [kept']
      cases kept
      exact merged
  | abortTx =>
    have unwound := follows.unwind
    obtain ⟨eq, next⟩ := unwound.nextTx
    refine ⟨congrArg Answer.ended eq, ?_⟩
    rcases next with ⟨-, started⟩ | ⟨-, kept, kept'⟩
    · exact started
    · have last : (o.step host .abortTx).2.st = o.st.revert 0 := kept
      have last' : (m.step host .abortTx).2 = { m with tx := .blank, saved := [] } := kept'
      rw [Overlay.Follows, last, last']
      exact unwound

/-! ## Aborted transactions -/

namespace Snapshots

def Bounded (m : Snapshots) : Prop :=
  m.clears ≤ State.counterMax ∧ m.transactions ≤ State.counterMax

/-- The same state, with more of the counters used up. -/
def Later (m m' : Snapshots) : Prop :=
  ∃ clears transactions, m = { m' with clears := clears, transactions := transactions } ∧
    m'.clears ≤ clears ∧ m'.transactions ≤ transactions ∧ m.Bounded

/-- The state of a transaction that started in another state. -/
structure Inside (start m : Snapshots) : Prop where
  block : m.block = start.block
  transactions : m.transactions = start.transactions
  clears : start.clears ≤ m.clears
  bounded : m.Bounded

/-- No operation of the running transaction came yet. -/
structure Fresh (m : Snapshots) : Prop where
  tx : m.tx = .blank
  saved : m.saved = []
  createdAccounts : m.createdAccounts = fun _ => false
  touched : m.touched = []

variable {host : Host} {start m m' : Snapshots}

theorem Inside.clear (inside : Inside start m) (addr : Word) : Inside start (m.clear addr).2 := by
  rw [Snapshots.clear]
  split
  next => exact { inside with }
  next left =>
    have bound := inside.bounded.1
    exact { inside with
      clears := inside.clears.trans (Nat.le_succ _)
      bounded := ⟨Nat.lt_of_le_of_ne bound left, inside.bounded.2⟩ }

theorem Inside.handle (command : Prim) (m : Snapshots) (inside : Inside start m) :
    Inside start (handle host command m).2 := by
  cases command with
  | destroyStorage addr => exact inside.clear addr
  | addLog log | addDestroyed amount | addTicket intentId amount destFp =>
    simp only [Snapshots.handle, Snapshots.log, Snapshots.destroy, Snapshots.ticket]
    split
    · exact inside
    · exact { inside with }
  | _ => exact { inside with }

theorem Inside.step {op : Op} (goes : op.ends = false) (inside : Inside start m) :
    Inside start (m.step host op).2 := by
  cases op with
  | call call =>
    rw [Snapshots.step, ← run_prog]
    exact Prog.run_keeps Inside.handle (call.prog host.keccak) inside
  | logs | tickets | weiDestroyed => exact inside
  | mark => exact { inside with }
  | revert index =>
    simp only [Snapshots.step, Snapshots.revert]
    split
    · exact inside
    · exact { inside with }
  | commitTx | abortTx => cases goes

theorem Inside.after {ops : List Op} (goes : ∀ op ∈ ops, op.ends = false)
    (inside : Inside start m) : Inside start (after (Snapshots.step host) ops m) := by
  induction ops generalizing m with
  | nil => exact inside
  | cons op ops ih =>
    apply ih fun other mem => goes other (mem_cons_of_mem _ mem)
    exact inside.step (goes op mem_cons_self)

theorem bounded_nextTx (bound : m.Bounded) : m.nextTx.2.Bounded := by
  rw [nextTx]
  split
  next => exact bound
  next left => exact ⟨bound.1, Nat.lt_of_le_of_ne bound.2 left⟩

theorem bounded_step (op : Op) (bounded : m.Bounded) : (m.step host op).2.Bounded := by
  by_cases goes : op.ends = false
  · have inside : Inside m m := ⟨rfl, rfl, Nat.le_refl _, bounded⟩
    exact (inside.step goes).bounded
  · cases op with
    | commitTx | abortTx => exact bounded_nextTx bounded
    | _ => exact absurd rfl goes

theorem bounded_after (ops : List Op) (bound : m.Bounded) : (after (step host) ops m).Bounded := by
  induction ops generalizing m with
  | nil => exact bound
  | cons op ops ih => exact ih (bounded_step op bound)

theorem fresh_nextTx (done : m.nextTx.1 ≠ .error .exhausted) :
    m.nextTx.2.Fresh ∧ m.nextTx.2.block = m.block ∧ m.nextTx.2.clears = m.clears ∧
      m.nextTx.2.transactions = m.transactions + 1 := by
  rw [nextTx] at done ⊢
  split
  next used =>
    rw [if_pos used] at done
    exact absurd rfl done
  next => exact ⟨⟨rfl, rfl, rfl, rfl⟩, rfl, rfl, rfl⟩

theorem fresh_after {before : List Op} (ended : ∀ op ∈ before.getLast?, op.ends = true)
    (alive : ∀ answer ∈ answers (step host) before new, ¬ answer.Exhausted) :
    (after (step host) before new).Fresh := by
  rcases eq_nil_or_concat before with rfl | ⟨rest, op, rfl⟩
  · exact ⟨rfl, rfl, rfl, rfl⟩
  · have ends : op.ends = true := ended op (by simp)
    rw [concat_eq_append] at alive ⊢
    rw [answers_append] at alive
    have done := alive _ (mem_append_right _ mem_cons_self)
    rw [after_append]
    cases op with
    | commitTx | abortTx => exact (fresh_nextTx done).1
    | _ => cases ends

theorem Later.handle (command : Prim) (later : Later m m') :
    (∃ error, error = Stop.exhausted ∧ (handle host command m).1 = .error error) ∨
      ((handle host command m).1 = (handle host command m').1 ∧
        Later (handle host command m).2 (handle host command m').2) := by
  have := later
  obtain ⟨clears, transactions, rfl, less, less', bounded⟩ := later
  cases command with
  | destroyStorage addr =>
    by_cases used : clears = State.counterMax
    · refine Or.inl ⟨_, rfl, ?_⟩
      simp only [handle, clear]
      rw [if_pos used]
    · have bound : clears ≤ State.counterMax := bounded.1
      have left : ¬ m'.clears = State.counterMax := by omega
      simp only [handle, clear]
      rw [if_neg used, if_neg left]
      refine Or.inr ⟨rfl, clears + 1, transactions, rfl, Nat.succ_le_succ less, less', ?_⟩
      exact ⟨Nat.lt_of_le_of_ne bound used, bounded.2⟩
  | addLog log | addDestroyed amount | addTicket intentId amount destFp =>
    refine Or.inr ?_
    simp only [Snapshots.handle, Snapshots.log, Snapshots.destroy, Snapshots.ticket]
    split
    · exact ⟨rfl, this⟩
    · exact ⟨rfl, clears, transactions, rfl, less, less', bounded⟩
  | _ => exact Or.inr ⟨rfl, clears, transactions, rfl, less, less', bounded⟩

theorem Later.nextTx (later : Later m m') :
    m.nextTx.1 = .error .exhausted ∨
      (m.nextTx.1 = m'.nextTx.1 ∧ Later m.nextTx.2 m'.nextTx.2) := by
  obtain ⟨clears, transactions, rfl, less, less', bounded⟩ := later
  simp only [nextTx]
  by_cases used : transactions = State.counterMax
  · rw [if_pos used]
    exact Or.inl rfl
  · have bound : transactions ≤ State.counterMax := bounded.2
    have left : ¬ m'.transactions = State.counterMax := by omega
    rw [if_neg used, if_neg left]
    refine Or.inr ⟨rfl, clears, transactions + 1, rfl, less, Nat.succ_le_succ less', ?_⟩
    exact ⟨bounded.1, Nat.lt_of_le_of_ne bound used⟩

theorem Later.step (op : Op) (m m' : Snapshots) (later : Later m m') :
    (m.step host op).1.Exhausted ∨
      ((m.step host op).1 = (m'.step host op).1 ∧
        Later (m.step host op).2 (m'.step host op).2) := by
  have start := later
  obtain ⟨clears, transactions, rfl, less, less', bound⟩ := later
  cases op with
  | call call =>
    have related := Prog.run_related
      (fun command m m' (later : Later m m') => @handle host _ _ command later)
      (call.prog host.keccak) start
    rw [run_prog, run_prog] at related
    rcases related with ⟨_, rfl, exhausted⟩ | ⟨eq, next⟩
    · exact Or.inl exhausted
    · exact Or.inr ⟨congrArg (Answer.call call) eq, next⟩
  | logs | tickets | weiDestroyed | mark =>
    exact Or.inr ⟨rfl, clears, transactions, rfl, less, less', bound⟩
  | revert index =>
    refine Or.inr ⟨rfl, ?_⟩
    simp only [Snapshots.step, Snapshots.revert]
    split <;> exact ⟨clears, transactions, rfl, less, less', bound⟩
  | commitTx =>
    have merged : Later
        { m' with
          block := m'.block.incorporate m'.tx, clears := clears, transactions := transactions }
        { m' with block := m'.block.incorporate m'.tx } :=
      ⟨clears, transactions, rfl, less, less', bound⟩
    rcases merged.nextTx with exhausted | ⟨eq, next⟩
    · exact Or.inl exhausted
    · exact Or.inr ⟨congrArg Answer.ended eq, next⟩
  | abortTx =>
    have unwound : Later
        { m' with tx := .blank, saved := [], clears := clears, transactions := transactions }
        { m' with tx := .blank, saved := [] } :=
      ⟨clears, transactions, rfl, less, less', bound⟩
    rcases unwound.nextTx with exhausted | ⟨eq, next⟩
    · exact Or.inl exhausted
    · exact Or.inr ⟨congrArg Answer.ended eq, next⟩

theorem Later.abort {transaction : List Op} (fresh : m.Fresh) (bounded : m.Bounded)
    (goes : ∀ op ∈ transaction, op.ends = false)
    (done : ((after (Snapshots.step host) transaction m).step host .abortTx).1 ≠
      .ended (.error .exhausted)) :
    Later ((after (Snapshots.step host) transaction m).step host .abortTx).2 m := by
  have inside : Inside m (after (Snapshots.step host) transaction m) :=
    Inside.after goes ⟨rfl, rfl, Nat.le_refl _, bounded⟩
  generalize after (Snapshots.step host) transaction m = last at done inside
  have finished : (Snapshots.nextTx { last with tx := .blank, saved := [] }).1 ≠
      .error .exhausted := fun exhausted => done (congrArg Answer.ended exhausted)
  obtain ⟨fresh', block, clears, transactions⟩ := fresh_nextTx finished
  have bounded' : (Snapshots.nextTx { last with tx := .blank, saved := [] }).2.Bounded :=
    bounded_nextTx inside.bounded
  have step : (last.step host .abortTx).2 =
    (Snapshots.nextTx { last with tx := .blank, saved := [] }).2 := rfl
  rw [step]
  generalize (Snapshots.nextTx { last with tx := .blank, saved := [] }).2 = next
    at fresh' block clears transactions bounded'
  refine ⟨next.clears, next.transactions, ?_, ?_, ?_, bounded'⟩
  · cases next with
    | mk nextBlock nextTx nextSaved nextCreated nextTouched nextClears nextTransactions =>
      cases m with
      | mk mBlock mTx mSaved mCreated mTouched mClears mTransactions =>
        obtain ⟨rfl, rfl, rfl, rfl⟩ := fresh
        obtain ⟨rfl, rfl, rfl, rfl⟩ := fresh'
        exact congrArg (fun block => Snapshots.mk block .blank [] (fun _ => false) []
          nextClears nextTransactions) (block.trans inside.block)
  · rw [clears]
    exact inside.clears
  · rw [transactions]
    exact (Nat.le_succ _).trans (Nat.succ_le_succ inside.transactions.ge)

end Snapshots

/-- The journaled state answers every sequence of operations as dictionaries do that a mark copies
and a revert puts back; an aborted transaction leaves no answer behind. -/
theorem journal_is_snapshots (host : Host) (steady : host.be.Steady) :
    (∀ ops, answers (Overlay.step host) ops .new = answers (Snapshots.step host) ops .new) ∧
      ∀ before transaction later : List Op, (∀ op ∈ before.getLast?, op.ends = true) →
        (∀ op ∈ transaction, op.ends = false) →
        (∀ answer ∈ answers (Overlay.step host) (before ++ transaction ++ [.abortTx]) .new,
          ¬ answer.Exhausted) →
        AgreeUntilExhausted
          (answers (Overlay.step host) later
            (after (Overlay.step host) (before ++ transaction ++ [.abortTx]) .new))
          (answers (Overlay.step host) later (after (Overlay.step host) before .new)) := by
  have each : ∀ op o m, Overlay.Follows host.be o m → (Overlay.step host op o).1 =
      (Snapshots.step host op m).1 ∧
        Overlay.Follows host.be (Overlay.step host op o).2 (Snapshots.step host op m).2 :=
    fun op _ _ => Overlay.step_follows steady op
  have whole := fun ops => answers_eq each ops (Overlay.follows_new host.be)
  refine ⟨fun ops => (whole ops).1, ?_⟩
  intro before transaction later ended goes alive
  rw [(answers_eq each later (whole (before ++ transaction ++ [Op.abortTx])).2).1,
    (answers_eq each later (whole before).2).1]
  rw [(whole _).1, answers_append, answers_append] at alive
  have fresh : (after (Snapshots.step host) before .new).Fresh := by
    apply Snapshots.fresh_after ended
    intro answer mem
    exact alive answer (mem_append_left _ (mem_append_left _ mem))
  have bound : (after (Snapshots.step host) before .new).Bounded :=
    Snapshots.bounded_after before ⟨Nat.zero_le _, by decide⟩
  rw [after_append, after_append]
  apply answers_agree Snapshots.Later.step later
  apply Snapshots.Later.abort fresh bound goes
  intro exhausted
  refine alive _ (mem_append_right _ mem_cons_self) ?_
  rw [after_append, exhausted]
  rfl

/-- A host whose backend has one account, with a code and a slot, and refuses nothing. -/
def Host.single : Host where
  be := {
    refuses := fun _ _ => none
    getAccount := fun addr =>
      if addr = 9 then ⟨true, 1, 3, emptyCodeHash + 1, 1⟩ else ⟨false, 0, 0, emptyCodeHash, 0⟩
    getCode := fun addr => if addr = 9 then [1] else []
    getStorage := fun addr key => if addr = 9 ∧ key = 0 then 4 else 0
    hasStorage := fun addr => addr = 9
    getBlockHash := fun _ => none }
  nodusProfile := true
  keccak code := emptyCodeHash + BitVec.ofNat 256 (code.headD 0).toNat
  sha3 _ := default

/-- A storage is written, cleared and written again, and the clear is taken back. -/
def storageOps : List Op :=
  [.call (.setStorage 9 0 6), .mark, .call (.destroyStorage 9), .call (.getStorage 9 0),
    .call (.setStorage 9 1 8), .revert 0, .call (.getStorage 9 0), .call (.getStorage 9 1)]

theorem journal_is_snapshots_single :
    Host.single.be.Steady ∧
      answers (Overlay.step .single) storageOps .new =
        answers (Snapshots.step .single) storageOps .new ∧
      AgreeUntilExhausted
        (answers (Overlay.step .single) [.call (.getStorage 9 0)]
          (after (Overlay.step .single) ([.commitTx] ++ storageOps ++ [.abortTx]) .new))
        (answers (Overlay.step .single) [.call (.getStorage 9 0)]
          (after (Overlay.step .single) [.commitTx] .new)) := by
  have steady : Host.single.be.Steady := fun _ _ => rfl
  have outcome : answers (Overlay.step .single) ([.commitTx] ++ storageOps ++ [.abortTx]) .new =
      [.ended (.ok ()), .call (.setStorage 9 0 6) (.ok ()), .nothing,
        .call (.destroyStorage 9) (.ok ()), .call (.getStorage 9 0) (.ok 0),
        .call (.setStorage 9 1 8) (.ok ()), .nothing, .call (.getStorage 9 0) (.ok 6),
        .call (.getStorage 9 1) (.ok 0), .ended (.ok ())] := rfl
  refine ⟨steady, (journal_is_snapshots .single steady).1 _,
    (journal_is_snapshots .single steady).2 [.commitTx] storageOps _ ?_ ?_ ?_⟩
  · simp [Op.ends]
  · simp [storageOps, Op.ends]
  · rw [outcome]
    simp [Answer.Exhausted]

end DnaLedger.Evm
