import DnaLedger.Cmt.Types
import Mathlib.Data.Prod.Lex

/-!
# The timeout ticker

Model of `cmt_ticker.c`: which scheduled timeout replaces the pending one, and which one
is delivered.  The timer itself is the host's.
-/

namespace DnaLedger.Cmt

structure TimeoutInfo where
  duration : Int64
  height : Int64
  round : Int32
  step : UInt8

/-- `cmt_ticker_t`, with the values of `cmt_ticker_init`. -/
structure Ticker where
  timerActive : Bool := false
  ti : TimeoutInfo := ⟨0, 0, 0, 0⟩

structure TickerAction where
  cancelPrevious : Bool := false
  arm : Bool := false
  duration : Int64 := 0

/-- `cmt_ticker_stop_timer`, which `cmt_ticker_stop` is too. -/
def Ticker.stopTimer (t : Ticker) : Bool × Ticker :=
  if !t.timerActive then (false, t) else (true, { t with timerActive := false })

/-- The requests that `cmt_ticker_schedule_timeout` drops. -/
def Ticker.Stale (t : Ticker) (ti : TimeoutInfo) : Prop :=
  ti.height < t.ti.height ∨ ti.height = t.ti.height ∧
    (ti.round < t.ti.round ∨ ti.round = t.ti.round ∧ t.ti.step > 0 ∧ ti.step ≤ t.ti.step)
  deriving Decidable

def Ticker.scheduleTimeout (t : Ticker) (ti : TimeoutInfo) : TickerAction × Ticker :=
  if t.Stale ti then ({}, t)
  else
    let (cancel, t) := t.stopTimer
    (⟨cancel, true, ti.duration⟩, { t with ti, timerActive := true })

def Ticker.fire (t : Ticker) : Except Failure TimeoutInfo × Ticker :=
  if !t.timerActive then (.error .fault, t) else (.ok t.ti, { t with timerActive := false })

/-- The place of a timeout: its height, then its round, then its step. -/
def TimeoutInfo.place (ti : TimeoutInfo) : ℤ ×ₗ ℤ ×ₗ ℕ :=
  toLex (ti.height.toInt, toLex (ti.round.toInt, ti.step.toNat))

theorem Ticker.stale_of_place_lt {t : Ticker} {ti : TimeoutInfo}
    (earlier : ti.place < t.ti.place) : t.Stale ti := by
  simp only [TimeoutInfo.place, Prod.Lex.toLex_lt_toLex, ← Int64.lt_iff_toInt_lt, Int64.toInt_inj,
    ← Int32.lt_iff_toInt_lt, Int32.toInt_inj, ← UInt8.lt_iff_toNat_lt] at earlier
  obtain height | ⟨height, round | ⟨round, step⟩⟩ := earlier
  · exact .inl height
  · exact .inr ⟨height, .inl round⟩
  · exact .inr ⟨height, .inr ⟨round, UInt8.lt_of_le_of_lt UInt8.zero_le step, UInt8.le_of_lt step⟩⟩

inductive TickerCall where
  | schedule (ti : TimeoutInfo)
  | fire
  | stop

/-- What comes of a call: a timeout is armed, or the pending one is delivered. -/
inductive TickerEvent where
  | armed (ti : TimeoutInfo)
  | delivered (ti : TimeoutInfo)

def Ticker.call (t : Ticker) : TickerCall → List TickerEvent × Ticker
  | .schedule ti =>
    let (action, next) := t.scheduleTimeout ti
    (if action.arm then [.armed ti] else [], next)
  | .fire =>
    match t.fire with
    | (.ok ti, next) => ([.delivered ti], next)
    | (.error _, next) => ([], next)
  | .stop => ([], t.stopTimer.2)

def Ticker.run (t : Ticker) : List TickerCall → List TickerEvent × Ticker
  | [] => ([], t)
  | call :: calls =>
    let (events, next) := t.call call
    let (later, last) := next.run calls
    (events ++ later, last)

theorem Ticker.call_cases (t : Ticker) (call : TickerCall) :
    (∃ ti, t.ti.place ≤ ti.place ∧ t.call call = ([.armed ti], ⟨true, ti⟩)) ∨
      (t.timerActive = true ∧ t.call call = ([.delivered t.ti], ⟨false, t.ti⟩)) ∨
      ∃ active, (active = true → t.timerActive = true) ∧ t.call call = ([], ⟨active, t.ti⟩) := by
  obtain ⟨active, pending⟩ := t
  cases call with
  | schedule ti =>
    by_cases stale : (⟨active, pending⟩ : Ticker).Stale ti
    · exact .inr (.inr ⟨active, id, by simp [Ticker.call, Ticker.scheduleTimeout, stale]⟩)
    · refine .inl ⟨ti, not_lt.mp fun earlier => stale (stale_of_place_lt earlier), ?_⟩
      simp [Ticker.call, Ticker.scheduleTimeout, stale]
  | fire =>
    cases active with
    | true => exact .inr (.inl ⟨rfl, rfl⟩)
    | false => exact .inr (.inr ⟨false, id, rfl⟩)
  | stop =>
    cases active with
    | true => exact .inr (.inr ⟨false, nofun, rfl⟩)
    | false => exact .inr (.inr ⟨false, id, rfl⟩)

section

variable {t : Ticker} {calls : List TickerCall}

theorem Ticker.place_le_of_armed {ti : TimeoutInfo} (armed : .armed ti ∈ (t.run calls).1) :
    t.ti.place ≤ ti.place := by
  induction calls generalizing t with
  | nil => cases armed
  | cons call calls ih =>
    obtain ⟨new, later, eq⟩ | ⟨-, eq⟩ | ⟨active, -, eq⟩ := t.call_cases call <;>
      simp [Ticker.run, eq] at armed
    · obtain rfl | armed := armed
      · exact later
      · exact later.trans (ih armed)
    · exact (ih armed :)
    · exact (ih armed :)

theorem Ticker.pairwise_armed (t : Ticker) (calls : List TickerCall) :
    (t.run calls).1.Pairwise fun first second => ∀ a b, first = .armed a → second = .armed b →
      a.place ≤ b.place := by
  induction calls generalizing t with
  | nil => exact .nil
  | cons call calls ih =>
    obtain ⟨new, -, eq⟩ | ⟨-, eq⟩ | ⟨active, -, eq⟩ := t.call_cases call <;>
      simp only [Ticker.run, eq, List.singleton_append, List.nil_append]
    · refine List.pairwise_cons.mpr ⟨?_, ih _⟩
      rintro _ inside a b ⟨⟩ rfl
      exact place_le_of_armed inside
    · exact List.pairwise_cons.mpr ⟨(by rintro _ - a b ⟨⟩), ih _⟩
    · exact ih _

theorem Ticker.delivered_cases {earlier later : List TickerEvent} {ti : TimeoutInfo}
    (delivery : (t.run calls).1 = earlier ++ .delivered ti :: later) :
    (t.timerActive = true ∧ ti = t.ti ∧ earlier = []) ∨
      ∃ before, earlier = before ++ [.armed ti] := by
  induction calls generalizing t earlier with
  | nil => simp [Ticker.run] at delivery
  | cons call calls ih =>
    obtain ⟨new, -, eq⟩ | ⟨armed, eq⟩ | ⟨active, kept, eq⟩ := t.call_cases call <;>
      simp only [Ticker.run, eq, List.singleton_append, List.nil_append] at delivery
    · right
      cases earlier with
      | nil => cases delivery
      | cons event earlier =>
        obtain ⟨rfl, rest⟩ := List.cons.inj delivery
        obtain ⟨-, rfl, rfl⟩ | ⟨before, rfl⟩ := ih rest
        · exact ⟨[], rfl⟩
        · exact ⟨.armed new :: before, rfl⟩
    · cases earlier with
      | nil =>
        obtain ⟨⟨⟩, -⟩ := List.cons.inj delivery
        exact .inl ⟨armed, rfl, rfl⟩
      | cons event earlier =>
        obtain ⟨rfl, rest⟩ := List.cons.inj delivery
        obtain ⟨⟨⟩, -⟩ | ⟨before, rfl⟩ := ih rest
        exact .inr ⟨.delivered t.ti :: before, rfl⟩
    · obtain ⟨still, same⟩ | before := ih delivery
      · exact .inl ⟨kept still, same⟩
      · exact .inr before

end

/-- The places of the armed timeouts never go backwards, stale requests change nothing, and what is
delivered was armed directly before. -/
theorem run_ticker (calls : List TickerCall) :
    ((({} : Ticker).run calls).1.Pairwise fun first second => ∀ a b,
      first = .armed a → second = .armed b → a.place ≤ b.place) ∧
    (∀ ti, ti.place < (({} : Ticker).run calls).2.ti.place →
      (({} : Ticker).run calls).2.scheduleTimeout ti = ({}, (({} : Ticker).run calls).2)) ∧
    ∀ earlier ti later, (({} : Ticker).run calls).1 = earlier ++ .delivered ti :: later →
      ∃ before, earlier = before ++ [.armed ti] := by
  refine ⟨Ticker.pairwise_armed _ calls, ?_, ?_⟩
  · intro ti place
    rw [Ticker.scheduleTimeout, if_pos (Ticker.stale_of_place_lt place)]
  · intro earlier ti later delivery
    obtain ⟨⟨⟩, -⟩ | armed := Ticker.delivered_cases delivery
    exact armed

end DnaLedger.Cmt
