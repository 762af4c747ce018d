import AsyncEry.Chrono
import AsyncEry.Lib.Calendar
import AsyncEry.Lib.Mealy

/-!
# What a timing wheel is for

The calls made on a timing wheel, and the timetable that both wheels are meant to implement: a timer
scheduled for `k` ticks is booked `k` ticks from the present one, and an advance lets the whole ticks
since the last advancement pass.
-/

namespace AsyncEry.Timing

/-- A call of `schedule`, or one of `advance` with the clock reading that it makes. -/
inductive Call (Timer : Type)
  | schedule (durationFromLastAdvancement : Milliseconds) (timer : Timer)
  | advance (now : TimePoint)

/-- The timer that is scheduled. -/
def Call.timer? {Timer : Type} : Call Timer → Option Timer
  | .schedule _ timer => some timer
  | .advance _ => none

/-- A scheduled duration is not negative and less than `size` ticks. -/
def Call.InRange {Timer : Type} (tickSize : Milliseconds) (size : ℕ) : Call Timer → Prop
  | .schedule duration _ => 0 ≤ duration.toInt ∧ ticksIn tickSize duration < size
  | .advance _ => True

instance {Timer : Type} (tickSize : Milliseconds) (size : ℕ) (call : Call Timer) :
    Decidable (call.InRange tickSize size) :=
  match call with
  | .schedule _ _ => inferInstanceAs (Decidable (_ ∧ _))
  | .advance _ => inferInstanceAs (Decidable True)

structure Timetable (Timer : Type) where
  tickSize : Milliseconds
  lastAdvancementTime : TimePoint
  calendar : Calendar Timer

/-- The whole ticks from the last advancement to `now`. -/
def elapsed (tickSize : Milliseconds) (last now : TimePoint) : ℕ :=
  (ticksSince tickSize (since now last)).toNat

namespace Timetable
variable {Timer : Type}

def create (tickSize : Milliseconds) (now : TimePoint) : Timetable Timer := ⟨tickSize, now, .empty⟩

def schedule (s : Timetable Timer) (duration : Milliseconds) (timer : Timer) : Timetable Timer :=
  { s with
    calendar := s.calendar.book (s.calendar.now + (ticksIn s.tickSize duration).toNat) timer }

def advance (s : Timetable Timer) (now : TimePoint) : Timetable Timer × List Timer :=
  if since now s.lastAdvancementTime < nanos s.tickSize then (s, [])
  else
    let ticks := elapsed s.tickSize s.lastAdvancementTime now
    ({ s with calendar := s.calendar.skip ticks, lastAdvancementTime := now },
      s.calendar.handOver ticks)

def step (s : Timetable Timer) : Call Timer → Timetable Timer × List Timer
  | .schedule duration timer => (s.schedule duration timer, [])
  | .advance now => s.advance now

theorem tickSize_step (s : Timetable Timer) (call : Call Timer) :
    (s.step call).1.tickSize = s.tickSize := by
  cases call with
  | schedule => rfl
  | advance now =>
    show (s.advance now).1.tickSize = _
    unfold advance
    split <;> rfl

/-- An advance does nothing, or it lets ticks pass that fit between the last advancement and now. -/
theorem advance_cases (s : Timetable Timer) (now : TimePoint) (htick : 0 < s.tickSize.toInt) :
    s.advance now = (s, []) ∨ ∃ n : ℕ, n * nanos s.tickSize ≤ since now s.lastAdvancementTime ∧
      s.advance now = ({ s with calendar := s.calendar.skip n, lastAdvancementTime := now },
        s.calendar.handOver n) := by
  unfold advance
  split
  · exact .inl rfl
  · next hnow =>
    obtain ⟨h0, hle⟩ := ticksSince_mul_le htick (not_lt.1 hnow)
    rw [← Int.toNat_of_nonneg h0] at hle
    exact .inr ⟨_, hle, rfl⟩

/-- An advance does nothing for less than a tick, and else lets all but less than a tick pass. -/
theorem advance_tick (s : Timetable Timer) (now : TimePoint) (htick : 0 < s.tickSize.toInt) :
    since now s.lastAdvancementTime < nanos s.tickSize ∧ s.advance now = (s, []) ∨
    ∃ n : ℕ, 0 < n ∧ n * nanos s.tickSize ≤ since now s.lastAdvancementTime ∧
      since now s.lastAdvancementTime < (n + 1) * nanos s.tickSize ∧
      s.advance now = ({ s with calendar := s.calendar.skip n, lastAdvancementTime := now },
        s.calendar.handOver n) := by
  unfold advance
  split
  · next hnow => exact .inl ⟨hnow, rfl⟩
  · next hnow =>
    have hpos := nanos_pos htick
    have hle := not_lt.1 hnow
    obtain ⟨h0, hmul⟩ := ticksSince_mul_le htick hle
    have hlt := lt_ticksSince_mul htick hle
    have hdiv : 1 ≤ since now s.lastAdvancementTime / nanos s.tickSize :=
      (Int.le_ediv_iff_mul_le hpos).2 (by rwa [one_mul])
    rw [← Int.toNat_of_nonneg h0] at hmul hlt
    refine .inr ⟨_, ?_, hmul, hlt, rfl⟩
    rw [ticksSince, Int.tdiv_eq_ediv_of_nonneg (hpos.le.trans hle)]
    omega

/-- An advance hands over what is no longer pending, and the books stay. -/
theorem advance_flow (s : Timetable Timer) (now : TimePoint) (htick : 0 < s.tickSize.toInt) :
    (s.advance now).1.calendar.booked = s.calendar.booked ∧
      ((s.advance now).2 : Multiset Timer) + (s.advance now).1.calendar.pending.map Prod.snd =
        s.calendar.pending.map Prod.snd := by
  rcases s.advance_cases now htick with h | ⟨n, -, h⟩ <;> rw [h]
  · exact ⟨rfl, zero_add _⟩
  · exact ⟨rfl, s.calendar.handOver_add_pending n⟩

/-- The ticks that have passed fit between `start`, the time of construction, and the last
advancement. -/
structure Clocked (start : TimePoint) (s : Timetable Timer) : Prop where
  tick_pos : 0 < s.tickSize.toInt
  fits : s.calendar.now * nanos s.tickSize ≤ since s.lastAdvancementTime start

variable {s : Timetable Timer} {start now : TimePoint}

namespace Clocked

theorem create {tickSize : Milliseconds} (h : 0 < tickSize.toInt) :
    (create tickSize start : Timetable Timer).Clocked start :=
  ⟨h, by show ((0 : ℕ) : ℤ) * _ ≤ since start start; unfold since; omega⟩

theorem lt (h : s.Clocked start) : s.calendar.now < 2 ^ 63 := lt_of_mul_le h.tick_pos h.fits

/-- An advance processes as many ticks as the quotient of the clock readings says. -/
theorem elapsed (h : s.Clocked start)
    (hnow : ¬ since now s.lastAdvancementTime < nanos s.tickSize) :
    SizeT.ofInt (ticksSince s.tickSize (since now s.lastAdvancementTime)) =
      elapsed s.tickSize s.lastAdvancementTime now ∧
    (s.calendar.now + Timing.elapsed s.tickSize s.lastAdvancementTime now : ℕ) * nanos s.tickSize ≤
      since now start := by
  obtain ⟨h0, hle⟩ := ticksSince_mul_le h.tick_pos (not_lt.1 hnow)
  have hpos := nanos_pos h.tick_pos
  have hcast : (Timing.elapsed s.tickSize s.lastAdvancementTime now : ℤ) =
      ticksSince s.tickSize (since now s.lastAdvancementTime) := Int.toNat_of_nonneg h0
  constructor
  · refine SizeT.ofInt_of_lt h0 ?_
    rw [← hcast] at hle ⊢
    have := lt_of_mul_le h.tick_pos hle
    omega
  · have hfits := h.fits
    have hsum := since_add_since now s.lastAdvancementTime start
    push_cast
    rw [add_mul, hcast]
    omega

theorem index (h : s.Clocked start) (hnow : ¬ since now s.lastAdvancementTime < nanos s.tickSize) :
    SizeT.add s.calendar.now (SizeT.ofInt (ticksSince s.tickSize (since now s.lastAdvancementTime))) =
      s.calendar.now + Timing.elapsed s.tickSize s.lastAdvancementTime now := by
  obtain ⟨hticks, hfits⟩ := h.elapsed hnow
  have hlt := lt_of_mul_le h.tick_pos hfits
  rw [hticks, SizeT.add_of_lt (by omega)]

theorem schedule (h : s.Clocked start) (duration : Milliseconds) (timer : Timer) :
    (s.schedule duration timer).Clocked start := ⟨h.tick_pos, h.fits⟩

theorem advance (h : s.Clocked start) (now : TimePoint) : (s.advance now).1.Clocked start := by
  unfold Timetable.advance
  split
  · exact h
  · next hnow => exact ⟨h.tick_pos, (h.elapsed hnow).2⟩

end Clocked
end Timetable
end AsyncEry.Timing
