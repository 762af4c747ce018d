import AsyncEry.WheelRuns

/-!
# `Timing::PollSource`: when jobs come back

A job is placed relative to the last advancement, and its expiry is cut down to whole ticks; so it is
safe from coming back early when both together are no more than the tick that an advance waits for, and
when it is aligned. A poll at `u` processes `n` ticks only when `n` ticks lie between the last
advancement and `u`; hence a job that is due `k` ticks from now cannot come back before `k + 1` ticks
have gone by since the last advancement (`Kept`).
-/

namespace AsyncEry.Timing

/-- `timing_poll_source.h`; `schedule` and `poll` run under its lock. -/
structure PollSource (Job : Type) where
  wheel : HierarchicalTimingWheel Job

namespace PollSource
variable {Job : Type}

/-- The constructor, called at `now`: a minute in ticks of 50 ms, an hour, a day, ten days. -/
def create (now : TimePoint) : PollSource Job := ⟨.create 50 now 1200 [60, 24, 10]⟩

def schedule (s : PollSource Job) (expiry : Milliseconds) (task : Job) : PollSource Job :=
  ⟨s.wheel.schedule expiry task⟩

def poll (s : PollSource Job) (now : TimePoint) : PollSource Job × List Job :=
  let (wheel, expiredJobs) := s.wheel.advance now
  (⟨wheel⟩, expiredJobs)

end PollSource

/-- A call of `PollSource::schedule`: the poll source as the call finds it, the time, the arguments. -/
structure ScheduleCall (Job : Type) where
  pollSource : PollSource Job
  now : TimePoint
  expiry : Milliseconds
  task : Job

namespace ScheduleCall
variable {Job : Type}

/-- When the job may come back. -/
def deadline (c : ScheduleCall Job) : ℤ := c.now.toInt + nanos c.expiry

/-- The time since the last advancement and what is left of the expiry over whole ticks come to no
more than a tick, and the timer is aligned; or there is nothing to wait for. -/
def OnTime (c : ScheduleCall Job) : Prop :=
  c.expiry.toInt = 0 ∨
    since c.now c.pollSource.wheel.lastAdvancementTime +
        nanos c.expiry % nanos c.pollSource.wheel.tickSize ≤ nanos c.pollSource.wheel.tickSize ∧
      Aligned c.pollSource.wheel.lowestWheel c.pollSource.wheel.wheelsAbove
        (ticksIn c.pollSource.wheel.tickSize c.expiry).toNat

end ScheduleCall

namespace PollSource
variable {Job : Type} {s : PollSource Job} {r : Timetable (ScheduleCall Job)}
  {start clock now : TimePoint} {expiry : Milliseconds} {task : Job}

/-- The wheel shows a timetable of the calls, and no call that was on time can come back early. -/
structure Kept (start clock : TimePoint) (s : PollSource Job) (r : Timetable (ScheduleCall Job)) :
    Prop where
  shows : s.wheel.Shows 17280000 ScheduleCall.task start r
  last_le : r.lastAdvancementTime.toInt ≤ clock.toInt
  kept : ∀ p ∈ r.calendar.booked, r.calendar.now ≤ p.1 → p.2.OnTime → 0 ≤ p.2.expiry.toInt →
    p.2.deadline ≤ max clock.toInt
      (r.lastAdvancementTime.toInt + (p.1 - r.calendar.now + 1) * nanos r.tickSize)

/-- The timetable after a call that books its job for the tick at which it is due. -/
def booked (s : PollSource Job) (r : Timetable (ScheduleCall Job)) (now : TimePoint)
    (expiry : Milliseconds) (task : Job) : Timetable (ScheduleCall Job) :=
  { r with
    calendar := r.calendar.book (s.wheel.dueTick r.calendar.now expiry) ⟨s, now, expiry, task⟩ }

namespace Kept

theorem create (start : TimePoint) :
    Kept start start (create start : PollSource Job) (.create 50 start) :=
  ⟨.create (by decide) (by decide) (by decide), le_rfl, nofun⟩

/-- A call on time is due when the tick is over in which its time is up. -/
theorem deadline_le (h : s.Kept start clock r) (hd : 0 ≤ expiry.toInt)
    (hc : (⟨s, now, expiry, task⟩ : ScheduleCall Job).OnTime) :
    (⟨s, now, expiry, task⟩ : ScheduleCall Job).deadline ≤ max now.toInt
      (r.lastAdvancementTime.toInt +
        ((s.wheel.dueTick r.calendar.now expiry : ℕ) - r.calendar.now + 1) * nanos r.tickSize) := by
  have htick := h.shows.clocked.tick_pos
  rcases hc with h0 | ⟨hsum, ha⟩
  · refine le_max_of_le_left ?_
    show now.toInt + nanos expiry ≤ now.toInt
    unfold nanos
    change expiry.toInt = 0 at h0
    omega
  · change since now s.wheel.lastAdvancementTime + nanos expiry % nanos s.wheel.tickSize ≤
      nanos s.wheel.tickSize at hsum
    rw [h.shows.last, h.shows.tickSize] at hsum
    have h0 := ticksIn_nonneg htick hd
    have hk : ticksIn r.tickSize expiry = nanos expiry / nanos r.tickSize := by
      rw [← ticksSince_nanos, ticksSince, Int.tdiv_eq_ediv_of_nonneg (by unfold nanos; omega)]
    have hdiv := Int.mul_ediv_add_emod (nanos expiry) (nanos r.tickSize)
    refine le_max_of_le_right ?_
    rw [h.shows.dueTick_eq (by decide) hd ha]
    show now.toInt + nanos expiry ≤ _
    unfold since at hsum
    push_cast
    rw [Int.toNat_of_nonneg h0, add_sub_cancel_left, hk, add_mul, one_mul, mul_comm]
    omega

theorem schedule (h : s.Kept start clock r) (hnow : clock.toInt ≤ now.toInt) (expiry : Milliseconds)
    (task : Job) : (s.schedule expiry task).Kept start now (s.booked r now expiry task) := by
  refine ⟨h.shows.book expiry ⟨s, now, expiry, task⟩, h.last_le.trans hnow, ?_⟩
  intro p hp hle hc hd
  rcases List.mem_append.1 hp with hp | hp
  · exact (h.kept p hp hle hc hd).trans (max_le_max_right _ hnow)
  · cases List.mem_singleton.1 hp
    exact h.deadline_le hd hc

/-- A poll returns no job early. -/
theorem poll (h : s.Kept start clock r) (hnow : clock.toInt ≤ now.toInt) :
    (s.poll now).1.Kept start now (r.advance now).1 ∧
      ((s.poll now).2 : Multiset Job) =
        ((r.advance now).2 : Multiset (ScheduleCall Job)).map ScheduleCall.task ∧
      ∀ c ∈ (r.advance now).2, c.OnTime → 0 ≤ c.expiry.toInt → c.deadline ≤ now.toInt := by
  obtain ⟨hout, hshows⟩ := h.shows.advance (by decide) now
  have htick := h.shows.clocked.tick_pos
  have hpos := nanos_pos htick
  rcases r.advance_cases now htick with heq | ⟨n, hn, heq⟩ <;> rw [heq] at hshows hout ⊢
  · refine ⟨⟨hshows, h.last_le.trans hnow, fun p hp hle hc hd => ?_⟩, hout, nofun⟩
    exact (h.kept p hp hle hc hd).trans (max_le_max_right _ hnow)
  · unfold since at hn
    refine ⟨⟨hshows, le_rfl, fun p hp hle hc hd => ?_⟩, hout, fun c hmem hc hd => ?_⟩
    · change r.calendar.now + n ≤ p.1 at hle
      show p.2.deadline ≤ max _ (now.toInt + (p.1 - (r.calendar.now + n : ℕ) + 1) * nanos r.tickSize)
      refine (h.kept p hp (by omega) hc hd).trans (max_le_max hnow ?_)
      push_cast
      linarith
    · -- the job was due within the `n` ticks that have gone by
      obtain ⟨t, hmem, hfrom, hto⟩ := Calendar.mem_handOver.1 hmem
      refine (h.kept _ hmem hfrom hc hd).trans (max_le hnow ?_)
      have hticks : ((t : ℤ) - r.calendar.now + 1) * nanos r.tickSize ≤ n * nanos r.tickSize :=
        mul_le_mul_of_nonneg_right (by omega) hpos.le
      show r.lastAdvancementTime.toInt + ((t : ℤ) - r.calendar.now + 1) * nanos r.tickSize ≤ now.toInt
      omega

end Kept
end PollSource
end AsyncEry.Timing
