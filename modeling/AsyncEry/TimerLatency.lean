import AsyncEry.TimerCompletes

/-!
# How late a timer can be

An advance forgets what is left over of the last tick, so the wheels fall behind the clock. But what is
left over is less than a tick, and each advance that forgets something has let at least one tick pass:
the wheels go at half the speed of the clock or faster. So a timer has come back after any poll that
is made when twice its duration and a tick have gone by.
-/

namespace AsyncEry.Async.TaskTimerSource
open Cell Scheduler Timing Lts

variable {Job Err Cb : Type} {s s' : TaskTimerSource Job Err Cb} {start origin now : TimePoint}
  {x c n : ℕ} {duration : Milliseconds}

/-- Of the `c` ticks that job `x` had to wait at `origin` it has still to wait `n`, and the others have
taken two ticks each at most. -/
def Lagging (start origin : TimePoint) (x c : ℕ) (s : TaskTimerSource Job Err Cb) : Prop :=
  s.Within start x 0 ∨ ∃ n ≤ c, s.Within start x n ∧
    since s.timingPollSource.wheel.lastAdvancementTime origin ≤
      2 * (c - n) * nanos s.timingPollSource.wheel.tickSize

theorem tickSize_poll (s : TaskTimerSource Job Err Cb) (now : TimePoint) :
    (s.poll now).timingPollSource.wheel.tickSize = s.timingPollSource.wheel.tickSize :=
  s.timingPollSource.wheel.tickSize_step (.advance now)

/-- Only a poll advances the wheels. -/
theorem Step.poll_or_frame (hs : Step s s') :
    (∃ now : TimePoint, s.clock.toInt ≤ now.toInt ∧ s' = s.poll now) ∨
      s'.timingPollSource.wheel.lastAdvancementTime = s.timingPollSource.wheel.lastAdvancementTime ∧
      s'.timingPollSource.wheel.tickSize = s.timingPollSource.wheel.tickSize := by
  cases hs with
  | poll hnow => exact .inl ⟨_, hnow, rfl⟩
  | schedule | after =>
    exact .inr ⟨(HierarchicalTimingWheel.place_frame ..).2, (HierarchicalTimingWheel.place_frame ..).1⟩
  | complete | other | await => exact .inr ⟨rfl, rfl⟩

theorem tickSize_of_reach (hr : Reach (Init start) Step s) : s.timingPollSource.wheel.tickSize = 50 := by
  refine Inductive.reach (P := fun s : TaskTimerSource Job Err Cb => s.timingPollSource.wheel.tickSize = 50)
    ⟨fun s hs => by rw [hs]; rfl, fun s s' h hs => ?_⟩ hr
  rcases hs.poll_or_frame with ⟨now, -, rfl⟩ | ⟨-, htick⟩
  · exact (tickSize_poll s now).trans h
  · exact htick.trans h

theorem Lagging.poll (h : s.Lagging start origin x c) (hr : Reach (Init start) Step s)
    (hnow : s.clock.toInt ≤ now.toInt) : (s.poll now).Lagging start origin x c := by
  have hpos : 0 < nanos s.timingPollSource.wheel.tickSize := by rw [tickSize_of_reach hr]; decide
  rcases h with h | ⟨n, hn, h, hlag⟩
  · exact .inl ((h.poll hnow).mono (Nat.sub_le _ _))
  · rcases h.poll_elapsed hnow with ⟨-, hlast, h'⟩ | ⟨k, hk, hlt, hlast, h'⟩
    · exact .inr ⟨n, hn, h', by rw [hlast, tickSize_poll]; exact hlag⟩
    · by_cases hnk : n ≤ k
      · exact .inl (by rwa [Nat.sub_eq_zero_of_le hnk] at h')
      · refine .inr ⟨n - k, by omega, h', ?_⟩
        rw [hlast, tickSize_poll, Nat.cast_sub (by omega), ← since_add_since now
          s.timingPollSource.wheel.lastAdvancementTime origin]
        -- the `k` ticks took less than `k + 1`
        have hk : ((k : ℤ) + 1) * nanos s.timingPollSource.wheel.tickSize ≤
            2 * k * nanos s.timingPollSource.wheel.tickSize :=
          mul_le_mul_of_nonneg_right (by omega) hpos.le
        linarith

theorem Lagging.step (h : s.Lagging start origin x c) (hr : Reach (Init start) Step s)
    (hx : x < s.valueSources.length) (hs : Step s s') : s'.Lagging start origin x c := by
  rcases hs.poll_or_frame with ⟨now, hnow, rfl⟩ | ⟨hlast, htick⟩
  · exact h.poll hr hnow
  · have hnext : ∀ {n}, s.Within start x n → s'.Within start x n := fun h =>
      (h.step hx hs).mono (Nat.sub_le _ _)
    rcases h with h | ⟨n, hn, h, hlag⟩
    · exact .inl (hnext h)
    · exact .inr ⟨n, hn, hnext h, by rw [hlast, htick]; exact hlag⟩

/-- A poll at a time when two ticks for each one, all but the last, have gone by. -/
theorem Lagging.within_poll (h : s.Lagging start origin x c) (hr : Reach (Init start) Step s)
    (hnow : s.clock.toInt ≤ now.toInt) (hlate : 2 * (c - 1) * nanos 50 + nanos 50 ≤ since now origin) :
    (s.poll now).Within start x 0 := by
  have htick := tickSize_of_reach hr
  have hpos : 0 < nanos s.timingPollSource.wheel.tickSize := by rw [htick]; decide
  rcases h.poll hr hnow with h' | ⟨n, hn, h', hlag⟩
  · exact h'
  · -- less than a tick has gone by since the last advancement
    have hrest : since now (s.poll now).timingPollSource.wheel.lastAdvancementTime <
        nanos s.timingPollSource.wheel.tickSize := by
      obtain ⟨r, done, ha⟩ := (inv_of_reach hr).accounts
      have ha' := ha.poll hnow
      rw [ha'.kept.shows.last, ha.kept.shows.tickSize]
      rcases r.advance_tick now ha.kept.shows.clocked.tick_pos with ⟨hlt, heq⟩ | ⟨k, -, -, -, heq⟩
      · rw [heq]
        exact hlt
      · rw [heq, ← ha.kept.shows.tickSize, show since now now = 0 from sub_self _]
        exact hpos
    rw [tickSize_poll] at hlag
    rw [← htick, ← since_add_since now (s.poll now).timingPollSource.wheel.lastAdvancementTime] at hlate
    have hzero : n = 0 := by
      by_contra hne
      have hle : 2 * ((c : ℤ) - n) * nanos s.timingPollSource.wheel.tickSize ≤
          2 * (c - 1) * nanos s.timingPollSource.wheel.tickSize :=
        mul_le_mul_of_nonneg_right (by omega) hpos.le
      linarith
    exact hzero ▸ h'

theorem lagging_of_run (r : Run (Init start : TaskTimerSource Job Err Cb → Prop) Step) {i j : ℕ}
    (hij : i ≤ j) (hx : x < (r.state i).valueSources.length) (h : (r.state i).Lagging start origin x c) :
    (r.state j).Lagging start origin x c := by
  refine (r.stable (P := fun s => x < s.valueSources.length ∧ s.Lagging start origin x c)
    (fun s s' hr hs h => ?_) hij ⟨hx, h⟩).2
  exact ⟨h.1.trans_le hs.length_le, h.2.step hr h.1 hs⟩

/-- When a timer of the given duration comes back if it is polled: after twice the duration and a tick if
the cursors of the wheels are such that the timer is `Aligned`, and in any case after twice the ticks that
the wheels have buckets for. -/
def Overdue (s : TaskTimerSource Job Err Cb) (duration : Milliseconds) (elapsed : ℤ) : Prop :=
  let w := s.timingPollSource.wheel
  2 * maxTicks * nanos w.tickSize ≤ elapsed ∨
    0 ≤ duration.toInt ∧ Aligned w.lowestWheel w.wheelsAbove (ticksIn w.tickSize duration).toNat ∧
    2 * nanos duration + nanos w.tickSize ≤ elapsed

theorem Overdue.mono {elapsed elapsed' : ℤ} (h : s.Overdue duration elapsed) (hle : elapsed ≤ elapsed') :
    s.Overdue duration elapsed' :=
  h.imp (fun h => h.trans hle) fun ⟨hd, ha, h⟩ => ⟨hd, ha, h.trans hle⟩

theorem Overdue.pos {elapsed : ℤ} (h : s.Overdue duration elapsed) (hr : Reach (Init start) Step s) :
    0 < elapsed := by
  unfold Overdue at h
  dsimp only at h
  rw [tickSize_of_reach hr] at h
  have hpos : 0 < nanos 50 := by decide
  rcases h with h | ⟨hd, -, h⟩
  · exact lt_of_lt_of_le (by decide) h
  · have hduration : 0 ≤ nanos duration := mul_nonneg hd (by decide)
    linarith

theorem Overdue.within (r : Run (Init start : TaskTimerSource Job Err Cb → Prop) Step) {i j : ℕ}
    {time : TimePoint} (hnow : (r.state i).clock.toInt ≤ now.toInt)
    (hafter : r.state (i + 1) = (r.state i).after now duration) (hij : i < j)
    (htime : (r.state j).clock.toInt ≤ time.toInt) (hpoll : r.state (j + 1) = (r.state j).poll time)
    (hlate : (r.state i).Overdue duration (since time now)) :
    (r.state (j + 1)).Within start (r.state i).valueSources.length 0 := by
  have htick := tickSize_of_reach (r.reach i)
  have hx := lt_length_of_after r hafter (Nat.lt_succ_self i)
  -- the last advancement was not after the call
  have hlast : since (r.state (i + 1)).timingPollSource.wheel.lastAdvancementTime now ≤ 0 := by
    obtain ⟨t, done, ha⟩ := (inv_of_reach (r.reach i)).accounts
    have hle := ha.kept.last_le
    have hframe : ((r.state i).after now duration).timingPollSource.wheel.lastAdvancementTime =
        (r.state i).timingPollSource.wheel.lastAdvancementTime :=
      (HierarchicalTimingWheel.place_frame ..).2
    rw [hafter, hframe, ha.kept.shows.last]
    unfold since
    omega
  have hbegin : ∀ {c : ℕ}, (r.state (i + 1)).Within start (r.state i).valueSources.length c →
      2 * ((c : ℤ) - 1) * nanos 50 + nanos 50 ≤ since time now →
      (r.state (j + 1)).Within start (r.state i).valueSources.length 0 := by
    intro c hc hlate
    have hlag : (r.state (i + 1)).Lagging start now (r.state i).valueSources.length c :=
      .inr ⟨c, le_rfl, hc, by simpa using hlast⟩
    have hlag := lagging_of_run r hij hx hlag
    rw [hpoll]
    exact hlag.within_poll (r.reach j) htime hlate
  unfold Overdue at hlate
  dsimp only at hlate
  rw [htick] at hlate
  rcases hlate with hlate | ⟨hd, ha, hlate⟩
  · refine hbegin (within_maxTicks (r.reach (i + 1)) _) ?_
    have hpos : 0 < nanos 50 := by decide
    linarith
  · rw [← htick] at ha
    have h := Within.after (r.reach i) hnow hd ha
    rw [← hafter, htick] at h
    refine hbegin h ?_
    have hticks : ((ticksIn 50 duration).toNat : ℤ) * nanos 50 ≤ nanos duration := by
      rw [Int.toNat_of_nonneg (ticksIn_nonneg (by decide) hd)]
      show duration.toInt.tdiv 50 * (50 * 1000000) ≤ duration.toInt * 1000000
      rw [Int.tdiv_eq_ediv_of_nonneg hd]
      omega
    push_cast
    linarith

/-- After a poll that finds a timer overdue, its job has come back, whenever and however often there were
other polls. The shorter bound of `Overdue` is for timers that are `Aligned` as the cursors stand at the
moment of `after`. -/
theorem run_timer_latency (start : TimePoint)
    (r : Run (Init start : TaskTimerSource Job Err Cb → Prop) Step) {i : ℕ} {now : TimePoint}
    {duration : Milliseconds} (hnow : (r.state i).clock.toInt ≤ now.toInt)
    (hafter : r.state (i + 1) = (r.state i).after now duration) {j : ℕ} {time : TimePoint} (hij : i < j)
    (htime : (r.state j).clock.toInt ≤ time.toInt) (hpoll : r.state (j + 1) = (r.state j).poll time)
    (hlate : (r.state i).Overdue duration (since time now)) (k : ℕ) :
    let x := (r.state i).valueSources.length
    .complete x ∈ (r.state (j + 1 + k)).expired ∨ (r.state (j + 1 + k)).Resolved x := by
  intro x
  have hx : x < (r.state (j + 1)).valueSources.length := lt_length_of_after r hafter (by omega)
  have hwithin := hlate.within r hnow hafter hij htime hpoll
  exact ((Within.run r hx hwithin k).mono (by omega)).returned (r.reach _) (lt_length_of_run r hx k)

/-- A timer of 50 ms, and one poll at 150 ms. -/
def polledLate : Run (Init 0 : TaskTimerSource Unit Unit Unit → Prop) Step where
  state :=
    let s : TaskTimerSource Unit Unit Unit := after ⟨0, .create 0, [], 0, [], [], 0⟩ 0 50
    cons ⟨0, .create 0, [], 0, [], [], 0⟩ (cons s fun _ => s.poll 150000000)
  starts := rfl
  steps n := by
    rcases n with _ | _ | n
    · exact .inr (.after 50 (by decide))
    · exact .inr (.poll (by decide))
    · exact .inl rfl

theorem run_timer_latency_polledLate :
    .complete 0 ∈ (polledLate.state 2).expired ∨ (polledLate.state 2).Resolved 0 :=
  @run_timer_latency Unit Unit Unit 0 polledLate 0 0 50 (by decide) rfl 1 150000000 (by decide) (by decide)
    rfl (.inr ⟨by decide, by decide, by decide⟩) 0

end AsyncEry.Async.TaskTimerSource
