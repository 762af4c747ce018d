import AsyncEry.TimerScheduler
import AsyncEry.TimerLatency
import AsyncEry.PollProgress
import AsyncEry.PoolProgress

/-!
# Timers come back

When the program asks for nothing more, the timers have only so many jobs for the pool: the ones in the
wheel and in the hands of the poll thread, and the callbacks that wait in cells (`remaining`). So some
time the pool is offered nothing more, and a pool that goes on runs what it has. The poll thread polls
the timing source after every tick. So a timer that is overdue by another tick of the poll thread's wheel
has been polled since it was, and its task is resolved some time (`run_timer_resolves`).
-/

namespace AsyncEry.Scheduler.TimerProgram
open Cell Async Timing Lts
open PollLoop (wheelTickSize numTicks scheduleAll pollFrequency Goes)

variable {Job Err Cb : Type} {n m : ℕ} {start now : TimePoint} {s s' : TimerProgram Job Err Cb}
  {job : PoolJob Job Cb} {calls : List (Context × List (PoolJob Job Cb))}

/-! ### What is left to offer -/

/-- The callbacks that wait in cells. -/
def waiting (cells : List (WriteOnceCell Unit Err Cb)) : ℕ :=
  (cells.map fun cell => cell.callbacks.length).sum

/-- How many jobs there are that the pool has not been offered. -/
def remaining (s : TimerProgram Job Err Cb) : ℕ :=
  s.timers.timingPollSource.wheel.stored.card + (hand s.loop.point).card + waiting s.timers.valueSources

theorem waiting_set {cells : List (WriteOnceCell Unit Err Cb)} {i : ℕ} {cell : WriteOnceCell Unit Err Cb}
    (h : cells[i]? = some cell) (cell' : WriteOnceCell Unit Err Cb) :
    waiting (cells.set i cell') + cell.callbacks.length = waiting cells + cell'.callbacks.length := by
  induction cells generalizing i with
  | nil => cases h
  | cons first cells ih =>
    cases i with
    | zero =>
      cases h
      simp only [waiting, List.set_cons_zero, List.map_cons, List.sum_cons]
      omega
    | succ i =>
      have hrest := ih h
      simp only [waiting, List.set_cons_succ, List.map_cons, List.sum_cons] at hrest ⊢
      omega

theorem callbacks_write (cell : WriteOnceCell Unit Err Cb) (ctx : Context) :
    (cell.write ctx ()).1.callbacks.length + (cell.write ctx ()).2.1.length = cell.callbacks.length := by
  unfold WriteOnceCell.write WriteOnceCell.writeResultToValue
  split
  · rfl
  · exact (Nat.zero_add _).trans (List.length_map _)

theorem length_queueCallbacks (jobs : List (Queued Unit Err Cb)) :
    (offers (queueCallbacks jobs : List (Context × List (PoolJob Job Cb)))).length = jobs.length := by
  simp [offers, queueCallbacks, Function.comp_def]

theorem Step.remaining (hs : Step n s calls s') (hquiet : s'.requests = s.requests) :
    s'.remaining + (offers calls).length = s.remaining := by
  cases hs with
  | after | schedule | await | queue => exact absurd hquiet (Nat.succ_ne_self _)
  | advance _ h | reschedule _ h | done h =>
    unfold TimerProgram.remaining
    rw [h]
    rfl
  | @pollTimers now rest hnow h =>
    have hstored := congrArg Multiset.card (s.timers.timingPollSource.wheel.stored_advance now)
    rw [Multiset.card_add, Multiset.coe_card] at hstored
    unfold TimerProgram.remaining
    rw [h]
    show (s.timers.timingPollSource.wheel.advance now).1.stored.card +
      (Multiset.ofList (List.map _ (s.timers.timingPollSource.wheel.advance now).2)).card +
        waiting s.timers.valueSources + 0 = _ + 0 + waiting s.timers.valueSources
    rw [Multiset.coe_card, List.length_map]
    omega
  | pollOther jobs h =>
    obtain rfl : jobs = [] := List.eq_nil_of_length_eq_zero (Nat.add_eq_left.1 hquiet)
    unfold TimerProgram.remaining
    rw [h]
    rfl
  | @queueJobs jobs h =>
    unfold TimerProgram.remaining
    rw [h, offers_singleton]
    show s.timers.timingPollSource.wheel.stored.card + 0 + waiting s.timers.valueSources + jobs.length =
      _ + (Multiset.ofList jobs).card + _
    rw [Multiset.coe_card]
    omega

theorem Runs.remaining {i : ℕ} (hs : Runs i job s calls s') :
    s'.remaining + (offers calls).length = s.remaining := by
  cases hs with
  | @complete _ _ cell _ _ hcell =>
    have hset := waiting_set hcell (cell.write ⟨some i⟩ ()).1
    have hwrite := callbacks_write cell ⟨some i⟩
    rw [length_queueCallbacks]
    show s.timers.timingPollSource.wheel.stored.card + (hand s.loop.point).card +
      waiting (s.timers.valueSources.set _ _) + _ = _ + _ + _
    omega
  | timer | callback | other => rfl

/-! ### The turn of the timing source -/

theorem Step.of_head (hs : Step n s calls s') (hp : s.loop.point = .head) (hne : s'.loop ≠ s.loop) :
    ∃ now : TimePoint, s.clock.toInt ≤ now.toInt ∧
      s'.loop.pollScheduler = (s.loop.pollScheduler.advance now).1 := by
  cases hs with
  | after | schedule | await | queue => exact absurd rfl hne
  | @advance now hnow => exact ⟨now, hnow, rfl⟩
  | pollTimers _ h | pollOther _ h | queueJobs h | reschedule _ h | done h => cases hp.symm.trans h

theorem Step.of_turn (hs : Step n s calls s') (hp : s.loop.point = .next)
    (hr : s.loop.ready.head? = some 0) (hne : s'.loop ≠ s.loop) :
    ∃ now : TimePoint, s.clock.toInt ≤ now.toInt ∧ s'.timers = s.timers.poll now := by
  cases hs with
  | after | schedule | await | queue => exact absurd rfl hne
  | @pollTimers now rest hnow => exact ⟨now, hnow, rfl⟩
  | pollOther jobs _ hready hsource =>
    rw [hready] at hr
    exact absurd (Option.some.inj hr) hsource
  | done _ hready =>
    rw [hready] at hr
    cases hr
  | advance _ h | queueJobs h | reschedule _ h => cases hp.symm.trans h

/-! ### Rounds without a source -/

/-- The poll thread goes round and finds no source to poll. -/
def idleRound (s : TimerProgram Job Err Cb) : TimerProgram Job Err Cb :=
  match s.loop.point with
  | .head =>
    { s with loop := { s.loop with
        point := .next
        advances := ⟨s.loop.advances.length, s.loop.pollScheduler.currentWheelIndex,
          s.loop.pollScheduler.currentWheelIndex⟩ :: s.loop.advances } }
  | _ => { s with loop := { s.loop with point := .head } }

/-- It does so when the clock stands still. -/
structure Idle (s : TimerProgram Job Err Cb) : Prop where
  point : s.loop.point = .head ∨ s.loop.point = .next
  ready : s.loop.ready = []
  early : since s.clock s.loop.last < nanos s.loop.pollScheduler.wheelTickSize

theorem Idle.round (h : s.Idle) :
    Step n s [] (idleRound s) ∧ (idleRound s).Idle ∧ (idleRound s).loop ≠ s.loop := by
  rcases h.point with hp | hp
  · have hround : idleRound s = { s with loop := { s.loop with
        point := .next
        advances := ⟨s.loop.advances.length, s.loop.pollScheduler.currentWheelIndex,
          s.loop.pollScheduler.currentWheelIndex⟩ :: s.loop.advances } } := by
      rw [idleRound, hp]
    have hadvance : s.loop.pollScheduler.advance s.clock = (s.loop.pollScheduler, []) := if_pos h.early
    have hstep := Step.advance (n := n) (le_refl s.clock.toInt) hp
    rw [hadvance, ← h.ready] at hstep
    rw [hround]
    refine ⟨hstep, ⟨.inr rfl, h.ready, h.early⟩, fun heq => ?_⟩
    cases hp.symm.trans (congrArg PollLoop.point heq).symm
  · have hround : idleRound s = { s with loop := { s.loop with point := .head } } := by
      rw [idleRound, hp]
    rw [hround]
    refine ⟨.done hp h.ready, ⟨.inl rfl, h.ready, h.early⟩, fun heq => ?_⟩
    cases hp.symm.trans (congrArg PollLoop.point heq).symm

theorem Idle.iterate (h : s.Idle) (k : ℕ) : (idleRound^[k] s).Idle := by
  induction k with
  | zero => exact h
  | succ k ih =>
    rw [Function.iterate_succ_apply']
    exact (ih.round (n := 0)).2.1

theorem iterate_idleRound (s : TimerProgram Job Err Cb) (k : ℕ) :
    (idleRound^[k] s).requests = s.requests ∧ (idleRound^[k] s).clock = s.clock := by
  induction k with
  | zero => exact ⟨rfl, rfl⟩
  | succ k ih =>
    rw [Function.iterate_succ_apply', ← ih.1, ← ih.2]
    unfold idleRound
    split <;> exact ⟨rfl, rfl⟩

/-! ### Runs -/

variable [Inhabited Job] {r : SystemRun start n m Job Err Cb} {i j k : ℕ}

theorem remaining_step {s s' : System n Job Err Cb} (hs : Pooled.Step (client n) s s')
    (hquiet : s'.state.requests = s.state.requests) :
    s'.state.remaining + s'.pool.offered.length = s.state.remaining + s.pool.offered.length := by
  cases hs with
  | @step calls state hs =>
    have hsame := Step.remaining hs hquiet
    show state.remaining + (s.pool.offered ++ offers calls).length = _
    rw [List.length_append]
    omega
  | @run job calls state i hp hs =>
    have hsame := Runs.remaining hs
    show state.remaining + (s.pool.offered ++ offers calls).length = _
    rw [List.length_append]
    omega
  | pool h hoffered => rw [hoffered]

/-- When the program asks for nothing more, the pool is offered nothing more some time. -/
theorem exists_offered_eq (r : SystemRun start n m Job Err Cb)
    (hquiet : ∀ l, k ≤ l → (r.state l).state.requests = (r.state k).state.requests) :
    ∃ l, ∀ j, l ≤ j → (r.state j).pool.offered = (r.state l).pool.offered := by
  have hsame : ∀ d, (r.state (k + (d + 1))).state.remaining + (r.state (k + (d + 1))).pool.offered.length =
      (r.state (k + d)).state.remaining + (r.state (k + d)).pool.offered.length := by
    intro d
    rcases r.steps (k + d) with heq | hs
    · rw [← Nat.add_assoc, heq]
    · exact remaining_step hs ((hquiet _ (by omega)).trans (hquiet _ (by omega)).symm)
  have hle : ∀ d, (r.state (k + d)).pool.offered <+: (r.state (k + (d + 1))).pool.offered :=
    fun d => (Pooled.grows_of_le r (by omega)).offered
  obtain ⟨d, hd⟩ := exists_minimal (f := fun d => (r.state (k + d)).state.remaining) wellFounded_lt
    fun d => by
      have hsame := hsame d
      have hle := (hle d).length_le
      omega
  refine ⟨k + d, fun j hj => ?_⟩
  obtain ⟨e, rfl⟩ := Nat.exists_eq_add_of_le (show k ≤ j by omega)
  refine eq_of_unchanged (f := fun d => (r.state (k + d)).pool.offered) (fun e hde => ?_)
    (show d ≤ e by omega)
  have hsame := hsame e
  have hmin := hd e hde
  exact ((hle e).eq_of_length_le (by omega)).symm

theorem clock_le (r : SystemRun start n m Job Err Cb) (hij : i ≤ j) :
    (r.state i).state.clock.toInt ≤ (r.state j).state.clock.toInt := by
  refine r.stable (P := fun s => (r.state i).state.clock.toInt ≤ s.state.clock.toInt)
    (fun s s' hr hs h => ?_) hij le_rfl
  cases hs with
  | step hs => exact h.trans (Step.timely hs (timely_of_reach hr)).2
  | run l hp hs =>
    rw [(Runs.frame hs).1]
    exact h
  | pool => exact h

/-- The frequency that the timing source asks for. -/
theorem frequency_of_reach {s : System n Job Err Cb}
    (h : Reach (Pooled.Init (Init start m)) (Pooled.Step (client n)) s) :
    ∀ p ∈ s.state.loop.pollsOf 0, p.frequency = pollFrequency := by
  suffices hall : ∀ p ∈ s.state.loop.polls, p.source = 0 → p.frequency = pollFrequency from
    fun p hp => hall p (List.mem_filter.1 hp).1 (of_decide_eq_true (List.mem_filter.1 hp).2)
  refine Inductive.reach
    (P := fun s : System n Job Err Cb => ∀ p ∈ s.state.loop.polls, p.source = 0 → p.frequency = pollFrequency)
    ⟨fun s hs => ?_, fun s s' h hs => ?_⟩ h
  · obtain ⟨⟨-, -, hloop, -⟩, -⟩ := hs
    rw [hloop]
    exact nofun
  · cases hs with
    | step hs =>
      cases hs with
      | reschedule frequency _ _ _ _ _ hsource =>
        intro p hp
        rcases List.mem_cons.1 hp with rfl | hp
        · exact hsource
        · exact h p hp
      | _ => exact h
    | run l hp hs =>
      rw [(Runs.frame hs).2.1]
      exact h
    | pool => exact h

/-- A step of the poll thread is one of the program. -/
theorem step_of_loop_ne {s s' : System n Job Err Cb} (hs : s' = s ∨ Pooled.Step (client n) s s')
    (hne : s'.state.loop ≠ s.state.loop) : ∃ calls, Step n s.state calls s'.state := by
  rcases hs with rfl | hs
  · exact absurd rfl hne
  · cases hs with
    | step hs => exact ⟨_, hs⟩
    | run l hp hs => exact absurd (Runs.frame hs).2.1 hne
    | pool => exact absurd rfl hne

/-- Once the clock is a tick further, the poll thread has found one gone by. -/
theorem exists_ticks (hgoes : Goes (loopRun r)) {bound : ℤ}
    (hbefore : (r.state i).state.clock.toInt < bound)
    (hlate : bound + nanos wheelTickSize ≤ (r.state j).state.clock.toInt) :
    ∃ l, i ≤ l ∧ (r.state l).state.loop.Ticks (r.state (l + 1)).state.loop ∧
      bound ≤ (r.state (l + 1)).state.loop.last.toInt := by
  obtain ⟨a, ha, hhead, hne⟩ := hgoes.exists_advance (max i j)
  obtain ⟨calls, hs⟩ := step_of_loop_ne (r.steps a) hne
  obtain ⟨now, hnow, hadvance⟩ := Step.of_head hs hhead hne
  obtain ⟨start', t, hinv⟩ := PollLoop.inv_of_reach ((loopRun r).reach a)
  have htick : (r.state a).state.loop.pollScheduler.wheelTickSize = wheelTickSize :=
    hinv.shows.tickSize.trans hinv.tickSize
  have hreached : bound ≤ (r.state (a + 1)).state.loop.last.toInt := by
    have hlt := PollLoop.lt_last_advance (r.state a).state.loop.pollScheduler now (by rw [htick]; decide)
    rw [htick, ← hadvance] at hlt
    have hle := clock_le r (show j ≤ a by omega)
    change now.toInt - (r.state (a + 1)).state.loop.last.toInt < _ at hlt
    omega
  obtain ⟨d, rfl⟩ := Nat.exists_eq_add_of_le (show i ≤ a by omega)
  -- the first moment from `i` on
  have hfirst : ¬ bound ≤ (r.state (i + 0)).state.loop.last.toInt :=
    not_le.2 ((timely_of_reach (r.reach i)).loop.trans_lt hbefore)
  obtain ⟨e, hnot, he⟩ := Nat.exists_not_and_succ_of_not_zero_of_exists
    (p := fun d => bound ≤ (r.state (i + d)).state.loop.last.toInt) hfirst ⟨d + 1, hreached⟩
  refine ⟨i + e, Nat.le_add_right i e, fun hlast => hnot ?_, he⟩
  have hsame : bound ≤ (r.state (i + e + 1)).state.loop.last.toInt := he
  rwa [hlast] at hsame

/-- And then it polls the timing source. -/
theorem exists_poll (hm : 0 < m) (hgoes : Goes (loopRun r)) {bound : ℤ}
    (hbefore : (r.state i).state.clock.toInt < bound)
    (hlate : bound + nanos wheelTickSize ≤ (r.state j).state.clock.toInt) :
    ∃ l, i < l ∧ ∃ time : TimePoint, bound ≤ time.toInt ∧
      (r.state l).state.timers.clock.toInt ≤ time.toInt ∧
      (r.state (l + 1)).state.timers = (r.state l).state.timers.poll time := by
  obtain ⟨a, hia, hticks, hbound⟩ := exists_ticks hgoes hbefore hlate
  obtain ⟨start', t, hinv⟩ := PollLoop.inv_of_reach ((loopRun r).reach a)
  have hstep : PollLoop.Step (r.state a).state.loop (r.state (a + 1)).state.loop := by
    refine ((loopRun r).steps a).resolve_left fun heq => absurd hticks (PollLoop.not_ticks ?_)
    exact congrArg PollLoop.last heq
  obtain ⟨hpoint, hmem⟩ := hinv.mem_ready hstep hticks hm fun p hp => by
    rw [frequency_of_reach (r.reach a) p hp]
    decide
  obtain ⟨l, hal, hpoint', hready, hne⟩ := hgoes.exists_turn hpoint hmem
  obtain ⟨calls, hs⟩ := step_of_loop_ne (r.steps l) hne
  obtain ⟨time, htime, hpoll⟩ := Step.of_turn hs hpoint' hready hne
  have hlast := (timely_of_reach (r.reach (a + 1))).loop
  have hle := clock_le r hal
  exact ⟨l, by omega, time, by omega, (timely_of_reach (r.reach l)).timers.trans htime, hpoll⟩

/-- In a fair run in which the poll thread goes on, and the program and the other sources ask for nothing
more from some moment on, the task of a timer is resolved some time, once the timer is overdue by a tick
of the poll thread's wheel; and then the pool has nothing left to run. Whether the shorter bound of
`Overdue` applies depends on the cursors of the wheels at the moment of `after` (`Aligned`). The run
begins when the poll thread has made its wheel, and its poll frequencies are at least 0 and below a
minute. -/
theorem run_timer_resolves (start : TimePoint) {n m : ℕ} (hn : 0 < n) (hm : 0 < m)
    (r : SystemRun start n m Job Err Cb) (hf : Pooled.Fair r)
    (hgoes : ∀ k, ∃ l, k ≤ l ∧ (r.state (l + 1)).state.loop ≠ (r.state l).state.loop) {k : ℕ}
    (hquiet : ∀ l, k ≤ l → (r.state l).state.requests = (r.state k).state.requests) {i : ℕ}
    {now : TimePoint} {duration : Milliseconds} (hnow : (r.state i).state.clock.toInt ≤ now.toInt)
    (hafter : (r.state (i + 1)).state.timers = (r.state i).state.timers.after now duration) {j : ℕ}
    (hlate : (r.state i).state.timers.Overdue duration
      (since (r.state j).state.clock now - nanos wheelTickSize)) :
    ∃ l, ∀ a, l ≤ a → (r.state a).pool.held = 0 ∧
      (r.state a).state.timers.Resolved (r.state i).state.timers.valueSources.length := by
  have hclock := (timely_of_reach (r.reach i)).timers.trans hnow
  have hpos := hlate.pos ((timersRun r).reach i)
  have hbefore : (r.state i).state.clock.toInt < (r.state j).state.clock.toInt - nanos wheelTickSize := by
    unfold since at hpos
    omega
  obtain ⟨p, hip, time, hbound, htime, hpoll⟩ := exists_poll hm hgoes hbefore (sub_add_cancel _ _).le
  have hwithin := TaskTimerSource.Overdue.within (timersRun r) hclock hafter hip htime hpoll
    (hlate.mono (by unfold since; omega))
  have hx := TaskTimerSource.lt_length_of_after (timersRun r) hafter (show i < p + 1 by omega)
  obtain ⟨q, hoffered⟩ := exists_offered_eq r hquiet
  obtain ⟨b, -, hheld⟩ := Pooled.exists_held_eq_zero r hn hf hoffered
  -- with nothing in the pool, at the head of an iteration of the poll thread
  obtain ⟨c, hc, hhead, -⟩ := @Goes.exists_advance _ _ (loopRun r) hgoes (max b (p + 1))
  have hnone := expired_eq_zero (r.reach c) hhead (hheld c (by omega))
  obtain ⟨d, rfl⟩ := Nat.exists_eq_add_of_le (show p + 1 ≤ c by omega)
  have hdue := (TaskTimerSource.Within.run (timersRun r) hx hwithin d).mono (m := 0) (by omega)
  have hresolved := (hdue.returned ((timersRun r).reach _)
    (TaskTimerSource.lt_length_of_run (timersRun r) hx d)).resolve_left fun hmem => by
      change _ ∈ (r.state (p + 1 + d)).state.timers.expired at hmem
      rw [hnone] at hmem
      cases hmem
  refine ⟨p + 1 + d, fun a ha => ⟨hheld a (by omega), ?_⟩⟩
  exact (timersRun r).stable (P := fun s => s.Resolved (r.state i).state.timers.valueSources.length)
    (fun _ _ _ hs h => h.step hs) ha hresolved

/-! ### A run -/

/-- The poll thread and the worker in turns. -/
def idleTurns (s : TimerProgram Job Err Cb) (g q : JobQueue (PoolJob Job Cb))
    (offered executed : List (PoolJob Job Cb)) (k : ℕ) : System 1 Job Err Cb :=
  ⟨idleRound^[k / 2] s, .solo g q (WorkerPool.idlePoint ((k + 1) / 2)) offered executed⟩

theorem Idle.turns (h : s.Idle) {g q : JobQueue (PoolJob Job Cb)} (hg : g.Inv)
    (hgnil : g.contents = []) (hq : q.Inv) (hqnil : q.contents = [])
    (offered executed : List (PoolJob Job Cb)) (k : ℕ) :
    Pooled.Step (client 1) (idleTurns s g q offered executed k)
      (idleTurns s g q offered executed (k + 1)) := by
  obtain ⟨e, rfl | rfl⟩ : ∃ e, k = 2 * e ∨ k = 2 * e + 1 := ⟨k / 2, by omega⟩
  · have hloop : (2 * e + 1) / 2 = e := by omega
    have hworker : (2 * e + 1 + 1) / 2 = e + 1 := by omega
    unfold idleTurns
    rw [hloop, hworker, Nat.mul_div_cancel_left e Nat.two_pos]
    exact .pool (WorkerPool.solo_idle hg hgnil hq hqnil offered executed e) rfl rfl
  · have hloop : (2 * e + 1) / 2 = e := by omega
    have hworker : (2 * e + 1 + 1) / 2 = e + 1 := by omega
    have hworker' : (2 * e + 1 + 1 + 1) / 2 = e + 1 := by omega
    unfold idleTurns
    rw [hloop, hworker, hworker', Function.iterate_succ_apply']
    let pool : WorkerPool 1 (PoolJob Job Cb) := .solo g q (WorkerPool.idlePoint (e + 1)) offered executed
    have hstep : Pooled.Step (client 1) ⟨idleRound^[e] s, pool⟩ ⟨idleRound (idleRound^[e] s), pool.call []⟩ :=
      .step (h.iterate e).round.1
    rwa [WorkerPool.solo_call_nil] at hstep

omit [Inhabited Job] in
theorem Idle.turns_loop (h : s.Idle) (g q : JobQueue (PoolJob Job Cb))
    (offered executed : List (PoolJob Job Cb)) (k : ℕ) :
    (idleTurns s g q offered executed (2 * k + 2)).state.loop ≠
      (idleTurns s g q offered executed (2 * k + 1)).state.loop := by
  have hloop : (2 * k + 1) / 2 = k := by omega
  have hnext : (2 * k + 2) / 2 = k + 1 := by omega
  unfold idleTurns
  rw [hloop, hnext, Function.iterate_succ_apply']
  exact ((h.iterate k).round (n := 0)).2.2

/-- From where the program and the pool are idle a run may go on for ever. -/
theorem Idle.exists_run (h : s.Idle) {g q : JobQueue (PoolJob Job Cb)} (hg : g.Inv)
    (hgnil : g.contents = []) (hq : q.Inv) (hqnil : q.contents = [])
    {offered executed : List (PoolJob Job Cb)} {s₀ s₁ : System 1 Job Err Cb}
    (hinit : Pooled.Init (Init start m) s₀) (hstep : Pooled.Step (client 1) s₀ s₁)
    (hreach : Reach (· = s₁) (Pooled.Step (client 1)) ⟨s, .solo g q .poll offered executed⟩) :
    ∃ (r : SystemRun start 1 m Job Err Cb) (k : ℕ), r.state 0 = s₀ ∧ r.state 1 = s₁ ∧ Pooled.Fair r ∧
      (∀ j, ∃ l, j ≤ l ∧ (r.state (l + 1)).state.loop ≠ (r.state l).state.loop) ∧
      ∀ l, k ≤ l → (r.state l).state.requests = s.requests ∧ (r.state l).state.clock = s.clock := by
  obtain ⟨r, k, hr⟩ := Run.extend hreach (idleTurns s g q offered executed) rfl
    (h.turns hg hgnil hq hqnil offered executed)
  have hsecond : r.state 0 = s₁ := r.starts
  rw [← hsecond] at hstep
  let r' : SystemRun start 1 m Job Err Cb :=
    ⟨cons s₀ r.state, hinit, fun n => by cases n with | zero => exact .inr hstep | succ n => exact r.steps n⟩
  have hr' : ∀ j, r'.state (k + 1 + j) = idleTurns s g q offered executed j := by
    intro j
    rw [← hr j, Nat.add_right_comm]
    rfl
  have hfair : Pooled.Fair r' := .of_solo (fun j => by rw [hr']; rfl) fun j => by
    refine ⟨2 * j, by omega, ?_⟩
    rw [show (2 * j + 1 + 1) / 2 = j + 1 by omega, show (2 * j + 1) / 2 = j by omega]
    exact WorkerPool.idlePoint_succ_ne j
  refine ⟨r', k + 1, rfl, hsecond, hfair, fun j => ?_, fun l hl => ?_⟩
  · refine ⟨k + 1 + (2 * j + 1), by omega, ?_⟩
    rw [hr', Nat.add_assoc (k + 1), hr']
    exact h.turns_loop g q offered executed j
  · obtain ⟨j, rfl⟩ := Nat.exists_eq_add_of_le hl
    rw [hr']
    exact iterate_idleRound s _

/-- The poll thread wakes up at `now` and polls the timing source, which has one job, for value source 0;
the worker runs it, and there is nothing more to do. -/
theorem reach_idle {w : TimingWheel ℕ} {t : TaskTimerSource Job Err Cb} {now : TimePoint}
    (hnow : (0 : TimePoint).toInt ≤ now.toInt) (hready : (w.advance now).2 = [0])
    (hlast : (w.advance now).1.lastAdvancementTime = now)
    (htick : (w.advance now).1.wheelTickSize = wheelTickSize) (hexpired : t.expired = 0)
    (hcells : t.valueSources = [.init]) (hpoll : (t.timingPollSource.poll now).2 = [.complete 0]) :
    ∃ (s : TimerProgram Job Err Cb) (g : JobQueue (PoolJob Job Cb)) (jobs : List (PoolJob Job Cb)),
      s.Idle ∧ s.requests = 1 ∧ s.clock = now ∧ g.Inv ∧ g.contents = [] ∧
      Reach (· = ⟨⟨0, t, ⟨w, [], .head, [], [], []⟩, 1⟩, .solo (.init 1024) (.init 1024) .poll [] []⟩)
        (Pooled.Step (client 1)) ⟨s, .solo g (.init 1024) .poll jobs jobs⟩ := by
  let w₁ := (w.advance now).1
  let a : PollLoop.Advance := ⟨0, w.currentWheelIndex, w₁.currentWheelIndex⟩
  let job : PoolJob Job Cb := .timer (.complete 0)
  let s₁ : TimerProgram Job Err Cb := ⟨0, t, ⟨w, [], .head, [], [], []⟩, 1⟩
  let s₂ : TimerProgram Job Err Cb := ⟨now, t, ⟨w₁, [0], .next, [a], [], []⟩, 1⟩
  let s₃ : TimerProgram Job Err Cb := ⟨now, t.poll now, ⟨w₁, [0], .queue [job], [a], [], []⟩, 1⟩
  let s₄ : TimerProgram Job Err Cb :=
    ⟨now, t.poll now, ⟨w₁, [0], .reschedule [job], [a], [], [(Context.empty, [job])]⟩, 1⟩
  let w₀ : WorkerPool 1 (PoolJob Job Cb) := .solo (.init 1024) (.init 1024) .poll [] []
  have h₁ : Step 1 s₁ [] s₂ := by
    have h := @Step.advance _ _ _ 1 s₁ now hnow rfl
    rw [hready] at h
    exact h
  have h₂ : Step 1 s₂ [] s₃ := by
    have h := @Step.pollTimers _ _ _ 1 s₂ now [] le_rfl rfl rfl
    rw [show s₂.timers.timingPollSource = t.timingPollSource from rfl, hpoll] at h
    exact h
  have h₃ : Step 1 s₃ [(Context.empty, [job])] s₄ := .queueJobs rfl
  -- the job goes through the pool
  have hinit : (JobQueue.init 1024 : JobQueue (PoolJob Job Cb)).Inv := .init (by decide)
  have hnil : (JobQueue.init 1024 : JobQueue (PoolJob Job Cb)).contents = [] := JobQueue.init_contents 1024
  have r₁ : Reach (· = ⟨s₁, w₀⟩) (Pooled.Step (client 1)) ⟨s₁, w₀⟩ := .start rfl
  have r₄ : Reach (· = ⟨s₁, w₀⟩) (Pooled.Step (client 1)) ⟨s₄, w₀.call [(Context.empty, [job])]⟩ :=
    ((r₁.next (.step h₁)).next (.step h₂)).next (.step h₃)
  have hrun := Pooled.reach_run_job hinit hnil hinit hnil r₄
  obtain ⟨g, hg, hgnil, r₅⟩ : ∃ g : JobQueue (PoolJob Job Cb), g.Inv ∧ g.contents = [] ∧
      Reach (· = ⟨s₁, w₀⟩) (Pooled.Step (client 1)) ⟨s₄, .solo g (.init 1024) (.run job) [job] []⟩ := hrun
  -- it fills the cell
  have he : s₄.timers.expired = .complete 0 ::ₘ 0 := by
    show t.expired + ((t.timingPollSource.poll now).2 : Multiset (TimerJob Job)) = _
    rw [hexpired, hpoll]
    rfl
  have hcell : s₄.timers.valueSources[0]? = some .init := by
    show t.valueSources[0]? = _
    rw [hcells]
    rfl
  let t₁ := { t.poll now with expired := 0 }.complete ⟨some 0⟩ 0 .init
  have r₆ : Reach (· = ⟨s₁, w₀⟩) (Pooled.Step (client 1)) ⟨⟨now, t₁, s₄.loop, 1⟩,
      ((WorkerPool.solo g (.init 1024) (.run job) [job] []).finish 0 job).call []⟩ :=
    r₅.next (.run 0 rfl (@Runs.complete Job Err Cb 0 s₄ 0 .init 0 he hcell))
  rw [WorkerPool.solo_finish, WorkerPool.solo_call_nil] at r₆
  -- the poll thread schedules the timing source again
  have r₇ := r₆.next (.step (@Step.reschedule _ _ _ 1 _ [job] 0 [] a [] pollFrequency rfl rfl rfl (by decide)
    (by decide) fun _ => rfl))
  rw [WorkerPool.solo_call_nil] at r₇
  refine ⟨_, g, [job], ⟨.inr rfl, rfl, ?_⟩, rfl, rfl, hg, hgnil, r₇⟩
  show since now w₁.lastAdvancementTime < nanos w₁.wheelTickSize
  rw [hlast, htick, show since now now = 0 from sub_self _]
  decide

/-- The program asks for a timer of 50 ms at 0, and the poll thread wakes up at 160 ms. -/
theorem exists_overdue_run : ∃ (r : SystemRun 0 1 1 Unit Unit Unit) (k : ℕ), Pooled.Fair r ∧
    (∀ j, ∃ l, j ≤ l ∧ (r.state (l + 1)).state.loop ≠ (r.state l).state.loop) ∧
    (∀ l, k ≤ l → (r.state l).state.requests = 1 ∧ (r.state l).state.clock = 160000000) ∧
    (r.state 0).state.clock = 0 ∧ (r.state 0).state.timers = ⟨0, .create 0, [], 0, [], [], 0⟩ ∧
    (r.state 1).state.timers = (r.state 0).state.timers.after 0 50 := by
  obtain ⟨w, hw, hready, hlast, htick⟩ : ∃ w : TimingWheel ℕ,
      w = scheduleAll (.create wheelTickSize 0 numTicks) (List.range 1) ∧
        (w.advance 160000000).2 = [0] ∧ (w.advance 160000000).1.lastAdvancementTime = 160000000 ∧
        (w.advance 160000000).1.wheelTickSize = wheelTickSize :=
    ⟨_, rfl, by decide, by decide, by decide⟩
  let t : TaskTimerSource Unit Unit Unit := ⟨0, .create 0, [], 0, [], [], 0⟩
  obtain ⟨t₁, ht₁, hexpired, hcells, hpoll⟩ : ∃ t₁ : TaskTimerSource Unit Unit Unit, t₁ = t.after 0 50 ∧
      t₁.expired = 0 ∧ t₁.valueSources = [.init] ∧ (t₁.timingPollSource.poll 160000000).2 = [.complete 0] :=
    ⟨_, rfl, rfl, rfl, by decide⟩
  let s : TimerProgram Unit Unit Unit := ⟨0, t, ⟨w, [], .head, [], [], []⟩, 0⟩
  have hafter : Step 1 s [] ⟨0, t₁, s.loop, 1⟩ := by
    have h := Step.after (n := 1) (s := s) 50 (le_refl (0 : TimePoint).toInt)
    rwa [← show t₁ = s.timers.after 0 50 from ht₁] at h
  obtain ⟨s', g, jobs, hidle, hrequests, hclock, hg, hgnil, hreach⟩ :=
    reach_idle (by decide) hready hlast htick hexpired hcells hpoll
  have hinit : Pooled.Init (Init 0 1)
      (⟨s, .solo (.init 1024) (.init 1024) .poll [] []⟩ : System 1 Unit Unit Unit) :=
    ⟨⟨le_rfl, rfl, congrArg (PollLoop.mk · [] .head [] [] []) hw, rfl⟩, rfl⟩
  obtain ⟨r, k, hfirst, hsecond, hf, hgoes, hquiet⟩ := hidle.exists_run hg hgnil (.init (by decide))
    (JobQueue.init_contents 1024) hinit (.step hafter) hreach
  rw [hrequests, hclock] at hquiet
  refine ⟨r, k, hf, hgoes, hquiet, ?_⟩
  rw [hfirst, hsecond]
  exact ⟨rfl, rfl, ht₁⟩

theorem run_timer_resolves_overdue : ∃ (r : SystemRun 0 1 1 Unit Unit Unit) (l : ℕ),
    (r.state l).pool.held = 0 ∧ (r.state l).state.timers.Resolved 0 := by
  obtain ⟨r, k, hf, hgoes, hquiet, hclock, htimers, hafter⟩ := exists_overdue_run
  have hsame : ∀ l, k ≤ l → (r.state l).state.requests = (r.state k).state.requests :=
    fun l hl => (hquiet l hl).1.trans (hquiet k le_rfl).1.symm
  have hlate : (r.state 0).state.timers.Overdue 50
      (since (r.state k).state.clock 0 - nanos wheelTickSize) := by
    rw [(hquiet k le_rfl).2, htimers]
    exact .inr ⟨by decide, by decide, by decide⟩
  obtain ⟨l, hl⟩ := run_timer_resolves 0 Nat.one_pos Nat.one_pos r hf hgoes hsame
    (le_of_eq (congrArg Int64.toInt hclock)) hafter hlate
  rw [htimers] at hl
  exact ⟨r, l, hl l le_rfl⟩

end AsyncEry.Scheduler.TimerProgram
