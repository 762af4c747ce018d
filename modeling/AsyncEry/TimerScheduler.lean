import AsyncEry.PooledJobs
import AsyncEry.PollPeriod
import AsyncEry.TimerCompletes

/-!
# Timers on the scheduler

The scheduler has a poll thread and a pool of workers. The poll thread polls its sources, the first of
which is the timing source, and queues the jobs that it gets; the workers run them, and the jobs of
`after` complete their value sources. `TimerProgram` is what there is besides the pool: the timers, the
poll thread and a program, which may do anything at any time, also on behalf of the functions that it
has given to tasks. All parts read the same clock. The program makes its first call when the poll thread
has made its wheel, and the poll frequencies are at least 0 and below a minute, as in `PollLoop`.

The expired jobs of `TaskTimerSource` are the jobs on the way from the poll to a worker
(`run_refines_timers`).
-/

namespace AsyncEry.Scheduler
open Cell Async Timing Lts

/-- The jobs of the pool: those from the timing source, those that cells have queued for the callbacks
of timer tasks, and all others. -/
inductive PoolJob (Job Cb : Type)
  | timer (job : TimerJob Job)
  | callback (callback : Cb)
  | other (job : Job)

instance {Job Cb : Type} [Inhabited Job] : Inhabited (PoolJob Job Cb) := ⟨.other default⟩

/-- The last reading of the clock, the timers, the poll thread, and how many calls the program has made
and jobs the other sources have given so far. -/
structure TimerProgram (Job Err Cb : Type) where
  clock : TimePoint
  timers : TaskTimerSource Job Err Cb
  loop : PollLoop (PoolJob Job Cb)
  requests : ℕ

namespace TimerProgram
open PollLoop (wheelTickSize numTicks scheduleAll pollFrequency)

variable {Job Err Cb : Type}

/-- The timing source was made at `start`, and the poll thread has made its wheel and is about to enter its
loop with `m` sources. A call that the program makes before that has no step. -/
def Init (start : TimePoint) (m : ℕ) (s : TimerProgram Job Err Cb) : Prop :=
  start.toInt ≤ s.clock.toInt ∧ TaskTimerSource.Init start s.timers ∧
    s.loop = ⟨scheduleAll (.create wheelTickSize s.clock numTicks) (List.range m), [], .head, [], [], []⟩ ∧
    s.requests = 0

/-- The calls of `queue` by a cell. -/
def queueCallbacks (jobs : List (Queued Unit Err Cb)) : List (Context × List (PoolJob Job Cb)) :=
  jobs.map fun q => (q.ctx, [.callback q.callback])

/-- What the program and the poll thread do, with the calls of `queue`. The timing source is source 0. As in
`PollLoop.Step`, a frequency that is negative or a minute and more has no step. -/
inductive Step (n : ℕ) : TimerProgram Job Err Cb → List (Context × List (PoolJob Job Cb)) →
    TimerProgram Job Err Cb → Prop
  | after {s now} (duration : Milliseconds) (hnow : s.clock.toInt ≤ now.toInt) :
    Step n s [] { s with
      clock := now, timers := s.timers.after now duration, requests := s.requests + 1 }
  | schedule {s now} (expiry : Milliseconds) (job : Job) (hnow : s.clock.toInt ≤ now.toInt) :
    Step n s [] { s with
      clock := now, timers := s.timers.schedule now expiry (.other job), requests := s.requests + 1 }
  | await {s i cell} (callback : Cb) (hcell : s.timers.valueSources[i]? = some cell) :
    Step n s (queueCallbacks (cell.await callback).2) { s with
      timers := { s.timers with
        valueSources := s.timers.valueSources.set i (cell.await callback).1
        scheduler := s.timers.scheduler ++ (cell.await callback).2 }
      requests := s.requests + 1 }
  | queue {s} (ctx : Context) (jobs : List Job) (hctx : ∀ i, ctx.workerId = some i → i < n) :
    Step n s [(ctx, jobs.map .other)] { s with requests := s.requests + 1 }
  | advance {s now} (hnow : s.clock.toInt ≤ now.toInt) (h : s.loop.point = .head) :
    Step n s [] { s with
      clock := now
      loop := { s.loop with
        pollScheduler := (s.loop.pollScheduler.advance now).1
        ready := (s.loop.pollScheduler.advance now).2
        point := .next
        advances := ⟨s.loop.advances.length, s.loop.pollScheduler.currentWheelIndex,
          (s.loop.pollScheduler.advance now).1.currentWheelIndex⟩ :: s.loop.advances } }
  | pollTimers {s now rest} (hnow : s.clock.toInt ≤ now.toInt) (h : s.loop.point = .next)
      (hr : s.loop.ready = 0 :: rest) :
    Step n s [] { s with
      clock := now
      timers := s.timers.poll now
      loop := { s.loop with
        point := .queue ((s.timers.timingPollSource.poll now).2.map .timer) } }
  | pollOther {s source rest} (jobs : List Job) (h : s.loop.point = .next)
      (hr : s.loop.ready = source :: rest) (hsource : source ≠ 0) :
    Step n s [] { s with
      loop := { s.loop with point := .queue (jobs.map .other) }
      requests := s.requests + jobs.length }
  | queueJobs {s jobs} (h : s.loop.point = .queue jobs) :
    Step n s [(Context.empty, jobs)] { s with
      loop := { s.loop with
        point := .reschedule jobs
        queued := (Context.empty, jobs) :: s.loop.queued } }
  | reschedule {s jobs source rest advance advances} (frequency : Milliseconds)
      (h : s.loop.point = .reschedule jobs) (hr : s.loop.ready = source :: rest)
      (ha : s.loop.advances = advance :: advances) (h0 : 0 ≤ frequency.toInt)
      (hlt : frequency.toInt < 60000) (hsource : source = 0 → frequency = pollFrequency) :
    Step n s [] { s with
      loop := { s.loop with
        pollScheduler := s.loop.pollScheduler.schedule frequency source
        ready := rest
        point := .next
        polls := ⟨source, advance, jobs, frequency⟩ :: s.loop.polls } }
  | done {s} (h : s.loop.point = .next) (hr : s.loop.ready = []) :
    Step n s [] { s with loop := { s.loop with point := .head } }

/-- Worker `i` runs a job. What a function of the program does are steps of the program. -/
inductive Runs (i : ℕ) : PoolJob Job Cb → TimerProgram Job Err Cb →
    List (Context × List (PoolJob Job Cb)) → TimerProgram Job Err Cb → Prop
  | complete {s x cell expired} (he : s.timers.expired = .complete x ::ₘ expired)
      (hcell : s.timers.valueSources[x]? = some cell) :
    Runs i (.timer (.complete x)) s (queueCallbacks (cell.write ⟨some i⟩ ()).2.1) { s with
      timers := { s.timers with expired := expired }.complete ⟨some i⟩ x cell }
  | timer {s job expired} (he : s.timers.expired = .other job ::ₘ expired) :
    Runs i (.timer (.other job)) s [] { s with timers := { s.timers with expired := expired } }
  | callback {s callback} : Runs i (.callback callback) s [] s
  | other {s job} : Runs i (.other job) s [] s

variable {n m : ℕ} {start : TimePoint} {s s' : TimerProgram Job Err Cb} {job : PoolJob Job Cb}
  {calls : List (Context × List (PoolJob Job Cb))}

theorem callable_queueCallbacks {jobs : List (Queued Unit Err Cb)}
    (h : ∀ q ∈ jobs, ∀ i, q.ctx.workerId = some i → i < n) :
    Callable n (queueCallbacks jobs : List (Context × List (PoolJob Job Cb))) := by
  intro call hcall i hi
  obtain ⟨q, hq, rfl⟩ := List.mem_map.1 hcall
  exact h q hq i hi

theorem Step.callable (hs : Step n s calls s') : Callable n calls := by
  cases hs with
  | @await i cell callback hcell =>
    refine callable_queueCallbacks fun q hq i hi => ?_
    cases hv : cell.value with
    | none => rw [WriteOnceCell.await_of_none hv] at hq; cases hq
    | some result =>
      rw [WriteOnceCell.await_of_some hv, List.mem_singleton] at hq
      subst hq
      cases hi
  | queue ctx jobs hctx =>
    intro call hcall i hi
    cases List.mem_singleton.1 hcall
    exact hctx i hi
  | queueJobs =>
    intro call hcall i hi
    cases List.mem_singleton.1 hcall
    cases hi
  | _ => exact nofun

theorem Runs.callable {i : Fin n} (hs : Runs i job s calls s') : Callable n calls := by
  cases hs with
  | complete =>
    refine callable_queueCallbacks fun q hq j hj => ?_
    have hctx : q.ctx = ⟨some i⟩ := by
      unfold WriteOnceCell.write WriteOnceCell.writeResultToValue at hq
      split at hq
      · cases hq
      · obtain ⟨callback, -, rfl⟩ := List.mem_map.1 hq
        rfl
    rw [hctx] at hj
    cases hj
    exact i.isLt
  | timer | callback | other => exact nofun

/-- The program and its poll thread as a client of the pool. -/
def client (n : ℕ) : Client n (TimerProgram Job Err Cb) (PoolJob Job Cb) where
  step := Step n
  run i := Runs i
  callable_of_step hs := hs.callable
  callable_of_run hs := hs.callable

/-! ### The parts -/

theorem Step.loop (hs : Step n s calls s') : s'.loop = s.loop ∨ PollLoop.Step s.loop s'.loop := by
  cases hs with
  | after | schedule | await | queue => exact .inl rfl
  | @advance now hnow h => exact .inr (.advance now h)
  | pollTimers hnow h hr => exact .inr (.poll _ h hr)
  | pollOther jobs h hr => exact .inr (.poll _ h hr)
  | queueJobs h => exact .inr (.queue h)
  | reschedule frequency h hr ha h0 hlt => exact .inr (.reschedule frequency h hr ha h0 hlt)
  | done h hr => exact .inr (.done h hr)

theorem Step.timers (hs : Step n s calls s') (hclock : s.timers.clock.toInt ≤ s.clock.toInt) :
    s'.timers = s.timers ∨ TaskTimerSource.Step s.timers s'.timers := by
  cases hs with
  | after duration hnow => exact .inr (.after duration (hclock.trans hnow))
  | schedule expiry job hnow => exact .inr (.schedule expiry job (hclock.trans hnow))
  | await callback hcell => exact .inr (.await callback hcell)
  | pollTimers hnow => exact .inr (.poll (hclock.trans hnow))
  | queue | advance | pollOther | queueJobs | reschedule | done => exact .inl rfl

theorem Runs.timers {i : ℕ} (hs : Runs i job s calls s') :
    s'.timers = s.timers ∨ TaskTimerSource.Step s.timers s'.timers := by
  cases hs with
  | complete he hcell => exact .inr (.complete _ he hcell)
  | timer he => exact .inr (.other he)
  | callback | other => exact .inl rfl

theorem Runs.frame {i : ℕ} (hs : Runs i job s calls s') :
    s'.clock = s.clock ∧ s'.loop = s.loop ∧ s'.timers.clock = s.timers.clock ∧
      s'.requests = s.requests := by
  cases hs with
  | complete | timer | callback | other => exact ⟨rfl, rfl, rfl, rfl⟩

/-- The clock goes on, for the timers and the poll thread too. -/
structure Timely (s : TimerProgram Job Err Cb) : Prop where
  timers : s.timers.clock.toInt ≤ s.clock.toInt
  loop : s.loop.last.toInt ≤ s.clock.toInt

theorem Init.timely (h : s.Init start m) : s.Timely := by
  obtain ⟨hstart, htimers, hloop, -⟩ := h
  refine ⟨by rw [htimers]; exact hstart, ?_⟩
  rw [hloop]
  show (PollLoop.scheduleAll _ _).lastAdvancementTime.toInt ≤ _
  rw [PollLoop.last_scheduleAll]
  exact le_rfl

theorem Step.timely (hs : Step n s calls s') (h : s.Timely) :
    s'.Timely ∧ s.clock.toInt ≤ s'.clock.toInt := by
  cases hs with
  | after _ hnow | schedule _ _ hnow | pollTimers hnow =>
    exact ⟨⟨le_rfl, h.loop.trans hnow⟩, hnow⟩
  | @advance now hnow =>
    refine ⟨⟨h.timers.trans hnow, ?_⟩, hnow⟩
    show (s.loop.pollScheduler.advance now).1.lastAdvancementTime.toInt ≤ now.toInt
    unfold TimingWheel.advance
    split
    · exact h.loop.trans hnow
    · exact le_rfl
  | await | queue | pollOther | queueJobs | reschedule | done => exact ⟨⟨h.timers, h.loop⟩, le_rfl⟩

/-! ### Where the expired jobs are -/

/-- The jobs that the poll thread has got and not yet queued. -/
def hand : PollLoop.Point (PoolJob Job Cb) → Multiset (PoolJob Job Cb)
  | .queue jobs => jobs
  | _ => 0

def timerJob? : PoolJob Job Cb → Option (TimerJob Job)
  | .timer job => some job
  | .callback _ | .other _ => none

def timerJobs (jobs : Multiset (PoolJob Job Cb)) : Multiset (TimerJob Job) := jobs.filterMap timerJob?

theorem timerJobs_add (jobs jobs' : Multiset (PoolJob Job Cb)) :
    timerJobs (jobs + jobs') = timerJobs jobs + timerJobs jobs' :=
  Multiset.filterMap_add ..

theorem timerJobs_cons_timer (job : TimerJob Job) (jobs : Multiset (PoolJob Job Cb)) :
    timerJobs (.timer job ::ₘ jobs) = job ::ₘ timerJobs jobs :=
  Multiset.filterMap_cons_some _ _ _ rfl

theorem timerJobs_cons_of_none {job : PoolJob Job Cb} (h : timerJob? job = none)
    (jobs : Multiset (PoolJob Job Cb)) : timerJobs (job ::ₘ jobs) = timerJobs jobs :=
  Multiset.filterMap_cons_none _ _ h

theorem timerJobs_eq_zero {jobs : Multiset (PoolJob Job Cb)} (h : ∀ job ∈ jobs, timerJob? job = none) :
    timerJobs jobs = 0 := by
  refine Multiset.eq_zero_of_forall_notMem fun job hjob => ?_
  obtain ⟨job', hmem, hsome⟩ := (Multiset.mem_filterMap _ _).1 hjob
  rw [h job' hmem] at hsome
  cases hsome

theorem timerJobs_other (jobs : List Job) :
    timerJobs ((jobs.map .other : List (PoolJob Job Cb)) : Multiset (PoolJob Job Cb)) = 0 := by
  refine timerJobs_eq_zero fun job hjob => ?_
  obtain ⟨job, -, rfl⟩ := List.mem_map.1 (Multiset.mem_coe.1 hjob)
  rfl

theorem timerJobs_timer (jobs : List (TimerJob Job)) :
    timerJobs ((jobs.map .timer : List (PoolJob Job Cb)) : Multiset (PoolJob Job Cb)) = jobs := by
  unfold timerJobs
  rw [Multiset.filterMap_coe, List.filterMap_map]
  exact congrArg _ List.filterMap_some

theorem timerJobs_queueCallbacks (jobs : List (Queued Unit Err Cb)) :
    timerJobs ((offers (queueCallbacks jobs) : List (PoolJob Job Cb)) : Multiset (PoolJob Job Cb)) = 0 := by
  refine timerJobs_eq_zero fun job hjob => ?_
  obtain ⟨call, hcall, hjob⟩ := List.mem_flatMap.1 (Multiset.mem_coe.1 hjob)
  obtain ⟨q, -, rfl⟩ := List.mem_map.1 hcall
  cases List.mem_singleton.1 hjob
  rfl

theorem offers_singleton (ctx : Context) (jobs : List (PoolJob Job Cb)) : offers [(ctx, jobs)] = jobs := by
  simp [offers]

/-- With the jobs in the pool, `jobs` of which are from the timing source. -/
theorem Step.expired (hs : Step n s calls s') {jobs : Multiset (TimerJob Job)}
    (h : s.timers.expired = timerJobs (hand s.loop.point) + jobs) :
    s'.timers.expired = timerJobs (hand s'.loop.point) +
      (jobs + timerJobs ((offers calls : List (PoolJob Job Cb)) : Multiset (PoolJob Job Cb))) := by
  cases hs with
  | after | schedule =>
    show s.timers.expired = timerJobs (hand s.loop.point) + (jobs + 0)
    rw [add_zero]
    exact h
  | await =>
    rw [timerJobs_queueCallbacks, add_zero]
    exact h
  | queue =>
    rw [offers_singleton, timerJobs_other, add_zero]
    exact h
  | advance _ hp | reschedule _ hp | done hp =>
    rw [hp] at h
    show s.timers.expired = 0 + (jobs + 0)
    rw [add_zero]
    exact h
  | @pollTimers now rest _ hp =>
    rw [hp] at h
    change s.timers.expired = 0 + jobs at h
    show s.timers.expired + ((s.timers.timingPollSource.poll now).2 : Multiset (TimerJob Job)) =
      timerJobs ((_ : List (PoolJob Job Cb)) : Multiset (PoolJob Job Cb)) + (jobs + 0)
    rw [timerJobs_timer, h, zero_add, add_zero, add_comm]
  | pollOther jobs hp =>
    rw [hp] at h
    show s.timers.expired = timerJobs ((_ : List (PoolJob Job Cb)) : Multiset (PoolJob Job Cb)) + (_ + 0)
    rw [timerJobs_other, add_zero]
    exact h
  | queueJobs hp =>
    rw [hp] at h
    show s.timers.expired = 0 + (jobs + _)
    rw [offers_singleton, zero_add, add_comm]
    exact h

theorem Runs.expired {i : ℕ} (hs : Runs i job s calls s') {jobs : Multiset (PoolJob Job Cb)}
    (h : s.timers.expired = timerJobs (hand s.loop.point) + timerJobs (job ::ₘ jobs)) :
    s'.timers.expired = timerJobs (hand s'.loop.point) +
      (timerJobs jobs + timerJobs ((offers calls : List (PoolJob Job Cb)) : Multiset (PoolJob Job Cb))) := by
  cases hs with
  | complete he hcell =>
    rw [timerJobs_queueCallbacks, add_zero]
    rw [he, timerJobs_cons_timer, Multiset.add_cons] at h
    exact (Multiset.cons_inj_right _).1 h
  | timer he =>
    show _ = _ + (_ + 0)
    rw [he, timerJobs_cons_timer, Multiset.add_cons] at h
    rw [add_zero]
    exact (Multiset.cons_inj_right _).1 h
  | callback | other =>
    rw [timerJobs_cons_of_none rfl] at h
    show _ = _ + (_ + 0)
    rw [add_zero]
    exact h

/-- The expired jobs are in the hands of the poll thread and in the bag. -/
def Linked (b : Bag (TimerProgram Job Err Cb) (PoolJob Job Cb)) : Prop :=
  b.state.timers.expired = timerJobs (hand b.state.loop.point) + timerJobs b.jobs

theorem Linked.next {b b' : Bag (TimerProgram Job Err Cb) (PoolJob Job Cb)} (h : Linked b)
    (hs : Bag.Step (client n) b b') : Linked b' := by
  unfold Linked at h ⊢
  cases hs with
  | step hs =>
    rw [timerJobs_add]
    exact hs.expired h
  | run i hjob hs =>
    rw [hjob] at h
    rw [timerJobs_add]
    exact hs.expired h

/-- A job that is to be run can be. -/
theorem Linked.exists_runs {b : Bag (TimerProgram Job Err Cb) (PoolJob Job Cb)} (h : Linked b)
    (hr : Reach (TaskTimerSource.Init start) TaskTimerSource.Step b.state.timers) (i : ℕ)
    (hjob : job ∈ b.jobs) : ∃ calls s', Runs i job b.state calls s' := by
  have hexpired : ∀ {job'}, timerJob? job = some job' →
      ∃ expired, b.state.timers.expired = job' ::ₘ expired := by
    intro job' hjob'
    refine Multiset.exists_cons_of_mem ?_
    rw [show b.state.timers.expired = _ from h]
    exact Multiset.mem_add.2 (.inr ((Multiset.mem_filterMap _ _).2 ⟨job, hjob, hjob'⟩))
  cases job with
  | timer job =>
    obtain ⟨expired, he⟩ := hexpired rfl
    cases job with
    | complete x =>
      have hmem : x ∈ TimerJob.sources b.state.timers.jobs := by
        unfold TaskTimerSource.jobs
        rw [he, Multiset.add_cons, TimerJob.sources_complete]
        exact Multiset.mem_cons_self ..
      have hlt : x ∈ Multiset.range b.state.timers.valueSources.length := by
        rw [← show _ = _ from TaskTimerSource.placed_of_reach hr]
        exact Multiset.mem_add.2 (.inl hmem)
      exact ⟨_, _, .complete he (List.getElem?_eq_getElem (Multiset.mem_range.1 hlt))⟩
    | other job => exact ⟨_, _, .timer he⟩
  | callback => exact ⟨_, _, .callback⟩
  | other => exact ⟨_, _, .other⟩

/-! ### Runs on the pool -/

variable [Inhabited Job]

/-- The scheduler with `n` workers. -/
abbrev System (n : ℕ) (Job Err Cb : Type) := Pooled n (TimerProgram Job Err Cb) (PoolJob Job Cb)

/-- Its runs with `m` sources. -/
abbrev SystemRun (start : TimePoint) (n m : ℕ) (Job Err Cb : Type) [Inhabited Job] :=
  Run (Pooled.Init (Init start m)) (Pooled.Step (client n : Client n (TimerProgram Job Err Cb) _))

/-- No part reads a time before one that another has read. -/
theorem timely_of_reach {s : System n Job Err Cb}
    (h : Reach (Pooled.Init (Init start m)) (Pooled.Step (client n)) s) : s.state.Timely := by
  refine Inductive.reach (P := fun s : System n Job Err Cb => s.state.Timely)
    ⟨fun s hs => hs.1.timely, fun s s' h hs => ?_⟩ h
  cases hs with
  | step hs => exact (Step.timely hs h).1
  | run i hp hs =>
    obtain ⟨hclock, hloop, htimers, -⟩ := Runs.frame hs
    exact ⟨by rw [hclock, htimers]; exact h.timers, by rw [hclock, hloop]; exact h.loop⟩
  | pool => exact h

theorem linked_of_reach {s : System n Job Err Cb}
    (h : Reach (Pooled.Init (Init start m)) (Pooled.Step (client n)) s) : Linked ⟨s.state, s.pool.held⟩ := by
  obtain ⟨b, hb, hshows⟩ := (Pooled.simulation (client n) (Init start m)).reach h
  have hlinked : Linked b := by
    refine Inductive.reach (P := Linked) ⟨fun b hb => ?_, fun b b' h hs => h.next hs⟩ hb
    obtain ⟨⟨-, htimers, hloop, -⟩, hjobs⟩ := hb
    unfold Linked
    rw [htimers, hloop, hjobs]
    rfl
  rwa [show b = ⟨b.state, b.jobs⟩ from rfl, hshows.state, hshows.jobs_eq] at hlinked

/-- With nothing in the pool, no timer job is out at the head of an iteration of the poll thread. -/
theorem expired_eq_zero {s : System n Job Err Cb}
    (h : Reach (Pooled.Init (Init start m)) (Pooled.Step (client n)) s) (hhead : s.state.loop.point = .head)
    (hheld : s.pool.held = 0) : s.state.timers.expired = 0 := by
  have hlinked : s.state.timers.expired = timerJobs (hand s.state.loop.point) + timerJobs s.pool.held :=
    linked_of_reach h
  rw [hhead, hheld] at hlinked
  exact hlinked

/-- The timers of a run. -/
def timersRun (r : SystemRun start n m Job Err Cb) :
    Run (TaskTimerSource.Init start : TaskTimerSource Job Err Cb → Prop) TaskTimerSource.Step :=
  r.map (fun s => s.state.timers) (fun _ hs => hs.1.2.1) fun s s' hr hs => by
    cases hs with
    | step hs => exact Step.timers hs (timely_of_reach hr).timers
    | run i hp hs => exact Runs.timers hs
    | pool => exact .inl rfl

/-- The poll thread of a run. -/
def loopRun (r : SystemRun start n m Job Err Cb) :
    Run (PollLoop.Init m : PollLoop (PoolJob Job Cb) → Prop) PollLoop.Step :=
  r.map (fun s => s.state.loop) (fun _ hs => ⟨_, hs.1.2.2.1⟩) fun s s' hr hs => by
    cases hs with
    | step hs => exact Step.loop hs
    | run i hp hs => exact .inl (Runs.frame hs).2.1
    | pool => exact .inl rfl

/-- In every run the timers and the poll thread do what they do by themselves; the expired jobs are
those in the hands of the poll thread and in the pool; and a worker that has got a job can run it. The
runs begin when the poll thread has made its wheel, and their poll frequencies are at least 0 and below a
minute. -/
theorem run_refines_timers (start : TimePoint) (n m : ℕ) (r : SystemRun start n m Job Err Cb) :
    (∃ timers : Run (TaskTimerSource.Init start : TaskTimerSource Job Err Cb → Prop) TaskTimerSource.Step,
      ∀ k, timers.state k = (r.state k).state.timers) ∧
    (∃ loop : Run (PollLoop.Init m : PollLoop (PoolJob Job Cb) → Prop) PollLoop.Step,
      ∀ k, loop.state k = (r.state k).state.loop) ∧
    ∀ k, (r.state k).state.timers.expired =
        timerJobs (hand (r.state k).state.loop.point) + timerJobs (r.state k).pool.held ∧
      ∀ i job, (r.state k).pool.point i = .run job →
        ∃ calls s', Runs i job (r.state k).state calls s' ∧
          Pooled.Step (client n) (r.state k) ⟨s', ((r.state k).pool.finish i job).call calls⟩ := by
  refine ⟨⟨timersRun r, fun _ => rfl⟩, ⟨loopRun r, fun _ => rfl⟩, fun k => ?_⟩
  have hlinked := linked_of_reach (r.reach k)
  refine ⟨hlinked, fun i job hp => ?_⟩
  obtain ⟨calls, s', hs⟩ := hlinked.exists_runs ((timersRun r).reach k) i (WorkerPool.mem_held_of_run hp)
  exact ⟨calls, s', hs, .run i hp hs⟩

end TimerProgram
end AsyncEry.Scheduler
