import AsyncEry.PollSource
import AsyncEry.WriteOnceCell
import AsyncEry.Lib.Run

/-!
# Timer tasks do not resolve before their time

`after` makes a value source and schedules the job that completes it; anybody else may schedule jobs
as well. The poll thread collects the jobs that have expired, and the scheduler runs them in any order.
The clock does not go back. A job that a poll returns belongs to a call of its own, and the poll is not
before the deadline of the call when that was on time.
-/

namespace AsyncEry.Async
open Cell Scheduler Timing Lts

/-- The jobs of a poll source: the one that completes value source `i`, and those of others. -/
inductive TimerJob (Job : Type)
  | complete (i : ℕ)
  | other (job : Job)
deriving DecidableEq

/-- The cells of the value sources that `after` has made, the expired jobs that wait for a worker, and
the jobs that the cells have queued. `calls` and `returned` record the calls of
`PollSource::schedule` and the jobs that polls have returned, with their times. -/
structure TaskTimerSource (Job Err Cb : Type) where
  clock : TimePoint
  timingPollSource : PollSource (TimerJob Job)
  valueSources : List (WriteOnceCell Unit Err Cb)
  expired : Multiset (TimerJob Job)
  scheduler : List (Queued Unit Err Cb)
  calls : List (ScheduleCall (TimerJob Job))
  returned : Multiset (TimePoint × TimerJob Job)

namespace TaskTimerSource
variable {Job Err Cb : Type}

def Init (start : TimePoint) (s : TaskTimerSource Job Err Cb) : Prop :=
  s = ⟨start, .create start, [], 0, [], [], 0⟩

/-- `timing_poll_source.schedule` at `now`. -/
def schedule (s : TaskTimerSource Job Err Cb) (now : TimePoint) (expiry : Milliseconds)
    (task : TimerJob Job) : TaskTimerSource Job Err Cb :=
  { s with
    clock := now
    timingPollSource := s.timingPollSource.schedule expiry task
    calls := s.calls ++ [⟨s.timingPollSource, now, expiry, task⟩] }

/-- The task that `after` returns reads the cell of the new value source. -/
def after (s : TaskTimerSource Job Err Cb) (now : TimePoint) (duration : Milliseconds) :
    TaskTimerSource Job Err Cb :=
  { s.schedule now duration (.complete s.valueSources.length) with
    valueSources := s.valueSources ++ [.init] }

def poll (s : TaskTimerSource Job Err Cb) (now : TimePoint) : TaskTimerSource Job Err Cb :=
  let (timingPollSource, expiredJobs) := s.timingPollSource.poll now
  { s with
    clock := now
    timingPollSource := timingPollSource
    expired := s.expired + expiredJobs
    returned := s.returned + (expiredJobs.map fun job => (now, job) : List (TimePoint × TimerJob Job)) }

/-- `value_source->complete(ctx, {})`. -/
def complete (s : TaskTimerSource Job Err Cb) (ctx : Context) (i : ℕ)
    (cell : WriteOnceCell Unit Err Cb) : TaskTimerSource Job Err Cb :=
  { s with
    valueSources := s.valueSources.set i (cell.write ctx ()).1
    scheduler := s.scheduler ++ (cell.write ctx ()).2.1 }

inductive Step : TaskTimerSource Job Err Cb → TaskTimerSource Job Err Cb → Prop
  | schedule {s now} (expiry : Milliseconds) (job : Job) (hnow : s.clock.toInt ≤ now.toInt) :
    Step s (s.schedule now expiry (.other job))
  | after {s now} (duration : Milliseconds) (hnow : s.clock.toInt ≤ now.toInt) :
    Step s (s.after now duration)
  | poll {s now} (hnow : s.clock.toInt ≤ now.toInt) : Step s (s.poll now)
  | complete {s i cell expired} (ctx : Context) (h : s.expired = .complete i ::ₘ expired)
      (hcell : s.valueSources[i]? = some cell) :
    Step s ({ s with expired := expired }.complete ctx i cell)
  | other {s job expired} (h : s.expired = .other job ::ₘ expired) :
    Step s { s with expired := expired }
  | await {s i cell} (callback : Cb) (hcell : s.valueSources[i]? = some cell) :
    Step s { s with
      valueSources := s.valueSources.set i (cell.await callback).1
      scheduler := s.scheduler ++ (cell.await callback).2 }

/-- The task of value source `i` has a result. -/
def Resolved (s : TaskTimerSource Job Err Cb) (i : ℕ) : Prop :=
  ∃ cell, s.valueSources[i]? = some cell ∧ cell.read.isSome

/-! ### Calls and returned jobs -/

/-- The poll source shows a timetable of the calls; `done` are the calls whose jobs have been returned,
each with the time of the poll, and the other calls are pending. -/
structure Accounts (start : TimePoint) (s : TaskTimerSource Job Err Cb)
    (r : Timetable (ScheduleCall (TimerJob Job)))
    (done : Multiset (TimePoint × ScheduleCall (TimerJob Job))) : Prop where
  kept : s.timingPollSource.Kept start s.clock r
  calls : (s.calls : Multiset _) = done.map Prod.snd + r.calendar.pending.map Prod.snd
  returned : s.returned = done.map (Prod.map id ScheduleCall.task)
  due : ∀ p ∈ done, p.2.OnTime → 0 ≤ p.2.expiry.toInt → p.2.deadline ≤ p.1.toInt
  time : ∀ p ∈ done, p.1.toInt ≤ s.clock.toInt

/-- A value source belongs to one call of `after`, and is resolved by the job of this call. -/
structure Inv (start : TimePoint) (s : TaskTimerSource Job Err Cb) : Prop where
  accounts : ∃ r done, s.Accounts start r done
  lt : ∀ c ∈ s.calls, ∀ i, c.task = .complete i → i < s.valueSources.length
  unique : ∀ c ∈ s.calls, ∀ c' ∈ s.calls, ∀ i, c.task = .complete i → c'.task = .complete i → c = c'
  expired : ∀ job ∈ s.expired, ∃ time, (time, job) ∈ s.returned
  resolved : ∀ i, s.Resolved i → ∃ time, (time, .complete i) ∈ s.returned

variable {start now : TimePoint} {s s' : TaskTimerSource Job Err Cb}
  {r : Timetable (ScheduleCall (TimerJob Job))}
  {done : Multiset (TimePoint × ScheduleCall (TimerJob Job))}

theorem Init.inv (h : Init start s) : s.Inv start := by
  rw [h]
  refine ⟨⟨_, 0, .create start, rfl, rfl, nofun, nofun⟩, nofun, nofun, nofun, ?_⟩
  rintro i ⟨cell, hcell, -⟩
  cases hcell

namespace Accounts

theorem schedule (h : s.Accounts start r done) (hnow : s.clock.toInt ≤ now.toInt)
    (expiry : Milliseconds) (task : TimerJob Job) :
    (s.schedule now expiry task).Accounts start (s.timingPollSource.booked r now expiry task) done := by
  refine ⟨h.kept.schedule hnow expiry task, ?_, h.returned, h.due, fun p hp => (h.time p hp).trans hnow⟩
  show Multiset.ofList (s.calls ++ [_]) = _ + (r.calendar.book _ _).pending.map Prod.snd
  rw [Calendar.pending_book HierarchicalTimingWheel.le_dueTick, Multiset.map_add, ← Multiset.coe_add,
    h.calls, add_assoc]
  rfl

theorem poll (h : s.Accounts start r done) (hnow : s.clock.toInt ≤ now.toInt) :
    (s.poll now).Accounts start (r.advance now).1
      (done + ((r.advance now).2.map fun c => (now, c) : List _)) := by
  obtain ⟨hkept, hout, hdue⟩ := h.kept.poll hnow
  refine ⟨hkept, ?_, ?_, ?_, ?_⟩
  · show Multiset.ofList s.calls = _
    rw [h.calls, Multiset.map_add, Multiset.map_coe, List.map_map, add_assoc]
    have hmap : (r.advance now).2.map (Prod.snd ∘ fun c => (now, c)) = (r.advance now).2 := List.map_id _
    rw [hmap]
    refine congrArg (done.map Prod.snd + ·) ?_
    rcases r.advance_cases now h.kept.shows.clocked.tick_pos with heq | ⟨n, -, heq⟩ <;> rw [heq]
    · exact (zero_add _).symm
    · exact (r.calendar.handOver_add_pending n).symm
  · show s.returned + ((s.timingPollSource.poll now).2.map fun job => (now, job) : List _) = _
    rw [← Multiset.map_coe, hout, h.returned, Multiset.map_add, Multiset.map_coe, Multiset.map_coe,
      List.map_map, Multiset.map_coe, List.map_map]
    rfl
  · intro p hp
    rcases Multiset.mem_add.1 hp with hp | hp
    · exact h.due p hp
    · obtain ⟨c, hc, rfl⟩ := List.mem_map.1 (Multiset.mem_coe.1 hp)
      exact hdue c hc
  · intro p hp
    rcases Multiset.mem_add.1 hp with hp | hp
    · exact (h.time p hp).trans hnow
    · obtain ⟨c, -, rfl⟩ := List.mem_map.1 (Multiset.mem_coe.1 hp)
      exact le_rfl

/-- A returned job is that of a call, and not early when this was on time. -/
theorem of_mem_returned (h : s.Accounts start r done) {time : TimePoint} {task : TimerJob Job}
    (hmem : (time, task) ∈ s.returned) : time.toInt ≤ s.clock.toInt ∧ ∃ c ∈ s.calls, c.task = task ∧
      (c.OnTime → 0 ≤ c.expiry.toInt → c.deadline ≤ time.toInt) := by
  rw [h.returned] at hmem
  obtain ⟨⟨time, c⟩, hp, heq⟩ := Multiset.mem_map.1 hmem
  cases heq
  refine ⟨h.time _ hp, c, ?_, rfl, h.due _ hp⟩
  rw [← Multiset.mem_coe, h.calls]
  exact Multiset.mem_add.2 (.inl (Multiset.mem_map_of_mem Prod.snd hp))

end Accounts

/-- Replacing a cell resolves at most its own value source. -/
theorem resolved_of_set {i j : ℕ} {cell : WriteOnceCell Unit Err Cb}
    {sources : List (WriteOnceCell Unit Err Cb)} (h : s'.valueSources = sources.set i cell)
    (hs : s.valueSources = sources) (hj : s'.Resolved j) : j = i ∧ cell.read.isSome ∨ s.Resolved j := by
  obtain ⟨cell', hcell', hread⟩ := hj
  rw [h] at hcell'
  by_cases hij : i = j
  · subst hij
    rw [List.getElem?_set_self' ] at hcell'
    obtain ⟨_, -, rfl⟩ := Option.map_eq_some_iff.1 hcell'
    exact .inl ⟨rfl, hread⟩
  · rw [List.getElem?_set_ne hij, ← hs] at hcell'
    exact .inr ⟨cell', hcell', hread⟩

namespace Inv

theorem schedule (h : s.Inv start) (hnow : s.clock.toInt ≤ now.toInt) (expiry : Milliseconds)
    (job : Job) : (s.schedule now expiry (.other job)).Inv start := by
  obtain ⟨r, done, ha⟩ := h.accounts
  refine ⟨⟨_, _, ha.schedule hnow expiry _⟩, ?_, ?_, h.expired, h.resolved⟩
  · intro c hc i hi
    rcases List.mem_append.1 hc with hc | hc
    · exact h.lt c hc i hi
    · cases List.mem_singleton.1 hc; cases hi
  · intro c hc c' hc' i hi hi'
    rcases List.mem_append.1 hc with hc | hc
    · rcases List.mem_append.1 hc' with hc' | hc'
      · exact h.unique c hc c' hc' i hi hi'
      · cases List.mem_singleton.1 hc'; cases hi'
    · cases List.mem_singleton.1 hc; cases hi

theorem after (h : s.Inv start) (hnow : s.clock.toInt ≤ now.toInt) (duration : Milliseconds) :
    (s.after now duration).Inv start := by
  obtain ⟨r, done, ha⟩ := h.accounts
  have ha' := ha.schedule hnow duration (.complete s.valueSources.length)
  refine ⟨⟨_, _, ⟨ha'.kept, ha'.calls, ha'.returned, ha'.due, ha'.time⟩⟩, ?_, ?_, h.expired, ?_⟩
  · intro c hc i hi
    show i < (s.valueSources ++ [_]).length
    rw [List.length_append]
    rcases List.mem_append.1 hc with hc | hc
    · exact Nat.lt_succ_of_lt (h.lt c hc i hi)
    · cases List.mem_singleton.1 hc; cases hi; exact Nat.lt_succ_self _
  · intro c hc c' hc' i hi hi'
    rcases List.mem_append.1 hc with hc | hc <;> rcases List.mem_append.1 hc' with hc' | hc'
    · exact h.unique c hc c' hc' i hi hi'
    · cases List.mem_singleton.1 hc'; cases hi'
      exact absurd (h.lt c hc _ hi) (lt_irrefl _)
    · cases List.mem_singleton.1 hc; cases hi
      exact absurd (h.lt c' hc' _ hi') (lt_irrefl _)
    · cases List.mem_singleton.1 hc; cases List.mem_singleton.1 hc'; rfl
  · rintro i ⟨cell, hcell, hread⟩
    change (s.valueSources ++ [.init])[i]? = some cell at hcell
    rw [List.getElem?_append] at hcell
    split at hcell
    · exact h.resolved i ⟨cell, hcell, hread⟩
    · rw [List.getElem?_singleton] at hcell
      split at hcell
      · cases hcell; cases hread
      · cases hcell

theorem poll (h : s.Inv start) (hnow : s.clock.toInt ≤ now.toInt) : (s.poll now).Inv start := by
  obtain ⟨r, done, ha⟩ := h.accounts
  refine ⟨⟨_, _, ha.poll hnow⟩, h.lt, h.unique, ?_, ?_⟩
  · intro job hjob
    rcases Multiset.mem_add.1 hjob with hjob | hjob
    · obtain ⟨time, htime⟩ := h.expired job hjob
      exact ⟨time, Multiset.mem_add.2 (.inl htime)⟩
    · exact ⟨now, Multiset.mem_add.2 (.inr (Multiset.mem_coe.2 (List.mem_map_of_mem hjob)))⟩
  · intro i hi
    obtain ⟨time, htime⟩ := h.resolved i hi
    exact ⟨time, Multiset.mem_add.2 (.inl htime)⟩

theorem complete (h : s.Inv start) {i : ℕ} {cell : WriteOnceCell Unit Err Cb}
    {expired : Multiset (TimerJob Job)} (ctx : Context) (he : s.expired = .complete i ::ₘ expired) :
    ({ s with expired := expired }.complete ctx i cell).Inv start := by
  obtain ⟨r, done, ha⟩ := h.accounts
  have hold : ∀ job ∈ expired, job ∈ s.expired := fun job hjob => by
    rw [he]; exact Multiset.mem_cons_of_mem hjob
  refine ⟨⟨r, done, ⟨ha.kept, ha.calls, ha.returned, ha.due, ha.time⟩⟩, ?_, h.unique,
    fun job hjob => h.expired job (hold job hjob), ?_⟩
  · intro c hc j hj
    show j < (s.valueSources.set i _).length
    rw [List.length_set]
    exact h.lt c hc j hj
  · intro j hj
    rcases resolved_of_set (s := s) rfl rfl hj with ⟨rfl, -⟩ | hj
    · exact h.expired _ (by rw [he]; exact Multiset.mem_cons_self ..)
    · exact h.resolved j hj

theorem await (h : s.Inv start) {i : ℕ} {cell : WriteOnceCell Unit Err Cb} (callback : Cb)
    (hcell : s.valueSources[i]? = some cell) :
    Inv start { s with
      valueSources := s.valueSources.set i (cell.await callback).1
      scheduler := s.scheduler ++ (cell.await callback).2 } := by
  obtain ⟨r, done, ha⟩ := h.accounts
  refine ⟨⟨r, done, ⟨ha.kept, ha.calls, ha.returned, ha.due, ha.time⟩⟩, ?_, h.unique, h.expired, ?_⟩
  · intro c hc j hj
    show j < (s.valueSources.set i _).length
    rw [List.length_set]
    exact h.lt c hc j hj
  · intro j hj
    refine h.resolved j ?_
    rcases resolved_of_set (s := s) rfl rfl hj with ⟨rfl, hread⟩ | hj
    · exact ⟨cell, hcell, by rw [← hread]; exact congrArg _ (WriteOnceCell.value_await ..).symm⟩
    · exact hj

theorem step (h : s.Inv start) (hs : Step s s') : s'.Inv start := by
  cases hs with
  | schedule expiry job hnow => exact h.schedule hnow expiry job
  | after duration hnow => exact h.after hnow duration
  | poll hnow => exact h.poll hnow
  | complete ctx he hcell => exact h.complete ctx he
  | @other job expired he =>
    obtain ⟨r, done, ha⟩ := h.accounts
    exact ⟨⟨r, done, ⟨ha.kept, ha.calls, ha.returned, ha.due, ha.time⟩⟩, h.lt, h.unique,
      fun job hjob => h.expired job (by rw [he]; exact Multiset.mem_cons_of_mem hjob), h.resolved⟩
  | await callback hcell => exact h.await callback hcell

/-- The task of a call of `after` that was on time is not resolved before the deadline. -/
theorem deadline_le (h : s.Inv start) {c : ScheduleCall (TimerJob Job)} {i : ℕ} (hc : c ∈ s.calls)
    (hi : c.task = .complete i) (ho : c.OnTime) (hd : 0 ≤ c.expiry.toInt) (hr : s.Resolved i) :
    c.deadline ≤ s.clock.toInt := by
  obtain ⟨r, done, ha⟩ := h.accounts
  obtain ⟨time, htime⟩ := h.resolved i hr
  obtain ⟨hle, c', hc', hi', hdue⟩ := ha.of_mem_returned htime
  obtain rfl := h.unique c' hc' c hc i hi' hi
  exact (hdue ho hd).trans hle

end Inv

theorem inv_of_reach (h : Reach (Init start) Step s) : s.Inv start :=
  Inductive.reach ⟨fun _ h => h.inv, fun _ _ h hs => h.step hs⟩ h

/-- In every state of every run: the jobs that polls have returned are those of so many calls, each of
which, when it was on time, was made at least its expiry before the poll; and the task of a call of
`after` that was on time is not resolved until its duration has gone by. -/
theorem run_never_early (start : TimePoint)
    (r : Run (Init start : TaskTimerSource Job Err Cb → Prop) Step) (n : ℕ) :
    (∃ done : Multiset (TimePoint × ScheduleCall (TimerJob Job)),
      done.map Prod.snd ≤ (r.state n).calls ∧
      (r.state n).returned = done.map (Prod.map id ScheduleCall.task) ∧
      ∀ p ∈ done, p.2.OnTime → 0 ≤ p.2.expiry.toInt → p.2.deadline ≤ p.1.toInt) ∧
    ∀ c ∈ (r.state n).calls, ∀ i, c.task = .complete i → c.OnTime → 0 ≤ c.expiry.toInt →
      (r.state n).Resolved i → c.deadline ≤ (r.state n).clock.toInt := by
  have h := inv_of_reach (r.reach n)
  refine ⟨?_, fun c hc i hi ho hd hr => h.deadline_le hc hi ho hd hr⟩
  obtain ⟨t, done, ha⟩ := h.accounts
  exact ⟨done, by rw [ha.calls]; exact Multiset.le_add_right .., ha.returned, ha.due⟩

/-- A timer of 99 ms is started 2 ms after the wheel was last advanced, and polled for at 100 ms. -/
def early : TaskTimerSource Unit Unit Unit :=
  (after ⟨0, .create 0, [], 0, [], [], 0⟩ 2000000 99).poll 100000000

theorem reach_early : Reach (Init 0) Step early := by
  refine .next (.next (.start rfl) (.after 99 ?_)) (.poll ?_) <;> decide

theorem poll_early :
    (((PollSource.create 0 : PollSource (TimerJob Unit)).schedule 99 (.complete 0)).poll 100000000).2 =
      [.complete 0] := by decide

/-- The timer is due when the second tick is over, after 98 ms. -/
theorem run_early : ∃ s : TaskTimerSource Unit Unit Unit, Reach (Init 0) Step s ∧
    (100000000, .complete 0) ∈ s.returned ∧ s.Resolved 0 ∧ s.clock = 100000000 ∧
    ∃ c ∈ s.calls, c.task = .complete 0 ∧ c.now = 2000000 ∧ c.expiry = 99 ∧
      s.clock.toInt < c.deadline := by
  have hexpired : early.expired = .complete 0 ::ₘ 0 := congrArg Multiset.ofList poll_early
  have hreturned : early.returned = {(100000000, .complete 0)} :=
    congrArg (fun jobs : List (TimerJob Unit) =>
      Multiset.ofList (jobs.map fun job => ((100000000 : TimePoint), job))) poll_early
  refine ⟨_, reach_early.next (.complete Context.empty hexpired rfl), ?_, ?_, rfl, _,
    List.mem_singleton_self _, rfl, rfl, rfl, ?_⟩
  · show _ ∈ early.returned
    rw [hreturned]
    exact Multiset.mem_singleton_self _
  · exact ⟨_, rfl, rfl⟩
  · show (100000000 : TimePoint).toInt < (2000000 : TimePoint).toInt + nanos 99
    decide

end TaskTimerSource
end AsyncEry.Async
