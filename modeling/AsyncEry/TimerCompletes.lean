import AsyncEry.TaskTimerSource
import AsyncEry.WheelCapacity
import AsyncEry.WheelOdometer
import AsyncEry.Lib.Progress

/-!
# Timer tasks resolve

A task that `after` has returned is in one place: its job is in the wheel, or it has come back and waits
for a worker, or the task is resolved (`Placed`). A job does not stay in the wheel: it is due within the
ticks that the wheels have buckets for, whatever the duration was, and every poll that finds a tick gone
by brings it closer (`Within`).
-/

namespace AsyncEry.Timing

variable {Timer : Type} {w : Wheel Timer} {ws : List (Wheel Timer)} {T z : ℕ} {p : ℕ × Timer}

/-! ### The ticks that there are buckets for -/

theorem Wheel.Graded.lt_of_mem_dues (h : w.Graded T) (hp : p ∈ w.dues z) :
    p.1 < z + w.numBuckets * w.ticksPerBucket := by
  obtain ⟨b, -, hp⟩ := Multiset.mem_sum.1 hp
  obtain ⟨entry, he, rfl⟩ := List.mem_map.1 (Multiset.mem_coe.1 hp)
  have hdist := Ring.dist_lt w.currBucketIndex.isLt b.isLt
  have hoffset := h.offset b entry he
  rw [← h.ticks] at hoffset
  have hle : (Ring.dist w.numBuckets w.currBucketIndex b + 1) * w.ticksPerBucket ≤
      w.numBuckets * w.ticksPerBucket := Nat.mul_le_mul_right _ hdist
  rw [Nat.add_mul, Nat.one_mul] at hle
  show z + _ + _ < _
  omega

/-- No timer is due later than the wheels have buckets for. -/
theorem Graded.lt_of_mem_chainDues (h : Graded T ws) (hp : p ∈ chainDues z ws) :
    p.1 < z + capacity ws := by
  induction ws generalizing T z with
  | nil => cases hp
  | cons w ws ih =>
    have hsum : capacity (w :: ws) = w.numBuckets * w.ticksPerBucket + capacity ws := List.sum_cons
    rcases Multiset.mem_add.1 hp with hp | hp
    · have hlt := h.1.lt_of_mem_dues hp
      omega
    · have hlt := ih h.2 hp
      have hremaining : w.remaining ≤ w.numBuckets * w.ticksPerBucket :=
        Nat.mul_le_mul_right _ (Nat.sub_le ..)
      omega

/-- The capacity of wheels of the given sizes. -/
def capacityOf : ℕ → List ℕ → ℕ
  | _, [] => 0
  | T, size :: sizes => T * size + capacityOf (T * size) sizes

theorem Graded.capacity_eq (h : Graded T ws) : capacity ws = capacityOf T (sizesOf ws) := by
  induction ws generalizing T with
  | nil => rfl
  | cons w ws ih =>
    rw [h.capacity_cons, ih h.2]
    rfl

namespace HierarchicalTimingWheel
variable {s : HierarchicalTimingWheel Timer}

theorem sizesOf_step (call : Call Timer) : sizesOf (s.step call).1.wheels = sizesOf s.wheels := by
  cases call with
  | schedule duration timer =>
    show sizesOf (s.place _ _ _).wheels = _
    rw [wheels_place, sizesOf_place]
  | advance now =>
    show sizesOf (s.advance now).1.wheels = _
    rw [advance_eq]
    exact sizesOf_processBuckets _

end HierarchicalTimingWheel
end AsyncEry.Timing

namespace AsyncEry.Async
open Cell Scheduler Timing Lts

namespace TimerJob
variable {Job : Type}

/-- The value source that the job completes. -/
def source? : TimerJob Job → Option ℕ
  | .complete i => some i
  | .other _ => none

def sources (jobs : Multiset (TimerJob Job)) : Multiset ℕ := jobs.filterMap source?

theorem sources_complete (i : ℕ) (jobs : Multiset (TimerJob Job)) :
    sources (.complete i ::ₘ jobs) = i ::ₘ sources jobs :=
  Multiset.filterMap_cons_some (f := source?) _ _ rfl

theorem sources_other (job : Job) (jobs : Multiset (TimerJob Job)) :
    sources (.other job ::ₘ jobs) = sources jobs :=
  Multiset.filterMap_cons_none (f := source?) _ _ rfl

end TimerJob

namespace TaskTimerSource
variable {Job Err Cb : Type}

/-! ### Where a task is -/

/-- The jobs that have not run: in the wheel, or waiting for a worker. -/
def jobs (s : TaskTimerSource Job Err Cb) : Multiset (TimerJob Job) :=
  s.timingPollSource.wheel.stored + s.expired

/-- The value sources that have a result. -/
def resolved (s : TaskTimerSource Job Err Cb) : Multiset ℕ :=
  (Multiset.range s.valueSources.length).filter fun i =>
    (s.valueSources[i]?.bind WriteOnceCell.read).isSome = true

/-- Each value source is in one place. -/
def Placed (s : TaskTimerSource Job Err Cb) : Prop :=
  TimerJob.sources s.jobs + s.resolved = Multiset.range s.valueSources.length

variable {s s' : TaskTimerSource Job Err Cb} {start now : TimePoint} {i : ℕ}
  {cell : WriteOnceCell Unit Err Cb} {sources : List (WriteOnceCell Unit Err Cb)}

theorem mem_resolved : i ∈ s.resolved ↔ s.Resolved i := by
  unfold resolved Resolved
  rw [Multiset.mem_filter, Multiset.mem_range]
  constructor
  · rintro ⟨-, h⟩
    cases hcell : s.valueSources[i]? with
    | none => rw [hcell] at h; cases h
    | some cell => exact ⟨cell, rfl, by rw [hcell] at h; exact h⟩
  · rintro ⟨cell, hcell, h⟩
    exact ⟨(List.getElem?_eq_some_iff.1 hcell).1, by rw [hcell]; exact h⟩

theorem nodup_resolved : s.resolved.Nodup := (Multiset.nodup_range _).filter _

/-- A cell that is filled as much as the one before. -/
theorem resolved_set (h : s.valueSources[i]? = some cell) {cell' : WriteOnceCell Unit Err Cb}
    (hs' : s'.valueSources = s.valueSources.set i cell') (hread : cell'.read.isSome = cell.read.isSome) :
    s'.resolved = s.resolved := by
  unfold resolved
  rw [hs', List.length_set]
  refine Multiset.filter_congr fun j _ => ?_
  by_cases hij : i = j
  · subst hij
    have hlt := (List.getElem?_eq_some_iff.1 h).1
    rw [List.getElem?_set_self hlt, h]
    exact iff_of_eq (congrArg (· = true) hread)
  · rw [List.getElem?_set_ne hij]

/-- An empty cell is filled. -/
theorem resolved_complete (h : s.valueSources[i]? = some cell) (hi : i ∉ s.resolved)
    {cell' : WriteOnceCell Unit Err Cb} (hs' : s'.valueSources = s.valueSources.set i cell')
    (hread : cell'.read.isSome = true) : s'.resolved = i ::ₘ s.resolved := by
  have hlt := (List.getElem?_eq_some_iff.1 h).1
  refine (Multiset.Nodup.ext nodup_resolved (Multiset.nodup_cons.2 ⟨hi, nodup_resolved⟩)).2 fun j => ?_
  rw [Multiset.mem_cons, mem_resolved, mem_resolved, Resolved, Resolved, hs']
  by_cases hij : i = j
  · subst hij
    rw [List.getElem?_set_self hlt]
    exact iff_of_true ⟨cell', rfl, hread⟩ (.inl rfl)
  · rw [List.getElem?_set_ne hij, or_iff_right fun heq => hij heq.symm]

theorem Init.placed (h : Init start s) : s.Placed := by
  subst h
  show TimerJob.sources ((PollSource.create start : PollSource (TimerJob Job)).wheel.stored + 0) + _ = _
  rw [show (PollSource.create start : PollSource (TimerJob Job)).wheel.stored = 0 from
    HierarchicalTimingWheel.stored_create ..]
  rfl

theorem jobs_schedule (expiry : Milliseconds) (task : TimerJob Job) :
    (s.schedule now expiry task).jobs = task ::ₘ s.jobs := by
  show (s.timingPollSource.wheel.schedule expiry task).stored + _ = _
  rw [HierarchicalTimingWheel.stored_schedule, add_right_comm, add_comm, Multiset.singleton_add]
  rfl

theorem jobs_poll : (s.poll now).jobs = s.jobs := by
  show (s.timingPollSource.wheel.advance now).1.stored +
    (s.expired + (s.timingPollSource.wheel.advance now).2) = _ + _
  rw [← s.timingPollSource.wheel.stored_advance now]
  abel

theorem resolved_after (duration : Milliseconds) : (s.after now duration).resolved = s.resolved := by
  show (Multiset.range (s.valueSources ++ [_]).length).filter _ = _
  rw [List.length_append, List.length_singleton, Multiset.range_succ, Multiset.filter_cons_of_neg]
  · refine Multiset.filter_congr fun j hj => ?_
    show ((s.valueSources ++ [_])[j]?.bind _).isSome = true ↔ _
    rw [List.getElem?_append_left (Multiset.mem_range.1 hj)]
  · show ¬ ((s.valueSources ++ [_])[s.valueSources.length]?.bind _).isSome = true
    rw [List.getElem?_concat_length]
    exact Bool.false_ne_true

namespace Placed

theorem after (h : s.Placed) (duration : Milliseconds) : (s.after now duration).Placed := by
  unfold Placed
  rw [resolved_after]
  show TimerJob.sources (s.schedule now duration _).jobs + _ = Multiset.range (s.valueSources ++ [_]).length
  rw [jobs_schedule, TimerJob.sources_complete, List.length_append, List.length_singleton,
    Multiset.range_succ, Multiset.cons_add, h]

/-- The job of a task that is not resolved completes it. -/
theorem complete (h : s.Placed) {expired : Multiset (TimerJob Job)} (ctx : Context)
    (he : s.expired = .complete i ::ₘ expired) (hcell : s.valueSources[i]? = some cell) :
    ({ s with expired := expired }.complete ctx i cell).Placed := by
  have hjobs : s.jobs = .complete i ::ₘ (s.timingPollSource.wheel.stored + expired) := by
    rw [jobs, he, Multiset.add_cons]
  have hnodup : (TimerJob.sources s.jobs + s.resolved).Nodup := by
    rw [show _ = _ from h]
    exact Multiset.nodup_range _
  have hi : i ∉ s.resolved := by
    refine Multiset.disjoint_left.1 (Multiset.nodup_add.1 hnodup).2.2 ?_
    rw [hjobs, TimerJob.sources_complete]
    exact Multiset.mem_cons_self ..
  have hread : (cell.write ctx ()).1.read.isSome = true := by
    show (cell.write ctx ()).1.value.isSome = true
    rw [WriteOnceCell.write, WriteOnceCell.value_writeResultToValue]
    rfl
  unfold Placed
  rw [resolved_complete hcell hi rfl hread]
  show TimerJob.sources (s.timingPollSource.wheel.stored + expired) + _ =
    Multiset.range (s.valueSources.set i _).length
  rw [List.length_set, ← show _ = _ from h, hjobs, TimerJob.sources_complete,
    Multiset.add_cons, Multiset.cons_add]

theorem step (h : s.Placed) (hs : Step s s') : s'.Placed := by
  cases hs with
  | @schedule now expiry job _ =>
    show TimerJob.sources (s.schedule now expiry _).jobs + _ = _
    rw [jobs_schedule, TimerJob.sources_other]
    exact h
  | after duration _ => exact h.after duration
  | poll _ =>
    unfold Placed
    rw [jobs_poll]
    exact h
  | complete ctx he hcell => exact h.complete ctx he hcell
  | @other job expired he =>
    have hjobs : s.jobs = .other job ::ₘ (s.timingPollSource.wheel.stored + expired) := by
      rw [jobs, he, Multiset.add_cons]
    unfold Placed at h
    rw [hjobs, TimerJob.sources_other] at h
    exact h
  | @await i cell callback hcell =>
    have hread : (cell.await callback).1.read.isSome = cell.read.isSome :=
      congrArg Option.isSome (WriteOnceCell.value_await cell callback)
    unfold Placed
    rw [resolved_set (s := s) hcell rfl hread]
    show TimerJob.sources s.jobs + _ = Multiset.range (s.valueSources.set i _).length
    rw [List.length_set]
    exact h

end Placed

theorem placed_of_reach (h : Reach (Init start) Step s) : s.Placed :=
  Inductive.reach ⟨fun _ h => h.placed, fun _ _ h hs => h.step hs⟩ h

/-- In every state of every run each task that `after` has returned is in exactly one place: either one
job that has not run completes it, be it in the wheel or among the expired ones, and it is not resolved;
or it is resolved, and there is no such job. -/
theorem run_placed (start : TimePoint)
    (r : Run (Init start : TaskTimerSource Job Err Cb → Prop) Step) (n : ℕ) : (r.state n).Placed :=
  placed_of_reach (r.reach n)

/-! ### How long a job stays in the wheel -/

/-- The sizes of the wheels of `Timing::PollSource` stay. -/
def Sized (s : TaskTimerSource Job Err Cb) : Prop :=
  sizesOf s.timingPollSource.wheel.wheels = [1200, 60, 24, 10]

theorem Init.sized (h : Init start s) : s.Sized := by
  subst h
  exact HierarchicalTimingWheel.sizesOf_createWheels [1200, 60, 24, 10] 1

theorem Sized.step (h : s.Sized) (hs : Step s s') : s'.Sized := by
  cases hs with
  | schedule expiry job _ =>
    exact (s.timingPollSource.wheel.sizesOf_step (.schedule expiry (.other job))).trans h
  | after duration _ => exact (s.timingPollSource.wheel.sizesOf_step (.schedule duration _)).trans h
  | @poll now _ => exact (s.timingPollSource.wheel.sizesOf_step (.advance now)).trans h
  | complete | other | await => exact h

/-- The ticks that the wheels of `Timing::PollSource` have buckets for. -/
def maxTicks : ℕ := 19081200

variable {r : Timetable (ScheduleCall (TimerJob Job))}
  {done : Multiset (TimePoint × ScheduleCall (TimerJob Job))} {n : ℕ}

/-- The job that completes value source `i`, if it is in the wheel, is due within `n` ticks. -/
def Within (start : TimePoint) (i n : ℕ) (s : TaskTimerSource Job Err Cb) : Prop :=
  ∃ r done, s.Accounts start r done ∧
    ∀ p ∈ r.calendar.pending, p.2.task = .complete i → p.1 < r.calendar.now + n

theorem Accounts.loaded (h : s.Accounts start r done) :
    s.timingPollSource.wheel.Loaded ScheduleCall.task r.calendar :=
  h.kept.shows.holds.loaded (by decide)

/-- What is in the wheel is pending. -/
theorem Accounts.exists_pending (h : s.Accounts start r done)
    (hi : .complete i ∈ s.timingPollSource.wheel.stored) :
    ∃ p ∈ r.calendar.pending, p.2.task = .complete i := by
  change _ ∈ storedIn s.timingPollSource.wheel.wheels at hi
  rw [← map_chainDues (z := r.calendar.now), h.loaded.dues, Multiset.map_map] at hi
  obtain ⟨p, hp, hi⟩ := Multiset.mem_map.1 hi
  exact ⟨p, hp, hi⟩

theorem Within.notMem (h : s.Within start i 0) : .complete i ∉ s.timingPollSource.wheel.stored := by
  obtain ⟨r, done, ha, hdue⟩ := h
  intro hi
  obtain ⟨p, hp, hi⟩ := ha.exists_pending hi
  have hlt := hdue p hp hi
  have hle := (Multiset.mem_filter.1 hp).2
  omega

/-- Whatever its duration was. -/
theorem within_maxTicks (hr : Reach (Init start) Step s) (i : ℕ) : s.Within start i maxTicks := by
  obtain ⟨r, done, ha⟩ := (inv_of_reach hr).accounts
  refine ⟨r, done, ha, fun p hp _ => ?_⟩
  have hsizes : s.Sized :=
    Inductive.reach ⟨fun _ h => h.sized, fun _ _ h hs => h.step hs⟩ hr
  have hgraded := ha.loaded.graded
  have hcapacity := hgraded.capacity_eq
  rw [show sizesOf _ = _ from hsizes] at hcapacity
  have hmem : (p.1, p.2.task) ∈ chainDues r.calendar.now s.timingPollSource.wheel.wheels := by
    rw [ha.loaded.dues]
    exact Multiset.mem_map_of_mem (Prod.map id ScheduleCall.task) hp
  have hlt := hgraded.lt_of_mem_chainDues hmem
  rw [hcapacity] at hlt
  exact hlt

/-- A poll that finds a tick gone by. -/
def Ticks (s s' : TaskTimerSource Job Err Cb) : Prop :=
  s'.timingPollSource.wheel.lastAdvancementTime ≠ s.timingPollSource.wheel.lastAdvancementTime

instance (s s' : TaskTimerSource Job Err Cb) : Decidable (s.Ticks s') := inferInstanceAs (Decidable (_ ≠ _))

theorem not_ticks (h : s'.timingPollSource.wheel.lastAdvancementTime =
    s.timingPollSource.wheel.lastAdvancementTime) : ¬ s.Ticks s' := not_not.2 h

namespace Within

/-- A poll lets no tick pass, or all the ticks since the last advancement. -/
theorem poll_elapsed (h : s.Within start i n) (hnow : s.clock.toInt ≤ now.toInt) :
    let w := s.timingPollSource.wheel
    let w' := (s.poll now).timingPollSource.wheel
    since now w.lastAdvancementTime < nanos w.tickSize ∧
        w'.lastAdvancementTime = w.lastAdvancementTime ∧ (s.poll now).Within start i n ∨
      ∃ k : ℕ, 0 < k ∧ since now w.lastAdvancementTime < (k + 1) * nanos w.tickSize ∧
        w'.lastAdvancementTime = now ∧ (s.poll now).Within start i (n - k) := by
  obtain ⟨r, done, ha, hdue⟩ := h
  have ha' := ha.poll hnow
  dsimp only
  rw [ha.kept.shows.last, ha.kept.shows.tickSize, ha'.kept.shows.last]
  rcases r.advance_tick now ha.kept.shows.clocked.tick_pos with ⟨hlt, heq⟩ | ⟨k, hk, -, hlt, heq⟩
  · rw [heq] at ha' ⊢
    exact .inl ⟨hlt, rfl, _, _, ha', hdue⟩
  · rw [heq] at ha' ⊢
    refine .inr ⟨k, hk, hlt, rfl, _, _, ha', fun p hp hi => ?_⟩
    obtain ⟨hp, hle⟩ := Multiset.mem_filter.1 (Calendar.pending_skip .. ▸ hp)
    have hbefore := hdue p hp hi
    change r.calendar.now + k ≤ p.1 at hle
    show p.1 < r.calendar.now + k + _
    omega

theorem mono {m : ℕ} (h : s.Within start i n) (hnm : n ≤ m) : s.Within start i m := by
  obtain ⟨r, done, ha, hdue⟩ := h
  exact ⟨r, done, ha, fun p hp hi => (hdue p hp hi).trans_le (Nat.add_le_add_left hnm _)⟩

theorem poll (h : s.Within start i n) (hnow : s.clock.toInt ≤ now.toInt) :
    (s.poll now).Within start i (n - if s.Ticks (s.poll now) then 1 else 0) := by
  rcases h.poll_elapsed hnow with ⟨-, hlast, h'⟩ | ⟨k, hk, -, -, h'⟩
  · rw [if_neg (not_ticks hlast)]
    exact h'
  · refine h'.mono ?_
    split <;> omega

/-- The job of another call is booked. -/
theorem schedule (h : s.Within start i n) (hnow : s.clock.toInt ≤ now.toInt) (expiry : Milliseconds)
    {task : TimerJob Job} (htask : task ≠ .complete i) :
    (s.schedule now expiry task).Within start i n := by
  obtain ⟨r, done, ha, hdue⟩ := h
  refine ⟨_, _, ha.schedule hnow expiry task, fun p hp hi => ?_⟩
  change p ∈ (r.calendar.book _ _).pending at hp
  rw [Calendar.pending_book HierarchicalTimingWheel.le_dueTick] at hp
  rcases Multiset.mem_add.1 hp with hp | hp
  · exact hdue p hp hi
  · rw [Multiset.mem_singleton.1 hp] at hi
    exact absurd hi htask

theorem step (h : s.Within start i n) (hi : i < s.valueSources.length) (hs : Step s s') :
    s'.Within start i (n - if s.Ticks s' then 1 else 0) := by
  have hsame : ∀ {s' : TaskTimerSource Job Err Cb}, s'.timingPollSource.wheel.lastAdvancementTime =
      s.timingPollSource.wheel.lastAdvancementTime → s'.Within start i n →
        s'.Within start i (n - if s.Ticks s' then 1 else 0) := by
    intro s' heq h
    rw [if_neg (not_ticks heq)]
    exact h
  cases hs with
  | schedule expiry job hnow =>
    exact hsame (HierarchicalTimingWheel.place_frame ..).2 (h.schedule hnow expiry nofun)
  | after duration hnow =>
    have hne : TimerJob.complete s.valueSources.length ≠ (.complete i : TimerJob Job) := by
      intro heq
      cases heq
      exact lt_irrefl _ hi
    obtain ⟨r, done, ha, hdue⟩ := h.schedule hnow duration hne
    exact hsame (HierarchicalTimingWheel.place_frame ..).2
      ⟨r, done, ⟨ha.kept, ha.calls, ha.returned, ha.due, ha.time⟩, hdue⟩
  | poll hnow => exact h.poll hnow
  | complete | other | await =>
    obtain ⟨r, done, ha, hdue⟩ := h
    exact hsame rfl ⟨r, done, ⟨ha.kept, ha.calls, ha.returned, ha.due, ha.time⟩, hdue⟩

/-- The call of `after` for a timer that is aligned. -/
theorem after (hr : Reach (Init start) Step s) (hnow : s.clock.toInt ≤ now.toInt) {duration : Milliseconds}
    (hd : 0 ≤ duration.toInt)
    (ha : Aligned s.timingPollSource.wheel.lowestWheel s.timingPollSource.wheel.wheelsAbove
      (ticksIn s.timingPollSource.wheel.tickSize duration).toNat) :
    (s.after now duration).Within start s.valueSources.length
      ((ticksIn s.timingPollSource.wheel.tickSize duration).toNat + 1) := by
  have h := inv_of_reach hr
  obtain ⟨r, done, hacc⟩ := h.accounts
  have hacc' := hacc.schedule hnow duration (.complete s.valueSources.length)
  refine ⟨_, done, ⟨hacc'.kept, hacc'.calls, hacc'.returned, hacc'.due, hacc'.time⟩, fun p hp hi => ?_⟩
  change p ∈ (r.calendar.book _ _).pending at hp
  rw [Calendar.pending_book HierarchicalTimingWheel.le_dueTick] at hp
  rcases Multiset.mem_add.1 hp with hp | hp
  · -- the value source is a new one
    have hmem : p.2 ∈ s.calls := by
      rw [← Multiset.mem_coe, hacc.calls]
      exact Multiset.mem_add.2 (.inr (Multiset.mem_map_of_mem Prod.snd hp))
    exact absurd (h.lt _ hmem _ hi) (lt_irrefl _)
  · rw [Multiset.mem_singleton.1 hp, hacc.kept.shows.dueTick_eq (by decide) hd ha,
      hacc.kept.shows.tickSize]
    show r.calendar.now + _ < r.calendar.now + _
    omega

end Within

theorem Step.length_le (hs : Step s s') : s.valueSources.length ≤ s'.valueSources.length := by
  cases hs with
  | schedule | poll | other => exact le_rfl
  | after =>
    show s.valueSources.length ≤ (s.valueSources ++ [_]).length
    rw [List.length_append]
    exact Nat.le_add_right ..
  | complete | await =>
    show s.valueSources.length ≤ (s.valueSources.set _ _).length
    rw [List.length_set]

theorem lt_length_of_run (r : Run (Init start : TaskTimerSource Job Err Cb → Prop) Step) {i x : ℕ}
    (hx : x < (r.state i).valueSources.length) (k : ℕ) : x < (r.state (i + k)).valueSources.length :=
  r.stable (P := fun s => x < s.valueSources.length) (fun _ _ _ hs hx => hx.trans_le hs.length_le)
    (Nat.le_add_right i k) hx

theorem Within.run (r : Run (Init start : TaskTimerSource Job Err Cb → Prop) Step) {i x n : ℕ}
    (hx : x < (r.state i).valueSources.length) (h : (r.state i).Within start x n) (k : ℕ) :
    (r.state (i + k)).Within start x (n - r.count Ticks i k) := by
  exact (r.descend (Q := fun n s => x < s.valueSources.length ∧ s.Within start x n)
    (fun s => not_ticks rfl)
    (fun n s s' _ ⟨hx, h⟩ hs => ⟨hx.trans_le hs.length_le, h.step hx hs⟩) ⟨hx, h⟩ k).2

/-- A task whose job has left the wheel. -/
theorem Within.returned (hr : Reach (Init start) Step s) (hi : i < s.valueSources.length)
    (h : s.Within start i 0) : .complete i ∈ s.expired ∨ s.Resolved i := by
  have hmem := Multiset.mem_range.2 hi
  rw [← show _ = _ from placed_of_reach hr] at hmem
  rcases Multiset.mem_add.1 hmem with hmem | hmem
  · obtain ⟨job, hjob, hsource⟩ := (Multiset.mem_filterMap _ _).1 hmem
    cases job with
    | complete j =>
      cases hsource
      exact .inl ((Multiset.mem_add.1 hjob).resolve_left h.notMem)
    | other job => cases hsource
  · exact .inr (mem_resolved.1 hmem)

/-- A cell that was filled is filled. -/
theorem Resolved.set {x : ℕ} {cell' : WriteOnceCell Unit Err Cb} (h : s.Resolved i)
    (hcell : s.valueSources[x]? = some cell) (hread : cell.read.isSome → cell'.read.isSome)
    (hs' : s'.valueSources = s.valueSources.set x cell') : s'.Resolved i := by
  obtain ⟨old, hold, hsome⟩ := h
  by_cases hxi : x = i
  · subst hxi
    obtain rfl := Option.some.inj (hcell.symm.trans hold)
    refine ⟨cell', ?_, hread hsome⟩
    rw [hs', List.getElem?_set_self (List.getElem?_eq_some_iff.1 hcell).1]
  · exact ⟨old, by rw [hs', List.getElem?_set_ne hxi, hold], hsome⟩

theorem Resolved.step (h : s.Resolved i) (hs : Step s s') : s'.Resolved i := by
  cases hs with
  | schedule | poll | other => exact h
  | after =>
    obtain ⟨cell, hcell, hsome⟩ := h
    refine ⟨cell, ?_, hsome⟩
    show (s.valueSources ++ [_])[i]? = some cell
    rw [List.getElem?_append_left (List.getElem?_eq_some_iff.1 hcell).1, hcell]
  | @complete x cell expired ctx he hcell =>
    refine h.set hcell (fun _ => ?_) rfl
    show (cell.write ctx ()).1.value.isSome = true
    rw [WriteOnceCell.write, WriteOnceCell.value_writeResultToValue]
    rfl
  | @await x cell callback hcell =>
    refine h.set hcell (fun hsome => ?_) rfl
    show (cell.await callback).1.value.isSome = true
    rwa [WriteOnceCell.value_await]

theorem lt_length_after (s : TaskTimerSource Job Err Cb) (now : TimePoint) (duration : Milliseconds) :
    s.valueSources.length < (s.after now duration).valueSources.length := by
  show _ < (s.valueSources ++ [_]).length
  rw [List.length_append]
  exact Nat.lt_succ_self _

theorem lt_length_of_after (r : Run (Init start : TaskTimerSource Job Err Cb → Prop) Step) {i j : ℕ}
    {duration : Milliseconds} (hafter : r.state (i + 1) = (r.state i).after now duration) (hij : i < j) :
    (r.state i).valueSources.length < (r.state j).valueSources.length := by
  obtain ⟨k, rfl⟩ := Nat.exists_eq_add_of_le (show i + 1 ≤ j from hij)
  exact lt_length_of_run r (hafter ▸ lt_length_after ..) k

/-- A task is resolved, or its job has come back and waits for a worker, once as many polls have found a
tick gone by as the wheels have buckets for ticks, and once there have been more of them than its ticks
for a timer that is `Aligned` as the cursors stand at the moment of `after`. -/
theorem run_timer_returns (start : TimePoint)
    (r : Run (Init start : TaskTimerSource Job Err Cb → Prop) Step) {i : ℕ} {now : TimePoint}
    {duration : Milliseconds} (hnow : (r.state i).clock.toInt ≤ now.toInt)
    (hafter : r.state (i + 1) = (r.state i).after now duration) (k : ℕ)
    (hpolls :
      let w := (r.state i).timingPollSource.wheel
      let ticks := (ticksIn w.tickSize duration).toNat
      maxTicks ≤ r.count Ticks (i + 1) k ∨
        0 ≤ duration.toInt ∧ Aligned w.lowestWheel w.wheelsAbove ticks ∧ ticks < r.count Ticks (i + 1) k) :
    let x := (r.state i).valueSources.length
    .complete x ∈ (r.state (i + 1 + k)).expired ∨ (r.state (i + 1 + k)).Resolved x := by
  intro x
  have hx : x < (r.state (i + 1)).valueSources.length := hafter ▸ lt_length_after ..
  have hwithin : (r.state (i + 1 + k)).Within start x 0 := by
    rcases hpolls with hpolls | ⟨hd, ha, hpolls⟩
    · have h := Within.run r hx (within_maxTicks (r.reach (i + 1)) x) k
      rwa [Nat.sub_eq_zero_of_le hpolls] at h
    · have h := Within.after (r.reach i) hnow hd ha
      rw [← hafter] at h
      have h := Within.run r hx h k
      rwa [Nat.sub_eq_zero_of_le hpolls] at h
  exact hwithin.returned (r.reach _) (lt_length_of_run r hx k)

/-- A timer of 50 ms, and polls at 50 and at 100 ms. -/
def polledTwice : Run (Init 0 : TaskTimerSource Unit Unit Unit → Prop) Step where
  state :=
    let s : TaskTimerSource Unit Unit Unit := after ⟨0, .create 0, [], 0, [], [], 0⟩ 0 50
    cons ⟨0, .create 0, [], 0, [], [], 0⟩
      (cons s (cons (s.poll 50000000) fun _ => (s.poll 50000000).poll 100000000))
  starts := rfl
  steps n := by
    rcases n with _ | _ | _ | n
    · exact .inr (.after 50 (by decide))
    · exact .inr (.poll (by decide))
    · exact .inr (.poll (by decide))
    · exact .inl rfl

theorem run_timer_returns_polledTwice :
    .complete 0 ∈ (polledTwice.state 3).expired ∨ (polledTwice.state 3).Resolved 0 :=
  @run_timer_returns Unit Unit Unit 0 polledTwice 0 0 50 (by decide) rfl 2
    (.inr ⟨by decide, by decide, by decide⟩)

end TaskTimerSource
end AsyncEry.Async
