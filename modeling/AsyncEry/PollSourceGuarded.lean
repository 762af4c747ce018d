import AsyncEry.LockGuard
import AsyncEry.PollSource
import AsyncEry.WheelStores
import AsyncEry.Lib.Monitor

/-!
# `Timing::PollSource` between its threads

Any thread may call `schedule`, and the poll thread calls `poll`; both take the spin lock first. Under it
a `poll` reads the clock, goes through the completed buckets one by one and notes the time, while others
wait. The wheel is a `Monitor`, so the calls that have returned are a sequence of calls on the wheel,
one after another, in the order in which they gave the lock back.
-/

namespace AsyncEry.Timing
open Lts

namespace PollSource

inductive Op (Job : Type)
  | schedule (expiry : Milliseconds) (task : Job)
  | poll

/-- Where a block under the lock stands. -/
inductive Frame (Job : Type)
  | schedule (expiry : Milliseconds) (task : Job)
  | place (expiry : Milliseconds) (task : Job) (wheelToPlaceIn ticksLeft : ℕ)
  | scheduled (expiry : Milliseconds) (task : Job)
  | poll
  | buckets (now : TimePoint) (completed : List ℕ) (resolvedTimers : List Job)
  | polled (now : TimePoint) (resolvedTimers : List Job)

variable {Job : Type}

def Op.enter : Op Job → Frame Job
  | .schedule expiry task => .schedule expiry task
  | .poll => .poll

/-- The result, with the call that has taken effect. -/
def Frame.leave : Frame Job → Option (Call Job × List Job)
  | .scheduled expiry task => some (.schedule expiry task, [])
  | .polled now resolvedTimers => some (.advance now, resolvedTimers)
  | _ => none

/-- A step under the lock. The clock shows anything. -/
inductive Body : HierarchicalTimingWheel Job × Frame Job → HierarchicalTimingWheel Job × Frame Job → Prop
  | determine {w expiry task} : Body (w, .schedule expiry task)
      (w, .place expiry task
        (determineTimerWheel w.lowestWheel w.wheelsAbove (SizeT.ofInt (ticksIn w.tickSize expiry))).1
        (determineTimerWheel w.lowestWheel w.wheelsAbove (SizeT.ofInt (ticksIn w.tickSize expiry))).2)
  | place {w expiry task i ticksLeft} :
      Body (w, .place expiry task i ticksLeft) (w.place ticksLeft task i, .scheduled expiry task)
  | early {w} (now : TimePoint) (h : since now w.lastAdvancementTime < nanos w.tickSize) :
      Body (w, .poll) (w, .polled now [])
  | begin {w} (now : TimePoint) (h : ¬ since now w.lastAdvancementTime < nanos w.tickSize) :
      Body (w, .poll) (w, .buckets now (List.range' w.lowestWheel.currBucketIndex
        (w.determineNewBottomWheelIndex now - w.lowestWheel.currBucketIndex)) [])
  | bucket {w now idx completed resolvedTimers} :
      Body (w, .buckets now (idx :: completed) resolvedTimers)
        ((w.processBucket (w.lowestWheel.bucket idx)).1,
          .buckets now completed
            (resolvedTimers ++ (w.processBucket (w.lowestWheel.bucket idx)).2))
  | done {w now resolvedTimers} : Body (w, .buckets now [] resolvedTimers)
      ({ w with lastAdvancementTime := now }, .polled now resolvedTimers)

/-- The wheel under the lock of the poll source. -/
def guarded (Job : Type) : Monitor (HierarchicalTimingWheel Job) (Op Job) (Frame Job) (Call Job × List Job) :=
  ⟨Op.enter, Body, Frame.leave⟩

/-- The constructor has been called. -/
def Created (w : HierarchicalTimingWheel Job) : Prop := ∃ start, w = (create start : PollSource Job).wheel

/-- What a call of `op` may do to the wheel. -/
def Op.Makes : Op Job → Call Job → Prop
  | .schedule expiry task, call => call = .schedule expiry task
  | .poll, call => ∃ now, call = .advance now

/-- What a block that started at `w` has done when it stands at a frame with the wheel `w'`. -/
def Frame.After (w w' : HierarchicalTimingWheel Job) : Op Job → Frame Job → Prop
  | .schedule expiry task, .schedule expiry' task' => expiry' = expiry ∧ task' = task ∧ w' = w
  | .schedule expiry task, .place expiry' task' i ticksLeft => expiry' = expiry ∧ task' = task ∧
      w' = w ∧ w.place ticksLeft task i = w.schedule expiry task
  | .schedule expiry task, .scheduled expiry' task' => expiry' = expiry ∧ task' = task ∧
      w' = w.schedule expiry task
  | .poll, .poll => w' = w
  | .poll, .buckets now completed resolvedTimers => w.advance now =
      ({ (w'.processBuckets completed).1 with lastAdvancementTime := now },
        resolvedTimers ++ (w'.processBuckets completed).2)
  | .poll, .polled now resolvedTimers => w.advance now = (w', resolvedTimers)
  | _, _ => False

theorem after_of_steps {w : HierarchicalTimingWheel Job} {op : Op Job}
    {c : HierarchicalTimingWheel Job × Frame Job}
    (h : Relation.ReflTransGen Body (w, op.enter) c) : Frame.After w c.1 op c.2 := by
  induction h with
  | refl => cases op <;> simp [Op.enter, Frame.After]
  | tail _ hstep ih =>
    cases hstep with
    | determine =>
      cases op with
      | schedule expiry task =>
        obtain ⟨rfl, rfl, rfl⟩ := ih
        exact ⟨rfl, rfl, rfl, rfl⟩
      | poll => exact ih.elim
    | place =>
      cases op with
      | schedule expiry task =>
        obtain ⟨rfl, rfl, rfl, hplace⟩ := ih
        exact ⟨rfl, rfl, hplace⟩
      | poll => exact ih.elim
    | early now hnow =>
      cases op with
      | schedule expiry task => exact ih.elim
      | poll =>
        obtain rfl := ih
        exact if_pos hnow
    | begin now hnow =>
      cases op with
      | schedule expiry task => exact ih.elim
      | poll =>
        obtain rfl := ih
        exact if_neg hnow
    | bucket =>
      cases op with
      | schedule expiry task => exact ih.elim
      | poll =>
        refine Eq.trans ih ?_
        show _ = _
        rw [HierarchicalTimingWheel.processBuckets, ← List.append_assoc]
    | done =>
      cases op with
      | schedule expiry task => exact ih.elim
      | poll =>
        refine Eq.trans ih ?_
        rw [HierarchicalTimingWheel.processBuckets, List.append_nil]

/-- A block that is run from beginning to end is a call on the wheel. -/
theorem step_of_exec {w w' : HierarchicalTimingWheel Job} {op : Op Job} {ret : Call Job × List Job}
    (h : (guarded Job).Exec op ret w w') : op.Makes ret.1 ∧ w.step ret.1 = (w', ret.2) := by
  obtain ⟨frame, hsteps, hleave⟩ := h
  have hafter := after_of_steps hsteps
  cases op with
  | schedule expiry task =>
    cases frame with
    | scheduled expiry' task' =>
      obtain ⟨rfl, rfl, hw⟩ := hafter
      cases Option.some.inj hleave
      exact ⟨rfl, Prod.ext hw.symm rfl⟩
    | schedule | place => cases hleave
    | poll | buckets | polled => exact hafter.elim
  | poll =>
    cases frame with
    | polled now resolvedTimers =>
      cases Option.some.inj hleave
      exact ⟨⟨now, rfl⟩, hafter⟩
    | poll | buckets => cases hleave
    | schedule | place | scheduled => exact hafter.elim

/-- The calls that have taken effect, and what they returned. -/
def effects {Tid : Type} (history : List (Tid × Op Job × Call Job × List Job)) :
    List (Call Job × List Job) := history.map fun e => e.2.2

theorem calls_of_sequential {Tid : Type} {history : List (Tid × Op Job × Call Job × List Job)}
    {w : HierarchicalTimingWheel Job} (h : (guarded Job).Sequential Created history w) :
    ∃ start : TimePoint, let calls := (effects history).map Prod.fst
      Mealy.final HierarchicalTimingWheel.step (create start).wheel calls = w ∧
      Mealy.run HierarchicalTimingWheel.step (create start).wheel calls =
        (effects history).map Prod.snd ∧
      ∀ e ∈ history, e.2.1.Makes e.2.2.1 := by
  induction h with
  | nil h =>
    obtain ⟨start, rfl⟩ := h
    exact ⟨start, rfl, rfl, nofun⟩
  | @snoc history w w' _ t op ret he ih =>
    obtain ⟨start, hfinal, hrun, hmakes⟩ := ih
    obtain ⟨hmake, hstep⟩ := step_of_exec he
    have heffects : effects (history ++ [(t, op, ret)]) = effects history ++ [ret] :=
      List.map_append
    refine ⟨start, ?_, ?_, fun e hmem => ?_⟩
    · rw [heffects, List.map_append, List.map_singleton, Mealy.final_concat, hfinal, hstep]
    · rw [heffects, List.map_append, List.map_singleton, Mealy.run_concat, hfinal, hstep, hrun,
        List.map_append]
      rfl
    · rcases List.mem_append.1 hmem with hmem | hmem
      · exact hmakes e hmem
      · rw [List.mem_singleton.1 hmem]
        exact hmake

/-- In every state of every run, down to the loads and exchanges of the spin lock and the buckets of the
wheel: the calls that have returned, in the order in which they gave the lock back, returned what they
return when they are made one after another on a fresh wheel, which these calls bring to what the wheel
is whenever the lock is free. The tasks that they were given are those that they returned and those that
are then stored, each once. What has returned at a moment comes before what returns later. -/
theorem run_sequential {Tid : Type} [DecidableEq Tid]
    (r : Run (Monitor.Init SpinLock.guard Created :
      Monitor.State (SpinLock Tid) Tid (HierarchicalTimingWheel Job) (Op Job) (Frame Job)
        (Call Job × List Job) → Prop) (Monitor.Step (guarded Job) SpinLock.guard)) (n : ℕ) :
    (∃ (start : TimePoint) (w : HierarchicalTimingWheel Job),
      let calls := (effects (r.state n).history).map Prod.fst
      let results := (effects (r.state n).history).map Prod.snd
      Mealy.final HierarchicalTimingWheel.step (create start).wheel calls = w ∧
      Mealy.run HierarchicalTimingWheel.step (create start).wheel calls = results ∧
      ((r.state n).lock.isAcquired = false → (r.state n).shared = w) ∧
      (calls.filterMap Call.timer? : Multiset Job) = results.flatten + w.stored) ∧
    (∀ e ∈ (r.state n).history, e.2.1.Makes e.2.2.1) ∧
    ∀ m ≤ n, (r.state m).history <+: (r.state n).history := by
  have h := Monitor.inv_of_reach (r.reach n)
  obtain ⟨w, hseq, -, hfree⟩ := h.shared
  obtain ⟨start, hfinal, hrun, hmakes⟩ := calls_of_sequential hseq
  refine ⟨⟨start, w, hfinal, hrun, fun ha => ?_, ?_⟩, hmakes, fun m hm => Monitor.history_of_run r hm⟩
  · refine (hfree fun t ht => ?_).symm
    exact h.lock.not_holds ha t ((h.use_at rfl).trans ht)
  · have hstored := HierarchicalTimingWheel.stored_run (s := (create start).wheel)
      ((effects (r.state n).history).map Prod.fst)
    rwa [hfinal, hrun, show (create start : PollSource Job).wheel.stored = 0 from
      HierarchicalTimingWheel.stored_create .., zero_add] at hstored

end PollSource
end AsyncEry.Timing
