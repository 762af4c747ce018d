import AsyncEry.JobQueueGuarded
import AsyncEry.Lib.Atomic

/-!
# `JobQueue` is linearizable

The queue under its spin lock does what a list does on which every call takes effect in one step. A call
takes effect when the counter changes: an `enqueue` with its `fetch_add`, a `dequeue` with its
`fetch_sub`, and a `dequeue` that returns `nullopt` when it finds the counter at zero, or, inside the
lock, `head = tail`. So the jobs of the list are those of the ring, but for the one that the holder of the
lock has stored and not counted, or taken and not counted off; and the counter is exactly their number,
at every moment.
-/

namespace AsyncEry.JobQueue
open Lts

variable {Tid Job : Type}

/-- The operations on a list, with their answers; `enqueue` answers nothing. -/
def Op.onList (jobs : List Job) : Op Job → List Job × Option Job
  | .enqueue item => (jobs ++ [item], none)
  | .dequeue => (jobs.tail, jobs.head?)

/-- The call a thread is in, and its answer once it has taken effect. -/
def PC.call : PC Job → Call (Op Job) (Option Job)
  | .idle => .idle
  | .enqLock item | .enqReserve item | .enqStore item | .enqCount item => .pending (.enqueue item)
  | .enqUnlock item => .answered (.enqueue item) none
  | .deqLoad | .deqLock | .deqTest | .deqTake | .deqCount _ => .pending .dequeue
  | .deqUnlock job => .answered .dequeue (some job)
  | .deqUnlockEmpty | .deqReturnNull => .answered .dequeue none

/-- The jobs of the calls that have taken effect, while those in the ring are `jobs` and the holder of the
lock stands at this point. -/
def PC.counted : PC Job → List Job → List Job
  | .enqCount _, jobs => jobs.dropLast
  | .deqCount job, jobs => job :: jobs
  | _, jobs => jobs

namespace Threads

variable [Inhabited Job] {s s' : Threads Tid Job} {u : Atomic Tid (List Job) (Op Job) (Option Job)} {t : Tid}
  {p p' : PC Job}

def counted (s : Threads Tid Job) : List Job := s.holder.counted s.q.contents

theorem Good.length_counted (g : Good p s) : ((p.counted s.q.contents).length : ℤ) = s.q.currentSize := by
  rw [g.size]
  cases p with
  | enqCount item =>
    have hne := g.nonempty (.inr ⟨item, rfl⟩)
    rw [PC.counted, List.length_dropLast, contents_length, PC.skew]
    omega
  | deqCount job =>
    rw [PC.counted, List.length_cons, contents_length, PC.skew]
    push_cast
    rfl
  | _ => simp [PC.counted, PC.skew, contents_length]

/-- The job that is stored and not counted is the last one in the ring. -/
theorem Good.contents_of_enqCount {item : Job} (g : Good (.enqCount item) s) :
    s.q.contents = s.q.contents.dropLast ++ [item] := by
  have hne : s.q.contents ≠ [] := by
    rw [← List.length_pos_iff, contents_length]
    exact Nat.pos_of_ne_zero (g.nonempty (.inr ⟨item, rfl⟩))
  have horder : s.taken ++ s.q.contents = s.enqReturned ++ [item] := by
    rw [show s.enqReturned ++ [item] = s.enqLocked from g.entered, ← g.order]
    exact (List.append_nil _).symm
  have hlast : s.q.contents.getLast hne = item := by
    have heq := congrArg List.getLast? horder
    rw [List.getLast?_append_of_ne_nil _ hne, List.getLast?_concat, List.getLast?_eq_some_getLast hne] at heq
    exact Option.some.inj heq
  conv_lhs => rw [← List.dropLast_append_getLast hne, hlast]

/-- The list and the calls that `s` stands for. -/
structure Counts (s : Threads Tid Job) (u : Atomic Tid (List Job) (Op Job) (Option Job)) : Prop where
  inv : s.Inv
  value : u.value = s.counted
  call : u.call = fun t => (s.pc t).call

theorem Inv.counted_eq (h : s.Inv) (hp : s.pc t = p) (ht : p.holdsLock) :
    s.counted = p.counted s.q.contents := by
  rw [counted, h.holder_eq (t := t) (by rw [hp]; exact ht), hp]

theorem counted_of_free (hl : s.lock = none) : s.counted = s.q.contents := by
  rw [counted, holder, hl]
  rfl

variable [DecidableEq Tid]

theorem Inv.counted_goto (h : s.Inv) (ht : ¬ (s.pc t).holdsLock) : (s.goto t p).counted = s.counted := by
  rw [counted, h.holder_goto ht]
  rfl

theorem Inv.counted_update (h : s'.Inv) (hpc : s'.pc = Function.update s.pc t p) (hp : p.holdsLock) :
    s'.counted = p.counted s'.q.contents :=
  h.counted_eq (by rw [hpc, Function.update_self]) hp

namespace Counts

/-- What the list can do for a step of `t` to `s'`. -/
def Answers (u : Atomic Tid (List Job) (Op Job) (Option Job)) (s' : Threads Tid Job) : Prop :=
  ∃ u', (u' = u ∨ Atomic.Step Op.onList u u') ∧ Counts s' u'

theorem call_update (h : Counts s u) (hpc : s'.pc = Function.update s.pc t p) :
    (fun v => (s'.pc v).call) = Function.update u.call t p.call := by
  rw [hpc, h.call]
  exact Function.comp_update PC.call s.pc t p

omit [DecidableEq Tid] in
theorem call_at (h : Counts s u) (hp : s.pc t = p) : u.call t = p.call := by
  rw [h.call, ← hp]

/-- A step inside a call that is not the one in which it takes effect. -/
theorem stay (h : Counts s u) (hinv : s'.Inv) (hpc : s'.pc = Function.update s.pc t p)
    (hp : p.call = (s.pc t).call) (hc : s'.counted = s.counted) : Answers u s' := by
  refine ⟨u, .inl rfl, hinv, by rw [hc, h.value], ?_⟩
  rw [h.call_update hpc, hp, ← h.call_at rfl, Function.update_eq_self]

theorem calls {op : Op Job} (h : Counts s u) (hinv : s'.Inv) (hpc : s'.pc = Function.update s.pc t p)
    (ht : s.pc t = .idle) (hp : p.call = .pending op) (hc : s'.counted = s.counted) : Answers u s' := by
  refine ⟨_, .inr (.call op (h.call_at ht)), hinv, by rw [hc, ← h.value]; rfl, ?_⟩
  rw [h.call_update hpc, hp]
  rfl

theorem returns {op : Op Job} {answer : Option Job} (h : Counts s u) (hinv : s'.Inv)
    (hpc : s'.pc = Function.update s.pc t .idle) (ht : (s.pc t).call = .answered op answer)
    (hc : s'.counted = s.counted) : Answers u s' := by
  refine ⟨_, .inr (.ret ((h.call_at rfl).trans ht)), hinv, by rw [hc, ← h.value]; rfl, ?_⟩
  rw [h.call_update hpc]
  rfl

theorem effect {op : Op Job} {answer : Option Job} (h : Counts s u) (hinv : s'.Inv)
    (hpc : s'.pc = Function.update s.pc t p) (ht : (s.pc t).call = .pending op)
    (hp : p.call = .answered op answer) (hc : Op.onList s.counted op = (s'.counted, answer)) :
    Answers u s' := by
  have hvalue : Op.onList u.value op = (s'.counted, answer) := by rw [h.value, hc]
  refine ⟨_, .inr (.effect ((h.call_at rfl).trans ht)), hinv, ?_, ?_⟩
  · show (Op.onList u.value op).1 = _
    rw [hvalue]
  · rw [h.call_update hpc, hp]
    show Function.update u.call t (.answered op (Op.onList u.value op).2) = _
    rw [hvalue]

/-! Steps of the thread that holds the lock. -/

theorem acquires (h : Counts s u) (hinv : s'.Inv) (hpc : s'.pc = Function.update s.pc t p)
    (hl : s.lock = none) (hl' : p.holdsLock) (hp : p.call = (s.pc t).call)
    (hc : p.counted s'.q.contents = s.q.contents) : Answers u s' := by
  refine h.stay hinv hpc hp ?_
  rw [hinv.counted_update hpc hl', counted_of_free hl, hc]

theorem stay_inside (h : Counts s u) (hinv : s'.Inv) (ht : s.pc t = p)
    (hpc : s'.pc = Function.update s.pc t p') (hl : p.holdsLock) (hl' : p'.holdsLock)
    (hp : p'.call = p.call) (hc : p'.counted s'.q.contents = p.counted s.q.contents) : Answers u s' := by
  refine h.stay hinv hpc (by rw [hp, ht]) ?_
  rw [hinv.counted_update hpc hl', h.inv.counted_eq ht hl, hc]

theorem effect_inside {op : Op Job} {answer : Option Job} (h : Counts s u) (hinv : s'.Inv) (ht : s.pc t = p)
    (hpc : s'.pc = Function.update s.pc t p') (hl : p.holdsLock) (hl' : p'.holdsLock)
    (hp : p.call = .pending op) (hp' : p'.call = .answered op answer)
    (hc : Op.onList (p.counted s.q.contents) op = (p'.counted s'.q.contents, answer)) : Answers u s' := by
  refine h.effect hinv hpc (by rw [ht, hp]) hp' ?_
  rw [hinv.counted_update hpc hl', h.inv.counted_eq ht hl, hc]

theorem releases {op : Op Job} {answer : Option Job} (h : Counts s u) (hinv : s'.Inv) (ht : s.pc t = p)
    (hpc : s'.pc = Function.update s.pc t .idle) (hl : p.holdsLock) (hl' : s'.lock = none)
    (hp : p.call = .answered op answer) (hc : s'.q.contents = p.counted s.q.contents) : Answers u s' := by
  refine h.returns hinv hpc (by rw [ht, hp]) ?_
  rw [counted_of_free hl', h.inv.counted_eq ht hl, hc]

end Counts

/-- Every step is one of the list, or leaves it alone. -/
theorem Step.counts (hs : Step s s') (h : Counts s u) : Counts.Answers u s' := by
  have hinv := hs.inv h.inv
  cases hs with
  | @callEnqueue t item hp | @callDequeue t hp =>
    exact h.calls hinv rfl hp rfl (h.inv.counted_goto (by rw [hp]; exact id))
  | @enqLock t item hp hl | @deqLock t hp hl =>
    exact h.acquires hinv rfl hl trivial (by rw [hp]; rfl) rfl
  | @enqReserve t item q' hp hq =>
    obtain ⟨q₁, hq₁, -, -, -, -, hcont⟩ := (h.inv.good_at hp trivial).layout.reserve
    obtain rfl : q' = q₁ := Option.some.inj (hq.symm.trans hq₁)
    exact h.stay_inside hinv hp rfl trivial trivial rfl hcont
  | @enqStore t item hp =>
    have g := h.inv.good_at hp trivial
    refine h.stay_inside hinv hp rfl trivial trivial rfl ?_
    show (s.q.store item).contents.dropLast = s.q.contents
    rw [g.layout.store_contents (g.room item rfl), List.dropLast_concat]
  | @enqCount t item hp =>
    have g := h.inv.good_at hp trivial
    exact h.effect_inside hinv hp rfl trivial trivial rfl rfl (congrArg (·, none) g.contents_of_enqCount.symm)
  | @enqUnlock t item hp | @deqUnlock t job hp | @deqUnlockEmpty t hp =>
    exact h.releases hinv hp rfl trivial rfl rfl rfl
  | @deqLoadZero t hp h0 =>
    have hc : (s.goto t .deqReturnNull).counted = s.counted := h.inv.counted_goto (by rw [hp]; exact id)
    have hnil : s.counted = [] := by
      have hlen : ((s.counted).length : ℤ) = s.q.currentSize := h.inv.good.length_counted
      rw [show s.q.currentSize = 0 from h0] at hlen
      exact List.length_eq_zero_iff.1 (by exact_mod_cast hlen)
    refine h.effect hinv rfl (by rw [hp]; rfl) rfl ?_
    rw [hc, hnil]
    rfl
  | @deqLoadNonzero t hp h0 =>
    exact h.stay hinv rfl (by rw [hp]; rfl) (h.inv.counted_goto (by rw [hp]; exact id))
  | @deqTestEmpty t hp he =>
    have g := h.inv.good_at hp trivial
    have hnil : s.q.contents = [] := by
      rw [← List.length_eq_zero_iff, contents_length]
      exact g.layout.stored_eq_zero.2 he
    refine h.effect_inside hinv hp rfl trivial trivial rfl rfl ?_
    show Op.onList s.q.contents .dequeue = (s.q.contents, none)
    rw [hnil]
    rfl
  | @deqTestNonempty t hp he =>
    exact h.stay_inside hinv hp rfl trivial trivial rfl rfl
  | @deqTake t hp =>
    have g := h.inv.good_at hp trivial
    have hne : s.q.head ≠ s.q.tail := fun he => g.nonempty (.inl rfl) (g.layout.stored_eq_zero.2 he)
    exact h.stay_inside hinv hp rfl trivial trivial rfl (g.layout.take_contents hne).symm
  | @deqCount t job hp =>
    exact h.effect_inside hinv hp rfl trivial trivial rfl rfl rfl
  | @deqReturnNull t hp =>
    exact h.returns hinv rfl (by rw [hp]; rfl) (h.inv.counted_goto (by rw [hp]; exact id))

omit [DecidableEq Tid] in
theorem Init.counts {baseSize : ℕ} (hb : 0 < baseSize) (h : Init baseSize s) :
    Counts s ⟨[], fun _ => .idle, []⟩ := by
  have hinv := h.inv hb
  subst h
  exact ⟨hinv, (init_contents baseSize).symm, rfl⟩

/-- With a lock that is taken in one step, the queue is a list on which every call takes effect in one. -/
theorem counts_simulation {baseSize : ℕ} (hb : 0 < baseSize) :
    Simulation (Init baseSize : Threads Tid Job → Prop) Step (Atomic.Init []) (Atomic.Step Op.onList)
      Counts where
  start _ hs := ⟨_, rfl, hs.counts hb⟩
  next _ _ _ h hs := hs.counts h

end Threads

namespace SpinQueue
open Guarded

variable [DecidableEq Tid] [Inhabited Job]

/-- Every run of the queue, down to the loads and exchanges of `SpinLock`, is moment by moment a run of a
list on which every call takes effect in one step: the calls, their arguments and their answers are the
same, the counter is the length of the list, and so are the jobs whenever the lock is free. At most one
thread is between the lock and the unlock, and there is one exactly when `is_acquired` is `true`. What the
list did is a sequence of operations one after another, and each call that has an answer has taken effect
there in one step since it was made. -/
theorem run_linearizable (baseSize : ℕ) (hb : 0 < baseSize)
    (r : Run (Init SpinLock.guard baseSize : SpinQueue Tid Job → Prop) (Step SpinLock.guard)) :
    ∃ r' : Run (Atomic.Init [] : Atomic Tid (List Job) (Op Job) (Option Job) → Prop)
        (Atomic.Step Op.onList),
      (∀ n t, (r'.state n).call t = ((r.state n).pc t).call) ∧
      (∀ n, (r.state n).q.currentSize = ((r'.state n).value.length : ℤ)) ∧
      (∀ n, (r.state n).spinlock.isAcquired = false → (r'.state n).value = (r.state n).q.contents) ∧
      (∀ n, (∀ t u, ((r.state n).pc t).holdsLock → ((r.state n).pc u).holdsLock → t = u) ∧
        ((r.state n).spinlock.isAcquired = true ↔ ∃ t, ((r.state n).pc t).holdsLock)) ∧
      (∀ n, (r'.state n).Sequential Op.onList []) ∧
      ∀ t op answer i j, i ≤ j → ((r.state i).pc t).call = .pending op →
        ((r.state j).pc t).call = .answered op answer →
        ∃ m, i ≤ m ∧ m < j ∧ Atomic.Effect Op.onList t op answer (r'.state m) (r'.state (m + 1)) := by
  obtain ⟨r', hr'⟩ := ((view_simulation SpinLock.guard baseSize).comp (Threads.counts_simulation hb)).run r
  have hcounts : ∀ n, ((r.state n).view SpinLock.guard).Counts (r'.state n) := by
    intro n
    obtain ⟨s, ⟨-, rfl⟩, h⟩ := hr' n
    exact h
  have hcall : ∀ n t, (r'.state n).call t = ((r.state n).pc t).call := fun n t => (hcounts n).call_at rfl
  refine ⟨r', hcall, fun n => ?_, fun n ha => ?_, fun n => ⟨fun t u ht hu => ?_, ?_⟩, fun n => ?_, ?_⟩
  · rw [(hcounts n).value]
    exact (hcounts n).inv.good.length_counted.symm
  · have h := good_of_reach hb (r.reach n)
    rw [(hcounts n).value]
    exact Threads.counted_of_free (view_lock_eq_none h ha)
  · exact (good_of_reach hb (r.reach n)).holds_unique (PC.use_eq_holds.2 ht) (PC.use_eq_holds.2 hu)
  · exact isAcquired_iff (good_of_reach hb (r.reach n))
  · exact Atomic.sequential_of_reach (r'.reach n)
  · intro t op answer i j hij hi hj
    exact Atomic.exists_effect r' hij ((hcall i t).trans hi) ((hcall j t).trans hj)

/-- A run of one `dequeue` on the empty queue. -/
def nullRun : Run (Init SpinLock.guard 1 : SpinQueue ℕ ℕ → Prop) (Step SpinLock.guard) where
  state
    | 0 => ⟨JobQueue.init 1, ⟨false, [], fun _ => .outside⟩, fun _ => .idle, [], [], [], []⟩
    | 1 => goto ⟨JobQueue.init 1, ⟨false, [], fun _ => .outside⟩, fun _ => .idle, [], [], [], []⟩ 0 .deqLoad
    | _ => goto (goto ⟨JobQueue.init 1, ⟨false, [], fun _ => .outside⟩, fun _ => .idle, [], [], [], []⟩ 0
        .deqLoad) 0 .deqReturnNull
  starts := ⟨_, rfl, rfl⟩
  steps
    | 0 => .inr ⟨0, .callDequeue rfl⟩
    | 1 => .inr ⟨0, .deqLoadZero rfl rfl⟩
    | _ + 2 => .inl rfl

/-- The `nullopt` is the answer of a list that was empty during the call. -/
theorem run_linearizable_nullRun :
    ∃ (r' : Run (Atomic.Init [] : Atomic ℕ (List ℕ) (Op ℕ) (Option ℕ) → Prop) (Atomic.Step Op.onList))
      (m : ℕ), 1 ≤ m ∧ m < 2 ∧ Atomic.Effect Op.onList 0 .dequeue none (r'.state m) (r'.state (m + 1)) := by
  obtain ⟨r', -, -, -, -, -, heffect⟩ := run_linearizable 1 (by decide) nullRun
  exact ⟨r', heffect 0 .dequeue none 1 2 (by decide) rfl rfl⟩

end SpinQueue
end AsyncEry.JobQueue
