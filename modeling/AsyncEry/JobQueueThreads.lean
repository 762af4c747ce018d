import AsyncEry.JobQueue
import AsyncEry.Lib.Run

/-!
# `JobQueue` under interleaved callers

Any number of threads call `enqueue` and `dequeue`; every access to the lock, to the counter and to
the ring is a step of its own, and the steps of different threads interleave. `PC` says where a
thread stands. The invariant only looks at the program point of the thread that holds the lock:
there `taken ++ contents` is the list of the jobs enqueued so far up to the job the holder has not
stored yet, and the counter is off by `PC.skew`. The unlocked test of `dequeue` can read the counter
while it is off, but never off downwards by more than the job whose `enqueue` has not returned.
-/

namespace AsyncEry.JobQueue
open Lts

/-- The program points of the two operations, each before the step it is named after. -/
inductive PC (Job : Type)
  | idle
  | enqLock (item : Job)
  | enqReserve (item : Job)
  | enqStore (item : Job)
  | enqCount (item : Job)
  | enqUnlock (item : Job)
  | deqLoad
  | deqLock
  | deqTest
  | deqTake
  | deqCount (job : Job)
  | deqUnlock (job : Job)
  | deqUnlockEmpty
  | deqReturnNull
deriving DecidableEq

namespace PC
variable {Job : Type}

/-- Between the lock and the unlock. -/
def holdsLock : PC Job → Prop
  | idle | enqLock _ | deqLoad | deqLock | deqReturnNull => False
  | _ => True

/-- Inside a call of `dequeue`. -/
def inDequeue : PC Job → Prop
  | deqLoad | deqLock | deqTest | deqTake | deqCount _ | deqUnlock _ | deqUnlockEmpty
  | deqReturnNull => True
  | _ => False

/-- The call is going to return `nullopt`. -/
def returnsNull : PC Job → Prop
  | deqUnlockEmpty | deqReturnNull => True
  | _ => False

/-- The job a lock holder is enqueueing and has not stored. -/
def unstored : PC Job → List Job
  | enqReserve item | enqStore item => [item]
  | _ => []

/-- The job a lock holder is enqueueing. -/
def entering : PC Job → List Job
  | enqReserve item | enqStore item | enqCount item | enqUnlock item => [item]
  | _ => []

/-- The job a lock holder has taken and not returned. -/
def leaving : PC Job → List Job
  | deqCount job | deqUnlock job => [job]
  | _ => []

/-- The counter minus the number of stored jobs, while the lock is held at this point. -/
def skew : PC Job → ℤ
  | enqCount _ => -1
  | deqCount _ => 1
  | _ => 0

end PC

/-- The queue, the holder of its lock, where every thread stands, and four logs: the jobs in the
order in which their `enqueue` took the lock, those whose `enqueue` has returned, those taken out
of the ring, and those returned by a `dequeue`. -/
structure Threads (Tid Job : Type) where
  q : JobQueue Job
  lock : Option Tid
  pc : Tid → PC Job
  enqLocked : List Job
  enqReturned : List Job
  taken : List Job
  deqReturned : List Job

namespace Threads

section
variable {Tid Job : Type} [DecidableEq Tid] [Inhabited Job]

/-- Thread `t` moves on to `p`. -/
def goto (s : Threads Tid Job) (t : Tid) (p : PC Job) : Threads Tid Job :=
  { s with pc := Function.update s.pc t p }

/-- One atomic step of one thread. -/
inductive Step : Threads Tid Job → Threads Tid Job → Prop
  | callEnqueue {s t} (item : Job) (h : s.pc t = .idle) : Step s (s.goto t (.enqLock item))
  | enqLock {s t item} (h : s.pc t = .enqLock item) (hl : s.lock = none) :
      Step s { s.goto t (.enqReserve item) with
        lock := some t, enqLocked := s.enqLocked ++ [item] }
  | enqReserve {s t item q'} (h : s.pc t = .enqReserve item) (hq : s.q.reserve = some q') :
      Step s { s.goto t (.enqStore item) with q := q' }
  | enqStore {s t item} (h : s.pc t = .enqStore item) :
      Step s { s.goto t (.enqCount item) with q := s.q.store item }
  | enqCount {s t item} (h : s.pc t = .enqCount item) :
      Step s { s.goto t (.enqUnlock item) with q := s.q.countUp }
  | enqUnlock {s t item} (h : s.pc t = .enqUnlock item) :
      Step s { s.goto t .idle with lock := none, enqReturned := s.enqReturned ++ [item] }
  | callDequeue {s t} (h : s.pc t = .idle) : Step s (s.goto t .deqLoad)
  | deqLoadZero {s t} (h : s.pc t = .deqLoad) (h0 : s.q.size = 0) :
      Step s (s.goto t .deqReturnNull)
  | deqLoadNonzero {s t} (h : s.pc t = .deqLoad) (h0 : s.q.size ≠ 0) : Step s (s.goto t .deqLock)
  | deqLock {s t} (h : s.pc t = .deqLock) (hl : s.lock = none) :
      Step s { s.goto t .deqTest with lock := some t }
  | deqTestEmpty {s t} (h : s.pc t = .deqTest) (he : s.q.head = s.q.tail) :
      Step s (s.goto t .deqUnlockEmpty)
  | deqTestNonempty {s t} (h : s.pc t = .deqTest) (he : s.q.head ≠ s.q.tail) :
      Step s (s.goto t .deqTake)
  | deqTake {s t} (h : s.pc t = .deqTake) :
      Step s { s.goto t (.deqCount s.q.take.2) with
        q := s.q.take.1, taken := s.taken ++ [s.q.take.2] }
  | deqCount {s t job} (h : s.pc t = .deqCount job) :
      Step s { s.goto t (.deqUnlock job) with q := s.q.countDown }
  | deqUnlock {s t job} (h : s.pc t = .deqUnlock job) :
      Step s { s.goto t .idle with lock := none, deqReturned := s.deqReturned ++ [job] }
  | deqUnlockEmpty {s t} (h : s.pc t = .deqUnlockEmpty) : Step s { s.goto t .idle with lock := none }
  | deqReturnNull {s t} (h : s.pc t = .deqReturnNull) : Step s (s.goto t .idle)

end

variable {Tid Job : Type} [Inhabited Job]

/-- An empty queue of the given base size, no call in progress. -/
def Init (baseSize : ℕ) (s : Threads Tid Job) : Prop :=
  s = ⟨JobQueue.init baseSize, none, fun _ => .idle, [], [], [], []⟩

/-- Where the holder of the lock stands, `idle` when the lock is free. -/
def holder (s : Threads Tid Job) : PC Job := s.lock.elim .idle s.pc

/-- What the ring and the logs look like while the lock holder stands at `p`. -/
structure Good (p : PC Job) (s : Threads Tid Job) : Prop where
  layout : s.q.Layout
  order : s.taken ++ s.q.contents ++ p.unstored = s.enqLocked
  entered : s.enqReturned ++ p.entering = s.enqLocked
  left : s.deqReturned ++ p.leaving = s.taken
  size : s.q.currentSize = s.q.stored + p.skew
  room : ∀ item, p = .enqStore item → s.q.isFull = false
  nonempty : p = .deqTake ∨ (∃ item, p = .enqCount item) → s.q.stored ≠ 0

/-- Only the lock holder is inside a critical section, and the ring fits its program point. -/
structure Inv (s : Threads Tid Job) : Prop where
  mutex : ∀ t, (s.pc t).holdsLock ↔ s.lock = some t
  good : Good s.holder s

variable {s s' : Threads Tid Job} {t : Tid} {p : PC Job}

namespace Inv

theorem holder_eq (h : s.Inv) (ht : (s.pc t).holdsLock) : s.holder = s.pc t := by
  rw [holder, (h.mutex t).1 ht]; rfl

theorem good_at (h : s.Inv) (hp : s.pc t = p) (ht : p.holdsLock) : Good p s := by
  have hg := h.good
  rwa [h.holder_eq (t := t) (by rw [hp]; exact ht), hp] at hg

theorem good_idle (h : s.Inv) (hl : s.lock = none) : Good .idle s := by
  have hg := h.good
  rwa [holder, hl] at hg

end Inv

theorem Init.inv {baseSize : ℕ} (hb : 0 < baseSize) (h : Init baseSize s) : s.Inv := by
  subst h
  have hq : (JobQueue.init baseSize : JobQueue Job).Inv := JobQueue.Inv.init hb
  exact ⟨fun t => by simp [PC.holdsLock],
    ⟨hq.toLayout, by simp [PC.unstored, holder], by simp [PC.entering, holder],
      by simp [PC.leaving, holder], by simp [PC.skew, holder, hq.currentSize_eq],
      by simp [holder], by simp [holder]⟩⟩

/-! ### Every step keeps the invariant -/

variable [DecidableEq Tid]

namespace Inv

/-- A thread without the lock moves on, and the holder stands where it stood. -/
theorem holder_goto (h : s.Inv) (ht : ¬ (s.pc t).holdsLock) : (s.goto t p).holder = s.holder := by
  have hl : s.lock ≠ some t := fun hl => ht ((h.mutex t).2 hl)
  cases hs : s.lock with
  | none => simp [holder, goto, hs]
  | some u =>
    have hu : u ≠ t := fun hu => hl (hu ▸ hs)
    simp [holder, goto, hs, Function.update_of_ne hu]

theorem outside (h : s.Inv) (ht : ¬ (s.pc t).holdsLock) (hp : ¬ p.holdsLock) : (s.goto t p).Inv := by
  have hl : s.lock ≠ some t := fun hl => ht ((h.mutex t).2 hl)
  refine ⟨fun u => ?_, ?_⟩
  · by_cases hu : u = t
    · subst hu; simp [goto, hp, hl]
    · simpa [goto, Function.update_of_ne hu] using h.mutex u
  · rw [h.holder_goto ht]
    have g := h.good
    exact ⟨g.layout, g.order, g.entered, g.left, g.size, g.room, g.nonempty⟩

theorem inside (h : s.Inv) (ht : (s.pc t).holdsLock) (hp : p.holdsLock)
    (hpc : s'.pc = Function.update s.pc t p) (hlock : s'.lock = s.lock) (hg : Good p s') : s'.Inv := by
  have hl := (h.mutex t).1 ht
  refine ⟨fun u => ?_, ?_⟩
  · rw [hpc, hlock]
    by_cases hu : u = t
    · subst hu; simp [hp, hl]
    · rw [Function.update_of_ne hu]; exact h.mutex u
  · rw [holder, hlock, hl, Option.elim_some, hpc, Function.update_self]; exact hg

theorem acquire (h : s.Inv) (hl : s.lock = none) (hp : p.holdsLock)
    (hpc : s'.pc = Function.update s.pc t p) (hlock : s'.lock = some t) (hg : Good p s') : s'.Inv := by
  refine ⟨fun u => ?_, ?_⟩
  · rw [hpc, hlock]
    by_cases hu : u = t
    · subst hu; simp [hp]
    · rw [Function.update_of_ne hu]
      have hm := h.mutex u
      rw [hl] at hm
      constructor
      · intro hu'; have := hm.1 hu'; cases this
      · intro hu'; exact absurd (Option.some.inj hu').symm hu
  · rw [holder, hlock, Option.elim_some, hpc, Function.update_self]; exact hg

theorem release (h : s.Inv) (ht : (s.pc t).holdsLock) (hp : ¬ p.holdsLock)
    (hpc : s'.pc = Function.update s.pc t p) (hlock : s'.lock = none) (hg : Good .idle s') : s'.Inv := by
  have hl := (h.mutex t).1 ht
  refine ⟨fun u => ?_, ?_⟩
  · rw [hpc, hlock]
    by_cases hu : u = t
    · subst hu; simp [hp]
    · rw [Function.update_of_ne hu, h.mutex u, hl]
      constructor
      · intro hu'; exact absurd (Option.some.inj hu').symm hu
      · intro hu'; cases hu'
  · rw [holder, hlock]; exact hg

end Inv

/-- Every step keeps the invariant: at most the lock holder's step touches the ring. -/
theorem Step.inv (hs : Step s s') (h : s.Inv) : s'.Inv := by
  cases hs with
  | callEnqueue item hp | callDequeue hp | deqLoadZero hp | deqLoadNonzero hp | deqReturnNull hp =>
    exact h.outside (by rw [hp]; simp [PC.holdsLock]) (by simp [PC.holdsLock])
  | @enqLock t item hp hl =>
    have g := h.good_idle hl
    refine h.acquire (t := t) (p := .enqReserve item) hl trivial rfl rfl ?_
    exact ⟨g.layout, by simp [goto, PC.unstored, ← g.order], by simp [goto, PC.entering, ← g.entered],
      g.left, g.size, by simp, by simp⟩
  | @enqReserve t item q' hp hq =>
    have g := h.good_at hp trivial
    obtain ⟨q₁, hq₁, hl₁, hroom, hsize, hst, hcont⟩ := g.layout.reserve
    rw [hq] at hq₁
    obtain rfl := Option.some.inj hq₁
    refine h.inside (t := t) (p := .enqStore item) (by rw [hp]; trivial) trivial rfl rfl ?_
    exact ⟨hl₁, by simpa [goto, PC.unstored, hcont] using g.order, g.entered, g.left,
      by simpa [PC.skew, goto, hsize, hst] using g.size, fun _ _ => hroom, by simp⟩
  | @enqStore t item hp =>
    have g := h.good_at hp trivial
    have hroom := g.room item rfl
    refine h.inside (t := t) (p := .enqCount item) (by rw [hp]; trivial) trivial rfl rfl ?_
    refine ⟨g.layout.store item, ?_, g.entered, g.left, ?_, by simp, fun _ => ?_⟩
    · have := g.order
      simpa [goto, PC.unstored, g.layout.store_contents hroom] using this
    · have hst := g.layout.store_stored hroom item
      have hsize := g.size
      simp only [PC.skew] at hsize ⊢
      show s.q.currentSize = _
      rw [hst]; push_cast; linarith
    · simp [g.layout.store_stored hroom item]
  | @enqCount t item hp =>
    have g := h.good_at hp trivial
    refine h.inside (t := t) (p := .enqUnlock item) (by rw [hp]; trivial) trivial rfl rfl ?_
    refine ⟨g.layout.countUp, g.order, g.entered, g.left, ?_, by simp, by simp⟩
    have hsize := g.size
    simp only [PC.skew] at hsize ⊢
    show s.q.currentSize + 1 = (s.q.stored : ℤ) + 0
    linarith
  | @enqUnlock t item hp =>
    have g := h.good_at hp trivial
    refine h.release (t := t) (p := .idle) (by rw [hp]; trivial) (by simp [PC.holdsLock]) rfl rfl ?_
    exact ⟨g.layout, g.order, by simpa [goto, PC.entering] using g.entered, g.left, g.size, by simp,
      by simp⟩
  | @deqLock t hp hl =>
    have g := h.good_idle hl
    refine h.acquire (t := t) (p := .deqTest) hl trivial rfl rfl ?_
    exact ⟨g.layout, g.order, g.entered, g.left, g.size, by simp, by simp⟩
  | @deqTestEmpty t hp he =>
    have g := h.good_at hp trivial
    refine h.inside (t := t) (p := .deqUnlockEmpty) (by rw [hp]; trivial) trivial rfl rfl ?_
    exact ⟨g.layout, g.order, g.entered, g.left, g.size, by simp, by simp⟩
  | @deqTestNonempty t hp he =>
    have g := h.good_at hp trivial
    refine h.inside (t := t) (p := .deqTake) (by rw [hp]; trivial) trivial rfl rfl ?_
    exact ⟨g.layout, g.order, g.entered, g.left, g.size, by simp,
      fun _ h0 => he (g.layout.stored_eq_zero.1 h0)⟩
  | @deqTake t hp =>
    have g := h.good_at hp trivial
    have hne : s.q.head ≠ s.q.tail := fun he => g.nonempty (.inl rfl) (g.layout.stored_eq_zero.2 he)
    refine h.inside (t := t) (p := .deqCount s.q.take.2) (by rw [hp]; trivial) trivial rfl rfl ?_
    refine ⟨g.layout.take, ?_, g.entered, ?_, ?_, by simp, by simp⟩
    · have horder := g.order
      rw [g.layout.take_contents hne] at horder
      simpa [goto, PC.unstored] using horder
    · simpa [goto, PC.leaving] using g.left
    · have hst := g.layout.take_stored hne
      have hsize := g.size
      simp only [PC.skew] at hsize ⊢
      show s.q.currentSize = (s.q.take.1.stored : ℤ) + 1
      rw [hst] at hsize; push_cast at hsize; linarith
  | @deqCount t job hp =>
    have g := h.good_at hp trivial
    refine h.inside (t := t) (p := .deqUnlock job) (by rw [hp]; trivial) trivial rfl rfl ?_
    refine ⟨g.layout.countDown, g.order, g.entered, g.left, ?_, by simp, by simp⟩
    have hsize := g.size
    simp only [PC.skew] at hsize ⊢
    show s.q.currentSize - 1 = (s.q.stored : ℤ) + 0
    linarith
  | @deqUnlock t job hp =>
    have g := h.good_at hp trivial
    refine h.release (t := t) (p := .idle) (by rw [hp]; trivial) (by simp [PC.holdsLock]) rfl rfl ?_
    exact ⟨g.layout, g.order, g.entered, by simpa [goto, PC.leaving] using g.left, g.size, by simp,
      by simp⟩
  | @deqUnlockEmpty t hp =>
    have g := h.good_at hp trivial
    refine h.release (t := t) (p := .idle) (by rw [hp]; trivial) (by simp [PC.holdsLock]) rfl rfl ?_
    exact ⟨g.layout, g.order, g.entered, g.left, g.size, by simp, by simp⟩

/-- `resize` always ends: a thread that holds the lock to enqueue is never stuck. -/
theorem Inv.enqReserve_enabled {item : Job} (h : s.Inv) (hp : s.pc t = .enqReserve item) :
    ∃ s', Step s s' ∧ s'.pc t = .enqStore item := by
  obtain ⟨q', hq', -⟩ := (h.good_at hp trivial).layout.reserve
  exact ⟨_, .enqReserve hp hq', by simp [goto]⟩

/-! ### What holds of every run -/

theorem inv_of_reach {baseSize : ℕ} (hb : 0 < baseSize) (h : Reach (Init baseSize) Step s) : s.Inv :=
  Inductive.reach ⟨fun _ h => h.inv hb, fun _ _ h hs => hs.inv h⟩ h

omit [DecidableEq Tid] in
/-- Everything enqueued and returned has been taken, as soon as no more jobs are stored than the lock
holder has stored on behalf of an `enqueue` that has not returned. -/
theorem Good.returned_prefix_taken (g : Good p s)
    (h : s.q.stored + p.unstored.length ≤ p.entering.length) : s.enqReturned <+: s.taken := by
  have h1 : s.enqReturned <+: s.enqLocked := ⟨_, g.entered⟩
  have h2 : s.taken <+: s.enqLocked := ⟨_, by rw [← List.append_assoc]; exact g.order⟩
  refine List.prefix_of_prefix_length_le h1 h2 ?_
  have hlen := congrArg List.length (g.order.trans g.entered.symm)
  simp only [List.length_append, contents_length] at hlen
  omega

omit [DecidableEq Tid] in
theorem Good.of_size_eq_zero (g : Good p s) (h0 : s.q.size = 0) : s.enqReturned <+: s.taken := by
  have hsize : s.q.currentSize = 0 := h0
  rw [g.size] at hsize
  refine g.returned_prefix_taken ?_
  cases p <;> simp only [PC.skew, PC.unstored, PC.entering, List.length_nil, List.length_singleton]
    at hsize ⊢ <;> omega

omit [DecidableEq Tid] in
theorem Good.currentSize_nonneg (g : Good p s) : 0 ≤ s.q.currentSize := by
  rw [g.size]
  cases p with
  | enqCount item => have := g.nonempty (.inr ⟨item, rfl⟩); simp only [PC.skew]; omega
  | _ => simp only [PC.skew]; omega

/-- The step after which a `dequeue` is bound to return `nullopt` is taken when every job whose
`enqueue` has returned has been taken. -/
theorem Step.null_decided (hinv : s.Inv) (hs : Step s s')
    (hbefore : ¬ (s.pc t).returnsNull) (hafter : (s'.pc t).returnsNull) :
    s.enqReturned <+: s.taken := by
  have other : ∀ {u : Tid} {p' : PC Job}, s'.pc = Function.update s.pc u p' → ¬ p'.returnsNull → False := by
    intro u p' hpc hp'
    rw [hpc] at hafter
    by_cases hu : t = u
    · subst hu; rw [Function.update_self] at hafter; exact hp' hafter
    · rw [Function.update_of_ne hu] at hafter; exact hbefore hafter
  cases hs with
  | deqLoadZero h h0 => exact hinv.good.of_size_eq_zero h0
  | deqTestEmpty h he =>
    have g := hinv.good_at h trivial
    refine g.returned_prefix_taken ?_
    rw [g.layout.stored_eq_zero.2 he]; simp [PC.unstored]
  | _ => exact (other rfl (by simp [PC.returnsNull])).elim

/-- `JobQueue` stays a FIFO queue under every interleaving: at every moment the returned jobs are a
prefix of the enqueued ones, the counter is never negative and is exact while the lock is free, and
a `dequeue` returns `nullopt` only if at some moment of its call every job whose `enqueue` had
returned had been taken. -/
theorem run_fifo (baseSize : ℕ) (hb : 0 < baseSize)
    (r : Run (Init baseSize : Threads Tid Job → Prop) Step) :
    (∀ n, (r.state n).deqReturned <+: (r.state n).enqLocked ∧
      0 ≤ (r.state n).q.currentSize ∧
      ((r.state n).lock = none →
        (r.state n).q.currentSize = ((r.state n).q.contents.length : ℤ))) ∧
    (∀ (t : Tid) (i j : ℕ), i ≤ j → (r.state i).pc t = .deqLoad →
      (∀ m, i ≤ m → m ≤ j → ((r.state m).pc t).inDequeue) → ((r.state j).pc t).returnsNull →
      ∃ m, i ≤ m ∧ m ≤ j ∧ (r.state m).enqReturned <+: (r.state m).taken) := by
  refine ⟨fun n => ?_, fun t i j hij hi hcall hj => ?_⟩
  · have hinv := inv_of_reach hb (r.reach n)
    have g := hinv.good
    refine ⟨?_, g.currentSize_nonneg, fun hl => ?_⟩
    · have h1 : (r.state n).deqReturned <+: (r.state n).taken := ⟨_, g.left⟩
      exact h1.trans ⟨_, by rw [← List.append_assoc]; exact g.order⟩
    · have := (hinv.good_idle hl).size
      simpa [PC.skew] using this
  · obtain ⟨m, him, hmj, hW⟩ := r.exists_between (P := fun s => (s.pc t).inDequeue)
      (Q := fun s => (s.pc t).returnsNull) (W := fun s => s.enqReturned <+: s.taken) hij hcall
      (by rw [hi]; simp [PC.returnsNull]) hj
      fun s s' hr hs _ _ hb' ha => hs.null_decided (inv_of_reach hb hr) hb' ha
    exact ⟨m, him, hmj.le, hW⟩

/-- A run of one `dequeue` on the empty queue. -/
def nullRun : Run (Init 1 : Threads ℕ ℕ → Prop) Step where
  state
    | 0 => ⟨JobQueue.init 1, none, fun _ => .idle, [], [], [], []⟩
    | 1 => goto ⟨JobQueue.init 1, none, fun _ => .idle, [], [], [], []⟩ 0 .deqLoad
    | _ => goto (goto ⟨JobQueue.init 1, none, fun _ => .idle, [], [], [], []⟩ 0 .deqLoad) 0
        .deqReturnNull
  starts := rfl
  steps
    | 0 => .inr (.callDequeue rfl)
    | 1 => .inr (.deqLoadZero rfl rfl)
    | _ + 2 => .inl rfl

theorem run_fifo_nullRun :
    ∃ m, 1 ≤ m ∧ m ≤ 2 ∧ (nullRun.state m).enqReturned <+: (nullRun.state m).taken :=
  (run_fifo 1 (by decide) nullRun).2 0 1 2 (by decide) rfl
    (fun m h h' => by
      obtain rfl | rfl : m = 1 ∨ m = 2 := by omega
      · trivial
      · trivial)
    trivial

end Threads
end AsyncEry.JobQueue
