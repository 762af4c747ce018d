import AsyncEry.JobQueueThreads
import AsyncEry.LockGuard
import AsyncEry.Lib.Simulation

/-!
# `JobQueue` under a lock that takes time

`JobQueueThreads` lets a thread take the lock in one step, when it is free. Here `lock` is the loop of
an implementation (`Lts.Lock`; `SpinLock` is one), and the steps of all threads interleave with the
steps in it. Seen through the holder of the lock, the queue does what it does with a lock that is taken
in one step, so it stays a FIFO queue; and no call is ever stuck, since a thread that holds the lock can
go on to the end of its call alone, and then any other can.
-/

namespace AsyncEry.JobQueue
open Lts

/-- Where a thread stands with the lock. -/
def PC.use {Job : Type} : PC Job → Use
  | .idle | .deqLoad | .deqReturnNull => .outside
  | .enqLock _ | .deqLock => .waits
  | _ => .holds

theorem PC.use_eq_holds {Job : Type} {p : PC Job} : p.use = .holds ↔ p.holdsLock := by
  cases p <;> simp [PC.holdsLock, PC.use]

/-- `Threads` with the state `L` of a lock in place of its holder. -/
structure Guarded (L Tid Job : Type) where
  q : JobQueue Job
  spinlock : L
  pc : Tid → PC Job
  enqLocked : List Job
  enqReturned : List Job
  taken : List Job
  deqReturned : List Job

namespace Guarded

section
variable {L Tid Job : Type} [DecidableEq Tid] [Inhabited Job]

def Init (K : Lock Tid L) (baseSize : ℕ) (s : Guarded L Tid Job) : Prop :=
  ∃ l, K.init l ∧ s = ⟨JobQueue.init baseSize, l, fun _ => .idle, [], [], [], []⟩

/-- Thread `t` moves on to `p`. -/
def goto (s : Guarded L Tid Job) (t : Tid) (p : PC Job) : Guarded L Tid Job :=
  { s with pc := Function.update s.pc t p }

/-- One atomic step of thread `t`; `lock` is called at the entry of the block of its `lock_guard`. -/
inductive StepBy (K : Lock Tid L) (t : Tid) : Guarded L Tid Job → Guarded L Tid Job → Prop
  | callEnqueue {s l} (item : Job) (h : s.pc t = .idle) (hl : K.call t s.spinlock l) :
      StepBy K t s { s.goto t (.enqLock item) with spinlock := l }
  | wait {s l} (h : (s.pc t).use = .waits) (hl : K.wait t s.spinlock l) :
      StepBy K t s { s with spinlock := l }
  | enqLock {s item l} (h : s.pc t = .enqLock item) (hl : K.acquire t s.spinlock l) :
      StepBy K t s { s.goto t (.enqReserve item) with
        spinlock := l, enqLocked := s.enqLocked ++ [item] }
  | enqReserve {s item q'} (h : s.pc t = .enqReserve item) (hq : s.q.reserve = some q') :
      StepBy K t s { s.goto t (.enqStore item) with q := q' }
  | enqStore {s item} (h : s.pc t = .enqStore item) :
      StepBy K t s { s.goto t (.enqCount item) with q := s.q.store item }
  | enqCount {s item} (h : s.pc t = .enqCount item) :
      StepBy K t s { s.goto t (.enqUnlock item) with q := s.q.countUp }
  | enqUnlock {s item l} (h : s.pc t = .enqUnlock item) (hl : K.release t s.spinlock l) :
      StepBy K t s { s.goto t .idle with spinlock := l, enqReturned := s.enqReturned ++ [item] }
  | callDequeue {s} (h : s.pc t = .idle) : StepBy K t s (s.goto t .deqLoad)
  | deqLoadZero {s} (h : s.pc t = .deqLoad) (h0 : s.q.size = 0) :
      StepBy K t s (s.goto t .deqReturnNull)
  | deqLoadNonzero {s l} (h : s.pc t = .deqLoad) (h0 : s.q.size ≠ 0)
      (hl : K.call t s.spinlock l) : StepBy K t s { s.goto t .deqLock with spinlock := l }
  | deqLock {s l} (h : s.pc t = .deqLock) (hl : K.acquire t s.spinlock l) :
      StepBy K t s { s.goto t .deqTest with spinlock := l }
  | deqTestEmpty {s} (h : s.pc t = .deqTest) (he : s.q.head = s.q.tail) :
      StepBy K t s (s.goto t .deqUnlockEmpty)
  | deqTestNonempty {s} (h : s.pc t = .deqTest) (he : s.q.head ≠ s.q.tail) :
      StepBy K t s (s.goto t .deqTake)
  | deqTake {s} (h : s.pc t = .deqTake) :
      StepBy K t s { s.goto t (.deqCount s.q.take.2) with
        q := s.q.take.1, taken := s.taken ++ [s.q.take.2] }
  | deqCount {s job} (h : s.pc t = .deqCount job) :
      StepBy K t s { s.goto t (.deqUnlock job) with q := s.q.countDown }
  | deqUnlock {s job l} (h : s.pc t = .deqUnlock job) (hl : K.release t s.spinlock l) :
      StepBy K t s { s.goto t .idle with spinlock := l, deqReturned := s.deqReturned ++ [job] }
  | deqUnlockEmpty {s l} (h : s.pc t = .deqUnlockEmpty) (hl : K.release t s.spinlock l) :
      StepBy K t s { s.goto t .idle with spinlock := l }
  | deqReturnNull {s} (h : s.pc t = .deqReturnNull) : StepBy K t s (s.goto t .idle)

/-- One atomic step of one thread. -/
def Step (K : Lock Tid L) (s s' : Guarded L Tid Job) : Prop := ∃ t, StepBy K t s s'

end

variable {L Tid Job : Type} [DecidableEq Tid] {K : Lock Tid L} {s s' : Guarded L Tid Job} {t : Tid}
  {p : PC Job} {l : L}

/-! ### The lock seen through its holder -/

noncomputable def view (K : Lock Tid L) (s : Guarded L Tid Job) : Threads Tid Job :=
  ⟨s.q, K.holder s.spinlock, s.pc, s.enqLocked, s.enqReturned, s.taken, s.deqReturned⟩

/-- The lock and the program points agree on where the threads stand. -/
structure Matched (K : Lock Tid L) (s : Guarded L Tid Job) : Prop where
  inv : K.inv s.spinlock
  use : K.use s.spinlock = fun t => (s.pc t).use

namespace Matched

theorem use_at (h : s.Matched K) (hp : s.pc t = p) : K.use s.spinlock t = p.use := by
  rw [h.use, ← hp]

theorem use_update (s : Guarded L Tid Job) (t : Tid) (p : PC Job) :
    (fun u => (Function.update s.pc t p u).use) = Function.update (fun u => (s.pc u).use) t p.use :=
  Function.comp_update PC.use s.pc t p

/-- A thread moves in a way that does not concern the lock. -/
theorem stay (h : s.Matched K) (hp : p.use = (s.pc t).use)
    (hpc : s'.pc = Function.update s.pc t p) (hlock : s'.spinlock = s.spinlock) : s'.Matched K := by
  refine ⟨by rw [hlock]; exact h.inv, ?_⟩
  rw [hlock, h.use, hpc, use_update, hp]
  exact (Function.update_eq_self (f := fun u => (s.pc u).use) t).symm

theorem call (h : s.Matched K) (ht : (s.pc t).use = .outside) (hl : K.call t s.spinlock l)
    (hp : p.use = .waits) : K.inv l ∧ (K.use l = fun u => (Function.update s.pc t p u).use) ∧
      K.holder l = K.holder s.spinlock := by
  have huse := (h.use_at rfl).trans ht
  obtain ⟨hinv, hnext⟩ := K.of_call h.inv huse hl
  exact ⟨hinv, by rw [hnext, h.use, use_update, hp], Lock.holder_of_call h.inv huse hl⟩

theorem acquire (h : s.Matched K) (ht : (s.pc t).use = .waits) (hl : K.acquire t s.spinlock l)
    (hp : p.use = .holds) : K.inv l ∧ (K.use l = fun u => (Function.update s.pc t p u).use) ∧
      K.holder s.spinlock = none ∧ K.holder l = some t := by
  have huse := (h.use_at rfl).trans ht
  obtain ⟨hinv, -, hnext⟩ := K.of_acquire h.inv huse hl
  exact ⟨hinv, by rw [hnext, h.use, use_update, hp], Lock.holder_of_acquire h.inv huse hl⟩

theorem release (h : s.Matched K) (ht : (s.pc t).use = .holds) (hl : K.release t s.spinlock l)
    (hp : p.use = .outside) : K.inv l ∧ (K.use l = fun u => (Function.update s.pc t p u).use) ∧
      K.holder l = none := by
  have huse := (h.use_at rfl).trans ht
  obtain ⟨hinv, hnext⟩ := K.of_release h.inv huse hl
  exact ⟨hinv, by rw [hnext, h.use, use_update, hp], Lock.holder_of_release h.inv huse hl⟩

end Matched

variable [Inhabited Job]

/-- Every step is one of the queue with a lock that is taken in one step, or a wait. -/
theorem Step.view (hs : Step K s s') (h : s.Matched K) :
    s'.Matched K ∧ (s'.view K = s.view K ∨ Threads.Step (s.view K) (s'.view K)) := by
  obtain ⟨t, hs⟩ := hs
  cases hs with
  | @callEnqueue l item hp hl =>
    obtain ⟨hinv, huse, hholder⟩ := h.call (p := .enqLock item) (by rw [hp]; rfl) hl rfl
    refine ⟨⟨hinv, huse⟩, .inr ?_⟩
    show Threads.Step _ ⟨_, K.holder l, _, _, _, _, _⟩
    rw [hholder]
    exact .callEnqueue (s := s.view K) item hp
  | @wait l hp hl =>
    obtain ⟨hinv, huse⟩ := K.of_wait h.inv ((h.use_at rfl).trans hp) hl
    refine ⟨⟨hinv, huse.trans h.use⟩, .inl ?_⟩
    show (⟨_, K.holder l, _, _, _, _, _⟩ : Threads Tid Job) = _
    rw [Lock.holder_of_wait h.inv ((h.use_at rfl).trans hp) hl]
    rfl
  | @enqLock item l hp hl =>
    obtain ⟨hinv, huse, hfree, hholder⟩ := h.acquire (p := .enqReserve item) (by rw [hp]; rfl) hl rfl
    refine ⟨⟨hinv, huse⟩, .inr ?_⟩
    show Threads.Step _ ⟨_, K.holder l, _, _, _, _, _⟩
    rw [hholder]
    exact .enqLock (s := s.view K) hp hfree
  | enqReserve hp hq =>
    exact ⟨h.stay (by rw [hp]; rfl) rfl rfl, .inr (.enqReserve (s := s.view K) hp hq)⟩
  | enqStore hp => exact ⟨h.stay (by rw [hp]; rfl) rfl rfl, .inr (.enqStore (s := s.view K) hp)⟩
  | enqCount hp => exact ⟨h.stay (by rw [hp]; rfl) rfl rfl, .inr (.enqCount (s := s.view K) hp)⟩
  | @enqUnlock item l hp hl =>
    obtain ⟨hinv, huse, hholder⟩ := h.release (p := .idle) (by rw [hp]; rfl) hl rfl
    refine ⟨⟨hinv, huse⟩, .inr ?_⟩
    show Threads.Step _ ⟨_, K.holder l, _, _, _, _, _⟩
    rw [hholder]
    exact .enqUnlock (s := s.view K) hp
  | callDequeue hp =>
    exact ⟨h.stay (by rw [hp]; rfl) rfl rfl, .inr (.callDequeue (s := s.view K) hp)⟩
  | deqLoadZero hp h0 =>
    exact ⟨h.stay (by rw [hp]; rfl) rfl rfl, .inr (.deqLoadZero (s := s.view K) hp h0)⟩
  | @deqLoadNonzero l hp h0 hl =>
    obtain ⟨hinv, huse, hholder⟩ := h.call (p := .deqLock) (by rw [hp]; rfl) hl rfl
    refine ⟨⟨hinv, huse⟩, .inr ?_⟩
    show Threads.Step _ ⟨_, K.holder l, _, _, _, _, _⟩
    rw [hholder]
    exact .deqLoadNonzero (s := s.view K) hp h0
  | @deqLock l hp hl =>
    obtain ⟨hinv, huse, hfree, hholder⟩ := h.acquire (p := .deqTest) (by rw [hp]; rfl) hl rfl
    refine ⟨⟨hinv, huse⟩, .inr ?_⟩
    show Threads.Step _ ⟨_, K.holder l, _, _, _, _, _⟩
    rw [hholder]
    exact .deqLock (s := s.view K) hp hfree
  | deqTestEmpty hp he =>
    exact ⟨h.stay (by rw [hp]; rfl) rfl rfl, .inr (.deqTestEmpty (s := s.view K) hp he)⟩
  | deqTestNonempty hp he =>
    exact ⟨h.stay (by rw [hp]; rfl) rfl rfl, .inr (.deqTestNonempty (s := s.view K) hp he)⟩
  | deqTake hp => exact ⟨h.stay (by rw [hp]; rfl) rfl rfl, .inr (.deqTake (s := s.view K) hp)⟩
  | deqCount hp => exact ⟨h.stay (by rw [hp]; rfl) rfl rfl, .inr (.deqCount (s := s.view K) hp)⟩
  | @deqUnlock job l hp hl =>
    obtain ⟨hinv, huse, hholder⟩ := h.release (p := .idle) (by rw [hp]; rfl) hl rfl
    refine ⟨⟨hinv, huse⟩, .inr ?_⟩
    show Threads.Step _ ⟨_, K.holder l, _, _, _, _, _⟩
    rw [hholder]
    exact .deqUnlock (s := s.view K) hp
  | @deqUnlockEmpty l hp hl =>
    obtain ⟨hinv, huse, hholder⟩ := h.release (p := .idle) (by rw [hp]; rfl) hl rfl
    refine ⟨⟨hinv, huse⟩, .inr ?_⟩
    show Threads.Step _ ⟨_, K.holder l, _, _, _, _, _⟩
    rw [hholder]
    exact .deqUnlockEmpty (s := s.view K) hp
  | deqReturnNull hp =>
    exact ⟨h.stay (by rw [hp]; rfl) rfl rfl, .inr (.deqReturnNull (s := s.view K) hp)⟩

theorem Init.view {baseSize : ℕ} (h : Init K baseSize s) :
    s.Matched K ∧ Threads.Init baseSize (s.view K) := by
  obtain ⟨l, hl, rfl⟩ := h
  obtain ⟨hinv, huse⟩ := K.of_init hl
  have hholder : K.holder l = none := Lock.holder_eq_none.2 fun t => by rw [huse]; nofun
  refine ⟨⟨hinv, funext huse⟩, ?_⟩
  show (⟨_, K.holder l, _, _, _, _, _⟩ : Threads Tid Job) = _
  rw [hholder]

/-- Whatever the lock, the queue does what it does with one that is taken in one step. -/
theorem view_simulation (K : Lock Tid L) (baseSize : ℕ) :
    Simulation (Init K baseSize : Guarded L Tid Job → Prop) (Step K) (Threads.Init baseSize) Threads.Step
      fun s u => s.Matched K ∧ u = s.view K where
  start s hs := ⟨_, hs.view.2, hs.view.1, rfl⟩
  next s s' u := by
    rintro ⟨h, rfl⟩ hs
    obtain ⟨h', hview⟩ := hs.view h
    exact ⟨_, hview, h', rfl⟩

/-! ### Calls return -/

/-- How many steps of its own a thread needs to return, without those in `lock`. -/
def togo : PC Job → ℕ
  | .idle => 0
  | .enqUnlock _ | .deqUnlock _ | .deqUnlockEmpty | .deqReturnNull => 1
  | .enqCount _ | .deqCount _ => 2
  | .enqStore _ | .deqTake => 3
  | .enqReserve _ | .deqTest => 4
  | .enqLock _ | .deqLock => 5
  | .deqLoad => 6

/-- What the lock and the ring keep. -/
structure Good (K : Lock Tid L) (s : Guarded L Tid Job) : Prop where
  matched : s.Matched K
  inv : (s.view K).Inv

theorem Good.next (h : s.Good K) (hs : Step K s s') : s'.Good K := by
  obtain ⟨hm, hview⟩ := hs.view h.matched
  refine ⟨hm, ?_⟩
  rcases hview with heq | hstep
  · rw [heq]
    exact h.inv
  · exact hstep.inv h.inv

theorem good_of_reach {baseSize : ℕ} (hb : 0 < baseSize) (h : Reach (Init K baseSize) (Step K) s) :
    s.Good K :=
  Inductive.reach ⟨fun _ h => ⟨h.view.1, h.view.2.inv hb⟩, fun _ _ h hs => h.next hs⟩ h

/-- The steps of thread `t` lead from `s` to a state in which it stands at `p`. -/
def Leads (K : Lock Tid L) (t : Tid) (s : Guarded L Tid Job) (p : PC Job) : Prop :=
  ∃ s', Relation.ReflTransGen (StepBy K t) s s' ∧ s'.pc = Function.update s.pc t p

theorem Leads.of_step (hs : StepBy K t s s') (hpc : s'.pc = Function.update s.pc t p) : Leads K t s p :=
  ⟨s', .single hs, hpc⟩

/-- A thread that waits for a free lock gets it. -/
theorem Matched.leads (h : s.Matched K) (ht : (s.pc t).use = .waits)
    (hfree : ∀ u, (s.pc u).use ≠ .holds)
    (hstep : ∀ (s₁ : Guarded L Tid Job) (l : L), s₁.pc = s.pc → K.acquire t s₁.spinlock l →
      ∃ s', StepBy K t s₁ s' ∧ s'.pc = Function.update s₁.pc t p) : Leads K t s p := by
  obtain ⟨l₁, l₂, hwait, hacquire⟩ :=
    K.can_acquire h.inv ((h.use_at rfl).trans ht) fun u => by rw [h.use_at rfl]; exact hfree u
  have hsteps : Relation.ReflTransGen (StepBy K t) s { s with spinlock := l₁ } :=
    hwait.lift (fun l => { s with spinlock := l }) fun l l' hl =>
      StepBy.wait (s := { s with spinlock := l }) ht hl
  obtain ⟨s', hs', hpc⟩ := hstep { s with spinlock := l₁ } l₂ rfl hacquire
  exact ⟨s', hsteps.tail hs', hpc⟩

/-- A thread in a call comes closer to its end, if no other thread holds the lock. -/
theorem Good.exists_leads (h : s.Good K) (hcall : s.pc t ≠ .idle)
    (hfree : ∀ u ≠ t, (s.pc u).use ≠ .holds) : ∃ p, togo p < togo (s.pc t) ∧ Leads K t s p := by
  have huse : ∀ {p}, s.pc t = p → K.use s.spinlock t = p.use := h.matched.use_at
  have hnone : (s.pc t).use = .waits → ∀ u, (s.pc u).use ≠ .holds := by
    intro ht u
    by_cases hu : u = t
    · rw [hu, ht]
      nofun
    · exact hfree u hu
  cases hp : s.pc t with
  | idle => exact absurd hp hcall
  | enqLock item =>
    refine ⟨.enqReserve item, by simp [togo], h.matched.leads (by rw [hp]; rfl) (hnone (by rw [hp]; rfl)) ?_⟩
    exact fun s₁ l hpc hl => ⟨_, .enqLock (by rw [hpc]; exact hp) hl, rfl⟩
  | enqReserve item =>
    obtain ⟨q', hq', -⟩ := (h.inv.good_at (t := t) hp trivial).layout.reserve
    exact ⟨.enqStore item, by simp [togo], .of_step (.enqReserve hp hq') rfl⟩
  | enqStore item => exact ⟨.enqCount item, by simp [togo], .of_step (.enqStore hp) rfl⟩
  | enqCount item => exact ⟨.enqUnlock item, by simp [togo], .of_step (.enqCount hp) rfl⟩
  | enqUnlock item =>
    obtain ⟨l, hl⟩ := K.can_release (huse hp)
    exact ⟨.idle, by simp [togo], .of_step (.enqUnlock hp hl) rfl⟩
  | deqLoad =>
    by_cases h0 : s.q.size = 0
    · exact ⟨.deqReturnNull, by simp [togo], .of_step (.deqLoadZero hp h0) rfl⟩
    · obtain ⟨l, hl⟩ := K.can_call (huse hp)
      exact ⟨.deqLock, by simp [togo], .of_step (.deqLoadNonzero hp h0 hl) rfl⟩
  | deqLock =>
    refine ⟨.deqTest, by simp [togo], h.matched.leads (by rw [hp]; rfl) (hnone (by rw [hp]; rfl)) ?_⟩
    exact fun s₁ l hpc hl => ⟨_, .deqLock (by rw [hpc]; exact hp) hl, rfl⟩
  | deqTest =>
    by_cases he : s.q.head = s.q.tail
    · exact ⟨.deqUnlockEmpty, by simp [togo], .of_step (.deqTestEmpty hp he) rfl⟩
    · exact ⟨.deqTake, by simp [togo], .of_step (.deqTestNonempty hp he) rfl⟩
  | deqTake => exact ⟨.deqCount _, by simp [togo], .of_step (.deqTake hp) rfl⟩
  | deqCount job => exact ⟨.deqUnlock job, by simp [togo], .of_step (.deqCount hp) rfl⟩
  | deqUnlock job =>
    obtain ⟨l, hl⟩ := K.can_release (huse hp)
    exact ⟨.idle, by simp [togo], .of_step (.deqUnlock hp hl) rfl⟩
  | deqUnlockEmpty =>
    obtain ⟨l, hl⟩ := K.can_release (huse hp)
    exact ⟨.idle, by simp [togo], .of_step (.deqUnlockEmpty hp hl) rfl⟩
  | deqReturnNull => exact ⟨.idle, by simp [togo], .of_step (.deqReturnNull hp) rfl⟩

theorem Good.steps (h : s.Good K) (hs : Relation.ReflTransGen (StepBy K t) s s') : s'.Good K := by
  induction hs with
  | refl => exact h
  | tail _ hstep ih => exact ih.next ⟨t, hstep⟩

/-- If no other thread holds the lock, a call can return by steps of its own. -/
theorem Good.leads_idle (h : s.Good K) (hfree : ∀ u ≠ t, (s.pc u).use ≠ .holds) : Leads K t s .idle := by
  induction hn : togo (s.pc t) using Nat.strong_induction_on generalizing s with
  | _ n ih =>
    by_cases hidle : s.pc t = .idle
    · exact ⟨s, .refl, by rw [← hidle, Function.update_eq_self]⟩
    · obtain ⟨p, hp, s₁, hs₁, hpc₁⟩ := h.exists_leads hidle hfree
      have hfree₁ : ∀ u ≠ t, (s₁.pc u).use ≠ .holds := by
        intro u hu
        rw [hpc₁, Function.update_of_ne hu]
        exact hfree u hu
      have hlt : togo (s₁.pc t) < n := by
        rw [hpc₁, Function.update_self, ← hn]
        exact hp
      obtain ⟨s₂, hs₂, hpc₂⟩ := ih _ hlt (h.steps hs₁) hfree₁ rfl
      exact ⟨s₂, hs₁.trans hs₂, by rw [hpc₂, hpc₁, Function.update_idem]⟩

/-- Only one thread holds the lock. -/
theorem Good.holds_unique {u : Tid} (h : s.Good K) (ht : (s.pc t).use = .holds)
    (hu : (s.pc u).use = .holds) : t = u :=
  K.exclusive h.matched.inv ((h.matched.use_at rfl).trans ht) ((h.matched.use_at rfl).trans hu)

/-- If another thread holds the lock, it can return, and then nobody holds it. -/
theorem Good.leads_unlocked (h : s.Good K) (t : Tid) :
    ∃ s₁, (s₁ = s ∨ ∃ v ≠ t, (s.pc v).holdsLock ∧ Relation.ReflTransGen (StepBy K v) s s₁ ∧
        s₁.pc = Function.update s.pc v .idle) ∧
      ∀ u ≠ t, (s₁.pc u).use ≠ .holds := by
  by_cases hfree : ∀ u ≠ t, (s.pc u).use ≠ .holds
  · exact ⟨s, .inl rfl, hfree⟩
  · push Not at hfree
    obtain ⟨v, hvt, hv⟩ := hfree
    have hother : ∀ u ≠ v, (s.pc u).use ≠ .holds := fun u hu hholds => hu (h.holds_unique hholds hv)
    obtain ⟨s₁, hs₁, hpc₁⟩ := h.leads_idle hother
    refine ⟨s₁, .inr ⟨v, hvt, PC.use_eq_holds.1 hv, hs₁, hpc₁⟩, fun u _ => ?_⟩
    rw [hpc₁]
    by_cases hu : u = v
    · rw [hu, Function.update_self]
      nofun
    · rw [Function.update_of_ne hu]
      exact hother u hu

/-- A call can return by steps of its own, once the holder of the lock has gone on to its return. -/
theorem Good.exists_return (h : s.Good K) (t : Tid) :
    ∃ s₁ s', (s₁ = s ∨ ∃ v ≠ t, (s.pc v).holdsLock ∧ Relation.ReflTransGen (StepBy K v) s s₁ ∧
        s₁.pc = Function.update s.pc v .idle) ∧
      Relation.ReflTransGen (StepBy K t) s₁ s' ∧ s'.pc = Function.update s₁.pc t .idle := by
  obtain ⟨s₁, hs₁, hfree⟩ := h.leads_unlocked t
  have h₁ : s₁.Good K := by
    rcases hs₁ with rfl | ⟨v, -, -, hsteps, -⟩
    · exact h
    · exact h.steps hsteps
  obtain ⟨s', hs', hpc⟩ := h₁.leads_idle hfree
  exact ⟨s₁, s', hs₁, hs', hpc⟩

end Guarded

/-! ### `SpinLock` -/

/-- The queue as it is. -/
abbrev SpinQueue (Tid Job : Type) := Guarded (SpinLock Tid) Tid Job

namespace SpinQueue
open Guarded

variable {Tid Job : Type} [DecidableEq Tid] [Inhabited Job] {s : SpinQueue Tid Job}

theorem isAcquired_iff (h : s.Good SpinLock.guard) :
    s.spinlock.isAcquired = true ↔ ∃ t, (s.pc t).holdsLock := by
  have huse : ∀ t, (s.spinlock.point t).use = (s.pc t).use := fun t => h.matched.use_at rfl
  constructor
  · intro ha
    by_contra hnone
    have hfree := h.matched.inv.free fun t ht =>
      hnone ⟨t, PC.use_eq_holds.1 ((huse t).symm.trans ht)⟩
    rw [ha] at hfree
    cases hfree
  · rintro ⟨t, ht⟩
    by_contra hne
    exact h.matched.inv.not_holds (Bool.eq_false_iff.2 hne) t ((huse t).trans (PC.use_eq_holds.2 ht))

theorem view_lock_eq_none (h : s.Good SpinLock.guard) (ha : s.spinlock.isAcquired = false) :
    (s.view SpinLock.guard).lock = none :=
  Lock.holder_eq_none.2 fun t => h.matched.inv.not_holds ha t

/-- In every reachable state each call can be brought to its return: first, if another thread holds the
lock, that thread goes on to the return of its own call, and then the caller goes on alone. -/
theorem reach_call_returns (baseSize : ℕ) (hb : 0 < baseSize)
    (h : Reach (Init SpinLock.guard baseSize) (Step SpinLock.guard) s) (t : Tid) :
    ∃ s₁ s', (s₁ = s ∨ ∃ v ≠ t, (s.pc v).holdsLock ∧
        Relation.ReflTransGen (StepBy SpinLock.guard v) s s₁ ∧ s₁.pc = Function.update s.pc v .idle) ∧
      Relation.ReflTransGen (StepBy SpinLock.guard t) s₁ s' ∧
      s'.pc = Function.update s₁.pc t .idle :=
  (good_of_reach hb h).exists_return t

/-- Thread 0 is inside, about to reserve a slot, and thread 1 waits. -/
theorem exists_reach_waiting : ∃ s : SpinQueue ℕ ℕ,
    Reach (Init SpinLock.guard 1) (Step SpinLock.guard) s ∧ s.pc 0 = .enqReserve 7 ∧
      s.pc 1 = .enqLock 8 := by
  have h₀ : Reach (Init SpinLock.guard 1 : SpinQueue ℕ ℕ → Prop) (Step SpinLock.guard) _ :=
    .start ⟨_, rfl, rfl⟩
  have h₁ := h₀.next ⟨0, .callEnqueue 7 rfl ⟨rfl, rfl⟩⟩
  have h₂ := h₁.next ⟨0, .wait rfl (.load rfl false (.head _))⟩
  have h₃ := h₂.next ⟨0, .enqLock rfl (.exchange rfl rfl)⟩
  exact ⟨_, h₃.next ⟨1, .callEnqueue 8 rfl ⟨rfl, rfl⟩⟩, rfl, rfl⟩

/-- Thread 1 does not get the lock before thread 0 has returned. -/
theorem reach_call_returns_waiting : ∃ s s₁ s' : SpinQueue ℕ ℕ, s.pc 1 = .enqLock 8 ∧
    (s₁ = s ∨ ∃ v ≠ 1, (s.pc v).holdsLock ∧ Relation.ReflTransGen (StepBy SpinLock.guard v) s s₁ ∧
      s₁.pc = Function.update s.pc v .idle) ∧
    Relation.ReflTransGen (StepBy SpinLock.guard 1) s₁ s' ∧ s'.pc = Function.update s₁.pc 1 .idle := by
  obtain ⟨s, hs, -, h1⟩ := exists_reach_waiting
  obtain ⟨s₁, s', h⟩ := reach_call_returns 1 (by decide) hs 1
  exact ⟨s, s₁, s', h1, h⟩

end SpinQueue
end AsyncEry.JobQueue
