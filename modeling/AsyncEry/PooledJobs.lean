import AsyncEry.WorkerPool
import AsyncEry.Lib.Simulation

/-!
# What the pool is to the program above it

A program hands jobs to `Scheduler::queue`, from its own threads and from the jobs that the workers run.
Through the global queue, the workers' queues and the stealing the pool implements a bag: a job that is
offered is run once, some time later, under the context of some worker, and nothing else is run. The
program is any `Client`; what it knows about the bag it may use about the pool (`Simulation.reach`).
-/

namespace AsyncEry.Scheduler
open Lts

/-- The calls of `queue` name no worker that a pool of `n` does not have. -/
def Callable {Job : Type} (n : ℕ) (calls : List (Context × List Job)) : Prop :=
  ∀ call ∈ calls, ∀ i, call.1.workerId = some i → i < n

/-- The jobs that the calls offer. -/
def offers {Job : Type} (calls : List (Context × List Job)) : List Job := calls.flatMap Prod.snd

/-- A program that leaves work to a pool of `n` workers: what its threads do and what its jobs do, each
with the calls of `queue` that are made on the way. -/
structure Client (n : ℕ) (State Job : Type) where
  step : State → List (Context × List Job) → State → Prop
  run : Fin n → Job → State → List (Context × List Job) → State → Prop
  callable_of_step : ∀ {state calls state'}, step state calls state' → Callable n calls
  callable_of_run : ∀ {i job state calls state'}, run i job state calls state' → Callable n calls

/-- A client and the jobs it has yet to see run. -/
structure Bag (State Job : Type) where
  state : State
  jobs : Multiset Job

namespace Bag
variable {n : ℕ} {State Job : Type}

def Init (init : State → Prop) (b : Bag State Job) : Prop := init b.state ∧ b.jobs = 0

/-- The client goes on, or some worker runs any of the jobs. -/
inductive Step (c : Client n State Job) : Bag State Job → Bag State Job → Prop
  | step {b calls state} (h : c.step b.state calls state) : Step c b ⟨state, b.jobs + offers calls⟩
  | run {b jobs job calls state} (i : Fin n) (hjob : b.jobs = job ::ₘ jobs)
      (h : c.run i job b.state calls state) : Step c b ⟨state, jobs + offers calls⟩

end Bag

/-- A client and its pool of `n` workers. -/
structure Pooled (n : ℕ) (State Job : Type) where
  state : State
  pool : WorkerPool n Job

namespace WorkerPool
variable {n : ℕ} {Job : Type} {s s' : WorkerPool n Job} {i : Fin n} {job : Job}
  {calls : List (Context × List Job)}

/-- `queue` is called. -/
def call (s : WorkerPool n Job) (calls : List (Context × List Job)) : WorkerPool n Job :=
  { s with calls := s.calls ++ calls, offered := s.offered ++ offers calls }

/-- Worker `i` is through with `job`. -/
def finish (s : WorkerPool n Job) (i : Fin n) (job : Job) : WorkerPool n Job :=
  { s with point := Function.update s.point i .poll, executed := s.executed ++ [job] }

variable [Inhabited Job]

/-- The jobs that are still on the way to a queue, in a queue, or in the hands of a worker. -/
def held (s : WorkerPool n Job) : Multiset Job := s.inFlight + s.globalQueue.contents + s.queued + s.inHands

theorem Inv.offered_eq (h : s.Inv) : (s.offered : Multiset Job) = s.held + s.executed := by
  rw [h.offered, h.submitted, held]
  ac_rfl

theorem mem_held_of_run (hp : s.point i = .run job) : job ∈ s.held := by
  have hhand : job ∈ s.inHands :=
    Multiset.mem_sum.2 ⟨i, Finset.mem_univ i, by rw [hp]; exact Multiset.mem_singleton_self job⟩
  exact Multiset.mem_add.2 (.inr hhand)

theorem held_eq_zero (hcalls : s.inFlight = 0) (hglobal : s.globalQueue.contents = [])
    (hqueues : ∀ i, (s.jobQueue i).contents = []) (hpoints : ∀ i job, s.point i ≠ .run job) : s.held = 0 := by
  have hqueued : s.queued = 0 := Finset.sum_eq_zero fun i _ => by rw [hqueues i]; rfl
  have hhands : s.inHands = 0 := by
    refine Finset.sum_eq_zero fun i _ => ?_
    cases hp : s.point i with
    | run job => exact absurd hp (hpoints i job)
    | _ => rfl
  rw [held, hcalls, hglobal, hqueued, hhands]
  rfl

theorem Inv.call (h : s.Inv) (hcalls : Callable n calls) : (s.call calls).Inv := by
  induction calls generalizing s with
  | nil => simpa [WorkerPool.call, offers] using h
  | cons call calls ih =>
    have hfirst := (Step.queue call.1 call.2 (hcalls call (List.mem_cons_self ..))).inv h
    have hrest := ih hfirst fun c hc => hcalls c (List.mem_cons_of_mem _ hc)
    simpa [WorkerPool.call, offers] using hrest

theorem Inv.finish (h : s.Inv) (hp : s.point i = .run job) : (s.finish i job).Inv := (Step.finish i hp).inv h

end WorkerPool

namespace Pooled
variable {n : ℕ} {State Job : Type} [Inhabited Job]

def Init (init : State → Prop) (s : Pooled n State Job) : Prop := init s.state ∧ s.pool.Init

/-- A thread of the client goes on, a worker runs the job in its hands, or a job is moved from a call of
`queue` towards the hands of a worker. What a job does to the state of the client is one step. -/
inductive Step (c : Client n State Job) : Pooled n State Job → Pooled n State Job → Prop
  | step {s calls state} (h : c.step s.state calls state) : Step c s ⟨state, s.pool.call calls⟩
  | run {s job calls state} (i : Fin n) (hp : s.pool.point i = .run job)
      (h : c.run i job s.state calls state) : Step c s ⟨state, (s.pool.finish i job).call calls⟩
  | pool {s pool} (h : WorkerPool.Step s.pool pool) (hoffered : pool.offered = s.pool.offered)
      (hexecuted : pool.executed = s.pool.executed) : Step c s { s with pool := pool }

/-- The bag holds what the pool was offered and has not executed. -/
structure Shows (s : Pooled n State Job) (b : Bag State Job) : Prop where
  inv : s.pool.Inv
  state : b.state = s.state
  offered : (s.pool.offered : Multiset Job) = b.jobs + s.pool.executed

theorem Shows.jobs_eq {s : Pooled n State Job} {b : Bag State Job} (h : s.Shows b) : b.jobs = s.pool.held :=
  add_right_cancel (h.offered.symm.trans h.inv.offered_eq)

variable {c : Client n State Job} {init : State → Prop}

theorem Shows.next {s s' : Pooled n State Job} {b : Bag State Job} (h : s.Shows b) (hs : Step c s s') :
    ∃ b', (b' = b ∨ Bag.Step c b b') ∧ s'.Shows b' := by
  cases hs with
  | @step calls state hc =>
    rw [← h.state] at hc
    refine ⟨_, .inr (.step hc), h.inv.call (c.callable_of_step hc), rfl, ?_⟩
    show ((s.pool.offered ++ offers calls : List Job) : Multiset Job) = b.jobs + _ + s.pool.executed
    rw [← Multiset.coe_add, h.offered, add_right_comm]
  | @run job calls state i hp hc =>
    obtain ⟨jobs, hjobs⟩ : ∃ jobs, b.jobs = job ::ₘ jobs :=
      Multiset.exists_cons_of_mem (h.jobs_eq ▸ WorkerPool.mem_held_of_run hp)
    rw [← h.state] at hc
    refine ⟨_, .inr (.run i hjobs hc), (h.inv.finish hp).call (c.callable_of_run hc), rfl, ?_⟩
    show ((s.pool.offered ++ offers calls : List Job) : Multiset Job) =
      jobs + _ + ((s.pool.executed ++ [job] : List Job) : Multiset Job)
    rw [← Multiset.coe_add, ← Multiset.coe_add, h.offered, hjobs, Multiset.coe_singleton,
      ← Multiset.singleton_add]
    ac_rfl
  | pool hpool hoffered hexecuted =>
    refine ⟨b, .inl rfl, hpool.inv h.inv, h.state, ?_⟩
    show (_ : Multiset Job) = b.jobs + _
    rw [hoffered, hexecuted]
    exact h.offered

theorem simulation (c : Client n State Job) (init : State → Prop) :
    Simulation (Init init) (Step c) (Bag.Init init) (Bag.Step c) Shows where
  start s hs := ⟨⟨s.state, 0⟩, ⟨hs.1, rfl⟩, WorkerPool.Init.inv hs.2, rfl, by rw [hs.2]; rfl⟩
  next _ _ _ h hs := h.next hs

/-- The pool implements a bag of jobs: however callers, queues and workers interleave, a client on the
pool behaves as one on a bag, whose jobs at any moment are exactly those that are on the way to a queue,
in a queue or in the hands of a worker. -/
theorem run_refines_bag (n : ℕ) (c : Client n State Job) (init : State → Prop)
    (r : Run (Init init) (Step c)) :
    ∃ r' : Run (Bag.Init init) (Bag.Step c), ∀ k, (r'.state k).state = (r.state k).state ∧
      (r'.state k).jobs = (r.state k).pool.held ∧
      ((r.state k).pool.offered : Multiset Job) = (r'.state k).jobs + (r.state k).pool.executed := by
  obtain ⟨r', hr'⟩ := (simulation c init).run r
  exact ⟨r', fun k => ⟨(hr' k).state, (hr' k).jobs_eq, (hr' k).offered⟩⟩

end Pooled

/-! ### A pool of one worker -/

namespace WorkerPool
variable {Job : Type} [Inhabited Job] {g q : JobQueue Job} {job : Job} {jobs : List Job}

/-- The one worker has the queue `q` and stands at `p`; no call is in progress. -/
def solo (g q : JobQueue Job) (p : Point Job) (offered executed : List Job) : WorkerPool 1 Job :=
  ⟨g, fun _ => q, fun _ => p, [], offered, offered, executed⟩

theorem solo_own (h : q.Inv) (hnil : q.contents = []) (offered executed : List Job) :
    Step (solo g q .poll offered executed) (solo g q .global offered executed) := by
  have hstep := Step.own (s := solo g q .poll offered executed) 0 rfl
  simp only [solo, h.dequeue_of_nil hnil, Function.update_eq_const_of_subsingleton] at hstep
  exact hstep

theorem solo_own_some (h : q.Inv) (hcons : q.contents = job :: jobs) (offered executed : List Job) :
    Step (solo g q .poll offered executed) (solo g q.dequeue.1 (.run job) offered executed) := by
  have hstep := Step.own (s := solo g q .poll offered executed) 0 rfl
  simp only [solo, (h.dequeue_of_cons hcons).1, Function.update_eq_const_of_subsingleton] at hstep
  exact hstep

theorem solo_global (h : g.Inv) (hnil : g.contents = []) (offered executed : List Job) :
    Step (solo g q .global offered executed) (solo g q (.scan 0 0) offered executed) := by
  have hstep := Step.global (s := solo g q .global offered executed) 0 0 Nat.one_pos rfl
  simp only [solo, h.dequeue_of_nil hnil, Function.update_eq_const_of_subsingleton] at hstep
  exact hstep

theorem solo_global_some (h : g.Inv) (hcons : g.contents = job :: jobs) (offered executed : List Job) :
    Step (solo g q .global offered executed) (solo g.dequeue.1 q (.run job) offered executed) := by
  have hstep := Step.global (s := solo g q .global offered executed) 0 0 Nat.one_pos rfl
  simp only [solo, (h.dequeue_of_cons hcons).1, Function.update_eq_const_of_subsingleton] at hstep
  exact hstep

theorem solo_steal (h : q.Inv) (hnil : q.contents = []) (offered executed : List Job) :
    Step (solo g q (.scan 0 0) offered executed) (solo g q (.scan 0 1) offered executed) := by
  have hstep := Step.steal (s := solo g q (.scan 0 0) offered executed) 0 0 rfl Nat.one_pos rfl
  simp only [solo, h.dequeue_of_nil hnil, Function.update_eq_const_of_subsingleton] at hstep
  exact hstep

theorem solo_nothingFound (offered executed : List Job) :
    Step (solo g q (.scan 0 1) offered executed) (solo g q .poll offered executed) := by
  have hstep := Step.nothingFound (s := solo g q (.scan 0 1) offered executed) 0 rfl (lt_irrefl 1)
  simp only [solo, Function.update_eq_const_of_subsingleton] at hstep
  exact hstep

omit [Inhabited Job] in
theorem solo_finish (offered executed : List Job) : (solo g q (.run job) offered executed).finish 0 job =
    solo g q .poll offered (executed ++ [job]) := by
  simp only [finish, solo, Function.update_eq_const_of_subsingleton]
  rfl

omit [Inhabited Job] in
theorem solo_call_nil (p : Point Job) (offered executed : List Job) :
    (solo g q p offered executed).call [] = .solo g q p offered executed := by
  simp [call, solo, offers]

/-- Where a worker that finds nothing stands after `k` steps. -/
def idlePoint (k : ℕ) : Point Job :=
  match k % 4 with
  | 0 => .poll
  | 1 => .global
  | 2 => .scan 0 0
  | _ => .scan 0 1

omit [Inhabited Job] in
theorem idlePoint_cases (k : ℕ) :
    (idlePoint k : Point Job) = .poll ∧ (idlePoint (k + 1) : Point Job) = .global ∨
    (idlePoint k : Point Job) = .global ∧ (idlePoint (k + 1) : Point Job) = .scan 0 0 ∨
    (idlePoint k : Point Job) = .scan 0 0 ∧ (idlePoint (k + 1) : Point Job) = .scan 0 1 ∨
    (idlePoint k : Point Job) = .scan 0 1 ∧ (idlePoint (k + 1) : Point Job) = .poll := by
  obtain ⟨a, rfl | rfl | rfl | rfl⟩ : ∃ a, k = 4 * a ∨ k = 4 * a + 1 ∨ k = 4 * a + 2 ∨ k = 4 * a + 3 :=
    ⟨k / 4, by omega⟩
  all_goals simp [idlePoint, Nat.add_assoc, Nat.mul_mod_right]

theorem solo_idle (hg : g.Inv) (hgnil : g.contents = []) (hq : q.Inv) (hqnil : q.contents = [])
    (offered executed : List Job) (k : ℕ) :
    Step (solo g q (idlePoint k) offered executed) (solo g q (idlePoint (k + 1)) offered executed) := by
  rcases @idlePoint_cases Job k with h | h | h | h
  all_goals rw [h.1, h.2]
  · exact solo_own hq hqnil offered executed
  · exact solo_global hg hgnil offered executed
  · exact solo_steal hq hqnil offered executed
  · exact solo_nothingFound offered executed

omit [Inhabited Job] in
theorem idlePoint_succ_ne (k : ℕ) : (idlePoint (k + 1) : Point Job) ≠ idlePoint k := by
  rcases @idlePoint_cases Job k with h | h | h | h
  all_goals rw [h.1, h.2]; exact nofun

end WorkerPool
end AsyncEry.Scheduler
