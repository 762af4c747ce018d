import AsyncEry.Basic
import AsyncEry.JobQueue
import AsyncEry.Lib.Conserve
import AsyncEry.Lib.Run

/-!
# The worker pool neither loses nor repeats a job

`n` workers, each with a ring buffer of its own, and one global ring buffer. A `queue` call enqueues
the jobs of its batch one by one; a worker dequeues from its own queue, then through
`find_new_work` from the global one, then from every worker's queue in cyclic order from a random
start. Each queue operation is one step, and the steps of all callers and workers interleave. The
invariant adds up, as multisets, what the queues hold, what the workers run and what has been
executed.
-/

namespace AsyncEry.Scheduler
open Lts

/-- Where a worker stands in the loop of `JobWorker::start` and in `WorkerPool::find_new_work`. -/
inductive Point (Job : Type)
  /-- About to dequeue from its own queue. -/
  | poll
  /-- In `find_new_work`, about to dequeue from the global queue. -/
  | global
  /-- In the loop of `find_new_work`, about to steal from worker `(start + i) % num_workers`. -/
  | scan (start i : ℕ)
  /-- Running `job`. -/
  | run (job : Job)

/-- The job in a worker's hands. -/
def Point.hand {Job : Type} : Point Job → Multiset Job
  | .run job => {job}
  | _ => 0

/-- `if (auto job = …; job.has_value()) { run it }`, going on to `p` otherwise. -/
def Point.ofDequeue {Job : Type} (p : Point Job) (r : Option Job) : Point Job := r.elim p .run

/-- The pool of `n` workers, the `queue` calls in progress with the jobs they have yet to enqueue,
and three logs: the jobs passed to `queue`, those enqueued, and those executed. -/
structure WorkerPool (n : ℕ) (Job : Type) where
  globalQueue : JobQueue Job
  jobQueue : Fin n → JobQueue Job
  point : Fin n → Point Job
  calls : List (Context × List Job)
  offered : List Job
  submitted : List Job
  executed : List Job

namespace WorkerPool

variable {n : ℕ} {Job : Type} [Inhabited Job]

/-- All queues have the default size and are empty, all workers have just been started. -/
def Init (s : WorkerPool n Job) : Prop :=
  s = ⟨JobQueue.init 1024, fun _ => JobQueue.init 1024, fun _ => .poll, [], [], [], []⟩

/-- One step of a caller of `queue` or of a worker. -/
inductive Step : WorkerPool n Job → WorkerPool n Job → Prop
  /-- Any thread calls `queue` with the empty context or that of a worker of the pool. -/
  | queue {s} (ctx : Context) (jobs : List Job) (hctx : ∀ i, ctx.workerId = some i → i < n) :
      Step s { s with calls := s.calls ++ [(ctx, jobs)], offered := s.offered ++ jobs }
  | enqueueGlobal {s : WorkerPool n Job} {ctx job jobs cs cs' q'}
      (hc : s.calls = cs ++ (ctx, job :: jobs) :: cs') (hctx : ctx.workerId = none)
      (hq : s.globalQueue.enqueue job = some q') :
      Step s { s with
        globalQueue := q', calls := cs ++ (ctx, jobs) :: cs', submitted := s.submitted ++ [job] }
  | enqueueWorker {s : WorkerPool n Job} {ctx job jobs cs cs' q'} (i : Fin n)
      (hc : s.calls = cs ++ (ctx, job :: jobs) :: cs') (hctx : ctx.workerId = some i.val)
      (hq : (s.jobQueue i).enqueue job = some q') :
      Step s { s with
        jobQueue := Function.update s.jobQueue i q'
        calls := cs ++ (ctx, jobs) :: cs'
        submitted := s.submitted ++ [job] }
  | queueReturns {s : WorkerPool n Job} {ctx cs cs'} (hc : s.calls = cs ++ (ctx, []) :: cs') :
      Step s { s with calls := cs ++ cs' }
  | own {s : WorkerPool n Job} (i : Fin n) (hp : s.point i = .poll) :
      Step s { s with
        jobQueue := Function.update s.jobQueue i (s.jobQueue i).dequeue.1
        point := Function.update s.point i (.ofDequeue .global (s.jobQueue i).dequeue.2) }
  | global {s : WorkerPool n Job} (i : Fin n) (start : ℕ) (hs : start < n)
      (hp : s.point i = .global) :
      Step s { s with
        globalQueue := s.globalQueue.dequeue.1
        point := Function.update s.point i (.ofDequeue (.scan start 0) s.globalQueue.dequeue.2) }
  | steal {s : WorkerPool n Job} (i workerId : Fin n) {start k : ℕ}
      (hp : s.point i = .scan start k) (hk : k < n) (hid : workerId.val = (start + k) % n) :
      Step s { s with
        jobQueue := Function.update s.jobQueue workerId (s.jobQueue workerId).dequeue.1
        point := Function.update s.point i
          (.ofDequeue (.scan start (k + 1)) (s.jobQueue workerId).dequeue.2) }
  | nothingFound {s : WorkerPool n Job} (i : Fin n) {start k : ℕ} (hp : s.point i = .scan start k)
      (hk : ¬ k < n) : Step s { s with point := Function.update s.point i .poll }
  | finish {s : WorkerPool n Job} (i : Fin n) {job : Job} (hp : s.point i = .run job) :
      Step s { s with
        point := Function.update s.point i .poll, executed := s.executed ++ [job] }

/-- The jobs in the workers' queues. -/
def queued (s : WorkerPool n Job) : Multiset Job := ∑ i, ((s.jobQueue i).contents : Multiset Job)

/-- The jobs in the workers' hands. -/
def inHands (s : WorkerPool n Job) : Multiset Job := ∑ i, (s.point i).hand

/-- The jobs that `queue` calls in progress have yet to enqueue. -/
def inFlight (s : WorkerPool n Job) : Multiset Job := (s.calls.flatMap Prod.snd : List Job)

/-- Every queue is well formed and every job is accounted for. -/
structure Inv (s : WorkerPool n Job) : Prop where
  globalQueue : s.globalQueue.Inv
  jobQueue : ∀ i, (s.jobQueue i).Inv
  submitted : (s.submitted : Multiset Job) =
    s.globalQueue.contents + s.queued + s.inHands + s.executed
  offered : (s.offered : Multiset Job) = s.inFlight + s.submitted

variable {s s' : WorkerPool n Job}

theorem Init.inv (h : Init s) : s.Inv := by
  subst h
  have hq : (JobQueue.init 1024 : JobQueue Job).Inv := JobQueue.Inv.init (by decide)
  exact ⟨hq, fun _ => hq, by simp [queued, inHands, Point.hand], by simp [inFlight]⟩

theorem dequeue_hand {q : JobQueue Job} (h : q.Inv) {p : Point Job} (hp : p.hand = 0) :
    (q.contents : Multiset Job) = q.dequeue.1.contents + (p.ofDequeue q.dequeue.2).hand := by
  obtain ⟨-, ⟨hnil, hd⟩ | ⟨job, hd, hcons⟩⟩ := h.dequeue
  · rw [hd]; simp [Point.ofDequeue, hp]
  · rw [hcons, hd]
    simp only [Point.ofDequeue, Option.elim_some, Point.hand]
    rw [← Multiset.cons_coe, ← Multiset.singleton_add, add_comm]

theorem enqueue_contents {q q' : JobQueue Job} (h : q.Inv) {job : Job} (hq : q.enqueue job = some q') :
    q'.Inv ∧ (q'.contents : Multiset Job) = q.contents + {job} := by
  obtain ⟨q₁, hq₁, h₁, hc₁⟩ := h.enqueue job
  obtain rfl := Option.some.inj (hq.symm.trans hq₁)
  exact ⟨h₁, by rw [hc₁, ← Multiset.coe_add]; rfl⟩

omit [Inhabited Job] in
/-- A worker with empty hands takes up what `p` holds. -/
theorem inHands_take {i : Fin n} {p : Point Job} (h : (s.point i).hand = 0) :
    ∑ j, (Function.update s.point i p j).hand = s.inHands + p.hand :=
  Conserve.sum_put (Finset.mem_univ i) (by rw [h, zero_add])

theorem queued_dequeue {i : Fin n} {x : Multiset Job}
    (h : ((s.jobQueue i).contents : Multiset Job) = (s.jobQueue i).dequeue.1.contents + x) :
    ∑ j, ((Function.update s.jobQueue i (s.jobQueue i).dequeue.1 j).contents : Multiset Job) + x =
      s.queued :=
  Conserve.sum_take (g := fun q : JobQueue Job => (q.contents : Multiset Job)) (Finset.mem_univ i) h

theorem queued_enqueue {i : Fin n} {q' : JobQueue Job} {x : Multiset Job}
    (h : (q'.contents : Multiset Job) = (s.jobQueue i).contents + x) :
    ∑ j, ((Function.update s.jobQueue i q' j).contents : Multiset Job) = s.queued + x :=
  Conserve.sum_put (g := fun q : JobQueue Job => (q.contents : Multiset Job)) (Finset.mem_univ i) h

theorem Inv.update_jobQueue (h : s.Inv) (i : Fin n) {q' : JobQueue Job} (hq : q'.Inv) (j : Fin n) :
    (Function.update s.jobQueue i q' j).Inv := by
  by_cases hj : j = i
  · subst hj; simpa using hq
  · simpa [Function.update_of_ne hj] using h.jobQueue j

omit [Inhabited Job] in
theorem inFlight_next {ctx : Context} {job : Job} {jobs : List Job} {cs cs' : List (Context × List Job)}
    (hc : s.calls = cs ++ (ctx, job :: jobs) :: cs') :
    s.inFlight = ((cs ++ (ctx, jobs) :: cs').flatMap Prod.snd : List Job) + ({job} : Multiset Job) := by
  simp only [inFlight, hc, List.flatMap_append, List.flatMap_cons, ← Multiset.coe_add,
    List.cons_append, ← Multiset.cons_coe, ← Multiset.singleton_add]
  ac_rfl

/-- Every step keeps the invariant: it moves at most one job from one place to the next. -/
theorem Step.inv (hs : Step s s') (h : s.Inv) : s'.Inv := by
  cases hs with
  | queue ctx jobs hctx =>
    refine ⟨h.globalQueue, h.jobQueue, h.submitted, ?_⟩
    have hoff := h.offered
    simp only [inFlight, List.flatMap_append, List.flatMap_cons, List.flatMap_nil, List.append_nil,
      ← Multiset.coe_add] at hoff ⊢
    rw [hoff]; ac_rfl
  | enqueueGlobal hc hctx hq =>
    obtain ⟨hq', hcont⟩ := enqueue_contents h.globalQueue hq
    refine ⟨hq', h.jobQueue, ?_, ?_⟩
    · show ((s.submitted ++ [_] : List Job) : Multiset Job) = _ + s.queued + s.inHands + (s.executed : Multiset Job)
      rw [hcont, ← Multiset.coe_add, h.submitted, Multiset.coe_singleton]; ac_rfl
    · show (s.offered : Multiset Job) = _ + ((s.submitted ++ [_] : List Job) : Multiset Job)
      rw [h.offered, inFlight_next hc, ← Multiset.coe_add, Multiset.coe_singleton, inFlight]; ac_rfl
  | enqueueWorker i hc hctx hq =>
    obtain ⟨hq', hcont⟩ := enqueue_contents (h.jobQueue i) hq
    refine ⟨h.globalQueue, h.update_jobQueue i hq', ?_, ?_⟩
    · show ((s.submitted ++ [_] : List Job) : Multiset Job) = _ + queued _ + s.inHands + (s.executed : Multiset Job)
      rw [queued, queued_enqueue hcont, ← Multiset.coe_add, h.submitted, Multiset.coe_singleton]
      ac_rfl
    · show (s.offered : Multiset Job) = _ + ((s.submitted ++ [_] : List Job) : Multiset Job)
      rw [h.offered, inFlight_next hc, ← Multiset.coe_add, Multiset.coe_singleton, inFlight]; ac_rfl
  | queueReturns hc =>
    refine ⟨h.globalQueue, h.jobQueue, h.submitted, ?_⟩
    have hoff := h.offered
    simpa [inFlight, hc] using hoff
  | own i hp =>
    have hmove := dequeue_hand (h.jobQueue i) (p := .global) rfl
    refine ⟨h.globalQueue, h.update_jobQueue i (h.jobQueue i).dequeue.1, ?_, h.offered⟩
    show (s.submitted : Multiset Job) = _ + queued _ + inHands _ + (s.executed : Multiset Job)
    rw [inHands, inHands_take (by rw [hp]; rfl), h.submitted, ← queued_dequeue hmove, queued]; ac_rfl
  | global i start hstart hp =>
    have hmove := dequeue_hand h.globalQueue (p := .scan start 0) rfl
    refine ⟨h.globalQueue.dequeue.1, h.jobQueue, ?_, h.offered⟩
    show (s.submitted : Multiset Job) = _ + s.queued + inHands _ + (s.executed : Multiset Job)
    rw [inHands, inHands_take (by rw [hp]; rfl), h.submitted, hmove]; ac_rfl
  | @steal i workerId start k hp hk hid =>
    have hmove := dequeue_hand (h.jobQueue workerId) (p := .scan start (k + 1)) rfl
    refine ⟨h.globalQueue, h.update_jobQueue workerId (h.jobQueue workerId).dequeue.1, ?_, h.offered⟩
    show (s.submitted : Multiset Job) = _ + queued _ + inHands _ + (s.executed : Multiset Job)
    rw [inHands, inHands_take (by rw [hp]; rfl), h.submitted, ← queued_dequeue hmove, queued]; ac_rfl
  | nothingFound i hp hk =>
    refine ⟨h.globalQueue, h.jobQueue, ?_, h.offered⟩
    show (s.submitted : Multiset Job) = _ + s.queued + inHands _ + (s.executed : Multiset Job)
    rw [inHands, inHands_take (by rw [hp]; rfl), h.submitted]; simp [Point.hand]
  | @finish i job hp =>
    have hput : ∑ j, (Function.update s.point i .poll j).hand + {job} = s.inHands :=
      Conserve.sum_take (g := Point.hand) (Finset.mem_univ i) (by rw [hp]; simp [Point.hand])
    refine ⟨h.globalQueue, h.jobQueue, ?_, h.offered⟩
    show (s.submitted : Multiset Job) =
      _ + s.queued + inHands _ + ((s.executed ++ [job] : List Job) : Multiset Job)
    rw [inHands, ← Multiset.coe_add, h.submitted, ← hput, Multiset.coe_singleton]; ac_rfl

/-- The scheduler neither loses nor repeats a job: in every state of every run, the enqueued jobs are
those in the global queue, in the workers' queues, in the workers' hands and executed, each as often
as it was enqueued, and a job passed to `queue` is either enqueued or still in the caller's batch. -/
theorem run_conserves (r : Run (Init : WorkerPool n Job → Prop) Step) (k : ℕ) :
    ((r.state k).submitted : Multiset Job) =
        (r.state k).globalQueue.contents + ∑ i, (((r.state k).jobQueue i).contents : Multiset Job) +
          ∑ i, ((r.state k).point i).hand + (r.state k).executed ∧
      ((r.state k).offered : Multiset Job) =
        ((r.state k).calls.flatMap Prod.snd : List Job) + ((r.state k).submitted : Multiset Job) := by
  have hinv : (r.state k).Inv :=
    Inductive.reach ⟨fun _ h => h.inv, fun _ _ h hs => hs.inv h⟩ (r.reach k)
  exact ⟨hinv.submitted, hinv.offered⟩

end WorkerPool
end AsyncEry.Scheduler
