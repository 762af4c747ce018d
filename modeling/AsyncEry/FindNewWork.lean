import AsyncEry.WorkerPool

/-!
# `find_new_work` misses no work

`findNewWork` is what `WorkerPool::find_new_work` does while nobody else touches the queues: it takes
the oldest job of the global queue, or of the first worker queue that has one, in cyclic order from the
random start. It is the run of a worker of the pool that takes its steps without interference.
-/

namespace AsyncEry.Scheduler.WorkerPool
open Lts Relation

variable {n : ℕ} {Job : Type} [Inhabited Job]

/-- `(random_worker + i) % num_workers`. -/
def victim (randomWorker : Fin n) (i : ℕ) : Fin n :=
  ⟨(randomWorker + i) % n, Nat.mod_lt _ (Nat.zero_lt_of_lt randomWorker.isLt)⟩

/-- `workers[workerId].steal_job()`. -/
def stealJob (s : WorkerPool n Job) (workerId : Fin n) : WorkerPool n Job × Option Job :=
  ({ s with jobQueue := Function.update s.jobQueue workerId (s.jobQueue workerId).dequeue.1 },
    (s.jobQueue workerId).dequeue.2)

/-- The loop over the workers, with `rounds` to go from round `i` on. -/
def evict (s : WorkerPool n Job) (randomWorker : Fin n) : ℕ → ℕ → WorkerPool n Job × Option Job
  | 0, _ => (s, none)
  | rounds + 1, i =>
    let (s, job) := s.stealJob (victim randomWorker i)
    match job with
    | some job => (s, some job)
    | none => evict s randomWorker rounds (i + 1)

/-- `find_new_work`, when `dist` gives `randomWorker`. -/
def findNewWork (s : WorkerPool n Job) (randomWorker : Fin n) : WorkerPool n Job × Option Job :=
  let (globalQueue, job) := s.globalQueue.dequeue
  match job with
  | some job => ({ s with globalQueue := globalQueue }, some job)
  | none => evict { s with globalQueue := globalQueue } randomWorker n 0

/-- The rings of all queues are in order. -/
structure Sound (s : WorkerPool n Job) : Prop where
  globalQueue : s.globalQueue.Inv
  jobQueue : ∀ i, (s.jobQueue i).Inv

variable {s : WorkerPool n Job} {randomWorker workerId : Fin n} {job : Job} {jobs : List Job} {i k rounds : ℕ}

/-- The rings are in order whatever callers and workers have done. -/
theorem sound_of_reach (h : Reach (Init : WorkerPool n Job → Prop) Step s) : s.Sound := by
  have hinv : s.Inv := Inductive.reach ⟨fun _ h => h.inv, fun _ _ h hs => hs.inv h⟩ h
  exact ⟨hinv.globalQueue, hinv.jobQueue⟩

/-- Every worker is looked at in one of `n` rounds. -/
theorem victim_surjective (randomWorker workerId : Fin n) : ∃ i, i < n ∧ victim randomWorker i = workerId :=
  ⟨Ring.dist n randomWorker workerId, Ring.dist_lt randomWorker.isLt workerId.isLt,
    Fin.ext (Ring.add_dist randomWorker.isLt workerId.isLt)⟩

theorem stealJob_of_empty (h : s.Sound) (hnil : (s.jobQueue workerId).contents = []) :
    s.stealJob workerId = (s, none) := by
  unfold stealJob
  rw [(h.jobQueue workerId).dequeue_of_nil hnil, Function.update_eq_self]

theorem stealJob_of_cons (h : s.Sound) (hcons : (s.jobQueue workerId).contents = job :: jobs) :
    ∃ jobQueue, jobQueue.contents = jobs ∧ s.stealJob workerId =
      ({ s with jobQueue := Function.update s.jobQueue workerId jobQueue }, some job) := by
  obtain ⟨hd, hrest⟩ := (h.jobQueue workerId).dequeue_of_cons hcons
  exact ⟨_, hrest, Prod.ext rfl hd⟩

/-! ### The loop -/

theorem evict_some (hjob : (s.stealJob (victim randomWorker i)).2 = some job) :
    evict s randomWorker (rounds + 1) i = s.stealJob (victim randomWorker i) := by
  have hpair : s.stealJob (victim randomWorker i) = ((s.stealJob (victim randomWorker i)).1, some job) :=
    Prod.ext rfl hjob
  rw [evict, hpair]

theorem evict_none (hjob : (s.stealJob (victim randomWorker i)).2 = none) :
    evict s randomWorker (rounds + 1) i =
      evict (s.stealJob (victim randomWorker i)).1 randomWorker rounds (i + 1) := by
  have hpair : s.stealJob (victim randomWorker i) = ((s.stealJob (victim randomWorker i)).1, none) :=
    Prod.ext rfl hjob
  rw [evict, hpair]

/-- The loop passes over empty queues. -/
theorem evict_of_empty (h : s.Sound) (rounds : ℕ)
    (hi : ∀ j, i ≤ j → j < i + k → (s.jobQueue (victim randomWorker j)).contents = []) :
    evict s randomWorker (k + rounds) i = evict s randomWorker rounds (i + k) := by
  induction k generalizing i with
  | zero => rw [Nat.zero_add, Nat.add_zero]
  | succ k ih =>
    have hsteal := stealJob_of_empty h (hi i le_rfl (by omega))
    rw [Nat.add_right_comm, evict_none (congrArg Prod.snd hsteal), hsteal,
      ih fun j hj hj' => hi j (by omega) (by omega), Nat.add_right_comm, Nat.add_assoc]

theorem findNewWork_some (hjob : s.globalQueue.dequeue.2 = some job) :
    s.findNewWork randomWorker = ({ s with globalQueue := s.globalQueue.dequeue.1 }, some job) := by
  have hpair : s.globalQueue.dequeue = (s.globalQueue.dequeue.1, some job) := Prod.ext rfl hjob
  rw [findNewWork, hpair]

theorem findNewWork_none (hjob : s.globalQueue.dequeue.2 = none) :
    s.findNewWork randomWorker = evict { s with globalQueue := s.globalQueue.dequeue.1 } randomWorker n 0 := by
  have hpair : s.globalQueue.dequeue = (s.globalQueue.dequeue.1, none) := Prod.ext rfl hjob
  rw [findNewWork, hpair]

theorem findNewWork_of_cons (h : s.Sound) (hcons : s.globalQueue.contents = job :: jobs) :
    ∃ globalQueue, globalQueue.contents = jobs ∧
      s.findNewWork randomWorker = ({ s with globalQueue := globalQueue }, some job) := by
  obtain ⟨hd, hrest⟩ := h.globalQueue.dequeue_of_cons hcons
  exact ⟨_, hrest, findNewWork_some hd⟩

theorem findNewWork_of_empty (h : s.Sound) (hnil : s.globalQueue.contents = []) :
    s.findNewWork randomWorker = evict s randomWorker n 0 := by
  have hd := h.globalQueue.dequeue_of_nil hnil
  rw [findNewWork_none (congrArg Prod.snd hd), hd]

/-- The global queue and the queues before round `i` are empty. -/
theorem findNewWork_of_victim (h : s.Sound) (hnil : s.globalQueue.contents = []) (hi : i < n)
    (hbefore : ∀ j, j < i → (s.jobQueue (victim randomWorker j)).contents = [])
    (hcons : (s.jobQueue (victim randomWorker i)).contents = job :: jobs) :
    ∃ jobQueue, jobQueue.contents = jobs ∧ s.findNewWork randomWorker =
      ({ s with jobQueue := Function.update s.jobQueue (victim randomWorker i) jobQueue }, some job) := by
  obtain ⟨rounds, hn⟩ : ∃ rounds, i + (rounds + 1) = n := ⟨n - i - 1, by omega⟩
  obtain ⟨jobQueue, hrest, hsteal⟩ := stealJob_of_cons h hcons
  have hskip := evict_of_empty h (i := 0) (k := i) (rounds + 1) fun j _ hj => hbefore j (by omega)
  rw [Nat.zero_add, hn, evict_some (congrArg Prod.snd hsteal), hsteal] at hskip
  exact ⟨jobQueue, hrest, (findNewWork_of_empty h hnil).trans hskip⟩

theorem findNewWork_of_all_empty (h : s.Sound) (hnil : s.globalQueue.contents = [])
    (hall : ∀ workerId, (s.jobQueue workerId).contents = []) : s.findNewWork randomWorker = (s, none) := by
  have hskip : evict s randomWorker (n + 0) 0 = evict s randomWorker 0 (0 + n) :=
    evict_of_empty h 0 fun j _ _ => hall _
  exact (findNewWork_of_empty h hnil).trans hskip

/-- Run without interference, `find_new_work` returns nothing exactly when all the queues are empty;
otherwise it removes and returns the oldest job of the global queue, or else of the first worker queue
that has one, and leaves the other queues as they are. -/
theorem findNewWork_misses_nothing (s : WorkerPool n Job) (randomWorker : Fin n) (h : s.Sound) :
    ((s.findNewWork randomWorker).2 = none ↔
        s.globalQueue.contents = [] ∧ ∀ workerId, (s.jobQueue workerId).contents = []) ∧
      ((s.findNewWork randomWorker).2 = none → (s.findNewWork randomWorker).1 = s) ∧
      (∀ job jobs, s.globalQueue.contents = job :: jobs →
        ∃ globalQueue, globalQueue.contents = jobs ∧
          s.findNewWork randomWorker = ({ s with globalQueue := globalQueue }, some job)) ∧
      (s.globalQueue.contents = [] → ∀ i, i < n →
        (∀ j, j < i → (s.jobQueue (victim randomWorker j)).contents = []) →
        ∀ job jobs, (s.jobQueue (victim randomWorker i)).contents = job :: jobs →
          ∃ jobQueue, jobQueue.contents = jobs ∧ s.findNewWork randomWorker =
            ({ s with jobQueue := Function.update s.jobQueue (victim randomWorker i) jobQueue },
              some job)) := by
  have hiff : (s.findNewWork randomWorker).2 = none ↔
      s.globalQueue.contents = [] ∧ ∀ workerId, (s.jobQueue workerId).contents = [] := by
    refine ⟨fun hfind => ?_, fun hempty => by rw [findNewWork_of_all_empty h hempty.1 hempty.2]⟩
    by_contra hsome
    cases hg : s.globalQueue.contents with
    | cons job jobs =>
      obtain ⟨globalQueue, -, heq⟩ : ∃ globalQueue, globalQueue.contents = jobs ∧
          s.findNewWork randomWorker = ({ s with globalQueue := globalQueue }, some job) :=
        findNewWork_of_cons h hg
      rw [heq] at hfind
      cases hfind
    | nil =>
      -- the first worker in cyclic order that has a job
      obtain ⟨workerId, hne⟩ := not_forall.1 fun hall => hsome ⟨hg, hall⟩
      obtain ⟨k, hk, rfl⟩ := victim_surjective randomWorker workerId
      have hex : ∃ i, (s.jobQueue (victim randomWorker i)).contents ≠ [] := ⟨k, hne⟩
      obtain ⟨job, jobs, hcons⟩ := List.exists_cons_of_ne_nil (Nat.find_spec hex)
      obtain ⟨_, -, heq⟩ := findNewWork_of_victim h hg ((Nat.find_min' hex hne).trans_lt hk)
        (fun j hj => not_not.1 (Nat.find_min hex hj)) hcons
      rw [heq] at hfind
      cases hfind
  refine ⟨hiff, fun hfind => ?_, fun job jobs => findNewWork_of_cons h,
    fun hnil i hi hbefore job jobs => findNewWork_of_victim h hnil hi hbefore⟩
  rw [findNewWork_of_all_empty h (hiff.1 hfind).1 (hiff.1 hfind).2]

/-- The global queue is empty, and so is the queue of worker 0, from which the search starts. -/
theorem findNewWork_misses_nothing_second :
    let s : WorkerPool 2 ℕ :=
      ⟨.init 1, fun i => if i = 1 then ⟨[7, 0], 0, 1, 1⟩ else .init 1, fun _ => .poll, [], [], [], []⟩
    (s.findNewWork 0).2 = some 7 := by
  intro s
  have h : s.Sound := ⟨.init (by decide), fun i => ?_⟩
  · obtain ⟨-, -, -, hworker⟩ := findNewWork_misses_nothing s 0 h
    obtain ⟨_, -, hfind⟩ := hworker rfl 1 (by decide) (by decide) 7 [] rfl
    rw [hfind]
  · by_cases hi : i = 1
    · rw [show s.jobQueue i = ⟨[7, 0], 0, 1, 1⟩ from if_pos hi]
      exact ⟨⟨by decide, by decide⟩, by decide⟩
    · rw [show s.jobQueue i = .init 1 from if_neg hi]
      exact .init (by decide)

/-! ### A worker's steps -/

theorem evict_point (p : Fin n → Point Job) (rounds i : ℕ) :
    evict { s with point := p } randomWorker rounds i =
      ({ (evict s randomWorker rounds i).1 with point := p }, (evict s randomWorker rounds i).2) := by
  induction rounds generalizing s i with
  | zero => rfl
  | succ rounds ih =>
    cases hjob : (s.stealJob (victim randomWorker i)).2 with
    | some job =>
      rw [evict_some hjob]
      exact evict_some hjob
    | none =>
      rw [evict_none hjob]
      exact Eq.trans (evict_none (s := { s with point := p }) hjob)
        (ih (s := (s.stealJob (victim randomWorker i)).1) (i + 1))

/-- The loop is what the steps of a worker do that starts it at round `i`. -/
theorem evict_steps (worker : Fin n) (hi : i + rounds = n)
    (hp : s.point worker = .scan randomWorker i) :
    ReflTransGen Step s { (evict s randomWorker rounds i).1 with
      point := Function.update s.point worker (.ofDequeue .poll (evict s randomWorker rounds i).2) } := by
  induction rounds generalizing s i with
  | zero => exact .single (.nothingFound worker hp (by omega))
  | succ rounds ih =>
    have hstep := Step.steal worker (victim randomWorker i) hp (by omega) rfl
    cases hjob : (s.stealJob (victim randomWorker i)).2 with
    | some job =>
      rw [show (s.jobQueue (victim randomWorker i)).dequeue.2 = some job from hjob] at hstep
      rw [evict_some hjob, hjob]
      exact .single hstep
    | none =>
      rw [show (s.jobQueue (victim randomWorker i)).dequeue.2 = none from hjob] at hstep
      rw [evict_none hjob]
      refine .head hstep ?_
      have hrest := ih (s := { (s.stealJob (victim randomWorker i)).1 with
        point := Function.update s.point worker (.scan randomWorker (i + 1)) }) (i := i + 1) (by omega)
        (Function.update_self ..)
      rw [evict_point, Function.update_idem] at hrest
      exact hrest

/-- `findNewWork` is what the steps of a worker do from the moment it calls `find_new_work`. -/
theorem findNewWork_steps (worker : Fin n) (hp : s.point worker = .global) :
    ReflTransGen Step s { (s.findNewWork randomWorker).1 with
      point := Function.update s.point worker (.ofDequeue .poll (s.findNewWork randomWorker).2) } := by
  have hstep := Step.global worker randomWorker.val randomWorker.isLt hp
  cases hjob : s.globalQueue.dequeue.2 with
  | some job =>
    rw [hjob] at hstep
    rw [findNewWork_some hjob]
    exact .single hstep
  | none =>
    rw [hjob] at hstep
    rw [findNewWork_none hjob]
    refine .head hstep ?_
    set t : WorkerPool n Job := { s with globalQueue := s.globalQueue.dequeue.1 } with ht
    have hrest := evict_steps (s := { t with point := Function.update s.point worker (.scan randomWorker 0) })
      worker (Nat.zero_add n) (Function.update_self ..)
    rw [evict_point, Function.update_idem] at hrest
    exact hrest

end AsyncEry.Scheduler.WorkerPool
