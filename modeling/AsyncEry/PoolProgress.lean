import AsyncEry.PooledJobs
import AsyncEry.Lib.Progress

/-!
# The pool gets its work done

A run is fair when every worker keeps going (so no job runs for ever) and a call of `queue` that has jobs
left goes on some time. Then a job in a worker's own queue is run, whatever else is queued; and when
nothing more is offered, everything that was offered has been run some time.
-/

namespace AsyncEry.Scheduler
open Lts

/-- How far a worker is from going back to its own queue. -/
def Point.distance {Job : Type} (n : ℕ) : Point Job → ℕ
  | .poll => 0
  | .run _ => 1
  | .scan _ k => n - k + 2
  | .global => n + 3

theorem Point.distance_ofDequeue_lt {Job : Type} {n d : ℕ} {p : Point Job} {found : Option Job} (hd : 1 < d)
    (hp : p.distance n < d) : (p.ofDequeue found).distance n < d := by
  cases found with
  | none => exact hp
  | some job => exact hd

namespace Pooled

variable {n : ℕ} {State Job : Type} [Inhabited Job] {c : Client n State Job} {init : State → Prop}
  {s s' : Pooled n State Job} {i : Fin n} {job : Job} {k m : ℕ}

/-- The workers keep going: each step of a worker changes the point that it stands at. -/
def Working (r : Run (Init init) (Step c)) : Prop :=
  ∀ i k, ∃ m, k ≤ m ∧ (r.state (m + 1)).pool.point i ≠ (r.state m).pool.point i

/-- And the callers of `queue` do. -/
structure Fair (r : Run (Init init) (Step c)) : Prop where
  workers : Working r
  callers : ∀ k, (r.state k).pool.inFlight ≠ 0 →
    ∃ m, k ≤ m ∧ (r.state (m + 1)).pool.submitted ≠ (r.state m).pool.submitted

/-! ### One step -/

/-- What the step was, if it moved worker `i`. -/
theorem Step.worker (hs : Step c s s') (hne : s'.pool.point i ≠ s.pool.point i) :
    (s.pool.point i = .poll ∧
      s'.pool.jobQueue = Function.update s.pool.jobQueue i (s.pool.jobQueue i).dequeue.1 ∧
      s'.pool.point =
        Function.update s.pool.point i (.ofDequeue .global (s.pool.jobQueue i).dequeue.2)) ∨
    (∃ start, s.pool.point i = .global ∧ s'.pool.point =
      Function.update s.pool.point i (.ofDequeue (.scan start 0) s.pool.globalQueue.dequeue.2)) ∨
    (∃ start k workerId, s.pool.point i = .scan start k ∧ k < n ∧ s'.pool.point =
      Function.update s.pool.point i
        (.ofDequeue (.scan start (k + 1)) (s.pool.jobQueue workerId).dequeue.2)) ∨
    (∃ start k, s.pool.point i = .scan start k ∧ s'.pool.point = Function.update s.pool.point i .poll) ∨
    ∃ job, s.pool.point i = .run job ∧ s'.pool.point = Function.update s.pool.point i .poll ∧
      s'.pool.executed = s.pool.executed ++ [job] := by
  -- a worker that the step is not about stays where it is
  have hself : ∀ {j : Fin n} {p : Point Job},
      Function.update s.pool.point j p i ≠ s.pool.point i → j = i := by
    intro j p hj
    by_contra hji
    exact hj (Function.update_of_ne (Ne.symm hji) _ _)
  cases hs with
  | step h => exact absurd rfl hne
  | @run job calls state j hp h =>
    obtain rfl := hself hne
    exact .inr (.inr (.inr (.inr ⟨job, hp, rfl, rfl⟩)))
  | pool h hoffered hexecuted =>
    cases h with
    | queue | enqueueGlobal | enqueueWorker | queueReturns => exact absurd rfl hne
    | own j hp =>
      obtain rfl := hself hne
      exact .inl ⟨hp, rfl, rfl⟩
    | global j start hstart hp =>
      obtain rfl := hself hne
      exact .inr (.inl ⟨start, hp, rfl⟩)
    | @steal j workerId start k hp hk hid =>
      obtain rfl := hself hne
      exact .inr (.inr (.inl ⟨start, k, workerId, hp, hk, rfl⟩))
    | @nothingFound j start k hp hk =>
      obtain rfl := hself hne
      exact .inr (.inr (.inr (.inl ⟨start, k, hp, rfl⟩)))
    | finish j hp => exact absurd hexecuted (by simp)

theorem inv_of_reach (h : Reach (Init init) (Step c) s) : s.pool.Inv := by
  obtain ⟨b, -, hb⟩ := (simulation c init).reach h
  exact hb.inv

/-- What the step does to a job in the queue of worker `i`: it stays there or a worker takes it. -/
theorem Step.stays_or_taken (hs : Step c s s') (h : s.pool.Inv) {d : ℕ}
    (hd : (s.pool.jobQueue i).contents[d]? = some job) :
    (∃ e, e ≤ d ∧ (s'.pool.jobQueue i).contents[e]? = some job) ∨ ∃ j, s'.pool.point j = .run job := by
  -- a worker dequeues from the queue of `w`
  have htake : ∀ {j w : Fin n} {p : Point Job},
      (∃ e, e ≤ d ∧ (Function.update s.pool.jobQueue w (s.pool.jobQueue w).dequeue.1 i).contents[e]? =
        some job) ∨
      ∃ j', Function.update s.pool.point j (.ofDequeue p (s.pool.jobQueue w).dequeue.2) j' = .run job := by
    intro j w p
    by_cases hw : i = w
    · subst hw
      obtain ⟨-, ⟨hnil, hdq⟩ | ⟨job', hdq, hcons⟩⟩ := (h.jobQueue i).dequeue
      · rw [hnil] at hd
        cases hd
      · rw [hcons] at hd
        cases d with
        | zero =>
          obtain rfl := Option.some.inj hd
          exact .inr ⟨j, by rw [Function.update_self, hdq]; rfl⟩
        | succ d => exact .inl ⟨d, Nat.le_succ d, by rw [Function.update_self]; exact hd⟩
    · exact .inl ⟨d, le_rfl, by rw [Function.update_of_ne hw]; exact hd⟩
  cases hs with
  | step => exact .inl ⟨d, le_rfl, hd⟩
  | run => exact .inl ⟨d, le_rfl, hd⟩
  | pool hpool =>
    cases hpool with
    | queue | enqueueGlobal | queueReturns | nothingFound | finish | global => exact .inl ⟨d, le_rfl, hd⟩
    | @enqueueWorker ctx job' jobs cs cs' q' w hc hctx hq =>
      refine .inl ⟨d, le_rfl, ?_⟩
      by_cases hw : i = w
      · subst hw
        obtain ⟨q₁, hq₁, -, hcont⟩ := (h.jobQueue i).enqueue job'
        obtain rfl := Option.some.inj (hq.symm.trans hq₁)
        show (Function.update s.pool.jobQueue i q' i).contents[d]? = some job
        rw [Function.update_self, hcont, List.getElem?_append_left (List.getElem?_eq_some_iff.1 hd).1]
        exact hd
      · show (Function.update s.pool.jobQueue w q' i).contents[d]? = some job
        rw [Function.update_of_ne hw]
        exact hd
    | own => exact htake
    | steal => exact htake

/-- Nothing that was offered, enqueued or executed is forgotten. -/
structure Grows (w w' : WorkerPool n Job) : Prop where
  offered : w.offered <+: w'.offered
  submitted : w.submitted <+: w'.submitted
  executed : w.executed <+: w'.executed

omit [Inhabited Job] in
theorem Grows.refl (w : WorkerPool n Job) : Grows w w :=
  ⟨List.prefix_rfl, List.prefix_rfl, List.prefix_rfl⟩

omit [Inhabited Job] in
theorem Grows.trans {w w' w'' : WorkerPool n Job} (h : Grows w w') (h' : Grows w' w'') : Grows w w'' :=
  ⟨h.offered.trans h'.offered, h.submitted.trans h'.submitted, h.executed.trans h'.executed⟩

theorem Step.grows (hs : Step c s s') : Grows s.pool s'.pool := by
  cases hs with
  | step h => exact ⟨List.prefix_append .., List.prefix_rfl, List.prefix_rfl⟩
  | run i hp h => exact ⟨List.prefix_append .., List.prefix_rfl, List.prefix_append ..⟩
  | pool h hoffered hexecuted =>
    refine ⟨by rw [hoffered], ?_, by rw [hexecuted]⟩
    cases h with
    | enqueueGlobal | enqueueWorker => exact List.prefix_append ..
    | _ => exact List.prefix_rfl

/-! ### Fair runs -/

section Fair
variable {r : Run (Init init) (Step c)}

namespace Working

/-- A worker is through with its job some time. -/
theorem exists_finish (hw : Working r) (hp : (r.state k).pool.point i = .run job) :
    ∃ m, k ≤ m ∧ (r.state (m + 1)).pool.executed = (r.state m).pool.executed ++ [job] := by
  obtain ⟨m, hkm, hsame, hne, hs⟩ := r.exists_change (g := fun s => s.pool.point i) (hw i k)
  rw [hp] at hsame
  refine ⟨m, hkm, ?_⟩
  rcases hs.worker hne with ⟨h, -⟩ | ⟨_, h, -⟩ | ⟨_, _, _, h, -⟩ | ⟨_, _, h, -⟩ | ⟨_, h, -, hexecuted⟩
  all_goals cases hsame.symm.trans h
  exact hexecuted

/-- A worker goes back to its own queue some time. -/
theorem exists_poll (hw : Working r) (i : Fin n) (k : ℕ) : ∃ m, k ≤ m ∧ (r.state m).pool.point i = .poll := by
  refine exists_of_descent (fun m => ((r.state m).pool.point i).distance n) (fun m _ => ?_) le_rfl
  obtain ⟨j, hmj, hsame, hne, hs⟩ := r.exists_change (g := fun s => s.pool.point i) (hw i m)
  rcases hs.worker hne with ⟨h, -⟩ | ⟨start, h, hpoint⟩ | ⟨start, l, workerId, h, hl, hpoint⟩ |
    ⟨start, l, h, hpoint⟩ | ⟨_, h, hpoint, -⟩
  · exact ⟨j, hmj, .inl h⟩
  · refine ⟨j + 1, by omega, .inr ?_⟩
    rw [← hsame, h, hpoint, Function.update_self]
    exact Point.distance_ofDequeue_lt (by simp [Point.distance]) (by simp [Point.distance])
  · refine ⟨j + 1, by omega, .inr ?_⟩
    rw [← hsame, h, hpoint, Function.update_self]
    exact Point.distance_ofDequeue_lt (by simp [Point.distance]) (by simp only [Point.distance]; omega)
  · exact ⟨j + 1, by omega, .inl (by rw [hpoint, Function.update_self])⟩
  · exact ⟨j + 1, by omega, .inl (by rw [hpoint, Function.update_self])⟩

/-- And dequeues from it. -/
theorem exists_own (hw : Working r) (i : Fin n) (k : ℕ) : ∃ m, k ≤ m ∧
    (r.state (m + 1)).pool.jobQueue i = ((r.state m).pool.jobQueue i).dequeue.1 ∧
    (r.state (m + 1)).pool.point i = .ofDequeue .global ((r.state m).pool.jobQueue i).dequeue.2 := by
  obtain ⟨j, hkj, hp⟩ := hw.exists_poll i k
  obtain ⟨m, hjm, hsame, hne, hs⟩ := r.exists_change (g := fun s => s.pool.point i) (hw i j)
  rw [hp] at hsame
  rcases hs.worker hne with ⟨-, hqueue, hpoint⟩ | ⟨_, h, -⟩ | ⟨_, _, _, h, -⟩ | ⟨_, _, h, -⟩ | ⟨_, h, -⟩
  · exact ⟨m, hkj.trans hjm, by rw [hqueue, Function.update_self], by rw [hpoint, Function.update_self]⟩
  all_goals cases hsame.symm.trans h

end Working

/-- Until it is taken, a job in the queue of worker `i` only moves forward. -/
theorem stays_or_taken (r : Run (Init init) (Step c)) {d : ℕ}
    (hd : ((r.state k).pool.jobQueue i).contents[d]? = some job) (hkm : k ≤ m) :
    (∃ e, e ≤ d ∧ ((r.state m).pool.jobQueue i).contents[e]? = some job) ∨
      ∃ l j, k ≤ l ∧ (r.state l).pool.point j = .run job := by
  induction m, hkm using Nat.le_induction with
  | base => exact .inl ⟨d, le_rfl, hd⟩
  | succ m hkm ih =>
    rcases ih with ⟨e, he, hjob⟩ | htaken
    · rcases r.steps m with heq | hs
      · exact .inl ⟨e, he, by rw [heq]; exact hjob⟩
      · rcases hs.stays_or_taken (inv_of_reach (r.reach m)) hjob with ⟨e', he', hjob'⟩ | ⟨j, hj⟩
        · exact .inl ⟨e', he'.trans he, hjob'⟩
        · exact .inr ⟨m + 1, j, by omega, hj⟩
    · exact .inr htaken

/-- A job in a worker's own queue is run some time, by that worker or by one that steals it, whatever
else the program queues, there or elsewhere, and also when no caller of `queue` ever goes on. -/
theorem own_queue_served (r : Run (Init init) (Step c)) (hw : Working r) (k : ℕ) (i : Fin n) (job : Job)
    (hjob : job ∈ ((r.state k).pool.jobQueue i).contents) :
    ∃ m, k ≤ m ∧ (r.state (m + 1)).pool.executed = (r.state m).pool.executed ++ [job] := by
  obtain ⟨d, hd⟩ := List.mem_iff_getElem?.1 hjob
  -- each time around, worker `i` takes the job in front
  induction d using Nat.strong_induction_on generalizing k with
  | _ d ih =>
    obtain ⟨m, hkm, hqueue, hpoint⟩ := hw.exists_own i k
    rcases stays_or_taken r hd hkm with ⟨e, hed, he⟩ | ⟨l, j, hkl, hj⟩
    · obtain ⟨-, ⟨hnil, -⟩ | ⟨head, hdq, hcons⟩⟩ :=
        ((inv_of_reach (r.reach m)).jobQueue i).dequeue
      · rw [hnil] at he
        cases he
      · rw [hcons] at he
        cases e with
        | zero =>
          obtain rfl := Option.some.inj he
          rw [hdq] at hpoint
          obtain ⟨l, hml, hl⟩ := hw.exists_finish hpoint
          exact ⟨l, by omega, hl⟩
        | succ e =>
          have hnext : ((r.state (m + 1)).pool.jobQueue i).contents[e]? = some job := by
            rw [hqueue]
            exact he
          obtain ⟨l, hml, hl⟩ := ih e (by omega) (m + 1) (List.mem_of_getElem? hnext) hnext
          exact ⟨l, by omega, hl⟩
    · obtain ⟨m', hlm, hm'⟩ := hw.exists_finish hj
      exact ⟨m', hkl.trans hlm, hm'⟩

/-! ### Nothing more is offered -/

omit [Inhabited Job] in
theorem length_lt_of_prefix {l l' : List Job} (h : l <+: l') (hne : l' ≠ l) : l.length < l'.length :=
  h.length_le.lt_of_ne fun heq => hne (h.eq_of_length heq).symm

theorem grows_of_le (r : Run (Init init) (Step c)) (hkm : k ≤ m) : Grows (r.state k).pool (r.state m).pool :=
  r.stable (P := fun s => Grows (r.state k).pool s.pool) (fun _ _ _ hs h => h.trans hs.grows) hkm (.refl _)

/-- With nothing more offered, the calls in progress come to an end. -/
theorem exists_inFlight_eq_zero (r : Run (Init init) (Step c)) (hf : Fair r)
    (hoffered : ∀ m, k ≤ m → (r.state m).pool.offered = (r.state k).pool.offered) :
    ∃ m, k ≤ m ∧ ∀ j, m ≤ j → (r.state j).pool.inFlight = 0 := by
  have hcard : ∀ m, k ≤ m → (r.state m).pool.inFlight.card + (r.state m).pool.submitted.length =
      (r.state k).pool.offered.length := by
    intro m hkm
    have hsum := congrArg Multiset.card (inv_of_reach (r.reach m)).offered
    rw [Multiset.card_add, Multiset.coe_card, Multiset.coe_card, hoffered m hkm] at hsum
    exact hsum.symm
  have hdescent : ∃ m, k ≤ m ∧ (r.state m).pool.inFlight = 0 := by
    refine exists_of_descent (fun m => (r.state m).pool.inFlight.card) (fun m hkm => ?_) le_rfl
    by_cases hzero : (r.state m).pool.inFlight = 0
    · exact ⟨m, le_rfl, .inl hzero⟩
    · obtain ⟨j, hmj, hne⟩ := hf.callers m hzero
      have hlt := length_lt_of_prefix (grows_of_le r (Nat.le_add_right j 1)).submitted hne
      have hle := (grows_of_le r hmj).submitted.length_le
      have hm := hcard m hkm
      have hj := hcard (j + 1) (by omega)
      exact ⟨j + 1, by omega, .inr (by omega)⟩
  obtain ⟨m, hkm, hzero⟩ := hdescent
  refine ⟨m, hkm, fun j hmj => Multiset.card_eq_zero.1 ?_⟩
  have hle := (grows_of_le r hmj).submitted.length_le
  have hm := hcard m hkm
  have hj := hcard j (by omega)
  rw [hzero, Multiset.card_zero] at hm
  omega

/-- And with a job left, one is run. -/
theorem exists_executed (r : Run (Init init) (Step c)) (hn : 0 < n) (hf : Fair r)
    (hoffered : ∀ m, k ≤ m → (r.state m).pool.offered = (r.state k).pool.offered)
    (hheld : (r.state k).pool.held ≠ 0) :
    ∃ m, k ≤ m ∧ (r.state (m + 1)).pool.executed ≠ (r.state m).pool.executed := by
  by_contra hnone
  have hexecuted : ∀ m, k ≤ m → (r.state (m + 1)).pool.executed = (r.state m).pool.executed :=
    fun m hkm => not_not.1 fun hne => hnone ⟨m, hkm, hne⟩
  have hstuck : ∀ {m job}, k ≤ m → (r.state (m + 1)).pool.executed ≠ (r.state m).pool.executed ++ [job] := by
    intro m job hkm h
    rw [hexecuted m hkm] at h
    exact List.cons_ne_nil _ _ (List.self_eq_append_right.1 h)
  have hnorun : ∀ m, k ≤ m → ∀ i job, (r.state m).pool.point i ≠ .run job := by
    intro m hkm i job hp
    obtain ⟨j, hmj, hj⟩ := hf.workers.exists_finish hp
    exact hstuck (hkm.trans hmj) hj
  have hempty : ∀ m, k ≤ m → ∀ i, ((r.state m).pool.jobQueue i).contents = [] := by
    intro m hkm i
    refine List.eq_nil_iff_forall_not_mem.2 fun job hjob => ?_
    obtain ⟨j, hmj, hj⟩ := own_queue_served r hf.workers m i job hjob
    exact hstuck (hkm.trans hmj) hj
  obtain ⟨l, hkl, hinFlight⟩ := exists_inFlight_eq_zero r hf hoffered
  -- worker 0 finds nothing in its queue, and then nothing in the global one
  obtain ⟨m, hlm, -, hpoint⟩ := hf.workers.exists_own ⟨0, hn⟩ l
  rw [((inv_of_reach (r.reach m)).jobQueue _).dequeue_of_nil (hempty m (by omega) _)] at hpoint
  obtain ⟨j, hmj, hsame, hne, hs⟩ := r.exists_change (g := fun s => s.pool.point ⟨0, hn⟩)
    (hf.workers ⟨0, hn⟩ (m + 1))
  have hglobal : (r.state j).pool.globalQueue.contents = [] := by
    rcases hs.worker hne with ⟨h, -⟩ | ⟨start, -, hpoint'⟩ | ⟨_, _, _, h, -⟩ | ⟨_, _, h, -⟩ | ⟨_, h, -⟩
    · cases (hsame.trans hpoint).symm.trans h
    · obtain ⟨-, ⟨hnil, -⟩ | ⟨job, hdq, -⟩⟩ := (inv_of_reach (r.reach j)).globalQueue.dequeue
      · exact hnil
      · refine absurd ?_ (hnorun (j + 1) (by omega) ⟨0, hn⟩ job)
        rw [hpoint', Function.update_self, hdq]
        rfl
    all_goals cases (hsame.trans hpoint).symm.trans h
  have hheld_j : (r.state j).pool.held = 0 :=
    WorkerPool.held_eq_zero (hinFlight j (by omega)) hglobal (hempty j (by omega)) (hnorun j (by omega))
  have hk := (inv_of_reach (r.reach k)).offered_eq
  have hj := (inv_of_reach (r.reach j)).offered_eq
  rw [hoffered j (by omega), eq_of_unchanged (f := fun m => (r.state m).pool.executed) hexecuted
    (show k ≤ j by omega), hk, hheld_j] at hj
  exact hheld (add_right_cancel hj)

/-- With nothing more offered, there is no job left some time. -/
theorem exists_held_eq_zero (r : Run (Init init) (Step c)) (hn : 0 < n) (hf : Fair r)
    (hoffered : ∀ m, k ≤ m → (r.state m).pool.offered = (r.state k).pool.offered) :
    ∃ m, k ≤ m ∧ ∀ j, m ≤ j → (r.state j).pool.held = 0 := by
  have hcard : ∀ m, k ≤ m → (r.state m).pool.held.card + (r.state m).pool.executed.length =
      (r.state k).pool.offered.length := by
    intro m hkm
    have hsum := congrArg Multiset.card (inv_of_reach (r.reach m)).offered_eq
    rw [Multiset.card_add, Multiset.coe_card, Multiset.coe_card, hoffered m hkm] at hsum
    exact hsum.symm
  have hdescent : ∃ m, k ≤ m ∧ (r.state m).pool.held = 0 := by
    refine exists_of_descent (fun m => (r.state m).pool.held.card) (fun m hkm => ?_) le_rfl
    by_cases hzero : (r.state m).pool.held = 0
    · exact ⟨m, le_rfl, .inl hzero⟩
    · have hoffered' : ∀ j, m ≤ j → (r.state j).pool.offered = (r.state m).pool.offered :=
        fun j hmj => (hoffered j (hkm.trans hmj)).trans (hoffered m hkm).symm
      obtain ⟨j, hmj, hne⟩ := exists_executed r hn hf hoffered' hzero
      have hlt := length_lt_of_prefix (grows_of_le r (Nat.le_add_right j 1)).executed hne
      have hle := (grows_of_le r hmj).executed.length_le
      have hm := hcard m hkm
      have hj := hcard (j + 1) (by omega)
      exact ⟨j + 1, by omega, .inr (by omega)⟩
  obtain ⟨m, hkm, hzero⟩ := hdescent
  refine ⟨m, hkm, fun j hmj => Multiset.card_eq_zero.1 ?_⟩
  have hle := (grows_of_le r hmj).executed.length_le
  have hm := hcard m hkm
  have hj := hcard j (by omega)
  rw [hzero, Multiset.card_zero] at hm
  omega

/-- When from some moment on nothing more is offered, every job that was is executed, and then, the
workers looking for work, nothing happens to any job. -/
theorem fair_run_drains (r : Run (Init init) (Step c)) (hn : 0 < n) (hf : Fair r) (k : ℕ)
    (hoffered : ∀ m, k ≤ m → (r.state m).pool.offered = (r.state k).pool.offered) :
    ∃ m, k ≤ m ∧ ∀ j, m ≤ j → (r.state j).pool.held = 0 ∧
      ((r.state j).pool.executed : Multiset Job) = (r.state k).pool.offered := by
  obtain ⟨m, hkm, hheld⟩ := exists_held_eq_zero r hn hf hoffered
  refine ⟨m, hkm, fun j hmj => ⟨hheld j hmj, ?_⟩⟩
  have hsum := (inv_of_reach (r.reach j)).offered_eq
  rw [hheld j hmj, zero_add, hoffered j (hkm.trans hmj)] at hsum
  exact hsum.symm

end Fair

/-! ### A fair run -/

/-- A call with a job left goes on, if there is a moment without such calls later. -/
theorem exists_submitted (r : Run (Init init) (Step c)) {j : ℕ} (hmj : m ≤ j)
    (hj : (r.state j).pool.inFlight = 0) (hm : (r.state m).pool.inFlight ≠ 0) :
    ∃ l, m ≤ l ∧ (r.state (l + 1)).pool.submitted ≠ (r.state l).pool.submitted := by
  by_contra hnone
  have hsame : ∀ l, m ≤ l → (r.state (l + 1)).pool.submitted = (r.state l).pool.submitted :=
    fun l hml => not_not.1 fun hne => hnone ⟨l, hml, hne⟩
  have hlast := eq_of_unchanged (f := fun l => (r.state l).pool.submitted) hsame hmj
  have hle := (grows_of_le r hmj).offered.length_le
  have hsum := congrArg Multiset.card (inv_of_reach (r.reach m)).offered
  have hsum' := congrArg Multiset.card (inv_of_reach (r.reach j)).offered
  rw [Multiset.card_add, Multiset.coe_card, Multiset.coe_card] at hsum hsum'
  rw [hj, Multiset.card_zero] at hsum'
  change (r.state j).pool.submitted = _ at hlast
  rw [hlast] at hsum'
  exact hm (Multiset.card_eq_zero.1 (by omega))

/-- A run of one worker is fair if in the end there are no more jobs and the worker goes on. -/
theorem Fair.of_solo {c : Client 1 State Job} {r : Run (Init init) (Step c)} {g q : JobQueue Job}
    {offered executed : List Job} {point : ℕ → Point Job}
    (h : ∀ j, (r.state (k + j)).pool = .solo g q (point j) offered executed)
    (hpoint : ∀ j, ∃ m, j ≤ m ∧ point (m + 1) ≠ point m) : Fair r where
  workers i m := by
    obtain ⟨j, hmj, hne⟩ := hpoint m
    refine ⟨k + j, by omega, ?_⟩
    rw [h j, Nat.add_assoc, h (j + 1)]
    exact hne
  callers m hm := exists_submitted r (show m ≤ k + m by omega) (by rw [h m]; rfl) hm

theorem Fair.of_idle {c : Client 1 State Job} {r : Run (Init init) (Step c)} {g q : JobQueue Job}
    {offered executed : List Job}
    (h : ∀ j, (r.state (k + j)).pool = .solo g q (WorkerPool.idlePoint j) offered executed) : Fair r :=
  .of_solo h fun j => ⟨j, le_rfl, WorkerPool.idlePoint_succ_ne j⟩

/-- A job that is queued from outside the pool gets to an idle worker. -/
theorem reach_run_job {c : Client 1 State Job} {start : Pooled 1 State Job → Prop} {state : State}
    {g q : JobQueue Job} {offered executed : List Job} (hg : g.Inv) (hgnil : g.contents = []) (hq : q.Inv)
    (hqnil : q.contents = [])
    (h : Reach start (Step c)
      ⟨state, (WorkerPool.solo g q .poll offered executed).call [(Context.empty, [job])]⟩) :
    ∃ g' : JobQueue Job, g'.Inv ∧ g'.contents = [] ∧
      Reach start (Step c) ⟨state, .solo g' q (.run job) (offered ++ [job]) executed⟩ := by
  obtain ⟨g₁, hg₁, hinv, hcons⟩ := hg.enqueue job
  rw [hgnil, List.nil_append] at hcons
  have henqueue := h.next (.pool (@WorkerPool.Step.enqueueGlobal _ _ _ _ _ _ _ [] [] _ rfl rfl hg₁) rfl rfl)
  have hreturn := henqueue.next
    (.pool (@WorkerPool.Step.queueReturns _ _ _ _ Context.empty [] [] rfl) rfl rfl)
  have hqueued : Reach start (Step c) ⟨state, .solo g₁ q .poll (offered ++ [job]) executed⟩ := by
    simpa [offers, WorkerPool.call, WorkerPool.solo] using hreturn
  have hown := hqueued.next (.pool (WorkerPool.solo_own hq hqnil _ _) rfl rfl)
  exact ⟨_, hinv.dequeue.1, (hinv.dequeue_of_cons hcons).2,
    hown.next (.pool (WorkerPool.solo_global_some hinv hcons _ _) rfl rfl)⟩

/-- A program with one job, for the only worker. -/
def sevenClient : Client 1 Unit ℕ where
  step _ calls _ := calls = [(⟨some 0⟩, [7])]
  run _ _ _ calls _ := calls = []
  callable_of_step := by
    rintro _ _ _ rfl call hcall i hi
    rw [List.mem_singleton.1 hcall] at hi
    cases hi
    exact Nat.one_pos
  callable_of_run := by
    rintro _ _ _ _ _ rfl call hcall
    cases hcall

theorem exists_seven_run : ∃ (r : Run (Init fun _ => True) (Step sevenClient)) (k : ℕ), Fair r ∧
    ((r.state k).pool.jobQueue 0).contents = [7] ∧
      ∀ m, k ≤ m → (r.state m).pool.offered = (r.state k).pool.offered := by
  let w : WorkerPool 1 ℕ := .solo (.init 1024) (.init 1024) .poll [] []
  have hinit : (JobQueue.init 1024 : JobQueue ℕ).Inv := .init (by decide)
  obtain ⟨q, hq, hqinv, hcons⟩ := hinit.enqueue 7
  rw [JobQueue.init_contents, List.nil_append] at hcons
  have hrest := (hqinv.dequeue_of_cons hcons).2
  have hstart : Reach (Init fun _ => True) (Step sevenClient) ⟨(), w⟩ := .start ⟨trivial, rfl⟩
  have hcall : Reach (Init fun _ => True) (Step sevenClient) ⟨(), w.call [(⟨some 0⟩, [7])]⟩ :=
    hstart.next (.step rfl)
  have henqueue := hcall.next (.pool (@WorkerPool.Step.enqueueWorker _ _ _ _ _ _ _ [] [] _ 0 rfl rfl hq)
    rfl rfl)
  simp only [Function.update_eq_const_of_subsingleton] at henqueue
  have hreturn : Reach (Init fun _ => True) (Step sevenClient) ⟨(), .solo (.init 1024) q .poll [7] []⟩ :=
    henqueue.next (.pool (@WorkerPool.Step.queueReturns _ _ _ _ ⟨some 0⟩ [] [] rfl) rfl rfl)
  -- the worker takes the job, runs it, and looks for more
  let idle : ℕ → Pooled 1 Unit ℕ := fun k =>
    ⟨(), .solo (.init 1024) q.dequeue.1 (WorkerPool.idlePoint k) [7] [7]⟩
  have hrun : Step sevenClient ⟨(), .solo (.init 1024) q.dequeue.1 (.run 7) [7] []⟩
      ⟨(), ((WorkerPool.solo (.init 1024) q.dequeue.1 (.run 7) [7] []).finish 0 7).call []⟩ := .run 0 rfl rfl
  rw [WorkerPool.solo_finish] at hrun
  obtain ⟨r, k, hr⟩ := Run.extend hreturn (cons _ (cons _ idle)) rfl <| cons_steps
    (.pool (WorkerPool.solo_own_some hqinv hcons [7] []) rfl rfl) <| cons_steps hrun fun k =>
      .pool (WorkerPool.solo_idle hinit (JobQueue.init_contents 1024) hqinv.dequeue.1 hrest [7] [7] k) rfl rfl
  have hfirst : r.state k = _ := hr 0
  have hidle : ∀ j, r.state (k + 2 + j) = idle j := by
    intro j
    rw [Nat.add_assoc, hr, Nat.add_comm 2]
    rfl
  refine ⟨r, k, .of_idle fun j => by rw [hidle], ?_, fun m hkm => ?_⟩
  · rw [hfirst]
    exact hcons
  · obtain ⟨j, rfl⟩ := Nat.exists_eq_add_of_le hkm
    rw [hr, hfirst]
    rcases j with _ | _ | j
    all_goals rfl

theorem own_queue_served_seven : ∃ (r : Run (Init fun _ => True) (Step sevenClient)) (m : ℕ),
    (r.state (m + 1)).pool.executed = (r.state m).pool.executed ++ [7] := by
  obtain ⟨r, k, hf, hqueue, -⟩ := exists_seven_run
  obtain ⟨m, -, hm⟩ := own_queue_served r hf.workers k 0 7 (by rw [hqueue]; exact List.mem_singleton_self 7)
  exact ⟨r, m, hm⟩

theorem fair_run_drains_seven : ∃ (r : Run (Init fun _ => True) (Step sevenClient)) (m : ℕ),
    (r.state m).pool.held = 0 := by
  obtain ⟨r, k, hf, -, hoffered⟩ := exists_seven_run
  obtain ⟨m, -, hm⟩ := fair_run_drains r Nat.one_pos hf k hoffered
  exact ⟨r, m, (hm m le_rfl).1⟩

end Pooled
end AsyncEry.Scheduler
