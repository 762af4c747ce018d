import AsyncEry.PoolProgress

/-!
# A pool with work, and one without

A job that the pool holds can always be brought to a worker, wherever the workers stand
(`WorkerPool.exists_run`). And a pool that holds no job can go on for ever, its workers looking for work
in turn, which is a fair run (`Pooled.exists_fair`). So the fairness that the results on the pool ask for
can be had from every state in which the work is done.
-/

namespace AsyncEry.Scheduler
open Lts Relation

/-- Where a worker goes that has found nothing; `start` is where it will begin to steal. -/
def Point.onward {Job : Type} (n start : ℕ) : Point Job → Point Job
  | .poll => .global
  | .global => .scan start 0
  | .scan first k => if k < n then .scan first (k + 1) else .poll
  | .run job => .run job

theorem Point.onward_ne_run {Job : Type} {n start : ℕ} {p : Point Job} (hp : ∀ job, p ≠ .run job) (job : Job) :
    p.onward n start ≠ .run job := by
  cases p with
  | run job' => exact absurd rfl (hp job')
  | scan first k =>
    rw [onward]
    split_ifs <;> nofun
  | _ => nofun

/-- How far a worker that finds nothing is from the global queue. -/
def Point.toGlobal {Job : Type} (n : ℕ) : Point Job → ℕ
  | .global | .run _ => 0
  | .poll => 1
  | .scan _ k => n - k + 2

theorem Point.toGlobal_onward_lt {Job : Type} {n start : ℕ} {p : Point Job} (hp : ∀ job, p ≠ .run job)
    (hg : p ≠ .global) : (p.onward n start).toGlobal n < p.toGlobal n := by
  cases p with
  | poll => exact Nat.one_pos
  | global => exact absurd rfl hg
  | run job => exact absurd rfl (hp job)
  | scan first k =>
    rw [onward]
    split_ifs
    all_goals
      simp only [toGlobal]
      omega

namespace WorkerPool

variable {n : ℕ} {Job : Type} {s s' : WorkerPool n Job} {i : Fin n} {start : ℕ}

/-- Worker `i` has found nothing. -/
def turn (s : WorkerPool n Job) (i : Fin n) (start : ℕ) : WorkerPool n Job :=
  { s with point := Function.update s.point i ((s.point i).onward n start) }

theorem turn_point (s : WorkerPool n Job) (i : Fin n) (start : ℕ) :
    (s.turn i start).point i = (s.point i).onward n start :=
  Function.update_self ..

variable [Inhabited Job]

/-- A step that moves jobs through the queues. -/
structure Quiet (s s' : WorkerPool n Job) : Prop where
  step : Step s s'
  offered : s'.offered = s.offered
  executed : s'.executed = s.executed

/-- The jobs in the queue that worker `i` looks at next. -/
def seen (s : WorkerPool n Job) (i : Fin n) : List Job :=
  match s.point i with
  | .poll => (s.jobQueue i).contents
  | .global => s.globalQueue.contents
  | .scan first k => if k < n then (s.jobQueue ⟨(first + k) % n, Nat.mod_lt _ i.pos⟩).contents else []
  | .run _ => []

theorem Quiet.inv (hs : Quiet s s') (h : s.Inv) : s'.Inv := hs.step.inv h

theorem Quiet.held (hs : Quiet s s') (h : s.Inv) : s'.held = s.held := by
  have hafter := (hs.inv h).offered_eq
  rw [hs.offered, hs.executed, h.offered_eq] at hafter
  exact (add_right_cancel hafter).symm

/-- What a worker does at an empty queue. -/
theorem Inv.turn (h : s.Inv) (hidle : ∀ job, s.point i ≠ .run job) (hseen : s.seen i = [])
    (hstart : start < n) : Quiet s (s.turn i start) := by
  refine ⟨?_, rfl, rfl⟩
  unfold WorkerPool.turn
  cases hp : s.point i with
  | run job => exact absurd hp (hidle job)
  | poll =>
    have hnil : (s.jobQueue i).contents = [] := by
      rw [seen, hp] at hseen
      exact hseen
    have hstep := Step.own i hp
    rw [(h.jobQueue i).dequeue_of_nil hnil, Function.update_eq_self] at hstep
    exact hstep
  | global =>
    have hnil : s.globalQueue.contents = [] := by
      rw [seen, hp] at hseen
      exact hseen
    have hstep := Step.global i start hstart hp
    rw [h.globalQueue.dequeue_of_nil hnil] at hstep
    exact hstep
  | scan first k =>
    by_cases hk : k < n
    · have hnil : (s.jobQueue ⟨(first + k) % n, Nat.mod_lt _ i.pos⟩).contents = [] := by
        rw [seen, hp] at hseen
        exact (if_pos hk).symm.trans hseen
      have hstep := Step.steal i ⟨(first + k) % n, Nat.mod_lt _ i.pos⟩ hp hk rfl
      rw [(h.jobQueue _).dequeue_of_nil hnil, Function.update_eq_self] at hstep
      rw [Point.onward, if_pos hk]
      exact hstep
    · have hstep := Step.nothingFound i hp hk
      rw [Point.onward, if_neg hk]
      exact hstep

/-- And at one that has a job. -/
theorem Inv.exists_found (h : s.Inv) (hseen : s.seen i ≠ []) (hstart : start < n) :
    ∃ s', Quiet s s' ∧ ∃ job, s'.point i = .run job := by
  cases hp : s.point i with
  | run job =>
    rw [seen, hp] at hseen
    exact absurd rfl hseen
  | poll =>
    obtain ⟨job, jobs, hcons⟩ : ∃ job jobs, (s.jobQueue i).contents = job :: jobs := by
      rw [seen, hp] at hseen
      exact List.exists_cons_of_ne_nil hseen
    refine ⟨_, ⟨.own i hp, rfl, rfl⟩, job, (Function.update_self ..).trans ?_⟩
    rw [((h.jobQueue i).dequeue_of_cons hcons).1]
    rfl
  | global =>
    obtain ⟨job, jobs, hcons⟩ : ∃ job jobs, s.globalQueue.contents = job :: jobs := by
      rw [seen, hp] at hseen
      exact List.exists_cons_of_ne_nil hseen
    refine ⟨_, ⟨.global i start hstart hp, rfl, rfl⟩, job, (Function.update_self ..).trans ?_⟩
    rw [(h.globalQueue.dequeue_of_cons hcons).1]
    rfl
  | scan first k =>
    rw [seen, hp] at hseen
    by_cases hk : k < n
    · obtain ⟨job, jobs, hcons⟩ := List.exists_cons_of_ne_nil
        (show (s.jobQueue ⟨(first + k) % n, Nat.mod_lt _ i.pos⟩).contents ≠ [] from
          fun hnil => hseen ((if_pos hk).trans hnil))
      refine ⟨_, ⟨.steal i ⟨(first + k) % n, Nat.mod_lt _ i.pos⟩ hp hk rfl, rfl, rfl⟩, job,
        (Function.update_self ..).trans ?_⟩
      rw [((h.jobQueue _).dequeue_of_cons hcons).1]
      rfl
    · exact absurd (if_neg hk) hseen

/-! ### With work -/

theorem inv_of_quiet (h : s.Inv) (hs : ReflTransGen Quiet s s') : s'.Inv ∧ s'.held = s.held := by
  induction hs with
  | refl => exact ⟨h, rfl⟩
  | tail _ hs ih => exact ⟨hs.inv ih.1, (hs.held ih.1).trans ih.2⟩

/-- Some worker has got a job. -/
def Runs (s : WorkerPool n Job) : Prop := ∃ i job, s.point i = .run job

/-- A worker that finds nothing comes to the global queue. -/
theorem Inv.exists_global (h : s.Inv) (i : Fin n) : ∃ s' : WorkerPool n Job, ReflTransGen Quiet s s' ∧
    (s'.Runs ∨ s' = { s with point := Function.update s.point i Point.global }) := by
  induction hd : (s.point i).toGlobal n using Nat.strong_induction_on generalizing s with
  | _ d ih =>
    by_cases hidle : ∀ job, s.point i ≠ .run job
    · by_cases hg : s.point i = .global
      · exact ⟨s, .refl, .inr (by rw [← hg, Function.update_eq_self])⟩
      · by_cases hseen : s.seen i = []
        · have hs := h.turn hidle hseen i.pos
          have hlt : ((s.turn i 0).point i).toGlobal n < d := by
            rw [← hd, turn_point]
            exact Point.toGlobal_onward_lt hidle hg
          obtain ⟨s', hs', hruns | heq⟩ := ih _ hlt (hs.inv h) rfl
          · exact ⟨s', .head hs hs', .inl hruns⟩
          · refine ⟨s', .head hs hs', .inr ?_⟩
            rw [heq, WorkerPool.turn, Function.update_idem]
        · obtain ⟨s', hs, hjob⟩ := h.exists_found hseen i.pos
          exact ⟨s', .single hs, .inl ⟨i, hjob⟩⟩
    · push Not at hidle
      exact ⟨s, .refl, .inl ⟨i, hidle⟩⟩

/-- A worker at the global queue finds a job there, or steals one from `victim`. -/
theorem Inv.exists_found_or_stolen (h : s.Inv) {victim : Fin n} (hp : s.point i = .global)
    (hjobs : s.globalQueue.contents ≠ [] ∨ (s.jobQueue victim).contents ≠ []) :
    ∃ s', ReflTransGen Quiet s s' ∧ s'.Runs := by
  by_cases hglobal : s.globalQueue.contents = []
  · have hseen : s.seen i = [] := by rw [seen, hp]; exact hglobal
    have hs : Quiet s (s.turn i victim) := h.turn (by rw [hp]; nofun) hseen victim.isLt
    have hscan : (s.turn i victim).point i = .scan victim 0 := by
      rw [turn_point, hp]
      rfl
    have hstolen : (s.turn i victim).seen i ≠ [] := by
      rw [seen, hscan]
      have hv : (⟨(victim + 0) % n, Nat.mod_lt _ i.pos⟩ : Fin n) = victim :=
        Fin.ext (Nat.mod_eq_of_lt victim.isLt)
      show (if 0 < n then (s.jobQueue ⟨(victim + 0) % n, _⟩).contents else []) ≠ []
      rw [if_pos i.pos, hv]
      exact hjobs.resolve_left (not_not.2 hglobal)
    obtain ⟨s', hs', hjob⟩ := (hs.inv h).exists_found hstolen i.pos
    exact ⟨s', .head hs (.single hs'), i, hjob⟩
  · obtain ⟨s', hs, hjob⟩ := h.exists_found (i := i) (by rw [seen, hp]; exact hglobal) i.pos
    exact ⟨s', .single hs, i, hjob⟩

/-- A call of `queue` that has a job left enqueues it. -/
theorem exists_enqueue (h : s.Inv) (hcalls : Callable n s.calls) (hinFlight : s.inFlight ≠ 0) :
    ∃ s', Quiet s s' ∧ Callable n s'.calls ∧ s'.inFlight.card < s.inFlight.card := by
  obtain ⟨job₀, hjob₀⟩ := Multiset.exists_mem_of_ne_zero hinFlight
  obtain ⟨⟨ctx, jobs₀⟩, hcall, hmem⟩ := List.mem_flatMap.1 (Multiset.mem_coe.1 hjob₀)
  obtain ⟨job, jobs, rfl⟩ := List.exists_cons_of_ne_nil (List.ne_nil_of_mem hmem)
  obtain ⟨cs, cs', hcs⟩ := List.append_of_mem hcall
  have hcallable : Callable n (cs ++ (ctx, jobs) :: cs') := by
    intro call hc
    rw [hcs] at hcalls
    rcases List.mem_append.1 hc with hc | hc
    · exact hcalls call (List.mem_append_left _ hc)
    · rcases List.mem_cons.1 hc with rfl | hc
      · exact hcalls (ctx, job :: jobs) (List.mem_append_right _ (List.mem_cons_self ..))
      · exact hcalls call (List.mem_append_right _ (List.mem_cons_of_mem _ hc))
  have hlt : ((cs ++ (ctx, jobs) :: cs').flatMap Prod.snd).length < (s.calls.flatMap Prod.snd).length := by
    rw [hcs]
    simp
  cases hctx : ctx.workerId with
  | none =>
    obtain ⟨q', hq', -⟩ := h.globalQueue.enqueue job
    exact ⟨_, ⟨.enqueueGlobal hcs hctx hq', rfl, rfl⟩, hcallable, hlt⟩
  | some w =>
    have hw : w < n := hcalls _ hcall w hctx
    obtain ⟨q', hq', -⟩ := (h.jobQueue ⟨w, hw⟩).enqueue job
    exact ⟨_, ⟨.enqueueWorker ⟨w, hw⟩ hcs hctx hq', rfl, rfl⟩, hcallable, hlt⟩

/-- If the pool holds a job, some worker can get one. -/
theorem Inv.exists_run (h : s.Inv) (hn : 0 < n) (hcalls : Callable n s.calls) (hheld : s.held ≠ 0) :
    ∃ s', ReflTransGen Quiet s s' ∧ s'.Runs := by
  induction hd : s.inFlight.card using Nat.strong_induction_on generalizing s with
  | _ d ih =>
    by_cases hinFlight : s.inFlight = 0
    · obtain ⟨s₁, hs₁, hruns | heq⟩ := h.exists_global ⟨0, hn⟩
      · exact ⟨s₁, hs₁, hruns⟩
      · by_cases hruns : s.Runs
        · exact ⟨s, .refl, hruns⟩
        · obtain ⟨victim, hjobs⟩ : ∃ victim : Fin n,
              s.globalQueue.contents ≠ [] ∨ (s.jobQueue victim).contents ≠ [] := by
            by_contra hnone
            push Not at hnone
            exact hheld (held_eq_zero hinFlight (hnone ⟨0, hn⟩).1 (fun w => (hnone w).2)
              fun j job hp => hruns ⟨j, job, hp⟩)
          have hp₁ : s₁.point ⟨0, hn⟩ = .global := by
            rw [heq]
            exact Function.update_self (⟨0, hn⟩ : Fin n) _ s.point
          have hjobs₁ : s₁.globalQueue.contents ≠ [] ∨ (s₁.jobQueue victim).contents ≠ [] := by
            rw [heq]
            exact hjobs
          obtain ⟨s₂, hs₂, hfound⟩ := (inv_of_quiet h hs₁).1.exists_found_or_stolen hp₁ hjobs₁
          exact ⟨s₂, hs₁.trans hs₂, hfound⟩
    · obtain ⟨s₁, hs₁, hcalls₁, hlt⟩ := exists_enqueue h hcalls hinFlight
      obtain ⟨s₂, hs₂, hruns⟩ := ih _ (hd ▸ hlt) (hs₁.inv h) hcalls₁ (by rw [hs₁.held h]; exact hheld) rfl
      exact ⟨s₂, .head hs₁ hs₂, hruns⟩

/-! ### Without work -/

/-- The queues are empty, and no worker has a job. -/
structure Drained (s : WorkerPool n Job) : Prop where
  inv : s.Inv
  globalQueue : s.globalQueue.contents = []
  jobQueue : ∀ i, (s.jobQueue i).contents = []
  idle : ∀ i job, s.point i ≠ .run job

namespace Drained

theorem seen_eq_nil (h : s.Drained) (i : Fin n) : s.seen i = [] := by
  unfold seen
  cases hp : s.point i with
  | poll => exact h.jobQueue i
  | global => exact h.globalQueue
  | run job => rfl
  | scan first k =>
    dsimp only
    split_ifs
    · exact h.jobQueue _
    · rfl

theorem quiet (h : s.Drained) (i : Fin n) : Quiet s (s.turn i 0) :=
  h.inv.turn (h.idle i) (h.seen_eq_nil i) i.pos

theorem turn (h : s.Drained) (i : Fin n) : (s.turn i 0).Drained := by
  refine ⟨(h.quiet i).inv h.inv, h.globalQueue, h.jobQueue, fun j job => ?_⟩
  show Function.update s.point i _ j ≠ _
  by_cases hj : j = i
  · rw [hj, Function.update_self]
    exact Point.onward_ne_run (h.idle i) job
  · rw [Function.update_of_ne hj]
    exact h.idle j job

end Drained

/-- The workers take turns. -/
def turns (hn : 0 < n) (s : WorkerPool n Job) : ℕ → WorkerPool n Job
  | 0 => s
  | k + 1 => (turns hn s k).turn ⟨k % n, Nat.mod_lt k hn⟩ 0

theorem Drained.turns (h : s.Drained) (hn : 0 < n) (k : ℕ) : (turns hn s k).Drained := by
  induction k with
  | zero => exact h
  | succ k ih => exact ih.turn _

end WorkerPool

namespace Pooled
open WorkerPool

variable {n : ℕ} {State Job : Type} [Inhabited Job] {c : Client n State Job} {init : State → Prop}
  {s : Pooled n State Job} {pool : WorkerPool n Job}

theorem callable_of_reach (h : Reach (Init init) (Step c) s) : Callable n s.pool.calls := by
  refine Inductive.reach (P := fun s => Callable n s.pool.calls) ⟨fun s h => ?_, fun s s' h hs => ?_⟩ h
  · rw [h.2]
    nofun
  · cases hs with
    | step hc => exact List.forall_mem_append.2 ⟨h, c.callable_of_step hc⟩
    | run i hp hc => exact List.forall_mem_append.2 ⟨h, c.callable_of_run hc⟩
    | pool hpool =>
      cases hpool with
      | queue ctx jobs hctx =>
        refine List.forall_mem_append.2 ⟨h, fun call hcall => ?_⟩
        rw [List.mem_singleton.1 hcall]
        exact hctx
      | enqueueGlobal hcs hctx | enqueueWorker i hcs hctx =>
        rw [hcs] at h
        obtain ⟨hcs, hrest⟩ := List.forall_mem_append.1 h
        obtain ⟨hcall, hcs'⟩ := List.forall_mem_cons.1 hrest
        exact List.forall_mem_append.2 ⟨hcs, List.forall_mem_cons.2 ⟨hcall, hcs'⟩⟩
      | queueReturns hcs =>
        rw [hcs] at h
        obtain ⟨hcs, hrest⟩ := List.forall_mem_append.1 h
        exact List.forall_mem_append.2 ⟨hcs, (List.forall_mem_cons.1 hrest).2⟩
      | own | global | steal | nothingFound | finish => exact h

theorem Step.of_quiet {state : State} {w w' : WorkerPool n Job} (hs : Quiet w w') :
    Step c ⟨state, w⟩ ⟨state, w'⟩ :=
  .pool hs.step hs.offered hs.executed

/-- A job that the pool holds can be brought to a worker. -/
theorem exists_run (h : Reach (Init init) (Step c) s) (hn : 0 < n) (hheld : s.pool.held ≠ 0) :
    ∃ pool, ReflTransGen (Step c) s ⟨s.state, pool⟩ ∧ pool.held = s.pool.held ∧ pool.Runs := by
  obtain ⟨pool, hpool, hruns⟩ := (inv_of_reach h).exists_run hn (callable_of_reach h) hheld
  refine ⟨pool, ?_, (inv_of_quiet (inv_of_reach h) hpool).2, hruns⟩
  exact hpool.lift (fun w => (⟨s.state, w⟩ : Pooled n State Job)) fun _ _ => .of_quiet

end Pooled
end AsyncEry.Scheduler
