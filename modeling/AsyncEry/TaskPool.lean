import AsyncEry.PooledJobs
import AsyncEry.TaskEval

/-!
# Task programs on the worker pool

`Machine` keeps its pending jobs in a bag and runs any of them. The library hands them to `queue`, under
the contexts that the cells give them, and the pool moves them through its queues: `taskClient` makes
`Machine` a client of the pool. As the pool implements a bag, the machine on the pool is an instance of
the machine by itself (`machine_of_pooled`), and tasks mean there what they mean here.
-/

namespace AsyncEry.Cell.Heap
open Scheduler

variable {T Err Cb : Type} {h : Heap T Err Cb} {q : Queued T Err Cb}

/-! ### The contexts that cells queue under -/

theorem ctx_awaitFrom {n c : ℕ} {callback : Cb} (hq : q ∈ (h.awaitFrom n c callback).2) :
    q.ctx = Context.empty := by
  induction n generalizing c with
  | zero => cases hq
  | succ n ih =>
    unfold awaitFrom at hq
    cases hc : h.cells c with
    | writeOnce w =>
      rw [hc] at hq
      cases hw : w.value with
      | some result =>
        simp only [WriteOnceCell.await_of_some hw] at hq
        rw [List.mem_singleton.1 hq]
      | none =>
        simp only [WriteOnceCell.await_of_none hw] at hq
        cases hq
    | tracking t =>
      rw [hc] at hq
      dsimp only at hq
      cases ht : t.cell with
      | none => rw [ht] at hq; cases hq
      | some d => rw [ht] at hq; exact ih hq

theorem ctx_awaitAll {d : ℕ} {callbacks : List Cb} (hq : q ∈ (h.awaitAll d callbacks).2) :
    q.ctx = Context.empty := by
  induction callbacks generalizing h with
  | nil => cases hq
  | cons callback callbacks ih =>
    rcases List.mem_append.1 hq with hq | hq
    · exact ctx_awaitFrom hq
    · exact ih hq

theorem ctx_track {c d : ℕ} (hq : q ∈ (h.track c d).2.1) : q.ctx = Context.empty := by
  unfold track at hq
  cases hc : h.cells c with
  | writeOnce w => rw [hc] at hq; cases hq
  | tracking t =>
    rw [hc] at hq
    dsimp only at hq
    split at hq
    · cases hq
    · exact ctx_awaitAll hq

theorem ctx_writeResult {c : ℕ} {ctx : Context} {result : Result T Err}
    (hq : q ∈ (h.writeResult c ctx result).2.1) : q.ctx = ctx := by
  cases ht : h.isTracking c with
  | true => rw [writeResult_of_isTracking ht] at hq; cases hq
  | false =>
    cases hv : h.value c with
    | some r => rw [writeResult_of_some (by rw [hv]; rfl)] at hq; cases hq
    | none =>
      obtain ⟨-, -, -, -, -, hjobs⟩ := writeResult_of_none ctx result ht hv
      rw [hjobs] at hq
      obtain ⟨callback, -, rfl⟩ := List.mem_map.1 hq
      rfl

end AsyncEry.Cell.Heap

namespace AsyncEry.Async
open Cell Scheduler Lts

variable {S V E : Type}

/-- The context that the job is queued under. -/
def Job.context : Job S V E → Context
  | .task _ _ => Context.empty
  | .callback q => q.ctx

/-- One call of `queue` for each of the jobs. -/
def Calls (jobs : Multiset (Job S V E)) (calls : List (Context × List (Job S V E))) : Prop :=
  ∃ l : List (Job S V E), (l : Multiset (Job S V E)) = jobs ∧ calls = l.map fun j => (j.context, [j])

namespace Machine

variable {n : ℕ} {σ : S → Result V E} {s s' : Machine S V E} {ctx : Context} {c d : ℕ}

/-- The contexts of the pending jobs name workers of a pool of `n`. -/
def InRange (n : ℕ) (s : Machine S V E) : Prop := ∀ j ∈ s.jobs, ∀ i, j.context.workerId = some i → i < n

theorem inRange_of_zero (s : Machine S V E) : InRange n { s with jobs := 0 } :=
  fun j hj => absurd hj (Multiset.notMem_zero j)

theorem InRange.callable (h : s.InRange n) {calls : List (Context × List (Job S V E))}
    (hcalls : Calls s.jobs calls) : Callable n calls := by
  obtain ⟨l, hl, rfl⟩ := hcalls
  intro call hcall
  obtain ⟨j, hj, rfl⟩ := List.mem_map.1 hcall
  exact h j (hl ▸ Multiset.mem_coe.2 hj)

theorem InRange.queue (h : s.InRange n) {jobs : List (Queued V E (Callback S V))}
    (hjobs : ∀ q ∈ jobs, ∀ i, q.ctx.workerId = some i → i < n) : (s.queue jobs).InRange n := by
  intro j hj
  rcases Multiset.mem_add.1 hj with hj | hj
  · exact h j hj
  · obtain ⟨q, hq, rfl⟩ := List.mem_map.1 (Multiset.mem_coe.1 hj)
    exact hjobs q hq

theorem InRange.await (h : s.InRange n) (c : ℕ) (callback : Callback S V) :
    (s.await c callback).InRange n := by
  refine InRange.queue (s := { s with heap := _ }) h fun q hq i hi => ?_
  rw [Heap.ctx_awaitFrom hq] at hi
  cases hi

theorem InRange.track (h : s.InRange n) (c d : ℕ) : (s.track c d).InRange n := by
  refine InRange.queue (s := { s with heap := _ }) h fun q hq i hi => ?_
  rw [Heap.ctx_track hq] at hi
  cases hi

theorem InRange.write (h : s.InRange n) (hctx : ∀ i, ctx.workerId = some i → i < n) (c : ℕ)
    (result : Result V E) : (s.write c ctx result).InRange n := by
  refine InRange.queue (s := { s with heap := _ }) h fun q hq => ?_
  rw [Heap.ctx_writeResult hq]
  exact hctx

theorem InRange.runFrame (h : s.InRange n) (f : Frame S V) : (s.runFrame f).InRange n := by
  obtain ⟨m, env, prog, trackingCell⟩ := f
  cases prog with
  | ret x =>
    cases trackingCell with
    | none => exact h
    | some c => exact h.track c (env x)
  | source src rest => exact h
  | task func rest =>
    intro j hj
    rcases Multiset.mem_cons.1 hj with rfl | hj
    · exact nofun
    · exact h j hj
  | map x func rest =>
    exact InRange.await (s := (s.alloc (.writeOnce .init)).record (.map s.heap.size (env x) func)) h _ _
  | bind x func rest =>
    exact InRange.await (s := ((s.alloc (.tracking .init)).alloc (.writeOnce .init)).record
      (.bind s.heap.size (env x) (s.heap.size + 1) env func)) h _ _

theorem InRange.runJob (h : s.InRange n) (hctx : ∀ i, ctx.workerId = some i → i < n) (j : Job S V E) :
    (s.runJob ctx j).InRange n := by
  cases j with
  | task c func => exact h.write hctx _ _
  | callback q =>
    obtain ⟨ctx', callback, result⟩ := q
    cases callback with
    | map c func =>
      cases result with
      | value v => exact InRange.write (s := s.call c) h hctx _ _
      | error e => exact h.write hctx _ _
    | bind c errorCell env func =>
      cases result with
      | value v => exact h
      | error e => exact h.write hctx errorCell _

/-! ### A program and the jobs of others -/

/-- The machine with more jobs pending. -/
def addJobs (s : Machine S V E) (jobs : Multiset (Job S V E)) : Machine S V E :=
  { s with jobs := s.jobs + jobs }

section addJobs
variable (s) (jobs : Multiset (Job S V E))

theorem queue_addJobs (new : List (Queued V E (Callback S V))) :
    (s.addJobs jobs).queue new = (s.queue new).addJobs jobs := by
  unfold queue addJobs
  dsimp only
  rw [add_right_comm]

theorem await_addJobs (c : ℕ) (callback : Callback S V) :
    (s.addJobs jobs).await c callback = (s.await c callback).addJobs jobs :=
  queue_addJobs { s with heap := _ } jobs _

theorem track_addJobs (c d : ℕ) : (s.addJobs jobs).track c d = (s.track c d).addJobs jobs :=
  queue_addJobs { s with heap := _ } jobs _

theorem write_addJobs (c : ℕ) (ctx : Context) (result : Result V E) :
    (s.addJobs jobs).write c ctx result = (s.write c ctx result).addJobs jobs :=
  queue_addJobs { s with heap := _ } jobs _

theorem runFrame_addJobs (f : Frame S V) : (s.addJobs jobs).runFrame f = (s.runFrame f).addJobs jobs := by
  obtain ⟨m, env, prog, trackingCell⟩ := f
  cases prog with
  | ret x =>
    cases trackingCell with
    | none => rfl
    | some c => exact track_addJobs s jobs c (env x)
  | source src rest => rfl
  | task func rest =>
    unfold runFrame addJobs
    dsimp only [alloc, record, enter]
    rw [Multiset.cons_add]
  | map x func rest =>
    exact congrArg (enter · _) (await_addJobs ((s.alloc (.writeOnce .init)).record
      (.map s.heap.size (env x) func)) jobs _ _)
  | bind x func rest =>
    exact congrArg (enter · _) (await_addJobs (((s.alloc (.tracking .init)).alloc
      (.writeOnce .init)).record (.bind s.heap.size (env x) (s.heap.size + 1) env func)) jobs _ _)

end addJobs

/-! ### The client -/

/-- The main program or a function given to `bind` takes a step, or a source is completed under the
context of a worker or under none. -/
inductive Moves (n : ℕ) (σ : S → Result V E) : Machine S V E → Machine S V E → Prop
  | frame {s f frames} (h : s.frames = f ::ₘ frames) : Moves n σ s ({ s with frames := frames }.runFrame f)
  | complete {s c src} (ctx : Context) (hctx : ∀ i, ctx.workerId = some i → i < n)
      (h : .source c src ∈ s.made) : Moves n σ s (s.write c ctx (σ src))

theorem Moves.inRange (h : Moves n σ s s') (hs : s.InRange n) : s'.InRange n := by
  cases h with
  | @frame f frames h => exact InRange.runFrame (s := { s with frames := frames }) hs f
  | complete ctx hctx h => exact hs.write hctx _ _

theorem Moves.addJobs (h : Moves n σ s s') (jobs : Multiset (Job S V E)) :
    Step σ (s.addJobs jobs) (s'.addJobs jobs) := by
  cases h with
  | @frame f frames h =>
    rw [← runFrame_addJobs]
    exact .frame h
  | complete ctx hctx h =>
    rw [← write_addJobs]
    exact .complete ctx h

/-- A task program as a client of the pool: the jobs that a step makes pending are queued. -/
def taskClient (n : ℕ) (σ : S → Result V E) : Client n (Machine S V E) (Job S V E) where
  step s calls s' := ∃ m, Moves n σ { s with jobs := 0 } m ∧ Calls m.jobs calls ∧ s' = { m with jobs := 0 }
  run i j s calls s' := ∃ m, m = { s with jobs := 0 }.runJob ⟨some i⟩ j ∧ Calls m.jobs calls ∧
    s' = { m with jobs := 0 }
  callable_of_step := by
    rintro s calls s' ⟨m, hm, hcalls, -⟩
    exact (hm.inRange (inRange_of_zero s)).callable hcalls
  callable_of_run := by
    rintro i j s calls s' ⟨m, rfl, hcalls, -⟩
    refine ((inRange_of_zero s).runJob (fun k hk => ?_) j).callable hcalls
    cases hk
    exact i.isLt

end Machine
end AsyncEry.Async
