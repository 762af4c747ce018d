import AsyncEry.CellRanks
import AsyncEry.WhenAllCell
import AsyncEry.WhenAnyCell

/-!
# Tasks of several schedulers

A cell queues on the scheduler it was built with. A worker runs the jobs of its own scheduler under its
own context, and a job hands that context on to the cells it writes to, of whichever scheduler they are;
the context does not say whose worker it names. So what a job of one scheduler writes to must not be on
a scheduler with fewer workers: the number of workers is the rank of a cell, and `Inv` says that
callbacks, jobs and tracking cells only climb. This holds when tasks only go into tasks of schedulers
with at least as many workers.

Programs take any steps the library offers, functions given to tasks return anything, and `uses p q` says
which schedulers `p` may have their tasks built into tasks of `q`.
-/

namespace AsyncEry.Async
open Cell Scheduler Lts

/-- The callbacks of `Task::map`, of `Task::bind`, and of the constructors of `WhenAnyCell` and
`WhenAllCell`. -/
inductive TaskCallback
  | map (cell : ℕ)
  | bind (trackingCell errorCell : ℕ)
  | whenAny (underlyingCell : ℕ)
  | whenAll (cellId underlyingCell : ℕ)

/-- The jobs of `Task(scheduler, func)`, of cells, of timers and of reads. -/
inductive TaskJob (V E : Type)
  | task (cell : ℕ)
  | callback (callback : TaskCallback) (result : Result V E)
  | timer (cell : ℕ)
  | read (cell : ℕ)

/-- The cells, each with the scheduler of its task, the shared state of the continuations of `when_any`
and `when_all` by underlying cell, the value sources of the program, the constructors that are still
registering, the jobs that the poll sources hold and those in the queues, with their schedulers, and
what has reached `WorkerPool::queue`. -/
structure Schedulers (ι V E : Type) where
  heap : Heap V E TaskCallback
  scheduler : ℕ → ι
  anyContext : ℕ → WhenAnyExecutionContext
  allContext : ℕ → WhenAllExecutionContext V
  sources : List ℕ
  loops : Multiset (List (ℕ × TaskCallback))
  polled : Multiset (ι × TaskJob V E)
  jobs : Multiset (ι × TaskJob V E)
  queued : List (ι × Context)

namespace Schedulers
variable {ι V E : Type}

/-- There is no cell yet. -/
def Init (s : Schedulers ι V E) : Prop :=
  s = ⟨⟨0, fun _ => .writeOnce .init⟩, s.scheduler, s.anyContext, s.allContext, [], 0, 0, 0, []⟩

def queue (s : Schedulers ι V E) (p : ι) (jobs : List (Context × TaskJob V E)) : Schedulers ι V E :=
  { s with
    jobs := s.jobs + (jobs.map fun job => (p, job.2) : List _)
    queued := s.queued ++ jobs.map fun job => (p, job.1) }

/-- The jobs that a cell of scheduler `p` queues. -/
def queueCallbacks (s : Schedulers ι V E) (p : ι) (jobs : List (Queued V E TaskCallback)) :
    Schedulers ι V E :=
  s.queue p (jobs.map fun q => (q.ctx, .callback q.callback q.result))

/-- The call takes place at the root of the cell, if anywhere; that cell's scheduler gets the job. -/
def await (s : Schedulers ι V E) (c : ℕ) (callback : TaskCallback) : Schedulers ι V E :=
  { s with heap := (s.heap.await c callback).1 }.queueCallbacks (s.scheduler (s.heap.root c))
    (s.heap.await c callback).2

def write (s : Schedulers ι V E) (c : ℕ) (ctx : Context) (result : Result V E) : Schedulers ι V E :=
  { s with heap := (s.heap.writeResult c ctx result).1 }.queueCallbacks (s.scheduler c)
    (s.heap.writeResult c ctx result).2.1

def track (s : Schedulers ι V E) (c newCell : ℕ) : Schedulers ι V E :=
  { s with heap := (s.heap.track c newCell).1 }.queueCallbacks (s.scheduler (s.heap.root newCell))
    (s.heap.track c newCell).2.1

/-- A new cell, for a task of scheduler `p`. -/
def make (s : Schedulers ι V E) (p : ι) (cell : ICell V E TaskCallback) : Schedulers ι V E :=
  { s with heap := s.heap.alloc cell, scheduler := Function.update s.scheduler s.heap.size p }

/-- `Task::map` on the task with cell `c`. -/
def map (s : Schedulers ι V E) (c : ℕ) : Schedulers ι V E :=
  (s.make (s.scheduler c) (.writeOnce .init)).await c (.map s.heap.size)

/-- `Task::bind` on the task with cell `c`. -/
def bind (s : Schedulers ι V E) (c : ℕ) : Schedulers ι V E :=
  ((s.make (s.scheduler c) (.tracking .init)).make (s.scheduler c) (.writeOnce .init)).await c
    (.bind s.heap.size (s.heap.size + 1))

/-- `Task::when_any`, up to the loop of the constructor. -/
def whenAny (s : Schedulers ι V E) (p : ι) (cells : List ℕ) : Schedulers ι V E :=
  { s.make p (.writeOnce .init) with
    anyContext := Function.update s.anyContext s.heap.size ⟨0, cells.length⟩
    loops := (cells.map fun c => (c, .whenAny s.heap.size)) ::ₘ s.loops }

/-- `Task::when_all`, up to the loop of the constructor. -/
def whenAll [Inhabited V] (s : Schedulers ι V E) (p : ι) (cells : List ℕ) : Schedulers ι V E :=
  { s.make p (.writeOnce .init) with
    allContext := Function.update s.allContext s.heap.size (.create (List.replicate cells.length default))
    loops := (cells.zipIdx.map fun c => (c.1, .whenAll c.2 s.heap.size)) ::ₘ s.loops }

/-- The continuation of `WhenAnyCell` for an error. -/
def logError (s : Schedulers ι V E) (ctx : Context) (underlyingCell : ℕ) (err : E) : Schedulers ι V E :=
  let exeCtx := (s.anyContext underlyingCell).logError
  let s := { s with anyContext := Function.update s.anyContext underlyingCell exeCtx.1 }
  if exeCtx.2 then s.write underlyingCell ctx (.error err) else s

/-- The continuation of `WhenAllCell` for a value; `vector` makes a value of the resolved ones. -/
def commitResolvedValue (vector : List V → V) (s : Schedulers ι V E) (ctx : Context)
    (cellId underlyingCell : ℕ) (value : V) : Schedulers ι V E :=
  let exeCtx := ((s.allContext underlyingCell).store cellId value).count
  let s := { s with allContext := Function.update s.allContext underlyingCell exeCtx.1 }
  if exeCtx.2 then s.write underlyingCell ctx (.value (vector exeCtx.1.resolvedValues)) else s

/-- A job, run under the context `ctx`; what the functions in it return is left open. -/
inductive Runs (uses : ι → ι → Prop) (vector : List V → V) (s : Schedulers ι V E) (ctx : Context) :
    TaskJob V E → Schedulers ι V E → Prop
  | task {cell} (returned : V) : Runs uses vector s ctx (.task cell) (s.write cell ctx (.value returned))
  | mapValue {cell value} (returned : V) :
    Runs uses vector s ctx (.callback (.map cell) (.value value)) (s.write cell ctx (.value returned))
  | mapError {cell err} :
    Runs uses vector s ctx (.callback (.map cell) (.error err)) (s.write cell ctx (.error err))
  | bindValue {trackingCell errorCell value} (returned : ℕ) (h : returned < s.heap.size)
      (huses : uses (s.scheduler returned) (s.scheduler trackingCell)) :
    Runs uses vector s ctx (.callback (.bind trackingCell errorCell) (.value value))
      (s.track trackingCell returned)
  | bindError {trackingCell errorCell err} :
    Runs uses vector s ctx (.callback (.bind trackingCell errorCell) (.error err))
      ((s.write errorCell ctx (.error err)).track trackingCell errorCell)
  | whenAnyValue {underlyingCell value} :
    Runs uses vector s ctx (.callback (.whenAny underlyingCell) (.value value))
      (s.write underlyingCell ctx (.value value))
  | whenAnyError {underlyingCell err} :
    Runs uses vector s ctx (.callback (.whenAny underlyingCell) (.error err))
      (s.logError ctx underlyingCell err)
  | whenAllValue {cellId underlyingCell value} :
    Runs uses vector s ctx (.callback (.whenAll cellId underlyingCell) (.value value))
      (s.commitResolvedValue vector ctx cellId underlyingCell value)
  | whenAllError {cellId underlyingCell err} :
    Runs uses vector s ctx (.callback (.whenAll cellId underlyingCell) (.error err))
      (s.write underlyingCell ctx (.error err))
  | timer {cell} (unit : V) : Runs uses vector s ctx (.timer cell) (s.write cell ctx (.value unit))
  | read {cell} (result : Result V E) :
    Runs uses vector s ctx (.read cell) (s.write cell Context.empty result)

/-- Any thread calls the library, a poll source hands over a job, a constructor registers the next
callback, or a worker runs a job of its scheduler. -/
inductive Step [Inhabited V] (workers : ι → ℕ) (uses : ι → ι → Prop) (vector : List V → V) :
    Schedulers ι V E → Schedulers ι V E → Prop
  | valueSource {s} (p : ι) : Step workers uses vector s
    { s.make p (.writeOnce .init) with sources := s.heap.size :: s.sources }
  | complete {s c} (result : Result V E) (h : c ∈ s.sources) :
    Step workers uses vector s (s.write c Context.empty result)
  | after {s} (p : ι) : Step workers uses vector s
    { s.make p (.writeOnce .init) with polled := (p, .timer s.heap.size) ::ₘ s.polled }
  | read {s} (p : ι) : Step workers uses vector s
    { s.make p (.writeOnce .init) with polled := (p, .read s.heap.size) ::ₘ s.polled }
  | poll {s p job polled} (h : s.polled = (p, job) ::ₘ polled) :
    Step workers uses vector s ({ s with polled := polled }.queue p [(Context.empty, job)])
  | create {s} (p : ι) : Step workers uses vector s
    ((s.make p (.writeOnce .init)).queue p [(Context.empty, .task s.heap.size)])
  | map {s c} (h : c < s.heap.size) : Step workers uses vector s (s.map c)
  | bind {s c} (h : c < s.heap.size) : Step workers uses vector s (s.bind c)
  | whenAny {s} (p : ι) {cells} (h : ∀ c ∈ cells, c < s.heap.size ∧ uses (s.scheduler c) p) :
    Step workers uses vector s (s.whenAny p cells)
  | whenAll {s} (p : ι) {cells} (h : ∀ c ∈ cells, c < s.heap.size ∧ uses (s.scheduler c) p) :
    Step workers uses vector s (s.whenAll p cells)
  | register {s c callback loop loops} (h : s.loops = ((c, callback) :: loop) ::ₘ loops) :
    Step workers uses vector s ({ s with loops := loop ::ₘ loops }.await c callback)
  | job {s p job jobs worker s'} (h : s.jobs = (p, job) ::ₘ jobs) (hworker : worker < workers p)
      (hruns : Runs uses vector { s with jobs := jobs } ⟨some worker⟩ job s') :
    Step workers uses vector s s'

end Schedulers

/-! ### Ranks -/

/-- The cell exists and ranks at least `r`. -/
def Above (size : ℕ) (rank : ℕ → ℕ) (r c : ℕ) : Prop := c < size ∧ r ≤ rank c

/-- The callback only writes to cells of rank at least `r`, and its error cell may be tracked. -/
def TaskCallback.Fits (size : ℕ) (rank : ℕ → ℕ) (r : ℕ) : TaskCallback → Prop
  | .map cell => Above size rank r cell
  | .bind trackingCell errorCell =>
    Above size rank r trackingCell ∧ Above size rank r errorCell ∧ rank errorCell ≤ rank trackingCell
  | .whenAny underlyingCell => Above size rank r underlyingCell
  | .whenAll _ underlyingCell => Above size rank r underlyingCell

def TaskJob.Fits {V E : Type} (size : ℕ) (rank : ℕ → ℕ) (r : ℕ) : TaskJob V E → Prop
  | .task cell => Above size rank r cell
  | .callback cb _ => cb.Fits size rank r
  | .timer cell => Above size rank r cell
  | .read cell => Above size rank r cell

/-- `worker_id` is the index of one of `n` workers. -/
def InRange (n : ℕ) (ctx : Context) : Prop := ∀ i, ctx.workerId = some i → i < n

section
variable {size r r' c : ℕ} {rank : ℕ → ℕ}

theorem Above.mono (h : Above size rank r c) (hr : r' ≤ r) : Above size rank r' c := ⟨h.1, hr.trans h.2⟩

theorem TaskCallback.Fits.mono {callback : TaskCallback} (hr : r' ≤ r) (h : callback.Fits size rank r) :
    callback.Fits size rank r' := by
  cases callback with
  | map => exact Above.mono h hr
  | bind => exact ⟨h.1.mono hr, h.2.1.mono hr, h.2.2⟩
  | whenAny => exact Above.mono h hr
  | whenAll => exact Above.mono h hr

theorem Above.make (h : Above size rank r c) (n : ℕ) :
    Above (size + 1) (Function.update rank size n) r c := by
  refine ⟨Nat.lt_succ_of_lt h.1, ?_⟩
  rw [Function.update_of_ne h.1.ne]
  exact h.2

theorem TaskCallback.Fits.make {callback : TaskCallback} (h : callback.Fits size rank r) (n : ℕ) :
    callback.Fits (size + 1) (Function.update rank size n) r := by
  cases callback with
  | map => exact Above.make h n
  | bind trackingCell errorCell =>
    obtain ⟨htracking, herror, hle⟩ := h
    refine ⟨htracking.make n, herror.make n, ?_⟩
    rw [Function.update_of_ne htracking.1.ne, Function.update_of_ne herror.1.ne]
    exact hle
  | whenAny => exact Above.make h n
  | whenAll => exact Above.make h n

theorem TaskJob.Fits.make {V E : Type} {job : TaskJob V E} (h : job.Fits size rank r) (n : ℕ) :
    job.Fits (size + 1) (Function.update rank size n) r := by
  cases job with
  | callback cb => exact TaskCallback.Fits.make h n
  | _ => exact Above.make h n

theorem Above.inRange {worker : ℕ} (h : Above size rank r c) (hworker : worker < r) :
    InRange (rank c) ⟨some worker⟩ := by
  intro i hi
  obtain rfl : worker = i := Option.some.inj hi
  exact hworker.trans_le h.2

theorem inRange_empty (n : ℕ) : InRange n Context.empty := nofun

end

namespace Schedulers
variable {ι V E : Type} {workers : ι → ℕ} {s s' : Schedulers ι V E} {p : ι} {c d : ℕ} {ctx : Context}

/-- The number of workers of a cell's scheduler. -/
def rank (workers : ι → ℕ) (s : Schedulers ι V E) : ℕ → ℕ := workers ∘ s.scheduler

theorem rank_make (s : Schedulers ι V E) (p : ι) (cell : ICell V E TaskCallback) :
    (s.make p cell).rank workers = Function.update (s.rank workers) s.heap.size (workers p) :=
  Function.comp_update ..

theorem above_make (s : Schedulers ι V E) (p : ι) (cell : ICell V E TaskCallback) :
    Above (s.make p cell).heap.size ((s.make p cell).rank workers) (workers p) s.heap.size := by
  refine ⟨Nat.lt_succ_self _, ?_⟩
  rw [rank_make, Function.update_self]

theorem rank_make_of_lt (p : ι) (cell : ICell V E TaskCallback) (hc : c < s.heap.size) :
    (s.make p cell).rank workers c = s.rank workers c := by
  rw [rank_make, Function.update_of_ne hc.ne]

/-- A callback that writes to a new cell of `p` may be registered on a cell of rank `workers p` at most. -/
theorem above_make_of_le (hc : c < s.heap.size) (hle : s.rank workers c ≤ workers p)
    (cell : ICell V E TaskCallback) : c < (s.make p cell).heap.size ∧
      Above (s.make p cell).heap.size ((s.make p cell).rank workers) ((s.make p cell).rank workers c)
        s.heap.size := by
  refine ⟨Nat.lt_succ_of_lt hc, (above_make s p cell).mono ?_⟩
  rw [rank_make_of_lt _ _ hc]
  exact hle

structure Inv (workers : ι → ℕ) (s : Schedulers ι V E) : Prop where
  climbs : s.heap.Climbs (s.rank workers) (TaskCallback.Fits s.heap.size (s.rank workers))
  loops : ∀ loop ∈ s.loops, ∀ x ∈ loop,
    x.1 < s.heap.size ∧ x.2.Fits s.heap.size (s.rank workers) (s.rank workers x.1)
  polled : ∀ x ∈ s.polled, x.2.Fits s.heap.size (s.rank workers) (workers x.1)
  jobs : ∀ x ∈ s.jobs, x.2.Fits s.heap.size (s.rank workers) (workers x.1)
  queued : ∀ x ∈ s.queued, InRange (workers x.1) x.2

theorem Init.inv (h : Init s) : s.Inv workers := by
  rw [h]
  exact ⟨⟨TaskCallback.Fits.mono, fun _ => nofun, nofun⟩, nofun, nofun, nofun, nofun⟩

namespace Inv

theorem queue (h : s.Inv workers) {jobs : List (Context × TaskJob V E)}
    (hjobs : ∀ x ∈ jobs, InRange (workers p) x.1 ∧ x.2.Fits s.heap.size (s.rank workers) (workers p)) :
    (s.queue p jobs).Inv workers := by
  refine ⟨h.climbs, h.loops, h.polled, fun x hx => ?_, fun x hx => ?_⟩
  · rcases Multiset.mem_add.1 hx with hx | hx
    · exact h.jobs x hx
    · obtain ⟨job, hjob, rfl⟩ := List.mem_map.1 (Multiset.mem_coe.1 hx)
      exact (hjobs job hjob).2
  · rcases List.mem_append.1 hx with hx | hx
    · exact h.queued x hx
    · obtain ⟨job, hjob, rfl⟩ := List.mem_map.1 hx
      exact (hjobs job hjob).1

/-- An operation of the heap, and the jobs it queues. -/
theorem operation (h : s.Inv workers) {heap : Heap V E TaskCallback} {jobs : List (Queued V E TaskCallback)}
    (hclimbs : heap.Climbs (s.rank workers) (TaskCallback.Fits s.heap.size (s.rank workers)))
    (hsize : heap.size = s.heap.size)
    (hjobs : ∀ q ∈ jobs, InRange (workers p) q.ctx ∧
      q.callback.Fits s.heap.size (s.rank workers) (workers p)) :
    ({ s with heap := heap }.queueCallbacks p jobs).Inv workers := by
  have hheap : Inv workers { s with heap := heap } := by
    refine ⟨?_, ?_, ?_, ?_, h.queued⟩
    all_goals dsimp only; rw [hsize]
    exacts [hclimbs, h.loops, h.polled, h.jobs]
  refine hheap.queue fun x hx => ?_
  obtain ⟨q, hq, rfl⟩ := List.mem_map.1 hx
  obtain ⟨hctx, hfits⟩ := hjobs q hq
  refine ⟨hctx, ?_⟩
  show q.callback.Fits heap.size _ _
  rw [hsize]
  exact hfits

theorem await (h : s.Inv workers) {callback : TaskCallback}
    (hcb : callback.Fits s.heap.size (s.rank workers) (s.rank workers c)) :
    (s.await c callback).Inv workers := by
  obtain ⟨hclimbs, hsize, hjobs⟩ := h.climbs.await hcb
  refine h.operation hclimbs hsize fun q hq => ?_
  obtain ⟨hctx, hcallback⟩ := hjobs q hq
  rw [hctx, hcallback]
  exact ⟨inRange_empty _, hcb.mono (h.climbs.root_le c)⟩

theorem write (h : s.Inv workers) (c : ℕ) (hctx : InRange (s.rank workers c) ctx) (result : Result V E) :
    (s.write c ctx result).Inv workers := by
  obtain ⟨hclimbs, hsize, hjobs⟩ := h.climbs.writeResult c ctx result
  refine h.operation hclimbs hsize fun q hq => ?_
  obtain ⟨hqctx, hcallback⟩ := hjobs q hq
  rw [hqctx]
  exact ⟨hctx, hcallback⟩

theorem track (h : s.Inv workers) (hd : d < s.heap.size) (hrank : s.rank workers d ≤ s.rank workers c) :
    (s.track c d).Inv workers := by
  obtain ⟨hclimbs, hsize, hjobs⟩ := h.climbs.track hd hrank
  refine h.operation hclimbs hsize fun q hq => ?_
  obtain ⟨hctx, hcallback⟩ := hjobs q hq
  rw [hctx]
  exact ⟨inRange_empty _, hcallback.mono (h.climbs.root_le d)⟩

theorem make (h : s.Inv workers) (p : ι) {cell : ICell V E TaskCallback} (hlink : cell.link = none)
    (hcb : cell.callbacks = []) : (s.make p cell).Inv workers := by
  refine ⟨?_, ?_, ?_, ?_, h.queued⟩
  all_goals rw [rank_make]
  · exact h.climbs.alloc (workers p) hlink hcb TaskCallback.Fits.mono fun hfits => hfits.make _
  · intro loop hloop x hx
    obtain ⟨hsize, hfits⟩ := h.loops loop hloop x hx
    refine ⟨Nat.lt_succ_of_lt hsize, ?_⟩
    rw [Function.update_of_ne hsize.ne]
    exact hfits.make _
  · exact fun x hx => (h.polled x hx).make _
  · exact fun x hx => (h.jobs x hx).make _

theorem makeWriteOnce (h : s.Inv workers) (p : ι) : (s.make p (.writeOnce .init)).Inv workers :=
  h.make p rfl rfl

theorem map (h : s.Inv workers) (hc : c < s.heap.size) : (s.map c).Inv workers := by
  refine (h.makeWriteOnce (s.scheduler c)).await ?_
  exact (above_make_of_le hc le_rfl (.writeOnce .init)).2

theorem bind (h : s.Inv workers) (hc : c < s.heap.size) : (s.bind c).Inv workers := by
  set p := s.scheduler c
  set s₁ := s.make p (.tracking .init) with hs₁
  set s₂ := s₁.make p (.writeOnce .init) with hs₂
  have htracking : Above s₂.heap.size (s₂.rank workers) (workers p) s.heap.size := by
    rw [hs₂, rank_make]
    exact (above_make s p (.tracking .init)).make _
  have herror : Above s₂.heap.size (s₂.rank workers) (workers p) s₁.heap.size := above_make ..
  have hrank : s₂.rank workers s₁.heap.size = workers p := by rw [hs₂, rank_make, Function.update_self]
  have hrankc : s₂.rank workers c = workers p := by
    rw [hs₂, rank_make_of_lt _ _ (Nat.lt_succ_of_lt hc), hs₁, rank_make_of_lt _ _ hc]
    rfl
  refine ((h.make p rfl rfl).make p rfl rfl).await ?_
  show TaskCallback.Fits s₂.heap.size (s₂.rank workers) (s₂.rank workers c) _
  rw [hrankc]
  exact ⟨htracking, herror, hrank.trans_le htracking.2⟩

/-- A poll source takes a job. -/
theorem hold (h : s.Inv workers) {job : TaskJob V E}
    (hfits : job.Fits s.heap.size (s.rank workers) (workers p)) :
    Inv workers { s with polled := (p, job) ::ₘ s.polled } := by
  refine ⟨h.climbs, h.loops, fun x hx => ?_, h.jobs, h.queued⟩
  rcases Multiset.mem_cons.1 hx with rfl | hx
  · exact hfits
  · exact h.polled x hx

theorem anyContext (h : s.Inv workers) (contexts : ℕ → WhenAnyExecutionContext) :
    Inv workers { s with anyContext := contexts } :=
  ⟨h.climbs, h.loops, h.polled, h.jobs, h.queued⟩

theorem allContext (h : s.Inv workers) (contexts : ℕ → WhenAllExecutionContext V) :
    Inv workers { s with allContext := contexts } :=
  ⟨h.climbs, h.loops, h.polled, h.jobs, h.queued⟩

/-- `when_any` and `when_all`: the callbacks that the loop is going to register. -/
theorem loop (h : s.Inv workers) {loop : List (ℕ × TaskCallback)}
    (hloop : ∀ x ∈ loop, x.1 < s.heap.size ∧ x.2.Fits s.heap.size (s.rank workers) (s.rank workers x.1)) :
    Inv workers { s with loops := loop ::ₘ s.loops } := by
  refine ⟨h.climbs, fun l hl => ?_, h.polled, h.jobs, h.queued⟩
  rcases Multiset.mem_cons.1 hl with rfl | hl
  · exact hloop
  · exact h.loops l hl

end Inv

theorem Runs.inv {uses : ι → ι → Prop} {vector : List V → V} {job : TaskJob V E} {worker : ℕ}
    (hr : Runs uses vector s ⟨some worker⟩ job s') (huses : ∀ p q, uses p q → workers p ≤ workers q)
    (hworker : worker < workers p) (hfits : job.Fits s.heap.size (s.rank workers) (workers p))
    (h : s.Inv workers) : s'.Inv workers := by
  have hwrite : ∀ {cell : ℕ}, Above s.heap.size (s.rank workers) (workers p) cell → ∀ result,
      (s.write cell ⟨some worker⟩ result).Inv workers :=
    fun hcell result => h.write _ (hcell.inRange hworker) result
  cases hr with
  | task returned => exact hwrite hfits _
  | mapValue returned => exact hwrite hfits _
  | mapError => exact hwrite hfits _
  | bindValue returned hreturned hu => exact h.track hreturned (huses _ _ hu)
  | @bindError trackingCell errorCell err =>
    obtain ⟨-, herror, hrank⟩ := hfits
    refine (hwrite herror _).track ?_ hrank
    show errorCell < (s.heap.writeResult errorCell ⟨some worker⟩ (.error err)).1.size
    rw [(s.heap.writeResult_frame ..).1]
    exact herror.1
  | whenAnyValue => exact hwrite hfits _
  | whenAnyError =>
    unfold logError
    dsimp only
    split
    · refine (h.anyContext _).write _ ?_ _
      exact Above.inRange hfits hworker
    · exact h.anyContext _
  | whenAllValue =>
    unfold commitResolvedValue
    dsimp only
    split
    · refine (h.allContext _).write _ ?_ _
      exact Above.inRange hfits hworker
    · exact h.allContext _
  | whenAllError => exact hwrite hfits _
  | timer unit => exact hwrite hfits _
  | read result => exact h.write _ (inRange_empty _) _

theorem Step.inv [Inhabited V] {uses : ι → ι → Prop} {vector : List V → V}
    (hs : Step workers uses vector s s') (huses : ∀ p q, uses p q → workers p ≤ workers q)
    (h : s.Inv workers) : s'.Inv workers := by
  cases hs with
  | valueSource p =>
    have hmake := h.makeWriteOnce p
    exact ⟨hmake.climbs, hmake.loops, hmake.polled, hmake.jobs, hmake.queued⟩
  | complete result hc => exact h.write _ (inRange_empty _) _
  | after p => exact (h.makeWriteOnce p).hold (above_make s p (.writeOnce .init))
  | read p => exact (h.makeWriteOnce p).hold (above_make s p (.writeOnce .init))
  | @poll p job polled hpolled =>
    have hmem : (p, job) ∈ s.polled := by rw [hpolled]; exact Multiset.mem_cons_self _ _
    have hrest : Inv workers { s with polled := polled } := by
      refine ⟨h.climbs, h.loops, fun x hx => h.polled x ?_, h.jobs, h.queued⟩
      rw [hpolled]
      exact Multiset.mem_cons_of_mem hx
    refine hrest.queue fun x hx => ?_
    rw [List.mem_singleton.1 hx]
    exact ⟨inRange_empty _, h.polled _ hmem⟩
  | create p =>
    refine (h.makeWriteOnce p).queue fun x hx => ?_
    rw [List.mem_singleton.1 hx]
    exact ⟨inRange_empty _, above_make s p (.writeOnce .init)⟩
  | map hc => exact h.map hc
  | bind hc => exact h.bind hc
  | whenAny p hcells =>
    refine ((h.makeWriteOnce p).loop fun x hx => ?_).anyContext _
    obtain ⟨c, hc, rfl⟩ := List.mem_map.1 hx
    exact above_make_of_le (hcells c hc).1 (huses _ _ (hcells c hc).2) (.writeOnce .init)
  | whenAll p hcells =>
    refine ((h.makeWriteOnce p).loop fun x hx => ?_).allContext _
    obtain ⟨⟨c, i⟩, hci, rfl⟩ := List.mem_map.1 hx
    have hc := List.fst_mem_of_mem_zipIdx hci
    exact above_make_of_le (hcells c hc).1 (huses _ _ (hcells c hc).2) (.writeOnce .init)
  | @register c callback loop loops hloops =>
    have hmem : (c, callback) :: loop ∈ s.loops := by rw [hloops]; exact Multiset.mem_cons_self _ _
    have hrest : Inv workers { s with loops := loop ::ₘ loops } := by
      refine ⟨h.climbs, fun l hl => ?_, h.polled, h.jobs, h.queued⟩
      rcases Multiset.mem_cons.1 hl with rfl | hl
      · exact fun x hx => h.loops _ hmem x (List.mem_cons_of_mem _ hx)
      · exact h.loops l (by rw [hloops]; exact Multiset.mem_cons_of_mem hl)
    exact hrest.await (h.loops _ hmem _ List.mem_cons_self).2
  | @job p job jobs worker _ hjobs hworker hruns =>
    have hmem : (p, job) ∈ s.jobs := by rw [hjobs]; exact Multiset.mem_cons_self _ _
    have hrest : Inv workers { s with jobs := jobs } := by
      refine ⟨h.climbs, h.loops, h.polled, fun x hx => h.jobs x ?_, h.queued⟩
      rw [hjobs]
      exact Multiset.mem_cons_of_mem hx
    exact hruns.inv huses hworker (h.jobs _ hmem) hrest

/-- `when_any` on a scheduler with fewer workers: the worker of `p` that writes its cell hands on a
context that the scheduler `q` of the cell has no worker for. -/
theorem exists_out_of_range [Inhabited V] {uses : ι → ι → Prop} (vector : List V → V) {p q : ι}
    (huses : uses p q) (hlt : workers q < workers p) :
    ∃ s : Schedulers ι V E, Reach Init (Step workers uses vector) s ∧
      (q, ⟨some (workers q)⟩) ∈ s.queued := by
  have hinit : Init (⟨⟨0, fun _ => .writeOnce .init⟩, fun _ => p, fun _ => ⟨0, 0⟩, fun _ => .create [],
      [], 0, 0, 0, []⟩ : Schedulers ι V E) := rfl
  have hsource : Reach Init (Step workers uses vector) _ := (Reach.start hinit).next (.valueSource p)
  have hany := hsource.next (.whenAny q fun c (hc : c ∈ [0]) => by
    rw [List.mem_singleton.1 hc]
    exact ⟨Nat.zero_lt_one, huses⟩)
  have hregister := hany.next (.register (show _ = ((0, TaskCallback.whenAny 1) :: []) ::ₘ 0 from rfl))
  have hmap := hregister.next (.map (c := 1) (Nat.lt_succ_self 1))
  have hcomplete := hmap.next (.complete (c := 0) (.value default) List.mem_cons_self)
  have hjob := hcomplete.next
    (.job (show _ = (p, TaskJob.callback (.whenAny 1) (.value default)) ::ₘ 0 from rfl) hlt .whenAnyValue)
  refine ⟨_, hjob, ?_⟩
  exact List.mem_of_getLast? rfl

/-- Two workers and one: `when_any`, on the scheduler with one worker, of a task of the other. -/
theorem context_out_of_range : ∃ s : Schedulers Bool ℕ ℕ,
    Reach Init (Step (fun p => p.toNat + 1) (fun _ _ => True) List.sum) s ∧
      (false, ⟨some 1⟩) ∈ s.queued ∧ ¬ InRange 1 ⟨some 1⟩ := by
  obtain ⟨s, hs, hmem⟩ := @exists_out_of_range Bool ℕ ℕ (fun p => p.toNat + 1) _ (fun _ _ => True) List.sum
    true false trivial (by decide)
  exact ⟨s, hs, hmem, fun h => lt_irrefl 1 (h 1 rfl)⟩

/-- A context names a worker of the scheduler that it reaches, whatever the program does, if and only if
tasks only go into tasks of schedulers with at least as many workers. -/
theorem reach_in_range_iff [Inhabited V] (workers : ι → ℕ) (uses : ι → ι → Prop) (vector : List V → V) :
    (∀ s : Schedulers ι V E, Reach Init (Step workers uses vector) s →
      ∀ x ∈ s.queued, InRange (workers x.1) x.2) ↔ ∀ p q, uses p q → workers p ≤ workers q := by
  refine ⟨fun h p q huses => ?_, fun h s hs => ?_⟩
  · by_contra hlt
    obtain ⟨s, hs, hmem⟩ := exists_out_of_range (E := E) vector huses (Nat.lt_of_not_le hlt)
    exact lt_irrefl _ (h s hs _ hmem (workers q) rfl)
  · have hinv : s.Inv workers :=
      Inductive.reach (P := Inv workers) ⟨fun _ h => h.inv, fun _ _ hi hstep => hstep.inv h hi⟩ hs
    exact hinv.queued

end Schedulers
end AsyncEry.Async
