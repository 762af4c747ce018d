import AsyncEry.Basic

/-!
# `WriteOnceCell`: first write wins, every continuation is dispatched once

An operation works under the cell's lock, so it is one step on the cell and on the scheduler, which
is handed the jobs the operation queues. The state after any sequence of operations is a function of
the first write in it and of the callbacks awaited before and after that write.
-/

namespace AsyncEry.Cell
open Scheduler

/-- A job handed to the scheduler: the context it is queued under, and the callback with the result
that the closure passes to it. `Cb` are the callbacks, which a cell never looks into. -/
structure Queued (T Err Cb : Type) where
  ctx : Context
  callback : Cb
  result : Result T Err
deriving DecidableEq

/-- `write_once_cell.h`. -/
structure WriteOnceCell (T Err Cb : Type) where
  value : Option (Result T Err)
  callbacks : List Cb
deriving DecidableEq

namespace WriteOnceCell

variable {T Err Cb : Type}

def init : WriteOnceCell T Err Cb := ⟨none, []⟩

def read (c : WriteOnceCell T Err Cb) : Option (Result T Err) := c.value

/-- The new cell, the jobs queued, and whether this write was the first. -/
def writeResultToValue (c : WriteOnceCell T Err Cb) (ctx : Context) (result : Result T Err) :
    WriteOnceCell T Err Cb × List (Queued T Err Cb) × Bool :=
  if c.value.isSome then (c, [], false)
  else (⟨some result, []⟩, c.callbacks.map fun cb => ⟨ctx, cb, result⟩, true)

def write (c : WriteOnceCell T Err Cb) (ctx : Context) (v : T) :
    WriteOnceCell T Err Cb × List (Queued T Err Cb) × Bool :=
  c.writeResultToValue ctx (.value v)

def error (c : WriteOnceCell T Err Cb) (ctx : Context) (e : Err) :
    WriteOnceCell T Err Cb × List (Queued T Err Cb) × Bool :=
  c.writeResultToValue ctx (.error e)

def await (c : WriteOnceCell T Err Cb) (callback : Cb) :
    WriteOnceCell T Err Cb × List (Queued T Err Cb) :=
  match c.value with
  | some value => (c, [⟨Context.empty, callback, value⟩])
  | none => ({ c with callbacks := c.callbacks ++ [callback] }, [])

/-! ### Sequences of operations -/

/-- The operations; the overloads of `write` and `error` without a context pass `Context.empty`. -/
inductive Op (T Err Cb : Type)
  | write (ctx : Context) (v : T)
  | error (ctx : Context) (e : Err)
  | await (callback : Cb)
  | read

/-- What an operation returns. -/
inductive Response (T Err : Type)
  | written (ok : Bool)
  | awaited
  | value (v : Option (Result T Err))
deriving DecidableEq

/-- The cell and the jobs handed to the scheduler so far. -/
structure State (T Err Cb : Type) where
  cell : WriteOnceCell T Err Cb
  scheduler : List (Queued T Err Cb)
deriving DecidableEq

namespace State

/-- A fresh cell. -/
def init : State T Err Cb := ⟨WriteOnceCell.init, []⟩

/-- One operation and its response. -/
def step (s : State T Err Cb) : Op T Err Cb → State T Err Cb × Response T Err
  | .write ctx v =>
    let (cell, jobs, ok) := s.cell.write ctx v
    (⟨cell, s.scheduler ++ jobs⟩, .written ok)
  | .error ctx e =>
    let (cell, jobs, ok) := s.cell.error ctx e
    (⟨cell, s.scheduler ++ jobs⟩, .written ok)
  | .await callback =>
    let (cell, jobs) := s.cell.await callback
    (⟨cell, s.scheduler ++ jobs⟩, .awaited)
  | .read => (s, .value s.cell.read)

def run (s : State T Err Cb) (ops : List (Op T Err Cb)) : State T Err Cb :=
  ops.foldl (fun s op => (s.step op).1) s

end State

/-- What a `write` or an `error` writes, and under which context. -/
def Op.written : Op T Err Cb → Option (Context × Result T Err)
  | .write ctx v => some (ctx, .value v)
  | .error ctx e => some (ctx, .error e)
  | _ => none

def Op.awaited : Op T Err Cb → Option Cb
  | .await callback => some callback
  | _ => none

/-- The first write of a sequence. -/
def firstWrite (ops : List (Op T Err Cb)) : Option (Context × Result T Err) :=
  ops.findSome? Op.written

/-- The callbacks awaited before the first write, in order. -/
def awaitedBefore (ops : List (Op T Err Cb)) : List Cb :=
  (ops.takeWhile fun op => op.written.isNone).filterMap Op.awaited

/-- The callbacks awaited after the first write, in order. -/
def awaitedAfter (ops : List (Op T Err Cb)) : List Cb :=
  (ops.dropWhile fun op => op.written.isNone).filterMap Op.awaited

/-- The jobs that a sequence of operations owes the scheduler. -/
def owedJobs (ops : List (Op T Err Cb)) : List (Queued T Err Cb) :=
  match firstWrite ops with
  | none => []
  | some (ctx, result) =>
    (awaitedBefore ops).map (fun cb => ⟨ctx, cb, result⟩) ++
      (awaitedAfter ops).map fun cb => ⟨Context.empty, cb, result⟩

section
variable {op : Op T Err Cb} {ops : List (Op T Err Cb)}

theorem firstWrite_cons_of_none (h : op.written = none) : firstWrite (op :: ops) = firstWrite ops := by
  simp [firstWrite, h]

theorem awaitedBefore_cons_of_none (h : op.written = none) :
    awaitedBefore (op :: ops) = op.awaited.toList ++ awaitedBefore ops := by
  cases haw : op.awaited <;> simp [awaitedBefore, h, haw]

theorem awaitedAfter_cons_of_none (h : op.written = none) :
    awaitedAfter (op :: ops) = awaitedAfter ops := by
  simp [awaitedAfter, h]

theorem firstWrite_cons_of_some {w : Context × Result T Err} (h : op.written = some w) :
    firstWrite (op :: ops) = some w := by
  simp [firstWrite, h]

theorem awaitedBefore_cons_of_some {w : Context × Result T Err} (h : op.written = some w) :
    awaitedBefore (op :: ops) = [] := by
  simp [awaitedBefore, h]

theorem awaitedAfter_cons_of_some {w : Context × Result T Err} (h : op.written = some w) :
    awaitedAfter (op :: ops) = ops.filterMap Op.awaited := by
  have haw : op.awaited = none := by cases op <;> first | rfl | cases h
  simp [awaitedAfter, h, haw]

end

/-! ### The operations on a filled and on an empty cell -/

variable {c : WriteOnceCell T Err Cb} {ctx : Context} {result : Result T Err}

theorem writeResultToValue_of_some (h : c.value.isSome) :
    c.writeResultToValue ctx result = (c, [], false) := by
  simp [writeResultToValue, h]

theorem writeResultToValue_of_none (h : c.value = none) :
    c.writeResultToValue ctx result =
      (⟨some result, []⟩, c.callbacks.map fun cb => ⟨ctx, cb, result⟩, true) := by
  simp [writeResultToValue, h]

/-- After a write the cell is filled, by the write if it was the first. -/
theorem value_writeResultToValue (c : WriteOnceCell T Err Cb) (ctx : Context)
    (result : Result T Err) :
    (c.writeResultToValue ctx result).1.value = some (c.value.getD result) := by
  cases hv : c.value with
  | none => rw [writeResultToValue_of_none hv]; rfl
  | some r => rw [writeResultToValue_of_some (by rw [hv]; rfl), hv]; rfl

theorem await_of_some (h : c.value = some result) (callback : Cb) :
    c.await callback = (c, [⟨Context.empty, callback, result⟩]) := by
  simp [await, h]

theorem await_of_none (h : c.value = none) (callback : Cb) :
    c.await callback = (⟨none, c.callbacks ++ [callback]⟩, []) := by
  simp [await, h]

theorem value_await (c : WriteOnceCell T Err Cb) (callback : Cb) :
    (c.await callback).1.value = c.value := by
  cases hv : c.value with
  | none => rw [await_of_none hv]
  | some r => rw [await_of_some hv, hv]

namespace State

variable {s : State T Err Cb}

theorem step_written_of_some (h : s.cell.value.isSome) {op : Op T Err Cb} (hop : op.written.isSome) :
    s.step op = (s, .written false) := by
  cases op with
  | write ctx v => simp [step, WriteOnceCell.write, writeResultToValue_of_some h]
  | error ctx e => simp [step, WriteOnceCell.error, writeResultToValue_of_some h]
  | await | read => simp [Op.written] at hop

theorem step_written_of_none (h : s.cell.value = none) {op : Op T Err Cb} {ctx : Context}
    {result : Result T Err} (hop : op.written = some (ctx, result)) :
    s.step op = (⟨⟨some result, []⟩,
      s.scheduler ++ s.cell.callbacks.map fun cb => ⟨ctx, cb, result⟩⟩, .written true) := by
  cases op with
  | write ctx v =>
    obtain ⟨rfl, rfl⟩ : ctx = _ ∧ .value v = result := by simpa [Op.written] using hop
    simp [step, WriteOnceCell.write, writeResultToValue_of_none h]
  | error ctx e =>
    obtain ⟨rfl, rfl⟩ : ctx = _ ∧ .error e = result := by simpa [Op.written] using hop
    simp [step, WriteOnceCell.error, writeResultToValue_of_none h]
  | await | read => simp [Op.written] at hop

/-- From a filled cell on, every awaited callback is queued at once under the empty context. -/
theorem run_filled (ops : List (Op T Err Cb)) (result : Result T Err)
    (jobs : List (Queued T Err Cb)) :
    run ⟨⟨some result, []⟩, jobs⟩ ops = ⟨⟨some result, []⟩,
      jobs ++ (ops.filterMap Op.awaited).map fun cb => ⟨Context.empty, cb, result⟩⟩ := by
  induction ops generalizing jobs with
  | nil => simp [run]
  | cons op ops ih =>
    have hrun : ∀ s : State T Err Cb, s.run (op :: ops) = (s.step op).1.run ops := fun _ => rfl
    rw [hrun]
    cases op with
    | write ctx v | error ctx e =>
      rw [step_written_of_some rfl rfl, ih]; simp [List.filterMap_cons, Op.awaited]
    | await callback =>
      have hstep : (step ⟨⟨some result, []⟩, jobs⟩ (.await callback)).1 =
          (⟨⟨some result, []⟩, jobs ++ [⟨Context.empty, callback, result⟩]⟩ : State T Err Cb) := by
        simp [step, await_of_some]
      rw [hstep, ih]; simp [Op.awaited]
    | read => exact (ih jobs).trans (by simp [List.filterMap_cons, Op.awaited])

/-- From an empty cell on, the first write decides. -/
theorem run_empty (ops : List (Op T Err Cb)) (cbs : List Cb) (jobs : List (Queued T Err Cb)) :
    run ⟨⟨none, cbs⟩, jobs⟩ ops =
      match firstWrite ops with
      | none => ⟨⟨none, cbs ++ awaitedBefore ops⟩, jobs⟩
      | some (ctx, result) => ⟨⟨some result, []⟩,
          jobs ++ ((cbs ++ awaitedBefore ops).map fun cb => ⟨ctx, cb, result⟩) ++
            (awaitedAfter ops).map fun cb => ⟨Context.empty, cb, result⟩⟩ := by
  induction ops generalizing cbs jobs with
  | nil => simp [run, firstWrite, awaitedBefore]
  | cons op ops ih =>
    have hrun : ∀ s : State T Err Cb, s.run (op :: ops) = (s.step op).1.run ops := fun _ => rfl
    rw [hrun]
    cases hop : op.written with
    | some w =>
      rw [step_written_of_none rfl hop, run_filled, firstWrite_cons_of_some hop,
        awaitedBefore_cons_of_some hop, awaitedAfter_cons_of_some hop]
      simp
    | none =>
      rw [firstWrite_cons_of_none hop, awaitedBefore_cons_of_none hop, awaitedAfter_cons_of_none hop]
      cases op with
      | write | error => cases hop
      | await callback =>
        have hstep : (step ⟨⟨none, cbs⟩, jobs⟩ (.await callback)).1 =
            (⟨⟨none, cbs ++ [callback]⟩, jobs⟩ : State T Err Cb) := by
          simp [step, await_of_none]
        rw [hstep, ih]
        simp [Op.awaited]
      | read => exact ih cbs jobs

/-- What the cell, the scheduler and the next response are after any sequence of operations: the
first write wins, and each awaited callback has been handed to the scheduler exactly once if there
was a write (under the writer's context, in order of registration, if it was awaited before) and
not at all otherwise. A later write changes nothing. -/
theorem run_first_write_wins (ops : List (Op T Err Cb)) (op : Op T Err Cb) :
    (init.run ops).cell.value = (firstWrite ops).map Prod.snd ∧
      (init.run ops).cell.callbacks = (if (firstWrite ops).isNone then awaitedBefore ops else []) ∧
      (init.run ops).scheduler = owedJobs ops ∧
      ((init.run ops).step op).2 = (match op with
        | .write _ _ | .error _ _ => .written (firstWrite ops).isNone
        | .await _ => .awaited
        | .read => .value ((firstWrite ops).map Prod.snd)) ∧
      ((firstWrite ops).isSome → op.written.isSome →
        ((init.run ops).step op).1 = init.run ops) := by
  have hrun := run_empty ops [] ([] : List (Queued T Err Cb))
  have hval : (init.run ops).cell.value = (firstWrite ops).map Prod.snd := by
    rw [init, WriteOnceCell.init, hrun]; cases firstWrite ops <;> rfl
  refine ⟨hval, ?_, ?_, ?_, fun hw hop => ?_⟩
  · rw [init, WriteOnceCell.init, hrun]; cases firstWrite ops <;> simp
  · rw [init, WriteOnceCell.init, hrun, owedJobs]; cases firstWrite ops <;> simp
  · cases hw : firstWrite ops with
    | none =>
      rw [hw] at hval
      cases op with
      | write ctx v => rw [step_written_of_none hval rfl]; rfl
      | error ctx e => rw [step_written_of_none hval rfl]; rfl
      | await callback => rfl
      | read => simp [step, WriteOnceCell.read, hval]
    | some w =>
      rw [hw] at hval
      have hsome : (init.run ops).cell.value.isSome := by rw [hval]; rfl
      cases op with
      | write ctx v => rw [step_written_of_some hsome rfl]; rfl
      | error ctx e => rw [step_written_of_some hsome rfl]; rfl
      | await callback => rfl
      | read => simp [step, WriteOnceCell.read, hval]
  · rw [step_written_of_some (by rw [hval]; simpa using hw) hop]

end State
end WriteOnceCell
end AsyncEry.Cell
