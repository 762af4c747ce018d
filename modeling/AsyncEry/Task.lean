import AsyncEry.CellHeap
import AsyncEry.Lib.Run

/-!
# Task programs

A program makes tasks from value sources, functions, `map` and `bind` and gives one of them back.
`Prog.eval` is what it means: a task is a result, an error skips the functions. `Machine` is what the
library does with it: the main program and the functions given to `bind` run statement by statement,
the scheduler runs the queued jobs in any order, and the sources are completed at any time.

One type `V` stands for all the C++ value types.
-/

namespace AsyncEry.Async
open Cell Scheduler

/-- An environment with one more entry. -/
def push {α : Type} {n : ℕ} (env : Fin n → α) (a : α) : Fin (n + 1) → α := Fin.snoc env a

theorem forall_push {α : Type} {n : ℕ} {env : Fin n → α} {a : α} {P : α → Prop} :
    (∀ i, P (push env a i)) ↔ (∀ i, P (env i)) ∧ P a := by
  simp [Fin.forall_fin_succ', push]

theorem comp_push {α β : Type} {n : ℕ} (f : α → β) (env : Fin n → α) (a : α) :
    f ∘ push env a = push (f ∘ env) (f a) :=
  Fin.comp_snoc ..

theorem ofFn_push {α : Type} {n : ℕ} (env : Fin n → α) (a : α) :
    List.ofFn (push env a) = List.ofFn env ++ [a] := by
  rw [List.ofFn_succ', List.concat_eq_append]
  simp [push]

/-- The rest of a function that builds tasks, with `n` tasks in scope. -/
inductive Prog (S V : Type) : ℕ → Type
  | ret {n : ℕ} (x : Fin n) : Prog S V n
  | source {n : ℕ} (s : S) (rest : Prog S V (n + 1)) : Prog S V n
  | task {n : ℕ} (func : Unit → V) (rest : Prog S V (n + 1)) : Prog S V n
  | map {n : ℕ} (x : Fin n) (func : V → V) (rest : Prog S V (n + 1)) : Prog S V n
  | bind {n : ℕ} (x : Fin n) (func : V → Prog S V n) (rest : Prog S V (n + 1)) : Prog S V n

variable {S V E : Type}

/-- The result of `map`, given the one of the task it is called on. -/
def mapMeaning (func : V → V) (r : Result V E) : Result V E :=
  r.mapResult (fun v => .value (func v)) .error

namespace Prog

/-- The task that the program gives back, when the sources get the results `σ`. -/
def eval (σ : S → Result V E) : {n : ℕ} → Prog S V n → (Fin n → Result V E) → Result V E
  | _, .ret x, env => env x
  | _, .source s rest, env => rest.eval σ (push env (σ s))
  | _, .task func rest, env => rest.eval σ (push env (.value (func ())))
  | _, .map x func rest, env => rest.eval σ (push env (mapMeaning func (env x)))
  | _, .bind x func rest, env =>
    rest.eval σ (push env ((env x).mapResult (fun v => (func v).eval σ env) .error))

/-- The result of `bind`, given the ones of the tasks in scope. -/
def bindMeaning (σ : S → Result V E) {n : ℕ} (func : V → Prog S V n) (env : Fin n → Result V E)
    (r : Result V E) : Result V E :=
  r.mapResult (fun v => (func v).eval σ env) .error

/-- The tasks that the program makes, in order. -/
def tasks (σ : S → Result V E) : {n : ℕ} → Prog S V n → (Fin n → Result V E) → List (Result V E)
  | _, .ret _, _ => []
  | _, .source s rest, env => σ s :: rest.tasks σ (push env (σ s))
  | _, .task func rest, env => .value (func ()) :: rest.tasks σ (push env (.value (func ())))
  | _, .map x func rest, env =>
    mapMeaning func (env x) :: rest.tasks σ (push env (mapMeaning func (env x)))
  | _, .bind x func rest, env =>
    bindMeaning σ func env (env x) :: rest.tasks σ (push env (bindMeaning σ func env (env x)))

end Prog

/-! ### The library -/

/-- The callbacks that `Task::map` and `Task::bind` register. -/
inductive Callback (S V : Type)
  | map (cell : ℕ) (func : V → V)
  | bind (trackingCell errorCell : ℕ) {n : ℕ} (env : Fin n → ℕ) (func : V → Prog S V n)

/-- The cell of the task that `map` or `bind` returned. -/
def Callback.cell : Callback S V → ℕ
  | .map cell _ => cell
  | .bind trackingCell _ _ _ => trackingCell

/-- The jobs of the scheduler: the one that `Task(scheduler, func)` queues, and those of cells. -/
inductive Job (S V E : Type)
  | task (cell : ℕ) (func : Unit → V)
  | callback (q : Queued V E (Callback S V))

/-- A function being executed: its tasks in scope, the rest of its body, and the cell that is to
track the task it returns (none for the main program). -/
structure Frame (S V : Type) where
  n : ℕ
  env : Fin n → ℕ
  prog : Prog S V n
  trackingCell : Option ℕ

/-- The tasks made so far, each with its cell and the call that made it. -/
inductive Made (S V : Type)
  | source (cell : ℕ) (s : S)
  | task (cell : ℕ) (func : Unit → V)
  | map (cell src : ℕ) (func : V → V)
  | bind (cell src errorCell : ℕ) {n : ℕ} (env : Fin n → ℕ) (func : V → Prog S V n)

namespace Made

def cell : Made S V → ℕ
  | .source cell _ | .task cell _ | .map cell _ _ | .bind cell _ _ _ _ => cell

/-- The callback that the call registered, with the cell it registered it on. -/
def registered : Made S V → Option (ℕ × Callback S V)
  | .source _ _ | .task _ _ => none
  | .map cell src func => some (src, .map cell func)
  | .bind cell src errorCell env func => some (src, .bind cell errorCell env func)

end Made

/-- The cells, the pending jobs and the functions in execution; `made` and `invoked` (the cell of
each task whose function was called, once for each call) record what has happened. -/
structure Machine (S V E : Type) where
  heap : Heap V E (Callback S V)
  jobs : Multiset (Job S V E)
  frames : Multiset (Frame S V)
  made : List (Made S V)
  invoked : List ℕ

namespace Machine

/-- The main program is about to run. -/
def Init (p : Prog S V 0) (s : Machine S V E) : Prop :=
  s = ⟨⟨0, fun _ => .writeOnce .init⟩, 0, {⟨0, Fin.elim0, p, none⟩}, [], []⟩

def queue (s : Machine S V E) (jobs : List (Queued V E (Callback S V))) : Machine S V E :=
  { s with jobs := s.jobs + (jobs.map Job.callback : List _) }

def await (s : Machine S V E) (c : ℕ) (callback : Callback S V) : Machine S V E :=
  { s with heap := (s.heap.await c callback).1 }.queue (s.heap.await c callback).2

def write (s : Machine S V E) (c : ℕ) (ctx : Context) (result : Result V E) : Machine S V E :=
  { s with heap := (s.heap.writeResult c ctx result).1 }.queue
    (s.heap.writeResult c ctx result).2.1

def track (s : Machine S V E) (c newCell : ℕ) : Machine S V E :=
  { s with heap := (s.heap.track c newCell).1 }.queue (s.heap.track c newCell).2.1

def alloc (s : Machine S V E) (cell : ICell V E (Callback S V)) : Machine S V E :=
  { s with heap := s.heap.alloc cell }

def record (s : Machine S V E) (m : Made S V) : Machine S V E := { s with made := m :: s.made }

def call (s : Machine S V E) (c : ℕ) : Machine S V E := { s with invoked := c :: s.invoked }

def enter (s : Machine S V E) (f : Frame S V) : Machine S V E := { s with frames := f ::ₘ s.frames }

/-- The next statement of a function in execution. -/
def runFrame (s : Machine S V E) : Frame S V → Machine S V E
  | ⟨n, env, .ret x, none⟩ => s.enter ⟨n, env, .ret x, none⟩
  | ⟨_, env, .ret x, some trackingCell⟩ => s.track trackingCell (env x)
  | ⟨n, env, .source src rest, trackingCell⟩ =>
    let c := s.heap.size
    ((s.alloc (.writeOnce .init)).record (.source c src)).enter
      ⟨n + 1, push env c, rest, trackingCell⟩
  | ⟨n, env, .task func rest, trackingCell⟩ =>
    let c := s.heap.size
    let s := (s.alloc (.writeOnce .init)).record (.task c func)
    { s with jobs := .task c func ::ₘ s.jobs }.enter ⟨n + 1, push env c, rest, trackingCell⟩
  | ⟨n, env, .map x func rest, trackingCell⟩ =>
    let c := s.heap.size
    (((s.alloc (.writeOnce .init)).record (.map c (env x) func)).await (env x)
      (.map c func)).enter ⟨n + 1, push env c, rest, trackingCell⟩
  | ⟨n, env, .bind x func rest, trackingCell⟩ =>
    let c := s.heap.size
    let errorCell := s.heap.size + 1
    ((((s.alloc (.tracking .init)).alloc (.writeOnce .init)).record
      (.bind c (env x) errorCell env func)).await (env x) (.bind c errorCell env func)).enter
        ⟨n + 1, push env c, rest, trackingCell⟩

/-- A job, run under the context `ctx`. -/
def runJob (s : Machine S V E) (ctx : Context) : Job S V E → Machine S V E
  | .task cell func => s.write cell ctx (.value (func ()))
  | .callback ⟨_, .map cell func, result⟩ => result.mapResult
      (fun v => (s.call cell).write cell ctx (.value (func v)))
      (fun err => s.write cell ctx (.error err))
  | .callback ⟨_, .bind trackingCell errorCell env func, result⟩ => result.mapResult
      (fun v => (s.call trackingCell).enter ⟨_, env, func v, some trackingCell⟩)
      (fun err => (s.write errorCell ctx (.error err)).enter
        ⟨1, fun _ => errorCell, .ret 0, some trackingCell⟩)

/-- The main program or a function given to `bind` takes a step, the scheduler runs any pending job
under any context, or a source is completed. -/
inductive Step (σ : S → Result V E) : Machine S V E → Machine S V E → Prop
  | frame {s f frames} (h : s.frames = f ::ₘ frames) :
    Step σ s ({ s with frames := frames }.runFrame f)
  | job {s j jobs} (ctx : Context) (h : s.jobs = j ::ₘ jobs) :
    Step σ s ({ s with jobs := jobs }.runJob ctx j)
  | complete {s c src} (ctx : Context) (h : .source c src ∈ s.made) :
    Step σ s (s.write c ctx (σ src))

end Machine
end AsyncEry.Async
