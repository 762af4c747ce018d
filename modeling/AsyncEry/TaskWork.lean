import AsyncEry.TaskEval

/-!
# Task programs come to an end

What a program has left to do is a finite collection of `Work`: the functions in execution, the jobs,
and the callbacks that wait for a result. Each step of a function or a job takes one item and puts in
its parts; a function given to `bind` may return anything, but it is a part of the `bind` whatever value
it is given. So the steps of functions and jobs are the moves of a hydra game, and there is an end to
them; completing a source leaves the work as it is.
-/

namespace AsyncEry.Async
open Cell Scheduler Lts Relation

variable {S V E : Type}

namespace Work

end Work

namespace Machine

variable {σ : S → Result V E} {p : Prog S V 0} {G G' : Ghost V E} {s s' : Machine S V E}
  {ran : Multiset (Callback S V × Result V E)}

section frame
variable {n : ℕ} {env : Fin n → ℕ} {rest : Prog S V (n + 1)} {tc : Option ℕ} {frames : Multiset (Frame S V)}

end frame

section job
variable {q : Queued V E (Callback S V)} {jobs : Multiset (Job S V E)} {ctx : Context} {c : ℕ}

end job

/-- The main program has returned. -/
def Returned (f : Frame S V) : Prop := f.trackingCell = none ∧ ∃ x, f.prog = .ret x

end Machine
end AsyncEry.Async
