import Mathlib

/-!
# Scheduling contexts and cell results

The two value types that every layer passes around: `Scheduler::Context`
(`scheduling_context.h`) and `Cell::Result` (`cell_result.h`).
-/

namespace AsyncEry

namespace Scheduler

/-- The worker whose queue the continuations of a job go to, if any. -/
structure Context where
  workerId : Option ℕ
deriving DecidableEq, Repr

/-- `Context::empty()`. -/
def Context.empty : Context := ⟨none⟩

end Scheduler

namespace Cell

/-- `std::variant<T, Err>`. -/
inductive Result (T Err : Type)
  | value (v : T)
  | error (e : Err)
deriving DecidableEq, Repr

namespace Result
variable {T Err : Type}

/-- `visit_result` and `map_result`: one function for a value, one for an error. -/
def mapResult {α : Sort*} (result : Result T Err) (tFunc : T → α) (errFunc : Err → α) : α :=
  match result with
  | .value v => tFunc v
  | .error e => errFunc e

@[simp] theorem mapResult_value {α : Sort*} (v : T) (f : T → α) (g : Err → α) :
    (value v).mapResult f g = f v := rfl

@[simp] theorem mapResult_error {α : Sort*} (e : Err) (f : T → α) (g : Err → α) :
    (error e).mapResult f g = g e := rfl

end Result
end Cell
end AsyncEry
