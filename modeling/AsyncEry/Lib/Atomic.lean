import AsyncEry.Lib.Mealy
import AsyncEry.Lib.Run

/-!
# Atomic objects

An object that any number of threads call, and whose operations take effect in one step each: a call,
some time later its effect on the value in the object, with the answer, and later again the return. In
between the other threads do what they like. What such an object has done is a sequence of operations
run one after another (`sequential_of_reach`), and each call that has an answer has its operation in the
sequence at a place between its call and its return (`Run.exists_effect`). A system that an atomic object
simulates call by call is linearizable.
-/

namespace Lts

/-- Where a thread stands with the object. -/
inductive Call (Op Ans : Type*)
  | idle
  | pending (op : Op)
  | answered (op : Op) (answer : Ans)

/-- `history` records the operations in the order in which they took effect: by whom, which, and what
was answered. -/
structure Atomic (Tid σ Op Ans : Type*) where
  value : σ
  call : Tid → Call Op Ans
  history : List (Tid × Op × Ans)

namespace Atomic

variable {Tid σ Op Ans : Type*} {apply : σ → Op → σ × Ans} {start : σ}

def Init (start : σ) (s : Atomic Tid σ Op Ans) : Prop := s = ⟨start, fun _ => .idle, []⟩

section
variable [DecidableEq Tid]

def goto (s : Atomic Tid σ Op Ans) (t : Tid) (c : Call Op Ans) : Atomic Tid σ Op Ans :=
  { s with call := Function.update s.call t c }

inductive Step (apply : σ → Op → σ × Ans) : Atomic Tid σ Op Ans → Atomic Tid σ Op Ans → Prop
  | call {s t} (op : Op) (h : s.call t = .idle) : Step apply s (s.goto t (.pending op))
  | effect {s t op} (h : s.call t = .pending op) :
      Step apply s { s.goto t (.answered op (apply s.value op).2) with
        value := (apply s.value op).1, history := s.history ++ [(t, op, (apply s.value op).2)] }
  | ret {s t op answer} (h : s.call t = .answered op answer) : Step apply s (s.goto t .idle)

end

/-- The history is a run of the operations one after another, and the value is what they have made. -/
structure Sequential (apply : σ → Op → σ × Ans) (start : σ) (s : Atomic Tid σ Op Ans) : Prop where
  answers : Mealy.run apply start (s.history.map fun h => h.2.1) = s.history.map fun h => h.2.2
  value : Mealy.final apply start (s.history.map fun h => h.2.1) = s.value

variable [DecidableEq Tid] {s s' : Atomic Tid σ Op Ans} {t : Tid} {op : Op} {answer : Ans}

theorem Sequential.step (h : s.Sequential apply start) (hs : Step apply s s') :
    s'.Sequential apply start := by
  cases hs with
  | call | ret => exact ⟨h.answers, h.value⟩
  | @effect t op =>
    constructor
    · rw [List.map_append, List.map_append, List.map_singleton, List.map_singleton, Mealy.run_concat,
        h.answers, h.value]
    · rw [List.map_append, List.map_singleton, Mealy.final_concat, h.value]

theorem sequential_of_reach (h : Reach (Init start) (Step apply) s) : s.Sequential apply start := by
  refine Inductive.reach ⟨fun s h => ?_, fun _ _ h hs => h.step hs⟩ h
  subst h
  exact ⟨rfl, rfl⟩

/-- The step in which a call of `op` by `t` takes effect. -/
structure Effect (apply : σ → Op → σ × Ans) (t : Tid) (op : Op) (answer : Ans)
    (s s' : Atomic Tid σ Op Ans) : Prop where
  pending : s.call t = .pending op
  answered : s'.call t = .answered op answer
  value : apply s.value op = (s'.value, answer)
  history : s'.history = s.history ++ [(t, op, answer)]

/-- A call gets its answer in the step in which it takes effect. -/
theorem Step.effect_of_answered (hs : Step apply s s') (hcall : s.call t ≠ .answered op answer)
    (hcall' : s'.call t = .answered op answer) : Effect apply t op answer s s' := by
  cases hs with
  | @call u op' hu | @ret u op' answer' hu =>
    have hcall' : Function.update s.call u _ t = .answered op answer := hcall'
    by_cases htu : t = u
    · subst htu
      rw [Function.update_self] at hcall'
      cases hcall'
    · rw [Function.update_of_ne htu] at hcall'
      exact absurd hcall' hcall
  | @effect u op' hu =>
    have hcall' : Function.update s.call u _ t = .answered op answer := hcall'
    by_cases htu : t = u
    · subst htu
      rw [Function.update_self] at hcall'
      cases hcall'
      exact ⟨hu, Function.update_self .., rfl, rfl⟩
    · rw [Function.update_of_ne htu] at hcall'
      exact absurd hcall' hcall

/-- A call that is answered has taken effect, in one step since it was made. -/
theorem exists_effect (r : Run (Init start : Atomic Tid σ Op Ans → Prop) (Step apply)) {i j : ℕ}
    (hij : i ≤ j) (hi : (r.state i).call t = .pending op) (hj : (r.state j).call t = .answered op answer) :
    ∃ m, i ≤ m ∧ m < j ∧ Effect apply t op answer (r.state m) (r.state (m + 1)) :=
  r.exists_step_between (P := fun _ => True) (Q := fun s => s.call t = .answered op answer) hij
    (fun _ _ _ => trivial) (by rw [hi]; nofun) hj fun _ _ _ hs _ _ => hs.effect_of_answered

end Atomic
end Lts
