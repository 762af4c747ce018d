import Mathlib

/-!
# Runs of machines with inputs and outputs

`run step s is` are the outputs of a machine that is fed the inputs `is` one after another and `final`
the state that it ends in, `total` adds up what the inputs cost, `Meets` says that each input is allowed
in the state it is fed to.
`run_forall₂` is the simulation rule: two machines whose states stay related give related outputs.
-/

namespace Mealy

variable {σ τ ι ω ω' : Type*}

def run (step : σ → ι → σ × ω) (s : σ) : List ι → List ω
  | [] => []
  | i :: is => (step s i).2 :: run step (step s i).1 is

def final (step : σ → ι → σ × ω) (s : σ) : List ι → σ
  | [] => s
  | i :: is => final step (step s i).1 is

/-- What the inputs cost in all. -/
def total (step : σ → ι → σ × ω) (cost : σ → ι → ℕ) (s : σ) : List ι → ℕ
  | [] => 0
  | i :: is => cost s i + total step cost (step s i).1 is

/-- Every input satisfies `ok` in the state that it finds. -/
def Meets (step : σ → ι → σ × ω) (ok : σ → ι → Prop) (s : σ) : List ι → Prop
  | [] => True
  | i :: is => ok s i ∧ Meets step ok (step s i).1 is

theorem run_concat (step : σ → ι → σ × ω) (s : σ) (is : List ι) (i : ι) :
    run step s (is ++ [i]) = run step s is ++ [(step (final step s is) i).2] := by
  induction is generalizing s with
  | nil => rfl
  | cons j is ih => exact congrArg (_ :: ·) (ih _)

theorem final_concat (step : σ → ι → σ × ω) (s : σ) (is : List ι) (i : ι) :
    final step s (is ++ [i]) = (step (final step s is) i).1 := by
  induction is generalizing s with
  | nil => rfl
  | cons j is ih => exact ih _

theorem Meets.and {step : σ → ι → σ × ω} {ok : σ → ι → Prop} {p : ι → Prop} {s : σ} {is : List ι}
    (h : Meets step ok s is) (hp : ∀ i ∈ is, p i) : Meets step (fun s i => p i ∧ ok s i) s is := by
  induction is generalizing s with
  | nil => trivial
  | cons i is ih =>
    exact ⟨⟨hp i (List.mem_cons_self ..), h.1⟩, ih h.2 fun j hj => hp j (List.mem_cons_of_mem i hj)⟩

theorem meets_of_forall {step : σ → ι → σ × ω} {p : ι → Prop} {s : σ} {is : List ι}
    (hp : ∀ i ∈ is, p i) : Meets step (fun _ i => p i) s is := by
  induction is generalizing s with
  | nil => trivial
  | cons i is ih => exact ⟨hp i (List.mem_cons_self ..), ih fun j hj => hp j (List.mem_cons_of_mem i hj)⟩

theorem run_forall₂ {step : σ → ι → σ × ω} {step' : τ → ι → τ × ω'} {ok : σ → ι → Prop}
    {R : σ → τ → Prop} {Q : ω → ω' → Prop}
    (hsim : ∀ s t i, R s t → ok s i → R (step s i).1 (step' t i).1 ∧ Q (step s i).2 (step' t i).2)
    {s : σ} {t : τ} (h : R s t) {is : List ι} (his : Meets step ok s is) :
    List.Forall₂ Q (run step s is) (run step' t is) := by
  induction is generalizing s t with
  | nil => exact .nil
  | cons i is ih =>
    obtain ⟨hR, hQ⟩ := hsim s t i h his.1
    exact .cons hQ (ih hR his.2)

end Mealy
