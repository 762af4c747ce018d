import Mathlib

/-!
# Runs of a transition system

`Reach init step` are the states reached from an initial one, `Run init step` the infinite runs in
which any number of stutter steps may stand between two steps (a finite run stutters for ever).
`Inductive.reach` is the invariant rule, `Run.map` the run of a part of the system.
`Run.exists_step_between` finds the step of a run that decided the answer of an operation.
-/

namespace Lts

variable {σ τ : Type*} {init : σ → Prop} {step : σ → σ → Prop} {init' : τ → Prop} {step' : τ → τ → Prop}
  {P Q : σ → Prop}

/-- The states a system reaches. -/
inductive Reach (init : σ → Prop) (step : σ → σ → Prop) : σ → Prop
  | start {s : σ} (h : init s) : Reach init step s
  | next {s s' : σ} (h : Reach init step s) (hs : step s s') : Reach init step s'

theorem Reach.steps {s s' : σ} (h : Reach init step s) (hs : Relation.ReflTransGen step s s') :
    Reach init step s' := by
  induction hs with
  | refl => exact h
  | tail _ hs ih => exact ih.next hs

/-- `P` holds initially and every step preserves it. -/
structure Inductive (init : σ → Prop) (step : σ → σ → Prop) (P : σ → Prop) : Prop where
  base : ∀ s, init s → P s
  step : ∀ s s', P s → step s s' → P s'

theorem Inductive.reach (h : Inductive init step P) {s : σ} (hs : Reach init step s) : P s := by
  induction hs with
  | start hs => exact h.base _ hs
  | next _ hstep ih => exact h.step _ _ ih hstep

/-- A run: each state is the one before it or a step after it. -/
structure Run (init : σ → Prop) (step : σ → σ → Prop) where
  state : ℕ → σ
  starts : init (state 0)
  steps : ∀ n, state (n + 1) = state n ∨ step (state n) (state (n + 1))

namespace Run

theorem reach (r : Run init step) (n : ℕ) : Reach init step (r.state n) := by
  induction n with
  | zero => exact .start r.starts
  | succ n ih =>
    rcases r.steps n with h | h
    · rw [h]; exact ih
    · exact ih.next h

/-- Every state that is reached is one of a run. -/
theorem exists_state {s : σ} (h : Reach init step s) : ∃ (r : Run init step) (n : ℕ), r.state n = s := by
  induction h with
  | start h => exact ⟨⟨fun _ => _, h, fun _ => .inl rfl⟩, 0, rfl⟩
  | @next s s' _ hs ih =>
    obtain ⟨r, n, hn⟩ := ih
    refine ⟨⟨fun k => if k ≤ n then r.state k else s', ?_, fun k => ?_⟩, n + 1, if_neg (by omega)⟩
    · rw [if_pos (Nat.zero_le n)]
      exact r.starts
    · rcases Nat.lt_trichotomy k n with hk | hk | hk
      · rw [if_pos (show k ≤ n by omega), if_pos (show k + 1 ≤ n by omega)]
        exact r.steps k
      · rw [if_pos (show k ≤ n by omega), if_neg (show ¬ k + 1 ≤ n by omega), hk, hn]
        exact .inr hs
      · rw [if_neg (show ¬ k ≤ n by omega), if_neg (show ¬ k + 1 ≤ n by omega)]
        exact .inl rfl

/-- What a run does to a part of the state. -/
def map (r : Run init step) (f : σ → τ) (hinit : ∀ s, init s → init' (f s))
    (hstep : ∀ s s', Reach init step s → step s s' → f s' = f s ∨ step' (f s) (f s')) : Run init' step' where
  state n := f (r.state n)
  starts := hinit _ r.starts
  steps n := (r.steps n).elim (fun h => .inl (by rw [h])) (hstep _ _ (r.reach n))

/-- What every step keeps is kept from any moment of a run on. -/
theorem stable (r : Run init step)
    (hstep : ∀ s s', Reach init step s → step s s' → P s → P s') {i j : ℕ} (hij : i ≤ j)
    (hi : P (r.state i)) : P (r.state j) := by
  induction j, hij using Nat.le_induction with
  | base => exact hi
  | succ j _ ih =>
    rcases r.steps j with h | h
    · rw [h]; exact ih
    · exact hstep _ _ (r.reach j) h ih

/-- Between a state without `Q` and a later one with `Q` stands a step that establishes `Q`; when every
such step inside the phase `P` is a `W`, there is a `W` in between. -/
theorem exists_step_between {W : σ → σ → Prop} (r : Run init step) {i j : ℕ} (hij : i ≤ j)
    (hphase : ∀ m, i ≤ m → m ≤ j → P (r.state m)) (hi : ¬ Q (r.state i)) (hj : Q (r.state j))
    (hstep : ∀ s s', Reach init step s → step s s' → P s → P s' → ¬ Q s → Q s' → W s s') :
    ∃ m, i ≤ m ∧ m < j ∧ W (r.state m) (r.state (m + 1)) := by
  induction j, hij using Nat.le_induction with
  | base => exact absurd hj hi
  | succ j hij ih =>
    by_cases hQ : Q (r.state j)
    · obtain ⟨m, him, hmj, hW⟩ := ih (fun m h h' => hphase m h (by omega)) hQ
      exact ⟨m, him, by omega, hW⟩
    · refine ⟨j, hij, Nat.lt_succ_self j, ?_⟩
      rcases r.steps j with h | h
      · rw [h] at hj; exact absurd hj hQ
      · exact hstep _ _ (r.reach j) h (hphase j hij (by omega)) (hphase (j + 1) (by omega) (le_refl _))
          hQ hj

theorem exists_between {W : σ → Prop} (r : Run init step) {i j : ℕ} (hij : i ≤ j)
    (hphase : ∀ m, i ≤ m → m ≤ j → P (r.state m)) (hi : ¬ Q (r.state i)) (hj : Q (r.state j))
    (hstep : ∀ s s', Reach init step s → step s s' → P s → P s' → ¬ Q s → Q s' → W s) :
    ∃ m, i ≤ m ∧ m < j ∧ W (r.state m) :=
  r.exists_step_between (W := fun s _ => W s) hij hphase hi hj hstep

end Run
end Lts
