import AsyncEry.Lib.Run

/-!
# What comes about in a run

Fairness says that some part of the state changes again and again. `Run.exists_change` finds the next
step that changes it, `exists_of_descent` is the induction on how far away a goal is, `Run.descend`
counts the steps that bring it closer, and `Run.extend` makes a run out of a state that is reached and a
way to go on from there.
-/

namespace Lts

variable {σ β : Type*} {init : σ → Prop} {step : σ → σ → Prop} {f : ℕ → β} {k m : ℕ}

/-- First `s`, then `f`. -/
def cons (s : σ) (f : ℕ → σ) (n : ℕ) : σ := n.casesOn s f

theorem cons_steps {s : σ} {f : ℕ → σ} (hs : step s (f 0)) (hf : ∀ n, step (f n) (f (n + 1))) (n : ℕ) :
    step (cons s f n) (cons s f (n + 1)) := by
  cases n with
  | zero => exact hs
  | succ n => exact hf n

/-- What is there, or closer some time later, is there some time later. -/
theorem exists_of_descent {P : ℕ → Prop} (distance : ℕ → ℕ)
    (h : ∀ m, k ≤ m → ∃ j, m ≤ j ∧ (P j ∨ distance j < distance m)) (hkm : k ≤ m) : ∃ j, m ≤ j ∧ P j := by
  induction hd : distance m using Nat.strong_induction_on generalizing m with
  | _ d ih =>
    obtain ⟨j, hmj, hj | hj⟩ := h m hkm
    · exact ⟨j, hmj, hj⟩
    · obtain ⟨i, hji, hi⟩ := ih _ (hd ▸ hj) (hkm.trans hmj) rfl
      exact ⟨i, hmj.trans hji, hi⟩

theorem eq_of_unchanged (h : ∀ m, k ≤ m → f (m + 1) = f m) (hkm : k ≤ m) : f m = f k := by
  induction m, hkm using Nat.le_induction with
  | base => rfl
  | succ m hkm ih => rw [h m hkm, ih]

/-- What only changes for something smaller reaches a value below which there is none. -/
theorem exists_minimal {r : β → β → Prop} (hr : WellFounded r) (h : ∀ m, f (m + 1) = f m ∨ r (f (m + 1)) (f m)) :
    ∃ k, ∀ m, k ≤ m → ¬ r (f (m + 1)) (f m) := by
  obtain ⟨_, ⟨k, rfl⟩, hmin⟩ := hr.has_min (Set.range f) ⟨f 0, 0, rfl⟩
  have hsame : ∀ m, k ≤ m → f m = f k := by
    intro m hkm
    induction m, hkm using Nat.le_induction with
    | base => rfl
    | succ m hkm ih =>
      rcases h m with heq | hlt
      · rw [heq, ih]
      · rw [ih] at hlt
        exact absurd hlt (hmin _ ⟨m + 1, rfl⟩)
  exact ⟨k, fun m hkm => by rw [hsame m hkm]; exact hmin _ ⟨m + 1, rfl⟩⟩

namespace Run

/-- The next change of a part of the state. -/
theorem exists_change (r : Run init step) {g : σ → β}
    (h : ∃ m, k ≤ m ∧ g (r.state (m + 1)) ≠ g (r.state m)) :
    ∃ m, k ≤ m ∧ g (r.state m) = g (r.state k) ∧ g (r.state (m + 1)) ≠ g (r.state m) ∧
      step (r.state m) (r.state (m + 1)) := by
  classical
  obtain ⟨hkm, hne⟩ := Nat.find_spec h
  have hbefore : ∀ j, k ≤ j → j < Nat.find h → g (r.state (j + 1)) = g (r.state j) :=
    fun j hkj hj => not_not.1 fun hj' => Nat.find_min h hj ⟨hkj, hj'⟩
  refine ⟨Nat.find h, hkm, ?_, hne, (r.steps _).resolve_left fun heq => hne (by rw [heq])⟩
  suffices hsame : ∀ j, k ≤ j → j ≤ Nat.find h → g (r.state j) = g (r.state k) from hsame _ hkm le_rfl
  intro j hkj hj
  induction j, hkj using Nat.le_induction with
  | base => rfl
  | succ j hkj ih => rw [hbefore j hkj hj, ih (by omega)]

/-- A state that is reached, and a way to go on from it, are a run. -/
theorem extend {s : σ} (h : Reach init step s) (f : ℕ → σ) (hstart : f 0 = s)
    (hsteps : ∀ n, step (f n) (f (n + 1))) : ∃ (r : Run init step) (k : ℕ), ∀ n, r.state (k + n) = f n := by
  obtain ⟨r, k, hk⟩ := exists_state h
  refine ⟨⟨fun n => if n ≤ k then r.state n else f (n - k), ?_, fun n => ?_⟩, k, fun n => ?_⟩
  · rw [if_pos (Nat.zero_le k)]
    exact r.starts
  · rcases Nat.lt_trichotomy n k with hn | rfl | hn
    · rw [if_pos (show n ≤ k by omega), if_pos (show n + 1 ≤ k by omega)]
      exact r.steps n
    · rw [if_pos le_rfl, if_neg (by omega), hk, ← hstart, Nat.add_sub_cancel_left]
      exact .inr (hsteps 0)
    · rw [if_neg (by omega), if_neg (by omega), Nat.sub_add_comm hn.le]
      exact .inr (hsteps _)
  · dsimp only
    split
    · obtain rfl : n = 0 := by omega
      rw [Nat.add_zero, hk, hstart]
    · rw [Nat.add_sub_cancel_left]

/-- How many of the `k` steps from moment `i` on satisfy `P`. -/
def count (r : Run init step) (P : σ → σ → Prop) [DecidableRel P] (i : ℕ) : ℕ → ℕ
  | 0 => 0
  | k + 1 => r.count P i k + if P (r.state (i + k)) (r.state (i + k + 1)) then 1 else 0

/-- What comes closer with every step that satisfies `P`. -/
theorem descend (r : Run init step) {P : σ → σ → Prop} [DecidableRel P] {Q : ℕ → σ → Prop} {n i : ℕ}
    (hP : ∀ s, ¬ P s s)
    (hstep : ∀ n s s', Reach init step s → Q n s → step s s' → Q (n - if P s s' then 1 else 0) s')
    (h : Q n (r.state i)) (k : ℕ) : Q (n - r.count P i k) (r.state (i + k)) := by
  induction k with
  | zero => exact h
  | succ k ih =>
    show Q (n - (_ + _)) (r.state (i + k + 1))
    rw [← Nat.sub_sub]
    rcases r.steps (i + k) with heq | hs
    · rw [heq, if_neg (hP _)]
      exact ih
    · exact hstep _ _ _ (r.reach _) ih hs

end Run
end Lts
