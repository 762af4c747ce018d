import AsyncEry.PollPeriod

/-!
# The poll thread comes round

If the poll thread keeps going, it comes back to `advance` again and again, and a source that an advance
has handed out gets its turn.
-/

namespace AsyncEry.Scheduler.PollLoop
open Timing Lts

variable {Job : Type} {n : ℕ} {s s' : PollLoop Job} {source : ℕ} {rest : List ℕ} {jobs : List Job}

/-- How far the loop is from the head of an iteration. -/
def distance (s : PollLoop Job) : ℕ :=
  match s.point with
  | .head => 0
  | .next => 3 * s.ready.length + 3
  | .queue _ => 3 * s.ready.length + 2
  | .reschedule _ => 3 * s.ready.length + 1

theorem Step.distance_lt (hs : Step s s') (hpoint : s.point ≠ .head) : s'.distance < s.distance := by
  cases hs with
  | advance now h => exact absurd h hpoint
  | poll jobs h hr => simp [distance, h]
  | queue h => simp [distance, h]
  | reschedule frequency h hr ha h0 hlt =>
    simp only [distance, h, hr, List.length_cons]
    omega
  | done h hr => simp [distance, h]

theorem Step.of_next (hs : Step s s') (h : s.point = .next) (hr : s.ready = source :: rest) :
    ∃ jobs, s'.point = .queue jobs ∧ s'.ready = source :: rest := by
  cases hs with
  | poll jobs => exact ⟨jobs, rfl, hr⟩
  | done _ hr' => cases hr.symm.trans hr'
  | advance _ h' | queue h' | reschedule _ h' => cases h.symm.trans h'

theorem Step.of_queue (hs : Step s s') (h : s.point = .queue jobs) :
    s'.point = .reschedule jobs ∧ s'.ready = s.ready := by
  cases hs with
  | queue h' =>
    cases h.symm.trans h'
    exact ⟨rfl, rfl⟩
  | advance _ h' | poll _ h' | reschedule _ h' | done h' => cases h.symm.trans h'

theorem Step.of_reschedule (hs : Step s s') (h : s.point = .reschedule jobs)
    (hr : s.ready = source :: rest) : s'.point = .next ∧ s'.ready = rest := by
  cases hs with
  | reschedule _ _ hr' =>
    cases hr.symm.trans hr'
    exact ⟨rfl, rfl⟩
  | advance _ h' | poll _ h' | queue h' | done h' => cases h.symm.trans h'

/-- After an advance less than a tick is left over. -/
theorem lt_last_advance (w : TimingWheel ℕ) (now : TimePoint) (htick : 0 < nanos w.wheelTickSize) :
    since now (w.advance now).1.lastAdvancementTime < nanos w.wheelTickSize := by
  unfold TimingWheel.advance
  split
  · assumption
  · exact (sub_self now.toInt).trans_lt htick

/-- The poll thread goes on again and again. -/
def Goes (run : Run (Init n : PollLoop Job → Prop) Step) : Prop :=
  ∀ k, ∃ m, k ≤ m ∧ run.state (m + 1) ≠ run.state m

namespace Goes
variable {run : Run (Init n : PollLoop Job → Prop) Step}

/-- Its next step. -/
theorem exists_step (h : Goes run) (k : ℕ) : ∃ m, k ≤ m ∧ run.state m = run.state k ∧
    run.state (m + 1) ≠ run.state m ∧ Step (run.state m) (run.state (m + 1)) :=
  run.exists_change (g := id) (h k)

/-- It advances the wheel some time. -/
theorem exists_advance (h : Goes run) (k : ℕ) : ∃ m, k ≤ m ∧ (run.state m).point = .head ∧
    run.state (m + 1) ≠ run.state m := by
  obtain ⟨j, hkj, hhead⟩ : ∃ j, k ≤ j ∧ (run.state j).point = .head := by
    refine exists_of_descent (fun m => (run.state m).distance) (fun m _ => ?_) le_rfl
    by_cases hhead : (run.state m).point = .head
    · exact ⟨m, le_rfl, .inl hhead⟩
    · obtain ⟨j, hmj, hsame, -, hs⟩ := h.exists_step m
      rw [← hsame] at hhead
      refine ⟨j + 1, by omega, .inr ?_⟩
      rw [← hsame]
      exact hs.distance_lt hhead
  obtain ⟨m, hjm, hsame, hne, -⟩ := h.exists_step j
  exact ⟨m, hkj.trans hjm, by rw [hsame, hhead], hne⟩

/-- A source in the batch gets its turn. -/
theorem exists_turn (h : Goes run) {k : ℕ} (hpoint : (run.state k).point = .next)
    (hsource : source ∈ (run.state k).ready) : ∃ m, k ≤ m ∧ (run.state m).point = .next ∧
      (run.state m).ready.head? = some source ∧ run.state (m + 1) ≠ run.state m := by
  obtain ⟨d, hd⟩ := List.mem_iff_getElem?.1 hsource
  clear hsource
  -- a round brings it one place forward
  induction d generalizing k with
  | zero =>
    obtain ⟨m, hkm, hsame, hne, -⟩ := h.exists_step k
    rw [← hsame] at hpoint hd
    exact ⟨m, hkm, hpoint, by rw [List.head?_eq_getElem?, hd], hne⟩
  | succ d ih =>
    cases hr : (run.state k).ready with
    | nil => rw [hr] at hd; cases hd
    | cons first rest =>
      obtain ⟨i, hki, hsame, -, hs⟩ := h.exists_step k
      rw [← hsame] at hpoint hr
      obtain ⟨jobs, hp₁, hr₁⟩ := hs.of_next hpoint hr
      obtain ⟨j, hij, hsame₁, -, hs₁⟩ := h.exists_step (i + 1)
      rw [← hsame₁] at hp₁ hr₁
      obtain ⟨hp₂, hr₂⟩ := hs₁.of_queue hp₁
      obtain ⟨l, hjl, hsame₂, -, hs₂⟩ := h.exists_step (j + 1)
      rw [← hsame₂] at hp₂ hr₂
      obtain ⟨hp₃, hr₃⟩ := hs₂.of_reschedule hp₂ (hr₂.trans hr₁)
      have hd' : (run.state (l + 1)).ready[d]? = some source := by
        rw [hr₃, ← hd, ← hsame, hr, List.getElem?_cons_succ]
      obtain ⟨m, hlm, hm⟩ := ih hp₃ hd'
      exact ⟨m, by omega, hm⟩

end Goes
end AsyncEry.Scheduler.PollLoop
