import AsyncEry.PooledTasks

/-!
# Task programs compute their meaning

On a pool of any number of workers, in every fair run in which the sources are completed, the program
returns, the pool falls idle, and the task that was returned holds what the program means. There is an
end to the steps of functions and jobs (`Inv.work_frame`, `Inv.work_job`), then to the completions that
matter, and a fair run leaves no job behind (`Pooled.exists_executed`).
-/

namespace AsyncEry.Async.Machine
open Cell Scheduler Lts Relation

variable {S V E : Type} [Inhabited (Job S V E)] {n : ℕ} {σ : S → Result V E} {p : Prog S V 0}
  {s s' : Pooled n (Machine S V E) (Job S V E)} {k m : ℕ}

/-! ### The end of a run -/

/-- The threads of the program go on: while a function is in execution some function takes a step, and
every source is completed some time. -/
structure Proceeds (r : Run (Pooled.Init (Init p)) (Pooled.Step (taskClient n σ))) : Prop where
  frames : ∀ k, (∃ f ∈ (r.state k).state.frames, ¬ Returned f) →
    ∃ m, k ≤ m ∧ (r.state (m + 1)).state.frames ≠ (r.state m).state.frames
  sources : ∀ k c src, .source c src ∈ (r.state k).state.made →
    ∃ m, k ≤ m ∧ ((r.state m).state.heap.value c).isSome

/-- What is left from moment `k` on is to complete sources. -/
structure Settled (r : Run (Pooled.Init (Init p)) (Pooled.Step (taskClient n σ))) (k : ℕ) : Prop where
  executed : ∀ m, k ≤ m → (r.state (m + 1)).pool.executed = (r.state m).pool.executed
  machine : ∀ m, k ≤ m → onPool (r.state (m + 1)) = onPool (r.state m) ∨ ∃ c src ctx,
    .source c src ∈ (r.state m).state.made ∧
      onPool (r.state (m + 1)) = (onPool (r.state m)).write c ctx (σ src)

variable {r : Run (Pooled.Init (Init p)) (Pooled.Step (taskClient n σ))}

namespace Settled

theorem made (h : Settled r k) (hkm : k ≤ m) : (r.state m).state.made = (r.state k).state.made := by
  refine eq_of_unchanged (f := fun m => (onPool (r.state m)).made) (fun m hkm => ?_) hkm
  rcases h.machine m hkm with heq | ⟨c, src, ctx, -, heq⟩
  all_goals rw [heq]
  rfl

theorem frames (h : Settled r k) (hkm : k ≤ m) : (r.state (m + 1)).state.frames = (r.state m).state.frames := by
  show (onPool (r.state (m + 1))).frames = (onPool (r.state m)).frames
  rcases h.machine m hkm with heq | ⟨c, src, ctx, -, heq⟩
  all_goals rw [heq]
  rfl

theorem filled (h : Settled r k) {c : ℕ} (hkm : k ≤ m) (hv : ((r.state m).state.heap.value c).isSome) {j : ℕ}
    (hmj : m ≤ j) : ((r.state j).state.heap.value c).isSome := by
  induction j, hmj using Nat.le_induction with
  | base => exact hv
  | succ j hmj ih =>
    show ((onPool (r.state (j + 1))).heap.value c).isSome
    rcases h.machine j (hkm.trans hmj) with heq | ⟨c', src, ctx, -, heq⟩
    · rw [heq]
      exact ih
    · rw [heq]
      exact Heap.isSome_value_writeResult (.inl ih)

end Settled

omit [Inhabited (Job S V E)] in
theorem write_of_filled {s : Machine S V E} {c : ℕ} (hv : (s.heap.value c).isSome) (ctx : Context)
    (r : Result V E) : s.write c ctx r = s := by
  unfold Machine.write queue
  rw [Heap.writeResult_of_some hv]
  simp

/-- Nothing changes when the sources are completed, and so no job is left. -/
theorem Settled.held_eq_zero (h : Settled r k) (hn : 0 < n) (hf : Pooled.Fair r)
    (hsrc : ∀ m, k ≤ m → (r.state m).state.SourcesResolved) (hkm : k ≤ m) : (r.state m).pool.held = 0 := by
  have hheld : ∀ m, k ≤ m → (r.state m).pool.held = (r.state k).pool.held := by
    refine fun m hkm => eq_of_unchanged (f := fun m => (onPool (r.state m)).jobs) (fun m hkm => ?_) hkm
    rcases h.machine m hkm with heq | ⟨c, src, ctx, hmem, heq⟩
    · rw [heq]
    · have hv : ((onPool (r.state m)).heap.value c).isSome := hsrc m hkm c src hmem
      rw [heq, write_of_filled hv]
  have hoffered : ∀ m, k ≤ m → (r.state m).pool.offered = (r.state k).pool.offered := by
    intro m hkm
    have hk := congrArg Multiset.card (Pooled.inv_of_reach (r.reach k)).offered_eq
    have hm := congrArg Multiset.card (Pooled.inv_of_reach (r.reach m)).offered_eq
    rw [hheld m hkm, eq_of_unchanged (f := fun m => (r.state m).pool.executed) h.executed hkm, ← hk] at hm
    exact ((Pooled.grows_of_le r hkm).offered.eq_of_length hm.symm).symm
  rw [hheld m hkm]
  by_contra hzero
  obtain ⟨j, hkj, hj⟩ := Pooled.exists_executed r hn hf hoffered hzero
  exact hj (h.executed j hkj)

theorem Settled.returned (h : Settled r k) (hr : Proceeds r) {f : Frame S V}
    (hf : f ∈ (r.state k).state.frames) : Returned f := by
  by_contra hnot
  obtain ⟨m, hkm, hm⟩ := hr.frames k ⟨f, hf, hnot⟩
  exact hm (h.frames hkm)

end AsyncEry.Async.Machine
