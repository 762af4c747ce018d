import AsyncEry.WheelReleases

/-!
# The subtractions of `determine_timer_wheel`

The test whether a timer fits takes the cursor of the wheel into account, the subtraction that follows
it does not. So what is taken off is more than what is left where that lies between the ticks of the
present turn and those of a full one.
-/

namespace AsyncEry.Timing

variable {Timer : Type}

/-- The subtractions made in the loop: the ticks to fit, and what is taken off them. -/
def subtractions : Wheel Timer → List (Wheel Timer) → ℕ → List (ℕ × ℕ)
  | _, [], _ => []
  | wheel, above :: rest, ticksToFit =>
    if SizeT.add wheel.currBucketIndex (ticksToFit / wheel.ticksPerBucket) < wheel.numBuckets then []
    else
      let turn := SizeT.mul wheel.numBuckets wheel.ticksPerBucket
      (ticksToFit, turn) :: subtractions above rest (SizeT.sub ticksToFit turn)

/-- On each wheel that the loop comes to below the top, what is to fit is less than the present turn or
at least a full one (or so much that it wraps to an index below the cursor, where the loop ends). -/
def Clear : Wheel Timer → List (Wheel Timer) → ℕ → Prop
  | _, [], _ => True
  | wheel, above :: rest, k =>
    2 ^ 64 ≤ wheel.currBucketIndex + k / wheel.ticksPerBucket ∨ k < wheel.remaining ∨
      wheel.numBuckets * wheel.ticksPerBucket ≤ k ∧
        Clear above rest (k - wheel.numBuckets * wheel.ticksPerBucket)

variable {w : Wheel Timer} {ws : List (Wheel Timer)} {T k : ℕ}

/-- The search is its subtractions, one a wheel. -/
theorem determineTimerWheel_eq : determineTimerWheel w ws k =
    ((subtractions w ws k).length, (subtractions w ws k).foldl (fun k p => SizeT.sub k p.2) k) := by
  induction ws generalizing w k with
  | nil => rfl
  | cons v vs ih =>
    rw [determineTimerWheel, subtractions]
    split
    · rfl
    · rw [ih]
      rfl

/-- The test of the loop, where it adds up. -/
theorem fits_iff (h : w.Graded T) (hlt : w.currBucketIndex + k / T < 2 ^ 64) :
    SizeT.add w.currBucketIndex (k / w.ticksPerBucket) < w.numBuckets ↔ k < w.remaining := by
  have hcur := w.currBucketIndex.isLt
  rw [h.ticks, SizeT.add_of_lt hlt, Wheel.remaining, h.ticks, ← Nat.div_lt_iff_lt_mul h.pos]
  omega

theorem fits_of_wrap (h : w.Graded T) (hk : k < 2 ^ 64) (hle : 2 ^ 64 ≤ w.currBucketIndex + k / T) :
    SizeT.add w.currBucketIndex (k / w.ticksPerBucket) < w.numBuckets := by
  have hcur := w.currBucketIndex.isLt
  have hdiv := Nat.div_le_self k T
  have hsize := h.size
  rw [h.ticks, SizeT.add]
  omega

theorem subtractions_exact_iff (h : Graded T (w :: ws)) (hk : k < 2 ^ 64) :
    (∀ p ∈ subtractions w ws k, p.2 ≤ p.1) ↔ Clear w ws k := by
  induction ws generalizing w T k with
  | nil => exact iff_of_true (fun p hp => absurd hp List.not_mem_nil) trivial
  | cons v vs ih =>
    have hmul : SizeT.mul w.numBuckets w.ticksPerBucket = w.numBuckets * w.ticksPerBucket := by
      rw [h.1.ticks]
      exact SizeT.mul_of_lt (Nat.mul_comm T _ ▸ h.mul_lt)
    have hdone : SizeT.add w.currBucketIndex (k / w.ticksPerBucket) < w.numBuckets →
        ∀ p ∈ subtractions w (v :: vs) k, p.2 ≤ p.1 := by
      intro hfit p hp
      rw [subtractions, if_pos hfit] at hp
      cases hp
    rw [Clear, h.1.ticks]
    by_cases hwrap : 2 ^ 64 ≤ w.currBucketIndex + k / T
    · exact iff_of_true (hdone (fits_of_wrap h.1 hk hwrap)) (.inl hwrap)
    · have hfits := fits_iff h.1 (not_le.1 hwrap)
      by_cases hfit : k < w.remaining
      · exact iff_of_true (hdone (hfits.2 hfit)) (.inr (.inl hfit))
      · rw [subtractions, if_neg (mt hfits.1 hfit), hmul, h.1.ticks, List.forall_mem_cons]
        constructor
        · rintro ⟨hle, hrest⟩
          rw [SizeT.sub_of_le hle hk] at hrest
          exact .inr (.inr ⟨hle, (ih h.2 ((Nat.sub_le ..).trans_lt hk)).1 hrest⟩)
        · rintro (hwrap' | hfit' | ⟨hle, hrest⟩)
          · exact absurd hwrap' hwrap
          · exact absurd hfit' hfit
          · refine ⟨hle, ?_⟩
            rw [SizeT.sub_of_le hle hk]
            exact (ih h.2 ((Nat.sub_le ..).trans_lt hk)).2 hrest

theorem foldl_sub_le (h : ∀ p ∈ subtractions w ws k, p.2 ≤ p.1) (hk : k < 2 ^ 64) :
    (subtractions w ws k).foldl (fun k p => SizeT.sub k p.2) k ≤ k := by
  induction ws generalizing w k with
  | nil => exact le_rfl
  | cons v vs ih =>
    rw [subtractions] at h ⊢
    split
    · exact le_rfl
    · next hfit =>
      rw [if_neg hfit, List.forall_mem_cons] at h
      have hsub := SizeT.sub_of_le h.1 hk
      refine (ih h.2 ?_).trans ?_ <;> rw [hsub]
      · exact (Nat.sub_le ..).trans_lt hk
      · exact Nat.sub_le ..

/-- Wherever the cursors stand, every subtraction takes off no more than there is, and what comes back
is at most what was asked for, exactly when `k` is clear of the gaps. -/
theorem determineTimerWheel_exact_iff (w : Wheel Timer) (ws : List (Wheel Timer)) (k : ℕ)
    (h : Graded 1 (w :: ws)) (hk : k < 2 ^ 64) :
    (∀ p ∈ subtractions w ws k, p.2 ≤ p.1) ∧ (determineTimerWheel w ws k).2 ≤ k ↔ Clear w ws k := by
  rw [← subtractions_exact_iff h hk, determineTimerWheel_eq, and_iff_left_iff_imp]
  exact fun hexact => foldl_sub_le hexact hk

namespace HierarchicalTimingWheel

/-- One tick has passed, so one tick is left of the turn of the lowest wheel; a timer for one tick does
not fit, and two are taken off. -/
theorem determineTimerWheel_underflows :
    let s := Mealy.final step (create 50 0 2 [3] : HierarchicalTimingWheel ℕ) [.advance 50000000]
    subtractions s.lowestWheel s.wheelsAbove 1 = [(1, 2)] ∧
      determineTimerWheel s.lowestWheel s.wheelsAbove 1 = (1, 2 ^ 64 - 1) ∧
      ¬ ((∀ p ∈ subtractions s.lowestWheel s.wheelsAbove 1, p.2 ≤ p.1) ∧
        (determineTimerWheel s.lowestWheel s.wheelsAbove 1).2 ≤ 1) := by
  decide

/-- Two ticks after one has passed: a full turn of the lowest wheel, which is taken off. -/
theorem determineTimerWheel_exact :
    let s := Mealy.final step (create 50 0 2 [3] : HierarchicalTimingWheel ℕ) [.advance 50000000]
    (∀ p ∈ subtractions s.lowestWheel s.wheelsAbove 2, p.2 ≤ p.1) ∧
      (determineTimerWheel s.lowestWheel s.wheelsAbove 2).2 ≤ 2 := by
  intro s
  exact (determineTimerWheel_exact_iff s.lowestWheel s.wheelsAbove 2
    (graded_final 50 0 2 [3] (by decide) [.advance 50000000]) (by decide)).2 (.inr (.inr ⟨by decide, trivial⟩))

end HierarchicalTimingWheel
end AsyncEry.Timing
