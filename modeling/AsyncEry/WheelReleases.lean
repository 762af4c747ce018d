import AsyncEry.WheelRuns

/-!
# The tick at which a stored entry comes out

From any state of the wheels, also one that no run leads to: an entry comes out at the tick that its
bucket, its offset and the cursors of the wheels up to its own say, however the ticks are spread over
the calls and whatever is scheduled in between.
-/

namespace AsyncEry.Timing

variable {Timer α : Type}

/-- The number of the tick, the next one being number 0, at which an entry in bucket `b` of wheel `i`
comes out. -/
def releaseTick (ws : List (Wheel Timer)) (i : Fin ws.length) (b : Fin (ws.get i).numBuckets)
    (entry : TimerEntry Timer) : ℕ :=
  ((ws.take i).map Wheel.remaining).sum +
    (b + ((ws.get i).numBuckets - (ws.get i).currBucketIndex)) % (ws.get i).numBuckets *
      (ws.get i).ticksPerBucket +
    entry.tickOffsetIntoBucket

/-- The timers of all entries, with the ticks at which they come out. -/
def releases (ws : List (Wheel Timer)) : Multiset (ℕ × Timer) :=
  ∑ i : Fin ws.length, ∑ b : Fin (ws.get i).numBuckets,
    Multiset.ofList (((ws.get i).entries b).map fun entry => (releaseTick ws i b entry, entry.timer))

variable {ws : List (Wheel Timer)} {z : ℕ}

theorem chainDues_eq_sum : chainDues z ws =
    ∑ i : Fin ws.length, ∑ b : Fin (ws.get i).numBuckets,
      Multiset.ofList
        (((ws.get i).entries b).map fun entry => (z + releaseTick ws i b entry, entry.timer)) := by
  induction ws generalizing z with
  | nil => rfl
  | cons w ws ih =>
    rw [chainDues, ih]
    refine Eq.trans ?_ (Fin.sum_univ_succ (n := ws.length) _).symm
    congr 1
    · refine Finset.sum_congr rfl fun b _ => congrArg Multiset.ofList (List.map_congr_left fun e _ => ?_)
      refine congrArg (·, e.timer) ?_
      show z + Ring.dist w.numBuckets w.currBucketIndex b * w.ticksPerBucket + _ =
        z + (0 + (b + (w.numBuckets - w.currBucketIndex)) % w.numBuckets * w.ticksPerBucket + _)
      rw [Ring.dist_eq_mod w.currBucketIndex.isLt b.isLt, Nat.zero_add, Nat.add_assoc]
    · refine Finset.sum_congr rfl fun i _ => Finset.sum_congr rfl fun b _ =>
        congrArg Multiset.ofList (List.map_congr_left fun e _ => ?_)
      refine congrArg (·, e.timer) ?_
      show z + w.remaining + (_ + _ + e.tickOffsetIntoBucket) =
        z + ((w.remaining :: (ws.take i).map Wheel.remaining).sum + _ + e.tickOffsetIntoBucket)
      rw [List.sum_cons]
      simp only [Nat.add_assoc]
      rfl

theorem releases_eq_chainDues : releases ws = chainDues 0 ws := by
  rw [chainDues_eq_sum, releases]
  simp only [Nat.zero_add]

namespace HierarchicalTimingWheel
variable {s : HierarchicalTimingWheel Timer} {c : Calendar α} {f : α → Timer}

namespace Loaded

theorem schedule (h : s.Loaded f c) (duration : Milliseconds) (a : α) :
    (s.schedule duration (f a)).Loaded f (c.book (s.dueTick c.now duration) a) := by
  refine ⟨?_, dues_schedule h.dues duration a⟩
  show Graded 1 (s.place _ _ _).wheels
  rw [wheels_place]
  exact h.graded.place _

theorem advance (h : s.Loaded f c) (now : TimePoint) :
    ((s.advance now).2 : Multiset Timer) =
        (c.handOver (s.completedBuckets now).length : Multiset α).map f ∧
      (s.advance now).1.Loaded f (c.skip (s.completedBuckets now).length) := by
  have hcur : s.lowestWheel.currBucketIndex % s.lowestWheel.numBuckets =
      s.lowestWheel.currBucketIndex := Nat.mod_eq_of_lt s.lowestWheel.currBucketIndex.isLt
  rw [advance_eq]
  unfold completedBuckets
  split
  · exact ⟨rfl, h⟩
  · obtain ⟨hout, hnext⟩ := h.processBuckets hcur
      (s.determineNewBottomWheelIndex now - s.lowestWheel.currBucketIndex)
    rw [List.length_range']
    exact ⟨hout, hnext.graded, hnext.dues⟩

/-- What was stored stays booked, and what else is booked was scheduled. -/
theorem run {s : HierarchicalTimingWheel Timer} {c : Calendar Timer} (h : s.Loaded id c)
    (calls : List (Call Timer)) :
    ∃ booked : List (ℕ × Timer), booked.map Prod.snd = calls.filterMap Call.timer? ∧
      (Mealy.final step s calls).Loaded id ⟨c.now + s.ticksProcessed calls, c.booked ++ booked⟩ := by
  induction calls generalizing s c with
  | nil => exact ⟨[], rfl, by rw [List.append_nil]; exact h⟩
  | cons call calls ih =>
    cases call with
    | schedule duration timer =>
      obtain ⟨booked, hbooked, hfinal⟩ := ih (h.schedule duration timer)
      refine ⟨(s.dueTick c.now duration, timer) :: booked, congrArg (timer :: ·) hbooked, ?_⟩
      rw [List.append_cons]
      show (Mealy.final step (s.schedule duration timer) calls).Loaded id ⟨c.now + (0 + _), _⟩
      rw [Nat.zero_add]
      exact hfinal
    | advance now =>
      obtain ⟨booked, hbooked, hfinal⟩ := ih (h.advance now).2
      refine ⟨booked, hbooked, ?_⟩
      show (Mealy.final step (s.advance now).1 calls).Loaded id ⟨c.now + (_ + _), _⟩
      rw [← Nat.add_assoc]
      exact hfinal

end Loaded

theorem graded_final (tickSize : Milliseconds) (start : TimePoint) (size : ℕ+) (sizes : List ℕ+)
    (hP : ((size :: sizes).map PNat.val).prod < 2 ^ 64) (calls : List (Call Timer)) :
    Graded 1 (Mealy.final step (create tickSize start size sizes) calls).wheels := by
  obtain ⟨_, -, h⟩ := ((Holds.create hP rfl).loaded hP : Loaded id .empty _).run calls
  exact h.graded

/-- The calendar in which every entry is booked for the tick at which it comes out. -/
theorem loaded_releases (hs : Graded 1 s.wheels) : s.Loaded id ⟨0, (releases s.wheels).toList⟩ := by
  refine ⟨hs, ?_⟩
  rw [Calendar.pending, Multiset.coe_toList, releases_eq_chainDues, Multiset.filter_eq_self.2 fun p _ =>
    Nat.zero_le p.1]
  exact (Multiset.map_id _).symm

/-- Whatever the state and whatever calls have been made since, an advance returns the entries that
were stored with release ticks among those that it processes, and apart from them only timers that were
scheduled meanwhile. -/
theorem run_releases_stored (s : HierarchicalTimingWheel Timer) (hs : Graded 1 s.wheels)
    (calls : List (Call Timer)) (now : TimePoint) :
    let s' := Mealy.final step s calls
    let t := s.ticksProcessed calls
    let n := (s'.completedBuckets now).length
    ∃ others : Multiset Timer, others ≤ calls.filterMap Call.timer? ∧
      ((s'.advance now).2 : Multiset Timer) =
        ((releases s.wheels).filter fun p => t ≤ p.1 ∧ p.1 < t + n).map Prod.snd + others := by
  intro s' t n
  obtain ⟨booked, hbooked, hfinal⟩ := (loaded_releases hs).run calls
  rw [Nat.zero_add] at hfinal
  refine ⟨((booked : Multiset (ℕ × Timer)).filter fun p => t ≤ p.1 ∧ p.1 < t + n).map Prod.snd, ?_, ?_⟩
  · rw [← hbooked, ← Multiset.map_coe]
    exact Multiset.map_le_map (Multiset.filter_le _ _)
  · rw [(hfinal.advance now).1, Multiset.map_id, Calendar.handOver_eq_filter, ← Multiset.coe_add,
      Multiset.coe_toList, Multiset.filter_add, Multiset.map_add]

/-- A timer of the second wheel, for two ticks, comes out with tick number 2. -/
theorem run_releases_stored_second :
    releases ((create 50 0 2 [3]).schedule 100 7).wheels = {(2, 7)} ∧
      ∃ others : Multiset ℕ, others ≤ {8} ∧
        (((Mealy.final step ((create 50 0 2 [3]).schedule 100 7)
          [.advance 50000000, .schedule 50 8]).advance 150000000).2 : Multiset ℕ) = {7} + others := by
  have hs : Graded 1 ((create 50 0 2 [3]).schedule 100 7).wheels :=
    graded_final 50 0 2 [3] (by decide) [.schedule 100 7]
  have hreleases : releases ((create 50 0 2 [3]).schedule 100 7).wheels = {(2, 7)} := by decide
  obtain ⟨others, hothers, hout⟩ := run_releases_stored _ hs [.advance 50000000, .schedule 50 8] 150000000
  refine ⟨hreleases, others, hothers, hout.trans ?_⟩
  rw [hreleases]
  rfl

end HierarchicalTimingWheel
end AsyncEry.Timing
