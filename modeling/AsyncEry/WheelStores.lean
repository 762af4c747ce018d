import AsyncEry.WheelRuns

/-!
# What a hierarchical wheel stores

The timers of all buckets of all wheels. A bucket is read, its entries are moved or returned, and then
it is cleared, so a timer is neither lost nor doubled: wherever the cursors stand and whatever the
arithmetic of the placements comes to, each timer that was scheduled has been returned or is stored.
-/

namespace AsyncEry.Timing

variable {Timer : Type}

namespace Wheel
variable {w : Wheel Timer} {z : ℕ}

def stored (w : Wheel Timer) : Multiset Timer :=
  ∑ b, ((w.entries b).map TimerEntry.timer : List Timer)

theorem map_dues : (w.dues z).map Prod.snd = w.stored := by
  unfold dues stored
  rw [← Multiset.coe_mapAddMonoidHom, map_sum]
  refine Finset.sum_congr rfl fun b _ => ?_
  rw [Multiset.coe_mapAddMonoidHom, bucketDues, Multiset.map_coe, List.map_map]
  rfl

theorem stored_push (b : Fin w.numBuckets) (entry : TimerEntry Timer) :
    (w.push b entry).stored = w.stored + {entry.timer} := by
  rw [← map_dues (z := 0), dues_push, Multiset.map_add, map_dues]
  rfl

theorem stored_clear (b : Fin w.numBuckets) :
    (w.clear b).stored + ((w.entries b).map TimerEntry.timer : List Timer) = w.stored := by
  rw [← map_dues (z := 0), ← map_dues (z := 0), ← dues_clear b, Multiset.map_add, bucketDues,
    Multiset.map_coe, List.map_map]
  rfl

theorem stored_next : w.next.stored = w.stored := by
  unfold stored entries next
  rfl

theorem stored_turn : w.turn.stored + ((w.entries w.currBucketIndex).map TimerEntry.timer : List Timer) =
    w.stored := by
  rw [turn, stored_next, stored_clear]

theorem stored_receive_all (entries : List (TimerEntry Timer)) :
    (entries.foldl receive w).stored =
      w.stored + (entries.map TimerEntry.timer : List Timer) := by
  induction entries generalizing w with
  | nil => exact (add_zero _).symm
  | cons e entries ih =>
    rw [List.foldl_cons, ih, receive, stored_push, add_assoc]
    rfl

end Wheel

def storedIn (ws : List (Wheel Timer)) : Multiset Timer := (ws.map Wheel.stored).sum

theorem storedIn_cons (w : Wheel Timer) (ws : List (Wheel Timer)) :
    storedIn (w :: ws) = w.stored + storedIn ws := List.sum_cons

theorem map_chainDues {z : ℕ} (ws : List (Wheel Timer)) :
    (chainDues z ws).map Prod.snd = storedIn ws := by
  induction ws generalizing z with
  | nil => rfl
  | cons w ws ih => rw [chainDues, Multiset.map_add, Wheel.map_dues, ih, storedIn_cons]

/-- A cascade moves entries down and keeps them all. -/
theorem storedIn_load (below : Wheel Timer) (above : List (Wheel Timer)) :
    (loadTimersFromWheel below above).1.stored + storedIn (loadTimersFromWheel below above).2 =
      below.stored + storedIn above := by
  induction above generalizing below with
  | nil => rfl
  | cons w ws ih =>
    have hmoved : ((w.entries w.currBucketIndex).foldl Wheel.receive below).stored + w.turn.stored =
        below.stored + w.stored := by
      rw [Wheel.stored_receive_all, add_assoc, add_comm _ w.turn.stored, Wheel.stored_turn]
    rw [storedIn_cons, ← add_assoc, ← hmoved, loadTimersFromWheel]
    unfold Wheel.turn
    dsimp only
    split
    · rw [storedIn_cons, ih, add_assoc]
    · rw [storedIn_cons, add_assoc]

namespace HierarchicalTimingWheel
variable {s : HierarchicalTimingWheel Timer}

def stored (s : HierarchicalTimingWheel Timer) : Multiset Timer := storedIn s.wheels

theorem stored_processBucket (b : Fin s.lowestWheel.numBuckets) :
    ((s.processBucket b).2 : Multiset Timer) + (s.processBucket b).1.stored = s.stored := by
  have hcleared : (s.lowestWheel.clear b).next.stored +
      ((s.lowestWheel.entries b).map TimerEntry.timer : List Timer) = s.lowestWheel.stored :=
    Wheel.stored_clear b
  unfold stored wheels processBucket
  dsimp only
  rw [storedIn_cons s.lowestWheel, ← hcleared, add_comm]
  split
  · rw [storedIn_cons, storedIn_load, add_right_comm]
  · rw [storedIn_cons, add_right_comm]

theorem stored_processBuckets (completed : List ℕ) :
    ((s.processBuckets completed).2 : Multiset Timer) + (s.processBuckets completed).1.stored =
      s.stored := by
  induction completed generalizing s with
  | nil => exact zero_add _
  | cons idx completed ih =>
    rw [processBuckets, ← Multiset.coe_add, add_assoc, ih, stored_processBucket]

theorem stored_advance (now : TimePoint) :
    ((s.advance now).2 : Multiset Timer) + (s.advance now).1.stored = s.stored := by
  unfold advance
  split
  · exact zero_add _
  · exact stored_processBuckets _

theorem stored_schedule (duration : Milliseconds) (timer : Timer) :
    (s.schedule duration timer).stored = s.stored + {timer} := by
  show storedIn (s.place _ _ _).wheels = storedIn s.wheels + _
  rw [wheels_place, wheels, ← map_chainDues (z := 0), chainDues_place determineTimerWheel_lt,
    Multiset.map_add, map_chainDues]
  rfl

theorem stored_create (tickSize : Milliseconds) (now : TimePoint) (size : ℕ+) (sizes : List ℕ+) :
    (create tickSize now size sizes : HierarchicalTimingWheel Timer).stored = 0 := by
  unfold stored
  rw [wheels_create, ← map_chainDues (z := 0), chainDues_createWheels]
  rfl

theorem stored_run (calls : List (Call Timer)) :
    s.stored + (calls.filterMap Call.timer? : List Timer) =
      (Mealy.run step s calls).flatten + (Mealy.final step s calls).stored := by
  induction calls generalizing s with
  | nil => exact (add_zero _).trans (zero_add _).symm
  | cons call calls ih =>
    rw [Mealy.run, Mealy.final, List.flatten_cons, ← Multiset.coe_add, add_assoc, ← ih]
    cases call with
    | schedule duration timer =>
      show _ = 0 + ((s.schedule duration timer).stored + _)
      rw [stored_schedule, zero_add, add_assoc]
      rfl
    | advance now =>
      show _ = ((s.advance now).2 : Multiset Timer) + ((s.advance now).1.stored + _)
      rw [← add_assoc, stored_advance]
      rfl

/-- After every call, the timers that were scheduled are those that advances have returned and those
that are stored, and a placement finds a wheel. -/
theorem run_conserves_timers (tickSize : Milliseconds) (start : TimePoint) (size : ℕ+)
    (sizes : List ℕ+) (calls : List (Call Timer)) :
    let s := Mealy.final step (create tickSize start size sizes) calls
    (calls.filterMap Call.timer? : Multiset Timer) =
        (Mealy.run step (create tickSize start size sizes) calls).flatten + s.stored ∧
      ∀ ticksToFit, (determineTimerWheel s.lowestWheel s.wheelsAbove ticksToFit).1 < s.wheels.length := by
  refine ⟨?_, fun _ => determineTimerWheel_lt⟩
  rw [← stored_run, stored_create, zero_add]

end HierarchicalTimingWheel
end AsyncEry.Timing
