import AsyncEry.WheelReleases
import AsyncEry.WheelStores

/-!
# Durations beyond the capacity

From wheels that all stand at their first bucket, `determine_timer_wheel` walks up to the top wheel for
every timer that no lower wheel holds, and the top wheel takes whatever is left modulo its size. So a
timer for more ticks than there are buckets for goes round the top wheel to a near bucket.
-/

namespace AsyncEry.Timing

variable {Timer : Type}

/-- The ticks that the wheels have buckets for. -/
def capacity (ws : List (Wheel Timer)) : ℕ := (ws.map fun w => w.numBuckets * w.ticksPerBucket).sum

/-- The ticks of a turn of all the wheels. -/
def turnTicks (ws : List (Wheel Timer)) : ℕ := (ws.map Wheel.numBuckets).prod

/-- The number of the tick, the next one being number 0, at which a timer for `k` ticks comes out. -/
def landing (capacity turn k : ℕ) : ℕ :=
  if k < capacity then k else capacity - turn + (k - capacity) % turn

variable {w : Wheel Timer} {ws : List (Wheel Timer)} {T k z : ℕ}

theorem turnTicks_pos (ws : List (Wheel Timer)) : 0 < turnTicks ws :=
  List.prod_pos fun n hn => by
    obtain ⟨w, -, rfl⟩ := List.mem_map.1 hn
    exact w.currBucketIndex.pos

theorem turnTicks_cons : turnTicks (w :: ws) = w.numBuckets * turnTicks ws := List.prod_cons

theorem Graded.capacity_cons (h : Graded T (w :: ws)) :
    capacity (w :: ws) = T * w.numBuckets + capacity ws := by
  rw [capacity, List.map_cons, List.sum_cons, h.1.ticks, Nat.mul_comm]
  rfl

/-- A turn of all the wheels is a turn of the top wheel. -/
theorem Graded.turn_le_capacity (h : Graded T (w :: ws)) : T * turnTicks (w :: ws) ≤ capacity (w :: ws) := by
  induction ws generalizing w T with
  | nil => rw [h.capacity_cons, turnTicks_cons]; exact (congrArg (T * ·) (Nat.mul_one _)).le
  | cons v vs ih =>
    have hle := ih h.2
    rw [h.capacity_cons, turnTicks_cons, ← Nat.mul_assoc]
    exact hle.trans (Nat.le_add_left ..)

theorem dueAt_top (hT : w.ticksPerBucket = T) (h0 : w.currBucketIndex.val = 0) (hk : k < 2 ^ 64) :
    dueAt z (w :: ws) 0 k = z + k % (T * w.numBuckets) := by
  have hdiv : k / T < 2 ^ 64 := (Nat.div_le_self _ _).trans_lt hk
  have hbucket : (w.bucket (SizeT.add w.currBucketIndex (k / w.ticksPerBucket))).val =
      k / T % w.numBuckets := by
    rw [h0, hT, SizeT.add_of_lt (by omega), Nat.zero_add]
    rfl
  rw [dueAt, Ring.dist, hbucket, h0, if_pos (Nat.zero_le _), Nat.sub_zero, hT, Nat.mod_mul,
    Nat.mul_comm _ T, Nat.add_assoc, Nat.add_comm (T * _)]

theorem landing_of_le {c turn m : ℕ} (hm : m ≤ k) (hturn : turn ≤ c) :
    landing (m + c) turn k = m + landing c turn (k - m) := by
  unfold landing
  have hsub : k - (m + c) = k - m - c := by omega
  rw [hsub]
  split_ifs <;> omega

/-- Where a timer for `k` ticks comes out of wheels that stand at their first buckets. -/
theorem dueAt_of_zero (h : Graded T (w :: ws)) (h0 : ∀ v ∈ w :: ws, v.currBucketIndex.val = 0)
    (hk : k < 2 ^ 64) :
    dueAt z (w :: ws) (determineTimerWheel w ws k).1 (determineTimerWheel w ws k).2 =
      z + landing (capacity (w :: ws)) (T * turnTicks (w :: ws)) k := by
  obtain ⟨hw0, hws0⟩ := List.forall_mem_cons.1 h0
  induction ws generalizing w T z k with
  | nil =>
    rw [h.capacity_cons, turnTicks_cons]
    show dueAt z [w] 0 k = z + landing (T * w.numBuckets + 0) (T * (w.numBuckets * 1)) k
    rw [dueAt_top h.1.ticks hw0 hk, Nat.add_zero, Nat.mul_one, landing]
    split
    · next hlt => rw [Nat.mod_eq_of_lt hlt]
    · next hle => rw [Nat.sub_self, Nat.zero_add, Nat.mod_eq_sub_mod (not_lt.1 hle)]
  | cons v vs ih =>
    have hdiv : k / T < 2 ^ 64 := (Nat.div_le_self _ _).trans_lt hk
    rw [determineTimerWheel, hw0, h.1.ticks, SizeT.add_of_lt (by omega), Nat.zero_add]
    rw [h.capacity_cons, turnTicks_cons, ← Nat.mul_assoc]
    split
    · next hfit =>
      have hlt : k < T * w.numBuckets := by
        rw [Nat.mul_comm]
        exact (Nat.div_lt_iff_lt_mul h.1.pos).1 hfit
      show dueAt z (w :: v :: vs) 0 k = _
      rw [dueAt_top h.1.ticks hw0 hk, landing, if_pos (by omega), Nat.mod_eq_of_lt hlt]
    · next hfit =>
      have hle : T * w.numBuckets ≤ k := by
        rw [Nat.mul_comm]
        exact not_lt.1 fun hlt => hfit ((Nat.div_lt_iff_lt_mul h.1.pos).2 hlt)
      have hsub : SizeT.sub k (SizeT.mul w.numBuckets T) = k - T * w.numBuckets := by
        rw [SizeT.mul_of_lt (Nat.mul_comm T _ ▸ h.mul_lt), Nat.mul_comm, SizeT.sub_of_le hle hk]
      have hremaining : w.remaining = T * w.numBuckets := by
        rw [Wheel.remaining, hw0, Nat.sub_zero, h.1.ticks, Nat.mul_comm]
      rw [hsub]
      show dueAt (z + w.remaining) (v :: vs) _ _ = _
      obtain ⟨hv0, hvs0⟩ := List.forall_mem_cons.1 hws0
      rw [ih h.2 hws0 ((Nat.sub_le ..).trans_lt hk) hv0 hvs0, hremaining, Nat.add_assoc,
        ← landing_of_le hle h.2.turn_le_capacity]

namespace HierarchicalTimingWheel

/-- The constructor makes a hierarchy of wheels as soon as the ticks of a bucket of the top wheel are a
`size_t`. -/
theorem graded_createWheels (sizes : List ℕ+) {T : ℕ} (hT : 0 < T) (hsize : ∀ n ∈ sizes, (n : ℕ) < 2 ^ 64)
    (htop : T * (sizes.dropLast.map PNat.val).prod < 2 ^ 64) :
    Graded T (createWheels T sizes : List (Wheel Timer)) := by
  induction sizes generalizing T with
  | nil => trivial
  | cons n sizes ih =>
    obtain ⟨hn, hsizes⟩ := List.forall_mem_cons.1 hsize
    have hprod : ∀ l : List ℕ+, 0 < (l.map PNat.val).prod := fun l => List.prod_pos fun m hm => by
      obtain ⟨m, -, rfl⟩ := List.mem_map.1 hm
      exact m.pos
    refine ⟨⟨hT, (Nat.le_mul_of_pos_right T (hprod _)).trans_lt htop, hn, rfl, fun b e he => ?_⟩, ?_⟩
    · change e ∈ (Vector.replicate n [])[b.1] at he
      rw [Vector.getElem_replicate] at he
      cases he
    · cases sizes with
      | nil => trivial
      | cons m sizes =>
        rw [List.dropLast_cons_cons, List.map_cons, List.prod_cons, ← Nat.mul_assoc] at htop
        have hmul : SizeT.mul T n = T * n :=
          SizeT.mul_of_lt ((Nat.le_mul_of_pos_right _ (hprod _)).trans_lt htop)
        rw [hmul]
        exact ih (Nat.mul_pos hT n.pos) hsizes htop

variable {s : HierarchicalTimingWheel Timer} {timer : Timer} {duration : Milliseconds} {now : TimePoint}
  {n : ℕ}

/-- Whatever else is scheduled, `timer` is not returned before the advance that processes tick number
`tick`. -/
def NotBefore (s : HierarchicalTimingWheel Timer) (timer : Timer) (tick : ℕ) : Prop :=
  ∀ (calls : List (Call Timer)) (now : TimePoint), timer ∉ calls.filterMap Call.timer? →
    timer ∈ ((Mealy.final step s calls).advance now).2 →
      tick < s.ticksProcessed calls + ((Mealy.final step s calls).completedBuckets now).length

/-- The ticks that the clock can still show. -/
def ticksToEnd (s : HierarchicalTimingWheel Timer) : ℕ :=
  elapsed s.tickSize s.lastAdvancementTime Int64.maxValue

/-! ### The clock -/

theorem length_completedBuckets (htick : 0 < s.tickSize.toInt) (now : TimePoint) :
    (s.completedBuckets now).length * nanos s.tickSize ≤
      since (s.advance now).1.lastAdvancementTime s.lastAdvancementTime := by
  rw [advance_eq, completedBuckets]
  split
  · show (0 : ℤ) * _ ≤ since s.lastAdvancementTime s.lastAdvancementTime
    unfold since
    omega
  · next hnow =>
    have hpos := nanos_pos htick
    obtain ⟨h0, hle⟩ := ticksSince_mul_le htick (not_lt.1 hnow)
    refine le_trans (mul_le_mul_of_nonneg_right ?_ hpos.le) hle
    rw [List.length_range', determineNewBottomWheelIndex, SizeT.add, SizeT.ofInt]
    omega

theorem tickSize_step (s : HierarchicalTimingWheel Timer) (call : Call Timer) :
    (s.step call).1.tickSize = s.tickSize := by
  cases call with
  | schedule duration timer => exact (place_frame ..).1
  | advance now =>
    show (s.advance now).1.tickSize = _
    rw [advance_eq]
    exact (processBuckets_frame _).1

theorem ticksProcessed_mul_le (htick : 0 < s.tickSize.toInt) (calls : List (Call Timer)) :
    s.ticksProcessed calls * nanos s.tickSize ≤
        since (Mealy.final step s calls).lastAdvancementTime s.lastAdvancementTime ∧
      (Mealy.final step s calls).tickSize = s.tickSize := by
  induction calls generalizing s with
  | nil =>
    refine ⟨?_, rfl⟩
    show (0 : ℤ) * _ ≤ since s.lastAdvancementTime s.lastAdvancementTime
    unfold since
    omega
  | cons call calls ih =>
    have hsize := s.tickSize_step call
    obtain ⟨hle, hfinal⟩ := ih (s := (s.step call).1) (by rw [hsize]; exact htick)
    rw [hsize] at hle hfinal
    refine ⟨?_, hfinal⟩
    have hstep : (s.ticksOf call : ℤ) * nanos s.tickSize ≤
        since (s.step call).1.lastAdvancementTime s.lastAdvancementTime := by
      cases call with
      | schedule duration timer =>
        show (0 : ℤ) * _ ≤ since (s.place _ _ _).lastAdvancementTime _
        rw [(place_frame ..).2]
        unfold since
        omega
      | advance now => exact length_completedBuckets htick now
    have hsum := since_add_since (Mealy.final step s (call :: calls)).lastAdvancementTime
      (s.step call).1.lastAdvancementTime s.lastAdvancementTime
    show ((s.ticksOf call + (s.step call).1.ticksProcessed calls : ℕ) : ℤ) * _ ≤ _
    rw [← hsum, Nat.cast_add, add_mul, add_comm]
    exact add_le_add hle hstep

/-- No more ticks pass than the clock can show. -/
theorem ticks_le_ticksToEnd (htick : 0 < s.tickSize.toInt) (calls : List (Call Timer)) (now : TimePoint) :
    s.ticksProcessed calls + ((Mealy.final step s calls).completedBuckets now).length ≤ s.ticksToEnd := by
  obtain ⟨hle, hsize⟩ := ticksProcessed_mul_le htick calls
  have hlast := length_completedBuckets (s := Mealy.final step s calls) (by rw [hsize]; exact htick) now
  rw [hsize] at hlast
  set last := ((Mealy.final step s calls).advance now).1.lastAdvancementTime with hl
  have hmax := last.toInt_le
  have hsum : ((s.ticksProcessed calls + ((Mealy.final step s calls).completedBuckets now).length : ℕ) : ℤ) *
      nanos s.tickSize ≤ since Int64.maxValue s.lastAdvancementTime := by
    have hadd := since_add_since last (Mealy.final step s calls).lastAdvancementTime s.lastAdvancementTime
    rw [Nat.cast_add, add_mul]
    unfold since at hle hlast hadd ⊢
    omega
  have hpos := nanos_pos htick
  have h0 : 0 ≤ since Int64.maxValue s.lastAdvancementTime := le_trans (by positivity) hsum
  rw [ticksToEnd, elapsed, ticksSince, Int.tdiv_eq_ediv_of_nonneg h0]
  have := Int.le_ediv_of_mul_le hpos hsum
  omega

/-- The clock shows every number of ticks up to the last. -/
theorem exists_reading (htick : 0 < s.tickSize.toInt) (hn : n ≤ s.ticksToEnd) :
    ∃ now : TimePoint, since now s.lastAdvancementTime = n * nanos s.tickSize := by
  have hpos := nanos_pos htick
  have hlow := s.lastAdvancementTime.le_toInt
  have hhigh := s.lastAdvancementTime.toInt_le
  have h0 : 0 ≤ since Int64.maxValue s.lastAdvancementTime := by
    unfold since
    omega
  have hle : n * nanos s.tickSize ≤ since Int64.maxValue s.lastAdvancementTime := by
    rw [ticksToEnd, elapsed, ticksSince, Int.tdiv_eq_ediv_of_nonneg h0] at hn
    refine le_trans (mul_le_mul_of_nonneg_right ?_ hpos.le) (Int.ediv_mul_le _ hpos.ne')
    have := Int.ediv_nonneg h0 hpos.le
    omega
  refine ⟨Int64.ofInt (s.lastAdvancementTime.toInt + n * nanos s.tickSize), ?_⟩
  have hmax : Int64.maxValue.toInt = 2 ^ 63 - 1 := rfl
  have hmul : 0 ≤ n * nanos s.tickSize := by positivity
  unfold since at hle ⊢
  rw [Int64.toInt_ofInt_of_le (by omega) (by omega)]
  omega

/-! ### When a timer is returned -/

theorem dueTick_of_zero (hs : Graded 1 s.wheels) (h0 : ∀ w ∈ s.wheels, w.currBucketIndex.val = 0)
    (htick : 0 < s.tickSize.toInt) (hd : 0 ≤ duration.toInt) :
    s.dueTick 0 duration =
      landing (capacity s.wheels) (turnTicks s.wheels) (ticksIn s.tickSize duration).toNat := by
  have hnonneg := ticksIn_nonneg htick hd
  have hlt := ticksIn_lt s.tickSize hd
  unfold dueTick
  rw [SizeT.ofInt_of_lt hnonneg (by omega)]
  exact (dueAt_of_zero hs h0 (by omega)).trans (by rw [Nat.zero_add, Nat.one_mul]; rfl)

/-- The advance that returns a timer is the one that processes the tick at which it is due. -/
theorem mem_advance_iff (hs : Graded 1 s.wheels) (hfresh : timer ∉ s.stored) (calls : List (Call Timer))
    (now : TimePoint) (hcalls : timer ∉ calls.filterMap Call.timer?) :
    let s' := s.schedule duration timer
    timer ∈ ((Mealy.final step s' calls).advance now).2 ↔
      s'.ticksProcessed calls ≤ s.dueTick 0 duration ∧
        s.dueTick 0 duration <
          s'.ticksProcessed calls + ((Mealy.final step s' calls).completedBuckets now).length := by
  intro s'
  obtain ⟨booked, hbooked, hfinal⟩ := ((loaded_releases hs).schedule duration timer).run calls
  obtain ⟨hout, -⟩ := hfinal.advance now
  rw [Multiset.map_id, Multiset.coe_eq_coe] at hout
  refine hout.mem_iff.trans (Calendar.mem_handOver.trans ?_)
  show (∃ t, (t, timer) ∈ (_ ++ [(s.dueTick 0 duration, timer)]) ++ booked ∧ 0 + _ ≤ t ∧ t < 0 + _ + _) ↔ _
  rw [Nat.zero_add]
  refine ⟨?_, fun h => ⟨_, by simp, h⟩⟩
  rintro ⟨t, hmem, ht⟩
  -- no other booking is for this timer
  rcases List.mem_append.1 hmem with hmem | hmem
  · rcases List.mem_append.1 hmem with hmem | hmem
    · refine absurd ?_ hfresh
      rw [Multiset.mem_toList, releases_eq_chainDues] at hmem
      show timer ∈ storedIn s.wheels
      rw [← map_chainDues]
      exact Multiset.mem_map_of_mem Prod.snd hmem
    · cases List.mem_singleton.1 hmem
      exact ht
  · exact absurd (hbooked ▸ List.mem_map_of_mem (f := Prod.snd) hmem) hcalls

theorem ticksToEnd_schedule : (s.schedule duration timer).ticksToEnd = s.ticksToEnd := by
  unfold schedule ticksToEnd
  dsimp only
  rw [(place_frame ..).1, (place_frame ..).2]

/-- From the first bucket, one advance processes any number of ticks that the clock can show. -/
theorem exists_advance (h0 : s.lowestWheel.currBucketIndex.val = 0) (htick : 0 < s.tickSize.toInt)
    (hpos : 0 < n) (hn : n ≤ s.ticksToEnd) : ∃ now, (s.completedBuckets now).length = n := by
  obtain ⟨now, hnow⟩ := exists_reading htick hn
  have hnanos := nanos_pos htick
  have hlt := lt_of_mul_le htick hnow.ge
  refine ⟨now, ?_⟩
  rw [completedBuckets, if_neg (not_lt.2 ?_), List.length_range', determineNewBottomWheelIndex, hnow,
    ticksSince, Int.mul_tdiv_cancel _ hnanos.ne', h0, SizeT.ofInt_of_lt (by omega) (by omega),
    Int.toNat_natCast, SizeT.add_of_lt (by omega), Nat.zero_add, Nat.sub_zero]
  rw [hnow]
  exact le_mul_of_one_le_left hnanos.le (by omega)

theorem schedule_cursor :
    (s.schedule duration timer).lowestWheel.currBucketIndex.val = s.lowestWheel.currBucketIndex := by
  unfold schedule
  dsimp only
  generalize (determineTimerWheel _ _ _).1 = i
  cases i <;> rfl

/-- The landing of a timer for `k` ticks is its own tick, or one of the last turn, of which only the
very last is late enough. -/
theorem le_landing_iff {c turn : ℕ} (hturn : 0 < turn) (hle : turn ≤ c) :
    min k (c - 1) ≤ landing c turn k ↔ k < c ∨ turn ∣ k + 1 - c := by
  unfold landing
  split
  · next hlt => exact iff_of_true (min_le_left ..) (.inl hlt)
  · next hge =>
    have hmod := Nat.mod_lt (k - c) hturn
    rw [min_eq_right (by omega), or_iff_right hge, show k + 1 - c = k - c + 1 by omega,
      Nat.dvd_iff_mod_eq_zero, ← Nat.mod_add_mod]
    constructor
    · intro h
      rw [show (k - c) % turn + 1 = turn by omega, Nat.mod_self]
    · intro h
      by_contra hlt
      rw [Nat.mod_eq_of_lt (by omega)] at h
      omega

/-- From wheels that all stand at their first buckets, a timer for `k` ticks waits for its own tick, or
for the last of the capacity, exactly when `k` is below the capacity `C`, or exceeds `C - 1` by whole
turns, or would go round to a tick that the clock does not come to. -/
theorem schedule_notBefore_iff (s : HierarchicalTimingWheel Timer) (duration : Milliseconds)
    (timer : Timer) (hs : Graded 1 s.wheels) (h0 : ∀ w ∈ s.wheels, w.currBucketIndex.val = 0)
    (htick : 0 < s.tickSize.toInt) (hd : 0 ≤ duration.toInt) (hfresh : timer ∉ s.stored) :
    let k := (ticksIn s.tickSize duration).toNat
    let C := capacity s.wheels
    let turn := turnTicks s.wheels
    (s.schedule duration timer).NotBefore timer (min k (C - 1)) ↔
      k < C ∨ turn ∣ k + 1 - C ∨ s.ticksToEnd ≤ C - turn + (k - C) % turn := by
  intro k C turn
  have hdue : s.dueTick 0 duration = landing C turn k := dueTick_of_zero hs h0 htick hd
  have hturn : turn ≤ C := (Nat.one_mul _).symm.trans_le hs.turn_le_capacity
  have hle := @le_landing_iff k C turn (turnTicks_pos _) hturn
  have hsize : (s.schedule duration timer).tickSize = s.tickSize := s.tickSize_step (.schedule duration timer)
  rw [← or_assoc, ← hle]
  constructor
  · intro h
    by_contra! hcon
    obtain ⟨hearly, hclock⟩ := hcon
    have hlanding : landing C turn k = C - turn + (k - C) % turn := by
      refine if_neg fun hlt => ?_
      exact absurd (hle.2 (.inl hlt)) (by omega)
    obtain ⟨now, hnow⟩ := exists_advance (s := s.schedule duration timer) (n := landing C turn k + 1)
      (schedule_cursor.trans (h0 _ (List.mem_cons_self ..))) (by rw [hsize]; exact htick)
      (Nat.succ_pos _) (by rw [ticksToEnd_schedule]; omega)
    have hmem : timer ∈ ((s.schedule duration timer).advance now).2 := by
      refine (mem_advance_iff hs hfresh [] now List.not_mem_nil).2 ?_
      show 0 ≤ _ ∧ _ < 0 + ((s.schedule duration timer).completedBuckets now).length
      rw [hnow, hdue]
      omega
    have hlate := h [] now List.not_mem_nil hmem
    change _ < 0 + ((s.schedule duration timer).completedBuckets now).length at hlate
    rw [hnow] at hlate
    omega
  · intro h calls now hcalls hmem
    obtain ⟨-, hlt⟩ := (mem_advance_iff hs hfresh calls now hcalls).1 hmem
    rw [hdue] at hlt
    rcases h with h | h
    · exact h.trans_lt hlt
    · have hend := ticks_le_ticksToEnd (by rw [hsize]; exact htick) calls now
      rw [ticksToEnd_schedule] at hend
      by_cases hk : k < C
      · exact (hle.2 (.inl hk)).trans_lt hlt
      · rw [landing, if_neg hk] at hlt
        omega

/-- A timer for eight ticks on wheels for eight ticks goes to the bucket that comes down first: it is
returned by an advance over the ticks 0 to 2, not by one that comes to tick 7. -/
theorem schedule_returned_early :
    let s : HierarchicalTimingWheel ℕ := create 50 0 2 [3]
    (ticksIn s.tickSize 400).toNat = 8 ∧ capacity s.wheels = 8 ∧
      ((s.schedule 400 7).advance 150000000).2 = [7] ∧
      ((s.schedule 400 7).completedBuckets 150000000).length = 3 ∧
      ¬ (s.schedule 400 7).NotBefore 7 (min 8 (capacity s.wheels - 1)) := by
  intro s
  have hout : ((s.schedule 400 7).advance 150000000).2 = [7] := by decide
  have hlen : ((s.schedule 400 7).completedBuckets 150000000).length = 3 := by decide
  refine ⟨by decide, by decide, hout, hlen, fun h => ?_⟩
  have hlate := h [] 150000000 List.not_mem_nil (hout ▸ List.mem_singleton_self 7)
  exact absurd hlate (by decide)

/-- A timer for eight ticks, one more than the last bucket is for, and one for seven. -/
theorem schedule_notBefore_fresh :
    let s : HierarchicalTimingWheel ℕ := create 50 0 2 [3]
    ¬ (s.schedule 400 7).NotBefore 7 (min (ticksIn s.tickSize 400).toNat (capacity s.wheels - 1)) ∧
      (s.schedule 350 7).NotBefore 7 (min (ticksIn s.tickSize 350).toNat (capacity s.wheels - 1)) := by
  intro s
  have hs : Graded 1 s.wheels := graded_createWheels [2, 3] Nat.one_pos (by decide) (by decide)
  have hfresh : 7 ∉ s.stored := by
    rw [stored_create]
    exact Multiset.notMem_zero 7
  have hiff := fun d hd => schedule_notBefore_iff s d 7 hs (by decide) (by decide) hd hfresh
  exact ⟨mt (hiff 400 (by decide)).1 (by decide), (hiff 350 (by decide)).2 (by decide)⟩

end HierarchicalTimingWheel
end AsyncEry.Timing
