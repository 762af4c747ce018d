import AsyncEry.TimingWheel
import AsyncEry.WheelDues

/-!
# Runs of the hierarchical wheel

The entries of all wheels, with the ticks at which they are due, are what is pending in a calendar;
each round of the loop of `advance` hands over what the calendar has for the tick. Where a timer is
placed so that it is due when it was scheduled for, the calendar is that of the timetable, which the
flat wheel keeps too.
-/

namespace AsyncEry.Timing

variable {Timer α : Type}

namespace HierarchicalTimingWheel

/-- The wheels hold what is pending in `c`, the entry of `a` being the timer `f a`. -/
structure Holds (P : ℕ) (f : α → Timer) (c : Calendar α) (s : HierarchicalTimingWheel Timer) : Prop where
  stacked : Stacked P c.now 1 s.wheels
  dues : chainDues c.now s.wheels = c.pending.map (Prod.map id f)

/-- The same of wheels with cursors anywhere. -/
structure Loaded (f : α → Timer) (c : Calendar α) (s : HierarchicalTimingWheel Timer) : Prop where
  graded : Graded 1 s.wheels
  dues : chainDues c.now s.wheels = c.pending.map (Prod.map id f)

variable {s : HierarchicalTimingWheel Timer} {c : Calendar α} {f : α → Timer} {P idx n : ℕ}

theorem Holds.loaded (h : s.Holds P f c) (hP : P < 2 ^ 64) : s.Loaded f c :=
  ⟨h.stacked.graded hP, h.dues⟩

/-! ### Creation -/

theorem stacked_createWheels (sizes : List ℕ+) {T : ℕ} (hT : 0 < T) (hP : P < 2 ^ 64)
    (h : T * (sizes.map PNat.val).prod = P) :
    Stacked P 0 T (createWheels T sizes : List (Wheel Timer)) := by
  induction sizes generalizing T with
  | nil => exact (Nat.mul_one T).symm.trans h
  | cons n sizes ih =>
    rw [List.map_cons, List.prod_cons, ← Nat.mul_assoc] at h
    have hle : T * n ≤ P := by
      rw [← h]
      exact Nat.le_mul_of_pos_right _ (List.prod_pos fun m hm => by
        obtain ⟨m, -, rfl⟩ := List.mem_map.1 hm; exact m.pos)
    have hmul : SizeT.mul T n = T * n := SizeT.mul_of_lt (hle.trans_lt hP)
    refine ⟨⟨hT, rfl, ?_, ?_⟩, ?_⟩
    · show 0 = 0 / T % n
      rw [Nat.zero_div, Nat.zero_mod]
    · intro b e he
      change e ∈ (Vector.replicate n [])[b.1] at he
      rw [Vector.getElem_replicate] at he
      cases he
    · rw [hmul]
      exact ih (Nat.mul_pos hT n.pos) h

theorem chainDues_createWheels (sizes : List ℕ+) {T z : ℕ} :
    chainDues z (createWheels T sizes : List (Wheel Timer)) = 0 := by
  induction sizes generalizing T z with
  | nil => rfl
  | cons n sizes ih =>
    show Wheel.dues z (Wheel.create n T) + chainDues _ _ = 0
    rw [ih, add_zero]
    refine Finset.sum_eq_zero fun b _ => ?_
    show Multiset.ofList (((Vector.replicate n [])[b.1]).map _) = 0
    rw [Vector.getElem_replicate]
    rfl

theorem wheels_create (tickSize : Milliseconds) (now : TimePoint) (size : ℕ+) (sizes : List ℕ+) :
    (create tickSize now size sizes : HierarchicalTimingWheel Timer).wheels =
      createWheels 1 (size :: sizes) := rfl

theorem Holds.create {tickSize : Milliseconds} {now : TimePoint} {size : ℕ+} {sizes : List ℕ+}
    (hP : P < 2 ^ 64) (h : ((size :: sizes).map PNat.val).prod = P) :
    (create tickSize now size sizes : HierarchicalTimingWheel Timer).Holds P f .empty := by
  constructor
  · rw [wheels_create]
    exact stacked_createWheels _ Nat.one_pos hP (by rw [Nat.one_mul, h])
  · rw [wheels_create, chainDues_createWheels]
    rfl

/-! ### The loop -/

theorem receive_all_frame (entries : List (TimerEntry Timer)) (w : Wheel Timer) :
    ∃ buckets, entries.foldl Wheel.receive w = { w with buckets := buckets } := by
  induction entries generalizing w with
  | nil => exact ⟨w.buckets, rfl⟩
  | cons e entries ih =>
    obtain ⟨buckets, h⟩ := ih (w.receive e)
    exact ⟨buckets, h⟩

theorem loadTimersFromWheel_frame (below : Wheel Timer) (above : List (Wheel Timer)) :
    ∃ buckets, (loadTimersFromWheel below above).1 = { below with buckets := buckets } := by
  cases above with
  | nil => exact ⟨below.buckets, rfl⟩
  | cons w ws =>
    rw [loadTimersFromWheel]
    dsimp only
    split <;> exact receive_all_frame ..

/-- A round moves the cursor of the lowest wheel on and changes the buckets. -/
theorem processBucket_frame (s : HierarchicalTimingWheel Timer) (b : Fin s.lowestWheel.numBuckets) :
    ∃ buckets above, (s.processBucket b).1 =
      { s with lowestWheel := { s.lowestWheel.next with buckets := buckets }, wheelsAbove := above } := by
  unfold processBucket
  dsimp only
  split
  · obtain ⟨buckets, h⟩ := loadTimersFromWheel_frame (s.lowestWheel.clear b).next s.wheelsAbove
    rw [h]
    exact ⟨buckets, _, rfl⟩
  · exact ⟨_, s.wheelsAbove, rfl⟩

theorem processBucket_eq (s : HierarchicalTimingWheel Timer) :
    (s.processBucket s.lowestWheel.currBucketIndex).1.wheels =
      carry s.lowestWheel.turn s.wheelsAbove := by
  unfold processBucket carry Wheel.turn
  dsimp only
  split <;> rfl

theorem processBucket_resolved (s : HierarchicalTimingWheel Timer)
    (b : Fin s.lowestWheel.numBuckets) :
    (s.processBucket b).2 = (s.lowestWheel.entries b).map TimerEntry.timer := by
  unfold processBucket
  dsimp only
  split <;> rfl

namespace Loaded

/-- A round hands over what is due at this tick. -/
theorem processBucket (h : s.Loaded f c) :
    ((s.processBucket s.lowestWheel.currBucketIndex).2 : Multiset Timer) =
        (c.due c.now : Multiset α).map f ∧
      (s.processBucket s.lowestWheel.currBucketIndex).1.Loaded f (c.skip 1) := by
  have hout := s.processBucket_resolved s.lowestWheel.currBucketIndex
  have hwheels := s.processBucket_eq
  obtain ⟨hgraded, hdues⟩ := chainDues_turn (z := c.now) h.graded
  -- an entry of the lowest wheel has no ticks left
  have hdown : ((s.lowestWheel.entries s.lowestWheel.currBucketIndex).map
      fun e => (c.now + e.tickOffsetIntoBucket, e.timer)) =
        (s.processBucket s.lowestWheel.currBucketIndex).2.map fun timer => (c.now, timer) := by
    rw [hout, List.map_map]
    refine List.map_congr_left fun e he => ?_
    obtain h0 : e.tickOffsetIntoBucket = 0 := Nat.lt_one_iff.1 (h.graded.1.offset _ e he)
    rw [h0]
    rfl
  rw [← wheels, h.dues, hdown, ← hwheels, ← Multiset.map_coe] at hdues
  rw [← hwheels] at hgraded
  obtain ⟨hdue, hrest⟩ := Calendar.split_pending f hdues.symm fun p hp => le_of_mem_chainDues hp
  exact ⟨hdue, hgraded, hrest⟩

/-- The index runs with the cursor, not wrapped. -/
theorem processBuckets (h : s.Loaded f c)
    (hidx : idx % s.lowestWheel.numBuckets = s.lowestWheel.currBucketIndex) (n : ℕ) :
    ((s.processBuckets (List.range' idx n)).2 : Multiset Timer) =
        (c.handOver n : Multiset α).map f ∧
      (s.processBuckets (List.range' idx n)).1.Loaded f (c.skip n) := by
  induction n generalizing s c idx with
  | zero => exact ⟨rfl, h⟩
  | succ n ih =>
    have hbucket : s.lowestWheel.bucket idx = s.lowestWheel.currBucketIndex := Fin.ext hidx
    obtain ⟨hout, hnext⟩ := h.processBucket
    obtain ⟨buckets, above, hframe⟩ := s.processBucket_frame s.lowestWheel.currBucketIndex
    rw [← hbucket] at hout hnext hframe
    have hidx' : (idx + 1) % (s.processBucket (s.lowestWheel.bucket idx)).1.lowestWheel.numBuckets =
        (s.processBucket (s.lowestWheel.bucket idx)).1.lowestWheel.currBucketIndex := by
      rw [hframe]
      show (idx + 1) % s.lowestWheel.numBuckets =
        SizeT.add s.lowestWheel.currBucketIndex 1 % s.lowestWheel.numBuckets
      have hlt := s.lowestWheel.currBucketIndex.isLt
      have hsize := h.graded.1.size
      rw [SizeT.add_of_lt (by omega), ← hidx, Nat.mod_add_mod]
    obtain ⟨ihout, ihnext⟩ := ih hnext hidx'
    rw [Calendar.skip_skip, Nat.add_comm 1 n] at ihnext
    rw [List.range'_succ, Calendar.handOver_succ]
    refine ⟨?_, ihnext⟩
    rw [← Multiset.coe_add, Multiset.map_add, ← hout, ← ihout, Multiset.coe_add]
    rfl

end Loaded

theorem processBuckets_frame (completed : List ℕ) :
    (s.processBuckets completed).1.tickSize = s.tickSize ∧
      (s.processBuckets completed).1.lowestWheel.currBucketIndex.val ≤
        s.lowestWheel.currBucketIndex + completed.length := by
  induction completed generalizing s with
  | nil => exact ⟨rfl, le_rfl⟩
  | cons idx completed ih =>
    obtain ⟨buckets, above, hframe⟩ := s.processBucket_frame (s.lowestWheel.bucket idx)
    obtain ⟨htick, hcur⟩ := ih (s := (s.processBucket (s.lowestWheel.bucket idx)).1)
    have hnext : (s.processBucket (s.lowestWheel.bucket idx)).1.lowestWheel.currBucketIndex.val ≤
        s.lowestWheel.currBucketIndex + 1 := by
      rw [hframe]
      exact (Nat.mod_le ..).trans (Nat.mod_le ..)
    refine ⟨htick.trans (by rw [hframe]), hcur.trans ?_⟩
    rw [List.length_cons]
    omega

theorem stacked_processBuckets {t : ℕ} (h : Stacked P t 1 s.wheels) (hP : P < 2 ^ 64)
    (hidx : idx % s.lowestWheel.numBuckets = t % s.lowestWheel.numBuckets) (n : ℕ) :
    Stacked P (t + n) 1 (s.processBuckets (List.range' idx n)).1.wheels := by
  induction n generalizing s t idx with
  | zero => exact h
  | succ n ih =>
    have hbucket : s.lowestWheel.bucket idx = s.lowestWheel.currBucketIndex :=
      Fin.ext (hidx.trans (by rw [h.1.cursor, Nat.div_one]))
    have hnext := h.turn hP (Nat.one_dvd _)
    obtain ⟨buckets, above, hframe⟩ := s.processBucket_frame s.lowestWheel.currBucketIndex
    rw [← processBucket_eq, ← hbucket] at hnext
    rw [← hbucket] at hframe
    have hidx' : (idx + 1) % (s.processBucket (s.lowestWheel.bucket idx)).1.lowestWheel.numBuckets =
        (t + 1) % (s.processBucket (s.lowestWheel.bucket idx)).1.lowestWheel.numBuckets := by
      rw [hframe]
      exact Nat.ModEq.add_right 1 hidx
    rw [List.range'_succ, Nat.add_comm n 1, ← Nat.add_assoc]
    exact ih hnext hidx'

theorem Holds.processBuckets (h : s.Holds P f c) (hP : P < 2 ^ 64)
    (hidx : idx % s.lowestWheel.numBuckets = c.now % s.lowestWheel.numBuckets) (n : ℕ) :
    ((s.processBuckets (List.range' idx n)).2 : Multiset Timer) =
        (c.handOver n : Multiset α).map f ∧
      (s.processBuckets (List.range' idx n)).1.Holds P f (c.skip n) ∧
      (s.processBuckets (List.range' idx n)).1.tickSize = s.tickSize := by
  obtain ⟨hout, hnext⟩ := (h.loaded hP).processBuckets (hidx.trans (by
    rw [h.stacked.1.cursor, Nat.div_one])) n
  exact ⟨hout, ⟨stacked_processBuckets h.stacked hP hidx n, hnext.dues⟩, (processBuckets_frame _).1⟩

/-! ### Calls -/

/-- The buckets that `advance` goes through when the clock reads `now`, one a tick. -/
def completedBuckets (s : HierarchicalTimingWheel Timer) (now : TimePoint) : List ℕ :=
  if since now s.lastAdvancementTime < nanos s.tickSize then []
  else List.range' s.lowestWheel.currBucketIndex
    (s.determineNewBottomWheelIndex now - s.lowestWheel.currBucketIndex)

theorem advance_eq (s : HierarchicalTimingWheel Timer) (now : TimePoint) :
    s.advance now =
      ({ (s.processBuckets (s.completedBuckets now)).1 with
          lastAdvancementTime :=
            if since now s.lastAdvancementTime < nanos s.tickSize then s.lastAdvancementTime else now },
        (s.processBuckets (s.completedBuckets now)).2) := by
  unfold advance completedBuckets
  split <;> rfl

/-- The ticks that pass in a call. -/
def ticksOf (s : HierarchicalTimingWheel Timer) : Call Timer → ℕ
  | .schedule _ _ => 0
  | .advance now => (s.completedBuckets now).length

/-- The ticks that pass in the course of `calls`. -/
def ticksProcessed (s : HierarchicalTimingWheel Timer) (calls : List (Call Timer)) : ℕ :=
  Mealy.total step ticksOf s calls

theorem wheels_place (s : HierarchicalTimingWheel Timer) (ticksLeft : ℕ) (timer : Timer) (i : ℕ) :
    (s.place ticksLeft timer i).wheels = s.wheels.modify i fun w => w.place ticksLeft timer := by
  cases i <;> rfl

theorem place_frame (s : HierarchicalTimingWheel Timer) (ticksLeft : ℕ) (timer : Timer) (i : ℕ) :
    (s.place ticksLeft timer i).tickSize = s.tickSize ∧
      (s.place ticksLeft timer i).lastAdvancementTime = s.lastAdvancementTime := by
  cases i <;> exact ⟨rfl, rfl⟩

/-- The tick at which a timer scheduled now is due. -/
def dueTick (s : HierarchicalTimingWheel Timer) (now : ℕ) (duration : Milliseconds) : ℕ :=
  let place := determineTimerWheel s.lowestWheel s.wheelsAbove
    (SizeT.ofInt (ticksIn s.tickSize duration))
  dueAt now s.wheels place.1 place.2

theorem le_dueTick {now : ℕ} {duration : Milliseconds} : now ≤ s.dueTick now duration := le_dueAt

theorem dues_schedule (h : chainDues c.now s.wheels = c.pending.map (Prod.map id f))
    (duration : Milliseconds) (a : α) :
    chainDues c.now (s.schedule duration (f a)).wheels =
      (c.book (s.dueTick c.now duration) a).pending.map (Prod.map id f) := by
  show chainDues _ (s.place _ _ _).wheels = _
  rw [wheels_place, wheels, chainDues_place determineTimerWheel_lt, Calendar.pending_book le_dueTick,
    Multiset.map_add, ← h]
  rfl

/-- The wheels go together with a timetable whose calendar has every timer booked for the tick at
which it is due. -/
structure Shows (P : ℕ) (f : α → Timer) (start : TimePoint) (s : HierarchicalTimingWheel Timer)
    (r : Timetable α) : Prop where
  clocked : r.Clocked start
  tickSize : s.tickSize = r.tickSize
  last : s.lastAdvancementTime = r.lastAdvancementTime
  holds : s.Holds P f r.calendar

variable {r : Timetable α} {start now : TimePoint} {duration : Milliseconds}

namespace Shows

theorem create {tickSize : Milliseconds} {size : ℕ+} {sizes : List ℕ+} (htick : 0 < tickSize.toInt)
    (hP : P < 2 ^ 64) (h : ((size :: sizes).map PNat.val).prod = P) :
    Shows P f start (create tickSize start size sizes : HierarchicalTimingWheel Timer)
      (.create tickSize start) :=
  ⟨.create htick, rfl, rfl, .create hP h⟩

theorem book (h : Shows P f start s r) (duration : Milliseconds) (a : α) :
    Shows P f start (s.schedule duration (f a)) { r with
      calendar := r.calendar.book (s.dueTick r.calendar.now duration) a } := by
  refine ⟨⟨h.clocked.tick_pos, h.clocked.fits⟩, (place_frame ..).1.trans h.tickSize,
    (place_frame ..).2.trans h.last, ?_, dues_schedule h.holds.dues duration a⟩
  show Stacked P _ 1 (s.place _ _ _).wheels
  rw [wheels_place]
  exact h.holds.stacked.place _

/-- A timer that is aligned is booked where the timetable books it. -/
theorem dueTick_eq (h : Shows P f start s r) (hP : P < 2 ^ 64) (hd : 0 ≤ duration.toInt)
    (ha : Aligned s.lowestWheel s.wheelsAbove (ticksIn s.tickSize duration).toNat) :
    s.dueTick r.calendar.now duration = r.calendar.now + (ticksIn r.tickSize duration).toNat := by
  have h0 := ticksIn_nonneg h.clocked.tick_pos hd
  have hk := ticksIn_lt r.tickSize hd
  rw [← h.tickSize] at h0 hk ⊢
  unfold dueTick
  rw [SizeT.ofInt_of_lt h0 (by omega)]
  exact dueAt_determineTimerWheel hP h.holds.stacked h.clocked.lt (by omega) ha

theorem advance (h : Shows P f start s r) (hP : P < 2 ^ 64) (now : TimePoint) :
    ((s.advance now).2 : Multiset Timer) = ((r.advance now).2 : Multiset α).map f ∧
      Shows P f start (s.advance now).1 (r.advance now).1 := by
  have hclocked := h.clocked.advance now
  unfold HierarchicalTimingWheel.advance
  unfold Timetable.advance at hclocked ⊢
  rw [h.last, h.tickSize]
  split
  · exact ⟨rfl, h⟩
  · next hnow =>
    rw [if_neg hnow] at hclocked
    obtain ⟨hticks, hfits⟩ := h.clocked.elapsed hnow
    have hlt := lt_of_mul_le h.clocked.tick_pos hfits
    have hcur := h.holds.stacked.1.cursor
    have hle : r.calendar.now / 1 % s.lowestWheel.numBuckets ≤ r.calendar.now :=
      (Nat.mod_le _ _).trans (Nat.div_le_self _ _)
    have hindex : s.determineNewBottomWheelIndex now =
        s.lowestWheel.currBucketIndex + elapsed r.tickSize r.lastAdvancementTime now := by
      unfold determineNewBottomWheelIndex
      rw [h.last, h.tickSize, hticks, SizeT.add_of_lt (by omega)]
    have hidx : s.lowestWheel.currBucketIndex % s.lowestWheel.numBuckets =
        r.calendar.now % s.lowestWheel.numBuckets := by
      rw [hcur, Nat.div_one, Nat.mod_mod]
    obtain ⟨hout, hnext, htick⟩ :=
      h.holds.processBuckets hP hidx (elapsed r.tickSize r.lastAdvancementTime now)
    rw [hindex, Nat.add_sub_cancel_left]
    exact ⟨hout, hclocked, htick.trans h.tickSize, rfl, ⟨hnext.stacked, hnext.dues⟩⟩

end Shows

/-- A call schedules a timer that is aligned. -/
def AlignedCall (s : HierarchicalTimingWheel Timer) : Call Timer → Prop
  | .schedule duration _ =>
    Aligned s.lowestWheel s.wheelsAbove (ticksIn s.tickSize duration).toNat
  | .advance _ => True

/-- When every timer is aligned at the time it is scheduled, every advance hands over the timers that
the flat wheel does, which are those of the timetable: a timer scheduled for `k` ticks comes with the
tick that follows the next `k`. Clock readings and ticks are assumed not to overflow; see `since` and
`nanos`. -/
theorem run_agrees (tickSize : Milliseconds) (start : TimePoint) (size : ℕ+) (sizes : List ℕ+)
    (numTicks : ℕ+) (calls : List (Call Timer)) (htick : 0 < tickSize.toInt)
    (hP : ((size :: sizes).map PNat.val).prod < 2 ^ 64)
    (hle : ((size :: sizes).map PNat.val).prod ≤ numTicks)
    (hcalls : ∀ call ∈ calls, call.InRange tickSize ((size :: sizes).map PNat.val).prod)
    (haligned : Mealy.Meets step AlignedCall (create tickSize start size sizes) calls) :
    List.Forall₂ List.Perm (Mealy.run step (create tickSize start size sizes) calls)
        (Mealy.run TimingWheel.step (.create tickSize start numTicks) calls) ∧
      List.Forall₂ List.Perm (Mealy.run step (create tickSize start size sizes) calls)
        (Mealy.run Timetable.step (.create tickSize start) calls) := by
  have hflat : ∀ call ∈ calls, call.InRange tickSize numTicks := by
    intro call hmem
    have hcall := hcalls call hmem
    cases call with
    | schedule duration timer => exact ⟨hcall.1, hcall.2.trans_le (by exact_mod_cast hle)⟩
    | advance now => trivial
  rw [TimingWheel.run_eq_timetable tickSize start numTicks htick hflat, and_self]
  refine Mealy.run_forall₂ ?_ (Shows.create (f := id) htick hP rfl) (haligned.and hcalls)
  rintro s r call h ⟨hcall, ha⟩
  cases call with
  | schedule duration timer =>
    have hbook := h.book duration timer
    rw [h.dueTick_eq hP hcall.1 ha] at hbook
    exact ⟨hbook, .refl _⟩
  | advance now =>
    obtain ⟨hout, hnext⟩ := h.advance hP now
    rw [Multiset.map_id] at hout
    exact ⟨hnext, Multiset.coe_eq_coe.1 hout⟩

/-- A fresh wheel takes a timer for two ticks, which come down with the second wheel's first bucket. -/
theorem run_agrees_fresh :
    List.Forall₂ List.Perm
        (Mealy.run step (create 50 0 2 [3]) [Call.schedule 100 7, .advance 150000000])
        (Mealy.run TimingWheel.step (.create 50 0 6) [Call.schedule 100 7, .advance 150000000]) ∧
      List.Forall₂ List.Perm
        (Mealy.run step (create 50 0 2 [3]) [Call.schedule 100 7, .advance 150000000])
        (Mealy.run Timetable.step (.create 50 0) [Call.schedule 100 7, .advance 150000000]) :=
  run_agrees 50 0 2 [3] 6 _ (by decide) (by decide) (by decide) (by decide)
    ⟨.inr ⟨rfl, by decide⟩, trivial, trivial⟩

/-- One tick passes, then a timer is scheduled for two ticks. -/
def misaligned : List (Call ℕ) :=
  [.advance 50000000, .schedule 100 7, .advance 150000000, .advance 200000000]

/-- The lowest wheel stands at its second bucket and has one tick left, but two are subtracted. -/
theorem run_misaligned :
    (∀ call ∈ misaligned, call.InRange 50 6) ∧
      Mealy.run step (create 50 0 2 [3]) misaligned = [[], [], [7], []] ∧
      Mealy.run TimingWheel.step (.create 50 0 6) misaligned = [[], [], [], [7]] ∧
      ¬ List.Forall₂ List.Perm (Mealy.run step (create 50 0 2 [3]) misaligned)
        (Mealy.run TimingWheel.step (.create 50 0 6) misaligned) := by
  have hhier : Mealy.run step (create 50 0 2 [3]) misaligned = [[], [], [7], []] := by decide
  have hflat : Mealy.run TimingWheel.step (.create 50 0 6) misaligned = [[], [], [], [7]] := by decide
  refine ⟨by decide, hhier, hflat, fun h => ?_⟩
  rw [hhier, hflat] at h
  rcases h with _ | ⟨-, _ | ⟨-, _ | ⟨h, -⟩⟩⟩
  exact absurd h.length_eq (by decide)

end HierarchicalTimingWheel
end AsyncEry.Timing
