import AsyncEry.WheelRuns

/-!
# Polling and drift

An advance lets the whole ticks since the last one pass and takes the present time for the time of the
last tick, so what is left over of the last tick is cut off each time. `Ticking` is what both wheels
have in common here: what they hand out depends on the number of ticks alone. They keep in step with
the clock exactly as long as what has been cut off does not come to a tick.
-/

namespace AsyncEry.Timing

variable {Timer σ : Type}

/-- The time of the last of these calls that let ticks pass. -/
def lastReading (tickSize : Milliseconds) (last : TimePoint) : List (Call Timer) → TimePoint
  | [] => last
  | .schedule _ _ :: calls => lastReading tickSize last calls
  | .advance now :: calls =>
    lastReading tickSize (if since now last < nanos tickSize then last else now) calls

/-- What the advances at `times` cut off and the one at `now` does not make up for. -/
def cutOff (tickSize : Milliseconds) (last : TimePoint) : List TimePoint → TimePoint → ℤ
  | [], now => since now last % nanos tickSize
  | time :: times, now =>
    if since time last < nanos tickSize then cutOff tickSize last times now
    else since time last % nanos tickSize + cutOff tickSize time times now

/-- The ticks that advances at `times` let pass. -/
def ticksCounted (tickSize : Milliseconds) (last : TimePoint) : List TimePoint → ℕ
  | [] => 0
  | now :: times =>
    if since now last < nanos tickSize then ticksCounted tickSize last times
    else elapsed tickSize last now + ticksCounted tickSize now times

/-- With the calls at `times` before it, the advance at `now` comes to as many ticks as the clock says,
which are those that it comes to without them, and as many timers have been returned. -/
structure KeepsTime (step : σ → Call Timer → σ × List Timer) (ticksOf : σ → Call Timer → ℕ)
    (tickSize : Milliseconds) (last : TimePoint) (s : σ) (times : List TimePoint) (now : TimePoint) :
    Prop where
  ticks : Mealy.total step ticksOf s ((times ++ [now]).map .advance) = since now last / nanos tickSize
  same : Mealy.total step ticksOf s ((times ++ [now]).map .advance) = ticksOf s (.advance now)
  returned : (Mealy.run step s ((times ++ [now]).map .advance)).flatten = (step s (.advance now)).2

/-! ### Counting ticks -/

variable {tickSize : Milliseconds} {last now : TimePoint} {times : List TimePoint}

theorem elapsed_eq (htick : 0 < tickSize.toInt) (h : 0 ≤ since now last) :
    (elapsed tickSize last now : ℤ) = since now last / nanos tickSize := by
  have hpos := nanos_pos htick
  rw [elapsed, ticksSince, Int.tdiv_eq_ediv_of_nonneg h,
    Int.toNat_of_nonneg (Int.ediv_nonneg h hpos.le)]

theorem since_nonneg (h : last ≤ now) : 0 ≤ since now last := by
  have := Int64.le_iff_toInt_le.1 h
  unfold since
  omega

theorem ticksCounted_add_cutOff (htick : 0 < tickSize.toInt)
    (hmono : (last :: (times ++ [now])).Pairwise (· ≤ ·)) :
    ticksCounted tickSize last (times ++ [now]) * nanos tickSize + cutOff tickSize last times now =
        since now last ∧ 0 ≤ cutOff tickSize last times now := by
  have hpos := nanos_pos htick
  induction times generalizing last with
  | nil =>
    have h0 := since_nonneg ((List.pairwise_cons.1 hmono).1 now (List.mem_singleton_self now))
    refine ⟨?_, Int.emod_nonneg _ hpos.ne'⟩
    show (ticksCounted tickSize last [now] : ℤ) * _ + since now last % nanos tickSize = _
    rw [ticksCounted]
    split
    · next hlt =>
      rw [ticksCounted, Int.emod_eq_of_lt h0 hlt]
      omega
    · rw [ticksCounted, Nat.add_zero, elapsed_eq htick h0, Int.ediv_mul_add_emod]
  | cons time times ih =>
    obtain ⟨hle, hrest⟩ := List.pairwise_cons.1 hmono
    have h0 := since_nonneg (hle time (List.mem_cons_self ..))
    rw [List.cons_append, ticksCounted, cutOff]
    split
    · exact ih (List.pairwise_cons.2 ⟨fun t ht => hle t (List.mem_cons_of_mem _ ht),
        (List.pairwise_cons.1 hrest).2⟩)
    · obtain ⟨hsum, hnonneg⟩ := ih hrest
      have hsplit := Int.ediv_mul_add_emod (since time last) (nanos tickSize)
      have hadd := since_add_since now time last
      have hmod := Int.emod_nonneg (since time last) hpos.ne'
      push_cast
      rw [add_mul, elapsed_eq htick h0]
      omega

/-- As many ticks as the clock says are counted when less than a tick is cut off. -/
theorem ticksCounted_eq_iff (htick : 0 < tickSize.toInt)
    (hmono : (last :: (times ++ [now])).Pairwise (· ≤ ·)) :
    (ticksCounted tickSize last (times ++ [now]) : ℤ) = since now last / nanos tickSize ↔
      cutOff tickSize last times now < nanos tickSize := by
  have hpos := nanos_pos htick
  obtain ⟨hsum, hnonneg⟩ := ticksCounted_add_cutOff htick hmono
  have hlt := Int.ediv_lt_iff_lt_mul (a := cutOff tickSize last times now) (b := 1) hpos
  have hle := Int.ediv_nonneg hnonneg hpos.le
  rw [← hsum, add_comm, Int.add_mul_ediv_right _ _ hpos.ne']
  omega

/-! ### Machines that let ticks pass -/

/-- `give s n` is what the next `n` ticks hold. -/
structure Ticking (tickSize : Milliseconds) (step : σ → Call Timer → σ × List Timer)
    (ticksOf : σ → Call Timer → ℕ) (last : σ → TimePoint) (give : σ → ℕ → List Timer) (Ok : σ → Prop) :
    Prop where
  tick_pos : 0 < tickSize.toInt
  scheduled : ∀ s duration timer, Ok s → Ok (step s (.schedule duration timer)).1 ∧
    last (step s (.schedule duration timer)).1 = last s
  idle : ∀ s now, Ok s → since now (last s) < nanos tickSize →
    step s (.advance now) = (s, []) ∧ ticksOf s (.advance now) = 0
  passes : ∀ s now, Ok s → ¬ since now (last s) < nanos tickSize →
    Ok (step s (.advance now)).1 ∧ last (step s (.advance now)).1 = now ∧
      ticksOf s (.advance now) = elapsed tickSize (last s) now ∧
      ∀ m, give s (elapsed tickSize (last s) now + m) =
        (step s (.advance now)).2 ++ give (step s (.advance now)).1 m
  give_zero : ∀ s, give s 0 = []

namespace Ticking

variable {step : σ → Call Timer → σ × List Timer} {ticksOf : σ → Call Timer → ℕ} {last : σ → TimePoint}
  {give : σ → ℕ → List Timer} {Ok : σ → Prop} {s : σ}

/-- The time of the last advance that counts is known from the calls. -/
theorem final (h : Ticking tickSize step ticksOf last give Ok) (hs : Ok s) (calls : List (Call Timer)) :
    Ok (Mealy.final step s calls) ∧
      last (Mealy.final step s calls) = lastReading tickSize (last s) calls := by
  induction calls generalizing s with
  | nil => exact ⟨hs, rfl⟩
  | cons call calls ih =>
    cases call with
    | schedule duration timer =>
      obtain ⟨hok, hlast⟩ := h.scheduled s duration timer hs
      obtain ⟨hok', hlast'⟩ := ih hok
      exact ⟨hok', hlast'.trans (by rw [hlast]; rfl)⟩
    | advance now =>
      rw [lastReading]
      split
      · next hnow =>
        rw [Mealy.final, (h.idle s now hs hnow).1]
        exact ih hs
      · next hnow =>
        obtain ⟨hok, hlast, -, -⟩ := h.passes s now hs hnow
        obtain ⟨hok', hlast'⟩ := ih hok
        exact ⟨hok', hlast'.trans (by rw [hlast])⟩

/-- What is returned depends on the number of ticks alone. -/
theorem run_advances (h : Ticking tickSize step ticksOf last give Ok) (hs : Ok s)
    (times : List TimePoint) :
    Mealy.total step ticksOf s (times.map .advance) = ticksCounted tickSize (last s) times ∧
      (Mealy.run step s (times.map .advance)).flatten = give s (ticksCounted tickSize (last s) times) := by
  induction times generalizing s with
  | nil => exact ⟨rfl, (h.give_zero s).symm⟩
  | cons now times ih =>
    rw [List.map_cons, Mealy.total, Mealy.run, List.flatten_cons, ticksCounted]
    split
    · next hnow =>
      obtain ⟨hstep, hticks⟩ := h.idle s now hs hnow
      rw [hstep, hticks, Nat.zero_add, List.nil_append]
      exact ih hs
    · next hnow =>
      obtain ⟨hok, hlast, hticks, hgive⟩ := h.passes s now hs hnow
      obtain ⟨htotal, hreturned⟩ := ih hok
      rw [hlast] at htotal hreturned
      rw [htotal, hreturned, hticks, hgive]
      exact ⟨rfl, rfl⟩

theorem keepsTime_iff (h : Ticking tickSize step ticksOf last give Ok) (hs : Ok s)
    (times : List TimePoint) (now : TimePoint) (hmono : (last s :: (times ++ [now])).Pairwise (· ≤ ·)) :
    KeepsTime step ticksOf tickSize (last s) s times now ↔
      cutOff tickSize (last s) times now < nanos tickSize := by
  obtain ⟨htotal, hreturned⟩ := h.run_advances hs (times ++ [now])
  rw [← ticksCounted_eq_iff h.tick_pos hmono, ← htotal]
  refine ⟨fun hkeeps => hkeeps.ticks, fun hticks => ?_⟩
  -- the advance at `now` alone
  have hle : last s ≤ now := (List.pairwise_cons.1 hmono).1 now (by simp)
  obtain ⟨hsingle, hgive⟩ := h.run_advances hs [now]
  have hone : (ticksCounted tickSize (last s) [now] : ℤ) = since now (last s) / nanos tickSize := by
    rw [← List.nil_append [now]]
    refine (ticksCounted_eq_iff h.tick_pos (List.pairwise_pair.2 hle)).2 ?_
    exact Int.emod_lt_of_pos _ (nanos_pos h.tick_pos)
  have hsame : ticksCounted tickSize (last s) (times ++ [now]) = ticksCounted tickSize (last s) [now] := by
    rw [← htotal]
    exact_mod_cast hticks.trans hone.symm
  refine ⟨hticks, ?_, ?_⟩
  · rw [htotal, hsame, ← hsingle]
    exact Nat.add_zero _
  · rw [hreturned, hsame, ← hgive]
    exact List.append_nil _

end Ticking

/-- The index has not run ahead of the clock. -/
def InTime (tickSize : Milliseconds) (start last : TimePoint) (index : ℕ) : Prop :=
  (⟨tickSize, last, ⟨index, []⟩⟩ : Timetable Unit).Clocked start

/-! ### The flat wheel -/

namespace TimingWheel
variable {s : TimingWheel Timer} {start : TimePoint}

/-- The buckets that `advance` goes through when the clock reads `now`, one a tick. -/
def completedBuckets (s : TimingWheel Timer) (now : TimePoint) : List ℕ :=
  if since now s.lastAdvancementTime < nanos s.wheelTickSize then []
  else List.range' s.currentWheelIndex (s.nonWrappedWheelIndex now.toInt - s.currentWheelIndex)

/-- The ticks that pass in a call. -/
def ticksOf (s : TimingWheel Timer) : Call Timer → ℕ
  | .schedule _ _ => 0
  | .advance now => (s.completedBuckets now).length

theorem collect_append (l l' : List ℕ) : s.collect (l ++ l') =
    (((s.collect l).1.collect l').1, (s.collect l).2 ++ ((s.collect l).1.collect l').2) := by
  induction l generalizing s with
  | nil => rfl
  | cons idx l ih =>
    rw [List.cons_append, collect, ih, collect]
    dsimp only
    rw [List.append_assoc]

/-- The loop does not look at the index and the time. -/
theorem collect_resolved (index : ℕ) (last : TimePoint) (l : List ℕ) :
    (collect { s with currentWheelIndex := index, lastAdvancementTime := last } l).2 = (s.collect l).2 := by
  induction l generalizing s with
  | nil => rfl
  | cons idx l ih => exact congrArg (s.timers (s.bucket idx) ++ ·) (ih (s := s.clear (s.bucket idx)))

theorem ticking (start : TimePoint) (htick : 0 < tickSize.toInt) :
    Ticking tickSize step ticksOf lastAdvancementTime
      (fun (s : TimingWheel Timer) n => (s.collect (List.range' s.currentWheelIndex n)).2)
      fun s => s.wheelTickSize = tickSize ∧ InTime tickSize start s.lastAdvancementTime s.currentWheelIndex := by
  refine ⟨htick, fun s duration timer h => ⟨h, rfl⟩, ?_, ?_, fun _ => rfl⟩
  · rintro s now ⟨htickSize, -⟩ hnow
    show s.advance now = _ ∧ (s.completedBuckets now).length = 0
    rw [← htickSize] at hnow
    rw [advance, completedBuckets, if_pos hnow, if_pos hnow]
    exact ⟨rfl, rfl⟩
  · rintro s now ⟨rfl, h⟩ hnow
    set n := elapsed s.wheelTickSize s.lastAdvancementTime now with hn
    have hindex : s.nonWrappedWheelIndex now.toInt = s.currentWheelIndex + n := h.index hnow
    obtain ⟨wheel, hframe⟩ := s.collect_frame (List.range' s.currentWheelIndex n)
    have hstep : s.step (.advance now) =
        ({ (s.collect (List.range' s.currentWheelIndex n)).1 with
            currentWheelIndex := s.currentWheelIndex + n
            lastAdvancementTime := now },
          (s.collect (List.range' s.currentWheelIndex n)).2) := by
      show s.advance now = _
      rw [advance, if_neg hnow, hindex, Nat.add_sub_cancel_left]
      refine congrArg (·, _) ?_
      rw [hframe, ← hindex]
      rfl
    rw [hstep]
    refine ⟨⟨?_, h.tick_pos, (h.elapsed hnow).2⟩, rfl, ?_, fun m => ?_⟩
    · show (s.collect _).1.wheelTickSize = _
      rw [hframe]
    · show (s.completedBuckets now).length = n
      rw [completedBuckets, if_neg hnow, hindex, List.length_range', Nat.add_sub_cancel_left]
    · rw [← List.range'_append_1, collect_append]
      exact congrArg (_ ++ ·) (collect_resolved ..).symm

end TimingWheel

/-! ### The hierarchical wheel -/

namespace HierarchicalTimingWheel
variable {s : HierarchicalTimingWheel Timer} {start : TimePoint}

theorem processBuckets_cons (idx : ℕ) (l : List ℕ) : s.processBuckets (idx :: l) =
    (((s.processBucket (s.lowestWheel.bucket idx)).1.processBuckets l).1,
      (s.processBucket (s.lowestWheel.bucket idx)).2 ++
        ((s.processBucket (s.lowestWheel.bucket idx)).1.processBuckets l).2) := rfl

theorem processBuckets_append (l l' : List ℕ) : s.processBuckets (l ++ l') =
    (((s.processBuckets l).1.processBuckets l').1,
      (s.processBuckets l).2 ++ ((s.processBuckets l).1.processBuckets l').2) := by
  induction l generalizing s with
  | nil => rfl
  | cons idx l ih =>
    rw [List.cons_append, processBuckets_cons, ih, processBuckets_cons, List.append_assoc]

theorem processBuckets_resolved (last : TimePoint) (l : List ℕ) :
    (processBuckets { s with lastAdvancementTime := last } l).2 = (s.processBuckets l).2 := by
  induction l generalizing s with
  | nil => rfl
  | cons idx l ih =>
    have hround : processBucket { s with lastAdvancementTime := last } (s.lowestWheel.bucket idx) =
        ({ (s.processBucket (s.lowestWheel.bucket idx)).1 with lastAdvancementTime := last },
          (s.processBucket (s.lowestWheel.bucket idx)).2) := by
      unfold processBucket
      dsimp only
      split <;> rfl
    rw [processBuckets_cons, processBuckets_cons]
    show (processBucket { s with lastAdvancementTime := last } (s.lowestWheel.bucket idx)).2 ++
      ((processBucket { s with lastAdvancementTime := last } (s.lowestWheel.bucket idx)).1.processBuckets l).2 = _
    rw [hround]
    exact congrArg (_ ++ ·) ih

/-- The loop looks at an index modulo the size of the lowest wheel. -/
theorem processBuckets_congr (s : HierarchicalTimingWheel Timer) {idx idx' : ℕ}
    (h : idx % s.lowestWheel.numBuckets = idx' % s.lowestWheel.numBuckets) (n : ℕ) :
    s.processBuckets (List.range' idx n) = s.processBuckets (List.range' idx' n) := by
  induction n generalizing s idx idx' with
  | zero => rfl
  | succ n ih =>
    have hbucket : s.lowestWheel.bucket idx = s.lowestWheel.bucket idx' := Fin.ext h
    obtain ⟨buckets, above, hframe⟩ := s.processBucket_frame (s.lowestWheel.bucket idx')
    have hnext : (idx + 1) % (s.processBucket (s.lowestWheel.bucket idx')).1.lowestWheel.numBuckets =
        (idx' + 1) % (s.processBucket (s.lowestWheel.bucket idx')).1.lowestWheel.numBuckets := by
      rw [hframe]
      exact Nat.ModEq.add_right 1 h
    rw [List.range'_succ, List.range'_succ, processBuckets_cons, processBuckets_cons, hbucket, ih _ hnext]

/-- The cursor of the lowest wheel counts the ticks. -/
theorem processBuckets_cursor (l : List ℕ) (h : s.lowestWheel.currBucketIndex + l.length < 2 ^ 64) :
    (s.processBuckets l).1.lowestWheel.numBuckets = s.lowestWheel.numBuckets ∧
      (s.processBuckets l).1.lowestWheel.currBucketIndex.val =
        (s.lowestWheel.currBucketIndex + l.length) % s.lowestWheel.numBuckets := by
  induction l generalizing s with
  | nil => exact ⟨rfl, (Nat.mod_eq_of_lt s.lowestWheel.currBucketIndex.isLt).symm⟩
  | cons idx l ih =>
    rw [List.length_cons] at h
    obtain ⟨buckets, above, hframe⟩ := s.processBucket_frame (s.lowestWheel.bucket idx)
    have hnum : (s.processBucket (s.lowestWheel.bucket idx)).1.lowestWheel.numBuckets =
        s.lowestWheel.numBuckets := by rw [hframe]; rfl
    have hcur : (s.processBucket (s.lowestWheel.bucket idx)).1.lowestWheel.currBucketIndex.val =
        (s.lowestWheel.currBucketIndex + 1) % s.lowestWheel.numBuckets := by
      rw [hframe]
      show SizeT.add _ 1 % _ = _
      rw [SizeT.add_of_lt (by omega)]
    obtain ⟨ihnum, ihcur⟩ := ih (s := (s.processBucket (s.lowestWheel.bucket idx)).1) (by
      have := Nat.mod_le (s.lowestWheel.currBucketIndex + 1) s.lowestWheel.numBuckets
      omega)
    refine ⟨ihnum.trans hnum, ihcur.trans ?_⟩
    rw [hcur, hnum, Nat.mod_add_mod, List.length_cons, Nat.add_assoc, Nat.add_comm 1]

theorem place_cursor (ticksLeft : ℕ) (timer : Timer) (i : ℕ) :
    (s.place ticksLeft timer i).lowestWheel.currBucketIndex.val = s.lowestWheel.currBucketIndex := by
  cases i <;> rfl

theorem ticking (start : TimePoint) (htick : 0 < tickSize.toInt) :
    Ticking tickSize step ticksOf lastAdvancementTime
      (fun (s : HierarchicalTimingWheel Timer) n =>
        (s.processBuckets (List.range' s.lowestWheel.currBucketIndex n)).2)
      fun s => s.tickSize = tickSize ∧
        InTime tickSize start s.lastAdvancementTime s.lowestWheel.currBucketIndex := by
  refine ⟨htick, ?_, ?_, ?_, fun _ => rfl⟩
  · rintro s duration timer ⟨htickSize, h⟩
    show ((s.place _ _ _).tickSize = _ ∧ InTime _ _ (s.place _ _ _).lastAdvancementTime
      (s.place _ _ _).lowestWheel.currBucketIndex) ∧ (s.place _ _ _).lastAdvancementTime = _
    rw [place_cursor, (place_frame ..).1, (place_frame ..).2]
    exact ⟨⟨htickSize, h⟩, rfl⟩
  · rintro s now ⟨htickSize, -⟩ hnow
    show s.advance now = _ ∧ (s.completedBuckets now).length = 0
    rw [← htickSize] at hnow
    rw [advance, completedBuckets, if_pos hnow, if_pos hnow]
    exact ⟨rfl, rfl⟩
  · rintro s now ⟨rfl, h⟩ hnow
    set n := elapsed s.tickSize s.lastAdvancementTime now with hn
    have hindex : s.determineNewBottomWheelIndex now = s.lowestWheel.currBucketIndex + n := h.index hnow
    have hcompleted : s.completedBuckets now = List.range' s.lowestWheel.currBucketIndex n := by
      rw [completedBuckets, if_neg hnow, hindex, Nat.add_sub_cancel_left]
    have hfits : ((s.lowestWheel.currBucketIndex + n : ℕ) : ℤ) * nanos s.tickSize ≤ since now start :=
      (h.elapsed hnow).2
    have hlt := lt_of_mul_le htick hfits
    have hstep : s.step (.advance now) =
        ({ (s.processBuckets (List.range' s.lowestWheel.currBucketIndex n)).1 with
            lastAdvancementTime := now },
          (s.processBuckets (List.range' s.lowestWheel.currBucketIndex n)).2) := by
      show s.advance now = _
      rw [advance_eq, hcompleted, if_neg hnow]
    obtain ⟨htickSize, hle⟩ := s.processBuckets_frame (List.range' s.lowestWheel.currBucketIndex n)
    obtain ⟨hnum, hcur⟩ := s.processBuckets_cursor (List.range' s.lowestWheel.currBucketIndex n)
      (by rw [List.length_range']; omega)
    rw [List.length_range'] at hle hcur
    rw [hstep]
    refine ⟨⟨htickSize, htick, ?_⟩, rfl, ?_, fun m => ?_⟩
    · refine le_trans (mul_le_mul_of_nonneg_right ?_ (nanos_pos htick).le) hfits
      exact_mod_cast hle
    · show (s.completedBuckets now).length = n
      rw [hcompleted, List.length_range']
    · -- the next call starts from the wrapped cursor
      have hwrap : (s.lowestWheel.currBucketIndex + n) %
          (s.processBuckets (List.range' s.lowestWheel.currBucketIndex n)).1.lowestWheel.numBuckets =
          (s.processBuckets (List.range' s.lowestWheel.currBucketIndex n)).1.lowestWheel.currBucketIndex %
            (s.processBuckets (List.range' s.lowestWheel.currBucketIndex n)).1.lowestWheel.numBuckets := by
        rw [hcur, hnum, Nat.mod_mod]
      have hcongr := processBuckets_congr _ hwrap m
      rw [← List.range'_append_1, processBuckets_append]
      exact congrArg (_ ++ ·) ((congrArg Prod.snd hcongr).trans (processBuckets_resolved ..).symm)

end HierarchicalTimingWheel

/-- However the clock readings are spaced, and whatever was scheduled before: on both wheels, the
advances at `times` make no difference to what has been processed and returned by the one at `now`
exactly when less than a tick is cut off. Clock readings and ticks are assumed not to overflow; see
`since` and `nanos`. -/
theorem advances_keep_time_iff (tickSize : Milliseconds) (start : TimePoint) (numTicks size : ℕ+)
    (sizes : List ℕ+) (calls : List (Call Timer)) (times : List TimePoint) (now : TimePoint)
    (htick : 0 < tickSize.toInt)
    (hmono : (lastReading tickSize start calls :: (times ++ [now])).Pairwise (· ≤ ·)) :
    let last := lastReading tickSize start calls
    (KeepsTime TimingWheel.step TimingWheel.ticksOf tickSize last
        (Mealy.final TimingWheel.step (.create tickSize start numTicks) calls) times now ↔
      cutOff tickSize last times now < nanos tickSize) ∧
    (KeepsTime HierarchicalTimingWheel.step HierarchicalTimingWheel.ticksOf tickSize last
        (Mealy.final HierarchicalTimingWheel.step (.create tickSize start size sizes) calls) times now ↔
      cutOff tickSize last times now < nanos tickSize) := by
  intro last
  have h0 : InTime tickSize start start 0 := .create htick
  constructor
  · have hwheel := @TimingWheel.ticking Timer tickSize start htick
    obtain ⟨hok, hlast⟩ := hwheel.final (s := .create tickSize start numTicks) ⟨rfl, h0⟩ calls
    have hkeeps := hwheel.keepsTime_iff hok times now
    rw [hlast] at hkeeps
    exact hkeeps hmono
  · have hwheel := @HierarchicalTimingWheel.ticking Timer tickSize start htick
    obtain ⟨hok, hlast⟩ := hwheel.final (s := .create tickSize start size sizes) ⟨rfl, h0⟩ calls
    have hkeeps := hwheel.keepsTime_iff hok times now
    rw [hlast] at hkeeps
    exact hkeeps hmono

/-- An advance after 100 ms, two ticks, cuts nothing off. -/
theorem advances_keep_time_even :
    KeepsTime TimingWheel.step TimingWheel.ticksOf 50 0
        (Mealy.final TimingWheel.step (.create 50 0 6) [Call.schedule 50 7]) [100000000] 148000000 ∧
      KeepsTime HierarchicalTimingWheel.step HierarchicalTimingWheel.ticksOf 50 0
        (Mealy.final HierarchicalTimingWheel.step (.create 50 0 2 [3]) [Call.schedule 50 7])
        [100000000] 148000000 := by
  obtain ⟨hflat, hhier⟩ := advances_keep_time_iff 50 0 6 2 [3] [Call.schedule 50 7] [100000000] 148000000
    (by decide) (by decide)
  exact ⟨hflat.2 (by decide), hhier.2 (by decide)⟩

/-- An advance after 99 ms cuts off 49 ms, and at 148 ms one tick has been processed instead of two: the
timer for one tick has not been returned. -/
theorem advances_drift :
    let flat := Mealy.final TimingWheel.step (.create 50 0 6) [Call.schedule 50 7]
    let hier := Mealy.final HierarchicalTimingWheel.step (.create 50 0 2 [3]) [Call.schedule 50 7]
    let calls : List (Call ℕ) := [.advance 99000000, .advance 148000000]
    since 148000000 0 / nanos 50 = 2 ∧
      Mealy.total TimingWheel.step TimingWheel.ticksOf flat calls = 1 ∧
      Mealy.total HierarchicalTimingWheel.step HierarchicalTimingWheel.ticksOf hier calls = 1 ∧
      Mealy.run TimingWheel.step flat calls = [[], []] ∧ (flat.advance 148000000).2 = [7] ∧
      Mealy.run HierarchicalTimingWheel.step hier calls = [[], []] ∧ (hier.advance 148000000).2 = [7] ∧
      ¬ KeepsTime TimingWheel.step TimingWheel.ticksOf 50 0 flat [99000000] 148000000 ∧
      ¬ KeepsTime HierarchicalTimingWheel.step HierarchicalTimingWheel.ticksOf 50 0 hier [99000000]
        148000000 := by
  intro flat hier calls
  refine ⟨by decide, by decide, by decide, by decide, by decide, by decide, by decide, fun h => ?_, fun h => ?_⟩
  · exact absurd h.ticks (by decide)
  · exact absurd h.ticks (by decide)

end AsyncEry.Timing
