import AsyncEry.Timetable
import AsyncEry.Lib.Conserve

/-!
# `TimingWheel` keeps its timetable

A bucket holds the timers of the one tick, out of the next `num_ticks`, that it stands for. So the
wheel hands over the timers that its timetable does, in the same order, as long as no timer is
scheduled for more ticks ahead than there are buckets.
-/

namespace AsyncEry.Timing

/-- `timing_wheel.h`. -/
structure TimingWheel (Timer : Type) where
  numTicks : ℕ+
  wheel : Vector (List Timer) numTicks
  wheelTickSize : Milliseconds
  lastAdvancementTime : TimePoint
  currentWheelIndex : ℕ

namespace TimingWheel
variable {Timer : Type}

/-- The constructor, called at `now`. -/
def create (wheelTickSize : Milliseconds) (now : TimePoint) (numTicks : ℕ+) : TimingWheel Timer :=
  ⟨numTicks, .replicate numTicks [], wheelTickSize, now, 0⟩

/-- `idx % num_ticks`. -/
def bucket (s : TimingWheel Timer) (idx : ℕ) : Fin s.numTicks :=
  ⟨idx % s.numTicks, Nat.mod_lt _ s.numTicks.pos⟩

/-- `wheel[b]`. -/
def timers (s : TimingWheel Timer) (b : Fin s.numTicks) : List Timer := s.wheel[b]

def setTimers (s : TimingWheel Timer) (b : Fin s.numTicks) (timers : List Timer) : TimingWheel Timer :=
  { s with wheel := s.wheel.set b timers }

def push (s : TimingWheel Timer) (b : Fin s.numTicks) (timer : Timer) : TimingWheel Timer :=
  s.setTimers b (s.timers b ++ [timer])

def clear (s : TimingWheel Timer) (b : Fin s.numTicks) : TimingWheel Timer := s.setTimers b []

def nonWrappedWheelIndex (s : TimingWheel Timer) (time : ℤ) : ℕ :=
  SizeT.add s.currentWheelIndex
    (SizeT.ofInt (ticksSince s.wheelTickSize (time - s.lastAdvancementTime.toInt)))

def schedule (s : TimingWheel Timer) (durationFromLastAdvancement : Milliseconds) (timer : Timer) :
    TimingWheel Timer :=
  let index := s.nonWrappedWheelIndex
    (s.lastAdvancementTime.toInt + nanos durationFromLastAdvancement)
  s.push (s.bucket index) timer

/-- The loop of `advance` over the completed buckets. -/
def collect (s : TimingWheel Timer) : List ℕ → TimingWheel Timer × List Timer
  | [] => (s, [])
  | idx :: completed =>
    let resolved := s.timers (s.bucket idx)
    let (s, rest) := collect (s.clear (s.bucket idx)) completed
    (s, resolved ++ rest)

def advance (s : TimingWheel Timer) (now : TimePoint) : TimingWheel Timer × List Timer :=
  if since now s.lastAdvancementTime < nanos s.wheelTickSize then (s, [])
  else
    let completed := List.range' s.currentWheelIndex
      (s.nonWrappedWheelIndex now.toInt - s.currentWheelIndex)
    let (s, resolvedTimers) := s.collect completed
    ({ s with
        currentWheelIndex := s.nonWrappedWheelIndex now.toInt
        lastAdvancementTime := now },
      resolvedTimers)

def step (s : TimingWheel Timer) : Call Timer → TimingWheel Timer × List Timer
  | .schedule duration timer => (s.schedule duration timer, [])
  | .advance now => s.advance now

/-! ### The buckets -/

/-- The bucket of every tick of the coming turn holds what the calendar has for it. -/
structure Holds (c : Calendar Timer) (s : TimingWheel Timer) : Prop where
  buckets : ∀ t, c.now ≤ t → t < c.now + s.numTicks → s.timers (s.bucket t) = c.due t
  horizon : ∀ p ∈ c.booked, p.1 < c.now + s.numTicks

variable {s : TimingWheel Timer} {c : Calendar Timer} {t u n : ℕ}

theorem timers_setTimers {b b' : Fin s.numTicks} {timers : List Timer} :
    (s.setTimers b timers).timers b' = if b' = b then timers else s.timers b' := by
  show (s.wheel.set b.1 timers)[b'.1] = _
  rw [Vector.getElem_set]
  exact if_congr (eq_comm.trans Fin.ext_iff.symm) rfl rfl

theorem bucket_inj (ht : n ≤ t) (ht' : t < n + s.numTicks) (hu : n ≤ u) (hu' : u < n + s.numTicks)
    (h : s.bucket t = s.bucket u) : t = u := by
  have hmod : t ≡ u [MOD s.numTicks] := Fin.val_eq_of_eq h
  have habs : |(u : ℤ) - t| < (s.numTicks : ℕ) := by rw [abs_lt]; omega
  have hdvd := Int.eq_zero_of_abs_lt_dvd hmod.dvd habs
  omega

namespace Holds

theorem create {wheelTickSize : Milliseconds} {now : TimePoint} {numTicks : ℕ+} :
    (create wheelTickSize now numTicks : TimingWheel Timer).Holds .empty := by
  refine ⟨fun t _ _ => ?_, fun p hp => absurd hp List.not_mem_nil⟩
  exact Vector.getElem_replicate _

theorem book (h : s.Holds c) (ht : c.now ≤ t) (ht' : t < c.now + s.numTicks) (timer : Timer) :
    (s.push (s.bucket t) timer).Holds (c.book t timer) := by
  constructor
  · intro u hu hu'
    show (s.setTimers _ _).timers (s.bucket u) = _
    rw [timers_setTimers, Calendar.due_book]
    by_cases htu : t = u
    · subst htu
      rw [if_pos rfl, if_pos rfl, h.buckets t ht ht']
    · rw [if_neg fun heq => htu (bucket_inj ht ht' hu hu' heq.symm), if_neg htu, List.append_nil]
      exact h.buckets u hu hu'
  · intro p hp
    rcases List.mem_append.1 hp with hp | hp
    · exact h.horizon p hp
    · cases List.mem_singleton.1 hp; exact ht'

/-- One round of the loop hands over the timers of the present tick; the bucket then stands for the
tick a turn later, for which nothing can have been booked. -/
theorem tick (h : s.Holds c) : s.timers (s.bucket c.now) = c.due c.now ∧
    (s.clear (s.bucket c.now)).Holds (c.skip 1) := by
  have hpos := s.numTicks.pos
  refine ⟨h.buckets _ le_rfl (by omega), ?_, ?_⟩
  · intro u hu hu'
    change c.now + 1 ≤ u at hu
    change u < c.now + 1 + s.numTicks at hu'
    show (s.setTimers _ _).timers (s.bucket u) = c.due u
    rw [timers_setTimers]
    split
    · next heq =>
      have hu : u = c.now + s.numTicks := by
        by_contra hne
        have := bucket_inj le_rfl (by omega) (by omega) (by omega) heq.symm
        omega
      have hnil : c.booked.filter (fun p => p.1 = u) = [] := List.filter_eq_nil_iff.2 fun p hp => by
        have := h.horizon p hp
        rw [decide_eq_true_eq]
        omega
      rw [Calendar.due, hnil, List.map_nil]
    · next hne =>
      refine h.buckets u (by omega) ?_
      by_contra hlt
      obtain rfl : u = c.now + s.numTicks := by omega
      exact hne (Fin.ext (Nat.add_mod_right ..))
  · intro p hp
    have := h.horizon p hp
    show p.1 < c.now + 1 + s.numTicks
    omega

theorem collect (h : s.Holds c) (n : ℕ) :
    (s.collect (List.range' c.now n)).2 = c.handOver n ∧
      (s.collect (List.range' c.now n)).1.Holds (c.skip n) := by
  induction n generalizing s c with
  | zero => exact ⟨rfl, h⟩
  | succ n ih =>
    obtain ⟨hout, hnext⟩ := h.tick
    obtain ⟨ihout, ihnext⟩ := ih hnext
    rw [Calendar.skip_skip, Nat.add_comm 1 n] at ihnext
    rw [List.range'_succ, Calendar.handOver_succ]
    refine ⟨?_, ihnext⟩
    rw [← ihout, ← hout]
    rfl

end Holds

theorem collect_frame (l : List ℕ) : ∃ wheel, (s.collect l).1 = { s with wheel := wheel } := by
  induction l generalizing s with
  | nil => exact ⟨s.wheel, rfl⟩
  | cons idx l ih =>
    obtain ⟨wheel, h⟩ := ih (s := s.clear (s.bucket idx))
    exact ⟨wheel, h⟩

/-! ### What the wheel stores -/

/-- The timers in all buckets. -/
def stored (s : TimingWheel Timer) : Multiset Timer := ∑ b, (s.timers b : Multiset Timer)

theorem stored_create (wheelTickSize : Milliseconds) (now : TimePoint) (numTicks : ℕ+) :
    (create wheelTickSize now numTicks : TimingWheel Timer).stored = 0 :=
  Finset.sum_eq_zero fun _ _ => congrArg Multiset.ofList (Vector.getElem_replicate _)

theorem stored_setTimers (b : Fin s.numTicks) (timers : List Timer) :
    (s.setTimers b timers).stored =
      ∑ b' : Fin s.numTicks, (Function.update s.timers b timers b' : Multiset Timer) :=
  Finset.sum_congr rfl fun _ _ =>
    congrArg Multiset.ofList (timers_setTimers.trans (Function.update_apply ..).symm)

theorem stored_push (b : Fin s.numTicks) (timer : Timer) :
    (s.push b timer).stored = s.stored + {timer} :=
  (stored_setTimers ..).trans (Conserve.sum_put (g := Multiset.ofList) (Finset.mem_univ b)
    (Multiset.coe_add ..).symm)

theorem stored_clear (b : Fin s.numTicks) :
    (s.clear b).stored + (s.timers b : Multiset Timer) = s.stored := by
  rw [clear, stored_setTimers]
  exact Conserve.sum_take (g := Multiset.ofList) (Finset.mem_univ b) (zero_add _).symm

theorem stored_schedule (s : TimingWheel Timer) (duration : Milliseconds) (timer : Timer) :
    (s.schedule duration timer).stored = s.stored + {timer} := stored_push ..

theorem stored_collect (s : TimingWheel Timer) (l : List ℕ) :
    (s.collect l).1.stored + ((s.collect l).2 : Multiset Timer) = s.stored := by
  induction l generalizing s with
  | nil => exact add_zero _
  | cons idx l ih =>
    have hclear := s.stored_clear (s.bucket idx)
    rw [← ih, add_assoc, Multiset.coe_add, ← Multiset.coe_eq_coe.2 List.perm_append_comm] at hclear
    exact hclear

theorem stored_advance (s : TimingWheel Timer) (now : TimePoint) :
    (s.advance now).1.stored + ((s.advance now).2 : Multiset Timer) = s.stored := by
  unfold advance
  split
  · exact add_zero _
  · exact s.stored_collect _

/-! ### Runs -/

/-- The wheel and its timetable go together. -/
structure Shows (numTicks : ℕ) (start : TimePoint) (s : TimingWheel Timer) (r : Timetable Timer) : Prop where
  clocked : r.Clocked start
  numTicks : s.numTicks = numTicks
  tickSize : s.wheelTickSize = r.tickSize
  last : s.lastAdvancementTime = r.lastAdvancementTime
  index : s.currentWheelIndex = r.calendar.now
  holds : s.Holds r.calendar

variable {N : ℕ} {r : Timetable Timer} {start now : TimePoint} {duration : Milliseconds}

namespace Shows

theorem create {wheelTickSize : Milliseconds} {numTicks : ℕ+} (h : 0 < wheelTickSize.toInt) :
    Shows numTicks start (create wheelTickSize start numTicks : TimingWheel Timer)
      (.create wheelTickSize start) :=
  ⟨.create h, rfl, rfl, rfl, rfl, .create⟩

theorem schedule (h : Shows N start s r) (hd : 0 ≤ duration.toInt)
    (hlt : ticksIn r.tickSize duration < N) (timer : Timer) :
    Shows N start (s.schedule duration timer) (r.schedule duration timer) := by
  have htick := h.clocked.tick_pos
  have hnow := h.clocked.lt
  have h0 := ticksIn_nonneg htick hd
  have hk := ticksIn_lt r.tickSize hd
  rw [← h.numTicks] at hlt
  have hindex : s.nonWrappedWheelIndex (s.lastAdvancementTime.toInt + nanos duration) =
      r.calendar.now + (ticksIn r.tickSize duration).toNat := by
    rw [nonWrappedWheelIndex, add_sub_cancel_left, ticksSince_nanos, h.index, h.tickSize,
      SizeT.ofInt_of_lt h0 (by omega), SizeT.add_of_lt (by omega)]
  refine ⟨h.clocked.schedule duration timer, h.numTicks, h.tickSize, h.last, h.index, ?_⟩
  unfold TimingWheel.schedule
  rw [hindex]
  exact h.holds.book (by omega) (by omega) timer

theorem advance (h : Shows N start s r) (now : TimePoint) :
    (s.advance now).2 = (r.advance now).2 ∧ Shows N start (s.advance now).1 (r.advance now).1 := by
  have hclocked := h.clocked.advance now
  unfold TimingWheel.advance
  unfold Timetable.advance at hclocked ⊢
  rw [h.last, h.tickSize]
  split
  · exact ⟨rfl, h⟩
  · next hnow =>
    rw [if_neg hnow] at hclocked
    have hindex : s.nonWrappedWheelIndex now.toInt =
        r.calendar.now + elapsed r.tickSize r.lastAdvancementTime now := by
      unfold nonWrappedWheelIndex
      rw [h.last, h.tickSize, h.index]
      exact h.clocked.index hnow
    obtain ⟨hout, hnext⟩ := h.holds.collect (elapsed r.tickSize r.lastAdvancementTime now)
    rw [hindex, h.index, Nat.add_sub_cancel_left]
    obtain ⟨wheel, hframe⟩ :=
      s.collect_frame (List.range' r.calendar.now (elapsed r.tickSize r.lastAdvancementTime now))
    refine ⟨hout, hclocked, ?_, ?_, rfl, ?_, ⟨hnext.buckets, hnext.horizon⟩⟩
    · show ((s.collect _).1.numTicks : ℕ) = _
      rw [hframe]; exact h.numTicks
    · show (s.collect _).1.wheelTickSize = _
      rw [hframe]; exact h.tickSize
    · show (s.collect _).1.nonWrappedWheelIndex _ = _
      rw [hframe]; exact hindex

end Shows

/-- The wheel hands over what its timetable does, and in the same order. -/
theorem run_eq_timetable (tickSize : Milliseconds) (start : TimePoint) (numTicks : ℕ+)
    {calls : List (Call Timer)} (htick : 0 < tickSize.toInt)
    (hcalls : ∀ call ∈ calls, call.InRange tickSize numTicks) :
    Mealy.run step (create tickSize start numTicks) calls =
      Mealy.run Timetable.step (.create tickSize start) calls := by
  rw [← List.forall₂_eq_eq_eq]
  refine Mealy.run_forall₂ (R := fun s r => Shows numTicks start s r ∧ r.tickSize = tickSize) ?_
    ⟨.create htick, rfl⟩ (Mealy.meets_of_forall hcalls)
  rintro s r call ⟨h, hr⟩ hcall
  rw [Timetable.tickSize_step]
  cases call with
  | schedule duration timer =>
    obtain ⟨hd, hlt⟩ := hcall
    exact ⟨⟨h.schedule hd (by rw [hr]; exact hlt) timer, hr⟩, rfl⟩
  | advance now =>
    obtain ⟨hout, hnext⟩ := h.advance now
    exact ⟨⟨hnext, hr⟩, hout⟩

/-! ### What an advance returns -/

/-- The timers that `calls` schedule, each with the number of ticks at which it is due. -/
def targets (s : TimingWheel Timer) : List (Call Timer) → List (ℕ × Timer)
  | [] => []
  | .schedule duration timer :: calls =>
    (s.currentWheelIndex + (ticksIn s.wheelTickSize duration).toNat, timer) ::
      (s.schedule duration timer).targets calls
  | .advance now :: calls => (s.advance now).1.targets calls

/-- The calendar has the targets booked, and what it has not pending was handed over. -/
theorem Shows.run {calls : List (Call Timer)} (h : Shows N start s r)
    (hcalls : ∀ call ∈ calls, call.InRange r.tickSize N) :
    ∃ r' : Timetable Timer, Shows N start (Mealy.final step s calls) r' ∧
      r'.calendar.booked = r.calendar.booked ++ s.targets calls ∧
      ((Mealy.run step s calls).flatten : Multiset Timer) + r'.calendar.pending.map Prod.snd =
        (r.calendar.pending + s.targets calls).map Prod.snd := by
  induction calls generalizing s r with
  | nil =>
    refine ⟨r, h, (List.append_nil _).symm, ?_⟩
    show 0 + _ = (_ + 0 : Multiset (ℕ × Timer)).map Prod.snd
    rw [zero_add, add_zero]
  | cons call calls ih =>
    have hrest := fun call' hmem => hcalls call' (List.mem_cons_of_mem call hmem)
    cases call with
    | schedule duration timer =>
      obtain ⟨hd, hlt⟩ := hcalls _ (List.mem_cons_self ..)
      obtain ⟨r', h', hbooked, hflow⟩ := ih (h.schedule hd hlt timer) hrest
      refine ⟨r', h', ?_, ?_⟩
      · rw [hbooked, targets, h.index, h.tickSize]
        exact List.append_assoc ..
      · show Multiset.ofList ([] ++ (Mealy.run step (s.schedule duration timer) calls).flatten) + _ = _
        rw [List.nil_append, hflow, targets, h.index, h.tickSize, Timetable.schedule,
          Calendar.pending_book (Nat.le_add_right ..), add_assoc]
        rfl
    | advance now =>
      obtain ⟨hout, hnext⟩ := h.advance now
      obtain ⟨hbooks, hpending⟩ := r.advance_flow now h.clocked.tick_pos
      have htick : (r.advance now).1.tickSize = r.tickSize := r.tickSize_step (.advance now)
      obtain ⟨r', h', hbooked, hflow⟩ := ih hnext (by rw [htick]; exact hrest)
      refine ⟨r', h', by rw [hbooked, hbooks]; rfl, ?_⟩
      show Multiset.ofList ((s.advance now).2 ++ (Mealy.run step (s.advance now).1 calls).flatten) + _ = _
      rw [← Multiset.coe_add, add_assoc, hflow, hout, Multiset.map_add, ← add_assoc, hpending,
        ← Multiset.map_add]
      rfl

/-- After any calls, an advance that takes the wheel from tick `a` to tick `b` returns the timers with
targets from `a` up to `b`, sorted by target and in the order of scheduling where these are equal; those
with earlier targets have been returned before. Clock readings and ticks are assumed not to overflow; see
`since` and `nanos`. -/
theorem run_releases_due (tickSize : Milliseconds) (start : TimePoint) (numTicks : ℕ+)
    (calls : List (Call Timer)) (now : TimePoint) (htick : 0 < tickSize.toInt)
    (hcalls : ∀ call ∈ calls, call.InRange tickSize numTicks) :
    let s := Mealy.final step (create tickSize start numTicks) calls
    let a := s.currentWheelIndex
    let b := (s.advance now).1.currentWheelIndex
    let scheduled := (create tickSize start numTicks).targets calls
    ((Mealy.run step (create tickSize start numTicks) calls).flatten.Perm
        ((scheduled.filter fun p => p.1 < a).map Prod.snd)) ∧
      ∃ released : List (ℕ × Timer), (s.advance now).2 = released.map Prod.snd ∧
        released.Pairwise (fun p q => p.1 ≤ q.1) ∧
        ∀ t, released.filter (fun p => p.1 = t) =
          if a ≤ t ∧ t < b then scheduled.filter (fun p => p.1 = t) else [] := by
  obtain ⟨r, h, hbooked, hflow⟩ := (Shows.create htick : Shows numTicks start _ _).run hcalls
  intro s a b scheduled
  change r.calendar.booked = [] ++ scheduled at hbooked
  rw [List.nil_append] at hbooked
  constructor
  · -- what is not pending has been returned
    have hsplit := congrArg (Multiset.map Prod.snd) r.calendar.filter_add_pending
    rw [Multiset.map_add, hbooked, ← show a = r.calendar.now from h.index] at hsplit
    refine Multiset.coe_eq_coe.1 (add_right_cancel (hflow.trans (Eq.trans ?_ hsplit.symm)))
    exact congrArg _ (zero_add _)
  · obtain ⟨hout, hnext⟩ := h.advance now
    have hb : b = (r.advance now).1.calendar.now := hnext.index
    have ha : a = r.calendar.now := h.index
    rw [hout, ← hbooked, ha, hb]
    rcases r.advance_cases now h.clocked.tick_pos with hadv | ⟨n, -, hadv⟩ <;> rw [hadv]
    · refine ⟨[], rfl, .nil, fun t => ?_⟩
      rw [if_neg fun hlt => absurd (hlt.1.trans_lt hlt.2) (lt_irrefl _)]
      rfl
    · exact r.calendar.handOver_sorted n

/-- Ten ticks take a wheel with three buckets round more than three times. -/
theorem run_releases_due_round :
    ∃ released : List (ℕ × ℕ),
      ((Mealy.final step (create 50 0 3) [Call.schedule 100 7, .advance 100000000, .schedule 50 8]).advance
        600000000).2 = released.map Prod.snd ∧ released.Pairwise fun p q => p.1 ≤ q.1 := by
  obtain ⟨-, released, hout, hsorted, -⟩ := run_releases_due 50 0 3
    [Call.schedule 100 7, .advance 100000000, .schedule 50 8] 600000000 (by decide) (by decide)
  exact ⟨released, hout, hsorted⟩

end TimingWheel
end AsyncEry.Timing
