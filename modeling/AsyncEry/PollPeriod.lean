import AsyncEry.PollLoop
import AsyncEry.Lib.Progress

/-!
# How often a source is polled

The loop of `begin_poll` cuts a poll frequency down to ticks of 10 ms, and an advance counts the whole
ticks since the one before. So a source is not handed out again before its frequency has gone by on the
clock, and it is polled again by the time that one more advance has found a tick gone by than there are
ticks in its frequency. A frequency below a tick, such as the 5 ms of both poll sources, is no tick:
then every advance that finds one gone by hands out all sources.
-/

namespace AsyncEry.Scheduler.PollLoop
open Timing Lts

variable {Job : Type} {n : ℕ} {start : TimePoint} {r : Timetable ℕ} {s s' : PollLoop Job} {source : ℕ}

def index (s : PollLoop Job) : ℕ := s.pollScheduler.currentWheelIndex

def last (s : PollLoop Job) : TimePoint := s.pollScheduler.lastAdvancementTime

theorem last_scheduleAll (w : TimingWheel ℕ) (sources : List ℕ) :
    (scheduleAll w sources).lastAdvancementTime = w.lastAdvancementTime := by
  induction sources generalizing w with
  | nil => rfl
  | cons source sources ih => exact ih (w.schedule 0 source)

/-- The advance finds a tick gone by. -/
def Ticks (s s' : PollLoop Job) : Prop := s'.last ≠ s.last

instance : DecidableRel (Ticks : PollLoop Job → PollLoop Job → Prop) :=
  fun s s' => inferInstanceAs (Decidable (s'.last ≠ s.last))

theorem not_ticks (h : s'.last = s.last) : ¬ s.Ticks s' := not_not.2 h

/-- The index follows the clock. -/
structure Follows (s s' : PollLoop Job) : Prop where
  le : s.index ≤ s'.index
  fits : ((s'.index : ℤ) - s.index) * nanos wheelTickSize ≤ since s'.last s.last
  ticks : s.Ticks s' → s.index < s'.index

theorem Follows.of_eq (hindex : s'.index = s.index) (hlast : s'.last = s.last) : s.Follows s' := by
  refine ⟨hindex.ge, ?_, fun ht => absurd ht (not_ticks hlast)⟩
  rw [hindex, hlast, sub_self, zero_mul]
  unfold since
  omega

theorem Inv.follows (h : s.Inv n start r) (hs : Step s s') : s.Follows s' := by
  cases hs with
  | advance now hpoint =>
    obtain ⟨-, hshows⟩ := h.shows.advance now
    have htick := h.shows.clocked.tick_pos
    rcases r.advance_tick now htick with ⟨-, heq⟩ | ⟨k, hk, hfits, -, heq⟩
    · rw [heq] at hshows
      exact .of_eq (hshows.index.trans h.shows.index.symm) (hshows.last.trans h.shows.last.symm)
    · have hindex : (s.pollScheduler.advance now).1.currentWheelIndex =
          s.pollScheduler.currentWheelIndex + k := by rw [hshows.index, heq, h.shows.index]; rfl
      have hlast : (s.pollScheduler.advance now).1.lastAdvancementTime = now := by
        rw [hshows.last, heq]
      refine ⟨(Nat.le_add_right _ k).trans hindex.ge, ?_, fun _ =>
        (Nat.lt_add_of_pos_right hk).trans_eq hindex.symm⟩
      show (((s.pollScheduler.advance now).1.currentWheelIndex : ℤ) -
        s.pollScheduler.currentWheelIndex) * _ ≤
          since (s.pollScheduler.advance now).1.lastAdvancementTime s.pollScheduler.lastAdvancementTime
      rw [hindex, hlast, h.shows.last, ← h.tickSize, Nat.cast_add, add_sub_cancel_left]
      exact hfits
  | poll | queue | reschedule | done => exact .of_eq rfl rfl

theorem Follows.trans {s'' : PollLoop Job} (h : s.Follows s') (h' : s'.Follows s'') : s.Follows s'' := by
  refine ⟨h.le.trans h'.le, ?_, fun ht => ?_⟩
  · have hsum := since_add_since s''.last s'.last s.last
    have hsplit : ((s''.index : ℤ) - s.index) = (s''.index - s'.index) + (s'.index - s.index) := by ring
    rw [hsplit, add_mul, ← hsum]
    exact add_le_add h'.fits h.fits
  · by_cases hlast : s'.last = s.last
    · refine h.le.trans_lt (h'.ticks fun heq => ht (heq.trans hlast))
    · exact (h.ticks hlast).trans_le h'.le

theorem follows_of_run (run : Run (Init n : PollLoop Job → Prop) Step) {i j : ℕ} (hij : i ≤ j) :
    (run.state i).Follows (run.state j) := by
  refine run.stable (P := fun s => (run.state i).Follows s) (fun s s' hr hs h => ?_) hij (.of_eq rfl rfl)
  obtain ⟨start, r, hinv⟩ := inv_of_reach hr
  exact h.trans (hinv.follows hs)

/-- A source is polled again, and then for a tick that is not before the one it waited for. -/
def Later (source : ℕ) (s s' : PollLoop Job) : Prop :=
  s'.pollsOf source = s.pollsOf source ∨
    (s.pollsOf source).length < (s'.pollsOf source).length ∧ s.nextTick source ≤ s'.nextTick source

theorem Later.nextTick_le (h : Later source s s') : s.nextTick source ≤ s'.nextTick source := by
  rcases h with heq | ⟨-, hle⟩
  · exact (congrArg (fun polls => polls.head?.elim 0 Poll.nextTick) heq).ge
  · exact hle

theorem Inv.later (h : s.Inv n start r) (hs : Step s s') (source : ℕ) : Later source s s' := by
  cases hs with
  | @reschedule jobs source' rest advance advances frequency hpoint hr ha h0 hlt =>
    set p : Poll Job := ⟨source', advance, jobs, frequency⟩ with hp
    by_cases hsource : source' = source
    · obtain ⟨-, hprocesses, -⟩ := h.latest _ _ ha
      have hbefore := hprocesses source' (by rw [hr]; exact List.mem_cons_self ..)
      rw [hsource] at hbefore
      have hpolls : pollsOf { s with polls := p :: s.polls } source = p :: s.pollsOf source :=
        Inv.pollsOf_cons.trans (if_pos hsource)
      refine .inr ⟨?_, ?_⟩
      · show _ < (pollsOf { s with polls := p :: s.polls } source).length
        rw [hpolls]
        exact Nat.lt_succ_self _
      · show _ ≤ (pollsOf { s with polls := p :: s.polls } source).head?.elim 0 Poll.nextTick
        rw [hpolls]
        exact hbefore.2.le.trans (Nat.le_add_right ..)
    · exact .inl (Inv.pollsOf_cons.trans (if_neg hsource))
  | advance | poll | queue | done => exact .inl rfl

/-- The end of a round, seen from the poll that it records. -/
theorem Inv.of_polled (h : s.Inv n start r) (hs : Step s s') {p : Poll Job}
    (hp : s'.polls = p :: s.polls) :
    s'.index = s.index ∧ s'.last = s.last ∧ 0 ≤ p.frequency.toInt ∧ p.source < n ∧
      s'.nextTick p.source = s.index + (ticksIn wheelTickSize p.frequency).toNat := by
  cases hs with
  | @reschedule jobs source rest advance advances frequency hpoint hr ha h0 hlt =>
    obtain rfl := (List.cons.inj hp).1
    obtain ⟨hlast, -, -⟩ := h.latest _ _ ha
    have hnext := h.reschedule hpoint hr ha h0 hlt
    refine ⟨rfl, rfl, h0, (hnext.made _ (List.mem_cons_self ..)).2, ?_⟩
    show nextTick { s with polls := _ :: s.polls } source = s.pollScheduler.currentWheelIndex + _
    rw [nextTick, show pollsOf { s with polls := _ :: s.polls } source = _ from
      Inv.pollsOf_cons.trans (if_pos rfl), h.shows.index, ← hlast]
    rfl
  | advance | poll | queue | done => exact absurd hp.symm (List.cons_ne_self _ _)

/-- A source in the batch was waiting for a tick that has passed. -/
theorem Inv.nextTick_lt (h : s.Inv n start r) (hsource : source ∈ s.ready)
    (hadvances : s.advances ≠ []) : s.nextTick source < s.index := by
  obtain ⟨a, as, heq⟩ := List.exists_cons_of_ne_nil hadvances
  obtain ⟨hlast, hprocesses, -⟩ := h.latest a as heq
  have hlt := (hprocesses source hsource).2
  rw [hlast, ← h.shows.index] at hlt
  exact hlt

/-- What holds from the end of the round of a poll on. -/
theorem polled_of_run (run : Run (Init n : PollLoop Job → Prop) Step) {i j : ℕ} (hij : i ≤ j)
    {p : Poll Job} (hp : p ∈ (run.state i).polls) :
    p ∈ (run.state j).polls ∧
      (run.state i).nextTick p.source ≤ (run.state j).nextTick p.source := by
  refine run.stable (P := fun s => p ∈ s.polls ∧ (run.state i).nextTick p.source ≤ s.nextTick p.source)
    (fun s s' hr hs h => ?_) hij ⟨hp, le_rfl⟩
  obtain ⟨start, r, hinv⟩ := inv_of_reach hr
  refine ⟨?_, h.2.trans (hinv.later hs p.source).nextTick_le⟩
  cases hs with
  | reschedule => exact List.mem_cons_of_mem _ h.1
  | advance | poll | queue | done => exact h.1

/-- A source waits for a tick that comes closer, until it is polled again. -/
theorem due_of_run (run : Run (Init n : PollLoop Job → Prop) Step) {i L m : ℕ} (source : ℕ)
    (hL : ((run.state i).pollsOf source).length = L)
    (hdue : (run.state i).nextTick source < (run.state i).index + m) (k : ℕ) :
    L < ((run.state (i + k)).pollsOf source).length ∨
      (run.state (i + k)).nextTick source < (run.state (i + k)).index + (m - run.count Ticks i k) := by
  refine run.descend (Q := fun m s => L ≤ (s.pollsOf source).length ∧
    (L < (s.pollsOf source).length ∨ s.nextTick source < s.index + m)) (fun s => not_ticks rfl)
    (fun m s s' hr h hs => ?_) ⟨hL.ge, .inr hdue⟩ k |>.2
  obtain ⟨start, r, hinv⟩ := inv_of_reach hr
  have hfollows := hinv.follows hs
  rcases hinv.later hs source with heq | ⟨hlt, -⟩
  · have hnext : s'.nextTick source = s.nextTick source :=
      congrArg (fun polls => polls.head?.elim 0 Poll.nextTick) heq
    rw [heq, hnext]
    refine ⟨h.1, h.2.imp_right fun hdue => ?_⟩
    have hle := hfollows.le
    split
    · next ht =>
      have hlt := hfollows.ticks ht
      omega
    · omega
  · exact ⟨h.1.trans hlt.le, .inl (h.1.trans_lt hlt)⟩

/-- The frequency of the timing source and of the IO source. -/
def pollFrequency : Milliseconds := 5

/-- One source, handed out at 10 ms, polled, scheduled again, and handed out at 20 ms. -/
def polledAgain : Run (Init 1 : PollLoop ℕ → Prop) Step where
  state :=
    let w : TimingWheel ℕ := scheduleAll (.create wheelTickSize 0 numTicks) (List.range 1)
    let w₁ := (w.advance 10000000).1
    let w₂ := w₁.schedule pollFrequency 0
    let p : Poll ℕ := ⟨0, ⟨0, 0, 1⟩, [7], pollFrequency⟩
    cons ⟨w, [], .head, [], [], []⟩ <|
      cons ⟨w₁, [0], .next, [⟨0, 0, 1⟩], [], []⟩ <|
      cons ⟨w₁, [0], .queue [7], [⟨0, 0, 1⟩], [], []⟩ <|
      cons ⟨w₁, [0], .reschedule [7], [⟨0, 0, 1⟩], [], [(Context.empty, [7])]⟩ <|
      cons ⟨w₂, [], .next, [⟨0, 0, 1⟩], [p], [(Context.empty, [7])]⟩ <|
      cons ⟨w₂, [], .head, [⟨0, 0, 1⟩], [p], [(Context.empty, [7])]⟩ fun _ =>
        ⟨(w₂.advance 20000000).1, [0], .next, [⟨1, 1, 2⟩, ⟨0, 0, 1⟩], [p], [(Context.empty, [7])]⟩
  starts := ⟨0, rfl⟩
  steps n := by
    rcases n with _ | _ | _ | _ | _ | _ | n
    · exact .inr (.advance 10000000 rfl)
    · exact .inr (@Step.poll _ _ 0 [] [7] rfl rfl)
    · exact .inr (.queue rfl)
    · exact .inr (@Step.reschedule _ _ [7] 0 [] ⟨0, 0, 1⟩ [] pollFrequency rfl rfl rfl (by decide) (by decide))
    · exact .inr (.done rfl rfl)
    · exact .inr (.advance 20000000 rfl)
    · exact .inl rfl

/-- After a poll of a source its frequency goes by on the clock before it is handed out again; and at
the head of an iteration it has been polled again if more advances have found a tick gone by than there
are ticks in its frequency. All frequencies are at least 0 and below a minute. -/
theorem run_poll_period (n : ℕ) (run : Run (Init n : PollLoop Job → Prop) Step) {i : ℕ} {p : Poll Job}
    (hp : (run.state (i + 1)).polls = p :: (run.state i).polls) (k : ℕ) :
    (p.source ∈ (run.state (i + 1 + k)).ready →
      nanos p.frequency < since (run.state (i + 1 + k)).last (run.state i).last) ∧
    ((run.state (i + 1 + k)).point = .head →
      (ticksIn wheelTickSize p.frequency).toNat < run.count Ticks (i + 1) k →
        ((run.state (i + 1)).pollsOf p.source).length <
          ((run.state (i + 1 + k)).pollsOf p.source).length) := by
  obtain ⟨start, r, hinv⟩ := inv_of_reach (run.reach i)
  have hstep : Step (run.state i) (run.state (i + 1)) := by
    refine (run.steps i).resolve_left fun heq => ?_
    rw [heq] at hp
    exact absurd hp.symm (List.cons_ne_self _ _)
  obtain ⟨hindex, hlast, h0, hsource, hnext⟩ := hinv.of_polled hstep hp
  obtain ⟨start', r', hinv'⟩ := inv_of_reach (run.reach (i + 1 + k))
  have hpos : (0 : ℤ) < nanos wheelTickSize := by decide
  have htick : (0 : ℤ) < wheelTickSize.toInt := by decide
  constructor
  · intro hready
    obtain ⟨hmem, hle⟩ := polled_of_run run (Nat.le_add_right (i + 1) k)
      (by rw [hp]; exact List.mem_cons_self ..)
    have hlt := hinv'.nextTick_lt hready (List.ne_nil_of_mem (hinv'.made p hmem).1)
    have hfits := (follows_of_run run (Nat.le_add_right (i + 1) k)).fits
    rw [hindex, hlast] at hfits
    rw [hnext] at hle
    -- one tick more than there are in the frequency has gone by
    have hticks : (ticksIn wheelTickSize p.frequency + 1) * nanos wheelTickSize ≤
        ((run.state (i + 1 + k)).index - (run.state i).index : ℤ) * nanos wheelTickSize := by
      refine mul_le_mul_of_nonneg_right ?_ hpos.le
      have hnonneg := ticksIn_nonneg htick h0
      omega
    have hfrequency : nanos p.frequency < (ticksIn wheelTickSize p.frequency + 1) * nanos wheelTickSize := by
      show p.frequency.toInt * 1000000 < (p.frequency.toInt.tdiv 10 + 1) * (10 * 1000000)
      rw [Int.tdiv_eq_ediv_of_nonneg h0]
      omega
    exact (hfrequency.trans_le hticks).trans_le hfits
  · intro hhead hcount
    have hdue : (run.state (i + 1)).nextTick p.source <
        (run.state (i + 1)).index + ((ticksIn wheelTickSize p.frequency).toNat + 1) := by
      rw [hnext, hindex]
      omega
    refine (due_of_run run p.source rfl hdue k).resolve_right fun hlt => ?_
    have hle := hinv'.le_nextTick hhead hsource
    rw [← hinv'.shows.index] at hle
    change (run.state (i + 1 + k)).index ≤ _ at hle
    omega

theorem run_poll_period_polledAgain :
    nanos pollFrequency < since (polledAgain.state 6).last (polledAgain.state 3).last :=
  (run_poll_period 1 polledAgain (i := 3) (p := ⟨0, ⟨0, 0, 1⟩, [7], pollFrequency⟩) rfl 2).1
    (List.mem_cons_self ..)

/-- A source with a frequency below a tick waits for the next one. -/
theorem Inv.nextTick_le_index (h : s.Inv n start r)
    (hfrequency : ∀ p ∈ s.pollsOf source, p.frequency.toInt < wheelTickSize.toInt) :
    s.nextTick source ≤ r.calendar.now := by
  rw [nextTick]
  cases hp : (s.pollsOf source).head? with
  | none => exact Nat.zero_le _
  | some p =>
    have hmem := List.mem_of_mem_head? hp
    have hticks : (ticksIn wheelTickSize p.frequency).toNat = 0 := by
      have hlt : p.frequency.toInt < 10 := hfrequency p hmem
      refine Int.toNat_eq_zero.2 ?_
      show p.frequency.toInt.tdiv 10 ≤ 0
      rcases le_or_gt 0 p.frequency.toInt with h0 | h0
      · rw [Int.tdiv_eq_ediv_of_nonneg h0]
        omega
      · have hneg : 0 ≤ (-p.frequency.toInt).tdiv 10 := Int.tdiv_nonneg (by omega) (by decide)
        rw [Int.neg_tdiv] at hneg
        omega
    show p.advance.last + (ticksIn wheelTickSize p.frequency).toNat ≤ _
    rw [hticks]
    exact (h.passed _ (h.made p (List.mem_filter.1 hmem).1).1).1

/-- The next advance that finds a tick gone by hands it out. -/
theorem Inv.mem_ready (h : s.Inv n start r) (hs : Step s s') (hticks : s.Ticks s') (hsource : source < n)
    (hfrequency : ∀ p ∈ s.pollsOf source, p.frequency.toInt < wheelTickSize.toInt) :
    s'.point = .next ∧ source ∈ s'.ready := by
  cases hs with
  | advance now hpoint =>
    have hnext := h.advance now hpoint
    have hlt := (h.follows (.advance now hpoint)).ticks hticks
    rw [index, index, h.shows.index, hnext.shows.index] at hlt
    have hmem := Multiset.mem_range.2 hsource
    rw [← hnext.pending] at hmem
    refine ⟨rfl, Multiset.mem_coe.1 ((Multiset.mem_add.1 hmem).resolve_left fun hpending => ?_)⟩
    obtain ⟨e, he, rfl⟩ := Multiset.mem_map.1 hpending
    have hle : (r.advance now).1.calendar.now ≤ e.1 := (Multiset.mem_filter.1 he).2
    have hwaiting : e.1 = s.nextTick e.2 := hnext.waiting e he
    have hindex := h.nextTick_le_index hfrequency
    omega
  | poll | queue | reschedule | done => exact absurd hticks (not_ticks rfl)

/-- If the sources have only asked for frequencies of at least 0 and below a tick, every advance that finds
a tick gone by hands out all of them, each once. -/
theorem run_advance_takes_all (n : ℕ) (run : Run (Init n : PollLoop Job → Prop) Step) {m : ℕ}
    (hfrequency : ∀ p ∈ (run.state m).polls, p.frequency.toInt < wheelTickSize.toInt)
    (hticks : (run.state m).Ticks (run.state (m + 1))) :
    ((run.state (m + 1)).ready : Multiset ℕ) = Multiset.range n := by
  obtain ⟨start, r, hinv⟩ := inv_of_reach (run.reach m)
  obtain ⟨start', r', hinv'⟩ := inv_of_reach (run.reach (m + 1))
  have hstep : Step (run.state m) (run.state (m + 1)) :=
    (run.steps m).resolve_left fun heq => absurd hticks (not_ticks (by rw [heq]))
  have hle : ((run.state (m + 1)).ready : Multiset ℕ) ≤ Multiset.range n := by
    rw [← hinv'.pending]
    exact Multiset.le_add_left ..
  have hnodup := Multiset.nodup_range n
  refine (Multiset.Nodup.ext (Multiset.nodup_of_le hle hnodup) hnodup).2 fun source =>
    ⟨Multiset.mem_of_le hle, fun hsource => ?_⟩
  exact (hinv.mem_ready hstep hticks (Multiset.mem_range.1 hsource) fun p hp =>
    hfrequency p (List.mem_filter.1 hp).1).2

theorem run_advance_takes_all_polledAgain :
    ((polledAgain.state 6).ready : Multiset ℕ) = Multiset.range 1 := by
  refine run_advance_takes_all 1 polledAgain (m := 5) (fun p hp => ?_) (by decide)
  obtain rfl : p = _ := List.mem_singleton.1 hp
  decide

end AsyncEry.Scheduler.PollLoop
