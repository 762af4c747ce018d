import AsyncEry.Basic
import AsyncEry.TimingWheel
import AsyncEry.Lib.Run

/-!
# The loop of `begin_poll`

An advance moves the sources that are due out of the wheel, and the loop goes through them: it polls
one, queues the jobs that it gets and moves the source back into the wheel, while the others wait in
the batch. What is in the wheel and what is left of the batch are together the sources of the initial
list, each once; and a source is in the wheel under the tick that its last poll asked for.

Sources are numbered by their place in the initial list. What `poll` returns is left open.
`poll_frequency` may return anything from 0 on and below a minute, the time for which the wheel has
buckets; for other frequencies there is no step, so all results are about runs in which none is returned.
-/

namespace AsyncEry.Scheduler
open Timing Lts

namespace PollLoop

/-- A call of `advance`: its number, and the ticks from `first` up to `last` that it processed. -/
structure Advance where
  number : ℕ
  first : ℕ
  last : ℕ

def Advance.Processes (a : Advance) (tick : ℕ) : Prop := a.first ≤ tick ∧ tick < a.last

/-- A round of the loop over a batch: the source, the advance that returned it, and what `poll` and
`poll_frequency` gave. -/
structure Poll (Job : Type) where
  source : ℕ
  advance : Advance
  jobs : List Job
  frequency : Milliseconds

/-- Where the loops stand: before an advance, before the next round over the batch, or in a round,
before the call of `queue` and before the source is scheduled again. -/
inductive Point (Job : Type)
  | head
  | next
  | queue (jobs : List Job)
  | reschedule (jobs : List Job)

end PollLoop

/-- The local variables of `begin_poll`; `ready` is what is left of the batch. `advances`, `polls` and
`queued` record the advances, the rounds completed and the calls of `queue`, latest first. -/
structure PollLoop (Job : Type) where
  pollScheduler : TimingWheel ℕ
  ready : List ℕ
  point : PollLoop.Point Job
  advances : List PollLoop.Advance
  polls : List (PollLoop.Poll Job)
  queued : List (Context × List Job)

namespace PollLoop
variable {Job : Type}

/-- The tick size of the poll wheel. -/
def wheelTickSize : Milliseconds := 10

/-- `std::chrono::minutes(1) / std::chrono::milliseconds(10)` -/
def numTicks : ℕ+ := 6000

/-- The loop that schedules the sources initially. -/
def scheduleAll (s : TimingWheel ℕ) (sources : List ℕ) : TimingWheel ℕ :=
  sources.foldl (fun s source => s.schedule 0 source) s

/-- `begin_poll` is called with `n` sources and is about to enter its loop; the clock read `start` when
the wheel was made. -/
def Init (n : ℕ) (s : PollLoop Job) : Prop :=
  ∃ start, s =
    ⟨scheduleAll (.create wheelTickSize start numTicks) (List.range n), [], .head, [], [], []⟩

/-- One access to the wheel, `poll`, or `queue`. A frequency that is negative or a minute and more has no
step. -/
inductive Step : PollLoop Job → PollLoop Job → Prop
  | advance {s} (now : TimePoint) (h : s.point = .head) :
    Step s { s with
      pollScheduler := (s.pollScheduler.advance now).1
      ready := (s.pollScheduler.advance now).2
      point := .next
      advances := ⟨s.advances.length, s.pollScheduler.currentWheelIndex,
        (s.pollScheduler.advance now).1.currentWheelIndex⟩ :: s.advances }
  | poll {s source rest} (jobs : List Job) (h : s.point = .next) (hr : s.ready = source :: rest) :
    Step s { s with point := .queue jobs }
  | queue {s jobs} (h : s.point = .queue jobs) :
    Step s { s with point := .reschedule jobs, queued := (Context.empty, jobs) :: s.queued }
  | reschedule {s jobs source rest advance advances} (frequency : Milliseconds)
    (h : s.point = .reschedule jobs) (hr : s.ready = source :: rest)
    (ha : s.advances = advance :: advances) (h0 : 0 ≤ frequency.toInt)
    (hlt : frequency.toInt < 60000) :
    Step s { s with
      pollScheduler := s.pollScheduler.schedule frequency source
      ready := rest
      point := .next
      polls := ⟨source, advance, jobs, frequency⟩ :: s.polls }
  | done {s} (h : s.point = .next) (hr : s.ready = []) : Step s { s with point := .head }

/-! ### The invariant -/

/-- The tick for which the source was scheduled again. -/
def Poll.nextTick (p : Poll Job) : ℕ := p.advance.last + (ticksIn wheelTickSize p.frequency).toNat

/-- The polls of a source, latest first. -/
def pollsOf (s : PollLoop Job) (source : ℕ) : List (Poll Job) :=
  s.polls.filter fun p => p.source = source

/-- The tick for which the source is scheduled. -/
def nextTick (s : PollLoop Job) (source : ℕ) : ℕ := (s.pollsOf source).head?.elim 0 Poll.nextTick

/-- The jobs queued in the present round. -/
def Point.queued : Point Job → List (Context × List Job)
  | .reschedule jobs => [(Context.empty, jobs)]
  | _ => []

/-- The wheel shows the timetable `r`, in which every source that is not in the batch is booked for its
next tick; the latest advance processed the next ticks of those that are. -/
structure Inv (n : ℕ) (start : TimePoint) (r : Timetable ℕ) (s : PollLoop Job) : Prop where
  shows : TimingWheel.Shows numTicks start s.pollScheduler r
  tickSize : r.tickSize = wheelTickSize
  stored : s.pollScheduler.stored + (s.ready : Multiset ℕ) = Multiset.range n
  pending : r.calendar.pending.map Prod.snd + (s.ready : Multiset ℕ) = Multiset.range n
  head : s.point = .head → s.ready = []
  waiting : ∀ e ∈ r.calendar.pending, e.1 = s.nextTick e.2
  passed : ∀ a ∈ s.advances, a.last ≤ r.calendar.now ∧ a.number < s.advances.length
  latest : ∀ a as, s.advances = a :: as → a.last = r.calendar.now ∧
    (∀ source ∈ s.ready, a.Processes (s.nextTick source)) ∧
    ∀ p ∈ s.polls, p.advance = a → p.source ∉ s.ready
  advances : s.advances.Pairwise fun a b => b.last ≤ a.first
  made : ∀ p ∈ s.polls, p.advance ∈ s.advances ∧ p.source < n
  once : s.polls.Pairwise fun p q => p.advance = q.advance → p.source ≠ q.source
  chain : ∀ source, (s.pollsOf source).IsChain fun q p => q.advance.Processes p.nextTick
  queued : s.queued = s.point.queued ++ s.polls.map fun p => (Context.empty, p.jobs)

variable {n : ℕ} {start : TimePoint} {r : Timetable ℕ} {s s' : PollLoop Job}

/-- All sources are booked for the tick 0. -/
theorem scheduleAll_shows {w : TimingWheel ℕ} (h : TimingWheel.Shows numTicks start w r)
    (htick : r.tickSize = wheelTickSize) (hnow : r.calendar.now = 0) (sources : List ℕ) :
    ∃ r' : Timetable ℕ, TimingWheel.Shows numTicks start (scheduleAll w sources) r' ∧
      r'.tickSize = wheelTickSize ∧
      r'.calendar.pending = r.calendar.pending + (sources : Multiset ℕ).map (fun source => (0, source)) ∧
      (scheduleAll w sources).stored = w.stored + (sources : Multiset ℕ) := by
  induction sources generalizing w r with
  | nil => exact ⟨r, h, htick, (add_zero _).symm, (add_zero _).symm⟩
  | cons source sources ih =>
    have hnonneg : 0 ≤ (0 : Milliseconds).toInt := by decide
    have hnext := h.schedule hnonneg (by rw [htick]; decide) source
    obtain ⟨r', h', htick', hpending, hstored⟩ := ih hnext htick hnow
    have htarget : r.calendar.now + (ticksIn r.tickSize 0).toNat = 0 := by
      rw [htick, hnow]; decide
    refine ⟨r', h', htick', ?_, ?_⟩
    · rw [hpending, Timetable.schedule, htarget, Calendar.pending_book (by rw [hnow]), add_assoc]
      rfl
    · show (scheduleAll (w.schedule 0 source) sources).stored = _
      rw [hstored, TimingWheel.stored_schedule, add_assoc]
      rfl

theorem Init.inv (h : Init n s) : ∃ start r, s.Inv n start r := by
  obtain ⟨start, rfl⟩ := h
  have hcreate : TimingWheel.Shows numTicks start
      (.create wheelTickSize start numTicks : TimingWheel ℕ) (.create wheelTickSize start) :=
    .create (by decide)
  obtain ⟨r, hshows, htick, hpending, hstored⟩ := scheduleAll_shows hcreate rfl rfl (List.range n)
  have hpending : r.calendar.pending = (Multiset.range n).map fun source => (0, source) :=
    hpending.trans (zero_add _)
  rw [TimingWheel.stored_create, zero_add] at hstored
  refine ⟨start, r, hshows, htick, ?_, ?_, fun _ => rfl, ?_, nofun, nofun, .nil, nofun, .nil,
    fun _ => .nil, rfl⟩
  · exact (add_zero _).trans hstored
  · rw [hpending, Multiset.map_map]
    exact (add_zero _).trans (Multiset.map_id' _)
  · intro e he
    rw [hpending] at he
    obtain ⟨source, -, rfl⟩ := Multiset.mem_map.1 he
    rfl

namespace Inv

theorem queued_at (h : s.Inv n start r) {point : Point Job} (hpoint : s.point = point) :
    s.queued = point.queued ++ s.polls.map fun p => (Context.empty, p.jobs) :=
  hpoint ▸ h.queued

/-- The advance moves the sources that are due from the wheel into the batch. -/
theorem advance (h : s.Inv n start r) (now : TimePoint) (hpoint : s.point = .head) :
    Inv n start (r.advance now).1 { s with
      pollScheduler := (s.pollScheduler.advance now).1
      ready := (s.pollScheduler.advance now).2
      point := .next
      advances := ⟨s.advances.length, s.pollScheduler.currentWheelIndex,
        (s.pollScheduler.advance now).1.currentWheelIndex⟩ :: s.advances } := by
  obtain ⟨hout, hshows⟩ := h.shows.advance now
  obtain ⟨-, hflow⟩ := r.advance_flow now h.shows.clocked.tick_pos
  have hready := h.head hpoint
  have hfirst := h.shows.index
  have hlast := hshows.index
  have hpending := h.pending
  have hstored := h.stored
  rw [hready] at hpending hstored
  have hdue : (∀ e ∈ (r.advance now).1.calendar.pending, e ∈ r.calendar.pending) ∧
      r.calendar.now ≤ (r.advance now).1.calendar.now ∧
      ∀ source ∈ (r.advance now).2, ∃ t, (t, source) ∈ r.calendar.pending ∧ r.calendar.now ≤ t ∧
        t < (r.advance now).1.calendar.now := by
    rcases r.advance_cases now h.shows.clocked.tick_pos with heq | ⟨k, -, heq⟩ <;> rw [heq]
    · exact ⟨fun _ => id, le_rfl, nofun⟩
    · refine ⟨fun e he => ?_, Nat.le_add_right .., fun source hs => ?_⟩
      · rw [Calendar.pending_skip] at he
        exact (Multiset.mem_filter.1 he).1
      · obtain ⟨t, hmem, hle, hlt⟩ := Calendar.mem_handOver.1 hs
        exact ⟨t, Multiset.mem_filter.2 ⟨Multiset.mem_coe.2 hmem, hle⟩, hle, hlt⟩
  obtain ⟨hsub, hle, hdue⟩ := hdue
  refine ⟨hshows, (r.tickSize_step (.advance now)).trans h.tickSize, ?_, ?_, nofun, ?_, ?_, ?_, ?_, ?_,
    h.once, h.chain, ?_⟩
  · rw [s.pollScheduler.stored_advance now]
    exact (add_zero _).symm.trans hstored
  · rw [hout, add_comm, hflow]
    exact (add_zero _).symm.trans hpending
  · exact fun e he => h.waiting e (hsub e he)
  · intro a ha
    rcases List.mem_cons.1 ha with rfl | ha
    · exact ⟨hlast.le, Nat.lt_succ_self _⟩
    · exact ⟨(h.passed a ha).1.trans hle, (h.passed a ha).2.trans (Nat.lt_succ_self _)⟩
  · intro a as heq
    cases heq
    refine ⟨hlast, fun source hs => ?_, fun p hp heq => ?_⟩
    · rw [hout] at hs
      obtain ⟨t, hmem, hfrom, hto⟩ := hdue source hs
      have hnext : t = s.nextTick source := h.waiting _ hmem
      show s.pollScheduler.currentWheelIndex ≤ s.nextTick source ∧ s.nextTick source < _
      rw [hfirst, hlast, ← hnext]
      exact ⟨hfrom, hto⟩
    · have hlt := (h.passed _ (h.made p hp).1).2
      rw [heq] at hlt
      exact absurd hlt (lt_irrefl _)
  · refine List.pairwise_cons.2 ⟨fun a ha => ?_, h.advances⟩
    rw [hfirst]
    exact (h.passed a ha).1
  · exact fun p hp => ⟨List.mem_cons_of_mem _ (h.made p hp).1, (h.made p hp).2⟩
  · exact (h.queued_at hpoint :)

/-- The source is in the batch once, and not in the wheel. -/
theorem ready_nodup (h : s.Inv n start r) {source : ℕ} {rest : List ℕ} (hr : s.ready = source :: rest) :
    source ∉ rest ∧ ∀ e ∈ r.calendar.pending, e.2 ≠ source := by
  have hnodup : (r.calendar.pending.map Prod.snd + ((source :: rest : List ℕ) : Multiset ℕ)).Nodup := by
    rw [← hr, h.pending]
    exact Multiset.nodup_range n
  obtain ⟨-, hrest, hdisj⟩ := Multiset.nodup_add.1 hnodup
  refine ⟨(List.nodup_cons.1 (Multiset.coe_nodup.1 hrest)).1, ?_⟩
  rintro e he rfl
  exact Multiset.disjoint_left.1 hdisj (Multiset.mem_map_of_mem _ he) (Multiset.mem_coe.2 (List.mem_cons_self ..))

theorem pollsOf_cons {p : Poll Job} {source : ℕ} : pollsOf { s with polls := p :: s.polls } source =
    if p.source = source then p :: s.pollsOf source else s.pollsOf source := by
  unfold pollsOf
  rw [List.filter_cons]
  exact if_congr decide_eq_true_iff rfl rfl

/-- The end of a round moves its source from the batch back into the wheel. -/
theorem reschedule (h : s.Inv n start r) {jobs : List Job} {source : ℕ} {rest : List ℕ}
    {advance : Advance} {advances : List Advance} {frequency : Milliseconds}
    (hpoint : s.point = .reschedule jobs) (hr : s.ready = source :: rest)
    (ha : s.advances = advance :: advances) (h0 : 0 ≤ frequency.toInt)
    (hlt : frequency.toInt < 60000) :
    Inv n start (r.schedule frequency source) { s with
      pollScheduler := s.pollScheduler.schedule frequency source
      ready := rest
      point := .next
      polls := ⟨source, advance, jobs, frequency⟩ :: s.polls } := by
  obtain ⟨hrest, hwheel⟩ := h.ready_nodup hr
  obtain ⟨hlast, hprocesses, hpolled⟩ := h.latest _ _ ha
  have hticks : ticksIn r.tickSize frequency < (numTicks : ℕ) := by
    rw [h.tickSize]
    show frequency.toInt.tdiv 10 < 6000
    rw [Int.tdiv_eq_ediv_of_nonneg h0]
    omega
  set p : Poll Job := ⟨source, advance, jobs, frequency⟩ with hp
  set s' : PollLoop Job := { s with
      pollScheduler := s.pollScheduler.schedule frequency source
      ready := rest
      point := .next
      polls := p :: s.polls } with hs'
  have hself : s'.nextTick source = r.calendar.now + (ticksIn r.tickSize frequency).toNat := by
    have hpolls : s'.pollsOf source = p :: s.pollsOf source := pollsOf_cons.trans (if_pos rfl)
    rw [nextTick, hpolls, h.tickSize, ← hlast]
    rfl
  have hother : ∀ source' ≠ source, s'.nextTick source' = s.nextTick source' := by
    intro source' hne
    have hpolls : s'.pollsOf source' = s.pollsOf source' := pollsOf_cons.trans (if_neg hne.symm)
    rw [nextTick, hpolls, nextTick]
  have hbooked : (r.schedule frequency source).calendar.pending =
      r.calendar.pending + {(s'.nextTick source, source)} := by
    rw [hself]
    exact Calendar.pending_book (Nat.le_add_right ..)
  refine ⟨h.shows.schedule h0 hticks source, h.tickSize, ?_, ?_, nofun, ?_, h.passed, ?_, h.advances,
    ?_, ?_, fun source' => ?_, ?_⟩
  · show (s.pollScheduler.schedule frequency source).stored + _ = _
    rw [TimingWheel.stored_schedule, add_assoc, ← h.stored, hr]
    rfl
  · rw [hbooked, Multiset.map_add, add_assoc, ← h.pending, hr]
    rfl
  · intro e he
    rw [hbooked] at he
    rcases Multiset.mem_add.1 he with he | he
    · rw [h.waiting e he, hother _ (hwheel e he)]
    · rw [Multiset.mem_singleton.1 he]
  · intro a as heq
    rw [show s'.advances = advance :: advances from ha] at heq
    cases heq
    refine ⟨hlast, fun source' hs => ?_, fun q hq heq => ?_⟩
    · rw [hother source' fun heq => hrest (heq ▸ hs)]
      exact hprocesses source' (by rw [hr]; exact List.mem_cons_of_mem _ hs)
    · rcases List.mem_cons.1 hq with rfl | hq
      · exact hrest
      · exact fun hmem => hpolled q hq heq (by rw [hr]; exact List.mem_cons_of_mem _ hmem)
  · intro q hq
    rcases List.mem_cons.1 hq with rfl | hq
    · have hmem : source ∈ Multiset.range n := by
        rw [← h.pending, hr]
        exact Multiset.mem_add.2 (.inr (Multiset.mem_coe.2 (List.mem_cons_self ..)))
      refine ⟨?_, Multiset.mem_range.1 hmem⟩
      show advance ∈ s.advances
      rw [ha]
      exact List.mem_cons_self ..
    · exact h.made q hq
  · refine List.pairwise_cons.2 ⟨fun q hq heq hsource => ?_, h.once⟩
    refine hpolled q hq heq.symm ?_
    rw [hr, ← hsource]
    exact List.mem_cons_self ..
  · show (pollsOf { s with polls := p :: s.polls } source').IsChain _
    rw [pollsOf_cons]
    split
    · next heq =>
      refine List.isChain_cons.2 ⟨fun q hq => ?_, h.chain source'⟩
      have hnext : s.nextTick source' = q.nextTick := by rw [nextTick, hq]; rfl
      rw [← hnext, ← heq]
      exact hprocesses source (by rw [hr]; exact List.mem_cons_self ..)
    · exact h.chain source'
  · exact (h.queued_at hpoint :)

/-- The loop goes on to another point, having queued what is to be queued before it. -/
theorem goto (h : s.Inv n start r) {point : Point Job} {queued : List (Context × List Job)}
    (hhead : point = .head → s.ready = [])
    (hqueued : queued = point.queued ++ s.polls.map fun p => (Context.empty, p.jobs)) :
    Inv n start r { s with point := point, queued := queued } :=
  ⟨h.shows, h.tickSize, h.stored, h.pending, hhead, h.waiting, h.passed, h.latest, h.advances, h.made,
    h.once, h.chain, hqueued⟩

theorem step (h : s.Inv n start r) (hs : Step s s') : ∃ r', s'.Inv n start r' := by
  cases hs with
  | advance now hpoint => exact ⟨_, h.advance now hpoint⟩
  | poll jobs hpoint hr => exact ⟨r, h.goto nofun (h.queued_at hpoint :)⟩
  | queue hpoint => exact ⟨r, h.goto nofun (congrArg _ (h.queued_at hpoint))⟩
  | reschedule frequency hpoint hr ha h0 hlt => exact ⟨_, h.reschedule hpoint hr ha h0 hlt⟩
  | done hpoint hr => exact ⟨r, h.goto (fun _ => hr) (h.queued_at hpoint :)⟩

/-- No tick is processed twice. -/
theorem advance_unique (h : s.Inv n start r) {a b : Advance} (ha : a ∈ s.advances)
    (hb : b ∈ s.advances) {tick : ℕ} (hat : a.Processes tick) (hbt : b.Processes tick) : a = b := by
  by_contra hne
  have hsymm : Std.Symm fun a b : Advance => ¬ (a.Processes tick ∧ b.Processes tick) :=
    ⟨fun _ _ hab hba => hab hba.symm⟩
  have hdisj : s.advances.Pairwise fun a b => ¬ (a.Processes tick ∧ b.Processes tick) :=
    h.advances.imp fun hle hab => absurd (hab.2.2.trans_le (hle.trans hab.1.1)) (lt_irrefl _)
  exact hdisj.forall ha hb hne ⟨hat, hbt⟩

end Inv

/-- At the head of an iteration no tick has passed for which a source is scheduled. -/
theorem Inv.le_nextTick (h : s.Inv n start r) (hhead : s.point = .head) {source : ℕ}
    (hsource : source < n) : r.calendar.now ≤ s.nextTick source := by
  have hpending := h.pending
  rw [h.head hhead] at hpending
  have hmem : source ∈ r.calendar.pending.map Prod.snd := by
    rw [show r.calendar.pending.map Prod.snd = _ from (add_zero _).symm.trans hpending]
    exact Multiset.mem_range.2 hsource
  obtain ⟨⟨t, _⟩, he, rfl⟩ := Multiset.mem_map.1 hmem
  rw [← show t = _ from h.waiting _ he]
  exact (Multiset.mem_filter.1 he).2

theorem inv_of_reach (h : Reach (Init n) Step s) : ∃ start r, s.Inv n start r :=
  Inductive.reach (P := fun s : PollLoop Job => ∃ start r, s.Inv n start r)
    ⟨fun _ h => h.inv, fun _ _ ⟨start, _, h⟩ hs => ⟨start, h.step hs⟩⟩ h

/-- At the head of every iteration each source is in the wheel once; no advance has polled a source
twice; a source that has been polled was next polled by the advance that processed the tick which its
poll asked for, and when it has not been polled again there has been no such advance; and the jobs of
each poll have been queued once, under the empty context. All frequencies are at least 0 and below a
minute. -/
theorem run_keeps_sources (n : ℕ) (run : Run (Init n : PollLoop Job → Prop) Step) (k : ℕ)
    (hhead : (run.state k).point = .head) :
    (run.state k).pollScheduler.stored = Multiset.range n ∧
    ((run.state k).polls.Pairwise fun p q => p.advance = q.advance → p.source ≠ q.source) ∧
    (∀ p ∈ (run.state k).polls, p.advance ∈ (run.state k).advances) ∧
    (∀ source, ((run.state k).pollsOf source).IsChain fun q p =>
      ∀ a ∈ (run.state k).advances, a.Processes p.nextTick ↔ a = q.advance) ∧
    (∀ source, ∀ p ∈ ((run.state k).pollsOf source).head?,
      ∀ a ∈ (run.state k).advances, ¬ a.Processes p.nextTick) ∧
    (run.state k).queued = (run.state k).polls.map fun p => (Context.empty, p.jobs) := by
  obtain ⟨start, r, h⟩ := inv_of_reach (run.reach k)
  generalize run.state k = s at h hhead ⊢
  have hready := h.head hhead
  refine ⟨?_, h.once, fun p hp => (h.made p hp).1, fun source => ?_, fun source p hp a ha hat => ?_, ?_⟩
  · have hstored := h.stored
    rw [hready] at hstored
    exact (add_zero _).symm.trans hstored
  · refine List.IsChain.imp_of_mem_imp (fun q p hq hp hnext a ha => ⟨fun hat => ?_, ?_⟩) (h.chain source)
    · exact h.advance_unique ha (h.made q (List.mem_filter.1 hq).1).1 hat hnext
    · rintro rfl; exact hnext
  · have hmem := List.mem_of_mem_head? hp
    obtain ⟨hmade, hsource⟩ := List.mem_filter.1 hmem
    have hnext : s.nextTick source = p.nextTick := by rw [nextTick, hp]; rfl
    have hle := h.le_nextTick hhead (of_decide_eq_true hsource ▸ (h.made p hmade).2)
    rw [hnext] at hle
    exact absurd (hat.2.trans_le ((h.passed a ha).1.trans hle)) (lt_irrefl _)
  · exact (h.queued_at hhead :)

/-- One source, polled by the advance at 10 ms and scheduled again for 20 ms later. -/
theorem reach_polled : ∃ s : PollLoop ℕ, Reach (Init 1) Step s ∧ s.point = .head ∧
    s.polls = [⟨0, ⟨0, 0, 1⟩, [7], 20⟩] := by
  have h₀ : Reach (Init 1) Step (⟨_, _, _, _, _, _⟩ : PollLoop ℕ) := .start ⟨0, rfl⟩
  have h₁ := h₀.next (.advance 10000000 rfl)
  have h₂ := h₁.next (@Step.poll _ _ 0 [] [7] rfl rfl)
  have h₃ := h₂.next (.queue rfl)
  have h₄ := h₃.next (@Step.reschedule _ _ [7] 0 [] ⟨0, 0, 1⟩ [] 20 rfl rfl rfl (by decide) (by decide))
  exact ⟨_, h₄.next (.done rfl rfl), rfl, rfl⟩

theorem run_keeps_sources_one : ∃ (run : Run (Init 1 : PollLoop ℕ → Prop) Step) (k : ℕ),
    (run.state k).polls = [⟨0, ⟨0, 0, 1⟩, [7], 20⟩] ∧
      (run.state k).pollScheduler.stored = Multiset.range 1 ∧
      (run.state k).queued = [(Context.empty, [7])] := by
  obtain ⟨s, hs, hhead, hpolls⟩ := reach_polled
  obtain ⟨run, k, rfl⟩ := Run.exists_state hs
  obtain ⟨hstored, -, -, -, -, hqueued⟩ := run_keeps_sources 1 run k hhead
  exact ⟨run, k, hpolls, hstored, by rw [hqueued, hpolls]; rfl⟩

end PollLoop
end AsyncEry.Scheduler
