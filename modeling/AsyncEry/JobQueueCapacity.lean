import AsyncEry.JobQueueGuarded

/-!
# How large the queue gets

`enqueue` doubles the ring when it has one free slot left, and nothing makes it smaller again. So its
capacity is the first of `baseSize`, `2 * baseSize`, `4 * baseSize` and so on that none of the lengths
the queue has had so far has filled up.
-/

namespace AsyncEry.JobQueue
open Lts

variable {Job : Type}

/-- `queue.size()` -/
def capacity (q : JobQueue Job) : ℕ := q.queue.length

section
variable {q q' : JobQueue Job}

theorem Layout.stored_of_isFull (h : q.Layout) (hfull : q.isFull = true) : q.stored + 1 = q.capacity := by
  have hlt := h.stored_lt
  have hnext : (q.tail + 1) % q.queue.length = q.head := by simpa [isFull] using hfull
  rw [← h.tail_eq, Nat.mod_add_mod, add_assoc] at hnext
  by_contra hne
  have hroom : q.stored + 1 < q.queue.length := lt_of_le_of_ne hlt hne
  have hzero : (q.head + (q.stored + 1)) % q.queue.length = (q.head + 0) % q.queue.length := by
    rw [hnext, add_zero, Nat.mod_eq_of_lt h.head_lt]
  have := (Ring.add_mod_inj h.head_lt hroom (by omega)).1 hzero
  omega

variable [Inhabited Job]

theorem Layout.capacity_reserve (h : q.Layout) (hq : q.reserve = some q') :
    q'.capacity = q.capacity ∨ q'.capacity = q.capacity * 2 ∧ q.stored + 1 = q.capacity := by
  by_cases hfull : q.isFull = true
  · obtain ⟨q₁, hq₁, -, hlength, -⟩ := h.resize
    rw [JobQueue.reserve, if_pos hfull, hq₁] at hq
    cases hq
    exact .inr ⟨hlength, h.stored_of_isFull hfull⟩
  · rw [JobQueue.reserve, if_neg hfull] at hq
    cases hq
    exact .inl rfl

theorem capacity_init (baseSize : ℕ) : (init baseSize : JobQueue Job).capacity = baseSize :=
  List.length_replicate

end

/-- The ring grows when it is full up to a slot. -/
theorem Threads.Step.capacity {Tid : Type} [DecidableEq Tid] [Inhabited Job] {s s' : Threads Tid Job}
    (hs : Threads.Step s s') (h : s.Inv) :
    s'.q.capacity = s.q.capacity ∨
      s'.q.capacity = s.q.capacity * 2 ∧ s.q.stored + 1 = s.q.capacity := by
  cases hs with
  | enqReserve hp hq => exact (h.good_at hp trivial).layout.capacity_reserve hq
  | enqStore | deqTake => exact .inl (List.length_set ..)
  | _ => exact .inl rfl

namespace Guarded

variable {L Tid : Type} [DecidableEq Tid] [Inhabited Job] {K : Lock Tid L} {s s' : Guarded L Tid Job}
  {baseSize n : ℕ}

theorem Good.capacity (h : s.Good K) (hs : Step K s s') :
    s'.q.capacity = s.q.capacity ∨
      s'.q.capacity = s.q.capacity * 2 ∧ s.q.stored + 1 = s.q.capacity := by
  obtain ⟨-, heq | hstep⟩ := hs.view h.matched
  · exact .inl (congrArg (fun u : Threads Tid Job => u.q.capacity) heq)
  · exact hstep.capacity h.inv

theorem capacity_le_of_run (hb : 0 < baseSize)
    (r : Run (Init K baseSize : Guarded L Tid Job → Prop) (Step K)) {i j : ℕ} (hij : i ≤ j) :
    (r.state i).q.capacity ≤ (r.state j).q.capacity := by
  refine r.stable (P := fun s => (r.state i).q.capacity ≤ s.q.capacity)
    (fun s s' hr hs h => h.trans ?_) hij le_rfl
  rcases (good_of_reach hb hr).capacity hs with heq | ⟨heq, -⟩
  · exact heq.ge
  · rw [heq]
    omega

/-- In the step from moment `i` the capacity doubles from `c`, since the jobs fill all slots but one. -/
structure DoublesAt (r : Run (Init K baseSize : Guarded L Tid Job → Prop) (Step K)) (c i : ℕ) : Prop where
  before : (r.state i).q.capacity = c
  after : (r.state (i + 1)).q.capacity = c * 2
  full : (r.state i).q.contents.length + 1 = c

/-- What the capacity is now comes from the doublings so far. -/
theorem exists_doublings (hb : 0 < baseSize)
    (r : Run (Init K baseSize : Guarded L Tid Job → Prop) (Step K)) (n : ℕ) :
    ∃ k, (r.state n).q.capacity = baseSize * 2 ^ k ∧
      ∀ j < k, ∃ i < n, DoublesAt r (baseSize * 2 ^ j) i := by
  induction n with
  | zero =>
    obtain ⟨l, -, hinit⟩ := r.starts
    refine ⟨0, ?_, nofun⟩
    rw [hinit, pow_zero, mul_one]
    exact capacity_init baseSize
  | succ n ih =>
    obtain ⟨k, hk, hgrown⟩ := ih
    have hgrown' : ∀ j < k, ∃ i < n + 1, DoublesAt r (baseSize * 2 ^ j) i := by
      intro j hj
      obtain ⟨i, hi, hdoubles⟩ := hgrown j hj
      exact ⟨i, hi.trans n.lt_succ_self, hdoubles⟩
    rcases r.steps n with heq | hs
    · exact ⟨k, by rw [heq, hk], hgrown'⟩
    · rcases (good_of_reach hb (r.reach n)).capacity hs with heq | ⟨heq, hfull⟩
      · exact ⟨k, by rw [heq, hk], hgrown'⟩
      · refine ⟨k + 1, by rw [heq, hk, pow_succ, mul_assoc], fun j hj => ?_⟩
        rcases Nat.lt_succ_iff_lt_or_eq.1 hj with hj | rfl
        · exact hgrown' j hj
        · refine ⟨n, n.lt_succ_self, hk, by rw [heq, hk], ?_⟩
          rw [contents_length, hfull, hk]

end Guarded

namespace SpinQueue
open Guarded

variable {Tid : Type} [DecidableEq Tid] [Inhabited Job]

/-- Whatever the threads do: the capacity is `baseSize` doubled some times, it is larger than every length
the queue has had so far, and each doubling was made in a step that found all slots but one filled. -/
theorem run_capacity (baseSize : ℕ) (hb : 0 < baseSize)
    (r : Run (Init SpinLock.guard baseSize : SpinQueue Tid Job → Prop) (Step SpinLock.guard)) (n : ℕ) :
    ∃ k, (r.state n).q.capacity = baseSize * 2 ^ k ∧
      (∀ i ≤ n, (r.state i).q.contents.length < (r.state n).q.capacity) ∧
      ∀ j < k, ∃ i < n, DoublesAt r (baseSize * 2 ^ j) i := by
  obtain ⟨k, hk, hgrown⟩ := exists_doublings hb r n
  refine ⟨k, hk, fun i hi => ?_, hgrown⟩
  rw [contents_length]
  exact (good_of_reach hb (r.reach i)).inv.good.layout.stored_lt.trans_le (capacity_le_of_run hb r hi)

/-- A ring of one slot is full without a job in it: the first `enqueue` doubles it, and the length has been
zero all the time. -/
theorem run_capacity_one : ∃ (r : Run (Init SpinLock.guard 1 : SpinQueue ℕ ℕ → Prop) (Step SpinLock.guard))
    (n : ℕ), (r.state n).q.capacity = 2 ∧ (∀ i ≤ n, (r.state i).q.contents.length < 2) ∧
      ∃ i < n, DoublesAt r 1 i := by
  have h₀ : Reach (Init SpinLock.guard 1 : SpinQueue ℕ ℕ → Prop) (Step SpinLock.guard) _ :=
    .start ⟨_, rfl, rfl⟩
  have h₁ := h₀.next ⟨0, .callEnqueue 7 rfl ⟨rfl, rfl⟩⟩
  have h₂ := h₁.next ⟨0, .wait rfl (.load rfl false (.head _))⟩
  have h₃ := h₂.next ⟨0, .enqLock rfl (.exchange rfl rfl)⟩
  have h₄ := h₃.next
    ⟨0, .enqReserve rfl (show JobQueue.reserve (.init 1) = some ⟨[0, 0], 0, 0, 0⟩ from rfl)⟩
  obtain ⟨r, n, hn⟩ := Run.exists_state h₄
  have hcapacity : (r.state n).q.capacity = 2 := by rw [hn]; rfl
  obtain ⟨k, hk, hlengths, hdoubles⟩ := run_capacity 1 (by decide) r n
  have hpos : 0 < k := by
    rcases Nat.eq_zero_or_pos k with rfl | hpos
    · rw [hcapacity] at hk
      cases hk
    · exact hpos
  exact ⟨r, n, hcapacity, fun i hi => by rw [← hcapacity]; exact hlengths i hi, hdoubles 0 hpos⟩

end SpinQueue
end AsyncEry.JobQueue
