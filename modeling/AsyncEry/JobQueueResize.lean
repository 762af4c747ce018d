import AsyncEry.JobQueue

/-!
# `resize`, iteration by iteration

From any two indices inside the ring, the loop goes from the head to the tail once, counting past the
old capacity. Iteration `i` looks at the `i`-th job; a job whose place differs modulo the two capacities
moves behind the old end, where nothing is yet.
-/

namespace AsyncEry.JobQueue

variable {Job : Type} [Inhabited Job]

/-- What an iteration of the loop of `resize` works on. -/
structure Resizing (Job : Type) where
  queue : List Job
  entry : ℕ
  newTail : ℕ

/-- One iteration. -/
def Resizing.iteration (oldSize newSize : ℕ) (s : Resizing Job) : Resizing Job where
  queue :=
    if s.entry % oldSize ≠ s.entry % newSize then
      (s.queue.set (s.entry % newSize) (slot s.queue (s.entry % oldSize))).set (s.entry % oldSize) default
    else s.queue
  entry := s.entry + 1
  newTail := s.newTail + 1

/-- The queue doubled, and `entry` and `new_tail` at the head. -/
def Resizing.start (q : JobQueue Job) : Resizing Job where
  queue := q.queue ++ List.replicate (q.queue.length * 2 - q.queue.length) default
  entry := q.head
  newTail := q.head

/-- Before iteration `i` of `n`, on a ring of capacity `c` with slots `f`: a job waits in its old slot
until its iteration and is in its new one from then on, and this iteration moves nothing onto a job. -/
structure Resizing.Safe (f : ℕ → Job) (c head n i : ℕ) (s : Resizing Job) : Prop where
  entry_eq : s.entry = head + i
  newTail_eq : s.newTail = head + i
  length_eq : s.queue.length = c * 2
  entry_lt : s.entry < c * 2
  waiting : ∀ j, i ≤ j → j < n → slot s.queue ((head + j) % c) = f ((head + j) % c)
  moved : ∀ j, j < i → slot s.queue ((head + j) % (c * 2)) = f ((head + j) % c)
  unused : s.entry % c ≠ s.entry % (c * 2) → ∀ j, i ≤ j → j < n → (head + j) % c ≠ s.entry % (c * 2)
  fresh : ∀ j, j < i → (head + j) % (c * 2) ≠ s.entry % (c * 2)

variable {q : JobQueue Job} {f : ℕ → Job} {c head n i : ℕ} {s : Resizing Job}

/-- The loop ends after the first `n` iterations at which the exit test succeeds. -/
theorem resizeLoop_eq_iterate {oldSize newSize tail fuel : ℕ} (hf : n < fuel)
    (hgo : ∀ i, i < n → ((Resizing.iteration oldSize newSize)^[i] s).entry % oldSize ≠ tail)
    (hend : ((Resizing.iteration oldSize newSize)^[n] s).entry % oldSize = tail) :
    resizeLoop oldSize newSize tail fuel s.queue s.entry s.newTail =
      some (((Resizing.iteration oldSize newSize)^[n] s).queue,
        ((Resizing.iteration oldSize newSize)^[n] s).newTail) := by
  induction n generalizing fuel s with
  | zero =>
    obtain ⟨fuel, rfl⟩ := Nat.exists_eq_succ_of_ne_zero hf.ne'
    exact if_pos hend
  | succ n ih =>
    obtain ⟨fuel, rfl⟩ := Nat.exists_eq_succ_of_ne_zero (Nat.ne_zero_of_lt hf)
    have hne : s.entry % oldSize ≠ tail := hgo 0 (Nat.succ_pos n)
    rw [resizeLoop, if_neg hne]
    exact ih (s := s.iteration oldSize newSize) (Nat.lt_of_succ_lt_succ hf)
      (fun i hi => hgo (i + 1) (Nat.succ_lt_succ hi)) hend

theorem iterate_entry (oldSize newSize i : ℕ) :
    ((Resizing.iteration oldSize newSize)^[i] s).entry = s.entry + i ∧
      ((Resizing.iteration oldSize newSize)^[i] s).newTail = s.newTail + i := by
  induction i with
  | zero => exact ⟨rfl, rfl⟩
  | succ i ih =>
    rw [Function.iterate_succ_apply']
    exact ⟨congrArg (· + 1) ih.1, congrArg (· + 1) ih.2⟩

theorem iterate_moved (hh : head < c) (hn : n < c) (hs : s.entry = head)
    (h : Moved f c head n 0 s.queue) (hi : i ≤ n) :
    Moved f c head n i ((Resizing.iteration c (c * 2))^[i] s).queue := by
  induction i with
  | zero => exact h
  | succ i ih =>
    have hentry := (iterate_entry (s := s) c (c * 2) i).1
    have hstep := (ih (Nat.le_of_succ_le hi)).step hh hi hn
    rw [hs] at hentry
    rw [← hentry] at hstep
    rw [Function.iterate_succ_apply']
    exact hstep

/-- What the invariant of the loop says about each job. -/
theorem Moved.safe (hh : head < c) (hn : n < c) (hi : i ≤ n) (hentry : s.entry = head + i)
    (htail : s.newTail = head + i) (h : Moved f c head n i s.queue) : s.Safe f c head n i := by
  have hsmall : ∀ j, j ≤ n → (head + j) % (c * 2) = head + j := fun j hj => Nat.mod_eq_of_lt (by omega)
  refine ⟨hentry, htail, h.length_eq, by omega, fun j hij hj => ?_, fun j hj => ?_, fun hmove j hij hj => ?_,
    fun j hj => ?_⟩
  · rw [Ring.mod_eq_ite hh (by omega)]
    split
    · exact h.low _ (by omega) ‹_›
    · exact h.waiting _ (by omega) (by omega)
  · rw [hsmall j (by omega), Ring.mod_eq_ite hh (by omega)]
    split
    · exact h.low _ (by omega) ‹_›
    · rw [← h.moved _ (by omega)]
      congr 1
      omega
  · -- what moves goes behind the old end
    rw [hentry, hsmall i hi, Ring.mod_eq_ite hh (by omega)] at hmove
    rw [hentry, hsmall i hi]
    have hlt := Nat.mod_lt (head + j) (by omega : 0 < c)
    split at hmove <;> omega
  · rw [hentry, hsmall i hi, hsmall j (by omega)]
    omega

/-- Whatever the layout, `resize` ends after as many iterations as there are jobs, each of which is
safe, and keeps the jobs that are read from the head to the tail. -/
theorem resize_any_layout (q : JobQueue Job) (hh : q.head < q.queue.length)
    (ht : q.tail < q.queue.length) :
    let c := q.queue.length
    let n := (((q.tail : ℤ) - q.head) % c).toNat
    let loop := fun i => (Resizing.iteration c (c * 2))^[i] (.start q)
    (∀ i, i < n → (loop i).entry % c ≠ q.tail ∧ (loop i).Safe (slot q.queue) c q.head n i) ∧
      (loop n).entry % c = q.tail ∧
      ∃ q', q.resize = some q' ∧ q'.queue = (loop n).queue ∧ q'.tail = (loop n).newTail ∧
        q'.queue.length = c * 2 ∧ q'.head = q.head ∧ q'.tail < c * 2 ∧ q'.currentSize = q.currentSize ∧
        q'.contents = q.contents := by
  intro c n loop
  have hl : q.Layout := ⟨hh, ht⟩
  have hn : n = q.stored := by
    show Int.toNat _ = _
    rw [← Ring.dist_eq_emod hh ht]
    rfl
  have hlt : n < c := hn ▸ hl.stored_lt
  have hentry : ∀ i, (loop i).entry = q.head + i ∧ (loop i).newTail = q.head + i :=
    fun i => iterate_entry c (c * 2) i
  have hmoved : ∀ i, i ≤ n → Moved (slot q.queue) c q.head n i (loop i).queue := fun i hi =>
    iterate_moved hh hlt rfl (hn ▸ hl.moved_zero) hi
  have hend : (loop n).entry % c = q.tail := by
    rw [(hentry n).1, hn]
    exact hl.tail_eq
  have hgo : ∀ i, i < n → (loop i).entry % c ≠ q.tail := fun i hi => by
    rw [← hend, (hentry i).1, (hentry n).1, Ne, Ring.add_mod_inj hh (by omega) hlt]
    exact hi.ne
  refine ⟨fun i hi => ⟨hgo i hi, (hmoved i hi.le).safe hh hlt hi.le (hentry i).1 (hentry i).2⟩, hend, ?_⟩
  obtain ⟨q', hq', -, hlen, hhead, hsize, -, hcontents⟩ := hl.resize
  have hfuel : n < c + 1 := by omega
  have hloop := resizeLoop_eq_iterate hfuel hgo hend
  have htail : q.head + n < c * 2 := by omega
  have hresult : q.resize = some ⟨(loop n).queue, q.head, (loop n).newTail, q.currentSize⟩ := by
    rw [JobQueue.resize]
    refine (congrArg (Option.map _) hloop).trans ?_
    have hmod : (loop n).newTail % (c * 2) = (loop n).newTail := by
      rw [(hentry n).2, Nat.mod_eq_of_lt htail]
    show some (JobQueue.mk (loop n).queue q.head ((loop n).newTail % (c * 2)) q.currentSize) = _
    rw [hmod]
  obtain rfl := Option.some.inj (hq'.symm.trans hresult)
  refine ⟨_, hresult, rfl, rfl, hlen, rfl, ?_, rfl, hcontents⟩
  show (loop n).newTail < c * 2
  rw [(hentry n).2]
  exact htail

/-- Three jobs of a full ring of four slots, the last of them wrapped. -/
theorem resize_any_layout_wrapped :
    ∃ q', (⟨[9, 0, 7, 8], 2, 1, 3⟩ : JobQueue ℕ).resize = some q' ∧
      q'.contents = (⟨[9, 0, 7, 8], 2, 1, 3⟩ : JobQueue ℕ).contents := by
  obtain ⟨-, -, q', hq', -, -, -, -, -, -, hcontents⟩ :=
    resize_any_layout (⟨[9, 0, 7, 8], 2, 1, 3⟩ : JobQueue ℕ) (by decide) (by decide)
  exact ⟨q', hq', hcontents⟩

end AsyncEry.JobQueue
