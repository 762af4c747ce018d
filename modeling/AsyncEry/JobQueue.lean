import AsyncEry.Lib.Ring

/-!
# `JobQueue`: a growing ring buffer is a FIFO queue

The ring keeps one slot free, so `head = tail` means empty, and doubles when the free slot would be
used up. `JobQueue.Layout` is the part of the invariant that the two indices and the capacity keep
at every program point; `JobQueue.Inv` adds that `currentSize` counts the stored jobs, which holds
between operations. `contents` is the list of stored jobs, oldest first: `enqueue` appends to it,
`dequeue` takes its first element and `resize` leaves it alone.
-/

namespace AsyncEry

/-- `job_queue.h`. A slot that holds no job (default constructed, or moved from) holds the empty
function `default`; `currentSize` is the atomic counter that is read outside the lock. -/
structure JobQueue (Job : Type) where
  queue : List Job
  head : ℕ
  tail : ℕ
  currentSize : ℤ
deriving DecidableEq

namespace JobQueue

variable {Job : Type} [Inhabited Job]

/-- `JobQueue(base_size)`: the vector holds `base_size` default-constructed jobs. -/
def init (baseSize : ℕ) : JobQueue Job := ⟨List.replicate baseSize default, 0, 0, 0⟩

/-- `queue[i]`. -/
def slot (queue : List Job) (i : ℕ) : Job := queue.getD i default

/-- The loop of `resize`; `none` when the fuel runs out before the exit test succeeds. A moved-from
slot is left holding the empty function. -/
def resizeLoop (oldSize newSize tail : ℕ) : ℕ → List Job → ℕ → ℕ → Option (List Job × ℕ)
  | 0, _, _, _ => none
  | fuel + 1, queue, entry, newTail =>
    if entry % oldSize = tail then some (queue, newTail)
    else
      let queue :=
        if entry % oldSize ≠ entry % newSize then
          (queue.set (entry % newSize) (slot queue (entry % oldSize))).set (entry % oldSize) default
        else queue
      resizeLoop oldSize newSize tail fuel queue (entry + 1) (newTail + 1)

/-- `resize`: double the vector and move every wrapped job behind the old end. -/
def resize (q : JobQueue Job) : Option (JobQueue Job) :=
  let oldSize := q.queue.length
  let newSize := q.queue.length * 2
  let queue := q.queue ++ List.replicate (newSize - oldSize) default
  (resizeLoop oldSize newSize q.tail (oldSize + 1) queue q.head q.head).map fun (queue, newTail) =>
    { q with queue := queue, tail := newTail % newSize }

/-! `enqueue` and `dequeue` are split at the points where another thread can see the difference. -/

/-- `is_full`. -/
def isFull (q : JobQueue Job) : Bool := (q.tail + 1) % q.queue.length == q.head

/-- `if (is_full) { resize(); }`. -/
def reserve (q : JobQueue Job) : Option (JobQueue Job) := if q.isFull then q.resize else some q

/-- `queue[tail] = std::move(item); tail = (tail + 1) % queue.size();`. -/
def store (q : JobQueue Job) (item : Job) : JobQueue Job :=
  { q with queue := q.queue.set q.tail item, tail := (q.tail + 1) % q.queue.length }

/-- `current_size.fetch_add(1)`. -/
def countUp (q : JobQueue Job) : JobQueue Job := { q with currentSize := q.currentSize + 1 }

/-- `queue[head]` moved out, and `head = (head + 1) % queue.size();`. -/
def take (q : JobQueue Job) : JobQueue Job × Job :=
  ({ q with queue := q.queue.set q.head default, head := (q.head + 1) % q.queue.length },
    slot q.queue q.head)

/-- `current_size.fetch_sub(1)`. -/
def countDown (q : JobQueue Job) : JobQueue Job := { q with currentSize := q.currentSize - 1 }

def size (q : JobQueue Job) : ℤ := q.currentSize

/-- `enqueue`, run without interference; `none` would mean that `resize` does not end. -/
def enqueue (q : JobQueue Job) (item : Job) : Option (JobQueue Job) :=
  q.reserve.map fun q => (q.store item).countUp

/-- `dequeue`, run without interference. -/
def dequeue (q : JobQueue Job) : JobQueue Job × Option Job :=
  if q.size = 0 then (q, none)
  else if q.head = q.tail then (q, none)
  else (q.take.1.countDown, some q.take.2)

/-! ### Contents -/

section
variable {Job : Type}

/-- The number of stored jobs. -/
def stored (q : JobQueue Job) : ℕ := Ring.dist q.queue.length q.head q.tail

/-- Both indices lie in the ring. -/
structure Layout (q : JobQueue Job) : Prop where
  head_lt : q.head < q.queue.length
  tail_lt : q.tail < q.queue.length

/-- Between operations the counter also agrees with the ring. -/
structure Inv (q : JobQueue Job) : Prop extends q.Layout where
  currentSize_eq : q.currentSize = q.stored

variable {q : JobQueue Job}

namespace Layout

theorem stored_lt (h : q.Layout) : q.stored < q.queue.length := Ring.dist_lt h.head_lt h.tail_lt

theorem stored_eq_zero (h : q.Layout) : q.stored = 0 ↔ q.head = q.tail := Ring.dist_eq_zero h.head_lt

theorem tail_eq (h : q.Layout) : (q.head + q.stored) % q.queue.length = q.tail :=
  Ring.add_dist h.head_lt h.tail_lt

theorem countUp (h : q.Layout) : q.countUp.Layout := ⟨h.head_lt, h.tail_lt⟩

theorem countDown (h : q.Layout) : q.countDown.Layout := ⟨h.head_lt, h.tail_lt⟩

theorem store (h : q.Layout) (item : Job) : (q.store item).Layout where
  head_lt := by simpa [JobQueue.store] using h.head_lt
  tail_lt := by
    show (q.tail + 1) % q.queue.length < (q.queue.set q.tail item).length
    rw [List.length_set]; exact Ring.next_lt h.tail_lt

theorem store_stored (h : q.Layout) (hfull : q.isFull = false) (item : Job) :
    (q.store item).stored = q.stored + 1 := by
  have hne : Ring.next q.queue.length q.tail ≠ q.head := by
    intro he; simp [isFull, ← he, Ring.next] at hfull
  show Ring.dist (q.queue.set q.tail item).length q.head (Ring.next q.queue.length q.tail) = _
  rw [List.length_set]
  exact Ring.dist_next_tail h.head_lt h.tail_lt hne

end Layout
end

/-- The stored jobs, oldest first. -/
def contents (q : JobQueue Job) : List Job :=
  Ring.window (slot q.queue) q.queue.length q.head q.stored

variable {q : JobQueue Job}

@[simp] theorem countUp_contents : q.countUp.contents = q.contents := rfl

@[simp] theorem countDown_contents : q.countDown.contents = q.contents := rfl

@[simp] theorem contents_length : q.contents.length = q.stored := Ring.window_length

theorem slot_set {queue : List Job} {i : ℕ} (hi : i < queue.length) (x : Job) :
    slot (queue.set i x) = Function.update (slot queue) i x := by
  funext j
  by_cases hj : j = i
  · subst hj; simp [slot, List.getD, hi]
  · rw [Function.update_of_ne hj]
    simp [slot, List.getD, List.getElem?_set_ne (Ne.symm hj)]

theorem slot_append {queue : List Job} {i : ℕ} (hi : i < queue.length) (l : List Job) :
    slot (queue ++ l) i = slot queue i := by
  simp [slot, List.getD, List.getElem?_append_left hi]

namespace Layout

/-! ### `store` and `take` -/

theorem store_contents (h : q.Layout) (hfull : q.isFull = false) (item : Job) :
    (q.store item).contents = q.contents ++ [item] := by
  have hpush := Ring.window_push (f := slot q.queue) h.head_lt h.stored_lt item
  rw [h.tail_eq] at hpush
  rw [contents, h.store_stored hfull, contents, ← hpush, ← slot_set h.tail_lt]
  simp [JobQueue.store]

theorem take (h : q.Layout) : q.take.1.Layout where
  head_lt := by
    show (q.head + 1) % q.queue.length < (q.queue.set q.head default).length
    rw [List.length_set]; exact Ring.next_lt h.head_lt
  tail_lt := by simpa [JobQueue.take] using h.tail_lt

theorem take_stored (h : q.Layout) (hne : q.head ≠ q.tail) : q.stored = q.take.1.stored + 1 := by
  show _ = Ring.dist (q.queue.set q.head default).length (Ring.next q.queue.length q.head) q.tail + 1
  rw [List.length_set]
  exact Ring.dist_next_head h.head_lt h.tail_lt hne

theorem take_contents (h : q.Layout) (hne : q.head ≠ q.tail) :
    q.contents = q.take.2 :: q.take.1.contents := by
  have hst := h.take_stored hne
  have hlt := h.stored_lt
  rw [contents, hst, Ring.window_succ_first h.head_lt]
  congr 1
  have hlen : q.take.1.queue.length = q.queue.length := by simp [JobQueue.take]
  rw [contents, hlen]
  refine Ring.window_congr fun i hi => ?_
  -- the moved-from slot is `q.head`, which the rest of the window does not visit
  have hslot : slot q.take.1.queue = Function.update (slot q.queue) q.head default :=
    slot_set h.head_lt _
  rw [hslot, Function.update_of_ne]
  show (Ring.next q.queue.length q.head + i) % q.queue.length ≠ q.head
  rw [Ring.next_add]
  intro heq
  have h0 : (q.head + (i + 1)) % q.queue.length = (q.head + 0) % q.queue.length := by
    rw [heq, Nat.add_zero, Nat.mod_eq_of_lt h.head_lt]
  have := (Ring.add_mod_inj h.head_lt (by omega) (by omega)).1 h0
  omega

end Layout

/-! ### `resize` -/

/-- What the loop of `resize` has done when `entry = head + i`, for a ring of capacity `c` with
slots `f` and `n` stored jobs: the unwrapped jobs are where they were, the wrapped jobs before
`entry` have been moved behind the old end, and the other wrapped jobs still wait in front. -/
structure Moved (f : ℕ → Job) (c head n i : ℕ) (queue : List Job) : Prop where
  length_eq : queue.length = c * 2
  low : ∀ k, head ≤ k → k < c → slot queue k = f k
  moved : ∀ k, c + k < head + i → slot queue (c + k) = f k
  waiting : ∀ k, head + i ≤ c + k → c + k < head + n → slot queue k = f k

theorem Moved.step {f : ℕ → Job} {c head n i : ℕ} {queue : List Job} (hh : head < c) (hi : i < n)
    (hn : n < c) (h : Moved f c head n i queue) :
    Moved f c head n (i + 1)
      (if (head + i) % c ≠ (head + i) % (c * 2) then
        (queue.set ((head + i) % (c * 2)) (slot queue ((head + i) % c))).set ((head + i) % c) default
      else queue) := by
  rw [Nat.mod_eq_of_lt (by omega : head + i < c * 2), Ring.mod_eq_ite hh (by omega)]
  split
  · rw [if_neg (by simp)]
    exact ⟨h.length_eq, h.low, fun k hk => by omega, fun k hk hk' => h.waiting k (by omega) hk'⟩
  · rw [if_pos (by omega)]
    have hlen := h.length_eq
    -- the job in slot `head + i - c` moves to slot `head + i`, past every slot still to be read
    have hslot : slot ((queue.set (head + i) (slot queue (head + i - c))).set (head + i - c) default) =
        Function.update (Function.update (slot queue) (head + i) (slot queue (head + i - c)))
          (head + i - c) default := by
      rw [slot_set (by rw [List.length_set]; omega), slot_set (by omega)]
    refine ⟨by simpa using hlen, fun k hk hk' => ?_, fun k hk => ?_, fun k hk hk' => ?_⟩
    · rw [hslot, Function.update_of_ne (by omega), Function.update_of_ne (by omega)]
      exact h.low k hk hk'
    · rw [hslot, Function.update_of_ne (by omega)]
      by_cases hki : c + k = head + i
      · rw [hki, Function.update_self, h.waiting _ (by omega) (by omega)]; congr 1; omega
      · rw [Function.update_of_ne hki]; exact h.moved k (by omega)
    · rw [hslot, Function.update_of_ne (by omega), Function.update_of_ne (by omega)]
      exact h.waiting k (by omega) hk'

/-- The loop ends after `n - i` more rounds, with `newTail` as many slots further. -/
theorem resizeLoop_spec {f : ℕ → Job} {c head n : ℕ} (hh : head < c) (hn : n < c) (fuel : ℕ) :
    ∀ (i : ℕ) (queue : List Job), i ≤ n → n - i < fuel → Moved f c head n i queue →
      ∃ queue', resizeLoop c (c * 2) ((head + n) % c) fuel queue (head + i) (head + i) =
        some (queue', head + n) ∧ Moved f c head n n queue' := by
  induction fuel with
  | zero => intro i queue _ hf; omega
  | succ fuel ih =>
    intro i queue hi hf h
    rw [resizeLoop]
    by_cases hin : i = n
    · subst hin; exact ⟨queue, by simp, h⟩
    · have hne : (head + i) % c ≠ (head + n) % c := by
        rw [Ne, Ring.add_mod_inj hh (by omega) hn]; exact hin
      rw [if_neg hne]
      exact ih (i + 1) _ (by omega) (by omega) (h.step hh (by omega) hn)

theorem Layout.moved_zero (h : q.Layout) :
    Moved (slot q.queue) q.queue.length q.head q.stored 0
      (q.queue ++ List.replicate (q.queue.length * 2 - q.queue.length) default) where
  length_eq := by simp; omega
  low k _ hk := slot_append hk _
  moved k hk := by have := h.head_lt; omega
  waiting k _ hk := slot_append (by have := h.stored_lt; have := h.head_lt; omega) _

/-- `resize` ends, doubles the capacity and keeps head, counter and contents. -/
theorem Layout.resize (h : q.Layout) : ∃ q', q.resize = some q' ∧ q'.Layout ∧
    q'.queue.length = q.queue.length * 2 ∧ q'.head = q.head ∧ q'.currentSize = q.currentSize ∧
    q'.stored = q.stored ∧ q'.contents = q.contents := by
  have hh := h.head_lt
  have hn := h.stored_lt
  obtain ⟨queue', hloop, hmoved⟩ := resizeLoop_spec hh hn (q.queue.length + 1) 0 _ (by omega)
    (by omega) h.moved_zero
  simp only [h.tail_eq, Nat.add_zero] at hloop
  have htail : (q.head + q.stored) % (q.queue.length * 2) = q.head + q.stored :=
    Nat.mod_eq_of_lt (by omega)
  refine ⟨⟨queue', q.head, q.head + q.stored, q.currentSize⟩, ?_, ⟨?_, ?_⟩, hmoved.length_eq, rfl, rfl,
    ?_, ?_⟩
  · simp only [JobQueue.resize, hloop, Option.map_some, htail]
  · simp only [hmoved.length_eq]; omega
  · simp only [hmoved.length_eq]; omega
  · simp [stored, Ring.dist]
  · have hst : stored ⟨queue', q.head, q.head + q.stored, q.currentSize⟩ = q.stored := by
      simp [stored, Ring.dist]
    rw [contents, hst, contents]
    simp only [hmoved.length_eq]
    exact Ring.window_grow hh hn.le (by omega) (fun k hk hk' _ => hmoved.low k hk hk')
      (fun k hk => hmoved.moved k hk)

/-! ### The operations refine a list used as a FIFO -/

/-- After `reserve` one more job fits, and nothing else has changed. -/
theorem Layout.reserve (h : q.Layout) : ∃ q', q.reserve = some q' ∧ q'.Layout ∧ q'.isFull = false ∧
    q'.currentSize = q.currentSize ∧ q'.stored = q.stored ∧ q'.contents = q.contents := by
  by_cases hfull : q.isFull
  · obtain ⟨q', hq', hl, hlen, hhead, hsize, hst, hcont⟩ := h.resize
    refine ⟨q', by rw [JobQueue.reserve, if_pos hfull, hq'], hl, ?_, hsize, hst, hcont⟩
    -- `q` stored `length - 1` jobs, and `q'` has at least two slots more than jobs
    have hlt := h.stored_lt
    by_contra hf
    have hf : (q'.tail + 1) % q'.queue.length = q'.head := by simpa [isFull] using hf
    have htail := hl.tail_eq
    rw [← htail, Nat.mod_add_mod, Nat.add_assoc] at hf
    have h0 : (q'.head + (q'.stored + 1)) % q'.queue.length = (q'.head + 0) % q'.queue.length := by
      rw [hf, Nat.add_zero, Nat.mod_eq_of_lt hl.head_lt]
    have := (Ring.add_mod_inj hl.head_lt (by omega) (by omega)).1 h0
    omega
  · exact ⟨q, by rw [JobQueue.reserve, if_neg hfull], h, by simpa using hfull, rfl, rfl, rfl⟩

theorem Inv.init {baseSize : ℕ} (hb : 0 < baseSize) : (init baseSize : JobQueue Job).Inv where
  head_lt := by simpa [JobQueue.init] using hb
  tail_lt := by simpa [JobQueue.init] using hb
  currentSize_eq := by simp [JobQueue.init, stored]

@[simp] theorem init_contents (baseSize : ℕ) : (init baseSize : JobQueue Job).contents = [] := by
  simp [contents, init, stored]

theorem Inv.enqueue (h : q.Inv) (item : Job) :
    ∃ q', q.enqueue item = some q' ∧ q'.Inv ∧ q'.contents = q.contents ++ [item] := by
  obtain ⟨q', hq', hl, hfull, hsize, hst, hcont⟩ := h.toLayout.reserve
  refine ⟨(q'.store item).countUp, by simp [JobQueue.enqueue, hq'], ⟨(hl.store item).countUp, ?_⟩, ?_⟩
  · show q'.currentSize + 1 = ((q'.store item).stored : ℤ)
    rw [hl.store_stored hfull, hsize, h.currentSize_eq, hst]; push_cast; rfl
  · rw [countUp_contents, hl.store_contents hfull, hcont]

theorem Inv.dequeue (h : q.Inv) : q.dequeue.1.Inv ∧
    (q.contents = [] ∧ q.dequeue = (q, none) ∨
      ∃ job, q.dequeue.2 = some job ∧ q.contents = job :: q.dequeue.1.contents) := by
  have hsize : q.size = (q.stored : ℤ) := h.currentSize_eq
  by_cases hne : q.head = q.tail
  · have h0 := h.stored_eq_zero.2 hne
    have hd : q.dequeue = (q, none) := by simp [JobQueue.dequeue, hne]
    rw [hd]
    exact ⟨h, .inl ⟨List.length_eq_zero_iff.1 (by rw [contents_length, h0]), rfl⟩⟩
  · have h0 : q.stored ≠ 0 := fun h' => hne (h.stored_eq_zero.1 h')
    have hd : q.dequeue = (q.take.1.countDown, some q.take.2) := by
      simp [JobQueue.dequeue, hne, hsize, h0]
    rw [hd]
    refine ⟨⟨h.take.countDown, ?_⟩, .inr ⟨_, rfl, h.take_contents hne⟩⟩
    have hst := h.take_stored hne
    show q.currentSize - 1 = (q.take.1.stored : ℤ)
    rw [h.currentSize_eq, hst]; push_cast; ring

theorem Inv.dequeue_of_nil (h : q.Inv) (hnil : q.contents = []) : q.dequeue = (q, none) := by
  obtain ⟨-, ⟨-, hd⟩ | ⟨job, -, hcons⟩⟩ := h.dequeue
  · exact hd
  · rw [hnil] at hcons
    cases hcons

theorem Inv.dequeue_of_cons (h : q.Inv) {job : Job} {jobs : List Job} (hcons : q.contents = job :: jobs) :
    q.dequeue.2 = some job ∧ q.dequeue.1.contents = jobs := by
  obtain ⟨-, ⟨hnil, -⟩ | ⟨job', hd, hcons'⟩⟩ := h.dequeue
  · rw [hnil] at hcons
    cases hcons
  · rw [hcons] at hcons'
    obtain ⟨rfl, rfl⟩ := List.cons.inj hcons'
    exact ⟨hd, rfl⟩

/-- A call of one of the two operations. -/
inductive Op (Job : Type)
  | enqueue (item : Job)
  | dequeue

/-- Run the calls one after another and collect the results of the dequeues. -/
def runOps : JobQueue Job → List (Op Job) → Option (JobQueue Job × List (Option Job))
  | q, [] => some (q, [])
  | q, .enqueue item :: ops => (q.enqueue item).bind fun q => runOps q ops
  | q, .dequeue :: ops =>
    (runOps q.dequeue.1 ops).map fun (q', results) => (q', q.dequeue.2 :: results)

/-- The same calls on a plain list: append on enqueue, take the first on dequeue. -/
def fifo : List Job → List (Op Job) → List Job × List (Option Job)
  | l, [] => (l, [])
  | l, .enqueue item :: ops => fifo (l ++ [item]) ops
  | [], .dequeue :: ops => ((fifo [] ops).1, none :: (fifo [] ops).2)
  | job :: l, .dequeue :: ops => ((fifo l ops).1, some job :: (fifo l ops).2)

theorem Inv.runOps (ops : List (Op Job)) : ∀ {q : JobQueue Job}, q.Inv →
    ∃ q', q.runOps ops = some (q', (fifo q.contents ops).2) ∧ q'.Inv ∧
      q'.contents = (fifo q.contents ops).1 := by
  induction ops with
  | nil => intro q h; exact ⟨q, rfl, h, rfl⟩
  | cons op ops ih =>
    intro q h
    cases op with
    | enqueue item =>
      obtain ⟨q₁, hq₁, h₁, hc₁⟩ := h.enqueue item
      obtain ⟨q', hq', h', hc'⟩ := ih h₁
      refine ⟨q', ?_, h', ?_⟩
      · simp [JobQueue.runOps, hq₁, hq', hc₁, fifo]
      · rw [hc', hc₁, fifo]
    | dequeue =>
      obtain ⟨h₁, hres⟩ := h.dequeue
      obtain ⟨q', hq', h', hc'⟩ := ih h₁
      refine ⟨q', ?_, h', ?_⟩
      · rcases hres with ⟨hnil, hd⟩ | ⟨job, hd, hcons⟩
        · rw [hd] at hq'
          simp [JobQueue.runOps, hd, hq', hnil, fifo]
        · simp [JobQueue.runOps, hd, hq', hcons, fifo]
      · rcases hres with ⟨hnil, hd⟩ | ⟨job, hd, hcons⟩
        · rw [hc', hd, hnil]; rfl
        · rw [hc', hcons]; rfl

/-- `JobQueue` is an unbounded FIFO queue: whatever the base size and the sequence of calls, the
results are those of a list, and the ring invariant holds after the last call. -/
theorem runOps_eq_fifo (baseSize : ℕ) (hb : 0 < baseSize) (ops : List (Op Job)) :
    ∃ q', (init baseSize : JobQueue Job).runOps ops = some (q', (fifo [] ops).2) ∧
      q'.contents = (fifo [] ops).1 ∧
      q'.head < q'.queue.length ∧ q'.tail < q'.queue.length ∧
      q'.currentSize = ((q'.tail : ℤ) - q'.head) % q'.queue.length ∧
      q'.currentSize = ((fifo [] ops).1.length : ℤ) ∧
      q'.currentSize ≤ (q'.queue.length : ℤ) - 1 := by
  obtain ⟨q', hq', h', hc'⟩ := (Inv.init hb : (init baseSize : JobQueue Job).Inv).runOps ops
  rw [init_contents] at hq' hc'
  refine ⟨q', hq', hc', h'.head_lt, h'.tail_lt, ?_, ?_, ?_⟩
  · rw [h'.currentSize_eq, stored, Ring.dist_eq_emod h'.head_lt h'.tail_lt]
  · rw [h'.currentSize_eq, ← hc', contents_length]
  · have := h'.stored_lt; rw [h'.currentSize_eq]; omega

theorem runOps_eq_fifo_one : ∃ q', (init 1 : JobQueue ℕ).runOps [.enqueue 7, .dequeue, .dequeue] =
    some (q', (fifo [] [.enqueue 7, .dequeue, .dequeue]).2) :=
  let ⟨q', h, _⟩ := runOps_eq_fifo 1 (by decide) [.enqueue 7, .dequeue, .dequeue]
  ⟨q', h⟩

end JobQueue
end AsyncEry
