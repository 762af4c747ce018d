import AsyncEry.WheelRuns

/-!
# The cursors are an odometer

After `t` ticks wheel `i` stands at `t / T i`, modulo its size, and entries are loaded from a wheel at
the moment when the wheel below has come round to its first bucket. `loadCalls` lists the calls of
`load_timers_from_wheel` that a load consists of, each with the wheels as it finds them.
-/

namespace AsyncEry.Timing

variable {Timer : Type}

/-- The call `load_timers_from_wheel(wheelNum)`: the wheel below and the wheels from `wheelNum` on. -/
structure LoadCall (Timer : Type) where
  wheelNum : ℕ
  below : Wheel Timer
  above : List (Wheel Timer)

namespace LoadCall

/-- The entries to move; there are none in the call for the number of wheels. -/
def entries (c : LoadCall Timer) : List (TimerEntry Timer) :=
  match c.above with
  | [] => []
  | wheel :: _ => wheel.entries wheel.currBucketIndex

/-- The wheel below with the entries that the call moves into it. -/
def result (c : LoadCall Timer) : Wheel Timer := c.entries.foldl Wheel.receive c.below

/-- The wheel below stands at its first bucket and has a place for each entry. -/
structure InBounds (c : LoadCall Timer) : Prop where
  cursor : c.below.currBucketIndex.val = 0
  receives : ∀ entry ∈ c.entries, c.below.Receives entry

end LoadCall

/-- The call for `wheelNum` and those it makes. -/
def loadCalls (wheelNum : ℕ) (below : Wheel Timer) : List (Wheel Timer) → List (LoadCall Timer)
  | [] => [⟨wheelNum, below, []⟩]
  | wheel :: above =>
    ⟨wheelNum, below, wheel :: above⟩ ::
      if wheel.turn.currBucketIndex.val = 0 then loadCalls (wheelNum + 1) wheel.turn above else []

/-- The wheels that the last call turns without coming round, or does not come to. -/
def unloaded : List (Wheel Timer) → List (Wheel Timer)
  | [] => []
  | wheel :: above => if wheel.turn.currBucketIndex.val = 0 then unloaded above else wheel.turn :: above

variable {below w : Wheel Timer} {ws above : List (Wheel Timer)} {P t T k m : ℕ}

/-- A load is its calls. -/
theorem loadTimersFromWheel_eq (below : Wheel Timer) (above : List (Wheel Timer)) (k : ℕ) :
    (loadTimersFromWheel below above).1 :: (loadTimersFromWheel below above).2 =
      (loadCalls k below above).map LoadCall.result ++ unloaded above := by
  induction above generalizing below k with
  | nil => rfl
  | cons w ws ih =>
    rw [loadTimersFromWheel_cons, loadCalls, unloaded, carry, List.map_cons, List.cons_append]
    refine congrArg (_ :: ·) ?_
    split
    · exact ih w.turn (k + 1)
    · rfl

/-- The calls go up from wheel to wheel and end at the number of wheels. -/
theorem loadCalls_wheelNum (below : Wheel Timer) (above : List (Wheel Timer)) (k : ℕ) :
    (loadCalls k below above).map LoadCall.wheelNum = List.range' k (loadCalls k below above).length ∧
      ∀ c ∈ loadCalls k below above, c.wheelNum + c.above.length = k + above.length := by
  induction above generalizing below k with
  | nil => exact ⟨rfl, fun c hc => by cases List.mem_singleton.1 hc; rfl⟩
  | cons w ws ih =>
    rw [loadCalls]
    split
    · obtain ⟨hnum, hlen⟩ := ih w.turn (k + 1)
      rw [List.map_cons, List.length_cons, List.range'_succ, hnum]
      refine ⟨rfl, fun c hc => ?_⟩
      rcases List.mem_cons.1 hc with rfl | hc
      · rfl
      · rw [hlen c hc, List.length_cons]
        omega
    · exact ⟨rfl, fun c hc => by cases List.mem_singleton.1 hc; rfl⟩

/-- Each call finds the wheel below at its first bucket, and what it moves there fits. -/
theorem loadCalls_inBounds (h : Graded T (below :: above)) (h0 : below.currBucketIndex.val = 0) (k : ℕ) :
    ∀ c ∈ loadCalls k below above, c.InBounds := by
  induction above generalizing below T k with
  | nil =>
    intro c hc
    cases List.mem_singleton.1 hc
    exact ⟨h0, List.forall_mem_nil _⟩
  | cons w ws ih =>
    intro c hc
    rcases List.mem_cons.1 hc with rfl | hc
    · exact ⟨h0, fun e he => h.1.receives h0 h.mul_lt (h.2.1.offset w.currBucketIndex e he)⟩
    · split at hc
      · next hw => exact ih ⟨h.2.1.turn, h.2.2⟩ hw (k + 1) c hc
      · cases hc

/-! ### The sizes stay -/

def sizesOf (ws : List (Wheel Timer)) : List ℕ := ws.map Wheel.numBuckets

theorem sizesOf_carry (w : Wheel Timer) (ws : List (Wheel Timer)) :
    sizesOf (carry w ws) = sizesOf (w :: ws) := by
  induction ws generalizing w with
  | nil => unfold carry; split <;> rfl
  | cons v vs ih =>
    unfold carry
    split
    · obtain ⟨buckets, hframe⟩ :=
        HierarchicalTimingWheel.receive_all_frame (v.entries v.currBucketIndex) w
      rw [loadTimersFromWheel_cons, hframe]
      exact congrArg (w.numBuckets :: ·) (ih v.turn)
    · rfl

theorem sizesOf_place (ws : List (Wheel Timer)) (i ticksLeft : ℕ) (timer : Timer) :
    sizesOf (ws.modify i fun w => w.place ticksLeft timer) = sizesOf ws := by
  induction ws generalizing i with
  | nil => rw [List.modify_nil]
  | cons w ws ih =>
    cases i with
    | zero => rfl
    | succ i => exact congrArg (w.numBuckets :: ·) (ih i)

/-- After `t` ticks wheel `i` of the given sizes stands at `t / T i`, modulo its size, and has entries
for less than `T i` ticks. -/
structure Odometer (sizes : List ℕ) (t : ℕ) (ws : List (Wheel Timer)) : Prop where
  sizes_eq : sizesOf ws = sizes
  fits : ∀ i : Fin ws.length, (ws.get i).Fits t (sizes.take i).prod

theorem Stacked.fits_get (h : Stacked P t T ws) (i : Fin ws.length) :
    (ws.get i).Fits t (T * ((sizesOf ws).take i).prod) := by
  induction ws generalizing T with
  | nil => exact i.elim0
  | cons w ws ih =>
    obtain ⟨i, hi⟩ := i
    cases i with
    | zero => exact (Nat.mul_one T).symm ▸ h.1
    | succ i =>
      show (ws.get ⟨i, Nat.lt_of_succ_lt_succ hi⟩).Fits t (T * (w.numBuckets :: (sizesOf ws).take i).prod)
      rw [List.prod_cons, ← Nat.mul_assoc]
      exact ih h.2 ⟨i, Nat.lt_of_succ_lt_succ hi⟩

namespace HierarchicalTimingWheel
variable {s : HierarchicalTimingWheel Timer}

theorem sizesOf_createWheels (sizes : List ℕ+) (T : ℕ) :
    sizesOf (createWheels T sizes : List (Wheel Timer)) = sizes.map PNat.val := by
  induction sizes generalizing T with
  | nil => rfl
  | cons n sizes ih => exact congrArg (n.val :: ·) (ih _)

/-- The calls of `load_timers_from_wheel` in a round of the loop of `advance`. -/
def loads (s : HierarchicalTimingWheel Timer) (bucket : Fin s.lowestWheel.numBuckets) :
    List (LoadCall Timer) :=
  let lowestWheel := (s.lowestWheel.clear bucket).next
  if lowestWheel.currBucketIndex.val = 0 then loadCalls 1 lowestWheel s.wheelsAbove else []

theorem processBucket_wheels (b : Fin s.lowestWheel.numBuckets) :
    (s.processBucket b).1.wheels = carry (s.lowestWheel.clear b).next s.wheelsAbove := by
  unfold processBucket carry
  dsimp only
  split <;> rfl

theorem loads_of_zero (b : Fin s.lowestWheel.numBuckets)
    (h0 : (s.lowestWheel.clear b).next.currBucketIndex.val = 0) :
    s.loads b = loadCalls 1 (s.lowestWheel.clear b).next s.wheelsAbove := if_pos h0

theorem loads_of_ne_zero (b : Fin s.lowestWheel.numBuckets)
    (h0 : (s.lowestWheel.clear b).next.currBucketIndex.val ≠ 0) : s.loads b = [] := if_neg h0

theorem loadCalls_ne_nil (k : ℕ) (below : Wheel Timer) (above : List (Wheel Timer)) :
    loadCalls k below above ≠ [] := by
  cases above <;> exact List.cons_ne_nil _ _

/-- What a round leaves in the wheels: nothing is loaded, or what the calls say. -/
theorem processBucket_loads (b : Fin s.lowestWheel.numBuckets) :
    (s.loads b = [] → (s.processBucket b).1.wheels = (s.lowestWheel.clear b).next :: s.wheelsAbove) ∧
      (s.loads b ≠ [] → (s.processBucket b).1.wheels =
        (s.loads b).map LoadCall.result ++ unloaded s.wheelsAbove) := by
  rw [processBucket_wheels, carry]
  by_cases h0 : (s.lowestWheel.clear b).next.currBucketIndex.val = 0
  · rw [if_pos h0, loads_of_zero b h0]
    exact ⟨fun hnil => absurd hnil (loadCalls_ne_nil _ _ _), fun _ => loadTimersFromWheel_eq ..⟩
  · rw [if_neg h0, loads_of_ne_zero b h0]
    exact ⟨fun _ => rfl, fun hne => absurd rfl hne⟩

theorem loads_wheelNum (b : Fin s.lowestWheel.numBuckets) :
    (s.loads b).map LoadCall.wheelNum = List.range' 1 (s.loads b).length ∧
      ∀ c ∈ s.loads b, c.wheelNum + c.above.length = s.wheels.length := by
  unfold loads
  dsimp only
  split
  · obtain ⟨hnum, hlen⟩ := loadCalls_wheelNum (s.lowestWheel.clear b).next s.wheelsAbove 1
    exact ⟨hnum, fun c hc => (hlen c hc).trans (Nat.add_comm ..)⟩
  · exact ⟨rfl, List.forall_mem_nil _⟩

theorem loads_inBounds (h : Graded 1 s.wheels) (b : Fin s.lowestWheel.numBuckets) :
    ∀ c ∈ s.loads b, c.InBounds := by
  unfold loads
  dsimp only
  split
  · next h0 =>
    have hlow : (s.lowestWheel.clear b).next.Graded 1 :=
      ⟨h.1.pos, h.1.lt, h.1.size, h.1.ticks, fun b' e he => h.1.offset b' e (Wheel.mem_bucket_clear he).2⟩
    exact loadCalls_inBounds ⟨hlow, h.2⟩ h0 1
  · exact List.forall_mem_nil _

theorem sizesOf_processBuckets (completed : List ℕ) :
    sizesOf (s.processBuckets completed).1.wheels = sizesOf s.wheels := by
  induction completed generalizing s with
  | nil => rfl
  | cons idx completed ih =>
    refine (ih (s := (s.processBucket (s.lowestWheel.bucket idx)).1)).trans ?_
    rw [processBucket_wheels, sizesOf_carry]
    rfl

/-- `j` rounds into an advance. -/
theorem stacked_rounds (h : Stacked P t 1 s.wheels) (hP : P < 2 ^ 64) (now : TimePoint) {j : ℕ}
    (hj : j ≤ (s.completedBuckets now).length) :
    Stacked P (t + j) 1 (s.processBuckets ((s.completedBuckets now).take j)).1.wheels := by
  have hcur : s.lowestWheel.currBucketIndex % s.lowestWheel.numBuckets = t % s.lowestWheel.numBuckets := by
    rw [h.1.cursor, Nat.div_one, Nat.mod_mod]
  unfold completedBuckets at hj ⊢
  split
  · next hnow =>
    rw [if_pos hnow] at hj
    obtain rfl := Nat.le_zero.1 hj
    exact h
  · next hnow =>
    rw [if_neg hnow, List.length_range'] at hj
    rw [List.take_range'_of_length_ge hj]
    exact stacked_processBuckets h hP hcur j

theorem stacked_final (h : Stacked P t 1 s.wheels) (hP : P < 2 ^ 64) (calls : List (Call Timer)) :
    Stacked P (t + s.ticksProcessed calls) 1 (Mealy.final step s calls).wheels ∧
      sizesOf (Mealy.final step s calls).wheels = sizesOf s.wheels := by
  induction calls generalizing s t with
  | nil => exact ⟨h, rfl⟩
  | cons call calls ih =>
    show Stacked P (t + (s.ticksOf call + (s.step call).1.ticksProcessed calls)) 1 _ ∧ _
    rw [← Nat.add_assoc]
    cases call with
    | schedule duration timer =>
      have hwheels : (s.step (.schedule duration timer)).1.wheels =
        s.wheels.modify _ fun w => w.place _ timer := wheels_place ..
      obtain ⟨hfinal, hsizes⟩ := ih (s := (s.step (.schedule duration timer)).1) (t := t) (by
        rw [hwheels]
        exact h.place timer)
      refine ⟨hfinal, hsizes.trans ?_⟩
      rw [hwheels, sizesOf_place]
    | advance now =>
      have hwheels : (s.step (.advance now)).1.wheels =
          (s.processBuckets (s.completedBuckets now)).1.wheels := by
        show (s.advance now).1.wheels = _
        rw [advance_eq]
        rfl
      have hrounds := stacked_rounds h hP now le_rfl
      rw [List.take_length, ← hwheels] at hrounds
      obtain ⟨hfinal, hsizes⟩ := ih hrounds
      refine ⟨hfinal, hsizes.trans ?_⟩
      rw [hwheels, sizesOf_processBuckets]

/-- In every run, between calls and after each round `j` of an advance: the wheels are an odometer that
has counted the ticks, and the calls of `load_timers_from_wheel` in the next round go up from wheel 1,
end at the number of wheels at the latest, and each find the wheel below at its first bucket, with a
place for each entry they move. The round leaves the wheels as these calls say, and if there are none,
as they are above the lowest one. -/
theorem run_odometer (tickSize : Milliseconds) (start : TimePoint) (size : ℕ+) (sizes : List ℕ+)
    (calls : List (Call Timer)) (now : TimePoint)
    (hP : ((size :: sizes).map PNat.val).prod < 2 ^ 64) :
    let s₀ : HierarchicalTimingWheel Timer := create tickSize start size sizes
    let s := Mealy.final step s₀ calls
    ∀ j ≤ (s.completedBuckets now).length,
      let r := (s.processBuckets ((s.completedBuckets now).take j)).1
      Odometer ((size :: sizes).map PNat.val) (s₀.ticksProcessed calls + j) r.wheels ∧
        ∀ idx, (s.completedBuckets now)[j]? = some idx →
          let loads := r.loads (r.lowestWheel.bucket idx)
          loads.map LoadCall.wheelNum = List.range' 1 loads.length ∧
            (∀ c ∈ loads, c.wheelNum + c.above.length = r.wheels.length ∧ c.InBounds) ∧
            let wheels := (r.processBucket (r.lowestWheel.bucket idx)).1.wheels
            (loads = [] →
              wheels = (r.lowestWheel.clear (r.lowestWheel.bucket idx)).next :: r.wheelsAbove) ∧
            (loads ≠ [] → wheels = loads.map LoadCall.result ++ unloaded r.wheelsAbove) := by
  intro s₀ s j hj r
  have h₀ : Stacked _ 0 1 s₀.wheels := (Holds.create (f := id) hP rfl).stacked
  obtain ⟨hfinal, hsizes⟩ := stacked_final h₀ hP calls
  rw [Nat.zero_add] at hfinal
  have hr := stacked_rounds hfinal hP now hj
  have hsizes' : sizesOf r.wheels = (size :: sizes).map PNat.val := by
    rw [sizesOf_processBuckets, hsizes, wheels_create, sizesOf_createWheels]
  refine ⟨⟨hsizes', fun i => ?_⟩, fun idx _ => ?_⟩
  · have hfits := hr.fits_get i
    rw [Nat.one_mul, hsizes'] at hfits
    exact hfits
  · obtain ⟨hnum, hlen⟩ := r.loads_wheelNum (r.lowestWheel.bucket idx)
    exact ⟨hnum, fun c hc => ⟨hlen c hc, loads_inBounds (hr.graded hP) _ c hc⟩, r.processBucket_loads _⟩

/-- One round into an advance over three ticks, the next round loads the second wheel. -/
theorem run_odometer_round :
    let s := (create 50 0 2 [3]).schedule 100 7
    let r := (s.processBuckets ((s.completedBuckets 150000000).take 1)).1
    Odometer [2, 3] 1 r.wheels ∧ (r.loads (r.lowestWheel.bucket 1)).map LoadCall.wheelNum = [1] ∧
      ∀ c ∈ r.loads (r.lowestWheel.bucket 1), c.InBounds := by
  obtain ⟨hodometer, hloads⟩ :=
    run_odometer 50 0 2 [3] [.schedule 100 7] 150000000 (by decide) 1 (by decide)
  exact ⟨hodometer, by decide, fun c hc => ((hloads 1 rfl).2.1 c hc).2⟩

end HierarchicalTimingWheel
end AsyncEry.Timing
