import AsyncEry.HierarchicalTimingWheel

/-!
# When the entries of a hierarchical wheel are due

`z` is the tick at which the current bucket of a wheel is its turn to come down. A bucket `r` places
ahead comes down `r` buckets' worth of ticks later, and the current bucket of the wheel above does when
this wheel has come round. After `t` ticks a cursor with `T` ticks a bucket stands at `t / T`, modulo
the number of buckets.
-/

namespace AsyncEry.Timing

variable {Timer : Type}

namespace Wheel

def dueOf (z : ℕ) (w : Wheel Timer) (b : Fin w.numBuckets) (entry : TimerEntry Timer) : ℕ × Timer :=
  (z + Ring.dist w.numBuckets w.currBucketIndex b * w.ticksPerBucket + entry.tickOffsetIntoBucket,
    entry.timer)

def bucketDues (z : ℕ) (w : Wheel Timer) (b : Fin w.numBuckets) : Multiset (ℕ × Timer) :=
  ((w.entries b).map (w.dueOf z b) : List (ℕ × Timer))

def dues (z : ℕ) (w : Wheel Timer) : Multiset (ℕ × Timer) := ∑ b, w.bucketDues z b

/-- The ticks until this wheel has come round. -/
def remaining (w : Wheel Timer) : ℕ := (w.numBuckets - w.currBucketIndex) * w.ticksPerBucket

/-- A wheel with `T` ticks a bucket, its cursor anywhere. -/
structure Graded (T : ℕ) (w : Wheel Timer) : Prop where
  pos : 0 < T
  lt : T < 2 ^ 64
  size : w.numBuckets < 2 ^ 64
  ticks : w.ticksPerBucket = T
  offset : ∀ b : Fin w.numBuckets, ∀ entry ∈ w.entries b, entry.tickOffsetIntoBucket < T

/-- A wheel with `T` ticks a bucket after `t` ticks. -/
structure Fits (t T : ℕ) (w : Wheel Timer) : Prop where
  pos : 0 < T
  ticks : w.ticksPerBucket = T
  cursor : w.currBucketIndex.val = t / T % w.numBuckets
  offset : ∀ b : Fin w.numBuckets, ∀ entry ∈ w.entries b, entry.tickOffsetIntoBucket < T

end Wheel

def chainDues : ℕ → List (Wheel Timer) → Multiset (ℕ × Timer)
  | _, [] => 0
  | z, w :: ws => w.dues z + chainDues (z + w.remaining) ws

/-- Wheels of which each has a turn of the one below in a bucket. -/
def Graded : ℕ → List (Wheel Timer) → Prop
  | _, [] => True
  | T, w :: ws => w.Graded T ∧ Graded (T * w.numBuckets) ws

/-- Wheels of which each turns by a bucket when the one below has come round, `P` ticks in all. -/
def Stacked (P t : ℕ) : ℕ → List (Wheel Timer) → Prop
  | T, [] => T = P
  | T, w :: ws => w.Fits t T ∧ Stacked P t (T * w.numBuckets) ws

variable {w : Wheel Timer} {ws : List (Wheel Timer)} {entry : TimerEntry Timer} {z P t T k : ℕ}

theorem Stacked.le (h : Stacked P t T ws) : T ≤ P := by
  induction ws generalizing T with
  | nil => exact h.le
  | cons w ws ih => exact (Nat.le_mul_of_pos_right T w.currBucketIndex.pos).trans (ih h.2)

theorem Stacked.numBuckets_lt (hP : P < 2 ^ 64) (h : Stacked P t T (w :: ws)) :
    T * w.numBuckets < 2 ^ 64 ∧ w.numBuckets < 2 ^ 64 := by
  have hlt := h.2.le.trans_lt hP
  exact ⟨hlt, (Nat.le_mul_of_pos_left _ h.1.pos).trans_lt hlt⟩

theorem Stacked.graded (hP : P < 2 ^ 64) (h : Stacked P t T ws) : Graded T ws := by
  induction ws generalizing T with
  | nil => trivial
  | cons w ws ih =>
    exact ⟨⟨h.1.pos, h.le.trans_lt hP, (h.numBuckets_lt hP).2, h.1.ticks, h.1.offset⟩, ih h.2⟩

theorem Graded.mul_lt {v : Wheel Timer} (h : Graded T (w :: v :: ws)) : T * w.numBuckets < 2 ^ 64 :=
  h.2.1.lt

theorem Wheel.Fits.later (h : w.Fits t T) (hT : ¬ T ∣ t + 1) : w.Fits (t + 1) T :=
  ⟨h.pos, h.ticks, by rw [h.cursor, Nat.succ_div_of_not_dvd hT], h.offset⟩

theorem Stacked.later (h : Stacked P t T ws) (hT : ¬ T ∣ t + 1) : Stacked P (t + 1) T ws := by
  induction ws generalizing T with
  | nil => exact h
  | cons w ws ih => exact ⟨h.1.later hT, ih h.2 fun hdvd => hT ((Nat.dvd_mul_right ..).trans hdvd)⟩

namespace Wheel

/-! ### One wheel -/

theorem entries_setEntries {b b' : Fin w.numBuckets} {entries : List (TimerEntry Timer)} :
    (w.setEntries b entries).entries b' = if b' = b then entries else w.entries b' := by
  show (w.buckets.set b.1 entries)[b'.1] = _
  rw [Vector.getElem_set]
  exact if_congr (eq_comm.trans Fin.ext_iff.symm) rfl rfl

theorem bucketDues_setEntries (b : Fin w.numBuckets) (entries : List (TimerEntry Timer)) :
    bucketDues z (w.setEntries b entries) =
      Function.update (w.bucketDues z) b (entries.map (w.dueOf z b) : List (ℕ × Timer)) := by
  refine funext fun (b' : Fin w.numBuckets) => ?_
  have hset : (w.setEntries b entries).entries b' = if b' = b then entries else w.entries b' :=
    entries_setEntries
  show Multiset.ofList (((w.setEntries b entries).entries b').map (w.dueOf z b')) = _
  rw [hset]
  by_cases hb : b' = b
  · rw [if_pos hb, hb, Function.update_self]
  · rw [if_neg hb, Function.update_of_ne hb]; rfl

theorem dues_push (b : Fin w.numBuckets) :
    (w.push b entry).dues z = w.dues z + {w.dueOf z b entry} := by
  show ∑ b', bucketDues z (w.setEntries b _) b' = _
  rw [bucketDues_setEntries]
  refine Conserve.sum_put (g := id) (Finset.mem_univ b) ?_
  show Multiset.ofList _ = _
  rw [List.map_append, ← Multiset.coe_add]
  rfl

theorem dues_clear (b : Fin w.numBuckets) :
    (w.clear b).dues z + w.bucketDues z b = w.dues z := by
  show ∑ b', bucketDues z (w.setEntries b []) b' + _ = _
  rw [bucketDues_setEntries]
  exact Conserve.sum_take (g := id) (Finset.mem_univ b) (zero_add _).symm

theorem mem_bucket_push {b b' : Fin w.numBuckets} {e : TimerEntry Timer}
    (h : e ∈ (w.push b entry).entries b') : e ∈ w.entries b' ∨ e = entry := by
  change e ∈ (w.setEntries b _).entries b' at h
  rw [entries_setEntries] at h
  split at h
  · next hb =>
    rcases List.mem_append.1 h with h | h
    · rw [hb]
      exact .inl h
    · exact .inr (List.mem_singleton.1 h)
  · exact .inl h

theorem mem_bucket_clear {b b' : Fin w.numBuckets} {e : TimerEntry Timer}
    (h : e ∈ (w.clear b).entries b') : b' ≠ b ∧ e ∈ w.entries b' := by
  change e ∈ (w.setEntries b []).entries b' at h
  rw [entries_setEntries] at h
  split at h
  · cases h
  · next hb => exact ⟨hb, h⟩

theorem offset_push (h : ∀ b : Fin w.numBuckets, ∀ e ∈ w.entries b, e.tickOffsetIntoBucket < T)
    (b : Fin w.numBuckets) (he : entry.tickOffsetIntoBucket < T) :
    ∀ b' : Fin w.numBuckets, ∀ e ∈ (w.push b entry).entries b', e.tickOffsetIntoBucket < T := by
  intro b' e hmem
  rcases mem_bucket_push hmem with hmem | rfl
  · exact h b' e hmem
  · exact he

theorem Graded.push (h : w.Graded T) (b : Fin w.numBuckets) (he : entry.tickOffsetIntoBucket < T) :
    (w.push b entry).Graded T :=
  ⟨h.pos, h.lt, h.size, h.ticks, offset_push h.offset b he⟩

theorem Graded.place (h : w.Graded T) (ticksLeft : ℕ) (timer : Timer) :
    (w.place ticksLeft timer).Graded T := by
  refine h.push _ ?_
  rw [h.ticks]
  exact Nat.mod_lt _ h.pos

theorem Fits.place (h : w.Fits t T) (ticksLeft : ℕ) (timer : Timer) : (w.place ticksLeft timer).Fits t T := by
  refine ⟨h.pos, h.ticks, h.cursor, offset_push h.offset _ ?_⟩
  rw [h.ticks]
  exact Nat.mod_lt _ h.pos

/-- Clear the current bucket and move on to the next. -/
def turn (w : Wheel Timer) : Wheel Timer := (w.clear w.currBucketIndex).next

theorem turn_cursor (hn : w.numBuckets < 2 ^ 64) :
    w.turn.currBucketIndex.val = Ring.next w.numBuckets w.currBucketIndex := by
  have hlt := w.currBucketIndex.isLt
  show SizeT.add w.currBucketIndex 1 % w.numBuckets = _
  rw [SizeT.add_of_lt (by omega), Ring.next]

theorem Graded.turn (h : w.Graded T) : w.turn.Graded T :=
  ⟨h.pos, h.lt, h.size, h.ticks, fun b e hmem => h.offset b e (mem_bucket_clear hmem).2⟩

theorem Fits.turn (h : w.Fits t T) (hn : w.numBuckets < 2 ^ 64) (hT : T ∣ t + 1) :
    w.turn.Fits (t + 1) T := by
  refine ⟨h.pos, h.ticks, ?_, fun b e hmem => h.offset b e (mem_bucket_clear hmem).2⟩
  rw [turn_cursor hn, h.cursor, Ring.next, Nat.mod_add_mod, Nat.succ_div_of_dvd hT]
  rfl

/-- The entries of the current bucket come down, the others stay due when they were. -/
theorem dues_turn (hn : w.numBuckets < 2 ^ 64) :
    w.dues z = ((w.entries w.currBucketIndex).map fun e => (z + e.tickOffsetIntoBucket, e.timer) :
      List (ℕ × Timer)) + w.turn.dues (z + w.ticksPerBucket) := by
  have hcur := w.currBucketIndex.isLt
  have hdown : w.bucketDues z w.currBucketIndex =
      ((w.entries w.currBucketIndex).map fun e => (z + e.tickOffsetIntoBucket, e.timer) : List _) := by
    unfold bucketDues dueOf
    rw [Ring.dist_self, Nat.zero_mul, Nat.add_zero]
  have hstay : (w.clear w.currBucketIndex).dues z = w.turn.dues (z + w.ticksPerBucket) := by
    refine Finset.sum_congr rfl fun b _ => ?_
    refine congrArg Multiset.ofList (List.map_congr_left fun e he => ?_)
    obtain ⟨hb, -⟩ := mem_bucket_clear he
    have hdist := Ring.dist_next_head hcur b.isLt fun heq => hb (Fin.ext heq.symm)
    refine congrArg (·, e.timer) ?_
    show z + Ring.dist w.numBuckets w.currBucketIndex b * w.ticksPerBucket + _ =
      z + w.ticksPerBucket +
        Ring.dist w.numBuckets w.turn.currBucketIndex.val b * w.ticksPerBucket + _
    rw [turn_cursor hn, hdist, Nat.add_mul, Nat.one_mul]
    omega
  rw [← dues_clear w.currBucketIndex, hdown, hstay, add_comm]

theorem remaining_turn (hn : w.numBuckets < 2 ^ 64) :
    w.remaining =
      w.ticksPerBucket + if w.turn.currBucketIndex.val = 0 then 0 else w.turn.remaining := by
  have hcur := w.currBucketIndex.isLt
  have hnext := turn_cursor hn
  rw [Ring.next_eq_ite hcur] at hnext
  have hsplit : ∀ m, w.numBuckets - w.currBucketIndex = m + 1 →
      w.remaining = w.ticksPerBucket + m * w.ticksPerBucket := fun m hm => by
    rw [remaining, hm, Nat.add_mul, Nat.one_mul, Nat.add_comm]
  split at hnext
  · rw [if_neg (by omega), hsplit (w.numBuckets - (w.currBucketIndex + 1)) (by omega), remaining, hnext]
    rfl
  · rw [if_pos hnext, hsplit 0 (by omega), Nat.zero_mul]

/-- The `bucket_index` that `receive` comes to. -/
def receiveIndex (w : Wheel Timer) (entry : TimerEntry Timer) : Fin w.numBuckets :=
  w.bucket (SizeT.add w.currBucketIndex (entry.tickOffsetIntoBucket / w.ticksPerBucket))

/-- The modulo in `receive` does nothing, and the subtraction takes off no more than there is. -/
structure Receives (w : Wheel Timer) (entry : TimerEntry Timer) : Prop where
  index_lt : entry.tickOffsetIntoBucket / w.ticksPerBucket < w.numBuckets
  index_eq : (w.receiveIndex entry).val = entry.tickOffsetIntoBucket / w.ticksPerBucket
  mul_eq : SizeT.mul (w.receiveIndex entry) w.ticksPerBucket = w.receiveIndex entry * w.ticksPerBucket
  mul_le : w.receiveIndex entry * w.ticksPerBucket ≤ entry.tickOffsetIntoBucket
  offset_lt : entry.tickOffsetIntoBucket - w.receiveIndex entry * w.ticksPerBucket < w.ticksPerBucket

/-- A wheel that has come round has a place for each entry of the bucket above. -/
theorem Graded.receives (h : w.Graded T) (hcur : w.currBucketIndex.val = 0)
    (hlt : T * w.numBuckets < 2 ^ 64) (he : entry.tickOffsetIntoBucket < T * w.numBuckets) :
    w.Receives entry := by
  obtain rfl := h.ticks
  have hle := Nat.div_mul_le_self entry.tickOffsetIntoBucket w.ticksPerBucket
  have hdiv : entry.tickOffsetIntoBucket / w.ticksPerBucket < w.numBuckets := Nat.div_lt_of_lt_mul he
  have hdiv' : entry.tickOffsetIntoBucket / w.ticksPerBucket < 2 ^ 64 :=
    (Nat.div_le_self _ _).trans_lt (he.trans hlt)
  have hindex : (w.receiveIndex entry).val = entry.tickOffsetIntoBucket / w.ticksPerBucket := by
    show SizeT.add w.currBucketIndex _ % w.numBuckets = _
    rw [hcur, SizeT.add_of_lt (by omega), Nat.zero_add, Nat.mod_eq_of_lt hdiv]
  refine ⟨hdiv, hindex, ?_, ?_, ?_⟩ <;> rw [hindex]
  · exact SizeT.mul_of_lt (by omega)
  · exact hle
  · rw [← Nat.mod_eq_sub_div_mul]
    exact Nat.mod_lt _ h.pos

/-- A wheel that has come round gives each entry of the bucket above its place. -/
theorem dues_receive (h : w.Graded T) (hcur : w.currBucketIndex.val = 0)
    (hlt : T * w.numBuckets < 2 ^ 64) (he : entry.tickOffsetIntoBucket < T * w.numBuckets) :
    (w.receive entry).Graded T ∧ (w.receive entry).dues z =
      w.dues z + {(z + entry.tickOffsetIntoBucket, entry.timer)} := by
  have hr := h.receives hcur hlt he
  set b := w.receiveIndex entry with hb
  have hreceive : w.receive entry = w.push b
      ⟨entry.tickOffsetIntoBucket - b * w.ticksPerBucket, entry.timer⟩ := by
    rw [← SizeT.sub_of_le hr.mul_le (he.trans hlt), ← hr.mul_eq]
    rfl
  rw [hreceive]
  refine ⟨h.push b (h.ticks ▸ hr.offset_lt), ?_⟩
  have hdist : Ring.dist w.numBuckets w.currBucketIndex b = b := by
    rw [Ring.dist, hcur, if_pos (Nat.zero_le _), Nat.sub_zero]
  rw [dues_push, dueOf, hdist, Nat.add_assoc, Nat.add_sub_cancel' hr.mul_le]

theorem dues_receive_all {entries : List (TimerEntry Timer)} (h : w.Graded T)
    (hcur : w.currBucketIndex.val = 0) (hlt : T * w.numBuckets < 2 ^ 64)
    (he : ∀ e ∈ entries, e.tickOffsetIntoBucket < T * w.numBuckets) :
    (entries.foldl receive w).Graded T ∧
      (entries.foldl receive w).numBuckets = w.numBuckets ∧
      (entries.foldl receive w).currBucketIndex.val = 0 ∧
      (entries.foldl receive w).dues z =
        w.dues z + (entries.map fun e => (z + e.tickOffsetIntoBucket, e.timer) : List _) := by
  induction entries generalizing w with
  | nil => exact ⟨h, rfl, hcur, (add_zero _).symm⟩
  | cons e entries ih =>
    obtain ⟨hgraded, hdues⟩ := dues_receive (z := z) h hcur hlt (he e (List.mem_cons_self ..))
    obtain ⟨hgraded', hn', hcur', hdues'⟩ :=
      ih hgraded hcur hlt fun e' he' => he e' (List.mem_cons_of_mem e he')
    refine ⟨hgraded', hn', hcur', ?_⟩
    rw [List.foldl_cons, hdues', hdues, add_assoc]
    rfl

end Wheel

/-! ### The wheels above -/

/-- What is done whenever a cursor has moved: a wheel that has come round takes the next bucket of the
wheel above. -/
def carry (w : Wheel Timer) (above : List (Wheel Timer)) : List (Wheel Timer) :=
  if w.currBucketIndex.val = 0 then
    (loadTimersFromWheel w above).1 :: (loadTimersFromWheel w above).2
  else w :: above

theorem loadTimersFromWheel_cons (below : Wheel Timer) :
    (loadTimersFromWheel below (w :: ws)).1 :: (loadTimersFromWheel below (w :: ws)).2 =
      (w.entries w.currBucketIndex).foldl Wheel.receive below :: carry w.turn ws := by
  unfold carry
  rw [loadTimersFromWheel]
  show _ = _ :: if (w.clear w.currBucketIndex).next.currBucketIndex.val = 0 then _ else _
  dsimp only
  split <;> rfl

theorem carry_dvd (h : w.Fits t T) (hn : w.numBuckets < 2 ^ 64) (hT : T ∣ t + 1) :
    T * w.numBuckets ∣ t + 1 ↔ w.turn.currBucketIndex.val = 0 := by
  rw [(h.turn hn hT).cursor]
  show _ ↔ (t + 1) / T % w.numBuckets = 0
  rw [← Nat.dvd_iff_mod_eq_zero, Nat.dvd_div_iff_mul_dvd hT]

/-- A wheel that has not come round leaves those above alone. -/
theorem chainDues_turn_of_ne (h : Graded T (w :: ws)) (h0 : w.turn.currBucketIndex.val ≠ 0) :
    Graded T (carry w.turn ws) ∧
      chainDues z (w :: ws) =
        ((w.entries w.currBucketIndex).map fun e => (z + e.tickOffsetIntoBucket, e.timer) : List _) +
          chainDues (z + T) (carry w.turn ws) := by
  have hremaining := Wheel.remaining_turn h.1.size
  rw [if_neg h0, h.1.ticks] at hremaining
  rw [carry, if_neg h0]
  refine ⟨⟨h.1.turn, h.2⟩, ?_⟩
  rw [chainDues, chainDues, Wheel.dues_turn h.1.size, h.1.ticks, hremaining, add_assoc, Nat.add_assoc]

/-- When a wheel turns, the entries of its current bucket come down and those of all the wheels stay
due when they were. -/
theorem chainDues_turn (h : Graded T (w :: ws)) :
    Graded T (carry w.turn ws) ∧
      chainDues z (w :: ws) =
        ((w.entries w.currBucketIndex).map fun e => (z + e.tickOffsetIntoBucket, e.timer) : List _) +
          chainDues (z + T) (carry w.turn ws) := by
  induction ws generalizing w T z with
  | nil =>
    by_cases h0 : w.turn.currBucketIndex.val = 0
    · rw [carry, if_pos h0]
      refine ⟨⟨h.1.turn, h.2⟩, ?_⟩
      show w.dues z + 0 = _ + (w.turn.dues (z + T) + 0)
      rw [add_zero, add_zero, Wheel.dues_turn h.1.size, h.1.ticks]
    · exact chainDues_turn_of_ne h h0
  | cons v vs ih =>
    by_cases h0 : w.turn.currBucketIndex.val = 0
    · have hremaining := Wheel.remaining_turn h.1.size
      rw [if_pos h0, h.1.ticks, Nat.add_zero] at hremaining
      obtain ⟨hgraded, hdues⟩ := ih (z := z + T) h.2
      obtain ⟨hgraded', hn', hcur', hdues'⟩ := Wheel.dues_receive_all (z := z + T) h.1.turn h0 h.mul_lt
        (h.2.1.offset v.currBucketIndex)
      have hremaining' : ((v.entries v.currBucketIndex).foldl Wheel.receive w.turn).remaining =
          T * w.numBuckets := by
        rw [Wheel.remaining, hcur', hgraded'.ticks, Nat.sub_zero, hn', Nat.mul_comm]
        rfl
      rw [carry, if_pos h0, loadTimersFromWheel_cons]
      refine ⟨⟨hgraded', by rw [hn']; exact hgraded⟩, ?_⟩
      -- what comes down from `v` moves from one side of the sum to the other
      rw [chainDues, Wheel.dues_turn h.1.size, hremaining, hdues, chainDues, hdues', hremaining', h.1.ticks]
      ac_rfl
    · exact chainDues_turn_of_ne h h0

theorem Stacked.turn (hP : P < 2 ^ 64) (h : Stacked P t T (w :: ws)) (hT : T ∣ t + 1) :
    Stacked P (t + 1) T (carry w.turn ws) := by
  induction ws generalizing w T with
  | nil =>
    have hturn := h.1.turn (h.numBuckets_lt hP).2 hT
    unfold carry
    split <;> exact ⟨hturn, h.2⟩
  | cons v vs ih =>
    obtain ⟨hlt, hn⟩ := h.numBuckets_lt hP
    have hturn := h.1.turn hn hT
    have hdvd := carry_dvd h.1 hn hT
    by_cases h0 : w.turn.currBucketIndex.val = 0
    · obtain ⟨hgraded, hn', hcur', -⟩ := Wheel.dues_receive_all (z := 0) (h.graded hP).1.turn h0 hlt
        (h.2.1.offset v.currBucketIndex)
      rw [carry, if_pos h0, loadTimersFromWheel_cons]
      refine ⟨⟨hgraded.pos, hgraded.ticks, ?_, hgraded.offset⟩, by rw [hn']; exact ih h.2 (hdvd.2 h0)⟩
      rw [hcur', hn', ← hturn.cursor, h0]
    · rw [carry, if_neg h0]
      exact ⟨hturn, h.2.later fun hdvd' => h0 (hdvd.1 hdvd')⟩

theorem le_of_mem_chainDues {p : ℕ × Timer} (h : p ∈ chainDues z ws) : z ≤ p.1 := by
  induction ws generalizing z with
  | nil => cases h
  | cons w ws ih =>
    rcases Multiset.mem_add.1 h with h | h
    · obtain ⟨b, -, h⟩ := Multiset.mem_sum.1 h
      obtain ⟨e, -, rfl⟩ := List.mem_map.1 (Multiset.mem_coe.1 h)
      exact Nat.le_add_right_of_le (Nat.le_add_right ..)
    · exact (Nat.le_add_right z w.remaining).trans (ih h)

/-! ### Placements -/

/-- The tick at which a timer with `ticksLeft` ticks that is put into wheel `i` is due. -/
def dueAt (z : ℕ) : List (Wheel Timer) → ℕ → ℕ → ℕ
  | [], _, _ => z
  | w :: _, 0, ticksLeft =>
    z + Ring.dist w.numBuckets w.currBucketIndex
        (w.bucket (SizeT.add w.currBucketIndex (ticksLeft / w.ticksPerBucket))) * w.ticksPerBucket +
      ticksLeft % w.ticksPerBucket
  | w :: ws, i + 1, ticksLeft => dueAt (z + w.remaining) ws i ticksLeft

theorem le_dueAt {i ticksLeft : ℕ} : z ≤ dueAt z ws i ticksLeft := by
  induction ws generalizing z i with
  | nil => rw [dueAt]
  | cons w ws ih =>
    cases i with
    | zero => exact Nat.le_add_right_of_le (Nat.le_add_right ..)
    | succ i => exact (Nat.le_add_right z w.remaining).trans ih

theorem chainDues_place {i ticksLeft : ℕ} (hi : i < ws.length) (timer : Timer) :
    chainDues z (ws.modify i fun w => w.place ticksLeft timer) =
      chainDues z ws + {(dueAt z ws i ticksLeft, timer)} := by
  induction ws generalizing z i with
  | nil => cases hi
  | cons w ws ih =>
    cases i with
    | zero =>
      show (w.place ticksLeft timer).dues z + chainDues (z + w.remaining) ws = _
      rw [Wheel.place, Wheel.dues_push, chainDues, add_right_comm]
      rfl
    | succ i =>
      show w.dues z + chainDues _ (ws.modify i _) = _
      rw [ih (Nat.lt_of_succ_lt_succ hi), chainDues, add_assoc]
      rfl

theorem Graded.place {i ticksLeft : ℕ} (h : Graded T ws) (timer : Timer) :
    Graded T (ws.modify i fun w => w.place ticksLeft timer) := by
  induction ws generalizing T i with
  | nil => rw [List.modify_nil]; exact h
  | cons w ws ih =>
    cases i with
    | zero => exact ⟨h.1.place ticksLeft timer, h.2⟩
    | succ i => exact ⟨h.1, ih h.2⟩

theorem Stacked.place {i ticksLeft : ℕ} (h : Stacked P t T ws) (timer : Timer) :
    Stacked P t T (ws.modify i fun w => w.place ticksLeft timer) := by
  induction ws generalizing T i with
  | nil => rw [List.modify_nil]; exact h
  | cons w ws ih =>
    cases i with
    | zero => exact ⟨h.1.place ticksLeft timer, h.2⟩
    | succ i => exact ⟨h.1, ih h.2⟩

theorem determineTimerWheel_lt : (determineTimerWheel w ws k).1 < (w :: ws).length := by
  induction ws generalizing w k with
  | nil => exact Nat.zero_lt_one
  | cons v vs ih =>
    rw [determineTimerWheel]
    split
    · exact Nat.succ_pos _
    · exact Nat.succ_lt_succ ih

/-- The timer falls into the present turn of the lowest wheel that is not at its first bucket, or into
the turn of the top wheel that begins now. -/
def Aligned : Wheel Timer → List (Wheel Timer) → ℕ → Prop
  | w, [], k => k < w.numBuckets * w.ticksPerBucket
  | w, above :: rest, k =>
    k < w.remaining ∨
      w.currBucketIndex.val = 0 ∧ Aligned above rest (k - w.numBuckets * w.ticksPerBucket)

instance Aligned.decidable : ∀ (w : Wheel Timer) (ws : List (Wheel Timer)) (k : ℕ),
    Decidable (Aligned w ws k)
  | _, [], _ => inferInstanceAs (Decidable (_ < _))
  | w, v :: vs, k =>
    have := Aligned.decidable v vs (k - w.numBuckets * w.ticksPerBucket)
    inferInstanceAs (Decidable (_ ∨ _ ∧ _))

/-- The cursor of a wheel has not run ahead of the ticks. -/
theorem Wheel.Fits.add_div_lt (h : w.Fits t T) (ht : t < 2 ^ 63) (hk : k < 2 ^ 63) :
    w.currBucketIndex + k / T < 2 ^ 64 := by
  have hcur : w.currBucketIndex.val ≤ t := by
    rw [h.cursor]; exact (Nat.mod_le _ _).trans (Nat.div_le_self _ _)
  have hdiv := Nat.div_le_self k T
  omega

theorem dueAt_zero (h : w.Fits t T) (hk : k / T < w.numBuckets)
    (hlt : w.currBucketIndex + k / T < 2 ^ 64) : dueAt z (w :: ws) 0 k = z + k := by
  have hcur := w.currBucketIndex.isLt
  have hbucket : (w.bucket (SizeT.add w.currBucketIndex (k / w.ticksPerBucket))).val =
      (w.currBucketIndex + k / T) % w.numBuckets := by
    rw [h.ticks, SizeT.add_of_lt hlt]; rfl
  have hdist : Ring.dist w.numBuckets w.currBucketIndex
      (w.bucket (SizeT.add w.currBucketIndex (k / w.ticksPerBucket))) = k / T := by
    rw [hbucket]
    generalize k / T = q at hk
    rw [Ring.mod_eq_ite hcur hk.le, Ring.dist]
    split_ifs <;> omega
  rw [dueAt, hdist, h.ticks, Nat.add_assoc, Nat.div_add_mod']

/-- A timer that is aligned is due after the ticks that it was scheduled for. -/
theorem dueAt_determineTimerWheel (hP : P < 2 ^ 64) (h : Stacked P t T (w :: ws)) (ht : t < 2 ^ 63)
    (hk : k < 2 ^ 63) (ha : Aligned w ws k) :
    dueAt z (w :: ws) (determineTimerWheel w ws k).1 (determineTimerWheel w ws k).2 = z + k := by
  induction ws generalizing w T z k with
  | nil =>
    rw [Aligned, h.1.ticks, Nat.mul_comm] at ha
    exact dueAt_zero h.1 (Nat.div_lt_of_lt_mul ha) (h.1.add_div_lt ht hk)
  | cons v vs ih =>
    have hlt := h.1.add_div_lt ht hk
    rw [determineTimerWheel, h.1.ticks, SizeT.add_of_lt hlt]
    split
    · next hfit => exact dueAt_zero h.1 ((Nat.le_add_left ..).trans_lt hfit) hlt
    · next hfit =>
      rw [Aligned, h.1.ticks, Nat.mul_comm] at ha
      rcases ha with ha | ⟨h0, ha⟩
      · -- what falls into the present turn fits into the wheel
        rw [Wheel.remaining, h.1.ticks, Nat.mul_comm] at ha
        exact absurd (Nat.add_lt_of_lt_sub' (Nat.div_lt_of_lt_mul ha)) hfit
      · have hle : T * w.numBuckets ≤ k := by
          rw [h0, Nat.zero_add, Nat.not_lt, Nat.le_div_iff_mul_le h.1.pos, Nat.mul_comm] at hfit
          exact hfit
        have hremaining : w.remaining = T * w.numBuckets := by
          rw [Wheel.remaining, h0, Nat.sub_zero, h.1.ticks, Nat.mul_comm]
        have hsub : SizeT.sub k (SizeT.mul w.numBuckets T) = k - T * w.numBuckets := by
          rw [SizeT.mul, Nat.mul_comm, Nat.mod_eq_of_lt (h.numBuckets_lt hP).1,
            SizeT.sub_of_le hle (by omega)]
        have hnext := ih (z := z + w.remaining) h.2 ((Nat.sub_le ..).trans_lt hk) ha
        rw [hsub]
        show dueAt (z + w.remaining) (v :: vs) _ _ = z + k
        rw [hnext, hremaining]
        omega

end AsyncEry.Timing
