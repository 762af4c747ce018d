import Mathlib

/-!
# A calendar

What a timer queue is for: a value is booked for a tick, and letting ticks pass hands over the values
booked for them, earlier ticks first and values of one tick in the order of booking. Nothing is ever
removed, so a calendar also says what has been handed over. `pending` is what is still to come, which
is what a data structure behind the interface has to hold.
-/

/-- The ticks before `now` have passed. -/
structure Calendar (α : Type*) where
  now : ℕ
  booked : List (ℕ × α)

namespace Calendar

variable {α : Type*} {c : Calendar α} {a : α} {t n : ℕ}

def empty : Calendar α := ⟨0, []⟩

def book (c : Calendar α) (t : ℕ) (a : α) : Calendar α := { c with booked := c.booked ++ [(t, a)] }

/-- What is booked for tick `t`. -/
def due (c : Calendar α) (t : ℕ) : List α := (c.booked.filter fun p => p.1 = t).map Prod.snd

/-- Let `n` ticks pass. -/
def skip (c : Calendar α) (n : ℕ) : Calendar α := { c with now := c.now + n }

/-- What these `n` ticks hand over. -/
def handOver (c : Calendar α) (n : ℕ) : List α := (List.range' c.now n).flatMap c.due

/-- What is still to come. -/
def pending (c : Calendar α) : Multiset (ℕ × α) := (c.booked : Multiset _).filter fun p => c.now ≤ p.1

theorem due_book : (c.book t a).due n = c.due n ++ if t = n then [a] else [] := by
  unfold due book
  rw [List.filter_append, List.map_append]
  congr 1
  by_cases h : t = n <;> simp [h]

theorem handOver_succ : c.handOver (n + 1) = c.due c.now ++ (c.skip 1).handOver n := by
  unfold handOver
  rw [List.range'_succ, List.flatMap_cons]
  rfl

theorem skip_skip (m : ℕ) : (c.skip m).skip n = c.skip (m + n) := by
  unfold skip
  rw [Nat.add_assoc]

theorem mem_handOver : a ∈ c.handOver n ↔ ∃ t, (t, a) ∈ c.booked ∧ c.now ≤ t ∧ t < c.now + n := by
  simp only [handOver, due, List.mem_flatMap, List.mem_range'_1, List.mem_map, List.mem_filter,
    decide_eq_true_eq]
  constructor
  · rintro ⟨t, ht, ⟨t', a'⟩, ⟨hmem, rfl⟩, rfl⟩
    exact ⟨t', hmem, ht⟩
  · rintro ⟨t, hmem, ht⟩
    exact ⟨t, ht, (t, a), ⟨hmem, rfl⟩, rfl⟩

/-- A hand-over is sorted by tick, and has the values of each of its ticks in the order of booking. -/
theorem handOver_sorted (c : Calendar α) (n : ℕ) : ∃ l : List (ℕ × α), c.handOver n = l.map Prod.snd ∧
    l.Pairwise (fun p q => p.1 ≤ q.1) ∧
    ∀ t, l.filter (fun p => p.1 = t) =
      if c.now ≤ t ∧ t < c.now + n then c.booked.filter (fun p => p.1 = t) else [] := by
  induction n generalizing c with
  | zero =>
    refine ⟨[], rfl, .nil, fun t => ?_⟩
    rw [if_neg (by omega)]
    rfl
  | succ n ih =>
    obtain ⟨l, hl, hsorted, hfilter⟩ := ih (c.skip 1)
    have hlater : ∀ q ∈ l, c.now + 1 ≤ q.1 := by
      intro q hq
      have hmem : q ∈ l.filter fun p => p.1 = q.1 := List.mem_filter.2 ⟨hq, decide_eq_true rfl⟩
      rw [hfilter] at hmem
      split at hmem
      · next h => exact h.1
      · cases hmem
    have hfirst : ∀ p ∈ c.booked.filter fun p => p.1 = c.now, p.1 = c.now := fun p hp =>
      of_decide_eq_true (List.mem_filter.1 hp).2
    refine ⟨c.booked.filter (fun p => p.1 = c.now) ++ l, ?_, ?_, fun t => ?_⟩
    · rw [handOver_succ, hl, List.map_append, due]
    · refine List.pairwise_append.2 ⟨?_, hsorted, fun p hp q hq => ?_⟩
      · exact List.pairwise_of_forall_mem_list fun p hp q hq => by rw [hfirst p hp, hfirst q hq]
      · have := hfirst p hp
        have := hlater q hq
        omega
    · rw [List.filter_append, hfilter, List.filter_filter]
      show _ ++ (if c.now + 1 ≤ t ∧ t < c.now + 1 + n then c.booked.filter _ else []) = _
      by_cases ht : c.now = t
      · subst ht
        rw [if_neg (by omega), if_pos (by omega), List.append_nil]
        exact List.filter_congr fun p _ => Bool.and_self _
      · have hnil : c.booked.filter (fun p => decide (p.1 = t) && decide (p.1 = c.now)) = [] :=
          List.filter_eq_nil_iff.2 fun p _ h => by
            rw [Bool.and_eq_true, decide_eq_true_eq, decide_eq_true_eq] at h
            exact ht (h.2.symm.trans h.1)
        rw [hnil, List.nil_append]
        exact if_congr (by omega) rfl rfl

theorem pending_book (ht : c.now ≤ t) : (c.book t a).pending = c.pending + {(t, a)} := by
  unfold pending book
  rw [← Multiset.coe_add, Multiset.filter_add]
  congr 1
  exact Multiset.filter_eq_self.2 fun p hp => by cases List.mem_singleton.1 hp; exact ht

theorem pending_skip : (c.skip n).pending = c.pending.filter fun p => c.now + n ≤ p.1 := by
  unfold pending skip
  rw [Multiset.filter_filter]
  exact Multiset.filter_congr fun p _ => by dsimp only; omega

theorem filter_add_pending (c : Calendar α) :
    (c.booked : Multiset (ℕ × α)).filter (fun p => p.1 < c.now) + c.pending = c.booked := by
  conv_rhs => rw [← Multiset.filter_add_not (fun p : ℕ × α => p.1 < c.now) (c.booked : Multiset (ℕ × α))]
  congr 1
  exact Multiset.filter_congr fun p _ => by omega

theorem due_now : (c.due c.now : Multiset α) =
    (c.pending.filter fun p => ¬ c.now + 1 ≤ p.1).map Prod.snd := by
  unfold due pending
  rw [← Multiset.map_coe, ← Multiset.filter_coe, Multiset.filter_filter]
  congr 1
  exact Multiset.filter_congr fun p _ => by omega

theorem handOver_add_pending (c : Calendar α) (n : ℕ) :
    (c.handOver n : Multiset α) + (c.skip n).pending.map Prod.snd = c.pending.map Prod.snd := by
  induction n generalizing c with
  | zero => exact zero_add _
  | succ n ih =>
    have hskip := ih (c.skip 1)
    rw [skip_skip, Nat.add_comm 1 n] at hskip
    rw [handOver_succ, ← Multiset.coe_add, add_assoc, hskip, due_now, pending_skip, ← Multiset.map_add,
      add_comm, Multiset.filter_add_not]

theorem handOver_eq_filter (c : Calendar α) (n : ℕ) : (c.handOver n : Multiset α) =
    ((c.booked : Multiset (ℕ × α)).filter fun p => c.now ≤ p.1 ∧ p.1 < c.now + n).map Prod.snd := by
  have hsplit := congrArg (Multiset.map Prod.snd)
    (Multiset.filter_add_not (fun p : ℕ × α => c.now + n ≤ p.1) c.pending)
  rw [← pending_skip, Multiset.map_add, add_comm] at hsplit
  rw [add_right_cancel ((c.handOver_add_pending n).trans hsplit.symm), pending, Multiset.filter_filter]
  congr 1
  exact Multiset.filter_congr fun p _ => by omega

/-- What is pending splits into what the present tick hands over and what the later ones do: a
structure that holds what is pending, and gives up `out` for the present tick while the rest of it is
for later ones, gives up what is due. -/
theorem split_pending {β : Type*} (f : α → β) {out : Multiset β} {rest : Multiset (ℕ × β)}
    (h : out.map (fun b => (c.now, b)) + rest = c.pending.map (Prod.map id f))
    (hrest : ∀ p ∈ rest, c.now + 1 ≤ p.1) :
    out = (c.due c.now : Multiset α).map f ∧ rest = (c.skip 1).pending.map (Prod.map id f) := by
  have hout : ∀ p ∈ out.map (fun b => (c.now, b)), ¬ c.now + 1 ≤ p.1 := by
    intro p hp
    obtain ⟨b, -, rfl⟩ := Multiset.mem_map.1 hp
    exact Nat.not_succ_le_self _
  constructor
  · have hnow := congrArg (Multiset.filter fun p => ¬ c.now + 1 ≤ p.1) h
    rw [Multiset.filter_add, Multiset.filter_eq_self.2 hout,
      Multiset.filter_eq_nil.2 fun p hp => not_not.2 (hrest p hp), add_zero, Multiset.filter_map] at hnow
    have hsnd := congrArg (Multiset.map Prod.snd) hnow
    rw [Multiset.map_map, Multiset.map_map] at hsnd
    rw [due_now, Multiset.map_map]
    exact (Multiset.map_id' out).symm.trans hsnd
  · have hlater := congrArg (Multiset.filter fun p => c.now + 1 ≤ p.1) h
    rw [Multiset.filter_add, Multiset.filter_eq_nil.2 hout, Multiset.filter_eq_self.2 hrest, zero_add,
      Multiset.filter_map] at hlater
    rw [hlater, pending_skip]
    rfl

end Calendar
