import AsyncEry.SpinLock
import AsyncEry.Lib.Lock

/-!
# `SpinLock` as the lock of a `lock_guard`

The steps of a thread that enters a block with a `lock_guard<SpinLock>`, goes round in `lock` and leaves
the block. They are the steps of `SpinLock`, sorted by thread and by what they mean to the block; a free
lock can be had by any thread that goes round alone.
-/

namespace AsyncEry.SpinLock
open Lts

def Point.use : Point → Use
  | .outside => .outside
  | .load _ | .exchange | .sleep => .waits
  | .holds => .holds

variable {Tid : Type} [DecidableEq Tid]

/-- A step of `t` in `lock` after which `lock` goes on. -/
inductive Wait (t : Tid) : SpinLock Tid → SpinLock Tid → Prop
  | load {s i} (h : s.point t = .load i) (seen : Bool) (hseen : seen ∈ s.isAcquired :: s.past) :
      Wait t s (s.goto t (.afterLoad i seen))
  | exchange {s} (h : s.point t = .exchange) (ha : s.isAcquired = true) :
      Wait t s ((s.write true).goto t .sleep)
  | sleep {s} (h : s.point t = .sleep) : Wait t s (s.goto t (.load ⟨0, by decide⟩))

/-- The last step of `t` in `lock`. -/
inductive Acquire (t : Tid) : SpinLock Tid → SpinLock Tid → Prop
  | exchange {s} (h : s.point t = .exchange) (ha : s.isAcquired = false) :
      Acquire t s ((s.write true).goto t .holds)

variable {s s' : SpinLock Tid} {t u : Tid} {p : Point}

theorem use_goto (s : SpinLock Tid) (t : Tid) (p : Point) :
    (fun u => ((s.goto t p).point u).use) =
      Function.update (fun u => (s.point u).use) t p.use :=
  Function.comp_update Point.use s.point t p

theorem Point.use_afterLoad (i : Fin numAttempts) (seen : Bool) : (afterLoad i seen).use = .waits := by
  unfold afterLoad
  split_ifs <;> rfl

theorem Wait.step (h : Wait t s s') : Step s s' := by
  cases h with
  | load h seen hseen => exact .load h seen hseen
  | exchange h ha =>
    have hs := Step.exchange h
    rwa [ha, if_pos rfl] at hs
  | sleep h => exact .sleep h

theorem Acquire.step (h : Acquire t s s') : Step s s' := by
  cases h with
  | exchange h ha =>
    have hs := Step.exchange h
    rwa [ha, if_neg Bool.false_ne_true] at hs

/-- A wait leaves the thread in `lock`. -/
theorem Wait.use_eq (h : Wait t s s') :
    (s.point t).use = .waits ∧ (fun u => (s'.point u).use) = fun u => (s.point u).use := by
  suffices h : ∃ (s₁ : SpinLock Tid) (p : Point), s₁.point = s.point ∧ s' = s₁.goto t p ∧ (s.point t).use = .waits ∧
      p.use = .waits by
    obtain ⟨s₁, p, heq, rfl, hs, hp⟩ := h
    refine ⟨hs, ?_⟩
    rw [use_goto, heq, hp, ← hs]
    exact Function.update_eq_self (f := fun u => (s.point u).use) t
  cases h with
  | load h seen _ => exact ⟨s, _, rfl, rfl, by rw [h]; rfl, Point.use_afterLoad ..⟩
  | exchange h _ => exact ⟨s.write true, _, rfl, rfl, by rw [h]; rfl, rfl⟩
  | sleep h => exact ⟨s, _, rfl, rfl, by rw [h]; rfl, rfl⟩

theorem Point.use_eq_holds : p.use = .holds ↔ p = .holds := by
  cases p <;> simp [use]

/-- The lock has at most one holder, and `is_acquired` says whether there is one. -/
def Sound (s : SpinLock Tid) : Prop := ∃ holder, s.HeldBy holder

omit [DecidableEq Tid] in
/-- A lock that nobody holds is free. -/
theorem Sound.free (h : s.Sound) (hu : ∀ u, (s.point u).use ≠ .holds) : s.isAcquired = false := by
  obtain ⟨holder, h⟩ := h
  rw [h.acquired]
  cases holder with
  | none => rfl
  | some u => exact absurd (Point.use_eq_holds.2 ((h.holds u).2 rfl)) (hu u)

omit [DecidableEq Tid] in
theorem Sound.not_holds (h : s.Sound) (ha : s.isAcquired = false) (u : Tid) :
    (s.point u).use ≠ .holds := by
  obtain ⟨holder, h⟩ := h
  intro hu
  have hholder := (h.holds u).1 (Point.use_eq_holds.1 hu)
  have hacquired := h.acquired
  rw [ha, hholder] at hacquired
  cases hacquired

theorem Sound.step (h : s.Sound) (hs : Step s s') : s'.Sound := by
  obtain ⟨holder, h⟩ := h
  obtain ⟨holder', -, h'⟩ := hs.handover h
  exact ⟨holder', h'⟩

/-- A thread that finds the lock free at every load and exchange gets it in the first round. -/
theorem exists_acquire (hfree : s.isAcquired = false) (ht : (s.point t).use = .waits) :
    ∃ s₁ s₂, Relation.ReflTransGen (Wait t) s s₁ ∧ Acquire t s₁ s₂ := by
  have hexchange : ∀ s : SpinLock Tid, s.isAcquired = false → s.point t = .exchange →
      ∃ s₁ s₂, Relation.ReflTransGen (Wait t) s s₁ ∧ Acquire t s₁ s₂ :=
    fun s hfree hp => ⟨s, _, .refl, .exchange hp hfree⟩
  have hload : ∀ (s : SpinLock Tid) (i : Fin numAttempts), s.isAcquired = false →
      s.point t = .load i → ∃ s₁ s₂, Relation.ReflTransGen (Wait t) s s₁ ∧ Acquire t s₁ s₂ := by
    intro s i hfree hp
    have hwait : Wait t s (s.goto t .exchange) := .load hp false (by rw [hfree]; exact .head _)
    obtain ⟨s₁, s₂, h₁, h₂⟩ := hexchange (s.goto t .exchange) hfree (Function.update_self ..)
    exact ⟨s₁, s₂, .head hwait h₁, h₂⟩
  cases hp : s.point t with
  | outside | holds =>
    rw [hp] at ht
    cases ht
  | load i => exact hload s i hfree hp
  | exchange => exact hexchange s hfree hp
  | sleep =>
    obtain ⟨s₁, s₂, h₁, h₂⟩ := hload (s.goto t (.load ⟨0, by decide⟩)) ⟨0, by decide⟩ hfree
      (Function.update_self ..)
    exact ⟨s₁, s₂, .head (.sleep hp) h₁, h₂⟩

/-- `std::lock_guard<SpinLock>`: `unlock` stores `false` whoever calls it. -/
def guard : Lock Tid (SpinLock Tid) where
  init := Init
  call t s s' := s.point t = .outside ∧ s' = s.goto t (.load ⟨0, by decide⟩)
  wait := Wait
  acquire := Acquire
  release t s s' := s' = (s.write false).goto t .outside
  inv := Sound
  use s t := (s.point t).use
  of_init h := ⟨⟨none, .init h⟩, fun t => by subst h; rfl⟩
  exclusive := by
    rintro s t u ⟨holder, h⟩ ht hu
    have ht := (h.holds t).1 (Point.use_eq_holds.1 ht)
    exact Option.some.inj (ht.symm.trans ((h.holds u).1 (Point.use_eq_holds.1 hu)))
  of_call := by
    rintro t s s' hs - ⟨hp, rfl⟩
    exact ⟨hs.step (.lock hp), use_goto ..⟩
  of_wait hs _ h := ⟨hs.step h.step, h.use_eq.2⟩
  of_acquire := by
    rintro t s s' hs - h
    refine ⟨hs.step h.step, ?_⟩
    cases h with
    | exchange hp ha => exact ⟨hs.not_holds ha, use_goto (s.write true) t .holds⟩
  of_release := by
    rintro t s s' hs ht rfl
    exact ⟨hs.step (.unlock (Point.use_eq_holds.1 ht)), use_goto (s.write false) t .outside⟩
  can_call := by
    intro t s ht
    refine ⟨_, ?_, rfl⟩
    cases hp : s.point t with
    | outside => rfl
    | _ => rw [hp] at ht; cases ht
  can_acquire hs ht hfree := exists_acquire (hs.free hfree) ht
  can_release _ := ⟨_, rfl⟩

end AsyncEry.SpinLock
