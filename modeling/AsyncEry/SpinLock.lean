import AsyncEry.Lib.Run

/-!
# `SpinLock` gives mutual exclusion

Each access to `is_acquired` is a step of its own, and the steps of any number of threads interleave.
Many threads may have seen the lock free, and those that lose the exchange write `true` as well; what
decides is the value that the exchange returns. A load is relaxed, so it may see any value that
`is_acquired` has had, and nothing rests on it. The lock refines one that is free or has a holder.
-/

namespace AsyncEry
open Lts

namespace SpinLock

def numAttempts : ℕ := 15

/-- Where a thread stands; in a call of `lock`, before the step it is named after. -/
inductive Point
  | outside
  /-- The load number `i` of a round. -/
  | load (i : Fin numAttempts)
  | exchange
  | sleep
  /-- `lock` has returned, and `unlock` has not been called. -/
  | holds
deriving DecidableEq

/-- Where the thread goes after the load number `i`. -/
def Point.afterLoad (i : Fin numAttempts) (seen : Bool) : Point :=
  if !seen then .exchange
  else if h : i + 1 < numAttempts then .load ⟨i + 1, h⟩
  else .sleep

end SpinLock

/-- `is_acquired`, the values it had before, and where every thread stands. -/
structure SpinLock (Tid : Type) where
  isAcquired : Bool
  past : List Bool
  point : Tid → SpinLock.Point

namespace SpinLock

variable {Tid : Type} [DecidableEq Tid]

/-- Thread `t` moves on to `p`. -/
def goto (s : SpinLock Tid) (t : Tid) (p : Point) : SpinLock Tid :=
  { s with point := Function.update s.point t p }

/-- `is_acquired` gets the value `b`. -/
def write (s : SpinLock Tid) (b : Bool) : SpinLock Tid :=
  { s with isAcquired := b, past := s.isAcquired :: s.past }

/-- The lock is free, and every thread outside. -/
def Init (s : SpinLock Tid) : Prop := s = ⟨false, [], fun _ => .outside⟩

/-- One atomic step of one thread. -/
inductive Step : SpinLock Tid → SpinLock Tid → Prop
  | lock {s t} (h : s.point t = .outside) : Step s (s.goto t (.load ⟨0, by decide⟩))
  | load {s t i} (h : s.point t = .load i) (seen : Bool) (hseen : seen ∈ s.isAcquired :: s.past) :
      Step s (s.goto t (.afterLoad i seen))
  /-- `!is_acquired.exchange(true)`: `lock` returns when the value was `false`. -/
  | exchange {s t} (h : s.point t = .exchange) :
      Step s ((s.write true).goto t (if s.isAcquired then .sleep else .holds))
  | sleep {s t} (h : s.point t = .sleep) : Step s (s.goto t (.load ⟨0, by decide⟩))
  | unlock {s t} (h : s.point t = .holds) : Step s ((s.write false).goto t .outside)

/-- The lock as seen from outside: `holder` is the thread that has it. -/
structure HeldBy (holder : Option Tid) (s : SpinLock Tid) : Prop where
  acquired : s.isAcquired = holder.isSome
  holds : ∀ t, s.point t = .holds ↔ holder = some t

/-- What may happen to a lock that is free or has a holder. -/
inductive Handover : Option Tid → Option Tid → Prop
  | stay {holder} : Handover holder holder
  | acquire (t : Tid) : Handover none (some t)
  | release (t : Tid) : Handover (some t) none

variable {s s' : SpinLock Tid} {holder : Option Tid} {t : Tid} {p : Point}

namespace HeldBy

omit [DecidableEq Tid] in
theorem init (h : Init s) : s.HeldBy none := by
  subst h
  exact ⟨rfl, fun t => iff_of_false nofun nofun⟩

/-- A thread that does not hold the lock goes somewhere else without it. -/
theorem goto (h : s.HeldBy holder) (ht : s.point t ≠ .holds) (hp : p ≠ .holds) :
    (s.goto t p).HeldBy holder := by
  refine ⟨h.acquired, fun u => ?_⟩
  show Function.update s.point t p u = .holds ↔ _
  by_cases hu : u = t
  · subst hu
    rw [Function.update_self, ← h.holds u]
    exact iff_of_false hp ht
  · rw [Function.update_of_ne hu]
    exact h.holds u

theorem acquire (h : s.HeldBy none) : ((s.write true).goto t .holds).HeldBy (some t) := by
  refine ⟨rfl, fun u => ?_⟩
  show Function.update s.point t .holds u = .holds ↔ _
  by_cases hu : u = t
  · subst hu
    rw [Function.update_self]
    exact iff_of_true rfl rfl
  · rw [Function.update_of_ne hu, h.holds u]
    exact iff_of_false nofun fun heq => hu (Option.some.inj heq).symm

theorem release (h : s.HeldBy (some t)) : ((s.write false).goto t .outside).HeldBy none := by
  refine ⟨rfl, fun u => ?_⟩
  show Function.update s.point t .outside u = .holds ↔ _
  by_cases hu : u = t
  · subst hu
    rw [Function.update_self]
    exact iff_of_false nofun nofun
  · rw [Function.update_of_ne hu, h.holds u]
    exact iff_of_false (fun heq => hu (Option.some.inj heq).symm) nofun

end HeldBy

theorem Point.afterLoad_ne (i : Fin numAttempts) (seen : Bool) : Point.afterLoad i seen ≠ .holds := by
  unfold Point.afterLoad
  split_ifs <;> nofun

/-- Every step of every thread is a move of the lock as seen from outside. -/
theorem Step.handover (hs : Step s s') (h : s.HeldBy holder) :
    ∃ holder', Handover holder holder' ∧ s'.HeldBy holder' := by
  cases hs with
  | lock ht => exact ⟨_, .stay, h.goto (by rw [ht]; nofun) nofun⟩
  | load ht seen _ => exact ⟨_, .stay, h.goto (by rw [ht]; nofun) (Point.afterLoad_ne _ seen)⟩
  | @exchange t ht =>
    have hacquired := h.acquired
    cases holder with
    | none =>
      -- the exchange finds the lock free, whatever the loads before it saw
      rw [hacquired]
      exact ⟨some t, .acquire t, h.acquire⟩
    | some u =>
      rw [hacquired]
      have hwrite : (s.write true).HeldBy (some u) := ⟨rfl, h.holds⟩
      exact ⟨some u, .stay, hwrite.goto (t := t) (by rw [show (s.write true).point t = _ from ht]; nofun) nofun⟩
  | sleep ht => exact ⟨_, .stay, h.goto (by rw [ht]; nofun) nofun⟩
  | @unlock t ht =>
    obtain rfl := (h.holds t).1 ht
    exact ⟨none, .release t, h.release⟩

/-- In every state of every run, at most one thread is between a `lock` that has returned and its
`unlock`, and `is_acquired` is `true` exactly when there is one. -/
theorem run_mutual_exclusion (r : Run (Init : SpinLock Tid → Prop) Step) (k : ℕ) :
    (∀ t u, (r.state k).point t = .holds → (r.state k).point u = .holds → t = u) ∧
      ((r.state k).isAcquired = true ↔ ∃ t, (r.state k).point t = .holds) := by
  have hinv : Inductive (Init : SpinLock Tid → Prop) Step fun s => ∃ holder, s.HeldBy holder :=
    ⟨fun s h => ⟨none, .init h⟩, fun s s' ⟨_, h⟩ hs => (hs.handover h).imp fun _ => And.right⟩
  obtain ⟨holder, h⟩ := hinv.reach (r.reach k)
  refine ⟨fun t u ht hu => ?_, ?_⟩
  · exact Option.some.inj (((h.holds t).1 ht).symm.trans ((h.holds u).1 hu))
  · rw [h.acquired, Option.isSome_iff_exists]
    exact exists_congr fun t => (h.holds t).symm

end SpinLock
end AsyncEry
