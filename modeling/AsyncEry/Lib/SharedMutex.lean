import Mathlib

/-!
# Shared mutexes

A shared mutex is held by any number of threads in shared mode or by one thread in unique mode.
`hold` says how each thread holds it; a thread may leave, keep what it has, or come in when the mutex
lets it, and by each such move the mutex stays exclusive.
-/

/-- How a thread holds a shared mutex. -/
inductive Hold
  | none
  | shared
  | unique
deriving DecidableEq

namespace SharedMutex

variable {ι : Type*} {hold : ι → Hold} {i j : ι} {x : Hold}

/-- `lock_shared` goes through. -/
def CanShare (hold : ι → Hold) : Prop := ∀ i, hold i ≠ .unique

/-- `lock` goes through. -/
def CanOwn (hold : ι → Hold) : Prop := ∀ i, hold i = .none

instance [Fintype ι] : Decidable (CanShare hold) := inferInstanceAs (Decidable (∀ i, hold i ≠ .unique))

instance [Fintype ι] : Decidable (CanOwn hold) := inferInstanceAs (Decidable (∀ i, hold i = .none))

/-- Nobody is in beside a unique holder. -/
def Exclusive (hold : ι → Hold) : Prop := ∀ i j, i ≠ j → hold i = .unique → hold j = .none

/-- What thread `i` may go over to. -/
inductive Move (hold : ι → Hold) (i : ι) : Hold → Prop
  | leave : Move hold i .none
  | keep {x : Hold} (h : hold i = x) : Move hold i x
  | share (h : CanShare hold) : Move hold i .shared
  | own (h : CanOwn hold) : Move hold i .unique

theorem Exclusive.none_of_unique (h : Exclusive hold) (hi : hold i = .unique) (hne : j ≠ i) :
    hold j = .none := h i j hne.symm hi

theorem Exclusive.move [DecidableEq ι] (h : Exclusive hold) (hmove : Move hold i x) :
    Exclusive (Function.update hold i x) := by
  intro a b hab ha
  by_cases hai : a = i
  · subst hai
    rw [Function.update_self] at ha
    rw [Function.update_of_ne hab.symm]
    cases hmove with
    | leave => cases ha
    | keep hkeep => exact h a b hab (hkeep.trans ha)
    | share => cases ha
    | own hown => exact hown b
  · rw [Function.update_of_ne hai] at ha
    by_cases hbi : b = i
    · subst hbi
      rw [Function.update_self]
      cases hmove with
      | leave => rfl
      | keep hkeep => exact hkeep.symm.trans (h a b hab ha)
      | share hshare => exact absurd ha (hshare a)
      | own hown => exact absurd ((hown a).symm.trans ha) nofun
    · rw [Function.update_of_ne hbi]
      exact h a b hab ha

end SharedMutex
