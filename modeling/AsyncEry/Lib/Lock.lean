import Mathlib

/-!
# Locks

A lock by what a thread does with it: it calls `lock`, takes steps in it until it returns, and unlocks.
`Lock` states what every implementation owes to those who use it: a thread whose `lock` returns is the
only one inside, and if nobody is inside a thread that waits can get in. From outside such a lock is
either free or has a `holder`.
-/

namespace Lts

/-- How a thread stands to a lock. -/
inductive Use
  | outside
  | waits
  | holds
deriving DecidableEq

/-- `call`, `wait`, `acquire` and `release` are the steps of a thread: into `lock`, in it, out of it, and
`unlock`. -/
structure Lock (Tid L : Type*) [DecidableEq Tid] where
  init : L → Prop
  call : Tid → L → L → Prop
  wait : Tid → L → L → Prop
  acquire : Tid → L → L → Prop
  release : Tid → L → L → Prop
  inv : L → Prop
  use : L → Tid → Use
  of_init : ∀ {l}, init l → inv l ∧ ∀ t, use l t = .outside
  exclusive : ∀ {l t u}, inv l → use l t = .holds → use l u = .holds → t = u
  of_call : ∀ {t l l'}, inv l → use l t = .outside → call t l l' →
    inv l' ∧ use l' = Function.update (use l) t .waits
  of_wait : ∀ {t l l'}, inv l → use l t = .waits → wait t l l' → inv l' ∧ use l' = use l
  of_acquire : ∀ {t l l'}, inv l → use l t = .waits → acquire t l l' →
    inv l' ∧ (∀ u, use l u ≠ .holds) ∧ use l' = Function.update (use l) t .holds
  of_release : ∀ {t l l'}, inv l → use l t = .holds → release t l l' →
    inv l' ∧ use l' = Function.update (use l) t .outside
  can_call : ∀ {t l}, use l t = .outside → ∃ l', call t l l'
  can_acquire : ∀ {t l}, inv l → use l t = .waits → (∀ u, use l u ≠ .holds) →
    ∃ l₁ l₂, Relation.ReflTransGen (wait t) l l₁ ∧ acquire t l₁ l₂
  can_release : ∀ {t l}, use l t = .holds → ∃ l', release t l l'

namespace Lock
variable {Tid L : Type*} [DecidableEq Tid] {K : Lock Tid L} {l l' : L} {t u : Tid}

open scoped Classical in
/-- The thread that has the lock. -/
noncomputable def holder (K : Lock Tid L) (l : L) : Option Tid :=
  if h : ∃ t, K.use l t = .holds then some h.choose else none

theorem holder_eq_none : K.holder l = none ↔ ∀ t, K.use l t ≠ .holds := by
  unfold holder
  split_ifs with h
  · exact iff_of_false nofun fun hnone => hnone _ h.choose_spec
  · exact iff_of_true rfl fun t ht => h ⟨t, ht⟩

theorem holder_eq_some (hl : K.inv l) : K.holder l = some t ↔ K.use l t = .holds := by
  unfold holder
  split_ifs with h
  · have hspec := h.choose_spec
    constructor
    · intro heq
      rw [← Option.some.inj heq]
      exact hspec
    · intro ht
      exact congrArg some (K.exclusive hl hspec ht)
  · exact iff_of_false nofun fun ht => h ⟨t, ht⟩

theorem holder_of_call (hl : K.inv l) (ht : K.use l t = .outside) (h : K.call t l l') :
    K.holder l' = K.holder l := by
  obtain ⟨hl', huse⟩ := K.of_call hl ht h
  refine Option.ext fun u => ?_
  rw [holder_eq_some hl', holder_eq_some hl, huse]
  by_cases hu : u = t
  · subst hu
    rw [Function.update_self, ht]
    exact iff_of_false nofun nofun
  · rw [Function.update_of_ne hu]

theorem holder_of_wait (hl : K.inv l) (ht : K.use l t = .waits) (h : K.wait t l l') :
    K.holder l' = K.holder l := by
  obtain ⟨-, huse⟩ := K.of_wait hl ht h
  unfold holder
  rw [huse]

theorem holder_of_acquire (hl : K.inv l) (ht : K.use l t = .waits) (h : K.acquire t l l') :
    K.holder l = none ∧ K.holder l' = some t := by
  obtain ⟨hl', hfree, huse⟩ := K.of_acquire hl ht h
  refine ⟨holder_eq_none.2 hfree, (holder_eq_some hl').2 ?_⟩
  rw [huse, Function.update_self]

theorem holder_of_release (hl : K.inv l) (ht : K.use l t = .holds) (h : K.release t l l') :
    K.holder l' = none := by
  obtain ⟨-, huse⟩ := K.of_release hl ht h
  refine holder_eq_none.2 fun u hu => ?_
  rw [huse] at hu
  by_cases hut : u = t
  · subst hut
    rw [Function.update_self] at hu
    exact Use.noConfusion hu
  · rw [Function.update_of_ne hut] at hu
    exact hut (K.exclusive hl hu ht)

end Lock
end Lts
