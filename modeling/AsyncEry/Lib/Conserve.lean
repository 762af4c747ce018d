import Mathlib

/-!
# What a family of containers holds, and what it owes

`∑ j ∈ s, g (f j)` measures by `g` what a family `f` of containers holds. Replacing one container
changes the sum by what was put in or taken out. `s.filterMap f` are the answers given so far to the
requests `s`; answering those that satisfy `p` adds theirs.
-/

namespace Conserve

variable {ι β M : Type*} [DecidableEq ι] [AddCommMonoid M] {s : Finset ι} {i : ι} {g : β → M}
  {f : ι → β} {b : β} {x y : M}

theorem sum_update (hi : i ∈ s) :
    ∑ j ∈ s, g (Function.update f i b j) = g b + ∑ j ∈ s \ {i}, g (f j) := by
  have h := Finset.sum_update_of_mem hi (fun j => g (f j)) (g b)
  rw [← h]
  refine Finset.sum_congr rfl fun j _ => ?_
  by_cases hj : j = i
  · subst hj; simp
  · simp [Function.update_of_ne hj]

/-- Exchanging: container `i` loses `x` and gains `y`. -/
theorem sum_exchange (hi : i ∈ s) (h : g b + x = g (f i) + y) :
    ∑ j ∈ s, g (Function.update f i b j) + x = ∑ j ∈ s, g (f j) + y := by
  rw [sum_update hi, Finset.sum_eq_add_sum_sdiff_singleton_of_mem hi, add_right_comm, h,
    add_right_comm]

theorem sum_take (hi : i ∈ s) (h : g (f i) = g b + x) :
    ∑ j ∈ s, g (Function.update f i b j) + x = ∑ j ∈ s, g (f j) := by
  rw [sum_exchange hi (h.symm.trans (add_zero _).symm), add_zero]

theorem sum_put (hi : i ∈ s) (h : g b = g (f i) + x) :
    ∑ j ∈ s, g (Function.update f i b j) = ∑ j ∈ s, g (f j) + x := by
  rw [← sum_exchange hi ((add_zero _).trans h), add_zero]

variable {α γ : Type*} {r : Multiset α} {ans ans' : α → Option γ} {p q p' : α → Prop}
  [DecidablePred p] [DecidablePred q] [DecidablePred p']

theorem filterMap_congr (h : ∀ a ∈ r, ans' a = ans a) : r.filterMap ans' = r.filterMap ans := by
  induction r using Multiset.induction with
  | empty => rfl
  | cons a r ih =>
    rw [Multiset.filterMap_cons, Multiset.filterMap_cons, h a (Multiset.mem_cons_self ..),
      ih fun b hb => h b (Multiset.mem_cons_of_mem hb)]

/-- The requests in `p` get the answers `f`, the others keep what they had. -/
theorem filterMap_answer {f : α → γ} (hp : ∀ a ∈ r, p a → ans a = none ∧ ans' a = some (f a))
    (hn : ∀ a ∈ r, ¬ p a → ans' a = ans a) :
    r.filterMap ans' = r.filterMap ans + (r.filter p).map f := by
  induction r using Multiset.induction with
  | empty => rfl
  | cons a r ih =>
    have ih := ih (fun b hb => hp b (Multiset.mem_cons_of_mem hb))
      fun b hb => hn b (Multiset.mem_cons_of_mem hb)
    by_cases ha : p a
    · obtain ⟨h, h'⟩ := hp a (Multiset.mem_cons_self ..) ha
      rw [Multiset.filterMap_cons_some _ _ _ h', Multiset.filterMap_cons_none _ _ h,
        Multiset.filter_cons_of_pos _ ha, Multiset.map_cons, ih, Multiset.add_cons]
    · rw [Multiset.filterMap_cons, Multiset.filterMap_cons, hn a (Multiset.mem_cons_self ..) ha,
        Multiset.filter_cons_of_neg _ ha, ih, add_assoc]

/-- A class of requests to which a disjoint class is added. -/
theorem filter_join (hp : ∀ a ∈ r, p' a ↔ p a ∨ q a) (hpq : ∀ a ∈ r, p a → ¬ q a) :
    r.filter p' = r.filter p + r.filter q := by
  have hnone : r.filter (fun a => p a ∧ q a) = 0 :=
    Multiset.filter_eq_nil.2 fun a ha h => hpq a ha h.1 h.2
  rw [Multiset.filter_add_filter, hnone, add_zero]
  exact Multiset.filter_congr hp

theorem filterMap_sublist_map {κ : Type*} {l : List α} {key : α → κ} {F : α → Option κ}
    (hF : ∀ a ∈ l, ∀ k, F a = some k → k = key a) : (l.filterMap F).Sublist (l.map key) := by
  induction l with
  | nil => exact .slnil
  | cons x l ih =>
    have ih := ih fun b hb => hF b (List.mem_cons_of_mem x hb)
    cases hFx : F x with
    | none => rw [List.filterMap_cons_none hFx, List.map_cons]; exact ih.cons _
    | some k =>
      obtain rfl := hF x (List.mem_cons_self ..) k hFx
      rw [List.filterMap_cons_some hFx, List.map_cons]; exact ih.cons_cons _

/-- Requests with different keys that are answered by their key are each answered once or not. -/
theorem count_filterMap {κ : Type*} [DecidableEq κ] {l : List α} {key : α → κ} {F : α → Option κ}
    (hnd : (l.map key).Nodup) (hF : ∀ a ∈ l, ∀ k, F a = some k → k = key a) {a : α} (ha : a ∈ l) :
    (l.filterMap F).count (key a) = if (F a).isSome then 1 else 0 := by
  induction l with
  | nil => cases ha
  | cons x l ih =>
    rw [List.map_cons, List.nodup_cons] at hnd
    have hF' := fun b hb => hF b (List.mem_cons_of_mem x hb)
    rcases List.mem_cons.1 ha with rfl | ha
    · have hzero : (l.filterMap F).count (key a) = 0 := by
        rw [List.count_eq_zero]
        intro hmem
        obtain ⟨b, hb, hFb⟩ := List.mem_filterMap.1 hmem
        rw [hF' b hb _ hFb] at hnd
        exact hnd.1 (List.mem_map_of_mem hb)
      cases hFa : F a with
      | none => rw [List.filterMap_cons_none hFa, hzero]; rfl
      | some k =>
        obtain rfl := hF a (List.mem_cons_self ..) k hFa
        rw [List.filterMap_cons_some hFa, List.count_cons_self, hzero]; rfl
    · rw [← ih hnd.2 hF' ha]
      cases hFx : F x with
      | none => rw [List.filterMap_cons_none hFx]
      | some k =>
        obtain rfl := hF x (List.mem_cons_self ..) k hFx
        rw [List.filterMap_cons_some hFx, List.count_cons_of_ne]
        intro heq
        exact hnd.1 (heq ▸ List.mem_map_of_mem ha)

/-- Of the answers to the entries of a list, the one to entry `id`. -/
theorem filterMap_zipIdx (l : List α) (g : α → Option β) (id : ℕ) :
    (l.zipIdx.filterMap fun o => if o.2 = id then g o.1 else none) = (l[id]?.bind g).toList := by
  induction l using List.reverseRecOn with
  | nil => rfl
  | append_singleton l a ih =>
    rw [List.zipIdx_append, List.filterMap_append, ih]
    rcases Nat.lt_trichotomy id l.length with hlt | rfl | hlt
    · rw [List.getElem?_append_left hlt]
      simp [Nat.ne_of_gt hlt]
    · cases hg : g a <;> simp [hg]
    · have hnone : (l ++ [a])[id]? = none := List.getElem?_eq_none (by simpa using hlt)
      rw [hnone, List.getElem?_eq_none hlt.le]
      simp [Nat.ne_of_lt hlt]

end Conserve
