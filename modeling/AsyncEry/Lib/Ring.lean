import Mathlib

/-!
# Ring buffers over a total slot function

A ring of capacity `c` reads its slots through `f : ℕ → α`; the live slots are the `n` slots from
`head` on, indices taken modulo `c`. `Ring.dist c head tail` is the number of slots from `head` to
`tail`, and `Ring.window` the list of the values in them, oldest first. The last section lets the
capacity grow: what is read modulo `c` before is read modulo a larger capacity afterwards when the
wrapped slots have been copied past the old end.
-/

namespace Ring

variable {α : Type*} {c h t i j n : ℕ} {f g : ℕ → α}

/-- The slot after `i`. -/
def next (c i : ℕ) : ℕ := (i + 1) % c

/-- The number of slots from `h` (inclusive) to `t` (exclusive), going upwards and wrapping at `c`. -/
def dist (c h t : ℕ) : ℕ := if h ≤ t then t - h else t + c - h

/-- The values of the `n` slots from `h` on. -/
def window (f : ℕ → α) (c h n : ℕ) : List α := (List.range n).map fun i => f ((h + i) % c)

/-! ### Indices -/

theorem mod_eq_ite (hi : i < c) (hj : j ≤ c) : (i + j) % c = if i + j < c then i + j else i + j - c := by
  split
  · exact Nat.mod_eq_of_lt ‹_›
  · rw [Nat.mod_eq_sub_mod (by omega), Nat.mod_eq_of_lt (by omega)]

theorem next_eq_ite (hi : i < c) : next c i = if i + 1 < c then i + 1 else 0 := by
  rw [next, mod_eq_ite hi (by omega)]
  split <;> omega

theorem next_lt (hi : i < c) : next c i < c := Nat.mod_lt _ (by omega)

theorem dist_lt (hh : h < c) (ht : t < c) : dist c h t < c := by
  unfold dist; split <;> omega

@[simp] theorem dist_self : dist c h h = 0 := by simp [dist]

theorem dist_eq_zero (hh : h < c) : dist c h t = 0 ↔ h = t := by
  unfold dist; split <;> omega

theorem dist_eq_emod (hh : h < c) (ht : t < c) : (dist c h t : ℤ) = ((t : ℤ) - h) % c := by
  unfold dist
  split
  · rw [Int.emod_eq_of_lt (by omega) (by omega)]; omega
  · rw [← Int.add_emod_right, Int.emod_eq_of_lt (by omega) (by omega)]; omega

theorem dist_eq_mod (hh : h < c) (ht : t < c) : dist c h t = (t + (c - h)) % c := by
  rw [mod_eq_ite ht (by omega)]
  unfold dist
  split_ifs <;> omega

theorem add_dist (hh : h < c) (ht : t < c) : (h + dist c h t) % c = t := by
  rw [mod_eq_ite hh (dist_lt hh ht).le]
  unfold dist
  split <;> split <;> omega

theorem dist_next_tail (hh : h < c) (ht : t < c) (hfull : next c t ≠ h) :
    dist c h (next c t) = dist c h t + 1 := by
  rw [next_eq_ite ht] at hfull ⊢
  unfold dist
  split_ifs at hfull ⊢ <;> omega

theorem dist_next_head (hh : h < c) (ht : t < c) (hne : h ≠ t) :
    dist c h t = dist c (next c h) t + 1 := by
  rw [next_eq_ite hh]
  unfold dist
  split_ifs <;> omega

theorem add_mod_inj (hh : h < c) (hi : i < c) (hj : j < c) : (h + i) % c = (h + j) % c ↔ i = j := by
  rw [mod_eq_ite hh hi.le, mod_eq_ite hh hj.le]
  split_ifs <;> omega

theorem next_add : (next c h + i) % c = (h + (i + 1)) % c := by
  rw [next, Nat.mod_add_mod]; congr 1; omega

/-! ### Windows -/

@[simp] theorem window_length : (window f c h n).length = n := by simp [window]

@[simp] theorem window_zero : window f c h 0 = [] := rfl

theorem window_congr (H : ∀ i, i < n → f ((h + i) % c) = g ((h + i) % c)) :
    window f c h n = window g c h n :=
  List.map_congr_left fun i hi => H i (List.mem_range.1 hi)

theorem window_succ_last : window f c h (n + 1) = window f c h n ++ [f ((h + n) % c)] := by
  simp [window, List.range_succ]

theorem window_succ_first (hh : h < c) :
    window f c h (n + 1) = f h :: window f c (next c h) n := by
  simp only [window, List.range_succ_eq_map, List.map_cons, List.map_map, Nat.add_zero,
    Nat.mod_eq_of_lt hh]
  congr 1
  refine List.map_congr_left fun i _ => ?_
  simp only [Function.comp, Nat.succ_eq_add_one]
  rw [next_add]

/-- Writing the slot just behind the window leaves the window alone. -/
theorem window_update_fresh [DecidableEq ℕ] (hh : h < c) (hn : n < c) (x : α) :
    window (Function.update f ((h + n) % c) x) c h n = window f c h n := by
  refine window_congr fun i hi => Function.update_of_ne ?_ _ _
  rw [Ne, add_mod_inj hh (by omega) hn]
  omega

theorem window_push (hh : h < c) (hn : n < c) (x : α) :
    window (Function.update f ((h + n) % c) x) c h (n + 1) = window f c h n ++ [x] := by
  rw [window_succ_last, window_update_fresh hh hn, Function.update_self]

/-! ### Growing -/

/-- A window read modulo `c` is the window read modulo `c'` once every wrapped slot `i` has been
copied to `c + i`. -/
theorem window_grow {c' : ℕ} (hh : h < c) (hn : n ≤ c) (hc : 2 * c ≤ c')
    (low : ∀ i, h ≤ i → i < c → i < h + n → g i = f i)
    (wrapped : ∀ i, c + i < h + n → g (c + i) = f i) :
    window g c' h n = window f c h n := by
  refine List.map_congr_left fun i hi => ?_
  have hi := List.mem_range.1 hi
  rw [Nat.mod_eq_of_lt (by omega : h + i < c'), mod_eq_ite hh (by omega)]
  split
  · exact low _ (by omega) ‹_› (by omega)
  · rw [← wrapped _ (by omega)]; congr 1; omega

end Ring
