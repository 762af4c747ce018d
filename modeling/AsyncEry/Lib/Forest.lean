import Mathlib

/-!
# Following pointers in a forest

`next c` is the node that `c` points at, if any. Pointers are acyclic when some rank descends along
them; the rank can then be taken below the number of nodes, so following `size` pointers arrives at a
node without one, the `root`. Setting one more pointer at a root moves exactly the nodes below it to
another root, and keeps the forest acyclic unless it closes a circle.
-/

namespace Forest

variable {next : ℕ → Option ℕ} {size c d n m : ℕ} {rank : ℕ → ℕ}

/-- Follow at most `n` pointers from `c`. -/
def follow (next : ℕ → Option ℕ) : ℕ → ℕ → ℕ
  | 0, c => c
  | n + 1, c => match next c with
    | none => c
    | some d => follow next n d

/-- The end of the pointer chain from `c` in a forest of `size` nodes. -/
def root (next : ℕ → Option ℕ) (size c : ℕ) : ℕ := follow next size c

/-- Pointers stay within the nodes and descend in `rank`. -/
structure Ranked (next : ℕ → Option ℕ) (size : ℕ) (rank : ℕ → ℕ) : Prop where
  lt : ∀ {c d}, next c = some d → rank d < rank c
  dom : ∀ {c d}, next c = some d → c < size
  mem : ∀ {c d}, next c = some d → d < size

/-- The number of nodes of a smaller rank. -/
def level (rank : ℕ → ℕ) (size c : ℕ) : ℕ := ((Finset.range size).filter (rank · < rank c)).card

def Acyclic (next : ℕ → Option ℕ) (size : ℕ) : Prop := ∃ rank, Ranked next size rank

theorem follow_of_none (h : next c = none) : follow next n c = c := by
  cases n <;> simp [follow, h]

theorem follow_succ_of_some (h : next c = some d) : follow next (n + 1) c = follow next n d := by
  simp [follow, h]

theorem root_of_none (h : next c = none) : root next size c = c := follow_of_none h

namespace Ranked

theorem next_follow (h : Ranked next size rank) (hn : rank c ≤ n) :
    next (follow next n c) = none := by
  induction n generalizing c with
  | zero =>
    cases hc : next c with
    | none => exact hc
    | some d => have := h.lt hc; omega
  | succ n ih =>
    cases hc : next c with
    | none => rw [follow_of_none hc]; exact hc
    | some d =>
      rw [follow_succ_of_some hc]
      exact ih (by have := h.lt hc; omega)

theorem follow_eq (h : Ranked next size rank) (hn : rank c ≤ n) (hm : rank c ≤ m) :
    follow next n c = follow next m c := by
  induction n generalizing c m with
  | zero =>
    cases hc : next c with
    | none => rw [follow_of_none hc, follow_of_none hc]
    | some d => have := h.lt hc; omega
  | succ n ih =>
    cases hc : next c with
    | none => rw [follow_of_none hc, follow_of_none hc]
    | some d =>
      have hd := h.lt hc
      obtain ⟨m, rfl⟩ : ∃ m', m = m' + 1 := ⟨m - 1, by omega⟩
      rw [follow_succ_of_some hc, follow_succ_of_some hc]
      exact ih (by omega) (by omega)

theorem rank_follow_le (h : Ranked next size rank) : rank (follow next n c) ≤ rank c := by
  induction n generalizing c with
  | zero => exact le_rfl
  | succ n ih =>
    cases hc : next c with
    | none => rw [follow_of_none hc]
    | some d => rw [follow_succ_of_some hc]; exact ih.trans (h.lt hc).le

theorem rank_root_le (h : Ranked next size rank) : rank (root next size c) ≤ rank c :=
  h.rank_follow_le

theorem to_level (h : Ranked next size rank) : Ranked next size (level rank size) where
  lt {c d} hcd := by
    have hlt := h.lt hcd
    refine Finset.card_lt_card (Finset.ssubset_iff_of_subset ?_ |>.2 ⟨d, ?_, ?_⟩)
    · intro y hy
      simp only [Finset.mem_filter] at hy ⊢
      exact ⟨hy.1, hy.2.trans hlt⟩
    · simp [h.mem hcd, hlt]
    · simp
  dom := h.dom
  mem := h.mem

end Ranked

theorem level_lt (hc : c < size) : level rank size c < size := by
  have hss : (Finset.range size).filter (rank · < rank c) ⊂ Finset.range size :=
    Finset.filter_ssubset.2 ⟨c, Finset.mem_range.2 hc, lt_irrefl _⟩
  have := Finset.card_lt_card hss
  rwa [Finset.card_range] at this

namespace Acyclic

theorem exists_bounded (h : Acyclic next size) :
    ∃ rank, Ranked next size rank ∧ ∀ c, c < size → rank c < size :=
  let ⟨_, hr⟩ := h
  ⟨_, hr.to_level, fun _ => level_lt⟩

theorem next_root (h : Acyclic next size) (hc : c < size) : next (root next size c) = none := by
  obtain ⟨rank, hr, hb⟩ := h.exists_bounded
  exact hr.next_follow (hb c hc).le

theorem root_of_some (h : Acyclic next size) (hc : c < size) (hcd : next c = some d) :
    root next size c = root next size d := by
  obtain ⟨rank, hr, hb⟩ := h.exists_bounded
  have hbc := hb c hc
  have hlt := hr.lt hcd
  obtain ⟨n, hn⟩ : ∃ n, size = n + 1 := ⟨size - 1, by omega⟩
  rw [root, hn, follow_succ_of_some hcd, root]
  exact hr.follow_eq (by omega) (by omega)

theorem induction {motive : ℕ → Prop} (h : Acyclic next size)
    (none : ∀ c, c < size → next c = none → motive c)
    (some : ∀ c d, c < size → next c = some d → motive d → motive c) (hc : c < size) :
    motive c := by
  obtain ⟨rank, hr⟩ := h
  induction hk : rank c using Nat.strong_induction_on generalizing c with
  | _ k ih =>
    cases hcd : next c with
    | none => exact none c hc hcd
    | some d => exact some c d hc hcd (ih _ (by have := hr.lt hcd; omega) (hr.mem hcd) rfl)

theorem root_lt (h : Acyclic next size) (hc : c < size) : root next size c < size := by
  refine h.induction (motive := fun c => root next size c < size)
    (fun c hc hn => ?_) (fun c d hc hcd ih => ?_) hc
  · rw [root_of_none hn]; exact hc
  · rw [h.root_of_some hc hcd]; exact ih

theorem alloc (h : Acyclic next size) : Acyclic (Function.update next size none) (size + 1) := by
  obtain ⟨rank, hr⟩ := h
  have hsome : ∀ {c d}, Function.update next size none c = some d → next c = some d := by
    intro c d hcd
    rw [Function.update_apply] at hcd
    split at hcd
    · cases hcd
    · exact hcd
  refine ⟨rank, fun hcd => hr.lt (hsome hcd), fun hcd => ?_, fun hcd => ?_⟩
  · have := hr.dom (hsome hcd); omega
  · have := hr.mem (hsome hcd); omega

theorem root_alloc (h : Acyclic next size) (hc : c < size) :
    root (Function.update next size none) (size + 1) c = root next size c := by
  refine h.induction (motive := fun c => root _ (size + 1) c = root next size c)
    (fun c hc hn => ?_) (fun c d hc hcd ih => ?_) hc
  · rw [root_of_none hn, root_of_none (by rw [Function.update_of_ne (by omega)]; exact hn)]
  · rw [h.alloc.root_of_some (d := d) (by omega), h.root_of_some hc hcd, ih]
    rw [Function.update_of_ne (by omega)]; exact hcd

/-- A pointer from a root to a node below another root closes no circle. -/
theorem link (h : Acyclic next size) (hc : next c = none) (hcs : c < size) (hd : d < size)
    (hne : root next size d ≠ c) : Acyclic (Function.update next c (some d)) size := by
  obtain ⟨rank, hr⟩ := h
  -- everything below `c` moves above `d`
  refine ⟨fun x => if root next size x = c then rank x + rank d + 1 else rank x, ?_, ?_, ?_⟩
  · intro x y hxy
    rcases eq_or_ne x c with rfl | hx
    · rw [Function.update_self] at hxy
      cases hxy
      simp only [hne, if_false, root_of_none hc, if_true]
      omega
    · rw [Function.update_of_ne hx] at hxy
      have hlt := hr.lt hxy
      have hroot := root_of_some ⟨rank, hr⟩ (hr.dom hxy) hxy
      simp only [hroot]
      split <;> omega
  · intro x y hxy
    rw [Function.update_apply] at hxy
    split at hxy
    · subst x; exact hcs
    · exact hr.dom hxy
  · intro x y hxy
    rw [Function.update_apply] at hxy
    split at hxy
    · cases hxy; exact hd
    · exact hr.mem hxy

/-- That pointer sends everything below `c` to the root of `d`. -/
theorem root_link (h : Acyclic next size) (hc : next c = none) (hcs : c < size) (hd : d < size)
    (hne : root next size d ≠ c) {x : ℕ} (hx : x < size) :
    root (Function.update next c (some d)) size x =
      if root next size x = c then root next size d else root next size x := by
  have h' := h.link hc hcs hd hne
  have other : ∀ {y}, y ≠ c → Function.update next c (some d) y = next y :=
    fun hy => Function.update_of_ne hy _ _
  -- what is not below `c` keeps its root
  have aside : ∀ {y}, y < size → root next size y ≠ c →
      root (Function.update next c (some d)) size y = root next size y := by
    intro y hy
    refine h.induction (motive := fun y => root next size y ≠ c → _ = _)
      (fun y hy hn hr => ?_) (fun y z hy hyz ih hr => ?_) hy
    · rw [root_of_none hn] at hr ⊢
      rw [root_of_none]; rw [other hr]; exact hn
    · have hyc : y ≠ c := by rintro rfl; rw [hc] at hyz; cases hyz
      rw [h.root_of_some hy hyz] at hr ⊢
      rw [h'.root_of_some hy (d := z) (by rw [other hyc]; exact hyz)]
      exact ih hr
  refine h.induction (motive := fun x => root (Function.update next c (some d)) size x =
      if root next size x = c then root next size d else root next size x)
    (fun x hx hn => ?_) (fun x y hx hxy ih => ?_) hx
  · by_cases hxc : x = c
    · subst x
      rw [root_of_none hc, if_pos rfl, h'.root_of_some hcs (Function.update_self ..)]
      exact aside hd hne
    · rw [root_of_none hn, if_neg hxc, root_of_none]; rw [other hxc]; exact hn
  · have hxc : x ≠ c := by rintro rfl; rw [hc] at hxy; cases hxy
    rw [h'.root_of_some hx (d := y) (by rw [other hxc]; exact hxy), h.root_of_some hx hxy]
    exact ih

end Acyclic
end Forest
