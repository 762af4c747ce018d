import AsyncEry.Lib.Run

/-!
# Forward simulation

A system implements another one when their states are related from the start on and each of its steps
is matched by a step of the other or leaves the other where it is. Then its runs are runs of the other,
moment by moment (`Simulation.run`), and what holds of everything the other reaches holds, through the
relation, of everything it reaches (`Simulation.reach`).
-/

namespace Lts

variable {σ τ υ : Type*} {init : σ → Prop} {step : σ → σ → Prop} {init' : τ → Prop} {step' : τ → τ → Prop}
  {init'' : υ → Prop} {step'' : υ → υ → Prop} {R : σ → τ → Prop} {Q : τ → υ → Prop}

/-- `init'` and `step'` can do what `init` and `step` do, related by `R`. -/
structure Simulation (init : σ → Prop) (step : σ → σ → Prop) (init' : τ → Prop) (step' : τ → τ → Prop)
    (R : σ → τ → Prop) : Prop where
  start : ∀ s, init s → ∃ t, init' t ∧ R s t
  next : ∀ s s' t, R s t → step s s' → ∃ t', (t' = t ∨ step' t t') ∧ R s' t'

namespace Simulation

theorem reach (h : Simulation init step init' step' R) {s : σ} (hs : Reach init step s) :
    ∃ t, Reach init' step' t ∧ R s t := by
  induction hs with
  | start hs =>
    obtain ⟨t, ht, hR⟩ := h.start _ hs
    exact ⟨t, .start ht, hR⟩
  | next _ hstep ih =>
    obtain ⟨t, ht, hR⟩ := ih
    obtain ⟨t', rfl | ht', hR'⟩ := h.next _ _ t hR hstep
    · exact ⟨t', ht, hR'⟩
    · exact ⟨t', ht.next ht', hR'⟩

/-- The answer of the other system to each moment of a run, given its answer to the moment before. -/
theorem exists_answer (h : Simulation init step init' step' R) (r : Run init step) (n : ℕ)
    (t : { t // R (r.state n) t }) :
    ∃ t' : { t // R (r.state (n + 1)) t }, t'.1 = t.1 ∨ step' t.1 t'.1 := by
  obtain ⟨t, hR⟩ := t
  rcases r.steps n with heq | hstep
  · exact ⟨⟨t, by rw [heq]; exact hR⟩, .inl rfl⟩
  · obtain ⟨t', ht', hR'⟩ := h.next _ _ t hR hstep
    exact ⟨⟨t', hR'⟩, ht'⟩

theorem run (h : Simulation init step init' step' R) (r : Run init step) :
    ∃ r' : Run init' step', ∀ n, R (r.state n) (r'.state n) := by
  classical
  obtain ⟨t₀, ht₀, hR₀⟩ := h.start _ r.starts
  choose answer hanswer using h.exists_answer r
  let t : (n : ℕ) → { t // R (r.state n) t } := fun n => Nat.rec ⟨t₀, hR₀⟩ answer n
  exact ⟨⟨fun n => (t n).1, ht₀, fun n => hanswer n (t n)⟩, fun n => (t n).2⟩

/-- Implementations compose. -/
theorem comp (h : Simulation init step init' step' R) (h' : Simulation init' step' init'' step'' Q) :
    Simulation init step init'' step'' fun s u => ∃ t, R s t ∧ Q t u where
  start s hs := by
    obtain ⟨t, ht, hR⟩ := h.start s hs
    obtain ⟨u, hu, hQ⟩ := h'.start t ht
    exact ⟨u, hu, t, hR, hQ⟩
  next s s' u := by
    rintro ⟨t, hR, hQ⟩ hs
    obtain ⟨t', rfl | ht, hR'⟩ := h.next s s' t hR hs
    · exact ⟨u, .inl rfl, t', hR', hQ⟩
    · obtain ⟨u', hu, hQ'⟩ := h'.next t t' u hQ ht
      exact ⟨u', hu, t', hR', hQ'⟩

end Simulation
end Lts
