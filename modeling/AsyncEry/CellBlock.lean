import AsyncEry.CellThreads

/-!
# Threads that wait for a cell

A thread only parks while the cell is empty, and it is `notify_all` that comes after the cell has been
filled: so no thread is parked once the call that filled it has returned. A thread that a notification
has woken finds the cell filled; one that wakes up of itself need not, and nothing makes it wait again.
-/

namespace AsyncEry.Cell
open Lts

namespace OnceCell
variable {ι Cb V : Type} [DecidableEq ι] {kind : CellKind} {s s' : OnceCell ι Cb V} {t : ι}

theorem inv_of_reach (h : Reach Init (Step kind) s) : s.Inv kind :=
  Inductive.reach (P := Inv kind) ⟨fun _ h => h.inv, fun _ _ h hs => hs.inv h⟩ h

theorem Step.filled (hs : Step kind s s') (h : s.filled = true) : s'.filled = true := by
  cases hs <;> first | exact h | rfl

/-! ### No wake-up is lost -/

/-- In a state in which the call that filled the cell has returned, and in all later ones, no thread is
parked. -/
theorem run_none_parked (r : Run (Init : OnceCell ι Cb V → Prop) (Step kind)) (n : ℕ)
    (hfilled : (r.state n).filled = true) (m : ℕ) (hnm : n ≤ m) (t : ι) :
    (r.state m).point t ≠ .parked := by
  have h := inv_of_reach (r.reach m)
  have hlater : (r.state m).filled = true := r.stable (fun _ _ _ hs => hs.filled) hnm hfilled
  intro ht
  have hquiet : (r.state m).notified = false := h.at ht
  rw [h.filled hlater] at hquiet
  cases hquiet

/-- Thread `true` parks before thread `false` fills the cell. -/
theorem run_none_parked_two : ∃ r : Run (Init : OnceCell Bool ℕ ℕ → Prop) (Step .writeOnce),
    ∃ n, (r.state n).filled = true ∧ ∀ m, n ≤ m → ∀ t, (r.state m).point t ≠ .parked := by
  have hreach : ∃ s : OnceCell Bool ℕ ℕ, Reach Init (Step .writeOnce) s ∧ s.filled = true := by
    refine ⟨_, .next (.next (.next (.next (.next (.next (.next (.next (.next (.start rfl)
      (.block (t := true) rfl (by decide))) (.blockEmpty (t := true) rfl rfl)) (.park (t := true) rfl))
      (.fill 7 (t := false) rfl (by decide))) (.fillContent (t := false) rfl rfl))
      (.fillClear (t := false) rfl rfl)) (.fillUnlock (t := false) rfl)) (.fillNotify (t := false) rfl))
      (.fillReturn (t := false) rfl), rfl⟩
  obtain ⟨s, hs, hfilled⟩ := hreach
  obtain ⟨r, n, rfl⟩ := Run.exists_state hs
  exact ⟨r, n, hfilled, run_none_parked r n hfilled⟩

end OnceCell

/-! ### What `block` finds -/

/-- What `block` needs of the contents once it no longer waits. -/
def Point.Finds {Cb V : Type} (content : Option V) : Point Cb V → Prop
  | blockScopeEnd | blockAccess => content.isSome
  | badAccess => False
  | _ => True

namespace Point
variable {Cb V : Type} {p : Point Cb V} {content : Option V}

theorem Finds.fill (v : V) (h : p.Finds none) : p.Finds (some v) := by
  cases p <;> first | exact h | rfl

theorem Finds.wake (h : p.Finds content) : p.wake.Finds content := by
  cases p <;> exact h

end Point

namespace OnceCell
variable {ι Cb V : Type} [DecidableEq ι] {kind : CellKind} {s s' : OnceCell ι Cb V} {t : ι}
  {p : Point Cb V}

/-- `wait` returns in thread `t`, which nobody has notified, the cell still being empty. -/
def Spurious (t : ι) (s s' : OnceCell ι Cb V) : Prop :=
  s.point t = .woken false ∧ s.content = none ∧ s' = s.goto t .blockScopeEnd

structure Finds (s : OnceCell ι Cb V) : Prop where
  point : ∀ t, (s.point t).Finds s.content
  accessed : ∀ v ∈ s.accessed, s.content = some v

omit [DecidableEq ι] in
theorem Init.finds (h : Init s) : s.Finds := by
  rw [h]
  exact ⟨fun _ => trivial, nofun⟩

theorem Finds.goto (h : s.Finds) (hp : p.Finds s.content) : (s.goto t p).Finds := by
  refine ⟨?_, h.accessed⟩
  exact (Function.forall_update_iff s.point fun _ q => q.Finds s.content).2 ⟨hp, fun t' _ => h.point t'⟩

omit [DecidableEq ι] in
theorem Finds.at (h : s.Finds) (ht : s.point t = p) : p.Finds s.content := by
  rw [← ht]
  exact h.point t

theorem Step.finds (hs : Step kind s s') (hinv : s.Inv kind) (hspurious : ∀ t, ¬ Spurious t s s')
    (h : s.Finds) : s'.Finds := by
  cases hs with
  | @fillContent t content ht hc =>
    refine ⟨?_, fun v hv => ?_⟩
    · refine (Function.forall_update_iff s.point fun _ q => q.Finds (some content)).2 ⟨trivial, fun t' _ => ?_⟩
      have hfinds := h.point t'
      rw [hc] at hfinds
      exact hfinds.fill content
    · have hsome := h.accessed v hv
      rw [hc] at hsome
      cases hsome
  | @fillNotify t ht =>
    refine ⟨?_, h.accessed⟩
    exact (Function.forall_update_iff (fun t' => (s.point t').wake) fun _ q => q.Finds s.content).2
      ⟨trivial, fun t' _ => (h.point t').wake⟩
  | blockFilled ht hc => exact h.goto hc
  | @waitReturns t notified ht hl =>
    refine h.goto ?_
    cases notified with
    | true => exact hinv.at ht
    | false =>
      exact Option.isSome_iff_ne_none.2 fun hc => hspurious t ⟨ht, hc, rfl⟩
  | blockScopeEnd ht =>
    have hc : s.content.isSome := h.at ht
    exact h.goto hc
  | @blockAccess t content ht hc =>
    refine ⟨(h.goto (p := .blockOther) trivial).point, fun v hv => ?_⟩
    rcases List.mem_append.1 hv with hv | hv
    · exact h.accessed v hv
    · rw [List.mem_singleton.1 hv]
      exact hc
  | badAccess ht hc =>
    have hsome : s.content.isSome := h.at ht
    rw [hc] at hsome
    cases hsome
  | awaitFilled => exact ⟨(h.goto (p := .unlockShared) trivial).point, h.accessed⟩
  | awaitStore => exact ⟨(h.goto (p := .unlockShared) trivial).point, h.accessed⟩
  | @fillCallback t content next =>
    exact ⟨(h.goto (p := .fillCallbacks content (next + 1)) trivial).point, h.accessed⟩
  | fillClear => exact ⟨(h.goto (p := .fillUnlock) trivial).point, h.accessed⟩
  | fillReturn => exact ⟨(h.goto (p := .idle) trivial).point, h.accessed⟩
  | _ => exact h.goto trivial

/-- In a run without such a return, `block` finds the cell filled and gives what it is filled with. After
one, the thread in which `wait` returned can go on to read the empty cell. -/
theorem run_access_filled :
    (∀ (r : Run (Init : OnceCell ι Cb V → Prop) fun s s' => Step kind s s' ∧ ∀ t, ¬ Spurious t s s') (n : ℕ),
      (∀ t, (r.state n).point t = .blockAccess → (r.state n).content.isSome) ∧
      (∀ t, (r.state n).point t ≠ .badAccess) ∧
      ∀ v ∈ (r.state n).accessed, (r.state n).content = some v) ∧
    ∀ (t : ι) (s s' : OnceCell ι Cb V), Step kind s s' → Spurious t s s' →
      ∃ s'', Relation.ReflTransGen (Step kind) s' s'' ∧ s''.point t = .badAccess := by
  refine ⟨fun r n => ?_, fun t s s' hs hspurious => ?_⟩
  · have h : (r.state n).Inv kind ∧ (r.state n).Finds :=
      Inductive.reach (P := fun s : OnceCell ι Cb V => s.Inv kind ∧ s.Finds)
        ⟨fun _ h => ⟨h.inv, h.finds⟩, fun _ _ h hs => ⟨hs.1.inv h.1, hs.1.finds h.1 hs.2 h.2⟩⟩ (r.reach n)
    exact ⟨fun t ht => h.2.at ht, fun t ht => h.2.at ht, h.2.accessed⟩
  · obtain ⟨ht, hc, rfl⟩ := hspurious
    have hend : Step kind (s.goto t .blockScopeEnd) ((s.goto t .blockScopeEnd).goto t .blockAccess) :=
      .blockScopeEnd (Function.update_self _ _ _)
    have hbad : Step kind ((s.goto t .blockScopeEnd).goto t .blockAccess)
        (((s.goto t .blockScopeEnd).goto t .blockAccess).goto t .badAccess) :=
      .badAccess (Function.update_self _ _ _) hc
    exact ⟨_, .tail (.single hend) hbad, Function.update_self _ _ _⟩

/-- One thread blocks, alone, and wakes up of itself. -/
theorem reach_badAccess (kind : CellKind) :
    ∃ s : OnceCell Bool ℕ ℕ, Reach Init (Step kind) s ∧ s.point true = .badAccess := by
  refine ⟨_, .next (.next (.next (.next (.next (.next (.next (.start rfl)
    (.block (t := true) rfl (by cases kind <;> decide))) (.blockEmpty (t := true) rfl rfl))
    (.park (t := true) rfl)) (.wakeSpuriously (t := true) rfl))
    (.waitReturns (t := true) rfl (by cases kind <;> decide))) (.blockScopeEnd (t := true) rfl))
    (.badAccess (t := true) rfl rfl), rfl⟩

theorem access_empty :
    (∃ s : OnceCell Bool ℕ ℕ, Reach Init (Step .writeOnce) s ∧ s.point true = .badAccess) ∧
    ∃ s : OnceCell Bool ℕ ℕ, Reach Init (Step .tracking) s ∧ s.point true = .badAccess :=
  ⟨reach_badAccess .writeOnce, reach_badAccess .tracking⟩

end OnceCell
end AsyncEry.Cell
