import AsyncEry.CellThreads

/-!
# Threads that register with a cell

The operation that fills a cell holds the mutex alone, so nobody registers while it goes through the
callbacks. Two calls of `await` do not exclude each other: both may be in `push_back`, and the later of
the two stores overwrites what the earlier one has added. `Registering` is what holds as long as no
`await` goes on to `push_back` while another one is in it.
-/

namespace AsyncEry.Cell
open Lts

namespace Point
variable {Cb V : Type} {p : Point Cb V} {content : Option V} {notified : Bool}

/-- In a body that reads or modifies the list of callbacks. -/
def usesCallbacks (p : Point Cb V) : Prop := p.registers ∨ p.flushes

theorem wake_of_usesCallbacks (h : p.wake.usesCallbacks) : p.wake = p := by
  cases p with
  | parked => exact h.elim nofun nofun
  | _ => rfl

theorem wake_of_flushes (h : p.flushes) : p.wake = p := by
  cases p with
  | parked => cases h
  | _ => rfl

theorem not_usesCallbacks_of_hold {kind : CellKind} (h : p.hold kind = .none) : ¬ p.usesCallbacks := by
  rintro (hp | hp) <;> cases p <;> first | exact hp.elim | exact nomatch h

theorem Ok.not_flushes (h : p.Ok none notified) : ¬ p.flushes := by
  intro hp
  cases p <;> first | exact hp.elim | exact nomatch h

end Point

namespace OnceCell
variable {ι Cb V : Type} [DecidableEq ι] {kind : CellKind} {s s' : OnceCell ι Cb V} {t : ι}
  {p : Point Cb V}

/-- At most one thread is in a body that uses the callbacks; each of these bodies modifies them. -/
def Excluded (s : OnceCell ι Cb V) : Prop :=
  ∀ t t', (s.point t).usesCallbacks → (s.point t').usesCallbacks → t = t'

/-- No registration is lost: the callbacks are those registered, until all of them have been handed on. -/
def Kept (s : OnceCell ι Cb V) : Prop :=
  s.callbacks = s.registered ∨
    s.callbacks = [] ∧ ∃ v, s.content = some v ∧ s.flushed = s.registered.map (·, v)

/-- An `await` finds the cell empty while another one is in `push_back`. -/
def Overlaps (s s' : OnceCell ι Cb V) : Prop :=
  ∃ t t' callback, s.point t = .awaitTest callback ∧ s.content = none ∧ t' ≠ t ∧
    (s.point t').registers ∧ s' = s.goto t (.awaitRead callback)

structure Registering (s : OnceCell ι Cb V) : Prop where
  excluded : s.Excluded
  list : ∀ t callback callbacks, s.point t = .awaitStore callback callbacks → callbacks = s.callbacks
  empty : s.content = none → s.callbacks = s.registered ∧ s.flushed = []
  flushing : ∀ t v next, s.point t = .fillCallbacks v next →
    s.callbacks = s.registered ∧ s.flushed = (s.callbacks.take next).map (·, v)
  flushed : ∀ v, s.content = some v → (∀ t, ¬ (s.point t).flushes) →
    s.callbacks = [] ∧ s.flushed = s.registered.map (·, v)

namespace Registering

omit [DecidableEq ι] in
theorem kept (h : s.Registering) : s.Kept := by
  rcases hc : s.content with _ | v
  · exact .inl (h.empty hc).1
  · by_cases hflushes : ∃ t, (s.point t).flushes
    · obtain ⟨t, ht⟩ := hflushes
      cases hp : s.point t with
      | fillCallbacks v' next => exact .inl (h.flushing t v' next hp).1
      | _ => rw [hp] at ht; exact ht.elim
    · obtain ⟨hnil, hall⟩ := h.flushed v hc fun t ht => hflushes ⟨t, ht⟩
      exact .inr ⟨hnil, v, hc, hall⟩

omit [DecidableEq ι] in
/-- Only threads that do not use the callbacks move. -/
theorem others {point : ι → Point Cb V} (h : s.Registering)
    (huses : ∀ t, (point t).usesCallbacks → point t = s.point t)
    (hflushes : ∀ t, (s.point t).flushes → point t = s.point t) :
    Registering { s with point := point } := by
  refine ⟨fun a b ha hb => ?_, fun a cb l ha => ?_, h.empty, fun a v next ha => ?_, fun v hv hn => ?_⟩
  · exact h.excluded a b (huses a ha ▸ ha) (huses b hb ▸ hb)
  · have hpoint : point a = .awaitStore cb l := ha
    refine h.list a cb l ((huses a ?_).symm.trans hpoint)
    rw [hpoint]
    exact .inl trivial
  · have hpoint : point a = .fillCallbacks v next := ha
    refine h.flushing a v next ((huses a ?_).symm.trans hpoint)
    rw [hpoint]
    exact .inr trivial
  · refine h.flushed v hv fun a ha => hn a ?_
    show (point a).flushes
    rw [hflushes a ha]
    exact ha

theorem goto (h : s.Registering) (ht : ¬ (s.point t).flushes) (hp : ¬ p.usesCallbacks) :
    (s.goto t p).Registering := by
  refine h.others (fun t' hu => ?_) fun t' hf => ?_
  · refine Function.update_of_ne (fun htt => hp ?_) _ _
    rw [htt, Function.update_self] at hu
    exact hu
  · refine Function.update_of_ne (fun htt => ht ?_) _ _
    rw [← htt]
    exact hf

omit [DecidableEq ι] in
theorem alone (h : s.Registering) (ht : s.point t = p) (hp : p.usesCallbacks) (t' : ι) (htt : t' ≠ t) :
    ¬ (s.point t').usesCallbacks :=
  fun hu => htt (h.excluded t' t hu (by rw [ht]; exact hp))

/-- Thread `t` moves on and is the only one that uses the callbacks. -/
theorem sole (hpoint : s'.point = Function.update s.point t p)
    (hothers : ∀ t', t' ≠ t → ¬ (s.point t').usesCallbacks)
    (hlist : ∀ callback callbacks, p = .awaitStore callback callbacks → callbacks = s'.callbacks)
    (hempty : s'.content = none → s'.callbacks = s'.registered ∧ s'.flushed = [])
    (hflushing : ∀ v next, p = .fillCallbacks v next →
      s'.callbacks = s'.registered ∧ s'.flushed = (s'.callbacks.take next).map (·, v))
    (hflushed : ∀ v, s'.content = some v → ¬ p.flushes →
      s'.callbacks = [] ∧ s'.flushed = s'.registered.map (·, v)) : s'.Registering := by
  have hself : s'.point t = p := by rw [hpoint, Function.update_self]
  have heq : ∀ {a}, (s'.point a).usesCallbacks → a = t := by
    intro a ha
    by_contra hat
    rw [hpoint, Function.update_of_ne hat] at ha
    exact hothers a hat ha
  refine ⟨fun a b ha hb => (heq ha).trans (heq hb).symm, fun a cb l ha => ?_, hempty,
    fun a v next ha => ?_, fun v hv hn => hflushed v hv ?_⟩
  · have hat : a = t := heq (by rw [ha]; exact .inl trivial)
    exact hlist cb l (by rw [← hself, ← hat, ha])
  · have hat : a = t := heq (by rw [ha]; exact .inr trivial)
    exact hflushing v next (by rw [← hself, ← hat, ha])
  · rw [← hself]
    exact hn t

end Registering

omit [DecidableEq ι] in
theorem Init.registering (h : Init s) : s.Registering := by
  rw [h]
  exact ⟨fun _ _ ht => ht.elim nofun nofun, nofun, fun _ => ⟨rfl, rfl⟩, nofun, nofun⟩

theorem Step.registering (hs : Step kind s s') (hinv : s.Inv kind) (hoverlaps : ¬ Overlaps s s')
    (h : s.Registering) : s'.Registering := by
  have hmove : ∀ {t : ι} {p p' : Point Cb V}, s.point t = p' → ¬ p'.flushes → ¬ p.registers → ¬ p.flushes →
      (s.goto t p).Registering := by
    intro t p p' ht hp' hr hf
    exact h.goto (by rw [ht]; exact hp') (not_or.2 ⟨hr, hf⟩)
  cases hs with
  | awaitFilled ht hc =>
    have hgo := hmove (p := .unlockShared) ht nofun nofun nofun
    exact ⟨hgo.excluded, hgo.list, hgo.empty, hgo.flushing, hgo.flushed⟩
  | @awaitEmpty t callback ht hc =>
    refine .sole rfl (fun t' htt => ?_) nofun h.empty nofun fun v hv => ?_
    · rintro (hr | hf)
      · exact hoverlaps ⟨t, t', callback, ht, hc, htt, hr, rfl⟩
      · have hok := hinv.ok t'
        rw [hc] at hok
        exact hok.not_flushes hf
    · exact nomatch hc.symm.trans hv
  | @awaitRead t callback ht =>
    have hc : s.content = none := hinv.at ht
    refine .sole rfl (h.alone ht (.inl trivial)) (fun _ _ hp => ?_) h.empty nofun fun v hv => ?_
    · cases hp
      rfl
    · exact nomatch hc.symm.trans hv
  | @awaitStore t callback callbacks ht =>
    have hc : s.content = none := hinv.at ht
    refine .sole rfl (h.alone ht (.inl trivial)) nofun (fun _ => ⟨?_, (h.empty hc).2⟩) nofun fun v hv => ?_
    · show callbacks ++ [callback] = s.registered ++ [callback]
      rw [h.list t callback callbacks ht, (h.empty hc).1]
    · exact nomatch hc.symm.trans hv
  | @fillContent t content ht hc =>
    have hown : s.holds kind t = .unique := by
      unfold holds
      rw [ht]
      rfl
    refine .sole rfl (fun t' htt => ?_) nofun nofun (fun v next hp => ?_) fun v _ hn => absurd trivial hn
    · exact Point.not_usesCallbacks_of_hold (hinv.exclusive.none_of_unique hown htt)
    · cases hp
      exact h.empty hc
  | @fillCallback t content next callback ht hcb =>
    have hc : s.content = some content := hinv.at ht
    obtain ⟨hcbs, hflushed⟩ := h.flushing t content next ht
    refine .sole rfl (h.alone ht (.inr trivial)) nofun (fun hn => nomatch hc.symm.trans hn)
      (fun v next' hp => ?_) fun v _ hn => absurd trivial hn
    cases hp
    refine ⟨hcbs, ?_⟩
    show s.flushed ++ [(callback, content)] = (s.callbacks.take (next + 1)).map (·, content)
    rw [hflushed, List.take_add_one, hcb, List.map_append]
    rfl
  | @fillClear t content next ht hcb =>
    have hc : s.content = some content := hinv.at ht
    obtain ⟨hcbs, hflushed⟩ := h.flushing t content next ht
    refine .sole rfl (h.alone ht (.inr trivial)) nofun (fun hn => nomatch hc.symm.trans hn) nofun
      fun v hv _ => ⟨rfl, ?_⟩
    obtain rfl : content = v := Option.some.inj (hc.symm.trans hv)
    show s.flushed = s.registered.map (·, content)
    rw [hflushed, List.take_of_length_le (List.getElem?_eq_none_iff.1 hcb), hcbs]
  | @fillNotify t ht =>
    have hwake := h.others (fun _ => Point.wake_of_usesCallbacks) fun _ => Point.wake_of_flushes
    have hgo := hwake.goto (t := t) (p := .fillReturn) (by show ¬ (s.point t).wake.flushes; rw [ht]; nofun)
      (not_or.2 ⟨nofun, nofun⟩)
    exact ⟨hgo.excluded, hgo.list, hgo.empty, hgo.flushing, hgo.flushed⟩
  | fillReturn ht =>
    have hgo := hmove (p := .idle) ht nofun nofun nofun
    exact ⟨hgo.excluded, hgo.list, hgo.empty, hgo.flushing, hgo.flushed⟩
  | blockAccess ht hc =>
    have hgo := hmove (p := .blockOther) ht nofun nofun nofun
    exact ⟨hgo.excluded, hgo.list, hgo.empty, hgo.flushing, hgo.flushed⟩
  | await callback ht hl => exact hmove ht nofun nofun nofun
  | fill content ht hl => exact hmove ht nofun nofun nofun
  | fillRefused ht | fillUnlockRefused ht | fillUnlock ht | read ht | readContent ht | unlockShared ht
  | block ht | blockFilled ht | blockEmpty ht | park ht | wakeSpuriously ht | waitReturns ht
  | blockScopeEnd ht | badAccess ht | blockReturn ht =>
    exact hmove ht nofun nofun nofun

/-- In a run in which no two registrations overlap, the bodies that use the callbacks exclude each other
and no callback is lost; when two overlap, they do not. -/
theorem run_registrations_kept :
    (∀ (r : Run (Init : OnceCell ι Cb V → Prop) fun s s' => Step kind s s' ∧ ¬ Overlaps s s') (n : ℕ),
      (r.state n).Excluded ∧ (r.state n).Kept) ∧
    ∀ s s' : OnceCell ι Cb V, Step kind s s' → Overlaps s s' → ¬ s'.Excluded := by
  refine ⟨fun r n => ?_, fun s s' _ hoverlaps hexcluded => ?_⟩
  · have h : (r.state n).Inv kind ∧ (r.state n).Registering :=
      Inductive.reach (P := fun s : OnceCell ι Cb V => s.Inv kind ∧ s.Registering)
        ⟨fun _ h => ⟨h.inv, h.registering⟩,
          fun _ _ h hs => ⟨hs.1.inv h.1, hs.1.registering h.1 hs.2 h.2⟩⟩ (r.reach n)
    exact ⟨h.2.excluded, h.2.kept⟩
  · obtain ⟨t, t', callback, ht, hc, htt, hr, rfl⟩ := hoverlaps
    refine htt (hexcluded t' t (.inl ?_) (.inl ?_))
    · show (Function.update s.point t _ t').registers
      rw [Function.update_of_ne htt]
      exact hr
    · show (Function.update s.point t _ t).registers
      rw [Function.update_self]
      trivial

/-- Two threads await an empty cell at the same time; the first callback is never called. -/
theorem reach_lost (kind : CellKind) : ∃ s s' : OnceCell Bool ℕ ℕ, Reach Init (Step kind) s ∧
    ¬ s.Excluded ∧ Relation.ReflTransGen (Step kind) s s' ∧ s'.filled = true ∧ s'.callbacks = [] ∧
    s'.registered = [1, 2] ∧ s'.flushed = [(2, 7)] := by
  refine ⟨_, _, .next (.next (.next (.next (.start rfl)
    (.await 1 (t := true) rfl (by cases kind <;> decide)))
    (.await 2 (t := false) rfl (by cases kind <;> decide)))
    (.awaitEmpty (t := true) rfl rfl)) (.awaitEmpty (t := false) rfl rfl),
    fun h => absurd (h true false (.inl trivial) (.inl trivial)) nofun,
    .tail (.tail (.tail (.tail (.tail (.tail (.tail (.tail (.tail (.tail (.tail (.tail (.tail .refl
    (.awaitRead (t := true) rfl)) (.awaitRead (t := false) rfl))
    (.awaitStore (t := true) rfl)) (.awaitStore (t := false) rfl))
    (.unlockShared (t := true) rfl)) (.unlockShared (t := false) rfl))
    (.fill 7 (t := false) rfl (by cases kind <;> decide))) (.fillContent (t := false) rfl rfl))
    (.fillCallback (t := false) rfl rfl)) (.fillClear (t := false) rfl rfl))
    (.fillUnlock (t := false) rfl)) (.fillNotify (t := false) rfl)) (.fillReturn (t := false) rfl),
    rfl, rfl, rfl, rfl⟩

theorem registration_lost :
    (∃ s s' : OnceCell Bool ℕ ℕ, Reach Init (Step .writeOnce) s ∧ ¬ s.Excluded ∧
      Relation.ReflTransGen (Step .writeOnce) s s' ∧ s'.filled = true ∧ s'.callbacks = [] ∧
      s'.registered = [1, 2] ∧ s'.flushed = [(2, 7)]) ∧
    ∃ s s' : OnceCell Bool ℕ ℕ, Reach Init (Step .tracking) s ∧ ¬ s.Excluded ∧
      Relation.ReflTransGen (Step .tracking) s s' ∧ s'.filled = true ∧ s'.callbacks = [] ∧
      s'.registered = [1, 2] ∧ s'.flushed = [(2, 7)] :=
  ⟨reach_lost .writeOnce, reach_lost .tracking⟩

end OnceCell
end AsyncEry.Cell
