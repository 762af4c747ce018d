import AsyncEry.Lib.Lock
import AsyncEry.Lib.Run

/-!
# Objects under a lock

The operations of a `Monitor` are blocks of steps on a shared state. Any number of threads call them;
each takes the lock, goes through its block and gives the lock back, and the steps of all threads
interleave. `inv_of_reach` says that nobody can tell: the operations that have returned are, in the
order in which they gave the lock back, a sequence of operations run one after another, which leads to
the shared state that the thread inside has found.
-/

namespace Lts

/-- `Frame` is where a block stands, with its local variables. -/
structure Monitor (σ Op Frame Ret : Type*) where
  enter : Op → Frame
  body : σ × Frame → σ × Frame → Prop
  leave : Frame → Option Ret

namespace Monitor

/-- Where a thread stands. -/
inductive Point (Op Frame : Type*)
  | idle
  | waits (op : Op)
  | inside (op : Op) (frame : Frame)

def Point.use {Op Frame : Type*} : Point Op Frame → Use
  | .idle => .outside
  | .waits _ => .waits
  | .inside _ _ => .holds

/-- `history` records the operations that have returned: by whom, which and with what result. -/
structure State (L Tid σ Op Frame Ret : Type*) where
  shared : σ
  lock : L
  point : Tid → Point Op Frame
  history : List (Tid × Op × Ret)

section
variable {L Tid σ Op Frame Ret : Type*} [DecidableEq Tid]

def Init (K : Lock Tid L) (init : σ → Prop) (s : State L Tid σ Op Frame Ret) : Prop :=
  ∃ l x, K.init l ∧ init x ∧ s = ⟨x, l, fun _ => .idle, []⟩

inductive Step (M : Monitor σ Op Frame Ret) (K : Lock Tid L) :
    State L Tid σ Op Frame Ret → State L Tid σ Op Frame Ret → Prop
  | call {s t l} (op : Op) (h : s.point t = .idle) (hl : K.call t s.lock l) :
      Step M K s { s with lock := l, point := Function.update s.point t (.waits op) }
  | wait {s t op l} (h : s.point t = .waits op) (hl : K.wait t s.lock l) :
      Step M K s { s with lock := l }
  | acquire {s t op l} (h : s.point t = .waits op) (hl : K.acquire t s.lock l) :
      Step M K s { s with lock := l, point := Function.update s.point t (.inside op (M.enter op)) }
  | body {s t op frame x frame'} (h : s.point t = .inside op frame)
      (hb : M.body (s.shared, frame) (x, frame')) :
      Step M K s { s with shared := x, point := Function.update s.point t (.inside op frame') }
  | release {s t op frame ret l} (h : s.point t = .inside op frame) (hr : M.leave frame = some ret)
      (hl : K.release t s.lock l) :
      Step M K s { s with
        lock := l, point := Function.update s.point t .idle, history := s.history ++ [(t, op, ret)] }

end

/-- The operation run from beginning to end. -/
def Exec {σ Op Frame Ret : Type*} (M : Monitor σ Op Frame Ret) (op : Op) (ret : Ret) (x x' : σ) : Prop :=
  ∃ frame, Relation.ReflTransGen M.body (x, M.enter op) (x', frame) ∧ M.leave frame = some ret

/-- The operations of a history run one after another. -/
inductive Sequential {σ Op Frame Ret Tid : Type*} (M : Monitor σ Op Frame Ret) (start : σ → Prop) :
    List (Tid × Op × Ret) → σ → Prop
  | nil {x} (h : start x) : Sequential M start [] x
  | snoc {history x x'} (h : Sequential M start history x) (t : Tid) {op : Op} {ret : Ret}
      (he : M.Exec op ret x x') : Sequential M start (history ++ [(t, op, ret)]) x'

variable {L Tid σ Op Frame Ret : Type*} [DecidableEq Tid] {M : Monitor σ Op Frame Ret} {K : Lock Tid L}
  {start : σ → Prop} {s s' : State L Tid σ Op Frame Ret}

/-- The shared state is what the history has made of it, but for what the thread inside has done. -/
structure Inv (M : Monitor σ Op Frame Ret) (K : Lock Tid L) (start : σ → Prop)
    (s : State L Tid σ Op Frame Ret) : Prop where
  lock : K.inv s.lock
  use : K.use s.lock = fun t => (s.point t).use
  shared : ∃ x, M.Sequential start s.history x ∧
    (∀ t op frame, s.point t = .inside op frame →
      Relation.ReflTransGen M.body (x, M.enter op) (s.shared, frame)) ∧
    ((∀ t, (s.point t).use ≠ .holds) → x = s.shared)

theorem use_update (point : Tid → Point Op Frame) (t : Tid) (p : Point Op Frame) :
    (fun u => (Function.update point t p u).use) = Function.update (fun u => (point u).use) t p.use :=
  Function.comp_update Point.use point t p

theorem inside_update {point : Tid → Point Op Frame} {t u : Tid} {p : Point Op Frame} {op : Op}
    {frame : Frame} (h : Function.update point t p u = .inside op frame) :
    u = t ∧ p = .inside op frame ∨ u ≠ t ∧ point u = .inside op frame := by
  by_cases hu : u = t
  · subst hu
    rw [Function.update_self] at h
    exact .inl ⟨rfl, h⟩
  · rw [Function.update_of_ne hu] at h
    exact .inr ⟨hu, h⟩

theorem Init.inv (h : Init K start s) : Inv M K start s := by
  obtain ⟨l, x, hl, hx, rfl⟩ := h
  obtain ⟨hinv, huse⟩ := K.of_init hl
  exact ⟨hinv, funext huse, x, .nil hx, nofun, fun _ => rfl⟩

namespace Inv

theorem use_at (h : Inv M K start s) {t : Tid} {p : Point Op Frame} (hp : s.point t = p) :
    K.use s.lock t = p.use := by
  rw [h.use, ← hp]

/-- Nobody is inside but the thread that holds the lock. -/
theorem eq_of_inside (h : Inv M K start s) {t u : Tid} {op op' : Op} {frame frame' : Frame}
    (ht : s.point t = .inside op frame) (hu : s.point u = .inside op' frame') : u = t :=
  K.exclusive h.lock (h.use_at hu) (h.use_at ht)

theorem call (h : Inv M K start s) {t : Tid} {l : L} (op : Op) (ht : s.point t = .idle)
    (hl : K.call t s.lock l) :
    Inv M K start { s with lock := l, point := Function.update s.point t (.waits op) } := by
  obtain ⟨hinv, huse⟩ := K.of_call h.lock (h.use_at ht) hl
  obtain ⟨x, hseq, hinside, hfree⟩ := h.shared
  refine ⟨hinv, by rw [huse, h.use, use_update]; rfl, x, hseq, fun u op' frame hu => ?_, fun hnone => ?_⟩
  · rcases inside_update hu with ⟨-, hp⟩ | ⟨-, hp⟩
    · cases hp
    · exact hinside u op' frame hp
  · refine hfree fun u hu => ?_
    by_cases hut : u = t
    · rw [hut, ht] at hu
      cases hu
    · exact hnone u ((congrArg Point.use (Function.update_of_ne hut _ _)).trans hu)

/-- The thread that enters finds the shared state as the history has left it. -/
theorem acquire (h : Inv M K start s) {t : Tid} {l : L} {op : Op} (ht : s.point t = .waits op)
    (hl : K.acquire t s.lock l) : Inv M K start
      { s with lock := l, point := Function.update s.point t (.inside op (M.enter op)) } := by
  obtain ⟨hinv, hnone, huse⟩ := K.of_acquire h.lock (h.use_at ht) hl
  obtain ⟨x, hseq, hinside, hfree⟩ := h.shared
  have hx : x = s.shared := hfree fun u => by rw [← h.use_at rfl]; exact hnone u
  refine ⟨hinv, by rw [huse, h.use, use_update]; rfl, x, hseq, fun u op' frame hu => ?_, fun hnone' => ?_⟩
  · rcases inside_update hu with ⟨-, hp⟩ | ⟨-, hp⟩
    · cases hp
      rw [hx]
    · exact hinside u op' frame hp
  · exact absurd (congrArg Point.use (Function.update_self t _ s.point)) (hnone' t)

theorem body (h : Inv M K start s) {t : Tid} {op : Op} {frame frame' : Frame} {x' : σ}
    (ht : s.point t = .inside op frame) (hb : M.body (s.shared, frame) (x', frame')) : Inv M K start
      { s with shared := x', point := Function.update s.point t (.inside op frame') } := by
  obtain ⟨x, hseq, hinside, -⟩ := h.shared
  refine ⟨h.lock, ?_, x, hseq, fun u op' frame'' hu => ?_, fun hnone => ?_⟩
  · show K.use s.lock = _
    rw [use_update, h.use, ← show (s.point t).use = (Point.inside op frame').use by rw [ht]; rfl]
    exact (Function.update_eq_self (f := fun u => (s.point u).use) t).symm
  · rcases inside_update hu with ⟨-, hp⟩ | ⟨hne, hp⟩
    · cases hp
      exact (hinside t op frame ht).tail hb
    · exact absurd (h.eq_of_inside ht hp) hne
  · exact absurd (congrArg Point.use (Function.update_self t _ s.point)) (hnone t)

/-- The block of the thread that leaves is the next operation of the history. -/
theorem release (h : Inv M K start s) {t : Tid} {l : L} {op : Op} {frame : Frame} {ret : Ret}
    (ht : s.point t = .inside op frame) (hr : M.leave frame = some ret) (hl : K.release t s.lock l) :
    Inv M K start { s with
      lock := l, point := Function.update s.point t .idle, history := s.history ++ [(t, op, ret)] } := by
  obtain ⟨hinv, huse⟩ := K.of_release h.lock (h.use_at ht) hl
  obtain ⟨x, hseq, hinside, -⟩ := h.shared
  refine ⟨hinv, by rw [huse, h.use, use_update]; rfl, s.shared,
    hseq.snoc t ⟨frame, hinside t op frame ht, hr⟩, fun u op' frame' hu => ?_, fun _ => rfl⟩
  rcases inside_update hu with ⟨-, hp⟩ | ⟨hne, hp⟩
  · cases hp
  · exact absurd (h.eq_of_inside ht hp) hne

theorem step (h : Inv M K start s) (hs : Step M K s s') : Inv M K start s' := by
  cases hs with
  | call op ht hl => exact h.call op ht hl
  | wait ht hl =>
    obtain ⟨hinv, huse⟩ := K.of_wait h.lock (h.use_at ht) hl
    exact ⟨hinv, huse.trans h.use, h.shared⟩
  | acquire ht hl => exact h.acquire ht hl
  | body ht hb => exact h.body ht hb
  | release ht hr hl => exact h.release ht hr hl

end Inv

theorem inv_of_reach (h : Reach (Init K start) (Step M K) s) : Inv M K start s :=
  Inductive.reach ⟨fun _ h => h.inv, fun _ _ h hs => h.step hs⟩ h

theorem Step.history (hs : Step M K s s') : s.history <+: s'.history := by
  cases hs with
  | release => exact List.prefix_append ..
  | _ => exact List.prefix_rfl

/-- What has returned stays in front of what returns later. -/
theorem history_of_run (r : Run (Init K start : State L Tid σ Op Frame Ret → Prop) (Step M K))
    {m n : ℕ} (hmn : m ≤ n) : (r.state m).history <+: (r.state n).history :=
  r.stable (P := fun s => (r.state m).history <+: s.history) (fun _ _ _ hs h => h.trans hs.history) hmn
    List.prefix_rfl

end Monitor
end Lts
