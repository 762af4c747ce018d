import AsyncEry.Lib.SharedMutex
import AsyncEry.Lib.Run

/-!
# The operations of a cell, under interleaved callers

`WriteOnceCell` and `TrackingOnceCell` guard their contents, a value or the cell that is tracked, and
their list of callbacks in the same way: `await`, `read` and `block` under a shared lock,
`write_result_to_value` and `track`, the operations that fill the cell, under a unique one. A thread
stands at a `Point` of one of these operations, and every access is a step of its own; the point also
says how the thread holds the mutex. `push_back` reads the list in one step and stores the longer list
in another.
-/

namespace AsyncEry.Cell
open Lts

/-- The two cells; they differ in what `block` does under the lock. -/
inductive CellKind
  | writeOnce
  | tracking
deriving DecidableEq

inductive Point (Cb V : Type)
  | idle
  | awaitTest (callback : Cb)
  | awaitRead (callback : Cb)
  | awaitStore (callback : Cb) (callbacks : List Cb)
  | fillTest (content : V)
  | fillCallbacks (content : V) (next : ℕ)
  | fillUnlock
  | fillNotify
  | fillReturn
  | fillRefused
  | readContent
  | blockTest
  | blockWait
  | parked
  | woken (notified : Bool)
  | blockScopeEnd
  | blockAccess
  | blockOther
  | badAccess
  | unlockShared
deriving DecidableEq

namespace Point
variable {Cb V : Type}

/-- `WriteOnceCell::block` leaves the scope of its lock before it looks at the value,
`TrackingOnceCell::block` keeps the lock while it blocks on the other cell. -/
def hold (kind : CellKind) : Point Cb V → Hold
  | awaitTest _ | awaitRead _ | awaitStore _ _ | readContent | blockTest | blockWait | blockScopeEnd
  | unlockShared => .shared
  | blockAccess | blockOther => match kind with
    | .writeOnce => .none
    | .tracking => .shared
  | fillTest _ | fillCallbacks _ _ | fillUnlock | fillRefused => .unique
  | _ => .none

/-- In `callbacks.push_back`. -/
def registers : Point Cb V → Prop
  | awaitRead _ | awaitStore _ _ => True
  | _ => False

/-- In the loop over the callbacks or before it clears them. -/
def flushes : Point Cb V → Prop
  | fillCallbacks _ _ => True
  | _ => False

/-- `notify_all` wakes a thread that is parked. -/
def wake : Point Cb V → Point Cb V
  | parked => woken true
  | p => p

end Point

/-- A cell and its threads, and what has happened: the callbacks that `await` has stored, those that the
loop of the filling operation has handed on (to the scheduler, or to the cell that is tracked), those
that `await` has handed on itself, what `block` has found, whether `notify_all` was called, and whether
the call that filled the cell has returned. -/
structure OnceCell (ι Cb V : Type) where
  content : Option V
  callbacks : List Cb
  point : ι → Point Cb V
  registered : List Cb
  flushed : List (Cb × V)
  forwarded : List (Cb × V)
  accessed : List V
  notified : Bool
  filled : Bool

namespace OnceCell
variable {ι Cb V : Type} [DecidableEq ι]

def Init (s : OnceCell ι Cb V) : Prop := s = ⟨none, [], fun _ => .idle, [], [], [], [], false, false⟩

/-- How the threads hold the mutex. -/
def holds (kind : CellKind) (s : OnceCell ι Cb V) : ι → Hold := fun t => (s.point t).hold kind

/-- Thread `t` moves on to `p`. -/
def goto (s : OnceCell ι Cb V) (t : ι) (p : Point Cb V) : OnceCell ι Cb V :=
  { s with point := Function.update s.point t p }

inductive Step (kind : CellKind) : OnceCell ι Cb V → OnceCell ι Cb V → Prop
  | await {s t} (callback : Cb) (h : s.point t = .idle) (hl : SharedMutex.CanShare (s.holds kind)) :
    Step kind s (s.goto t (.awaitTest callback))
  | awaitFilled {s t callback content} (h : s.point t = .awaitTest callback) (hc : s.content = some content) :
    Step kind s { s.goto t .unlockShared with forwarded := s.forwarded ++ [(callback, content)] }
  | awaitEmpty {s t callback} (h : s.point t = .awaitTest callback) (hc : s.content = none) :
    Step kind s (s.goto t (.awaitRead callback))
  | awaitRead {s t callback} (h : s.point t = .awaitRead callback) :
    Step kind s (s.goto t (.awaitStore callback s.callbacks))
  | awaitStore {s t callback callbacks} (h : s.point t = .awaitStore callback callbacks) :
    Step kind s { s.goto t .unlockShared with
      callbacks := callbacks ++ [callback]
      registered := s.registered ++ [callback] }
  /-- `write_result_to_value` and `track`. -/
  | fill {s t} (content : V) (h : s.point t = .idle) (hl : SharedMutex.CanOwn (s.holds kind)) :
    Step kind s (s.goto t (.fillTest content))
  | fillRefused {s t content} (h : s.point t = .fillTest content) (hc : s.content.isSome) :
    Step kind s (s.goto t .fillRefused)
  | fillUnlockRefused {s t} (h : s.point t = .fillRefused) : Step kind s (s.goto t .idle)
  | fillContent {s t content} (h : s.point t = .fillTest content) (hc : s.content = none) :
    Step kind s { s.goto t (.fillCallbacks content 0) with content := some content }
  | fillCallback {s t content next callback} (h : s.point t = .fillCallbacks content next)
      (hcb : s.callbacks[next]? = some callback) :
    Step kind s { s.goto t (.fillCallbacks content (next + 1)) with
      flushed := s.flushed ++ [(callback, content)] }
  | fillClear {s t content next} (h : s.point t = .fillCallbacks content next)
      (hcb : s.callbacks[next]? = none) :
    Step kind s { s.goto t .fillUnlock with callbacks := [] }
  | fillUnlock {s t} (h : s.point t = .fillUnlock) : Step kind s (s.goto t .fillNotify)
  | fillNotify {s t} (h : s.point t = .fillNotify) :
    Step kind s { s with
      point := Function.update (fun t' => (s.point t').wake) t .fillReturn
      notified := true }
  | fillReturn {s t} (h : s.point t = .fillReturn) : Step kind s { s.goto t .idle with filled := true }
  | read {s t} (h : s.point t = .idle) (hl : SharedMutex.CanShare (s.holds kind)) :
    Step kind s (s.goto t .readContent)
  | readContent {s t} (h : s.point t = .readContent) : Step kind s (s.goto t .unlockShared)
  | unlockShared {s t} (h : s.point t = .unlockShared) : Step kind s (s.goto t .idle)
  | block {s t} (h : s.point t = .idle) (hl : SharedMutex.CanShare (s.holds kind)) :
    Step kind s (s.goto t .blockTest)
  | blockFilled {s t} (h : s.point t = .blockTest) (hc : s.content.isSome) :
    Step kind s (s.goto t .blockScopeEnd)
  | blockEmpty {s t} (h : s.point t = .blockTest) (hc : s.content = none) : Step kind s (s.goto t .blockWait)
  /-- `wait` releases the lock and parks the thread. -/
  | park {s t} (h : s.point t = .blockWait) : Step kind s (s.goto t .parked)
  | wakeSpuriously {s t} (h : s.point t = .parked) : Step kind s (s.goto t (.woken false))
  /-- `wait` returns with the lock. -/
  | waitReturns {s t notified} (h : s.point t = .woken notified) (hl : SharedMutex.CanShare (s.holds kind)) :
    Step kind s (s.goto t .blockScopeEnd)
  | blockScopeEnd {s t} (h : s.point t = .blockScopeEnd) : Step kind s (s.goto t .blockAccess)
  | blockAccess {s t content} (h : s.point t = .blockAccess) (hc : s.content = some content) :
    Step kind s { s.goto t .blockOther with accessed := s.accessed ++ [content] }
  | badAccess {s t} (h : s.point t = .blockAccess) (hc : s.content = none) : Step kind s (s.goto t .badAccess)
  /-- `TrackingOnceCell::block` returns what the other cell's `block` does, at some time. -/
  | blockReturn {s t} (h : s.point t = .blockOther) : Step kind s (s.goto t .idle)

end OnceCell

/-! ### What a thread relies on -/

/-- What holds of the contents, and of whether `notify_all` was called, while a thread is at this point. -/
def Point.Ok {Cb V : Type} (content : Option V) (notified : Bool) : Point Cb V → Prop
  | awaitRead _ | awaitStore _ _ | blockWait => content = none
  | fillCallbacks v _ => content = some v
  | fillUnlock | fillNotify | woken true => content.isSome
  | fillReturn => notified = true
  | parked => notified = false
  | _ => True

namespace Point
variable {Cb V : Type} {kind : CellKind} {p : Point Cb V} {content : Option V} {notified : Bool}

/-- Only threads that hold the lock rely on an empty cell. -/
theorem Ok.fill (v : V) (hhold : p.hold kind = .none) (h : p.Ok none notified) :
    p.Ok (some v) notified := by
  cases p with
  | woken n => cases n; exacts [trivial, rfl]
  | fillNotify => rfl
  | _ => first | exact h | cases hhold

theorem Ok.wake (hc : content.isSome) (h : p.Ok content notified) : p.wake.Ok content true := by
  cases p with
  | woken n => cases n; exacts [trivial, h]
  | parked => exact hc
  | fillReturn => rfl
  | _ => exact h

theorem hold_wake : p.wake.hold kind = p.hold kind := by
  cases p <;> rfl

end Point

namespace OnceCell
variable {ι Cb V : Type} [DecidableEq ι]

/-- The mutex is exclusive, and every thread can rely on what its point says. -/
structure Inv (kind : CellKind) (s : OnceCell ι Cb V) : Prop where
  exclusive : SharedMutex.Exclusive (s.holds kind)
  ok : ∀ t, (s.point t).Ok s.content s.notified
  notified : s.notified = true → s.content.isSome
  filled : s.filled = true → s.notified = true

variable {kind : CellKind} {s s' : OnceCell ι Cb V} {t : ι} {p : Point Cb V}

theorem holds_goto : (s.goto t p).holds kind = Function.update (s.holds kind) t (p.hold kind) :=
  Function.comp_update (Point.hold kind) s.point t p

omit [DecidableEq ι] in
theorem Init.inv (h : Init s) : s.Inv kind := by
  rw [h]
  exact ⟨fun _ _ _ _ => rfl, fun _ => trivial, nofun, nofun⟩

theorem Inv.goto (h : s.Inv kind) (hmove : SharedMutex.Move (s.holds kind) t (p.hold kind))
    (hp : p.Ok s.content s.notified) : (s.goto t p).Inv kind := by
  refine ⟨by rw [holds_goto]; exact h.exclusive.move hmove, ?_, h.notified, h.filled⟩
  exact (Function.forall_update_iff s.point fun _ q => q.Ok _ _).2 ⟨hp, fun t' _ => h.ok t'⟩

omit [DecidableEq ι] in
theorem Inv.at (h : s.Inv kind) (ht : s.point t = p) : p.Ok s.content s.notified := by
  rw [← ht]
  exact h.ok t

theorem Step.inv (hs : Step kind s s') (h : s.Inv kind) : s'.Inv kind := by
  have hkeep : ∀ {t : ι} {p : Point Cb V}, (s.point t).hold kind = p.hold kind →
      SharedMutex.Move (s.holds kind) t (p.hold kind) := fun hp => .keep hp
  cases hs with
  | await callback ht hl => exact h.goto (.share hl) trivial
  | awaitFilled ht hc =>
    have hgo := h.goto (hkeep (p := .unlockShared) (by rw [ht]; rfl)) trivial
    exact ⟨hgo.exclusive, hgo.ok, hgo.notified, hgo.filled⟩
  | awaitEmpty ht hc => exact h.goto (hkeep (by rw [ht]; rfl)) hc
  | awaitRead ht =>
    have hc : s.content = none := h.at ht
    exact h.goto (hkeep (by rw [ht]; rfl)) hc
  | awaitStore ht =>
    have hgo := h.goto (hkeep (p := .unlockShared) (by rw [ht]; rfl)) trivial
    exact ⟨hgo.exclusive, hgo.ok, hgo.notified, hgo.filled⟩
  | fill content ht hl => exact h.goto (.own hl) trivial
  | fillRefused ht hc => exact h.goto (hkeep (by rw [ht]; rfl)) trivial
  | fillUnlockRefused ht => exact h.goto .leave trivial
  | @fillContent t content ht hc =>
    have hown : s.holds kind t = .unique := by
      unfold holds
      rw [ht]
      rfl
    refine ⟨?_, ?_, fun _ => rfl, h.filled⟩
    · show SharedMutex.Exclusive ((s.goto t (.fillCallbacks content 0)).holds kind)
      rw [holds_goto]
      exact h.exclusive.move (hkeep (by rw [ht]; rfl))
    · refine (Function.forall_update_iff s.point fun _ q => q.Ok (some content) s.notified).2
        ⟨rfl, fun t' htt => ?_⟩
      have hok := h.ok t'
      rw [hc] at hok
      exact hok.fill content (h.exclusive.none_of_unique hown htt)
  | @fillCallback t content next callback ht hcb =>
    have hc : s.content = some content := h.at ht
    have hgo := h.goto (hkeep (p := .fillCallbacks content (next + 1)) (by rw [ht]; rfl)) hc
    exact ⟨hgo.exclusive, hgo.ok, hgo.notified, hgo.filled⟩
  | fillClear ht hcb =>
    have hgo := h.goto (hkeep (p := .fillUnlock) (by rw [ht]; rfl)) (Option.isSome_of_eq_some (h.at ht))
    exact ⟨hgo.exclusive, hgo.ok, hgo.notified, hgo.filled⟩
  | fillUnlock ht =>
    have hc : s.content.isSome := h.at ht
    exact h.goto .leave hc
  | @fillNotify t ht =>
    have hok : s.content.isSome := h.at ht
    refine ⟨?_, ?_, fun _ => hok, fun _ => rfl⟩
    · have hholds : (fun t' => (Function.update (fun t' => (s.point t').wake) t .fillReturn t').hold kind) =
          s.holds kind := by
        funext t'
        by_cases htt : t' = t
        · rw [htt, Function.update_self, holds, ht]
          rfl
        · rw [Function.update_of_ne htt, Point.hold_wake, holds]
      show SharedMutex.Exclusive
        (fun t' => (Function.update (fun t' => (s.point t').wake) t .fillReturn t').hold kind)
      rw [hholds]
      exact h.exclusive
    · exact (Function.forall_update_iff (fun t' => (s.point t').wake) fun _ q => q.Ok s.content true).2
        ⟨rfl, fun t' _ => (h.ok t').wake hok⟩
  | @fillReturn t ht =>
    have hgo := h.goto (t := t) (p := .idle) .leave trivial
    exact ⟨hgo.exclusive, hgo.ok, hgo.notified, fun _ => h.at ht⟩
  | read ht hl => exact h.goto (.share hl) trivial
  | readContent ht => exact h.goto (hkeep (by rw [ht]; rfl)) trivial
  | unlockShared ht => exact h.goto .leave trivial
  | block ht hl => exact h.goto (.share hl) trivial
  | blockFilled ht hc => exact h.goto (hkeep (by rw [ht]; rfl)) trivial
  | blockEmpty ht hc => exact h.goto (hkeep (by rw [ht]; rfl)) hc
  | park ht =>
    -- nobody has notified, the cell being empty
    have hc : s.content = none := h.at ht
    refine h.goto .leave (Bool.eq_false_iff.2 fun hn => ?_)
    have hsome := h.notified hn
    rw [hc] at hsome
    cases hsome
  | wakeSpuriously ht => exact h.goto .leave trivial
  | waitReturns ht hl => exact h.goto (.share hl) trivial
  | blockScopeEnd ht =>
    cases kind with
    | writeOnce => exact h.goto .leave trivial
    | tracking => exact h.goto (hkeep (by rw [ht]; rfl)) trivial
  | blockAccess ht hc =>
    have hgo := h.goto (hkeep (p := .blockOther) (by rw [ht]; rfl)) trivial
    exact ⟨hgo.exclusive, hgo.ok, hgo.notified, hgo.filled⟩
  | badAccess ht hc => exact h.goto .leave trivial
  | blockReturn ht => exact h.goto .leave trivial

end OnceCell
end AsyncEry.Cell
