import AsyncEry.WriteOnceCell
import AsyncEry.Lib.Forest
import AsyncEry.Lib.Conserve

/-!
# Cells that point at cells

`WriteOnceCell`s and `TrackingOnceCell`s behind `shared_ptr<ICell>`: a heap of cells, in which a
tracking cell holds the address of the cell it tracks. A call on a tracking cell is passed on along
these addresses, so it takes place at the `root` of the cell, and while no chain runs in a circle
each registered callback is parked at its root or has been handed to the scheduler (`Served`).
-/

namespace AsyncEry.Cell
open Scheduler

/-- The callback of a queued job and the result it gets. -/
def Queued.dispatch {T Err Cb : Type} (q : Queued T Err Cb) : Cb × Result T Err :=
  (q.callback, q.result)

/-- `tracking_once_cell.h`. -/
structure TrackingOnceCell (Cb : Type) where
  cell : Option ℕ
  callbacks : List Cb

def TrackingOnceCell.init {Cb : Type} : TrackingOnceCell Cb := ⟨none, []⟩

/-- The cells of the repository that keep callbacks of their own. -/
inductive ICell (T Err Cb : Type)
  | writeOnce (c : WriteOnceCell T Err Cb)
  | tracking (c : TrackingOnceCell Cb)

namespace ICell
variable {T Err Cb : Type}

def link : ICell T Err Cb → Option ℕ
  | .writeOnce _ => none
  | .tracking c => c.cell

def value : ICell T Err Cb → Option (Result T Err)
  | .writeOnce c => c.value
  | .tracking _ => none

def callbacks : ICell T Err Cb → List Cb
  | .writeOnce c => c.callbacks
  | .tracking c => c.callbacks

def isTracking : ICell T Err Cb → Bool
  | .writeOnce _ => false
  | .tracking _ => true

/-- The same cell with other callbacks. -/
def setCallbacks (callbacks : List Cb) : ICell T Err Cb → ICell T Err Cb
  | .writeOnce c => .writeOnce { c with callbacks := callbacks }
  | .tracking c => .tracking { c with callbacks := callbacks }

variable (c : ICell T Err Cb) (cbs : List Cb)

@[simp] theorem link_setCallbacks : (c.setCallbacks cbs).link = c.link := by cases c <;> rfl
@[simp] theorem value_setCallbacks : (c.setCallbacks cbs).value = c.value := by cases c <;> rfl
@[simp] theorem callbacks_setCallbacks : (c.setCallbacks cbs).callbacks = cbs := by cases c <;> rfl
@[simp] theorem isTracking_setCallbacks : (c.setCallbacks cbs).isTracking = c.isTracking := by
  cases c <;> rfl

end ICell

/-- The cells allocated so far, by address. -/
structure Heap (T Err Cb : Type) where
  size : ℕ
  cells : ℕ → ICell T Err Cb

namespace Heap
variable {T Err Cb : Type}

def set (h : Heap T Err Cb) (c : ℕ) (cell : ICell T Err Cb) : Heap T Err Cb :=
  { h with cells := Function.update h.cells c cell }

/-- `std::make_shared`: the new cell has the address `h.size`. -/
def alloc (h : Heap T Err Cb) (cell : ICell T Err Cb) : Heap T Err Cb :=
  { size := h.size + 1, cells := Function.update h.cells h.size cell }

/-- `read`, passed on at most `n` times. -/
def readFrom (h : Heap T Err Cb) : ℕ → ℕ → Option (Result T Err)
  | 0, _ => none
  | n + 1, c => match h.cells c with
    | .writeOnce w => w.read
    | .tracking t => match t.cell with
      | some d => h.readFrom n d
      | none => none

def read (h : Heap T Err Cb) (c : ℕ) : Option (Result T Err) := h.readFrom h.size c

/-- `await`, passed on at most `n` times. -/
def awaitFrom (h : Heap T Err Cb) : ℕ → ℕ → Cb → Heap T Err Cb × List (Queued T Err Cb)
  | 0, _, _ => (h, [])
  | n + 1, c, callback => match h.cells c with
    | .writeOnce w =>
      let (w', jobs) := w.await callback
      (h.set c (.writeOnce w'), jobs)
    | .tracking t => match t.cell with
      | none => (h.set c (.tracking { t with callbacks := t.callbacks ++ [callback] }), [])
      | some d => h.awaitFrom n d callback

/-- No chain is longer than the heap, see `await_eq`. -/
def await (h : Heap T Err Cb) (c : ℕ) (callback : Cb) : Heap T Err Cb × List (Queued T Err Cb) :=
  h.awaitFrom h.size c callback

/-- The loop of `track`: register every callback on the cell `d`. -/
def awaitAll (h : Heap T Err Cb) (d : ℕ) : List Cb → Heap T Err Cb × List (Queued T Err Cb)
  | [] => (h, [])
  | callback :: callbacks =>
    let (h₁, jobs₁) := h.await d callback
    let (h₂, jobs₂) := h₁.awaitAll d callbacks
    (h₂, jobs₁ ++ jobs₂)

/-- `track` on the cell `c`; a `WriteOnceCell` has no such method. -/
def track (h : Heap T Err Cb) (c newCell : ℕ) :
    Heap T Err Cb × List (Queued T Err Cb) × Bool :=
  match h.cells c with
  | .writeOnce _ => (h, [], false)
  | .tracking t =>
    if t.cell.isSome then (h, [], false)
    else
      let linked := h.set c (.tracking { t with cell := some newCell })
      let (h', jobs) := linked.awaitAll newCell t.callbacks
      (h'.set c ((h'.cells c).setCallbacks []), jobs, true)

/-- `write` or `error` on the cell `c`; a `TrackingOnceCell` has no such method. -/
def writeResult (h : Heap T Err Cb) (c : ℕ) (ctx : Context) (result : Result T Err) :
    Heap T Err Cb × List (Queued T Err Cb) × Bool :=
  match h.cells c with
  | .writeOnce w =>
    let (w', jobs, ok) := result.mapResult (w.write ctx) (w.error ctx)
    (h.set c (.writeOnce w'), jobs, ok)
  | .tracking _ => (h, [], false)

/-! ### What a heap stores, and what each operation changes of it -/

def link (h : Heap T Err Cb) (c : ℕ) : Option ℕ := (h.cells c).link
def value (h : Heap T Err Cb) (c : ℕ) : Option (Result T Err) := (h.cells c).value
def callbacks (h : Heap T Err Cb) (c : ℕ) : List Cb := (h.cells c).callbacks
def isTracking (h : Heap T Err Cb) (c : ℕ) : Bool := (h.cells c).isTracking

/-- The cell at which a call on `c` takes place. -/
def root (h : Heap T Err Cb) (c : ℕ) : ℕ := Forest.root h.link h.size c

def Acyclic (h : Heap T Err Cb) : Prop := Forest.Acyclic h.link h.size

variable {h h' : Heap T Err Cb} {c d e n : ℕ} {cell : ICell T Err Cb} {callback : Cb}
  {ctx : Context} {result : Result T Err}

@[simp] theorem size_set : (h.set c cell).size = h.size := rfl

theorem link_set : (h.set c cell).link = Function.update h.link c cell.link :=
  funext fun _ => Function.apply_update (fun _ => ICell.link) ..

theorem value_set : (h.set c cell).value = Function.update h.value c cell.value :=
  funext fun _ => Function.apply_update (fun _ => ICell.value) ..

theorem callbacks_set : (h.set c cell).callbacks = Function.update h.callbacks c cell.callbacks :=
  funext fun _ => Function.apply_update (fun _ => ICell.callbacks) ..

@[simp] theorem size_alloc : (h.alloc cell).size = h.size + 1 := rfl

theorem link_alloc : (h.alloc cell).link = Function.update h.link h.size cell.link :=
  link_set (c := h.size)

theorem value_alloc : (h.alloc cell).value = Function.update h.value h.size cell.value :=
  value_set (c := h.size)

theorem callbacks_alloc :
    (h.alloc cell).callbacks = Function.update h.callbacks h.size cell.callbacks :=
  callbacks_set (c := h.size)

theorem isTracking_alloc :
    (h.alloc cell).isTracking = Function.update h.isTracking h.size cell.isTracking :=
  funext fun _ => Function.apply_update (fun _ => ICell.isTracking) ..

theorem isTracking_alloc_self : (h.alloc cell).isTracking h.size = cell.isTracking :=
  (congrFun isTracking_alloc _).trans (Function.update_self ..)

theorem isTracking_set :
    (h.set c cell).isTracking = Function.update h.isTracking c cell.isTracking :=
  funext fun _ => Function.apply_update (fun _ => ICell.isTracking) ..

theorem set_self : h.set c (h.cells c) = h := by
  rw [set, Function.update_eq_self]

/-- The heap with other callbacks in the cell `e`. -/
def setCallbacks (h : Heap T Err Cb) (e : ℕ) (callbacks : List Cb) : Heap T Err Cb :=
  h.set e ((h.cells e).setCallbacks callbacks)

section setCallbacks
variable {cbs : List Cb}

@[simp] theorem size_setCallbacks : (h.setCallbacks e cbs).size = h.size := rfl

@[simp] theorem link_setCallbacks : (h.setCallbacks e cbs).link = h.link := by
  rw [setCallbacks, link_set, ICell.link_setCallbacks]; exact Function.update_eq_self e h.link

@[simp] theorem value_setCallbacks : (h.setCallbacks e cbs).value = h.value := by
  rw [setCallbacks, value_set, ICell.value_setCallbacks]; exact Function.update_eq_self e h.value

@[simp] theorem isTracking_setCallbacks : (h.setCallbacks e cbs).isTracking = h.isTracking := by
  rw [setCallbacks, isTracking_set, ICell.isTracking_setCallbacks]
  exact Function.update_eq_self e h.isTracking

@[simp] theorem callbacks_setCallbacks :
    (h.setCallbacks e cbs).callbacks = Function.update h.callbacks e cbs := by
  rw [setCallbacks, callbacks_set, ICell.callbacks_setCallbacks]

theorem setCallbacks_self : h.setCallbacks e (h.callbacks e) = h := by
  have : (h.cells e).setCallbacks (h.callbacks e) = h.cells e := by
    unfold callbacks; cases h.cells e <;> rfl
  rw [setCallbacks, this, set_self]

theorem setCallbacks_setCallbacks {cbs' : List Cb} :
    (h.setCallbacks e cbs).setCallbacks e cbs' = h.setCallbacks e cbs' := by
  unfold setCallbacks set
  simp only [Function.update_self, Function.update_idem]
  cases h.cells e <;> rfl

@[simp] theorem root_setCallbacks : (h.setCallbacks e cbs).root = h.root := by
  funext c; simp [root]

end setCallbacks

/-- Registering callbacks on a cell whose root is `e`. -/
def awaitAt (h : Heap T Err Cb) (e : ℕ) (cbs : List Cb) : Heap T Err Cb × List (Queued T Err Cb) :=
  match h.value e with
  | some result => (h, cbs.map fun callback => ⟨Context.empty, callback, result⟩)
  | none => (h.setCallbacks e (h.callbacks e ++ cbs), [])

section awaitAt
variable {cbs : List Cb}

theorem awaitAt_of_some (he : h.value e = some result) :
    h.awaitAt e cbs = (h, cbs.map fun callback => ⟨Context.empty, callback, result⟩) := by
  simp [awaitAt, he]

theorem awaitAt_of_none (he : h.value e = none) :
    h.awaitAt e cbs = (h.setCallbacks e (h.callbacks e ++ cbs), []) := by
  simp [awaitAt, he]

@[simp] theorem link_awaitAt : (h.awaitAt e cbs).1.link = h.link := by
  unfold awaitAt; split <;> simp

@[simp] theorem value_awaitAt : (h.awaitAt e cbs).1.value = h.value := by
  unfold awaitAt; split <;> simp

@[simp] theorem isTracking_awaitAt : (h.awaitAt e cbs).1.isTracking = h.isTracking := by
  unfold awaitAt; split <;> simp

@[simp] theorem size_awaitAt : (h.awaitAt e cbs).1.size = h.size := by
  unfold awaitAt; split <;> simp

@[simp] theorem root_awaitAt : (h.awaitAt e cbs).1.root = h.root := by
  funext c; simp [root]

theorem awaitAt_congr (e : ℕ) (cbs : List Cb) (hv : h'.value = h.value)
    (hcb : h'.callbacks = h.callbacks) :
    (h'.awaitAt e cbs).1.callbacks = (h.awaitAt e cbs).1.callbacks ∧
      (h'.awaitAt e cbs).2 = (h.awaitAt e cbs).2 := by
  unfold awaitAt
  rw [hv, hcb]
  cases h.value e with
  | none => simp [hcb]
  | some result => exact ⟨hcb, rfl⟩

end awaitAt

theorem readFrom_eq {rank : ℕ → ℕ} (hr : Forest.Ranked h.link h.size rank) (hn : rank c < n) :
    h.readFrom n c = h.value (Forest.follow h.link n c) := by
  induction n generalizing c with
  | zero => omega
  | succ n ih =>
    unfold readFrom
    cases hc : h.cells c with
    | writeOnce w =>
      rw [Forest.follow_of_none (by simp [link, hc, ICell.link])]
      simp [value, hc, ICell.value, WriteOnceCell.read]
    | tracking t =>
      cases ht : t.cell with
      | none =>
        rw [Forest.follow_of_none (by simp [link, hc, ICell.link, ht])]
        simp [value, hc, ICell.value, ht]
      | some d =>
        have hcd : h.link c = some d := by simp [link, hc, ICell.link, ht]
        have := hr.lt hcd
        rw [Forest.follow_succ_of_some hcd, ← ih (c := d) (by omega)]
        simp [ht]

theorem awaitFrom_eq {rank : ℕ → ℕ} (hr : Forest.Ranked h.link h.size rank) (hn : rank c < n) :
    h.awaitFrom n c callback = h.awaitAt (Forest.follow h.link n c) [callback] := by
  induction n generalizing c with
  | zero => omega
  | succ n ih =>
    unfold awaitFrom
    cases hc : h.cells c with
    | writeOnce w =>
      rw [Forest.follow_of_none (by simp [link, hc, ICell.link])]
      cases hw : w.value with
      | none =>
        rw [awaitAt_of_none (by simp [value, hc, ICell.value, hw])]
        simp [WriteOnceCell.await_of_none hw, setCallbacks, hc, ICell.setCallbacks, callbacks,
          ICell.callbacks, hw]
      | some result =>
        rw [awaitAt_of_some (by simp [value, hc, ICell.value, hw]; rfl)]
        simp [WriteOnceCell.await_of_some hw, ← hc, set_self]
    | tracking t =>
      cases ht : t.cell with
      | none =>
        rw [Forest.follow_of_none (by simp [link, hc, ICell.link, ht]),
          awaitAt_of_none (by simp [value, hc, ICell.value])]
        simp [ht, setCallbacks, hc, ICell.setCallbacks, callbacks, ICell.callbacks]
      | some d =>
        have hcd : h.link c = some d := by simp [link, hc, ICell.link, ht]
        have := hr.lt hcd
        rw [Forest.follow_succ_of_some hcd, ← ih (c := d) (by omega)]
        simp [ht]

theorem read_eq (ha : h.Acyclic) (hc : c < h.size) : h.read c = h.value (h.root c) := by
  obtain ⟨rank, hr, hb⟩ := Forest.Acyclic.exists_bounded ha
  exact readFrom_eq hr (hb c hc)

theorem await_eq (ha : h.Acyclic) (hc : c < h.size) :
    h.await c callback = h.awaitAt (h.root c) [callback] := by
  obtain ⟨rank, hr, hb⟩ := Forest.Acyclic.exists_bounded ha
  exact awaitFrom_eq hr (hb c hc)

/-- A callback awaited on a cell that can be read is queued at once. -/
theorem await_of_read (ha : h.Acyclic) (hc : c < h.size) (hr : h.read c = some result) :
    h.await c callback = (h, [⟨Context.empty, callback, result⟩]) := by
  rw [read_eq ha hc] at hr
  rw [await_eq ha hc, awaitAt_of_some hr]
  rfl

theorem awaitAll_eq (ha : h.Acyclic) (hd : d < h.size) (cbs : List Cb) :
    h.awaitAll d cbs = h.awaitAt (h.root d) cbs := by
  induction cbs generalizing h with
  | nil =>
    unfold awaitAll awaitAt
    split
    · rfl
    · rw [List.append_nil, setCallbacks_self]
  | cons callback cbs ih =>
    unfold awaitAll
    rw [await_eq ha hd]
    have ih := ih (h := (h.awaitAt (h.root d) [callback]).1) (by simpa [Acyclic] using ha)
      (by simpa using hd)
    simp only [ih, root_awaitAt]
    cases hv : h.value (h.root d) with
    | some result => simp [awaitAt_of_some hv]
    | none =>
      rw [awaitAt_of_none hv, awaitAt_of_none (by simpa using hv), awaitAt_of_none hv]
      simp [setCallbacks_setCallbacks]

theorem await_frame (callback : Cb) (ha : h.Acyclic) (hc : c < h.size) :
    (h.await c callback).1.size = h.size ∧ (h.await c callback).1.isTracking = h.isTracking ∧
      (h.await c callback).1.link = h.link ∧ (h.await c callback).1.value = h.value := by
  rw [await_eq ha hc]
  simp

/-! ### The effect of `track` and of a write -/

theorem track_of_some (hc : (h.link c).isSome) : h.track c d = (h, [], false) := by
  unfold track
  cases hcc : h.cells c with
  | writeOnce w => rfl
  | tracking t => simp_all [link, ICell.link]

/-- The first `track` on `c`, when it does not close a circle. -/
theorem track_of_none (ha : h.Acyclic) (ht : h.isTracking c) (hc : h.link c = none)
    (hcs : c < h.size) (hd : d < h.size) (hne : h.root d ≠ c) :
    (h.track c d).1.size = h.size ∧
      (h.track c d).1.isTracking = h.isTracking ∧
      (h.track c d).1.link = Function.update h.link c (some d) ∧
      (h.track c d).1.value = h.value ∧
      (h.track c d).1.callbacks = Function.update
        (h.awaitAt (h.root d) (h.callbacks c)).1.callbacks c [] ∧
      (h.track c d).2 = ((h.awaitAt (h.root d) (h.callbacks c)).2, true) := by
  obtain ⟨t, hcc⟩ : ∃ t, h.cells c = .tracking t := by
    unfold isTracking at ht
    cases hcc : h.cells c with
    | writeOnce w => rw [hcc] at ht; cases ht
    | tracking t => exact ⟨t, rfl⟩
  have htc : t.cell = none := by simpa [link, hcc, ICell.link] using hc
  have hcb : h.callbacks c = t.callbacks := by simp [callbacks, hcc, ICell.callbacks]
  set linked := h.set c (.tracking { t with cell := some d }) with hl
  have hlink : linked.link = Function.update h.link c (some d) := link_set
  have hvalue : linked.value = h.value := by
    rw [hl, value_set]
    exact Function.update_eq_self_iff.2 (by simp [value, hcc, ICell.value])
  have hcallbacks : linked.callbacks = h.callbacks := by
    rw [hl, callbacks_set]
    exact Function.update_eq_self_iff.2 hcb.symm
  have htrack : linked.isTracking = h.isTracking := by
    rw [hl, isTracking_set]
    exact Function.update_eq_self_iff.2 ht.symm
  have hal : linked.Acyclic := by
    unfold Acyclic; rw [hlink]; exact Forest.Acyclic.link ha hc hcs hd hne
  have hroot : linked.root d = h.root d := by
    have hlinked := Forest.Acyclic.root_link ha hc hcs hd hne hd
    unfold root; rw [hlink]; exact hlinked.trans (ite_self _)
  have hres : h.track c d =
      ((linked.awaitAt (h.root d) (h.callbacks c)).1.setCallbacks c [],
        (linked.awaitAt (h.root d) (h.callbacks c)).2, true) := by
    unfold track
    simp only [hcc, htc, Option.isSome_none, Bool.false_eq_true, if_false, ← hl]
    rw [awaitAll_eq hal hd, hroot, hcb]; rfl
  obtain ⟨hcongr, hjobs⟩ := awaitAt_congr (h.root d) (h.callbacks c) hvalue hcallbacks
  rw [hres]
  exact ⟨by simp [hl], by simp [htrack], by simp [hlink], by simp [hvalue], by simp [hcongr],
    by rw [hjobs]⟩

theorem writeResult_of_isTracking (ht : h.isTracking e) :
    h.writeResult e ctx result = (h, [], false) := by
  unfold writeResult
  unfold isTracking at ht
  cases hec : h.cells e with
  | writeOnce w => rw [hec] at ht; cases ht
  | tracking t => rfl

theorem writeResult_of_some (hv : (h.value e).isSome) :
    h.writeResult e ctx result = (h, [], false) := by
  unfold writeResult
  unfold value at hv
  cases hec : h.cells e with
  | tracking t => rfl
  | writeOnce w =>
    rw [hec] at hv
    cases result <;>
      simp [WriteOnceCell.write, WriteOnceCell.error, WriteOnceCell.writeResultToValue_of_some hv,
        ← hec, set_self]

theorem writeResult_of_none (ctx : Context) (result : Result T Err) (ht : h.isTracking e = false)
    (hv : h.value e = none) :
    (h.writeResult e ctx result).1.size = h.size ∧
      (h.writeResult e ctx result).1.isTracking = h.isTracking ∧
      (h.writeResult e ctx result).1.link = h.link ∧
      (h.writeResult e ctx result).1.value = Function.update h.value e (some result) ∧
      (h.writeResult e ctx result).1.callbacks = Function.update h.callbacks e [] ∧
      (h.writeResult e ctx result).2 =
        ((h.callbacks e).map fun callback => ⟨ctx, callback, result⟩, true) := by
  obtain ⟨w, hec⟩ : ∃ w, h.cells e = .writeOnce w := by
    unfold isTracking at ht
    cases hec : h.cells e with
    | writeOnce w => exact ⟨w, rfl⟩
    | tracking t => rw [hec] at ht; cases ht
  have hw : w.value = none := by simpa [value, hec, ICell.value] using hv
  have hlink : h.link e = none := by simp [link, hec, ICell.link]
  have hres : h.writeResult e ctx result = (h.set e (.writeOnce ⟨some result, []⟩),
      w.callbacks.map fun callback => ⟨ctx, callback, result⟩, true) := by
    unfold writeResult
    cases result <;>
      simp [hec, WriteOnceCell.write, WriteOnceCell.error,
        WriteOnceCell.writeResultToValue_of_none hw]
  rw [hres]
  refine ⟨rfl, ?_, ?_, value_set, callbacks_set, by simp [callbacks, hec, ICell.callbacks]⟩
  · exact isTracking_set.trans (Function.update_eq_self_iff.2 ht.symm)
  · exact link_set.trans (Function.update_eq_self_iff.2 hlink.symm)

theorem track_of_not_isTracking (ht : h.isTracking c = false) : h.track c d = (h, [], false) := by
  unfold track
  unfold isTracking at ht
  cases hcc : h.cells c with
  | writeOnce w => rfl
  | tracking t => rw [hcc] at ht; cases ht

theorem link_none_of_not_isTracking (ht : h.isTracking e = false) : h.link e = none := by
  unfold isTracking at ht
  unfold link
  cases hec : h.cells e with
  | writeOnce w => rfl
  | tracking t => rw [hec] at ht; cases ht

theorem value_none_of_isTracking (ht : h.isTracking e) : h.value e = none := by
  unfold isTracking at ht
  unfold value
  cases hec : h.cells e with
  | writeOnce w => rw [hec] at ht; cases ht
  | tracking t => rfl

theorem link_none_of_value (hv : (h.value e).isSome) : h.link e = none := by
  cases ht : h.isTracking e with
  | false => exact link_none_of_not_isTracking ht
  | true => rw [value_none_of_isTracking ht] at hv; cases hv

theorem writeResult_frame (h : Heap T Err Cb) (e : ℕ) (ctx : Context) (result : Result T Err) :
    (h.writeResult e ctx result).1.size = h.size ∧
      (h.writeResult e ctx result).1.isTracking = h.isTracking ∧
      (h.writeResult e ctx result).1.link = h.link := by
  cases ht : h.isTracking e with
  | true => rw [writeResult_of_isTracking ht]; exact ⟨rfl, rfl, rfl⟩
  | false =>
    cases hv : h.value e with
    | some r => rw [writeResult_of_some (by rw [hv]; rfl)]; exact ⟨rfl, rfl, rfl⟩
    | none =>
      obtain ⟨hsize, htr, hlink, -⟩ := writeResult_of_none ctx result ht hv
      exact ⟨hsize, htr, hlink⟩

theorem value_writeResult {r : Result T Err}
    (hv : (h.writeResult e ctx result).1.value c = some r) :
    h.value c = some r ∨ (c = e ∧ r = result) := by
  cases ht : h.isTracking e with
  | true => rw [writeResult_of_isTracking ht] at hv; exact .inl hv
  | false =>
    cases hve : h.value e with
    | some r' => rw [writeResult_of_some (by rw [hve]; rfl)] at hv; exact .inl hv
    | none =>
      obtain ⟨-, -, -, hvalue, -⟩ := writeResult_of_none ctx result ht hve
      rw [hvalue, Function.update_apply] at hv
      split at hv
      · next heq => exact .inr ⟨heq, (Option.some.inj hv).symm⟩
      · exact .inl hv

theorem isSome_value_writeResult (hv : (h.value c).isSome ∨ c = e ∧ h.isTracking e = false) :
    ((h.writeResult e ctx result).1.value c).isSome := by
  cases ht : h.isTracking e with
  | true =>
    rw [writeResult_of_isTracking ht]
    rcases hv with hv | ⟨-, hv⟩
    · exact hv
    · rw [hv] at ht; cases ht
  | false =>
    cases hve : h.value e with
    | some r =>
      rw [writeResult_of_some (by rw [hve]; rfl)]
      rcases hv with hv | ⟨rfl, -⟩
      · exact hv
      · rw [hve]; rfl
    | none =>
      obtain ⟨-, -, -, hvalue, -⟩ := writeResult_of_none ctx result ht hve
      rw [hvalue, Function.update_apply]
      split
      · rfl
      · next hne => exact hv.resolve_right fun h => hne h.1

theorem track_frame (ha : h.Acyclic) (hcs : c < h.size) (hd : d < h.size) (hne : h.root d ≠ c) :
    (h.track c d).1.size = h.size ∧ (h.track c d).1.isTracking = h.isTracking ∧
      (h.track c d).1.value = h.value ∧
      (h.track c d).1.link = if h.isTracking c ∧ h.link c = none then
        Function.update h.link c (some d) else h.link := by
  cases ht : h.isTracking c with
  | false => rw [track_of_not_isTracking ht]; simp
  | true =>
    cases hc : h.link c with
    | some _ => rw [track_of_some (by rw [hc]; rfl)]; simp
    | none =>
      obtain ⟨hsize, htr, hlink, hvalue, -⟩ := track_of_none ha ht hc hcs hd hne
      exact ⟨hsize, htr, hvalue, by simpa using hlink⟩

theorem isSome_link_track (ha : h.Acyclic) (hcs : c < h.size) (hd : d < h.size)
    (hne : h.root d ≠ c) (ht : h.isTracking c) : ((h.track c d).1.link c).isSome := by
  obtain ⟨-, -, -, hlink⟩ := track_frame ha hcs hd hne
  rw [hlink]
  cases hc : h.link c with
  | none => simp [ht]
  | some d' => simp [hc]

theorem read_of_value (ha : h.Acyclic) (hc : c < h.size) (hv : (h.value c).isSome) :
    h.read c = h.value c := by
  rw [read_eq ha hc, root, Forest.root_of_none (link_none_of_value hv)]

theorem read_of_link (ha : h.Acyclic) (hc : c < h.size) (hcd : h.link c = some d) :
    h.read c = h.read d := by
  obtain ⟨rank, hr⟩ := id ha
  rw [read_eq ha hc, read_eq ha (hr.mem hcd), root, root, Forest.Acyclic.root_of_some ha hc hcd]

/-! ### Reading through linked cells -/

/-- The cells from `c` to `e` are linked. -/
def Linked (h : Heap T Err Cb) : ℕ → ℕ → Prop :=
  Relation.ReflTransGen fun c d => h.link c = some d

theorem linked_root (ha : h.Acyclic) (hc : c < h.size) : h.Linked c (h.root c) := by
  refine Forest.Acyclic.induction (motive := fun c => h.Linked c (h.root c)) ha
    (fun c hc hn => ?_) (fun c d hc hcd ih => ?_) hc
  · rw [root, Forest.root_of_none hn]; exact .refl
  · rw [root, Forest.Acyclic.root_of_some ha hc hcd]; exact .head hcd ih

theorem root_eq_of_linked (ha : h.Acyclic) (hc : c < h.size) (hce : h.Linked c e)
    (he : h.link e = none) : h.root c = e := by
  induction hce using Relation.ReflTransGen.head_induction_on with
  | refl => exact Forest.root_of_none he
  | head hcd _ ih =>
    obtain ⟨rank, hr⟩ := id ha
    rw [root, Forest.Acyclic.root_of_some ha hc hcd]
    exact ih (hr.mem hcd)

/-- A cell is read through the linked cells up to a filled one. -/
theorem read_iff_linked (ha : h.Acyclic) (hc : c < h.size) {result : Result T Err} :
    h.read c = some result ↔ ∃ e, h.Linked c e ∧ h.value e = some result := by
  rw [read_eq ha hc]
  constructor
  · intro hv
    exact ⟨h.root c, linked_root ha hc, hv⟩
  · rintro ⟨e, hce, hv⟩
    rw [root_eq_of_linked ha hc hce (link_none_of_value (by rw [hv]; rfl))]
    exact hv

theorem root_ne_of_not_linked (ha : h.Acyclic) (hd : d < h.size) (hnl : ¬ h.Linked d e) :
    h.root d ≠ e := by
  rintro rfl
  exact hnl (linked_root ha hd)

/-- Cells are added, linked and filled; nothing is taken back. -/
structure Extends (h h' : Heap T Err Cb) : Prop where
  size : h.size ≤ h'.size
  link : ∀ c < h.size, ∀ d, h.link c = some d → h'.link c = some d
  value : ∀ c < h.size, ∀ r, h.value c = some r → h'.value c = some r

theorem Extends.refl : Extends h h := ⟨le_rfl, fun _ _ _ => id, fun _ _ _ => id⟩

theorem Extends.trans {h'' : Heap T Err Cb} (hx : Extends h h') (hx' : Extends h' h'') :
    Extends h h'' where
  size := hx.size.trans hx'.size
  link c hc d hd := hx'.link c (hc.trans_le hx.size) d (hx.link c hc d hd)
  value c hc r hr := hx'.value c (hc.trans_le hx.size) r (hx.value c hc r hr)

/-- What has been read stays. -/
theorem Extends.read (hx : Extends h h') (ha : h.Acyclic) (ha' : h'.Acyclic) (hc : c < h.size)
    (hr : h.read c = some result) : h'.read c = some result := by
  revert hr
  refine Forest.Acyclic.induction (motive := fun c => h.read c = some result →
    h'.read c = some result) ha (fun c hc hn hr => ?_) (fun c d hc hcd ih hr => ?_) hc
  · rw [read_eq ha hc, root, Forest.root_of_none hn] at hr
    have hv := hx.value c hc _ hr
    rw [read_of_value ha' (hc.trans_le hx.size) (by rw [hv]; rfl), hv]
  · rw [read_of_link ha' (hc.trans_le hx.size) (hx.link c hc d hcd)]
    rw [read_of_link ha hc hcd] at hr
    exact ih hr

theorem extends_await (ha : h.Acyclic) (hc : c < h.size) (callback : Cb) :
    Extends h (h.await c callback).1 := by
  obtain ⟨hsize, -, hlink, hvalue⟩ := await_frame callback ha hc
  exact ⟨hsize.ge, fun _ _ _ hl => by rwa [hlink], fun _ _ _ hv => by rwa [hvalue]⟩

theorem extends_writeResult (h : Heap T Err Cb) (e : ℕ) (ctx : Context) (result : Result T Err) :
    Extends h (h.writeResult e ctx result).1 := by
  obtain ⟨hsize, -, hlink⟩ := h.writeResult_frame e ctx result
  refine ⟨hsize.ge, fun _ _ _ hl => by rwa [hlink], fun c _ r hv => ?_⟩
  cases ht : h.isTracking e with
  | true => rwa [writeResult_of_isTracking ht]
  | false =>
    cases hve : h.value e with
    | some r' => rwa [writeResult_of_some (by rw [hve]; rfl)]
    | none =>
      obtain ⟨-, -, -, hvalue, -⟩ := writeResult_of_none ctx result ht hve
      rw [hvalue, Function.update_of_ne]
      · exact hv
      · rintro rfl; rw [hve] at hv; cases hv

theorem extends_track (ha : h.Acyclic) (hcs : c < h.size) (hd : d < h.size) (hne : h.root d ≠ c) :
    Extends h (h.track c d).1 := by
  obtain ⟨hsize, -, hvalue, hlink⟩ := track_frame ha hcs hd hne
  refine ⟨hsize.ge, fun x _ y hl => ?_, fun _ _ _ hv => by rwa [hvalue]⟩
  rw [hlink]
  split
  · next hc =>
    rw [Function.update_of_ne]
    · exact hl
    · rintro rfl; rw [hc.2] at hl; cases hl
  · exact hl

theorem extends_alloc (h : Heap T Err Cb) (cell : ICell T Err Cb) : Extends h (h.alloc cell) := by
  refine ⟨Nat.le_succ _, fun c hc d hl => ?_, fun c hc r hv => ?_⟩
  · rw [link_alloc, Function.update_of_ne hc.ne]; exact hl
  · rw [value_alloc, Function.update_of_ne hc.ne]; exact hv

/-! ### No callback is lost, and none is dispatched twice -/

/-- What a registered callback is owed: a job, once the root of its cell is filled. -/
def owed (h : Heap T Err Cb) (reg : ℕ × Cb) : Option (Cb × Result T Err) :=
  (h.value (h.root reg.1)).map fun result => (reg.2, result)

/-- The callbacks registered on the cells whose root is `e`. -/
def below (h : Heap T Err Cb) (regs : Multiset (ℕ × Cb)) (e : ℕ) : Multiset Cb :=
  (regs.filter (h.root ·.1 = e)).map Prod.snd

theorem below_cons_of_eq {regs : Multiset (ℕ × Cb)} (hc : h.root c = e) :
    h.below ((c, callback) ::ₘ regs) e = callback ::ₘ h.below regs e := by
  rw [below, Multiset.filter_cons_of_pos (p := (h.root ·.1 = e)) regs hc, Multiset.map_cons, below]

theorem below_cons_of_ne {regs : Multiset (ℕ × Cb)} (hc : h.root c ≠ e) :
    h.below ((c, callback) ::ₘ regs) e = h.below regs e := by
  rw [below, Multiset.filter_cons_of_neg (p := (h.root ·.1 = e)) regs hc, below]

theorem below_congr {regs : Multiset (ℕ × Cb)}
    (hroot : ∀ reg ∈ regs, h'.root reg.1 = e ↔ h.root reg.1 = e) :
    h'.below regs e = h.below regs e :=
  congrArg (Multiset.map Prod.snd) (Multiset.filter_congr hroot)

/-- Of the callbacks `regs` registered so far, the ones dispatched are those whose root is filled;
the others are parked at their root. -/
structure Served (h : Heap T Err Cb) (regs : Multiset (ℕ × Cb))
    (sent : Multiset (Cb × Result T Err)) : Prop where
  acyclic : h.Acyclic
  mem : ∀ reg ∈ regs, reg.1 < h.size
  parked : ∀ e < h.size, (h.callbacks e : Multiset Cb) =
    if h.link e = none ∧ h.value e = none then h.below regs e else 0
  sent_eq : sent = regs.filterMap h.owed

namespace Served
variable {regs : Multiset (ℕ × Cb)} {sent : Multiset (Cb × Result T Err)}

/-- Nothing is owed in a heap of fresh cells. -/
theorem fresh (hcells : ∀ c, h.cells c = .writeOnce .init ∨ h.cells c = .tracking .init) :
    Served h 0 0 := by
  have hlink : ∀ c, h.link c = none := by
    intro c
    unfold link
    rcases hcells c with hc | hc <;> rw [hc] <;> rfl
  have hcb : ∀ c, h.callbacks c = [] := by
    intro c
    unfold callbacks
    rcases hcells c with hc | hc <;> rw [hc] <;> rfl
  refine ⟨⟨id, ?_, ?_, ?_⟩, nofun, fun e _ => by simp [hcb, below], rfl⟩
  all_goals intro c d hcd; rw [hlink] at hcd; cases hcd

/-- When the cell `e` gets its result, the callbacks below it get theirs. -/
theorem answer {ans : ℕ × Cb → Option (Cb × Result T Err)} (hs : Served h regs sent)
    (hv : h.value e = none) (result : Result T Err)
    (hp : ∀ reg ∈ regs, h.root reg.1 = e → ans reg = some (reg.2, result))
    (hn : ∀ reg ∈ regs, h.root reg.1 ≠ e → ans reg = h.owed reg) :
    regs.filterMap ans = sent + (h.below regs e).map fun callback => (callback, result) := by
  have hanswer : ∀ reg ∈ regs, h.root reg.1 = e →
      h.owed reg = none ∧ ans reg = some (reg.2, result) := by
    intro reg hreg he
    exact ⟨by simp [owed, he, hv], hp reg hreg he⟩
  rw [Conserve.filterMap_answer hanswer hn, hs.sent_eq, below, Multiset.map_map]
  rfl

theorem await (callback : Cb) (hs : Served h regs sent) (hc : c < h.size) :
    Served (h.await c callback).1 ((c, callback) ::ₘ regs)
      (sent + ((h.await c callback).2.map Queued.dispatch : List _)) := by
  have hroot : h.root c < h.size := hs.acyclic.root_lt hc
  have hmem : ∀ reg ∈ (c, callback) ::ₘ regs, reg.1 < h.size := by
    intro reg hreg
    rcases Multiset.mem_cons.1 hreg with rfl | hreg
    · exact hc
    · exact hs.mem reg hreg
  rw [await_eq hs.acyclic hc]
  cases hv : h.value (h.root c) with
  | some result =>
    rw [awaitAt_of_some hv]
    refine ⟨hs.acyclic, hmem, fun e he => ?_, ?_⟩
    · show (h.callbacks e : Multiset Cb) = if h.link e = none ∧ h.value e = none then _ else 0
      rw [hs.parked e he]
      split
      · next hopen =>
        rw [below_cons_of_ne]
        rintro rfl
        rw [hv] at hopen; cases hopen.2
      · rfl
    · rw [Multiset.filterMap_cons_some h.owed (c, callback) regs (by simp [owed, hv]; rfl),
        hs.sent_eq]
      simp [Queued.dispatch, add_comm]
  | none =>
    have hlink : h.link (h.root c) = none := hs.acyclic.next_root hc
    have hbelow : ∀ e, (h.setCallbacks (h.root c) (h.callbacks (h.root c) ++ [callback])).below
        ((c, callback) ::ₘ regs) e = h.below ((c, callback) ::ₘ regs) e :=
      fun _ => below_congr fun _ _ => by rw [root_setCallbacks]
    rw [awaitAt_of_none hv]
    refine ⟨by simpa [Acyclic] using hs.acyclic, hmem, fun e he => ?_, ?_⟩
    · rw [hbelow, link_setCallbacks, value_setCallbacks, callbacks_setCallbacks]
      rcases eq_or_ne (h.root c) e with rfl | hne
      · have hp := hs.parked _ hroot
        rw [if_pos ⟨hlink, hv⟩] at hp ⊢
        rw [below_cons_of_eq rfl, ← hp, Function.update_self, ← Multiset.coe_add, add_comm]
        rfl
      · rw [below_cons_of_ne hne, Function.update_of_ne hne.symm]
        exact hs.parked e he
    · rw [Multiset.filterMap_cons_none _ _ (by simp [owed, hv]), hs.sent_eq]
      simp only [List.map_nil, Multiset.coe_nil, add_zero]
      exact (Conserve.filterMap_congr fun reg _ => by simp [owed]).symm

theorem write (ctx : Context) (result : Result T Err) (hs : Served h regs sent)
    (he : e < h.size) :
    Served (h.writeResult e ctx result).1 regs
      (sent + ((h.writeResult e ctx result).2.1.map Queued.dispatch : List _)) := by
  cases ht : h.isTracking e with
  | true => rw [writeResult_of_isTracking ht]; simpa using hs
  | false =>
    cases hv : h.value e with
    | some r => rw [writeResult_of_some (by rw [hv]; rfl)]; simpa using hs
    | none =>
      obtain ⟨hsize, -, hlink, hvalue, hcb, hjobs⟩ :=
        writeResult_of_none ctx result ht hv
      have hle := link_none_of_not_isTracking ht
      have hroot : (h.writeResult e ctx result).1.root = h.root := by
        funext c; unfold root; rw [hlink, hsize]
      refine ⟨by simpa [Acyclic, hlink, hsize] using hs.acyclic, by simpa [hsize] using hs.mem,
        fun e' he' => ?_, ?_⟩
      · rw [hsize] at he'
        have hbelow : (h.writeResult e ctx result).1.below regs e' = h.below regs e' :=
          below_congr fun _ _ => by rw [hroot]
        rw [hlink, hvalue, hcb, hbelow]
        rcases eq_or_ne e' e with rfl | hne
        · simp
        · rw [Function.update_of_ne hne, Function.update_of_ne hne]
          exact hs.parked e' he'
      · have hp := hs.parked e he
        rw [if_pos ⟨hle, hv⟩] at hp
        rw [hs.answer hv result, ← hp, hjobs]
        · simp [Queued.dispatch, Function.comp_def]
        · intro reg _ hreg
          simp [owed, hroot, hvalue, hreg]
        · intro reg _ hreg
          simp [owed, hroot, hvalue, Function.update_of_ne hreg]

theorem track (hs : Served h regs sent) (hcs : c < h.size) (hd : d < h.size)
    (hne : h.root d ≠ c) :
    Served (h.track c d).1 regs (sent + ((h.track c d).2.1.map Queued.dispatch : List _)) := by
  cases hc : h.link c with
  | some _ => rw [track_of_some (by rw [hc]; rfl)]; simpa using hs
  | none =>
    cases ht : h.isTracking c with
    | false => rw [track_of_not_isTracking ht]; simpa using hs
    | true =>
      have hvc := value_none_of_isTracking ht
      have hpc := hs.parked c hcs
      rw [if_pos ⟨hc, hvc⟩] at hpc
      obtain ⟨hsize, -, hlink, hvalue, hcb, hjobs⟩ := track_of_none hs.acyclic ht hc hcs hd hne
      have hroot : ∀ x < h.size,
          (h.track c d).1.root x = if h.root x = c then h.root d else h.root x := by
        intro x hx
        unfold root; rw [hlink, hsize]
        exact Forest.Acyclic.root_link hs.acyclic hc hcs hd hne hx
      have hacyclic : (h.track c d).1.Acyclic := by
        unfold Acyclic; rw [hlink, hsize]
        exact Forest.Acyclic.link hs.acyclic hc hcs hd hne
      have hbelow : ∀ e, e ≠ c → e ≠ h.root d →
          (h.track c d).1.below regs e = h.below regs e := by
        intro e hec hed
        refine below_congr fun reg hreg => ?_
        rw [hroot _ (hs.mem reg hreg)]
        split
        · next hrc => rw [hrc]; simp [hec.symm, hed.symm]
        · rfl
      have hjoin : (h.track c d).1.below regs (h.root d) =
          h.below regs (h.root d) + h.below regs c := by
        have hor : ∀ reg ∈ regs, (h.track c d).1.root reg.1 = h.root d ↔
            h.root reg.1 = h.root d ∨ h.root reg.1 = c := by
          intro reg hreg
          rw [hroot _ (hs.mem reg hreg)]
          split <;> simp_all
        unfold below
        rw [← Multiset.map_add]
        exact congrArg _ (Conserve.filter_join hor fun _ _ hd' hc' => hne (hd'.symm.trans hc'))
      refine ⟨hacyclic, by simpa [hsize] using hs.mem, fun e he => ?_, ?_⟩
      · rw [hsize] at he
        rw [hlink, hvalue, hcb]
        rcases eq_or_ne e c with rfl | hec
        · simp
        have hp := hs.parked e he
        rw [Function.update_of_ne hec, Function.update_of_ne hec]
        cases hvd : h.value (h.root d) with
        | some r =>
          rw [awaitAt_of_some hvd, hp]
          rcases eq_or_ne e (h.root d) with rfl | hed
          · simp [hvd]
          · rw [hbelow e hec hed]
        | none =>
          rw [awaitAt_of_none hvd, callbacks_setCallbacks]
          rcases eq_or_ne e (h.root d) with rfl | hed
          · rw [if_pos ⟨hs.acyclic.next_root hd, hvd⟩] at hp ⊢
            rw [Function.update_self, hjoin, ← hp, ← hpc, Multiset.coe_add]
          · rw [Function.update_of_ne hed, hbelow e hec hed]; exact hp
      · cases hvd : h.value (h.root d) with
        | some r =>
          rw [hs.answer hvc r, ← hpc, hjobs, awaitAt_of_some hvd]
          · simp [Queued.dispatch, Function.comp_def]
          · intro reg hreg hrc
            simp [owed, hroot _ (hs.mem reg hreg), hrc, hvalue, hvd]
          · intro reg hreg hrc
            simp [owed, hroot _ (hs.mem reg hreg), hrc, hvalue]
        | none =>
          rw [hjobs, awaitAt_of_none hvd, hs.sent_eq]
          simp only [List.map_nil, Multiset.coe_nil, add_zero]
          refine (Conserve.filterMap_congr fun reg hreg => ?_).symm
          unfold owed
          rw [hroot _ (hs.mem reg hreg), hvalue]
          split
          · next hrc => rw [hrc, hvd, hvc]
          · rfl

theorem root_lt (hs : Served h regs sent) {reg : ℕ × Cb} (hreg : reg ∈ regs) :
    h.root reg.1 < h.size :=
  hs.acyclic.root_lt (hs.mem reg hreg)

theorem alloc (hs : Served h regs sent) (hlink : cell.link = none) (hvalue : cell.value = none)
    (hcb : cell.callbacks = []) : Served (h.alloc cell) regs sent := by
  have hroot : ∀ reg ∈ regs, (h.alloc cell).root reg.1 = h.root reg.1 := by
    intro reg hreg
    unfold root
    rw [link_alloc, hlink]
    exact Forest.Acyclic.root_alloc hs.acyclic (hs.mem reg hreg)
  refine ⟨?_, fun reg hreg => (hs.mem reg hreg).trans (Nat.lt_succ_self _), fun e he => ?_, ?_⟩
  · unfold Acyclic
    rw [link_alloc, hlink]
    exact Forest.Acyclic.alloc hs.acyclic
  · rw [link_alloc, value_alloc, callbacks_alloc]
    rcases eq_or_ne e h.size with rfl | hne
    · have hzero : (h.alloc cell).below regs h.size = 0 := by
        refine Multiset.map_eq_zero.2 (Multiset.filter_eq_nil.2 fun reg hreg he => ?_)
        rw [hroot reg hreg] at he
        exact (hs.root_lt hreg).ne he
      simp [hlink, hvalue, hcb, hzero]
    · have hbelow : (h.alloc cell).below regs e = h.below regs e :=
        below_congr fun reg hreg => by rw [hroot reg hreg]
      rw [Function.update_of_ne hne, Function.update_of_ne hne, Function.update_of_ne hne, hbelow]
      exact hs.parked e (by rw [size_alloc] at he; omega)
  · rw [hs.sent_eq]
    refine (Conserve.filterMap_congr fun reg hreg => ?_).symm
    unfold owed
    rw [hroot reg hreg, value_alloc, Function.update_of_ne (hs.root_lt hreg).ne]

end Served
end Heap
end AsyncEry.Cell
