import AsyncEry.CellHeap
import AsyncEry.Lib.Run

/-!
# `TrackingOnceCell` is transparent

Any number of threads call `await`, `read`, `track`, `write` and `error` on a set of cells, each call
one step. As long as no `track` closes a circle, a tracking cell behaves like the cell at the end of
its chain: it can be read when every cell up to there is linked and the end is filled, and then, and
only then, each callback registered on it has been dispatched, once and with that result.
-/

namespace AsyncEry.Cell
open Scheduler Lts

variable {T Err Cb : Type}

/-- The cells, the jobs handed to the scheduler, and the calls of `await` and `track` so far. -/
structure Chains (T Err Cb : Type) where
  heap : Heap T Err Cb
  scheduler : List (Queued T Err Cb)
  awaited : List (ℕ × Cb)
  tracked : List ℕ

namespace Chains

inductive Op (T Err Cb : Type)
  | await (c : ℕ) (callback : Cb)
  | read (c : ℕ)
  | track (c newCell : ℕ)
  | write (c : ℕ) (ctx : Context) (v : T)
  | error (c : ℕ) (ctx : Context) (e : Err)

inductive Response (T Err : Type)
  | awaited
  | value (v : Option (Result T Err))
  | tracked (ok : Bool)
  | written (ok : Bool)

/-- One call and its response. -/
def step (s : Chains T Err Cb) : Op T Err Cb → Chains T Err Cb × Response T Err
  | .await c callback =>
    let (heap, jobs) := s.heap.await c callback
    ({ s with
        heap := heap
        scheduler := s.scheduler ++ jobs
        awaited := s.awaited ++ [(c, callback)] }, .awaited)
  | .read c => (s, .value (s.heap.read c))
  | .track c newCell =>
    let (heap, jobs, ok) := s.heap.track c newCell
    ({ s with
        heap := heap
        scheduler := s.scheduler ++ jobs
        tracked := s.tracked ++ [c] }, .tracked ok)
  | .write c ctx v =>
    let (heap, jobs, ok) := s.heap.writeResult c ctx (.value v)
    ({ s with heap := heap, scheduler := s.scheduler ++ jobs }, .written ok)
  | .error c ctx e =>
    let (heap, jobs, ok) := s.heap.writeResult c ctx (.error e)
    ({ s with heap := heap, scheduler := s.scheduler ++ jobs }, .written ok)

/-- Calls go to existing cells, and the first `track` on a tracking cell closes no circle. -/
def Valid (s : Chains T Err Cb) : Op T Err Cb → Prop
  | .await c _ | .read c => c < s.heap.size
  | .track c newCell => c < s.heap.size ∧ newCell < s.heap.size ∧ s.heap.isTracking c ∧
      (c ∉ s.tracked → ¬ s.heap.Linked newCell c)
  | .write c _ _ | .error c _ _ => c < s.heap.size ∧ s.heap.isTracking c = false

/-- Fresh cells of either kind. -/
def Init (s : Chains T Err Cb) : Prop :=
  (∀ c, s.heap.cells c = .writeOnce .init ∨ s.heap.cells c = .tracking .init) ∧
    s.scheduler = [] ∧ s.awaited = [] ∧ s.tracked = []

def Step (s s' : Chains T Err Cb) : Prop := ∃ op, s.Valid op ∧ s' = (s.step op).1

end Chains

namespace Chains

/-- The awaited callbacks are served, and the linked cells are those that were tracked. -/
structure Inv (s : Chains T Err Cb) : Prop where
  served : s.heap.Served s.awaited (s.scheduler.map Queued.dispatch : List _)
  tracked : ∀ c, s.heap.isTracking c → ((s.heap.link c).isSome ↔ c ∈ s.tracked)

variable {s s' : Chains T Err Cb}

theorem Init.inv (h : Init s) : s.Inv := by
  obtain ⟨hcells, hsched, hawaited, htracked⟩ := h
  refine ⟨by rw [hsched, hawaited]; exact .fresh hcells, fun c _ => ?_⟩
  rw [htracked]
  unfold Heap.link
  rcases hcells c with hc | hc <;> rw [hc] <;> simp [ICell.link, TrackingOnceCell.init]

theorem Inv.written (h : s.Inv) {c : ℕ} (hc : c < s.heap.size) (ctx : Context)
    (result : Result T Err) :
    Inv { s with
      heap := (s.heap.writeResult c ctx result).1
      scheduler := s.scheduler ++ (s.heap.writeResult c ctx result).2.1 } := by
  obtain ⟨-, htr, hlink⟩ := s.heap.writeResult_frame c ctx result
  refine ⟨?_, fun c' hc' => ?_⟩
  · simpa using h.served.write ctx result hc
  · show (Heap.link _ c').isSome ↔ c' ∈ s.tracked
    rw [hlink]
    exact h.tracked c' (by rw [← htr]; exact hc')

theorem Inv.step (h : s.Inv) {op : Op T Err Cb} (hop : s.Valid op) : (s.step op).1.Inv := by
  have ha := h.served.acyclic
  cases op with
  | await c callback =>
    obtain ⟨-, htr, hlink, -⟩ := Heap.await_frame callback ha hop
    refine ⟨?_, fun c' hc' => ?_⟩
    · have hs := h.served.await callback hop
      simpa [Chains.step, add_comm, ← Multiset.singleton_add, ← Multiset.coe_add] using hs
    · simp only [Chains.step] at hc' ⊢
      rw [htr] at hc'
      rw [hlink]
      exact h.tracked c' hc'
  | read c => exact h
  | track c d =>
    obtain ⟨hc, hd, ht, hnew⟩ := hop
    by_cases hct : c ∈ s.tracked
    · have hres := Heap.track_of_some (d := d) ((h.tracked c ht).2 hct)
      refine ⟨?_, fun c' hc' => ?_⟩
      · simpa [Chains.step, hres] using h.served
      · simp only [Chains.step, hres] at hc' ⊢
        rw [h.tracked c' hc', List.mem_append, List.mem_singleton]
        exact ⟨.inl, fun h => h.elim id (· ▸ hct)⟩
    · have hne := Heap.root_ne_of_not_linked ha hd (hnew hct)
      have hcn : s.heap.link c = none := by
        rw [← Option.not_isSome_iff_eq_none, h.tracked c ht]; exact hct
      obtain ⟨-, htr, hlink, -⟩ := Heap.track_of_none ha ht hcn hc hd hne
      refine ⟨?_, fun c' hc' => ?_⟩
      · have hs := h.served.track hc hd hne
        simpa [Chains.step] using hs
      · simp only [Chains.step] at hc' ⊢
        rw [htr] at hc'
        rw [hlink, List.mem_append, List.mem_singleton, ← h.tracked c' hc']
        rcases eq_or_ne c' c with rfl | hne'
        · simp
        · simp [hne']
  | write c ctx v => exact h.written hop.1 ctx (.value v)
  | error c ctx e => exact h.written hop.1 ctx (.error e)

/-- In every state of every run: the jobs handed to the scheduler are, for each awaited callback
whose cell can be read, one job with what is read; a cell can be read exactly when it is linked to a
filled cell, whose result it then is; the first `track` on a cell returns true, every later one
returns false and changes nothing. -/
theorem run_transparent (r : Run (Init : Chains T Err Cb → Prop) Step) (k : ℕ) :
    (((r.state k).scheduler.map Queued.dispatch : List _) : Multiset _) =
        Multiset.filterMap (fun reg => ((r.state k).heap.read reg.1).map fun v => (reg.2, v))
          ((r.state k).awaited : Multiset (ℕ × Cb)) ∧
      (∀ c < (r.state k).heap.size, ∀ result, (r.state k).heap.read c = some result ↔
        ∃ e, (r.state k).heap.Linked c e ∧ (r.state k).heap.value e = some result) ∧
      (∀ c d, (r.state k).Valid (.track c d) →
        ((r.state k).step (.track c d)).2 = .tracked (c ∉ (r.state k).tracked) ∧
        (c ∈ (r.state k).tracked →
          ((r.state k).step (.track c d)).1.heap = (r.state k).heap ∧
          ((r.state k).step (.track c d)).1.scheduler = (r.state k).scheduler)) := by
  have hinv : (r.state k).Inv :=
    Inductive.reach ⟨fun _ h => h.inv, fun _ _ h ⟨_, hv, hs⟩ => hs ▸ h.step hv⟩ (r.reach k)
  generalize r.state k = s at hinv ⊢
  have ha := hinv.served.acyclic
  refine ⟨?_, fun c hc result => Heap.read_iff_linked ha hc, fun c d hv => ?_⟩
  · rw [hinv.served.sent_eq]
    refine (Conserve.filterMap_congr fun reg hreg => ?_).symm
    rw [Heap.read_eq ha (hinv.served.mem reg hreg), Heap.owed]
  · obtain ⟨hc, hd, ht, hnew⟩ := hv
    by_cases hct : c ∈ s.tracked
    · have hres := Heap.track_of_some (d := d) ((hinv.tracked c ht).2 hct)
      simp [step, hres, hct]
    · have hcn : s.heap.link c = none := by
        rw [← Option.not_isSome_iff_eq_none, hinv.tracked c ht]; exact hct
      obtain ⟨-, -, -, -, -, hjobs⟩ :=
        Heap.track_of_none ha ht hcn hc hd (Heap.root_ne_of_not_linked ha hd (hnew hct))
      simp [step, hjobs, hct]

end Chains
end AsyncEry.Cell
