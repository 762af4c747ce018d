import AsyncEry.CellHeap

/-!
# The input cells of `when_all` and `when_any`

Both constructors register one continuation on each cell of a list, one after another, while other
threads use these and any other cells: fill them, link them, await them, make new ones. Whatever they
do, continuation `i` is queued once, when input `i` can be read, and with what is read there
(`Inv.delivered`); what has been read stays.
-/

namespace AsyncEry.Cell
open Scheduler

variable {T Err Cb : Type}

/-- What is awaited on a cell: the continuation of input `i`, or a callback of somebody else. -/
inductive Continuation (Cb : Type)
  | input (i : ℕ)
  | other (callback : Cb)

/-- The cells, the pending jobs, and how many continuations the constructor has registered. `awaited`
and `taken` record the registrations and the continuations run, in order. -/
structure Inputs (T Err Cb : Type) where
  cells : List ℕ
  heap : Heap T Err (Continuation Cb)
  jobs : Multiset (Queued T Err (Continuation Cb))
  registered : ℕ
  awaited : List (ℕ × Continuation Cb)
  taken : List (ℕ × Result T Err)

namespace Inputs

/-- The input cells exist, and nothing has happened yet. -/
def Init (cells : List ℕ) (s : Inputs T Err Cb) : Prop :=
  (∀ c ∈ cells, c < s.heap.size) ∧
    (∀ c, s.heap.cells c = .writeOnce .init ∨ s.heap.cells c = .tracking .init) ∧
    s = ⟨cells, s.heap, 0, 0, [], []⟩

def await (s : Inputs T Err Cb) (c : ℕ) (k : Continuation Cb) : Inputs T Err Cb :=
  { s with
    heap := (s.heap.await c k).1
    jobs := s.jobs + ((s.heap.await c k).2 : Multiset _)
    awaited := s.awaited ++ [(c, k)] }

/-- A step of the constructor's loop, or of anybody else. -/
inductive Step : Inputs T Err Cb → Inputs T Err Cb → Prop
  | register {s c} (hc : s.cells[s.registered]? = some c) :
    Step s { s.await c (.input s.registered) with registered := s.registered + 1 }
  | await {s c} (callback : Cb) (hc : c < s.heap.size) : Step s (s.await c (.other callback))
  | writeOnce {s} : Step s { s with heap := s.heap.alloc (.writeOnce .init) }
  | tracking {s} : Step s { s with heap := s.heap.alloc (.tracking .init) }
  | write {s c} (ctx : Context) (result : Result T Err) (hc : c < s.heap.size) :
    Step s { s with
      heap := (s.heap.writeResult c ctx result).1
      jobs := s.jobs + ((s.heap.writeResult c ctx result).2.1 : Multiset _) }
  | track {s c d} (hc : c < s.heap.size) (hd : d < s.heap.size) (hnl : ¬ s.heap.Linked d c) :
    Step s { s with
      heap := (s.heap.track c d).1
      jobs := s.jobs + ((s.heap.track c d).2.1 : Multiset _) }
  | other {s ctx callback result jobs} (h : s.jobs = ⟨ctx, .other callback, result⟩ ::ₘ jobs) :
    Step s { s with jobs := jobs }

/-- The scheduler runs the continuation of input `i`. -/
inductive Take (i : ℕ) (result : Result T Err) : Inputs T Err Cb → Inputs T Err Cb → Prop
  | take {s ctx jobs} (h : s.jobs = ⟨ctx, .input i, result⟩ ::ₘ jobs) :
    Take i result s { s with jobs := jobs, taken := s.taken ++ [(i, result)] }

/-- The share of the inputs in what was awaited. -/
def registration : ℕ × Continuation Cb → Option (ℕ × ℕ)
  | (c, .input i) => some (c, i)
  | (_, .other _) => none

/-- The share of the inputs in what was queued. -/
def delivery : Continuation Cb × Result T Err → Option (ℕ × Result T Err)
  | (.input i, result) => some (i, result)
  | (.other _, _) => none

/-- The pending continuations of inputs. -/
def pending (s : Inputs T Err Cb) : Multiset (ℕ × Result T Err) :=
  (s.jobs.map Queued.dispatch).filterMap delivery

/-- The constructor has returned and none of its continuations is pending. -/
def Idle (s : Inputs T Err Cb) : Prop := s.registered = s.cells.length ∧ s.pending = 0

def takenJobs (s : Inputs T Err Cb) : Multiset (Continuation Cb × Result T Err) :=
  (s.taken.map fun t => (Continuation.input t.1, t.2) : List (Continuation Cb × Result T Err))

/-- The registered inputs are served; `others` are the callbacks of others that have run. -/
structure Inv (s : Inputs T Err Cb) : Prop where
  served : ∃ others : Multiset (Continuation Cb × Result T Err), others.filterMap delivery = 0 ∧
    s.heap.Served s.awaited (s.jobs.map Queued.dispatch + (s.takenJobs + others))
  registered : s.awaited.filterMap registration = (s.cells.take s.registered).zipIdx
  exist : ∀ c ∈ s.cells, c < s.heap.size

variable {s s' : Inputs T Err Cb}

theorem Init.inv {cells : List ℕ} (h : Init cells s) : s.Inv := by
  obtain ⟨hexist, hcells, hs⟩ := h
  rw [hs]
  exact ⟨⟨0, rfl, .fresh hcells⟩, rfl, hexist⟩

namespace Inv

theorem acyclic (h : s.Inv) : s.heap.Acyclic := by
  obtain ⟨_, -, hs⟩ := h.served
  exact hs.acyclic

theorem await (h : s.Inv) {c : ℕ} (hc : c < s.heap.size) (k : Continuation Cb) :
    ∃ others : Multiset (Continuation Cb × Result T Err), others.filterMap delivery = 0 ∧
      (s.await c k).heap.Served (s.await c k).awaited
        ((s.await c k).jobs.map Queued.dispatch + ((s.await c k).takenJobs + others)) := by
  obtain ⟨others, hothers, hs⟩ := h.served
  refine ⟨others, hothers, ?_⟩
  have hs' := hs.await k hc
  have hawaited : ((s.await c k).awaited : Multiset _) = (c, k) ::ₘ (s.awaited : Multiset _) := by
    rw [Inputs.await, ← Multiset.coe_add, add_comm]; rfl
  rw [hawaited, Inputs.await, Multiset.map_add, add_right_comm]
  exact hs'

theorem extends_of_step (h : s.Inv) (hs : Step s s') : s.heap.Extends s'.heap := by
  cases hs with
  | register hc => exact Heap.extends_await h.acyclic (h.exist _ (List.mem_of_getElem? hc)) _
  | await callback hc => exact Heap.extends_await h.acyclic hc _
  | writeOnce | tracking => exact Heap.extends_alloc ..
  | write ctx result hc => exact Heap.extends_writeResult ..
  | track hc hd hnl =>
    exact Heap.extends_track h.acyclic hc hd (Heap.root_ne_of_not_linked h.acyclic hd hnl)
  | other hj => exact .refl

theorem step (h : s.Inv) (hs : Step s s') : s'.Inv := by
  obtain ⟨others, hothers, hserved⟩ := h.served
  have hexist : ∀ c ∈ s.cells, c < s'.heap.size := fun c hc =>
    (h.exist c hc).trans_le (h.extends_of_step hs).size
  cases hs with
  | @register c hc =>
    refine ⟨h.await (h.exist c (List.mem_of_getElem? hc)) _, ?_, hexist⟩
    have hlt : s.registered < s.cells.length := (List.getElem?_eq_some_iff.1 hc).1
    show (s.awaited ++ [(c, Continuation.input s.registered)]).filterMap registration =
      (s.cells.take (s.registered + 1)).zipIdx
    rw [List.filterMap_append, h.registered, List.take_add_one, hc, List.zipIdx_append,
      List.length_take, Nat.min_eq_left hlt.le]
    simp [registration]
  | @await c callback hc =>
    refine ⟨h.await hc _, ?_, hexist⟩
    show (s.awaited ++ [(c, Continuation.other callback)]).filterMap registration = _
    rw [List.filterMap_append, h.registered]
    exact List.append_nil _
  | writeOnce => exact ⟨⟨others, hothers, hserved.alloc rfl rfl rfl⟩, h.registered, hexist⟩
  | tracking => exact ⟨⟨others, hothers, hserved.alloc rfl rfl rfl⟩, h.registered, hexist⟩
  | @write c ctx result hc =>
    refine ⟨⟨others, hothers, ?_⟩, h.registered, hexist⟩
    rw [Multiset.map_add, add_right_comm]
    exact hserved.write ctx result hc
  | @track c d hc hd hnl =>
    refine ⟨⟨others, hothers, ?_⟩, h.registered, hexist⟩
    rw [Multiset.map_add, add_right_comm]
    exact hserved.track hc hd (Heap.root_ne_of_not_linked h.acyclic hd hnl)
  | @other ctx callback result jobs hj =>
    refine ⟨⟨(.other callback, result) ::ₘ others, ?_, ?_⟩, h.registered, hexist⟩
    · rw [Multiset.filterMap_cons_none _ _ rfl, hothers]
    · rw [hj, Multiset.map_cons, Multiset.cons_add] at hserved
      rw [Multiset.add_cons, Multiset.add_cons]
      exact hserved

theorem take (h : s.Inv) {i : ℕ} {result : Result T Err} (ht : Take i result s s') : s'.Inv := by
  obtain ⟨others, hothers, hserved⟩ := h.served
  cases ht with
  | @take ctx jobs hj =>
    have htaken : takenJobs { s with jobs := jobs, taken := s.taken ++ [(i, result)] } =
        (.input i, result) ::ₘ s.takenJobs := by
      unfold takenJobs
      rw [List.map_append, ← Multiset.coe_add, add_comm]; rfl
    refine ⟨⟨others, hothers, ?_⟩, h.registered, h.exist⟩
    rw [hj, Multiset.map_cons, Multiset.cons_add] at hserved
    rw [htaken, Multiset.cons_add, Multiset.add_cons]
    exact hserved

/-- Each registered input has been queued, once, if it can be read, with what is read. -/
theorem delivered (h : s.Inv) : s.pending + (s.taken : Multiset (ℕ × Result T Err)) =
    (((s.cells.take s.registered).zipIdx).filterMap fun reg =>
      (s.heap.read reg.1).map fun result => (reg.2, result) : List (ℕ × Result T Err)) := by
  obtain ⟨others, hothers, hserved⟩ := h.served
  have htaken : s.takenJobs.filterMap delivery = (s.taken : Multiset (ℕ × Result T Err)) := by
    unfold takenJobs
    rw [Multiset.filterMap_coe, List.filterMap_map]
    exact congrArg _ List.filterMap_some
  have hsent := congrArg (Multiset.filterMap delivery) hserved.sent_eq
  rw [Multiset.filterMap_add, Multiset.filterMap_add, htaken, hothers, add_zero,
    Multiset.filterMap_filterMap] at hsent
  rw [pending, hsent, ← h.registered, List.filterMap_filterMap, Multiset.filterMap_coe]
  refine congrArg _ (List.filterMap_congr fun reg hreg => ?_)
  obtain ⟨c, k⟩ := reg
  cases k with
  | other callback =>
    simp only [Heap.owed, registration]
    cases s.heap.value (s.heap.root c) <;> rfl
  | input i =>
    simp only [Heap.owed, registration, Option.bind_some]
    rw [Heap.read_eq h.acyclic (hserved.mem _ (Multiset.mem_coe.2 hreg))]
    cases s.heap.value (s.heap.root c) <;> rfl

theorem mem_delivered (h : s.Inv) {i : ℕ} {result : Result T Err} :
    (i, result) ∈ s.pending ∨ (i, result) ∈ s.taken ↔
      ∃ c, s.cells[i]? = some c ∧ i < s.registered ∧ s.heap.read c = some result := by
  rw [← Multiset.mem_coe, ← Multiset.mem_add, h.delivered, Multiset.mem_coe, List.mem_filterMap]
  constructor
  · rintro ⟨⟨c, i'⟩, hmem, hr⟩
    obtain ⟨r, hr, heq⟩ := Option.map_eq_some_iff.1 hr
    cases heq
    rw [List.mem_zipIdx_iff_getElem?, List.getElem?_take] at hmem
    split at hmem
    · next hlt => exact ⟨c, hmem, hlt, hr⟩
    · cases hmem
  · rintro ⟨c, hc, hlt, hr⟩
    refine ⟨(c, i), ?_, by simp [hr]⟩
    rw [List.mem_zipIdx_iff_getElem?, List.getElem?_take, if_pos hlt, hc]

theorem taken_nodup (h : s.Inv) : (s.taken.map Prod.fst).Nodup := by
  set F : ℕ × ℕ → Option (ℕ × Result T Err) :=
    fun reg => (s.heap.read reg.1).map fun result => (reg.2, result)
  have hkey : ((((s.cells.take s.registered).zipIdx).filterMap F).map Prod.fst).Nodup := by
    have hF : ∀ reg ∈ (s.cells.take s.registered).zipIdx, ∀ k,
        (F reg).map Prod.fst = some k → k = reg.2 := by
      intro reg _ k hk
      simp only [F, Option.map_map, Option.map_eq_some_iff] at hk
      obtain ⟨_, -, rfl⟩ := hk
      rfl
    have hsub := Conserve.filterMap_sublist_map hF
    have hsnd : ((s.cells.take s.registered).zipIdx).map (fun reg => reg.2) = _ :=
      List.zipIdx_map_snd ..
    rw [hsnd] at hsub
    rw [List.map_filterMap]
    exact hsub.nodup List.nodup_range'
  have hle : ((s.taken.map Prod.fst : List ℕ) : Multiset ℕ) ≤
      ((((s.cells.take s.registered).zipIdx).filterMap F).map Prod.fst : List ℕ) := by
    rw [← Multiset.map_coe, ← Multiset.map_coe, ← h.delivered]
    exact Multiset.map_le_map (Multiset.le_add_left ..)
  exact Multiset.coe_nodup.1 (Multiset.nodup_of_le hle (Multiset.coe_nodup.2 hkey))

theorem of_mem_taken (h : s.Inv) {i : ℕ} {result : Result T Err} (ht : (i, result) ∈ s.taken) :
    ∃ c, s.cells[i]? = some c ∧ s.heap.read c = some result := by
  obtain ⟨c, hc, -, hr⟩ := h.mem_delivered.1 (.inr ht)
  exact ⟨c, hc, hr⟩

theorem taken_lt (h : s.Inv) : ∀ i ∈ s.taken.map Prod.fst, i < s.cells.length := by
  intro i hi
  obtain ⟨⟨i, r⟩, ht, rfl⟩ := List.mem_map.1 hi
  obtain ⟨c, hc, -⟩ := h.of_mem_taken ht
  exact (List.getElem?_eq_some_iff.1 hc).1

/-- A continuation that is taken belongs to an input that has not been taken. -/
theorem not_mem_of_take (h : s.Inv) {i : ℕ} {result : Result T Err} (ht : Take i result s s') :
    i ∉ s.taken.map Prod.fst ∧ i < s.cells.length := by
  have hnodup := (h.take ht).taken_nodup
  have hlt := (h.take ht).taken_lt i
  obtain ⟨hj⟩ := ht
  rw [List.map_append, List.nodup_append] at hnodup
  refine ⟨fun hi => hnodup.2.2 i hi i (List.mem_singleton_self i) rfl, hlt ?_⟩
  rw [List.map_append]
  exact List.mem_append_right _ (List.mem_singleton_self i)

theorem taken_subperm (h : s.Inv) : (s.taken.map Prod.fst).Subperm (List.range s.cells.length) :=
  h.taken_nodup.subperm fun i hi => List.mem_range.2 (h.taken_lt i hi)

theorem taken_length_le (h : s.Inv) : s.taken.length ≤ s.cells.length := by
  simpa using h.taken_subperm.length_le

/-- When as many continuations have run as there are inputs, every input has been taken. -/
theorem mem_taken_of_length (h : s.Inv) (hlen : s.cells.length ≤ s.taken.length) {i : ℕ}
    (hi : i < s.cells.length) : ∃ result, (i, result) ∈ s.taken := by
  have hperm := h.taken_subperm.perm_of_length_le (by simpa using hlen)
  obtain ⟨⟨i, r⟩, ht, rfl⟩ := List.mem_map.1 (hperm.mem_iff.2 (List.mem_range.2 hi))
  exact ⟨r, ht⟩

/-- Then every input that has resolved has been taken. -/
theorem taken_of_idle (h : s.Inv) (hidle : s.Idle)
    (hres : ∀ c ∈ s.cells, (s.heap.read c).isSome) : s.taken.length = s.cells.length := by
  refine h.taken_length_le.antisymm ?_
  have hsub : (List.range s.cells.length).Subperm (s.taken.map Prod.fst) := by
    refine List.nodup_range.subperm fun i hi => ?_
    have hi := List.mem_range.1 hi
    obtain ⟨r, hr⟩ := Option.isSome_iff_exists.1 (hres _ (List.getElem_mem hi))
    have hmem := h.mem_delivered.2 ⟨_, List.getElem?_eq_getElem hi, by rw [hidle.1]; exact hi, hr⟩
    rw [hidle.2] at hmem
    exact List.mem_map_of_mem (hmem.resolve_left (Multiset.notMem_zero _))
  simpa using hsub.length_le

end Inv

theorem Step.cells_eq (hs : Step s s') : s'.cells = s.cells := by
  cases hs <;> rfl

theorem Step.taken_eq (hs : Step s s') : s'.taken = s.taken := by
  cases hs <;> rfl

end Inputs
end AsyncEry.Cell
