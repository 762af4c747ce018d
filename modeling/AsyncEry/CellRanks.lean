import AsyncEry.CellHeap

/-!
# Ranked cells

Every cell has a rank, and `fits r callback` says that the callback may be registered on a cell of rank
`r`, and then on any cell of a lower rank. While a cell only tracks cells that do not rank above it, all
that the operations of the heap pass on and queue fits where it goes (`Climbs`). Nothing is assumed of
the chains of tracking cells; they may run in a circle.
-/

namespace AsyncEry.Cell
open Scheduler

namespace Heap
variable {T Err Cb : Type} {rank : ℕ → ℕ} {fits : ℕ → Cb → Prop} {h : Heap T Err Cb} {c d : ℕ}
  {cell : ICell T Err Cb} {callback : Cb}

structure Climbs (rank : ℕ → ℕ) (fits : ℕ → Cb → Prop) (h : Heap T Err Cb) : Prop where
  mono : ∀ {r r' callback}, r' ≤ r → fits r callback → fits r' callback
  callbacks : ∀ c, ∀ callback ∈ h.callbacks c, fits (rank c) callback
  link : ∀ c d, h.link c = some d → d < h.size ∧ rank d ≤ rank c

namespace Climbs

theorem set (h' : h.Climbs rank fits) (hlink : ∀ d, cell.link = some d → d < h.size ∧ rank d ≤ rank c)
    (hcb : ∀ callback ∈ cell.callbacks, fits (rank c) callback) :
    (h.set c cell).Climbs rank fits := by
  refine ⟨h'.mono, fun e => ?_, fun e => ?_⟩
  · rw [callbacks_set]
    by_cases he : e = c
    · rw [he, Function.update_self]
      exact hcb
    · rw [Function.update_of_ne he]
      exact h'.callbacks e
  · rw [link_set]
    by_cases he : e = c
    · rw [he, Function.update_self]
      exact hlink
    · rw [Function.update_of_ne he]
      exact h'.link e

/-- A new cell of any rank. -/
theorem alloc {fits' : ℕ → Cb → Prop} (h' : h.Climbs rank fits) (r : ℕ) (hlink : cell.link = none)
    (hcb : cell.callbacks = []) (hmono : ∀ {r r' callback}, r' ≤ r → fits' r callback → fits' r' callback)
    (hfits : ∀ {r callback}, fits r callback → fits' r callback) :
    (h.alloc cell).Climbs (Function.update rank h.size r) fits' := by
  refine ⟨hmono, fun e => ?_, fun e => ?_⟩
  · rw [callbacks_alloc]
    by_cases he : e = h.size
    · rw [he, Function.update_self, hcb]
      exact nofun
    · rw [Function.update_of_ne he, Function.update_of_ne he]
      exact fun callback hmem => hfits (h'.callbacks e callback hmem)
  · rw [link_alloc]
    by_cases he : e = h.size
    · rw [he, Function.update_self, hlink]
      exact nofun
    · rw [Function.update_of_ne he, Function.update_of_ne he]
      intro d hd
      obtain ⟨hsize, hrank⟩ := h'.link e d hd
      refine ⟨Nat.lt_succ_of_lt hsize, ?_⟩
      rw [Function.update_of_ne hsize.ne]
      exact hrank

theorem follow_le (h' : h.Climbs rank fits) (n c : ℕ) : rank (Forest.follow h.link n c) ≤ rank c := by
  induction n generalizing c with
  | zero => exact le_rfl
  | succ n ih =>
    cases hc : h.link c with
    | none => rw [Forest.follow_of_none hc]
    | some d =>
      rw [Forest.follow_succ_of_some hc]
      exact (ih d).trans (h'.link c d hc).2

theorem root_le (h' : h.Climbs rank fits) (c : ℕ) : rank (h.root c) ≤ rank c := h'.follow_le h.size c

theorem setCallbacks (h' : h.Climbs rank fits) {callbacks : List Cb}
    (hcb : ∀ callback ∈ callbacks, fits (rank c) callback) :
    (h.setCallbacks c callbacks).Climbs rank fits := by
  refine h'.set ?_ ?_
  · rw [ICell.link_setCallbacks]
    exact h'.link c
  · rw [ICell.callbacks_setCallbacks]
    exact hcb

theorem push (h' : h.Climbs rank fits) (hcb : fits (rank c) callback) :
    (h.setCallbacks c (h.callbacks c ++ [callback])).Climbs rank fits := by
  refine h'.setCallbacks fun cb hmem => ?_
  rcases List.mem_append.1 hmem with hmem | hmem
  · exact h'.callbacks c cb hmem
  · rw [List.mem_singleton.1 hmem]
    exact hcb

/-- A callback is passed on to lower cells only, and queued under the empty context. -/
theorem awaitFrom (h' : h.Climbs rank fits) (n : ℕ)
    (hcb : fits (rank c) callback) :
    (h.awaitFrom n c callback).1.Climbs rank fits ∧ (h.awaitFrom n c callback).1.size = h.size ∧
      ∀ q ∈ (h.awaitFrom n c callback).2, q.ctx = Context.empty ∧ q.callback = callback := by
  induction n generalizing c with
  | zero => exact ⟨h', rfl, List.forall_mem_nil _⟩
  | succ n ih =>
    have hpush := h'.push hcb
    rw [Heap.setCallbacks, Heap.callbacks] at hpush
    unfold Heap.awaitFrom
    cases hc : h.cells c with
    | writeOnce w =>
      rw [hc] at hpush
      cases hw : w.value with
      | some result =>
        simp only [WriteOnceCell.await_of_some hw]
        rw [← hc, set_self]
        refine ⟨h', rfl, fun q hq => ?_⟩
        rw [List.mem_singleton.1 hq]
        exact ⟨rfl, rfl⟩
      | none =>
        dsimp only [ICell.setCallbacks, ICell.callbacks] at hpush
        rw [hw] at hpush
        simp only [WriteOnceCell.await_of_none hw]
        exact ⟨hpush, rfl, List.forall_mem_nil _⟩
    | tracking t =>
      rw [hc] at hpush
      dsimp only
      cases ht : t.cell with
      | none =>
        dsimp only [ICell.setCallbacks, ICell.callbacks] at hpush
        rw [ht] at hpush
        exact ⟨hpush, rfl, List.forall_mem_nil _⟩
      | some d =>
        have hlink : h.link c = some d := by rw [Heap.link, hc]; exact ht
        exact ih (h'.mono (h'.link c d hlink).2 hcb)

theorem await (h' : h.Climbs rank fits) (hcb : fits (rank c) callback) :
    (h.await c callback).1.Climbs rank fits ∧ (h.await c callback).1.size = h.size ∧
      ∀ q ∈ (h.await c callback).2, q.ctx = Context.empty ∧ q.callback = callback :=
  h'.awaitFrom h.size hcb

theorem awaitAll (h' : h.Climbs rank fits) {callbacks : List Cb}
    (hcb : ∀ callback ∈ callbacks, fits (rank d) callback) :
    (h.awaitAll d callbacks).1.Climbs rank fits ∧ (h.awaitAll d callbacks).1.size = h.size ∧
      ∀ q ∈ (h.awaitAll d callbacks).2, q.ctx = Context.empty ∧ q.callback ∈ callbacks := by
  induction callbacks generalizing h with
  | nil => exact ⟨h', rfl, List.forall_mem_nil _⟩
  | cons callback callbacks ih =>
    obtain ⟨h₁, hsize₁, hjobs₁⟩ := h'.await (hcb callback List.mem_cons_self)
    obtain ⟨h₂, hsize₂, hjobs₂⟩ := ih h₁ fun cb hmem => hcb cb (List.mem_cons_of_mem _ hmem)
    unfold Heap.awaitAll
    refine ⟨h₂, hsize₂.trans hsize₁, fun q hq => ?_⟩
    rcases List.mem_append.1 hq with hq | hq
    · obtain ⟨hctx, hcallback⟩ := hjobs₁ q hq
      exact ⟨hctx, by rw [hcallback]; exact List.mem_cons_self⟩
    · exact ⟨(hjobs₂ q hq).1, List.mem_cons_of_mem _ (hjobs₂ q hq).2⟩

/-- A cell may come to track one that does not rank above it. -/
theorem track (h' : h.Climbs rank fits) (hd : d < h.size) (hrank : rank d ≤ rank c) :
    (h.track c d).1.Climbs rank fits ∧ (h.track c d).1.size = h.size ∧
      ∀ q ∈ (h.track c d).2.1, q.ctx = Context.empty ∧ fits (rank d) q.callback := by
  unfold Heap.track
  cases hc : h.cells c with
  | writeOnce w => exact ⟨h', rfl, List.forall_mem_nil _⟩
  | tracking t =>
    dsimp only
    split
    · exact ⟨h', rfl, List.forall_mem_nil _⟩
    · have hcb : ∀ cb ∈ t.callbacks, fits (rank c) cb := by
        have hcbs := h'.callbacks c
        rw [Heap.callbacks, hc] at hcbs
        exact hcbs
      have hlinked : (h.set c (.tracking { t with cell := some d })).Climbs rank fits := by
        refine h'.set (fun e he => ?_) hcb
        obtain rfl : d = e := Option.some.inj he
        exact ⟨hd, hrank⟩
      obtain ⟨h₁, hsize, hjobs⟩ := hlinked.awaitAll fun cb hmem => h'.mono hrank (hcb cb hmem)
      refine ⟨h₁.setCallbacks (List.forall_mem_nil _), hsize, fun q hq => ?_⟩
      exact ⟨(hjobs q hq).1, h'.mono hrank (hcb _ (hjobs q hq).2)⟩

/-- A write queues the callbacks of its cell under the context it is given. -/
theorem writeResult (h' : h.Climbs rank fits) (c : ℕ) (ctx : Context) (result : Result T Err) :
    (h.writeResult c ctx result).1.Climbs rank fits ∧ (h.writeResult c ctx result).1.size = h.size ∧
      ∀ q ∈ (h.writeResult c ctx result).2.1, q.ctx = ctx ∧
        fits (rank c) q.callback := by
  cases ht : h.isTracking c with
  | true => rw [writeResult_of_isTracking ht]; exact ⟨h', rfl, List.forall_mem_nil _⟩
  | false =>
    cases hv : h.value c with
    | some r => rw [writeResult_of_some (by rw [hv]; rfl)]; exact ⟨h', rfl, List.forall_mem_nil _⟩
    | none =>
      obtain ⟨hsize, -, hlink, -, hcb, hjobs⟩ := writeResult_of_none ctx result ht hv
      refine ⟨⟨h'.mono, fun e => ?_, fun e => ?_⟩, hsize, fun q hq => ?_⟩
      · rw [hcb]
        by_cases he : e = c
        · rw [he, Function.update_self]
          exact nofun
        · rw [Function.update_of_ne he]
          exact h'.callbacks e
      · rw [hlink, hsize]
        exact h'.link e
      · rw [hjobs] at hq
        obtain ⟨callback, hmem, rfl⟩ := List.mem_map.1 hq
        exact ⟨rfl, h'.callbacks c callback hmem⟩

end Climbs
end Heap
end AsyncEry.Cell
