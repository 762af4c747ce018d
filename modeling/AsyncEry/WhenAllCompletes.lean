import AsyncEry.WhenAllCell

/-!
# When a `WhenAllCell` is resolved

The underlying cell is written from a continuation only: by the one that counts last, or by one that
gets an error. So when all inputs have resolved and all continuations have run, the cell is resolved
provided that there was a continuation at all; for the empty list there is none, and nobody else
writes the cell.
-/

namespace AsyncEry.Cell
open Scheduler Lts

/-- `block`, called in this state: no result as long as it waits. -/
def WriteOnceCell.block {T Err Cb : Type} (c : WriteOnceCell T Err Cb) : Option (Result T Err) :=
  match c.value with
  | none => none
  | some value => some value

namespace WhenAllCell
variable {T Err Cb : Type} {cells : List ℕ} {s s' : WhenAllCell T Err Cb}

def block (s : WhenAllCell T Err Cb) : Option (Result (List T) Err) := s.underlyingCell.block

theorem block_eq_read (s : WhenAllCell T Err Cb) : s.block = s.read := by
  show s.underlyingCell.block = s.underlyingCell.value
  unfold WriteOnceCell.block
  cases s.underlyingCell.value <;> rfl

/-- Every input has resolved, the constructor has returned, and no continuation is pending. -/
structure Settled (s : WhenAllCell T Err Cb) : Prop where
  idle : s.inputs.Idle
  running : s.running = 0
  resolved : ∀ c ∈ s.inputs.cells, (s.inputs.heap.read c).isSome

/-- The cell is resolved, to what its inputs ask for, and `block` gives it. -/
structure Completed (s : WhenAllCell T Err Cb) : Prop where
  resolved : s.read.isSome
  vector : ∀ vs, s.inputs.cells.map s.inputs.heap.read = vs.map (fun v => some (.value v)) →
    s.read = some (.value vs)
  error : ∀ c ∈ s.inputs.cells, ∀ e, s.inputs.heap.read c = some (.error e) →
    ∃ e', s.read = some (.error e')
  returns : s.block.isSome

/-- Once the count is full somebody is about to write the cell or has written it; who gets an error
has written it. -/
structure Progress (s : WhenAllCell T Err Cb) : Prop where
  full : 0 < s.executionContext.numResolvedCells →
    s.executionContext.totalCells ≤ s.executionContext.numResolvedCells →
    s.running = 0 → s.read.isSome
  failed : ∀ i e, (i, .error e) ∈ s.inputs.taken → s.read.isSome

theorem isSome_resolve (s : WhenAllCell T Err Cb) (ctx : Context) (result : Result (List T) Err) :
    (s.resolve ctx result).read.isSome := by
  rw [read_resolve]; rfl

theorem Init.progress [Inhabited T] (h : Init cells s) : s.Progress := by
  obtain ⟨⟨-, -, hi⟩, hs⟩ := h
  rw [hs]
  refine ⟨fun hpos => absurd hpos (Nat.lt_irrefl 0), fun i e hmem => ?_⟩
  rw [hi] at hmem
  cases hmem

theorem Progress.step (h : s.Progress) (hs : Step s s') : s'.Progress := by
  cases hs with
  | inputs hi =>
    refine ⟨h.full, fun i e hmem => h.failed i e ?_⟩
    rw [← hi.taken_eq]
    exact hmem
  | value ctx ht =>
    refine ⟨fun _ _ hr => absurd hr Multiset.cons_ne_zero, fun i' e hmem => ?_⟩
    obtain ⟨-⟩ := ht
    refine h.failed i' e ((List.mem_append.1 hmem).resolve_right fun hmem => ?_)
    cases List.mem_singleton.1 hmem
  | error ctx ht =>
    exact ⟨fun _ _ _ => isSome_resolve .., fun _ _ _ => isSome_resolve ..⟩
  | @count ctx running hr =>
    refine ⟨fun _ hfull hrunning => ?_, h.failed⟩
    -- the continuation whose count fills it stays, to write the vector
    have hlast : s.executionContext.count.2 = true := decide_eq_true hfull
    change (if s.executionContext.count.2 then _ else _) = 0 at hrunning
    rw [if_pos hlast] at hrunning
    exact absurd hrunning Multiset.cons_ne_zero
  | write hr =>
    exact ⟨fun _ _ _ => isSome_resolve .., fun _ _ _ => isSome_resolve ..⟩
  | await callback =>
    have hread := s.read_await callback
    exact ⟨by rw [hread]; exact h.full, by rw [hread]; exact h.failed⟩

theorem progress_of_reach [Inhabited T] (h : Reach (Init cells) Step s) : s.Progress :=
  Inductive.reach ⟨fun _ h => h.progress, fun _ _ h hs => h.step hs⟩ h

namespace Inv

/-- When all continuations have run, either one got an error or the count is full. -/
theorem isSome_of_settled (h : s.Inv cells) (hp : s.Progress) (hne : cells ≠ []) (hs : s.Settled) :
    s.read.isSome := by
  have hlen := h.inputs.taken_of_idle hs.idle hs.resolved
  rw [h.cells_eq] at hlen
  by_cases hall : ∀ t ∈ s.inputs.taken, isValue t = true
  · have hcounted := h.counted
    have hcount := List.countP_eq_length.2 hall
    have hpos := List.length_pos_iff.2 hne
    have hzero : counting s.running = 0 := by rw [hs.running]; rfl
    exact hp.full (by omega) (by rw [h.total]; omega) hs.running
  · push Not at hall
    obtain ⟨⟨i, r⟩, hmem, hr⟩ := hall
    cases r with
    | value v => exact absurd rfl hr
    | error e => exact hp.failed i e hmem

theorem completed (h : s.Inv cells) (hp : s.Progress) (hne : cells ≠ []) (hs : s.Settled) :
    s.Completed := by
  have hsome := h.isSome_of_settled hp hne hs
  obtain ⟨result, hr⟩ := Option.isSome_iff_exists.1 hsome
  cases result with
  | value vs =>
    have heq := h.vector_eq hr
    rw [← h.cells_eq] at heq
    refine ⟨hsome, fun vs' hvs' => ?_, fun c hc e he => ?_, by rw [block_eq_read]; exact hsome⟩
    · have hinj : Function.Injective fun v : T => (some (.value v) : Option (Result T Err)) :=
        fun v v' hv => Result.value.inj (Option.some.inj hv)
      rw [hr, List.map_injective_iff.2 hinj (heq.symm.trans hvs')]
    · have hmem := List.mem_map_of_mem (f := s.inputs.heap.read) hc
      rw [heq, he] at hmem
      obtain ⟨v, -, hv⟩ := List.mem_map.1 hmem
      cases hv
  | error e =>
    obtain ⟨c, hc, he⟩ := h.error_mem hr
    rw [← h.cells_eq] at hc
    refine ⟨hsome, fun vs hvs => ?_, fun _ _ _ _ => ⟨e, hr⟩, by rw [block_eq_read]; exact hsome⟩
    have hmem := List.mem_map_of_mem (f := s.inputs.heap.read) hc
    rw [hvs, he] at hmem
    obtain ⟨v, -, hv⟩ := List.mem_map.1 hmem
    cases hv

end Inv

/-! ### The empty list -/

/-- Without inputs no continuation ever runs, and nothing is ever written. -/
structure Unwritten (s : WhenAllCell T Err Cb) : Prop where
  running : s.running = 0
  read : s.read = none

theorem Unwritten.step (h : s.Unwritten) (hinv : s.Inv []) (hs : Step s s') : s'.Unwritten := by
  have hnone : ∀ {p running}, s.running ≠ p ::ₘ running := fun hr =>
    Multiset.cons_ne_zero (hr.symm.trans h.running)
  cases hs with
  | inputs hi => exact ⟨h.running, h.read⟩
  | value ctx ht | error ctx ht =>
    have hlt := (hinv.inputs.not_mem_of_take ht).2
    rw [hinv.cells_eq] at hlt
    exact absurd hlt (Nat.not_lt_zero _)
  | count hr => exact absurd hr hnone
  | write hr => exact absurd hr hnone
  | await callback => exact ⟨h.running, (s.read_await callback).trans h.read⟩

theorem unwritten_of_reach [Inhabited T] (h : Reach (Init []) Step s) : s.Unwritten := by
  have hboth : s.Inv [] ∧ s.Unwritten :=
    Inductive.reach (P := fun s : WhenAllCell T Err Cb => s.Inv [] ∧ s.Unwritten)
      ⟨fun s hs => ⟨hs.inv, by rw [hs.2]; exact ⟨rfl, rfl⟩⟩,
        fun s s' h hs => ⟨h.1.step hs, h.2.step h.1 hs⟩⟩ h
  exact hboth.2

/-- `when_all` of no tasks. -/
def empty (T Err Cb : Type) : WhenAllCell T Err Cb :=
  ⟨⟨[], ⟨0, fun _ => .writeOnce .init⟩, 0, 0, [], []⟩, .create [], 0, .init, []⟩

theorem init_empty [Inhabited T] : Init [] (empty T Err Cb) :=
  ⟨⟨List.forall_mem_nil _, fun _ => .inl rfl, rfl⟩, rfl⟩

theorem settled_empty : (empty T Err Cb).Settled :=
  ⟨⟨rfl, rfl⟩, rfl, List.forall_mem_nil _⟩

/-- The cell is completed whenever its inputs have settled, provided that it has an input. -/
theorem run_completes_iff [Inhabited T] (cells : List ℕ) :
    (∀ (r : Run (Init cells : WhenAllCell T Err Cb → Prop) Step) (k : ℕ),
      (r.state k).Settled → (r.state k).Completed) ↔ cells ≠ [] := by
  constructor
  · rintro hall rfl
    have hstart : Reach (Init []) Step (empty T Err Cb) := .start init_empty
    obtain ⟨r, k, hk⟩ := Run.exists_state hstart
    have hsome := (hall r k (hk ▸ settled_empty)).resolved
    rw [(unwritten_of_reach (r.reach k)).read] at hsome
    cases hsome
  · intro hne r k hs
    exact (inv_of_reach (r.reach k)).completed (progress_of_reach (r.reach k)) hne hs

/-- Nothing is pending from the start, and `block` waits for ever. -/
theorem empty_blocks : ∃ r : Run (Init [] : WhenAllCell ℕ ℕ ℕ → Prop) Step,
    (∃ k, (r.state k).Settled ∧ ¬ (r.state k).Completed) ∧ ∀ k, (r.state k).block = none := by
  have hstart : Reach (Init []) Step (empty ℕ ℕ ℕ) := .start init_empty
  obtain ⟨r, k, hk⟩ := Run.exists_state hstart
  have hread : ∀ k, (r.state k).read = none := fun k => (unwritten_of_reach (r.reach k)).read
  refine ⟨r, ⟨k, hk ▸ settled_empty, fun h => ?_⟩, fun k => (block_eq_read _).trans (hread k)⟩
  have hsome := h.resolved
  rw [hread k] at hsome
  cases hsome

end WhenAllCell
end AsyncEry.Cell
