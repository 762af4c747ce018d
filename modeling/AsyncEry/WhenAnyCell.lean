import AsyncEry.Inputs
import AsyncEry.Lib.Run

/-!
# `WhenAnyCell` resolves to the first value, and fails when everything failed

A continuation that gets a value writes it at once; one that gets an error counts it, and the one
that counts last writes its error. While an input can still have a value the count is below the
number of inputs, so no error is written before a value.
-/

namespace AsyncEry.Cell
open Scheduler Lts

/-- `WhenAnyExecutionContext`. -/
structure WhenAnyExecutionContext where
  numErroneousCells : ℕ
  totalCells : ℕ

/-- `log_error`. -/
def WhenAnyExecutionContext.logError (x : WhenAnyExecutionContext) : WhenAnyExecutionContext × Bool :=
  let cellsErroredSoFar := 1 + x.numErroneousCells
  ({ x with numErroneousCells := x.numErroneousCells + 1 },
    decide (cellsErroredSoFar ≥ x.totalCells))

/-- A `WhenAnyCell` with its input cells, the continuations that are about to write their error, and
the jobs its underlying cell has handed to the scheduler. -/
structure WhenAnyCell (T Err Cb : Type) where
  inputs : Inputs T Err Cb
  executionContext : WhenAnyExecutionContext
  running : Multiset (Context × Err)
  underlyingCell : WriteOnceCell T Err Cb
  scheduler : List (Queued T Err Cb)

namespace WhenAnyCell
variable {T Err Cb : Type}

def read (s : WhenAnyCell T Err Cb) : Option (Result T Err) := s.underlyingCell.read

/-- `underlying_cell->write` and `underlying_cell->error`. -/
def resolve (s : WhenAnyCell T Err Cb) (ctx : Context) (result : Result T Err) :
    WhenAnyCell T Err Cb :=
  let (cell, jobs, _) := result.mapResult (s.underlyingCell.write ctx) (s.underlyingCell.error ctx)
  { s with underlyingCell := cell, scheduler := s.scheduler ++ jobs }

def await (s : WhenAnyCell T Err Cb) (callback : Cb) : WhenAnyCell T Err Cb :=
  let (cell, jobs) := s.underlyingCell.await callback
  { s with underlyingCell := cell, scheduler := s.scheduler ++ jobs }

/-- The constructor is about to enter its loop. -/
def Init (cells : List ℕ) (s : WhenAnyCell T Err Cb) : Prop :=
  s.inputs.Init cells ∧ s = ⟨s.inputs, ⟨0, cells.length⟩, 0, .init, []⟩

inductive Step : WhenAnyCell T Err Cb → WhenAnyCell T Err Cb → Prop
  | inputs {s inputs} (h : s.inputs.Step inputs) : Step s { s with inputs := inputs }
  | value {s i v inputs} (ctx : Context) (h : Inputs.Take i (.value v) s.inputs inputs) :
    Step s ({ s with inputs := inputs }.resolve ctx (.value v))
  | error {s i e inputs} (ctx : Context) (h : Inputs.Take i (.error e) s.inputs inputs) :
    Step s { s with
      inputs := inputs
      executionContext := s.executionContext.logError.1
      running := if s.executionContext.logError.2 then (ctx, e) ::ₘ s.running else s.running }
  | write {s ctx e running} (h : s.running = (ctx, e) ::ₘ running) :
    Step s ({ s with running := running }.resolve ctx (.error e))
  | await {s} (callback : Cb) : Step s (s.await callback)

theorem read_resolve (s : WhenAnyCell T Err Cb) (ctx : Context) (result : Result T Err) :
    (s.resolve ctx result).read = some (s.read.getD result) := by
  cases result <;> exact WriteOnceCell.value_writeResultToValue ..

theorem read_await (s : WhenAnyCell T Err Cb) (callback : Cb) : (s.await callback).read = s.read :=
  WriteOnceCell.value_await ..

/-! ### The counter and the first value -/

def valueOf (t : ℕ × Result T Err) : Option T := t.2.mapResult some fun _ => none

/-- The first value with which a continuation ran. -/
def firstValue (taken : List (ℕ × Result T Err)) : Option T := taken.findSome? valueOf

/-- All continuations have run with errors, and `e` is that of the last. -/
def AllErrors (cells : List ℕ) (taken : List (ℕ × Result T Err)) (e : Err) : Prop :=
  taken.length = cells.length ∧ firstValue taken = none ∧ ∃ i, taken.getLast? = some (i, .error e)

structure Inv (cells : List ℕ) (s : WhenAnyCell T Err Cb) : Prop where
  inputs : s.inputs.Inv
  cells_eq : s.inputs.cells = cells
  total : s.executionContext.totalCells = cells.length
  counted : s.executionContext.numErroneousCells = s.inputs.taken.countP fun t => (valueOf t).isNone
  first : ∀ v, firstValue s.inputs.taken = some v → s.read = some (.value v)
  value : ∀ v, s.read = some (.value v) → firstValue s.inputs.taken = some v
  error : ∀ e, s.read = some (.error e) → AllErrors cells s.inputs.taken e
  writing : ∀ ctx e, (ctx, e) ∈ s.running → AllErrors cells s.inputs.taken e
  full : cells ≠ [] → s.executionContext.numErroneousCells = cells.length →
    s.running ≠ 0 ∨ s.read.isSome

variable {cells : List ℕ} {s s' : WhenAnyCell T Err Cb}

theorem firstValue_append (taken : List (ℕ × Result T Err)) (t : ℕ × Result T Err) :
    firstValue (taken ++ [t]) = (firstValue taken).or (valueOf t) := by
  unfold firstValue
  rw [List.findSome?_append, List.findSome?_singleton]

theorem firstValue_eq_none {taken : List (ℕ × Result T Err)}
    (h : taken.countP (fun t => (valueOf t).isNone) = taken.length) : firstValue taken = none :=
  List.findSome?_eq_none_iff.2 fun t ht => Option.isNone_iff_eq_none.1 (List.countP_eq_length.1 h t ht)

theorem Init.inv (h : Init cells s) : s.Inv cells := by
  obtain ⟨hinputs, hs⟩ := h
  have hinv := hinputs.inv
  obtain ⟨-, -, hi⟩ := hinputs
  rw [hs]
  refine ⟨hinv, by rw [hi], rfl, by rw [hi]; rfl, by rw [hi]; nofun, nofun, nofun, nofun,
    fun hne hlen => ?_⟩
  exact absurd (List.length_eq_zero_iff.1 hlen.symm) hne

namespace Inv

theorem lt_of_take (h : s.Inv cells) {i : ℕ} {result : Result T Err} {inputs : Inputs T Err Cb}
    (ht : Inputs.Take i result s.inputs inputs) : s.inputs.taken.length < cells.length := by
  have hle := (h.inputs.take ht).taken_length_le
  obtain ⟨hj⟩ := ht
  simpa [h.cells_eq] using hle

theorem takeValue (h : s.Inv cells) {i : ℕ} {v : T} {inputs : Inputs T Err Cb} (ctx : Context)
    (ht : Inputs.Take i (.value v) s.inputs inputs) :
    ({ s with inputs := inputs }.resolve ctx (.value v)).Inv cells := by
  have hlt := h.lt_of_take ht
  have hinv := h.inputs.take ht
  have hcounted := h.counted
  have hcount := s.inputs.taken.countP_le_length (p := fun t => (valueOf t).isNone)
  have hread := read_resolve { s with inputs := inputs } ctx (.value v)
  change _ = some (s.read.getD (.value v)) at hread
  -- no error has been written, nor is any about to be
  have hnot : ∀ {e}, ¬ AllErrors cells s.inputs.taken e := fun he => by rw [he.1] at hlt; omega
  have hcases : s.read = none ∧ firstValue s.inputs.taken = none ∨
      ∃ w, s.read = some (.value w) ∧ firstValue s.inputs.taken = some w := by
    cases hr : s.read with
    | none =>
      refine .inl ⟨rfl, ?_⟩
      by_contra hne
      obtain ⟨w, hw⟩ := Option.ne_none_iff_exists'.1 hne
      rw [h.first w hw] at hr; cases hr
    | some r =>
      cases r with
      | value w => exact .inr ⟨w, rfl, h.value w hr⟩
      | error e => exact absurd (h.error e hr) hnot
  have hfirst : firstValue (s.inputs.taken ++ [(i, .value v)]) =
      (firstValue s.inputs.taken).or (some v) := firstValue_append ..
  obtain ⟨hj⟩ := ht
  refine ⟨hinv, h.cells_eq, h.total, ?_, ?_, ?_, ?_, ?_, ?_⟩
  · show s.executionContext.numErroneousCells = List.countP _ (s.inputs.taken ++ [(i, .value v)])
    rw [List.countP_append, hcounted]; rfl
  · intro w hw
    change firstValue (s.inputs.taken ++ [(i, .value v)]) = some w at hw
    rw [hfirst] at hw
    rw [hread]
    rcases hcases with ⟨hr, hf⟩ | ⟨w', hr, hf⟩ <;> rw [hf] at hw <;> rw [hr] <;> cases hw <;> rfl
  · intro w hw
    show firstValue (s.inputs.taken ++ [(i, .value v)]) = some w
    rw [hread] at hw
    rw [hfirst]
    rcases hcases with ⟨hr, hf⟩ | ⟨w', hr, hf⟩ <;> rw [hr] at hw <;> rw [hf] <;> cases hw <;> rfl
  · intro e he
    rw [hread] at he
    rcases hcases with ⟨hr, -⟩ | ⟨w', hr, -⟩ <;> rw [hr] at he <;> cases he
  · intro ctx' e he
    exact absurd (h.writing ctx' e he) hnot
  · intro _ hfull
    change s.executionContext.numErroneousCells = _ at hfull
    omega

/-- The continuation that counts last is the last to run, and all before it got errors. -/
theorem takeError (h : s.Inv cells) {i : ℕ} {e : Err} {inputs : Inputs T Err Cb} (ctx : Context)
    (ht : Inputs.Take i (.error e) s.inputs inputs) :
    Inv cells { s with
      inputs := inputs
      executionContext := s.executionContext.logError.1
      running := if s.executionContext.logError.2 then (ctx, e) ::ₘ s.running else s.running } := by
  have hlt := h.lt_of_take ht
  have hinv := h.inputs.take ht
  have hcounted := h.counted
  have hcount := s.inputs.taken.countP_le_length (p := fun t => (valueOf t).isNone)
  have hnot : ∀ {e}, ¬ AllErrors cells s.inputs.taken e := fun he => by rw [he.1] at hlt; omega
  have hfirst : firstValue (s.inputs.taken ++ [(i, .error e)]) = firstValue s.inputs.taken := by
    rw [firstValue_append]; exact Option.or_none
  have hlast : s.executionContext.logError.2 = true →
      AllErrors cells (s.inputs.taken ++ [(i, .error e)]) e := by
    intro hlog
    have hge := of_decide_eq_true hlog
    rw [h.total] at hge
    refine ⟨?_, ?_, i, List.getLast?_concat⟩
    · rw [List.length_append, List.length_singleton]; omega
    · rw [hfirst]; exact firstValue_eq_none (by omega)
  obtain ⟨hj⟩ := ht
  refine ⟨hinv, h.cells_eq, h.total, ?_, ?_, ?_, ?_, ?_, ?_⟩
  · show s.executionContext.numErroneousCells + 1 = List.countP _ (s.inputs.taken ++ [_])
    rw [List.countP_append, hcounted]; rfl
  · intro w hw
    exact h.first w (hfirst ▸ hw)
  · intro w hw
    show firstValue (s.inputs.taken ++ [(i, .error e)]) = some w
    rw [hfirst]; exact h.value w hw
  · intro e' he'
    exact absurd (h.error e' he') hnot
  · intro ctx' e' he'
    simp only at he'
    split at he'
    · next hlog =>
      rcases Multiset.mem_cons.1 he' with heq | he'
      · cases heq; exact hlast hlog
      · exact absurd (h.writing ctx' e' he') hnot
    · exact absurd (h.writing ctx' e' he') hnot
  · intro _ hfull
    change s.executionContext.numErroneousCells + 1 = _ at hfull
    have hlog : s.executionContext.logError.2 = true := decide_eq_true (by rw [h.total]; omega)
    refine .inl ?_
    show (if s.executionContext.logError.2 then _ else _) ≠ 0
    rw [if_pos hlog]
    exact Multiset.cons_ne_zero

theorem write (h : s.Inv cells) {ctx : Context} {e : Err} {running : Multiset (Context × Err)}
    (hr : s.running = (ctx, e) ::ₘ running) :
    ({ s with running := running }.resolve ctx (.error e)).Inv cells := by
  have hall := h.writing ctx e (by rw [hr]; exact Multiset.mem_cons_self ..)
  have hread := read_resolve { s with running := running } ctx (.error e)
  change _ = some (s.read.getD (.error e)) at hread
  refine ⟨h.inputs, h.cells_eq, h.total, h.counted, ?_, ?_, ?_, ?_, ?_⟩
  · intro v hv
    rw [hread, h.first v hv]; rfl
  · intro v hv
    rw [hread] at hv
    rcases hr' : s.read with _ | result <;> rw [hr'] at hv <;> cases hv
    exact h.value v hr'
  · intro e' he'
    rw [hread] at he'
    rcases hr' : s.read with _ | result <;> rw [hr'] at he' <;> cases he'
    · exact hall
    · exact h.error e' hr'
  · intro ctx' e' he'
    exact h.writing ctx' e' (by rw [hr]; exact Multiset.mem_cons_of_mem he')
  · intro _ _
    exact .inr (by rw [hread]; rfl)

theorem step (h : s.Inv cells) (hs : Step s s') : s'.Inv cells := by
  cases hs with
  | inputs hi =>
    have htaken := hi.taken_eq
    refine ⟨h.inputs.step hi, hi.cells_eq.trans h.cells_eq, h.total, ?_, ?_, ?_, ?_, ?_, h.full⟩ <;>
      simp only [htaken]
    exacts [h.counted, h.first, h.value, h.error, h.writing]
  | value ctx ht => exact h.takeValue ctx ht
  | error ctx ht => exact h.takeError ctx ht
  | write hr => exact h.write hr
  | await callback =>
    have hread := s.read_await callback
    refine ⟨h.inputs, h.cells_eq, h.total, h.counted, ?_, ?_, ?_, h.writing, ?_⟩ <;> rw [hread]
    exacts [h.first, h.value, h.error, h.full]

/-- When all continuations have run with errors, every input has resolved to an error. -/
theorem inputs_error (h : s.Inv cells) {e : Err} (he : AllErrors cells s.inputs.taken e) :
    ∀ c ∈ cells, ∃ e', s.inputs.heap.read c = some (.error e') := by
  intro c hc
  obtain ⟨i, hi⟩ := List.mem_iff_getElem?.1 hc
  have hlt := (List.getElem?_eq_some_iff.1 hi).1
  rw [← h.cells_eq] at hlt
  obtain ⟨r, hr⟩ := h.inputs.mem_taken_of_length (by rw [h.cells_eq, he.1]) hlt
  obtain ⟨c', hc', hread⟩ := h.inputs.of_mem_taken hr
  rw [h.cells_eq, hi] at hc'
  cases hc'
  cases r with
  | value v => cases List.findSome?_eq_none_iff.1 he.2.1 _ hr
  | error e' => exact ⟨e', hread⟩

/-- When all inputs have resolved and no job is left, the cell has. -/
theorem isSome_of_idle (h : s.Inv cells) (hne : cells ≠ []) (hidle : s.inputs.Idle)
    (hrunning : s.running = 0) (hres : ∀ c ∈ cells, (s.inputs.heap.read c).isSome) :
    s.read.isSome := by
  have hlen := h.inputs.taken_of_idle hidle (by rw [h.cells_eq]; exact hres)
  rw [h.cells_eq] at hlen
  rcases hf : firstValue s.inputs.taken with _ | v
  · have hall : s.inputs.taken.countP (fun t => (valueOf t).isNone) = s.inputs.taken.length :=
      List.countP_eq_length.2 fun t ht => by
        rw [List.findSome?_eq_none_iff.1 hf t ht]; rfl
    have hcounted := h.counted
    exact (h.full hne (by omega)).resolve_left (absurd hrunning)
  · rw [h.first v hf]; rfl

end Inv

theorem inv_of_reach (h : Reach (Init cells) Step s) : s.Inv cells :=
  Inductive.reach ⟨fun _ h => h.inv, fun _ _ h hs => h.step hs⟩ h

theorem Step.read (hs : Step s s') {result : Result T Err} (hr : s.read = some result) :
    s'.read = some result := by
  cases hs with
  | inputs | error => exact hr
  | value ctx ht => rw [read_resolve]; change some (s.read.getD _) = _; rw [hr]; rfl
  | write hr' => rw [read_resolve]; change some (s.read.getD _) = _; rw [hr]; rfl
  | await callback => rw [read_await]; exact hr

/-- In every state of every run: once a continuation has run with a value, the cell has the value of
the first such continuation; when it has an error, every input has resolved to an error, and the error
is that of the last continuation to run; it is resolved when all inputs are and nothing is pending;
and a result stays. -/
theorem run_first_value (cells : List ℕ) (r : Run (Init cells : WhenAnyCell T Err Cb → Prop) Step)
    (k : ℕ) :
    (∀ v, firstValue (r.state k).inputs.taken = some v → (r.state k).read = some (.value v)) ∧
    (∀ e, (r.state k).read = some (.error e) →
      (∀ c ∈ cells, ∃ e', (r.state k).inputs.heap.read c = some (.error e')) ∧
      (r.state k).inputs.taken.length = cells.length ∧
      ∃ i, (r.state k).inputs.taken.getLast? = some (i, .error e)) ∧
    (cells ≠ [] → (r.state k).inputs.Idle → (r.state k).running = 0 →
      (∀ c ∈ cells, ((r.state k).inputs.heap.read c).isSome) → (r.state k).read.isSome) ∧
    (∀ k' result, k ≤ k' → (r.state k).read = some result → (r.state k').read = some result) := by
  have h := inv_of_reach (r.reach k)
  refine ⟨h.first, fun e he => ?_, h.isSome_of_idle, fun k' result hk hr => ?_⟩
  · have hall := h.error e he
    exact ⟨h.inputs_error hall, hall.1, hall.2.2⟩
  · exact r.stable (P := fun s => s.read = some result) (fun _ _ _ hs => hs.read) hk hr

end WhenAnyCell
end AsyncEry.Cell
