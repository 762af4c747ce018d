import AsyncEry.Inputs
import AsyncEry.Lib.Run

/-!
# `WhenAllCell` never reports a wrong outcome

A continuation that gets a value stores it in its slot, then counts itself, and the one that counts
last writes the vector; a continuation that gets an error writes it at once. Each of these is a step,
between which anything may happen. No slot is stored twice, so when the count has reached the number
of inputs every slot holds its value, and no continuation is left that could store or fail.

The steps are sequentially consistent. The `fetch_add` is relaxed in the source, so nothing there orders
the last continuation's copy of the slots after the stores of the others; this the model does not show.
-/

namespace AsyncEry.Cell
open Scheduler Lts

/-- `WhenAllExecutionContext`. -/
structure WhenAllExecutionContext (T : Type) where
  resolvedValues : List T
  numResolvedCells : ℕ
  totalCells : ℕ

namespace WhenAllExecutionContext
variable {T : Type}

/-- The constructor. -/
def create (resolvedValues : List T) : WhenAllExecutionContext T :=
  ⟨resolvedValues, 0, resolvedValues.length⟩

/-- `commit_resolved_value`, up to the store. -/
def store (x : WhenAllExecutionContext T) (cellId : ℕ) (value : T) : WhenAllExecutionContext T :=
  { x with resolvedValues := x.resolvedValues.set cellId value }

/-- `commit_resolved_value`, from the (relaxed) `fetch_add` on. -/
def count (x : WhenAllExecutionContext T) : WhenAllExecutionContext T × Bool :=
  let cellsResolvedSoFar := x.numResolvedCells
  ({ x with numResolvedCells := x.numResolvedCells + 1 },
    decide (cellsResolvedSoFar + 1 ≥ x.totalCells))

end WhenAllExecutionContext

/-- What a running continuation is about to do: count itself, or write the vector. -/
inductive WhenAllPoint
  | count (ctx : Context)
  | write (ctx : Context)

def WhenAllPoint.isCount : WhenAllPoint → Bool
  | .count _ => true
  | .write _ => false

/-- How many continuations are about to count themselves. -/
def counting (running : Multiset WhenAllPoint) : ℕ := running.countP fun p => p.isCount

@[simp] theorem counting_count (ctx : Context) (running : Multiset WhenAllPoint) :
    counting (.count ctx ::ₘ running) = counting running + 1 :=
  Multiset.countP_cons_of_pos _ rfl

@[simp] theorem counting_write (ctx : Context) (running : Multiset WhenAllPoint) :
    counting (.write ctx ::ₘ running) = counting running :=
  Multiset.countP_cons_of_neg _ nofun

/-- A `WhenAllCell` with its input cells, its running continuations, and the jobs its underlying cell
has handed to the scheduler. -/
structure WhenAllCell (T Err Cb : Type) where
  inputs : Inputs T Err Cb
  executionContext : WhenAllExecutionContext T
  running : Multiset WhenAllPoint
  underlyingCell : WriteOnceCell (List T) Err Cb
  scheduler : List (Queued (List T) Err Cb)

namespace WhenAllCell
variable {T Err Cb : Type}

def read (s : WhenAllCell T Err Cb) : Option (Result (List T) Err) := s.underlyingCell.read

/-- `underlying_cell->write` and `underlying_cell->error`. -/
def resolve (s : WhenAllCell T Err Cb) (ctx : Context) (result : Result (List T) Err) :
    WhenAllCell T Err Cb :=
  let (cell, jobs, _) := result.mapResult (s.underlyingCell.write ctx) (s.underlyingCell.error ctx)
  { s with underlyingCell := cell, scheduler := s.scheduler ++ jobs }

def await (s : WhenAllCell T Err Cb) (callback : Cb) : WhenAllCell T Err Cb :=
  let (cell, jobs) := s.underlyingCell.await callback
  { s with underlyingCell := cell, scheduler := s.scheduler ++ jobs }

/-- The constructor is about to enter its loop. -/
def Init [Inhabited T] (cells : List ℕ) (s : WhenAllCell T Err Cb) : Prop :=
  s.inputs.Init cells ∧
    s = ⟨s.inputs, .create (List.replicate cells.length default), 0, .init, []⟩

inductive Step : WhenAllCell T Err Cb → WhenAllCell T Err Cb → Prop
  | inputs {s inputs} (h : s.inputs.Step inputs) : Step s { s with inputs := inputs }
  | value {s i v inputs} (ctx : Context) (h : Inputs.Take i (.value v) s.inputs inputs) :
    Step s { s with
      inputs := inputs
      executionContext := s.executionContext.store i v
      running := .count ctx ::ₘ s.running }
  | error {s i e inputs} (ctx : Context) (h : Inputs.Take i (.error e) s.inputs inputs) :
    Step s ({ s with inputs := inputs }.resolve ctx (.error e))
  | count {s ctx running} (h : s.running = .count ctx ::ₘ running) :
    Step s { s with
      executionContext := s.executionContext.count.1
      running := if s.executionContext.count.2 then .write ctx ::ₘ running else running }
  | write {s ctx running} (h : s.running = .write ctx ::ₘ running) :
    Step s ({ s with running := running }.resolve ctx (.value s.executionContext.resolvedValues))
  | await {s} (callback : Cb) : Step s (s.await callback)

theorem read_resolve (s : WhenAllCell T Err Cb) (ctx : Context) (result : Result (List T) Err) :
    (s.resolve ctx result).read = some (s.read.getD result) := by
  cases result <;> exact WriteOnceCell.value_writeResultToValue ..

theorem read_await (s : WhenAllCell T Err Cb) (callback : Cb) : (s.await callback).read = s.read :=
  WriteOnceCell.value_await ..

/-! ### The counter and the slots -/

def isValue (t : ℕ × Result T Err) : Bool := t.2.mapResult (fun _ => true) fun _ => false

/-- Every value taken is in its slot and has been counted or is about to be; the vector is written
when the count has reached the number of inputs. -/
structure Inv (cells : List ℕ) (s : WhenAllCell T Err Cb) : Prop where
  inputs : s.inputs.Inv
  cells_eq : s.inputs.cells = cells
  length : s.executionContext.resolvedValues.length = cells.length
  total : s.executionContext.totalCells = cells.length
  stored : ∀ i v, (i, .value v) ∈ s.inputs.taken → s.executionContext.resolvedValues[i]? = some v
  counted : s.executionContext.numResolvedCells + counting s.running =
    s.inputs.taken.countP isValue
  writing : ∀ ctx, .write ctx ∈ s.running → cells.length ≤ s.executionContext.numResolvedCells
  vector : ∀ vs, s.read = some (.value vs) →
    cells.length ≤ s.executionContext.numResolvedCells ∧ vs = s.executionContext.resolvedValues
  error : ∀ e, s.read = some (.error e) → ∃ i, (i, .error e) ∈ s.inputs.taken

variable {cells : List ℕ} {s s' : WhenAllCell T Err Cb}

theorem Init.inv [Inhabited T] (h : Init cells s) : s.Inv cells := by
  obtain ⟨hinputs, hs⟩ := h
  have hinv := hinputs.inv
  obtain ⟨-, -, hi⟩ := hinputs
  rw [hs]
  refine ⟨hinv, by rw [hi], ?_, ?_, ?_, ?_, nofun, nofun, nofun⟩
  · simp [WhenAllExecutionContext.create]
  · simp [WhenAllExecutionContext.create]
  · rw [hi]; nofun
  · rw [hi]; rfl

namespace Inv

/-- When the count is full, all inputs have been taken, and all with a value. -/
theorem full (h : s.Inv cells) (hn : cells.length ≤ s.executionContext.numResolvedCells) :
    s.inputs.taken.length = cells.length ∧
      ∀ i < cells.length, ∃ v, (i, .value v) ∈ s.inputs.taken := by
  have hcounted := h.counted
  have hle := h.inputs.taken_length_le
  rw [h.cells_eq] at hle
  have hcount := s.inputs.taken.countP_le_length (p := isValue)
  have hlen : s.inputs.taken.length = cells.length := by omega
  refine ⟨hlen, fun i hi => ?_⟩
  rw [← h.cells_eq] at hi
  obtain ⟨r, hr⟩ := h.inputs.mem_taken_of_length (by rw [h.cells_eq, hlen]) hi
  have hall := List.countP_eq_length.1 (show s.inputs.taken.countP isValue = _ by omega) _ hr
  cases r with
  | value v => exact ⟨v, hr⟩
  | error e => cases hall

theorem not_full_of_take (h : s.Inv cells) {i : ℕ} {result : Result T Err} {inputs : Inputs T Err Cb}
    (ht : Inputs.Take i result s.inputs inputs) :
    s.executionContext.numResolvedCells < cells.length := by
  by_contra hn
  have hlen := (h.full (not_lt.1 hn)).1
  have hle := (h.inputs.take ht).taken_length_le
  obtain ⟨hj⟩ := ht
  simp only [List.length_append, List.length_singleton, h.cells_eq] at hle
  omega

/-- The underlying cell is written, with a full vector or an error that was taken. -/
theorem resolve (h : s.Inv cells) (ctx : Context) {result : Result (List T) Err}
    (hv : ∀ vs, result = .value vs → cells.length ≤ s.executionContext.numResolvedCells ∧
      vs = s.executionContext.resolvedValues)
    (he : ∀ e, result = .error e → ∃ i, (i, .error e) ∈ s.inputs.taken) :
    (s.resolve ctx result).Inv cells := by
  have hread := s.read_resolve ctx result
  refine ⟨h.inputs, h.cells_eq, h.length, h.total, h.stored, h.counted, h.writing, ?_, ?_⟩
  · intro vs hvs
    rw [hread] at hvs
    cases hr : s.read with
    | none => rw [hr] at hvs; exact hv vs (Option.some.inj hvs)
    | some r => rw [hr] at hvs; exact h.vector vs (by rw [hr]; exact hvs)
  · intro e hes
    rw [hread] at hes
    cases hr : s.read with
    | none => rw [hr] at hes; exact he e (Option.some.inj hes)
    | some r => rw [hr] at hes; exact h.error e (by rw [hr]; exact hes)

theorem step (h : s.Inv cells) (hs : Step s s') : s'.Inv cells := by
  cases hs with
  | inputs hi =>
    have htaken := hi.taken_eq
    refine ⟨h.inputs.step hi, hi.cells_eq.trans h.cells_eq, h.length, h.total, ?_, ?_, h.writing,
      h.vector, ?_⟩ <;> simp only [htaken]
    exacts [h.stored, h.counted, h.error]
  | @value i v inputs ctx ht =>
    have hnot := h.not_full_of_take ht
    obtain ⟨hfresh, hlt⟩ := h.inputs.not_mem_of_take ht
    rw [h.cells_eq, ← h.length] at hlt
    have hinv := h.inputs.take ht
    obtain ⟨hj⟩ := ht
    refine ⟨hinv, h.cells_eq, ?_, h.total, ?_, ?_, ?_, ?_, ?_⟩
    · exact List.length_set.trans h.length
    · intro i' v' hmem
      show (s.executionContext.resolvedValues.set i v)[i']? = some v'
      rcases List.mem_append.1 hmem with hmem | hmem
      · rw [List.getElem?_set_ne]
        · exact h.stored i' v' hmem
        · rintro rfl; exact hfresh (List.mem_map_of_mem hmem)
      · cases List.mem_singleton.1 hmem
        exact List.getElem?_set_self hlt
    · have hcounted := h.counted
      show s.executionContext.numResolvedCells + counting (_ ::ₘ _) = List.countP _ (_ ++ [_])
      rw [counting_count, List.countP_append]
      simp only [List.countP_singleton, isValue, Result.mapResult_value, if_true]
      omega
    · intro ctx' hctx
      rcases Multiset.mem_cons.1 hctx with heq | hctx
      · cases heq
      · exact h.writing ctx' hctx
    · intro vs hvs
      exact absurd (h.vector vs hvs).1 (not_le.2 hnot)
    · intro e hes
      obtain ⟨i', hi'⟩ := h.error e hes
      exact ⟨i', List.mem_append_left _ hi'⟩
  | @error i e inputs ctx ht =>
    have hinv := h.inputs.take ht
    obtain ⟨hj⟩ := ht
    refine resolve (s := { s with inputs := _ }) ⟨hinv, h.cells_eq, h.length, h.total, ?_, ?_,
      h.writing, h.vector, ?_⟩ ctx nofun ?_
    · intro i' v' hmem
      refine h.stored i' v' ((List.mem_append.1 hmem).resolve_right fun hmem => ?_)
      cases List.mem_singleton.1 hmem
    · show _ = List.countP _ (_ ++ [_])
      rw [List.countP_append]
      exact h.counted
    · intro e' hes
      obtain ⟨i', hi'⟩ := h.error e' hes
      exact ⟨i', List.mem_append_left _ hi'⟩
    · intro e' he'
      cases he'
      exact ⟨i, List.mem_append_right _ (List.mem_singleton_self _)⟩
  | @count ctx running hr =>
    have hcounted := h.counted
    rw [hr, counting_count] at hcounted
    refine ⟨h.inputs, h.cells_eq, h.length, h.total, h.stored, ?_, ?_, ?_, h.error⟩
    · show s.executionContext.numResolvedCells + 1 + counting (if _ then _ else _) =
        s.inputs.taken.countP isValue
      split
      · rw [counting_write]; omega
      · omega
    · intro ctx' hctx'
      show cells.length ≤ s.executionContext.numResolvedCells + 1
      have hold : .write ctx' ∈ running → cells.length ≤ s.executionContext.numResolvedCells :=
        fun hmem => h.writing ctx' (by rw [hr]; exact Multiset.mem_cons_of_mem hmem)
      rw [← h.total] at hold ⊢
      simp only [WhenAllExecutionContext.count, decide_eq_true_eq] at hctx'
      split at hctx'
      · assumption
      · exact (hold hctx').trans (Nat.le_succ _)
    · intro vs hvs
      obtain ⟨hn, hvs⟩ := h.vector vs hvs
      exact ⟨hn.trans (Nat.le_succ _), hvs⟩
  | @write ctx running hr =>
    have hn := h.writing ctx (by rw [hr]; exact Multiset.mem_cons_self ..)
    have hcounted := h.counted
    rw [hr, counting_write] at hcounted
    have hwriting : ∀ ctx', .write ctx' ∈ running → cells.length ≤ _ := fun ctx' hctx' =>
      h.writing ctx' (by rw [hr]; exact Multiset.mem_cons_of_mem hctx')
    exact resolve (s := { s with running := running })
      ⟨h.inputs, h.cells_eq, h.length, h.total, h.stored, hcounted, hwriting, h.vector, h.error⟩
      ctx (fun vs hvs => ⟨hn, (Result.value.inj hvs).symm⟩) nofun
  | await callback =>
    have hread := s.read_await callback
    exact ⟨h.inputs, h.cells_eq, h.length, h.total, h.stored, h.counted, h.writing,
      by rw [hread]; exact h.vector, by rw [hread]; exact h.error⟩

/-- A vector holds the value of every input, in order. -/
theorem vector_eq (h : s.Inv cells) {vs : List T} (hvs : s.read = some (.value vs)) :
    cells.map s.inputs.heap.read = vs.map fun v => some (.value v) := by
  obtain ⟨hn, rfl⟩ := h.vector vs hvs
  refine List.ext_getElem? fun i => ?_
  rw [List.getElem?_map, List.getElem?_map]
  by_cases hi : i < cells.length
  · obtain ⟨v, hv⟩ := (h.full hn).2 i hi
    obtain ⟨c, hc, hread⟩ := h.inputs.of_mem_taken hv
    rw [h.cells_eq] at hc
    rw [h.stored i v hv, hc]
    exact congrArg some hread
  · rw [List.getElem?_eq_none (not_lt.1 hi), List.getElem?_eq_none (by rw [h.length]; exact not_lt.1 hi)]
    rfl

theorem error_mem (h : s.Inv cells) {e : Err} (he : s.read = some (.error e)) :
    ∃ c ∈ cells, s.inputs.heap.read c = some (.error e) := by
  obtain ⟨i, hi⟩ := h.error e he
  obtain ⟨c, hc, hread⟩ := h.inputs.of_mem_taken hi
  exact ⟨c, h.cells_eq ▸ List.mem_of_getElem? hc, hread⟩

end Inv

theorem inv_of_reach [Inhabited T] (h : Reach (Init cells) Step s) : s.Inv cells :=
  Inductive.reach ⟨fun _ h => h.inv, fun _ _ h hs => h.step hs⟩ h

/-! ### What stays -/

theorem Step.extends (hs : Step s s') (h : s.Inv cells) :
    s.inputs.heap.Extends s'.inputs.heap := by
  cases hs with
  | inputs hi => exact h.inputs.extends_of_step hi
  | value ctx ht | error ctx ht => obtain ⟨-⟩ := ht; exact .refl
  | count | write | await => exact .refl

theorem Step.read (hs : Step s s') {result : Result (List T) Err} (hr : s.read = some result) :
    s'.read = some result := by
  cases hs with
  | inputs | value | count => exact hr
  | error ctx ht => rw [read_resolve]; change some (s.read.getD _) = _; rw [hr]; rfl
  | write hr' => rw [read_resolve]; change some (s.read.getD _) = _; rw [hr]; rfl
  | await callback => rw [read_await]; exact hr

theorem input_stable [Inhabited T] (r : Run (Init cells : WhenAllCell T Err Cb → Prop) Step)
    {k k' : ℕ} (hk : k ≤ k') {c : ℕ} (hc : c ∈ cells) {result : Result T Err}
    (hr : (r.state k).inputs.heap.read c = some result) :
    (r.state k').inputs.heap.read c = some result := by
  refine r.stable (P := fun s => s.inputs.heap.read c = some result) (fun s s' hs hstep hr => ?_) hk hr
  have h := inv_of_reach hs
  have h' := h.step hstep
  exact (hstep.extends h).read h.inputs.acyclic h'.inputs.acyclic
    (h.inputs.exist c (by rw [h.cells_eq]; exact hc)) hr

/-- In every state of every run: a vector is the list of the values that the inputs have resolved to;
an error is what some input has resolved to; there is no vector when some input resolves to an error,
be it before or after; and a result stays. -/
theorem run_never_wrong [Inhabited T] (cells : List ℕ)
    (r : Run (Init cells : WhenAllCell T Err Cb → Prop) Step) (k : ℕ) :
    (∀ vs, (r.state k).read = some (.value vs) →
      cells.map (r.state k).inputs.heap.read = vs.map fun v => some (.value v)) ∧
    (∀ e, (r.state k).read = some (.error e) →
      ∃ c ∈ cells, (r.state k).inputs.heap.read c = some (.error e)) ∧
    (∀ k' e, (∃ c ∈ cells, (r.state k').inputs.heap.read c = some (.error e)) →
      ∀ vs, (r.state k).read ≠ some (.value vs)) ∧
    (∀ k' result, k ≤ k' → (r.state k).read = some result → (r.state k').read = some result) := by
  have h := inv_of_reach (r.reach k)
  refine ⟨fun vs hvs => h.vector_eq hvs, fun e he => h.error_mem he, ?_, ?_⟩
  · rintro k' e ⟨c, hc, he⟩ vs hvs
    -- at the later of the two moments the input would have both a value and the error
    have heq := h.vector_eq hvs
    obtain ⟨i, hi⟩ := List.mem_iff_getElem?.1 hc
    have hi' := congrArg (·[i]?) heq
    simp only [List.getElem?_map, hi, Option.map_some] at hi'
    obtain ⟨v, -, hv⟩ := Option.map_eq_some_iff.1 hi'.symm
    rcases le_total k k' with hk | hk
    · rw [input_stable r hk hc hv.symm] at he; cases he
    · rw [input_stable r hk hc he] at hv; cases hv
  · intro k' result hk hr
    exact r.stable (P := fun s => s.read = some result) (fun _ _ _ hs => hs.read) hk hr

end WhenAllCell
end AsyncEry.Cell
