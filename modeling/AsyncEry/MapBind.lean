import AsyncEry.DerivedTasks
import AsyncEry.WhenAllCell
import AsyncEry.WhenAnyCell

/-!
# `map` is the efficient form of `bind`

Where no job is pending, a task derived by `map` holds what its function makes of the result of its
source, or nothing while the source has none; and so does a task derived by `bind`, when the function
gives back a task resolved to the same. Each observer of either has been called once, with that
result. It does not matter which cells the source is made of: of the five kinds of task the cells are
a `WriteOnceCell` or a `TrackingOnceCell`, and what `when_any` and `when_all` do with theirs is what
anybody may do with a `WriteOnceCell`.
-/

namespace AsyncEry.Cell
open Scheduler

/-! ### The cells of `when_any` and `when_all` -/

/-- What anybody may do with a `WriteOnceCell` of a heap, and the jobs it queues. -/
inductive Heap.Use {T Err Cb : Type} (h : Heap T Err Cb) (c : ℕ) :
    Heap T Err Cb → List (Queued T Err Cb) → Prop
  | nothing : Use h c h []
  | await (callback : Cb) : Use h c (h.await c callback).1 (h.await c callback).2
  | write (ctx : Context) (result : Result T Err) :
    Use h c (h.writeResult c ctx result).1 (h.writeResult c ctx result).2.1

section Use
variable {T Err Cb : Type} {h : Heap T Err Cb} {c : ℕ} {w : WriteOnceCell T Err Cb}

theorem Heap.use_await (hc : c < h.size) (hw : h.cells c = .writeOnce w) (callback : Cb) :
    ∃ h', h.Use c h' (w.await callback).2 ∧ h'.cells c = .writeOnce (w.await callback).1 := by
  have hawait : h.await c callback = (h.set c (.writeOnce (w.await callback).1), (w.await callback).2) := by
    obtain ⟨n, hn⟩ := Nat.exists_eq_succ_of_ne_zero (Nat.ne_zero_of_lt hc)
    rw [Heap.await, hn, Heap.awaitFrom, hw]
  have huse := Heap.Use.await (h := h) (c := c) callback
  rw [hawait] at huse
  exact ⟨_, huse, Function.update_self ..⟩

theorem Heap.use_write (hw : h.cells c = .writeOnce w) (ctx : Context) (result : Result T Err) :
    ∃ h', h.Use c h' (result.mapResult (w.write ctx) (w.error ctx)).2.1 ∧
      h'.cells c = .writeOnce (result.mapResult (w.write ctx) (w.error ctx)).1 := by
  have hwrite : h.writeResult c ctx result =
      (h.set c (.writeOnce (result.mapResult (w.write ctx) (w.error ctx)).1),
        (result.mapResult (w.write ctx) (w.error ctx)).2) := by
    rw [Heap.writeResult, hw]
  have huse := Heap.Use.write (h := h) (c := c) ctx result
  rw [hwrite] at huse
  exact ⟨_, huse, Function.update_self ..⟩

/-- A step of a `when_any` task, on a heap that holds its cell. -/
theorem WhenAnyCell.Step.use {s s' : WhenAnyCell T Err Cb} (hs : Step s s') (hc : c < h.size)
    (hcell : h.cells c = .writeOnce s.underlyingCell) :
    ∃ h' jobs, h.Use c h' jobs ∧ h'.cells c = .writeOnce s'.underlyingCell ∧
      s'.scheduler = s.scheduler ++ jobs := by
  cases hs with
  | inputs | error => exact ⟨h, [], .nothing, hcell, (List.append_nil _).symm⟩
  | @value _ v _ ctx =>
    obtain ⟨h', huse, hcell'⟩ := Heap.use_write hcell ctx (.value v)
    exact ⟨h', _, huse, hcell', rfl⟩
  | @write ctx e =>
    obtain ⟨h', huse, hcell'⟩ := Heap.use_write hcell ctx (.error e)
    exact ⟨h', _, huse, hcell', rfl⟩
  | await callback =>
    obtain ⟨h', huse, hcell'⟩ := Heap.use_await hc hcell callback
    exact ⟨h', _, huse, hcell', rfl⟩

/-- A step of a `when_all` task, on a heap that holds its cell. -/
theorem WhenAllCell.Step.use {h : Heap (List T) Err Cb} {s s' : WhenAllCell T Err Cb} (hs : Step s s')
    (hc : c < h.size) (hcell : h.cells c = .writeOnce s.underlyingCell) :
    ∃ h' jobs, h.Use c h' jobs ∧ h'.cells c = .writeOnce s'.underlyingCell ∧
      s'.scheduler = s.scheduler ++ jobs := by
  cases hs with
  | inputs | value | count => exact ⟨h, [], .nothing, hcell, (List.append_nil _).symm⟩
  | @error _ e _ ctx =>
    obtain ⟨h', huse, hcell'⟩ := Heap.use_write hcell ctx (.error e)
    exact ⟨h', _, huse, hcell', rfl⟩
  | @write ctx =>
    obtain ⟨h', huse, hcell'⟩ := Heap.use_write hcell ctx (.value s.executionContext.resolvedValues)
    exact ⟨h', _, huse, hcell', rfl⟩
  | await callback =>
    obtain ⟨h', huse, hcell'⟩ := Heap.use_await hc hcell callback
    exact ⟨h', _, huse, hcell', rfl⟩

end Use
end AsyncEry.Cell

namespace AsyncEry.Async
open Cell Scheduler Lts

namespace DerivedTasks
variable {V E : Type} {s s' : DerivedTasks V E}

/-! ### What has been read stays -/

theorem Step.extends (hs : Step s s') (h : s.Inv) : s.heap.Extends s'.heap := by
  cases hs with
  | map func hsrc =>
    have halloc : (s.alloc (.writeOnce .init)).Inv := h.alloc rfl rfl rfl
    exact (Heap.extends_alloc ..).trans
      (Heap.extends_await halloc.acyclic (hsrc.trans (Nat.lt_succ_self _)) _)
  | bind func hsrc =>
    have halloc : ((s.alloc (.tracking .init)).alloc (.writeOnce .init)).Inv :=
      (h.alloc rfl rfl rfl).alloc rfl rfl rfl
    exact ((Heap.extends_alloc ..).trans (Heap.extends_alloc ..)).trans
      (Heap.extends_await halloc.acyclic (hsrc.trans (Nat.lt_add_of_pos_right Nat.two_pos)) _)
  | observe hc => exact Heap.extends_await h.acyclic hc _
  | @job q jobs ctx hj =>
    obtain ⟨ctx', callback, result⟩ := q
    cases callback with
    | observer id => exact .refl
    | task k =>
      cases k with
      | map c func => exact .refl
      | bind t e func =>
        cases result with
        | value v => exact .refl
        | error err => exact Heap.extends_writeResult ..
  | call => exact .refl
  | track hr =>
    obtain ⟨_, _, _, -, ht, hd, hne, -⟩ := h.ready (by rw [hr]; exact Multiset.mem_cons_self ..)
    exact Heap.extends_track h.acyclic ht hd hne
  | write | otherWrite => exact Heap.extends_writeResult ..
  | otherWriteOnce | otherTracking => exact Heap.extends_alloc ..
  | otherTrack hc hd hown hnl =>
    exact Heap.extends_track h.acyclic hc hd (Heap.root_ne_of_not_linked h.acyclic hd hnl)

theorem read_stable (r : Run (Init : DerivedTasks V E → Prop) Step) {j k : ℕ} (hjk : j ≤ k) {c : ℕ}
    (hc : c < (r.state j).heap.size) {result : Result V E}
    (hr : (r.state j).heap.read c = some result) : (r.state k).heap.read c = some result := by
  refine (r.stable (P := fun s => c < s.heap.size ∧ s.heap.read c = some result)
    (fun s s' hs hstep hp => ?_) hjk ⟨hc, hr⟩).2
  have h := inv_of_reach hs
  have hx := hstep.extends h
  exact ⟨hp.1.trans_le hx.size, hx.read h.acyclic (h.step hstep).acyclic hp.1 hp.2⟩

/-! ### Where no job is pending -/

/-- No job is pending and no continuation is in execution. -/
def Quiescent (s : DerivedTasks V E) : Prop := s.jobs = 0 ∧ s.running = 0

namespace Inv

/-- At any time, what is read from a derived task is due. -/
theorem read_due (h : s.Inv) {src : ℕ} {k : Continuation V} (hm : (src, k) ∈ s.tasks)
    {r : Result V E} (hr : s.heap.read k.cell = some r) : due s.heap src k.func = some r := by
  have hsound := h.sound _ hm
  have hlt := hsound.lt _ (cell_mem k)
  cases hl : s.heap.link k.cell with
  | none =>
    rw [Heap.read_eq h.acyclic hlt, Heap.root, Forest.root_of_none hl] at hr
    exact hsound.value _ (cell_mem k) r hr
  | some d =>
    obtain ⟨r', hd, hdue⟩ := hsound.link _ (cell_mem k) d hl
    rw [Heap.read_of_link h.acyclic hlt hl, hd] at hr
    exact hdue.trans hr

/-- The continuation has run, and has left something to read. -/
theorem read_of_ran (h : s.Inv) (hrunning : s.running = 0) {m : ℕ × Continuation V}
    (hm : m ∈ s.tasks) {r : Result V E} (hran : (.task m.2, r) ∈ s.ran) :
    (s.heap.read m.2.cell).isSome := by
  have hsound := h.sound m hm
  have hlt := hsound.lt _ (cell_mem m.2)
  rcases h.done m hm r hran with hv | hl | ⟨p, hp, -⟩
  · rw [Heap.read_of_value h.acyclic hlt hv]; exact hv
  · obtain ⟨d, hd⟩ := Option.isSome_iff_exists.1 hl
    obtain ⟨r', hr', -⟩ := hsound.link _ (cell_mem m.2) d hd
    rw [Heap.read_of_link h.acyclic hlt hd, hr']; rfl
  · rw [hrunning] at hp
    exact absurd hp (Multiset.notMem_zero p)

theorem ran_eq (h : s.Inv) (hjobs : s.jobs = 0) : s.ran = s.registered.filterMap s.heap.owed := by
  have hsent := h.served.sent_eq
  rw [hjobs, Multiset.map_zero, zero_add] at hsent
  exact hsent

theorem read_eq_due (h : s.Inv) (hq : s.Quiescent) {src : ℕ} {k : Continuation V}
    (hm : (src, k) ∈ s.tasks) : s.heap.read k.cell = due s.heap src k.func := by
  cases hsrc : s.heap.read src with
  | none =>
    cases hr : s.heap.read k.cell with
    | none => rw [due, hsrc]; rfl
    | some r => exact (h.read_due hm hr).symm
  | some r =>
    have hreg : (src, Callback.task k) ∈ s.registered :=
      Multiset.mem_add.2 (.inl (Multiset.mem_map_of_mem _ (Multiset.mem_coe.2 hm)))
    have hran : (Callback.task k, r) ∈ s.ran := by
      rw [h.ran_eq hq.1]
      refine (Multiset.mem_filterMap _ _).2 ⟨_, hreg, ?_⟩
      rw [Heap.owed, ← Heap.read_eq h.acyclic (h.src_lt hm), hsrc]
      rfl
    obtain ⟨r', hr'⟩ := Option.isSome_iff_exists.1 (h.read_of_ran hq.2 hm hran)
    rw [hr', h.read_due hm hr']

end Inv

/-! ### Observers -/

/-- The result of a call of observer `id`. -/
def Callback.told (id : ℕ) : Callback V × Result V E → Option (Result V E)
  | (.observer i, result) => if i = id then some result else none
  | (.task _, _) => none

/-- The calls of observer `id`. -/
def calls (s : DerivedTasks V E) (id : ℕ) : Multiset (Result V E) := s.ran.filterMap (Callback.told id)

/-- Observer `id` has been called once, with what is read from its cell, or not at all. -/
theorem Inv.calls_eq (h : s.Inv) (hjobs : s.jobs = 0) {id c : ℕ} (ho : s.observers[id]? = some c) :
    s.calls id = (s.heap.read c).toList := by
  have htasks : ((s.tasks : Multiset (ℕ × Continuation V)).map
      fun m => ((m.1, .task m.2) : ℕ × Callback V)).filterMap
        (fun reg => (s.heap.owed reg).bind (Callback.told id)) = 0 := by
    rw [Multiset.map_coe, Multiset.filterMap_coe, List.filterMap_map]
    refine congrArg _ (List.filterMap_eq_nil_iff.2 fun m _ => ?_)
    simp only [Function.comp_apply, Heap.owed]
    cases s.heap.value (s.heap.root m.1) <;> rfl
  have hobs : ∀ o ∈ s.observers.zipIdx,
      (s.heap.owed (o.1, .observer o.2)).bind (Callback.told id) =
        if o.2 = id then s.heap.read o.1 else none := by
    intro o ho
    have hlt := h.served.mem (o.1, .observer o.2)
      (Multiset.mem_add.2 (.inr (Multiset.mem_map_of_mem _ (Multiset.mem_coe.2 ho))))
    rw [Heap.read_eq h.acyclic hlt, Heap.owed]
    cases s.heap.value (s.heap.root o.1) with
    | none => split <;> rfl
    | some result => rfl
  rw [calls, h.ran_eq hjobs, Multiset.filterMap_filterMap, registered, Multiset.filterMap_add, htasks,
    zero_add, Multiset.map_coe, Multiset.filterMap_coe, List.filterMap_map]
  have hlist := (List.filterMap_congr hobs).trans (Conserve.filterMap_zipIdx _ _ id)
  rw [ho] at hlist
  exact congrArg _ hlist

/-- The task derived from `src` holds what is due, and each of its observers has been called once with
that, or not at all while there is nothing. -/
structure Resolved (s : DerivedTasks V E) (src : ℕ) (k : Continuation V) : Prop where
  read : s.heap.read k.cell = (s.heap.read src).map (mapMeaning k.func)
  told : ∀ id, s.observers[id]? = some k.cell → ∀ result, s.heap.read k.cell = some result →
    s.calls id = {result}
  untold : ∀ id, s.observers[id]? = some k.cell → s.heap.read k.cell = none → s.calls id = 0

theorem Inv.resolved (h : s.Inv) (hq : s.Quiescent) {src : ℕ} {k : Continuation V}
    (hm : (src, k) ∈ s.tasks) : s.Resolved src k := by
  refine ⟨h.read_eq_due hq hm, fun id ho result hr => ?_, fun id ho hr => ?_⟩
  · rw [h.calls_eq hq.1 ho, hr]; rfl
  · rw [h.calls_eq hq.1 ho, hr]; rfl

/-- Where no job is pending, the tasks that `map` and `bind` have derived from one source hold the
same, what the source makes of them, whatever has been read of them before was that, and their
observers have been called once with it. The same holds of two runs, one with `map` and the other with
`bind`, in which the source has come to the same. -/
theorem run_map_eq_bind (r : Run (Init : DerivedTasks V E → Prop) Step) (n : ℕ)
    (hq : (r.state n).Quiescent) :
    (∀ src c t e func, (src, .map c func) ∈ (r.state n).tasks →
      (src, .bind t e func) ∈ (r.state n).tasks →
      (r.state n).heap.read c = (r.state n).heap.read t) ∧
    (∀ src k, (src, k) ∈ (r.state n).tasks → (r.state n).Resolved src k ∧
      ∀ j ≤ n, (src, k) ∈ (r.state j).tasks → ∀ result, (r.state j).heap.read k.cell = some result →
        (r.state n).heap.read k.cell = some result) ∧
    (∀ (r' : Run (Init : DerivedTasks V E → Prop) Step) (n' : ℕ), (r'.state n').Quiescent →
      ∀ src src' c t e func, (src, .map c func) ∈ (r.state n).tasks →
      (src', .bind t e func) ∈ (r'.state n').tasks →
      (r.state n).heap.read src = (r'.state n').heap.read src' →
      (r.state n).heap.read c = (r'.state n').heap.read t) := by
  have h := inv_of_reach (r.reach n)
  have hderived : ∀ {src k}, (src, k) ∈ (r.state n).tasks → (r.state n).Resolved src k :=
    fun hm => h.resolved hq hm
  refine ⟨fun src c t e func hm hb => ?_, fun src k hm => ⟨hderived hm, fun j hj hmj result hr => ?_⟩,
    fun r' n' hq' src src' c t e func hm hb hsrc => ?_⟩
  · exact (hderived hm).read.trans (hderived hb).read.symm
  · have hlt := ((inv_of_reach (r.reach j)).sound _ hmj).lt _ (Inv.cell_mem k)
    exact read_stable r hj hlt hr
  · have hbind := ((inv_of_reach (r'.reach n')).resolved hq' hb).read
    calc (r.state n).heap.read c
      _ = ((r.state n).heap.read src).map (mapMeaning func) := (hderived hm).read
      _ = ((r'.state n').heap.read src').map (mapMeaning func) := by rw [hsrc]
      _ = (r'.state n').heap.read t := hbind.symm

/-- `map` and `bind` of `n → n + 1` on the cell 0, which is filled with 5 later; the task derived by
`map` is observed before that, and is filled while the other one goes on. -/
theorem reach_tracked : ∃ s : DerivedTasks ℕ ℕ, Reach Init Step s ∧
    s.jobs = {⟨Context.empty, .observer 0, .value 6⟩} ∧ s.running = 0 ∧
    s.tasks = [(0, .bind 2 3 (· + 1)), (0, .map 1 (· + 1))] ∧ s.observers = [1] ∧
    2 < s.heap.size ∧ s.heap.read 2 = some (.value 6) := by
  let s₀ : DerivedTasks ℕ ℕ := ⟨⟨1, fun _ => .writeOnce .init⟩, 0, 0, [], [], 0⟩
  have h₀ : Reach Init Step s₀ := .start ⟨fun _ => .inl rfl, rfl⟩
  have h₁ := h₀.next (@Step.map _ _ _ 0 (· + 1) (by decide))
  have h₂ := h₁.next (@Step.bind _ _ _ 0 (· + 1) (by decide))
  have h₃ := h₂.next (@Step.observe _ _ _ 1 (by decide))
  have h₄ := h₃.next (@Step.otherWrite _ _ _ 0 Context.empty (.value 5) (by decide) (by decide))
  have h₅ := h₄.next (@Step.job _ _ _ ⟨Context.empty, .task (.map 1 (· + 1)), .value 5⟩
    {⟨Context.empty, .task (.bind 2 3 (· + 1)), .value 5⟩} Context.empty rfl)
  have h₆ := h₅.next (@Step.write _ _ _ 1 Context.empty (.value 6) 0 rfl)
  have h₇ := h₆.next (@Step.job _ _ _ ⟨Context.empty, .task (.bind 2 3 (· + 1)), .value 5⟩
    {⟨Context.empty, .observer 0, .value 6⟩} Context.empty rfl)
  have h₈ := h₇.next .otherWriteOnce
  have h₉ := h₈.next (@Step.otherWrite _ _ _ 4 Context.empty (.value 6) (by decide) (by decide))
  have h₁₀ := h₉.next (@Step.call _ _ _ 2 6 4 0 rfl (by decide) rfl)
  have h₁₁ := h₁₀.next (@Step.track _ _ _ 2 4 0 rfl)
  exact ⟨_, h₁₁, rfl, rfl, rfl, rfl, by decide, rfl⟩

/-- The task derived by `bind` is observed after that. -/
theorem reach_succ : ∃ s : DerivedTasks ℕ ℕ, Reach Init Step s ∧ s.Quiescent ∧
    (0, .map 1 (· + 1)) ∈ s.tasks ∧ (0, .bind 2 3 (· + 1)) ∈ s.tasks ∧ s.observers = [1, 2] ∧
    s.heap.read 2 = some (.value 6) := by
  obtain ⟨s, h, hjobs, hrunning, htasks, hobs, hc, hr⟩ := reach_tracked
  have hawait : s.heap.await 2 (.observer 1) = (s.heap, [⟨Context.empty, .observer 1, .value 6⟩]) :=
    Heap.await_of_read (inv_of_reach h).acyclic hc hr
  have hobserve : s.observe 2 = { s with
      observers := [1, 2]
      jobs := ⟨Context.empty, .observer 0, .value 6⟩ ::ₘ {⟨Context.empty, .observer 1, .value 6⟩} } := by
    rw [observe, await, hobs]
    dsimp only [List.length_singleton]
    rw [hawait, hjobs]
    rfl
  have h₁ := h.next (.observe hc)
  rw [hobserve] at h₁
  have h₂ := h₁.next (@Step.job _ _ _ ⟨Context.empty, .observer 0, .value 6⟩
    {⟨Context.empty, .observer 1, .value 6⟩} Context.empty rfl)
  have h₃ := h₂.next (@Step.job _ _ _ ⟨Context.empty, .observer 1, .value 6⟩ 0 Context.empty rfl)
  refine ⟨_, h₃, ⟨rfl, hrunning⟩, ?_, ?_, rfl, hr⟩
  · rw [show _ = s.tasks from rfl, htasks]; exact .tail _ (.head _)
  · rw [show _ = s.tasks from rfl, htasks]; exact .head _

theorem run_map_eq_bind_succ : ∃ (r : Run (Init : DerivedTasks ℕ ℕ → Prop) Step) (n : ℕ),
    (r.state n).heap.read 1 = some (.value 6) ∧ (r.state n).calls 0 = {.value 6} ∧
      (r.state n).calls 1 = {.value 6} := by
  obtain ⟨s, hs, hq, hm, hb, hobs, hread⟩ := reach_succ
  obtain ⟨r, n, rfl⟩ := Run.exists_state hs
  obtain ⟨hsame, hderived, -⟩ := run_map_eq_bind r n hq
  have hmap := (hsame 0 1 2 3 _ hm hb).trans hread
  exact ⟨r, n, hmap, (hderived 0 _ hm).1.told 0 (by rw [hobs]; rfl) _ hmap,
    (hderived 0 _ hb).1.told 1 (by rw [hobs]; rfl) _ hread⟩

end DerivedTasks
end AsyncEry.Async
