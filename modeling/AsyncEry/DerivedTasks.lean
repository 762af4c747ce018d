import AsyncEry.Task

/-!
# Tasks derived by `map` and by `bind`

Tasks are derived from any cells whatever, by `map` and by a `bind` whose function gives back a task
already resolved, while anybody else uses the cells: makes new ones, fills and links those that are
not the property of a derived task, awaits any. So the source of a derived task may be a value source,
a task that `map` or `bind` made, or one of `when_any` and `when_all`. One type `V` holds the values
of all tasks, of whatever types they are in the source.

The invariant says what a derived task can be read to hold: nothing, or what its function makes of
what its source is read to hold.
-/

namespace AsyncEry.Async
open Cell Scheduler Lts

namespace DerivedTasks

/-- What the callback of `map` or `bind` captures. The function given to `bind` is represented by the
value that the task is resolved to which it gives back. -/
inductive Continuation (V : Type)
  | map (cell : ℕ) (func : V → V)
  | bind (trackingCell errorCell : ℕ) (func : V → V)

namespace Continuation
variable {V : Type}

/-- The cell of the task that `map` or `bind` returned. -/
def cell : Continuation V → ℕ
  | map cell _ => cell
  | bind trackingCell _ _ => trackingCell

def func : Continuation V → V → V
  | map _ func => func
  | bind _ _ func => func

/-- The cells that the continuation alone writes or links. -/
def cells : Continuation V → List ℕ
  | map cell _ => [cell]
  | bind trackingCell errorCell _ => [trackingCell, errorCell]

end Continuation

/-- The callbacks awaited on cells: a continuation, or the observer of some number. -/
inductive Callback (V : Type)
  | task (k : Continuation V)
  | observer (id : ℕ)

/-- What a continuation in execution is about to do: write the cell of `map`, return from the function
given to `bind` a task resolved to a value, or call `track`. -/
inductive Point (V E : Type)
  | write (cell : ℕ) (ctx : Context) (result : Result V E)
  | call (trackingCell : ℕ) (value : V)
  | track (trackingCell newCell : ℕ)

/-- The cell of the task whose continuation this is. -/
def Point.cell {V E : Type} : Point V E → ℕ
  | write cell _ _ => cell
  | call trackingCell _ => trackingCell
  | track trackingCell _ => trackingCell

end DerivedTasks

/-- The cells, the pending jobs and the continuations in execution; `tasks` are the derived tasks,
each with the cell of its source, `observers` the cells observed, in order. `ran` records the
callbacks run. -/
structure DerivedTasks (V E : Type) where
  heap : Heap V E (DerivedTasks.Callback V)
  jobs : Multiset (Queued V E (DerivedTasks.Callback V))
  running : Multiset (DerivedTasks.Point V E)
  tasks : List (ℕ × DerivedTasks.Continuation V)
  observers : List ℕ
  ran : Multiset (DerivedTasks.Callback V × Result V E)

namespace DerivedTasks
variable {V E : Type}

/-- Fresh cells. -/
def Init (s : DerivedTasks V E) : Prop :=
  (∀ c, s.heap.cells c = .writeOnce .init ∨ s.heap.cells c = .tracking .init) ∧
    s = ⟨s.heap, 0, 0, [], [], 0⟩

def await (s : DerivedTasks V E) (c : ℕ) (callback : Callback V) : DerivedTasks V E :=
  { s with
    heap := (s.heap.await c callback).1
    jobs := s.jobs + ((s.heap.await c callback).2 : Multiset _) }

def write (s : DerivedTasks V E) (c : ℕ) (ctx : Context) (result : Result V E) : DerivedTasks V E :=
  { s with
    heap := (s.heap.writeResult c ctx result).1
    jobs := s.jobs + ((s.heap.writeResult c ctx result).2.1 : Multiset _) }

def track (s : DerivedTasks V E) (c newCell : ℕ) : DerivedTasks V E :=
  { s with
    heap := (s.heap.track c newCell).1
    jobs := s.jobs + ((s.heap.track c newCell).2.1 : Multiset _) }

def alloc (s : DerivedTasks V E) (cell : ICell V E (Callback V)) : DerivedTasks V E :=
  { s with heap := s.heap.alloc cell }

def enter (s : DerivedTasks V E) (p : Point V E) : DerivedTasks V E :=
  { s with running := p ::ₘ s.running }

/-- `this->cell->await(callback)` at the end of `map` and `bind`. -/
def derive (s : DerivedTasks V E) (src : ℕ) (k : Continuation V) : DerivedTasks V E :=
  { s with tasks := (src, k) :: s.tasks }.await src (.task k)

/-- `Task::map` -/
def map (s : DerivedTasks V E) (src : ℕ) (func : V → V) : DerivedTasks V E :=
  (s.alloc (.writeOnce .init)).derive src (.map s.heap.size func)

/-- `Task::bind` -/
def bind (s : DerivedTasks V E) (src : ℕ) (func : V → V) : DerivedTasks V E :=
  ((s.alloc (.tracking .init)).alloc (.writeOnce .init)).derive src
    (.bind s.heap.size (s.heap.size + 1) func)

def observe (s : DerivedTasks V E) (c : ℕ) : DerivedTasks V E :=
  { s with observers := s.observers ++ [c] }.await c (.observer s.observers.length)

/-- A callback is called with a result, under the context `ctx`. -/
def call (s : DerivedTasks V E) (ctx : Context) : Callback V → Result V E → DerivedTasks V E
  | .task (.map cell func), result => s.enter (.write cell ctx (mapMeaning func result))
  | .task (.bind trackingCell _ func), .value v => s.enter (.call trackingCell (func v))
  | .task (.bind trackingCell errorCell _), .error err =>
    (s.write errorCell ctx (.error err)).enter (.track trackingCell errorCell)
  | .observer _, _ => s

/-- The cells that nobody but a continuation writes or links. -/
def owned (s : DerivedTasks V E) : List ℕ := s.tasks.flatMap fun m => m.2.cells

/-- A task is derived or observed, the scheduler runs any pending job under any context, a
continuation goes on, or anybody else does something. -/
inductive Step : DerivedTasks V E → DerivedTasks V E → Prop
  | map {s src} (func : V → V) (hsrc : src < s.heap.size) : Step s (s.map src func)
  | bind {s src} (func : V → V) (hsrc : src < s.heap.size) : Step s (s.bind src func)
  | observe {s c} (hc : c < s.heap.size) : Step s (s.observe c)
  | job {s q jobs} (ctx : Context) (h : s.jobs = q ::ₘ jobs) :
    Step s ({ s with jobs := jobs, ran := q.dispatch ::ₘ s.ran }.call ctx q.callback q.result)
  | write {s c ctx result running} (h : s.running = .write c ctx result ::ₘ running) :
    Step s ({ s with running := running }.write c ctx result)
  | call {s t v d running} (h : s.running = .call t v ::ₘ running) (hd : d < s.heap.size)
    (hv : s.heap.read d = some (.value v)) :
    Step s ({ s with running := running }.enter (.track t d))
  | track {s t d running} (h : s.running = .track t d ::ₘ running) :
    Step s ({ s with running := running }.track t d)
  | otherWriteOnce {s} : Step s (s.alloc (.writeOnce .init))
  | otherTracking {s} : Step s (s.alloc (.tracking .init))
  | otherWrite {s c} (ctx : Context) (result : Result V E) (hc : c < s.heap.size)
    (hown : c ∉ s.owned) : Step s (s.write c ctx result)
  | otherTrack {s c d} (hc : c < s.heap.size) (hd : d < s.heap.size) (hown : c ∉ s.owned)
    (hnl : ¬ s.heap.Linked d c) : Step s (s.track c d)

/-! ### The invariant -/

/-- All callbacks registered so far. -/
def registered (s : DerivedTasks V E) : Multiset (ℕ × Callback V) :=
  (s.tasks : Multiset (ℕ × Continuation V)).map (fun m => (m.1, .task m.2)) +
    (s.observers.zipIdx : Multiset (ℕ × ℕ)).map fun o => (o.1, .observer o.2)

/-- What a task derived from the cell `src` is to hold, as far as `src` can be read. -/
def due (heap : Heap V E (Callback V)) (src : ℕ) (func : V → V) : Option (Result V E) :=
  (heap.read src).map (mapMeaning func)

def Continuation.Kind (heap : Heap V E (Callback V)) : Continuation V → Prop
  | map cell _ => heap.isTracking cell = false
  | bind trackingCell errorCell _ =>
    heap.isTracking trackingCell ∧ heap.isTracking errorCell = false

/-- The cells of a derived task hold nothing but what is due. -/
structure Sound (heap : Heap V E (Callback V)) (m : ℕ × Continuation V) : Prop where
  lt : ∀ c ∈ m.2.cells, c < heap.size
  kind : m.2.Kind heap
  value : ∀ c ∈ m.2.cells, ∀ r, heap.value c = some r → due heap m.1 m.2.func = some r
  link : ∀ c ∈ m.2.cells, ∀ d, heap.link c = some d →
    ∃ r, heap.read d = some r ∧ due heap m.1 m.2.func = some r

/-- A continuation in execution is about to do what is due. -/
def Point.Ok (heap : Heap V E (Callback V)) (tasks : List (ℕ × Continuation V)) :
    Point V E → Prop
  | write c _ result => ∃ src func, (src, .map c func) ∈ tasks ∧ due heap src func = some result
  | call t v => ∃ src e func, (src, .bind t e func) ∈ tasks ∧ due heap src func = some (.value v)
  | track t d => ∃ src e func, (src, .bind t e func) ∈ tasks ∧ d < heap.size ∧
      ∃ r, heap.read d = some r ∧ due heap src func = some r

/-- The continuation of the task with the cell `c` has written or linked it, or is in execution. -/
def Done (s : DerivedTasks V E) (c : ℕ) : Prop :=
  (s.heap.value c).isSome ∨ (s.heap.link c).isSome ∨ ∃ p ∈ s.running, p.cell = c

structure Inv (s : DerivedTasks V E) : Prop where
  served : s.heap.Served s.registered (s.jobs.map Queued.dispatch + s.ran)
  unique : ∀ m ∈ s.tasks, ∀ m' ∈ s.tasks, ∀ c ∈ m.2.cells, c ∈ m'.2.cells → m = m'
  sound : ∀ m ∈ s.tasks, Sound s.heap m
  done : ∀ m ∈ s.tasks, ∀ r, (.task m.2, r) ∈ s.ran → s.Done m.2.cell
  running : ∀ p ∈ s.running, p.Ok s.heap s.tasks

variable {s s' : DerivedTasks V E}

theorem Init.inv (h : Init s) : s.Inv := by
  obtain ⟨hcells, hs⟩ := h
  rw [hs]
  exact ⟨.fresh hcells, nofun, nofun, nofun, nofun⟩

/-- What every step keeps. -/
structure Grows (s s' : DerivedTasks V E) : Prop where
  acyclic : s.heap.Acyclic
  acyclic' : s'.heap.Acyclic
  heap : s.heap.Extends s'.heap
  kind : ∀ c < s.heap.size, s'.heap.isTracking c = s.heap.isTracking c
  tasks : ∀ m ∈ s.tasks, m ∈ s'.tasks

namespace Grows

theorem read (g : Grows s s') {c : ℕ} (hc : c < s.heap.size) {r : Result V E}
    (hr : s.heap.read c = some r) : s'.heap.read c = some r :=
  g.heap.read g.acyclic g.acyclic' hc hr

theorem due (g : Grows s s') {src : ℕ} (hsrc : src < s.heap.size) {func : V → V} {r : Result V E}
    (hr : due s.heap src func = some r) : due s'.heap src func = some r := by
  obtain ⟨r', hr', rfl⟩ := Option.map_eq_some_iff.1 hr
  exact Option.map_eq_some_iff.2 ⟨r', g.read hsrc hr', rfl⟩

end Grows

theorem Sound.grows {m : ℕ × Continuation V} (h : Sound s.heap m) (g : Grows s s')
    (hsrc : m.1 < s.heap.size)
    (hvalue : ∀ c ∈ m.2.cells, ∀ r, s'.heap.value c = some r →
      s.heap.value c = some r ∨ due s'.heap m.1 m.2.func = some r)
    (hlink : ∀ c ∈ m.2.cells, ∀ d, s'.heap.link c = some d → s.heap.link c = some d ∨
      ∃ r, s'.heap.read d = some r ∧ due s'.heap m.1 m.2.func = some r) : Sound s'.heap m := by
  obtain ⟨rank, hrank⟩ := id g.acyclic
  refine ⟨fun c hc => (h.lt c hc).trans_le g.heap.size, ?_, fun c hc r hr => ?_, fun c hc d hd => ?_⟩
  · obtain ⟨src, k⟩ := m
    have hlt := h.lt
    have hkind := h.kind
    cases k with
    | map c func => exact (g.kind c (hlt c (List.mem_cons_self ..))).trans hkind
    | bind t e func =>
      refine ⟨(g.kind t (hlt t (List.mem_cons_self ..))).trans hkind.1, (g.kind e (hlt e ?_)).trans hkind.2⟩
      exact List.mem_cons_of_mem _ (List.mem_cons_self ..)
  · exact (hvalue c hc r hr).elim (fun hr => g.due hsrc (h.value c hc r hr)) id
  · refine (hlink c hc d hd).elim (fun hd => ?_) id
    obtain ⟨r, hr, hdue⟩ := h.link c hc d hd
    exact ⟨r, g.read (hrank.mem hd) hr, g.due hsrc hdue⟩

theorem Done.grows {c : ℕ} (h : s.Done c) (g : Grows s s') (hc : c < s.heap.size)
    (hrunning : ∀ p ∈ s.running, p ∈ s'.running) : s'.Done c := by
  rcases h with h | h | ⟨p, hp, hpc⟩
  · obtain ⟨r, hr⟩ := Option.isSome_iff_exists.1 h
    exact .inl (by rw [g.heap.value c hc r hr]; rfl)
  · obtain ⟨d, hd⟩ := Option.isSome_iff_exists.1 h
    exact .inr (.inl (by rw [g.heap.link c hc d hd]; rfl))
  · exact .inr (.inr ⟨p, hrunning p hp, hpc⟩)

namespace Inv

theorem acyclic (h : s.Inv) : s.heap.Acyclic := h.served.acyclic

theorem src_lt (h : s.Inv) {m : ℕ × Continuation V} (hm : m ∈ s.tasks) : m.1 < s.heap.size :=
  h.served.mem _ (Multiset.mem_add.2 (.inl (Multiset.mem_map_of_mem _ (Multiset.mem_coe.2 hm))))

theorem cell_mem (k : Continuation V) : k.cell ∈ k.cells := by
  cases k <;> exact List.mem_cons_self ..

/-- The job of a continuation, pending or run, has the result of the source. -/
theorem source_read (h : s.Inv) {k : Continuation V} {r : Result V E}
    (hk : (.task k, r) ∈ s.jobs.map Queued.dispatch + s.ran) :
    ∃ src, (src, k) ∈ s.tasks ∧ s.heap.read src = some r := by
  rw [h.served.sent_eq] at hk
  obtain ⟨⟨c, callback⟩, hreg, howed⟩ := (Multiset.mem_filterMap _ _).1 hk
  obtain ⟨r', hr', heq⟩ := Option.map_eq_some_iff.1 howed
  cases heq
  rw [← Heap.read_eq h.acyclic (h.served.mem _ hreg)] at hr'
  rcases Multiset.mem_add.1 hreg with hreg | hreg <;>
    obtain ⟨m, hm, heq⟩ := Multiset.mem_map.1 hreg <;> cases heq
  exact ⟨_, hm, hr'⟩

theorem point_grows (h : s.Inv) (g : Grows s s') {p : Point V E} (hp : p ∈ s.running) : p.Ok s'.heap s'.tasks := by
  have hok := h.running p hp
  cases p with
  | write c ctx result =>
    obtain ⟨src, func, hm, hdue⟩ := hok
    exact ⟨src, func, g.tasks _ hm, g.due (h.src_lt hm) hdue⟩
  | call t v =>
    obtain ⟨src, e, func, hm, hdue⟩ := hok
    exact ⟨src, e, func, g.tasks _ hm, g.due (h.src_lt hm) hdue⟩
  | track t d =>
    obtain ⟨src, e, func, hm, hd, r, hr, hdue⟩ := hok
    exact ⟨src, e, func, g.tasks _ hm, hd.trans_le g.heap.size, r, g.read hd hr,
      g.due (h.src_lt hm) hdue⟩

/-- The cells change, and what is written to those of a derived task is due. -/
theorem grows (h : s.Inv) (g : Grows s s') (htasks : s'.tasks = s.tasks) (hran : s'.ran = s.ran)
    (hrunning : s'.running = s.running)
    (hserved : s'.heap.Served s'.registered (s'.jobs.map Queued.dispatch + s'.ran))
    (hvalue : ∀ m ∈ s.tasks, ∀ c ∈ m.2.cells, ∀ r, s'.heap.value c = some r →
      s.heap.value c = some r ∨ due s'.heap m.1 m.2.func = some r)
    (hlink : ∀ m ∈ s.tasks, ∀ c ∈ m.2.cells, ∀ d, s'.heap.link c = some d → s.heap.link c = some d ∨
      ∃ r, s'.heap.read d = some r ∧ due s'.heap m.1 m.2.func = some r) : s'.Inv := by
  refine ⟨hserved, ?_, ?_, ?_, ?_⟩
  · rw [htasks]; exact h.unique
  · rw [htasks]
    exact fun m hm => (h.sound m hm).grows g (h.src_lt hm) (hvalue m hm) (hlink m hm)
  · rw [htasks, hran]
    refine fun m hm r hr => (h.done m hm r hr).grows g ((h.sound m hm).lt _ (cell_mem _)) fun p hp => ?_
    rw [hrunning]; exact hp
  · rw [hrunning]
    exact fun p hp => h.point_grows g hp

theorem alloc (h : s.Inv) {cell : ICell V E (Callback V)} (hlink : cell.link = none)
    (hvalue : cell.value = none) (hcb : cell.callbacks = []) : (s.alloc cell).Inv := by
  have hserved := h.served.alloc hlink hvalue hcb
  have g : Grows s (s.alloc cell) := by
    refine ⟨h.acyclic, hserved.acyclic, Heap.extends_alloc .., fun c hc => ?_, fun _ => id⟩
    show (s.heap.alloc cell).isTracking c = _
    rw [Heap.isTracking_alloc, Function.update_of_ne hc.ne]
  refine h.grows g rfl rfl rfl hserved (fun m hm c hc r hr => .inl ?_) (fun m hm c hc d hd => .inl ?_)
  · change (s.heap.alloc cell).value c = _ at hr
    rwa [Heap.value_alloc, Function.update_of_ne ((h.sound m hm).lt c hc).ne] at hr
  · change (s.heap.alloc cell).link c = _ at hd
    rwa [Heap.link_alloc, Function.update_of_ne ((h.sound m hm).lt c hc).ne] at hd

theorem grows_write (h : s.Inv) {c : ℕ} (ctx : Context) (result : Result V E) (hc : c < s.heap.size) :
    Grows s (s.write c ctx result) ∧ (s.write c ctx result).heap.Served s.registered
      ((s.write c ctx result).jobs.map Queued.dispatch + s.ran) := by
  obtain ⟨-, hkind, -⟩ := s.heap.writeResult_frame c ctx result
  have hserved := h.served.write ctx result hc
  refine ⟨⟨h.acyclic, hserved.acyclic, Heap.extends_writeResult .., fun x _ => congrFun hkind x,
    fun _ => id⟩, ?_⟩
  rw [DerivedTasks.write, Multiset.map_add, add_right_comm]
  exact hserved

theorem write (h : s.Inv) {c : ℕ} (ctx : Context) {result : Result V E} (hc : c < s.heap.size)
    (hown : ∀ m ∈ s.tasks, c ∈ m.2.cells → due s.heap m.1 m.2.func = some result) :
    (s.write c ctx result).Inv := by
  obtain ⟨-, -, hlinks⟩ := s.heap.writeResult_frame c ctx result
  obtain ⟨g, hserved⟩ := h.grows_write ctx result hc
  refine h.grows g rfl rfl rfl hserved (fun m hm x hx r hr => ?_) (fun m hm x hx d hd => .inl ?_)
  · rcases Heap.value_writeResult hr with hr | ⟨rfl, rfl⟩
    · exact .inl hr
    · exact .inr (g.due (h.src_lt hm) (hown m hm hx))
  · rwa [← hlinks]

theorem track (h : s.Inv) {c d : ℕ} (hc : c < s.heap.size) (hd : d < s.heap.size)
    (hne : s.heap.root d ≠ c)
    (hown : ∀ m ∈ s.tasks, c ∈ m.2.cells →
      ∃ r, s.heap.read d = some r ∧ due s.heap m.1 m.2.func = some r) : (s.track c d).Inv := by
  obtain ⟨-, hkind, hvalues, hlinks⟩ := Heap.track_frame h.acyclic hc hd hne
  have hserved : (s.track c d).heap.Served s.registered
      ((s.track c d).jobs.map Queued.dispatch + s.ran) := by
    rw [DerivedTasks.track, Multiset.map_add, add_right_comm]
    exact h.served.track hc hd hne
  have g : Grows s (s.track c d) := ⟨h.acyclic, hserved.acyclic,
    Heap.extends_track h.acyclic hc hd hne, fun x _ => congrFun hkind x, fun _ => id⟩
  refine h.grows g rfl rfl rfl hserved (fun m hm x hx r hr => .inl ?_) (fun m hm x hx d' hd' => ?_)
  · rwa [← hvalues]
  · change (s.heap.track c d).1.link x = some d' at hd'
    rw [hlinks] at hd'
    split at hd'
    · rw [Function.update_apply] at hd'
      split at hd'
      · next hxc =>
        cases hd'
        obtain ⟨r, hr, hdue⟩ := hown m hm (hxc ▸ hx)
        exact .inr ⟨r, g.read hd hr, g.due (h.src_lt hm) hdue⟩
      · exact .inl hd'
    · exact .inl hd'

/-- Anybody registers a callback, and is recorded with it. -/
theorem await (h : s.Inv) {c : ℕ} (hc : c < s.heap.size) (callback : Callback V) :
    Grows s (s.await c callback) ∧ (s.await c callback).heap.value = s.heap.value ∧
      (s.await c callback).heap.link = s.heap.link ∧
      (s.await c callback).heap.Served ((c, callback) ::ₘ s.registered)
        ((s.await c callback).jobs.map Queued.dispatch + s.ran) := by
  obtain ⟨-, hkind, hlinks, hvalues⟩ := Heap.await_frame callback h.acyclic hc
  have hserved := h.served.await callback hc
  refine ⟨⟨h.acyclic, hserved.acyclic, Heap.extends_await h.acyclic hc callback,
    fun x _ => congrFun hkind x, fun _ => id⟩, hvalues, hlinks, ?_⟩
  rw [DerivedTasks.await, Multiset.map_add, add_right_comm]
  exact hserved

theorem observe (h : s.Inv) {c : ℕ} (hc : c < s.heap.size) : (s.observe c).Inv := by
  obtain ⟨g, hvalues, hlinks, hserved⟩ := h.await hc (.observer s.observers.length)
  have hreg : (s.observe c).registered = (c, .observer s.observers.length) ::ₘ s.registered := by
    show _ + Multiset.map _ ((s.observers ++ [c]).zipIdx : Multiset (ℕ × ℕ)) = _ ::ₘ (_ + _)
    rw [List.zipIdx_append, ← Multiset.coe_add, Multiset.map_add, ← add_assoc, add_comm, Nat.zero_add]
    rfl
  have g : Grows s (s.observe c) := ⟨g.acyclic, g.acyclic', g.heap, g.kind, fun _ => id⟩
  refine h.grows g rfl rfl rfl (by rw [hreg]; exact hserved) (fun m hm x hx r hr => .inl ?_)
    (fun m hm x hx d hd => .inl ?_)
  · rwa [← hvalues]
  · rwa [← hlinks]

/-- The callback of a new task is registered; its cells are fresh. -/
theorem derive (h : s.Inv) {src : ℕ} {k : Continuation V} (hsrc : src < s.heap.size)
    (hlt : ∀ c ∈ k.cells, c < s.heap.size) (hkind : k.Kind s.heap)
    (hvalue : ∀ c ∈ k.cells, s.heap.value c = none) (hlink : ∀ c ∈ k.cells, s.heap.link c = none)
    (hfresh : ∀ c ∈ k.cells, c ∉ s.owned) : (s.derive src k).Inv := by
  obtain ⟨g, hvalues, hlinks, hserved⟩ := h.await hsrc (.task k)
  have hreg : (s.derive src k).registered = (src, .task k) ::ₘ s.registered := by
    show Multiset.map _ ((src, k) :: s.tasks : Multiset (ℕ × Continuation V)) + _ = _ ::ₘ (_ + _)
    rw [← Multiset.cons_coe, Multiset.map_cons, Multiset.cons_add]
    rfl
  have g : Grows s (s.derive src k) :=
    ⟨g.acyclic, g.acyclic', g.heap, g.kind, fun _ => List.mem_cons_of_mem _⟩
  have hnew : ∀ m ∈ s.tasks, ∀ c ∈ m.2.cells, c ∉ k.cells := fun m hm c hc hk =>
    hfresh c hk (List.mem_flatMap.2 ⟨m, hm, hc⟩)
  refine ⟨by rw [hreg]; exact hserved, ?_, ?_, ?_, fun p hp => h.point_grows g hp⟩
  · intro m hm m' hm' c hc hc'
    rcases List.mem_cons.1 hm with rfl | hm <;> rcases List.mem_cons.1 hm' with rfl | hm'
    · rfl
    · exact absurd hc (hnew m' hm' c hc')
    · exact absurd hc' (hnew m hm c hc)
    · exact h.unique m hm m' hm' c hc hc'
  · intro m hm
    rcases List.mem_cons.1 hm with rfl | hm
    · have hbare : Sound s.heap (src, k) := by
        refine ⟨hlt, hkind, fun c hc r hr => ?_, fun c hc d hd => ?_⟩
        · rw [hvalue c hc] at hr; cases hr
        · rw [hlink c hc] at hd; cases hd
      exact hbare.grows g hsrc (fun c _ r hr => .inl (by rwa [← hvalues]))
        fun c _ d hd => .inl (by rwa [← hlinks])
    · exact (h.sound m hm).grows g (h.src_lt hm) (fun c _ r hr => .inl (by rwa [← hvalues]))
        fun c _ d hd => .inl (by rwa [← hlinks])
  · intro m hm r hr
    rcases List.mem_cons.1 hm with rfl | hm
    · -- a continuation that has run belongs to a task that was there before
      obtain ⟨src', hmem, -⟩ := h.source_read (Multiset.mem_add.2 (.inr hr))
      exact absurd (cell_mem k) (hnew _ hmem _ (cell_mem k))
    · exact (h.done m hm r hr).grows g ((h.sound m hm).lt _ (cell_mem _)) fun _ => id

theorem lt_of_owned (h : s.Inv) {c : ℕ} (hc : c ∈ s.owned) : c < s.heap.size := by
  obtain ⟨m, hm, hc⟩ := List.mem_flatMap.1 hc
  exact (h.sound m hm).lt c hc

theorem map (h : s.Inv) {src : ℕ} (hsrc : src < s.heap.size) (func : V → V) :
    (s.map src func).Inv := by
  have hfresh : ∀ c ∈ [s.heap.size], c = s.heap.size := fun c => List.mem_singleton.1
  refine (h.alloc rfl rfl rfl).derive (hsrc.trans (Nat.lt_succ_self _)) ?_
    Heap.isTracking_alloc_self ?_ ?_ ?_ <;> intro c hc <;> rw [hfresh c hc]
  · exact Nat.lt_succ_self _
  · exact (congrFun Heap.value_alloc _).trans (Function.update_self ..)
  · exact (congrFun Heap.link_alloc _).trans (Function.update_self ..)
  · exact fun hown => (h.lt_of_owned hown).false

theorem bind (h : s.Inv) {src : ℕ} (hsrc : src < s.heap.size) (func : V → V) :
    (s.bind src func).Inv := by
  set s₁ := s.alloc (.tracking .init) with hs₁
  have h₁ : s₁.Inv := h.alloc rfl rfl rfl
  have hsize : s₁.heap.size = s.heap.size + 1 := rfl
  have hne : s.heap.size ≠ s₁.heap.size := (Nat.lt_succ_self _).ne
  have hfresh : ∀ c ∈ [s.heap.size, s.heap.size + 1], c = s.heap.size ∨ c = s₁.heap.size := by
    intro c hc
    rcases List.mem_cons.1 hc with hc | hc
    · exact .inl hc
    · exact .inr (List.mem_singleton.1 hc)
  refine (h₁.alloc rfl rfl rfl).derive (by show src < s.heap.size + 1 + 1; omega) ?_
    ⟨?_, Heap.isTracking_alloc_self⟩ ?_ ?_ ?_
  · intro c hc
    show c < s₁.heap.size + 1
    rcases hfresh c hc with rfl | rfl <;> omega
  · show (s₁.heap.alloc _).isTracking _ = true
    rw [Heap.isTracking_alloc, Function.update_of_ne hne]
    exact Heap.isTracking_alloc_self
  · intro c hc
    show (s₁.heap.alloc _).value c = none
    rw [Heap.value_alloc]
    rcases hfresh c hc with rfl | rfl
    · rw [Function.update_of_ne hne]
      exact (congrFun Heap.value_alloc _).trans (Function.update_self ..)
    · exact Function.update_self ..
  · intro c hc
    show (s₁.heap.alloc _).link c = none
    rw [Heap.link_alloc]
    rcases hfresh c hc with rfl | rfl
    · rw [Function.update_of_ne hne]
      exact (congrFun Heap.link_alloc _).trans (Function.update_self ..)
    · exact Function.update_self ..
  · intro c hc hown
    have hlt := h.lt_of_owned hown
    rcases hfresh c hc with rfl | rfl <;> omega

/-- A continuation enters a point at which it is about to do what is due. -/
theorem enter (h : s.Inv) {p : Point V E} (hp : p.Ok s.heap s.tasks) : (s.enter p).Inv := by
  refine ⟨h.served, h.unique, h.sound, fun m hm r hr => ?_, fun p' hp' => ?_⟩
  · refine (h.done m hm r hr).imp_right (Or.imp_right ?_)
    exact fun ⟨p', hp', hc⟩ => ⟨p', Multiset.mem_cons_of_mem hp', hc⟩
  · rcases Multiset.mem_cons.1 hp' with rfl | hp'
    · exact hp
    · exact h.running p' hp'

/-- It goes on from there, having done it. -/
theorem leave (h : s.Inv) {p : Point V E} {running : Multiset (Point V E)}
    (hr : s.running = p ::ₘ running) (hdone : Done { s with running := running } p.cell) :
    Inv { s with running := running } := by
  refine ⟨h.served, h.unique, h.sound, fun m hm r hran => ?_, fun p' hp' => ?_⟩
  · rcases h.done m hm r hran with hd | hd | ⟨p', hp', hc⟩
    · exact .inl hd
    · exact .inr (.inl hd)
    · rw [hr] at hp'
      rcases Multiset.mem_cons.1 hp' with rfl | hp'
      · exact hc ▸ hdone
      · exact .inr (.inr ⟨p', hp', hc⟩)
  · exact h.running p' (by rw [hr]; exact Multiset.mem_cons_of_mem hp')

/-- A job has run. -/
theorem take (h : s.Inv) {q : Queued V E (Callback V)} {jobs : Multiset (Queued V E (Callback V))}
    (hj : s.jobs = q ::ₘ jobs) (hdone : ∀ k, q.callback = .task k → s.Done k.cell) :
    Inv { s with jobs := jobs, ran := q.dispatch ::ₘ s.ran } := by
  have hserved := h.served
  rw [hj, Multiset.map_cons, Multiset.cons_add, ← Multiset.add_cons] at hserved
  refine ⟨hserved, h.unique, h.sound, fun m hm r hran => ?_, h.running⟩
  rcases Multiset.mem_cons.1 hran with heq | hran
  · exact hdone m.2 (congrArg Prod.fst heq).symm
  · exact h.done m hm r hran

/-- A pending callback is called. -/
theorem call (h : s.Inv) (ctx : Context) {q : Queued V E (Callback V)} (hq : q ∈ s.jobs) :
    (s.call ctx q.callback q.result).Inv ∧
      ∀ k, q.callback = .task k → (s.call ctx q.callback q.result).Done k.cell := by
  obtain ⟨ctx', callback, result⟩ := q
  have hread : ∀ k, callback = .task k →
      ∃ src, (src, k) ∈ s.tasks ∧ s.heap.read src = some result := by
    rintro k rfl
    exact h.source_read (Multiset.mem_add.2 (.inl (Multiset.mem_map_of_mem Queued.dispatch hq)))
  have hdue : ∀ {src func}, s.heap.read src = some result →
      due s.heap src func = some (mapMeaning func result) := fun hr => by rw [due, hr]; rfl
  have hentered : ∀ {s : DerivedTasks V E} {p : Point V E} {k : Continuation V}, p.cell = k.cell →
      ∀ k', Callback.task k = .task k' → (s.enter p).Done k'.cell := by
    rintro s p k hp k' heq
    cases heq
    exact .inr (.inr ⟨p, Multiset.mem_cons_self .., hp⟩)
  cases callback with
  | observer id => exact ⟨h, nofun⟩
  | task k =>
    obtain ⟨src, hm, hr⟩ := hread k rfl
    cases k with
    | map c func => exact ⟨h.enter ⟨src, func, hm, hdue hr⟩, hentered rfl⟩
    | bind t e func =>
      cases result with
      | value v => exact ⟨h.enter ⟨src, e, func, hm, hdue hr⟩, hentered rfl⟩
      | error err =>
        have he : e ∈ (Continuation.bind t e func).cells :=
          List.mem_cons_of_mem _ (List.mem_singleton_self e)
        have hsound := h.sound _ hm
        have hlt := hsound.lt e he
        obtain ⟨g, -⟩ := h.grows_write ctx (.error err) hlt
        have hw : (s.write e ctx (.error err)).Inv := h.write ctx hlt fun m hm' hown => by
          cases h.unique _ hm m hm' e he hown
          exact hdue hr
        refine ⟨hw.enter ⟨src, e, func, hm, hlt.trans_le g.heap.size, ?_⟩, hentered rfl⟩
        -- the error cell holds the error now, whoever has written it
        have hvalue : ((s.write e ctx (.error err)).heap.value e).isSome :=
          Heap.isSome_value_writeResult (.inr ⟨rfl, hsound.kind.2⟩)
        obtain ⟨r, hr⟩ := Option.isSome_iff_exists.1 hvalue
        refine ⟨r, ?_, (hw.sound _ hm).value e he r hr⟩
        rw [Heap.read_of_value hw.acyclic (hlt.trans_le g.heap.size) hvalue, hr]

theorem job (h : s.Inv) (ctx : Context) {q : Queued V E (Callback V)}
    {jobs : Multiset (Queued V E (Callback V))} (hj : s.jobs = q ::ₘ jobs) :
    (({ s with jobs := jobs, ran := q.dispatch ::ₘ s.ran }.call ctx q.callback q.result)).Inv := by
  obtain ⟨hinv, hdone⟩ := h.call ctx (q := q) (by rw [hj]; exact Multiset.mem_cons_self ..)
  obtain ⟨ctx', callback, result⟩ := q
  cases callback with
  | observer id => exact hinv.take hj hdone
  | task k =>
    cases k with
    | map c func => exact hinv.take hj hdone
    | bind t e func =>
      cases result with
      | value v => exact hinv.take hj hdone
      | error err =>
        have hjobs : s.jobs + _ = _ ::ₘ (jobs + _) :=
          (congrArg (· + ((s.heap.writeResult e ctx (.error err)).2.1 : Multiset _)) hj).trans
            (Multiset.cons_add ..)
        exact hinv.take hjobs hdone

/-- `map` writes the cell of its task. -/
theorem writePoint (h : s.Inv) {c : ℕ} {ctx : Context} {result : Result V E}
    {running : Multiset (Point V E)} (hr : s.running = .write c ctx result ::ₘ running) :
    ({ s with running := running }.write c ctx result).Inv := by
  obtain ⟨src, func, hm, hdue⟩ := h.running _ (by rw [hr]; exact Multiset.mem_cons_self ..)
  have hc : c ∈ (Continuation.map c func).cells := List.mem_singleton_self c
  have hlt := (h.sound _ hm).lt c hc
  have hw : (s.write c ctx result).Inv := h.write ctx hlt fun m hm' hown => by
    cases h.unique _ hm m hm' c hc hown
    exact hdue
  exact hw.leave hr (.inl (Heap.isSome_value_writeResult (.inr ⟨rfl, (h.sound _ hm).kind⟩)))

/-- The function given to `bind` gives back a task that is resolved. -/
theorem callPoint (h : s.Inv) {t d : ℕ} {v : V} {running : Multiset (Point V E)}
    (hr : s.running = .call t v ::ₘ running) (hd : d < s.heap.size)
    (hv : s.heap.read d = some (.value v)) :
    ({ s with running := running }.enter (.track t d)).Inv := by
  obtain ⟨src, e, func, hm, hdue⟩ := h.running _ (by rw [hr]; exact Multiset.mem_cons_self ..)
  have hentered : (s.enter (.track t d)).Inv := h.enter ⟨src, e, func, hm, hd, _, hv, hdue⟩
  have hswap : (s.enter (.track t d)).running = .call t v ::ₘ .track t d ::ₘ running := by
    show .track t d ::ₘ s.running = _
    rw [hr, Multiset.cons_swap]
  exact hentered.leave hswap (.inr (.inr ⟨_, Multiset.mem_cons_self .., rfl⟩))

/-- The cell to track can be read, and the tracking cell cannot, so no circle is closed. -/
theorem ready (h : s.Inv) {t d : ℕ} (hp : .track t d ∈ s.running) :
    ∃ src e func, (src, .bind t e func) ∈ s.tasks ∧ t < s.heap.size ∧ d < s.heap.size ∧
      s.heap.root d ≠ t ∧ ∃ r, s.heap.read d = some r ∧ due s.heap src func = some r := by
  obtain ⟨src, e, func, hm, hd, r, hread, hdue⟩ := h.running _ hp
  refine ⟨src, e, func, hm, (h.sound _ hm).lt t (List.mem_cons_self ..), hd, ?_, r, hread, hdue⟩
  rintro rfl
  rw [Heap.read_eq h.acyclic hd, Heap.value_none_of_isTracking (h.sound _ hm).kind.1] at hread
  cases hread

theorem trackPoint (h : s.Inv) {t d : ℕ} {running : Multiset (Point V E)}
    (hr : s.running = .track t d ::ₘ running) : ({ s with running := running }.track t d).Inv := by
  obtain ⟨src, e, func, hm, ht, hd, hne, hdue⟩ := h.ready (by rw [hr]; exact Multiset.mem_cons_self ..)
  have htr : (s.track t d).Inv := h.track ht hd hne fun m hm' hown => by
    cases h.unique _ hm m hm' t (List.mem_cons_self ..) hown
    exact hdue
  exact htr.leave hr (.inr (.inl (Heap.isSome_link_track h.acyclic ht hd hne (h.sound _ hm).kind.1)))

theorem step (h : s.Inv) (hs : Step s s') : s'.Inv := by
  have hother : ∀ {c}, c ∉ s.owned → ∀ m ∈ s.tasks, c ∉ m.2.cells := fun hown m hm hc =>
    hown (List.mem_flatMap.2 ⟨m, hm, hc⟩)
  cases hs with
  | map func hsrc => exact h.map hsrc func
  | bind func hsrc => exact h.bind hsrc func
  | observe hc => exact h.observe hc
  | job ctx hj => exact h.job ctx hj
  | write hr => exact h.writePoint hr
  | call hr hd hv => exact h.callPoint hr hd hv
  | track hr => exact h.trackPoint hr
  | otherWriteOnce | otherTracking => exact h.alloc rfl rfl rfl
  | otherWrite ctx result hc hown =>
    exact h.write ctx hc fun m hm hc => absurd hc (hother hown m hm)
  | otherTrack hc hd hown hnl =>
    exact h.track hc hd (Heap.root_ne_of_not_linked h.acyclic hd hnl) fun m hm hc =>
      absurd hc (hother hown m hm)

end Inv

theorem inv_of_reach (h : Reach Init Step s) : s.Inv :=
  Inductive.reach ⟨fun _ h => h.inv, fun _ _ h hs => h.step hs⟩ h

end DerivedTasks
end AsyncEry.Async
