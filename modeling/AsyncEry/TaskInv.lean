import AsyncEry.Task

/-!
# What every cell of a task program is going to hold

The invariant gives each allocated cell the result it is to hold, `den`, and a place in an order,
`rank`, that descends from a task to the tasks it waits for: the operand of a `map` or `bind`, and
all that the function given to `bind` can name or makes itself, stand before the cell that waits. So
no `track` closes a circle. `ran` are the callbacks that have been run.

One lemma for each thing a step does: allocate, record, write, track, await, take a job.
-/

namespace AsyncEry.Async
open Cell Scheduler

variable {S V E : Type}

/-- The callback and the result of a job that a cell has queued. -/
def Job.dispatch : Job S V E → Option (Callback S V × Result V E)
  | .task _ _ => none
  | .callback q => some q.dispatch

/-- A callback that runs with a value calls its function. -/
def invocation (run : Callback S V × Result V E) : Option ℕ :=
  run.2.mapResult (fun _ => some run.1.cell) fun _ => none

namespace Machine

/-- The callbacks registered so far. -/
def registered (s : Machine S V E) : Multiset (ℕ × Callback S V) :=
  (s.made.filterMap Made.registered : List _)

/-- The cell of a task, or the filled error cell of a `bind`. -/
def Live (s : Machine S V E) (c : ℕ) : Prop :=
  c < s.heap.size ∧ (c ∈ s.made.map Made.cell ∨ (s.heap.value c).isSome)

/-- What a step may change of the cells. -/
structure Grows (s s' : Machine S V E) : Prop where
  size : s.heap.size ≤ s'.heap.size
  kind : ∀ c < s.heap.size, s'.heap.isTracking c = s.heap.isTracking c
  made : ∀ m ∈ s.made, m ∈ s'.made
  filled : ∀ c < s.heap.size, (s.heap.value c).isSome → (s'.heap.value c).isSome
  linked : ∀ c < s.heap.size, (s.heap.link c).isSome → (s'.heap.link c).isSome

theorem Grows.live {s s' : Machine S V E} (g : Grows s s') {c : ℕ} (h : s.Live c) : s'.Live c := by
  obtain ⟨hc, h⟩ := h
  refine ⟨hc.trans_le g.size, ?_⟩
  rcases h with h | h
  · obtain ⟨m, hm, rfl⟩ := List.mem_map.1 h
    exact .inl (List.mem_map.2 ⟨m, g.made m hm, rfl⟩)
  · exact .inr (g.filled c hc h)

end Machine

/-- The ghost state of the invariant; see above. -/
structure Ghost (V E : Type) where
  den : ℕ → Result V E
  rank : ℕ → ℕ

/-- `G'` says about the first `size` cells what `G` says. -/
structure Ghost.Agree (size : ℕ) (G G' : Ghost V E) : Prop where
  den : ∀ c < size, G'.den c = G.den c
  rank : ∀ c d, c < size → d < size → G.rank c < G.rank d → G'.rank c < G'.rank d

theorem Ghost.Agree.refl {size : ℕ} {G : Ghost V E} : Agree size G G := ⟨fun _ _ => rfl, fun _ _ _ _ => id⟩

theorem Ghost.Agree.comp_env {size n : ℕ} {G G' : Ghost V E} (a : Agree size G G') {env : Fin n → ℕ}
    (h : ∀ i, env i < size) : G'.den ∘ env = G.den ∘ env :=
  funext fun i => a.den _ (h i)

/-- Cell `size` is added, to hold `r`, in place `k` of the order. -/
def Ghost.insert (G : Ghost V E) (size k : ℕ) (r : Result V E) : Ghost V E where
  den := Function.update G.den size r
  rank c := if c = size then k else if k ≤ G.rank c then G.rank c + 1 else G.rank c

section insert
variable {G : Ghost V E} {size k c : ℕ} {r : Result V E}

@[simp] theorem Ghost.den_insert : (G.insert size k r).den size = r := Function.update_self ..
@[simp] theorem Ghost.rank_insert : (G.insert size k r).rank size = k := if_pos rfl

theorem Ghost.rank_insert_lt (hc : c < size) (hk : G.rank c < k) : (G.insert size k r).rank c < k := by
  simp only [insert]
  rw [if_neg hc.ne, if_neg (by omega)]
  exact hk

theorem Ghost.lt_rank_insert (hc : c < size) (hk : k ≤ G.rank c) : k < (G.insert size k r).rank c := by
  simp only [insert]
  rw [if_neg hc.ne, if_pos hk]
  omega

theorem Ghost.agree_insert : G.Agree size (G.insert size k r) where
  den c hc := Function.update_of_ne hc.ne ..
  rank c d hc hd hlt := by
    simp only [insert]
    rw [if_neg hc.ne, if_neg hd.ne]
    split <;> split <;> omega

end insert

variable (σ : S → Result V E) (p : Prog S V 0)

/-- A task stands for what its operands make of it. -/
def Made.Ok (G : Ghost V E) (s : Machine S V E) : Made S V → Prop
  | .source c src => (c < s.heap.size ∧ s.heap.isTracking c = false) ∧ G.den c = σ src
  | .task c func => (c < s.heap.size ∧ s.heap.isTracking c = false) ∧ G.den c = .value (func ())
  | .map c src func => (c < s.heap.size ∧ s.heap.isTracking c = false) ∧
      s.Live src ∧ G.rank src < G.rank c ∧ G.den c = mapMeaning func (G.den src)
  | .bind c src errorCell env func => (c < s.heap.size ∧ s.heap.isTracking c) ∧
      (errorCell < s.heap.size ∧ s.heap.isTracking errorCell = false) ∧
      s.Live src ∧ G.rank src < G.rank c ∧ (∀ i, s.Live (env i) ∧ G.rank (env i) < G.rank c) ∧
      G.rank errorCell < G.rank c ∧ G.den errorCell = G.den c ∧
      G.den c = Prog.bindMeaning σ func (G.den ∘ env) (G.den src)

/-- Once its callback has run, a task is resolved or on the way to be. -/
def Made.Done (ran : Multiset (Callback S V × Result V E)) (s : Machine S V E) : Made S V → Prop
  | .source _ _ => True
  | .task c func => .task c func ∈ s.jobs ∨ (s.heap.value c).isSome
  | .map c _ func => ∀ r, (.map c func, r) ∈ ran → (s.heap.value c).isSome
  | .bind c _ errorCell env func => ∀ r, (.bind c errorCell env func, r) ∈ ran →
      (s.heap.link c).isSome ∨ ∃ f ∈ s.frames, f.trackingCell = some c

/-- What a callback leaves behind when it has run. -/
def Callback.Done (s : Machine S V E) : Callback S V → Prop
  | .map c _ => (s.heap.value c).isSome
  | .bind c _ _ _ => (s.heap.link c).isSome ∨ ∃ f ∈ s.frames, f.trackingCell = some c

/-- What is left to run of a function makes its task what it is to be. -/
def Frame.Ok (G : Ghost V E) (s : Machine S V E) (f : Frame S V) : Prop :=
  (∀ i, s.Live (f.env i)) ∧ match f.trackingCell with
    | none => p.eval σ Fin.elim0 = f.prog.eval σ (G.den ∘ f.env) ∧
        p.tasks σ Fin.elim0 = List.ofFn (G.den ∘ f.env) ++ f.prog.tasks σ (G.den ∘ f.env)
    | some c => (c < s.heap.size ∧ s.heap.isTracking c) ∧
        G.den c = f.prog.eval σ (G.den ∘ f.env) ∧ ∀ i, G.rank (f.env i) < G.rank c

namespace Machine

structure Inv (G : Ghost V E) (ran : Multiset (Callback S V × Result V E)) (s : Machine S V E) :
    Prop where
  served : s.heap.Served s.registered (s.jobs.filterMap Job.dispatch + ran)
  invoked : (s.invoked : Multiset ℕ) = ran.filterMap invocation
  filled : ∀ c r, s.heap.value c = some r → r = G.den c
  linked : ∀ c d, s.heap.link c = some d → s.Live d ∧ G.rank d < G.rank c ∧ G.den c = G.den d
  nodup : (s.made.map Made.cell).Nodup
  tasks : ∀ c func, .task c func ∈ s.jobs → .task c func ∈ s.made
  made : ∀ m ∈ s.made, m.Ok σ G s
  done : ∀ m ∈ s.made, m.Done ran s
  frames : ∀ f ∈ s.frames, f.Ok σ p G s

end Machine

variable {σ p} {G G' : Ghost V E} {s s' : Machine S V E} {f : Frame S V} {m : Made S V}
  {ran : Multiset (Callback S V × Result V E)}

open Machine

/-! ### The parts of the invariant in a later state -/

theorem Made.Ok.grows (h : m.Ok σ G s) (g : Grows s s') (a : G.Agree s.heap.size G') :
    m.Ok σ G' s' := by
  have hkind : ∀ {c b}, c < s.heap.size ∧ s.heap.isTracking c = b →
      c < s'.heap.size ∧ s'.heap.isTracking c = b :=
    fun ⟨hc, hk⟩ => ⟨hc.trans_le g.size, (g.kind _ hc).trans hk⟩
  cases m with
  | source c src => exact ⟨hkind h.1, (a.den c h.1.1).trans h.2⟩
  | task c func => exact ⟨hkind h.1, (a.den c h.1.1).trans h.2⟩
  | map c src func =>
    obtain ⟨hc, hsrc, hrank, hden⟩ := h
    refine ⟨hkind hc, g.live hsrc, a.rank _ _ hsrc.1 hc.1 hrank, ?_⟩
    rw [a.den c hc.1, a.den src hsrc.1, hden]
  | bind c src errorCell env func =>
    obtain ⟨hc, he, hsrc, hrank, henv, hranke, hdene, hden⟩ := h
    refine ⟨hkind hc, hkind he, g.live hsrc, a.rank _ _ hsrc.1 hc.1 hrank, fun i => ?_,
      a.rank _ _ he.1 hc.1 hranke, ?_, ?_⟩
    · exact ⟨g.live (henv i).1, a.rank _ _ (henv i).1.1 hc.1 (henv i).2⟩
    · rw [a.den c hc.1, a.den errorCell he.1, hdene]
    · rw [a.den c hc.1, a.den src hsrc.1, a.comp_env fun i => (henv i).1.1, hden]

theorem Made.Done.grows (h : m.Done ran s) (hm : m.Ok σ G s) (g : Grows s s')
    (hjobs : ∀ c func, .task c func ∈ s.jobs → .task c func ∈ s'.jobs)
    (hframes : ∀ f ∈ s.frames, ∀ c, f.trackingCell = some c →
      (s'.heap.link c).isSome ∨ ∃ f' ∈ s'.frames, f'.trackingCell = some c) : m.Done ran s' := by
  cases m with
  | source c src => trivial
  | task c func => exact h.imp (hjobs c func) (g.filled c hm.1.1)
  | map c src func => exact fun r hr => g.filled c hm.1.1 (h r hr)
  | bind c src errorCell env func =>
    intro r hr
    rcases h r hr with hl | ⟨f, hf, hfc⟩
    · exact .inl (g.linked c hm.1.1 hl)
    · exact hframes f hf c hfc

theorem Frame.Ok.grows (h : f.Ok σ p G s) (g : Grows s s') (a : G.Agree s.heap.size G') :
    f.Ok σ p G' s' := by
  obtain ⟨n, env, prog, tc⟩ := f
  obtain ⟨henv, h⟩ := h
  have hcomp : G'.den ∘ env = G.den ∘ env := a.comp_env fun i => (henv i).1
  refine ⟨fun i => g.live (henv i), ?_⟩
  cases tc with
  | none =>
    show _ = prog.eval σ (G'.den ∘ env) ∧ _ = List.ofFn (G'.den ∘ env) ++ prog.tasks σ (G'.den ∘ env)
    rw [hcomp]
    exact h
  | some c =>
    obtain ⟨⟨hc, hk⟩, hden, hrank⟩ := h
    refine ⟨⟨hc.trans_le g.size, (g.kind c hc).trans hk⟩, ?_, fun i => ?_⟩
    · show G'.den c = prog.eval σ (G'.den ∘ env)
      rw [hcomp, a.den c hc, hden]
    · exact a.rank _ _ (henv i).1 hc (hrank i)

/-! ### What a step does -/

theorem mem_queue {jobs : List (Queued V E (Callback S V))} {c : ℕ} {func : Unit → V} :
    .task c func ∈ (s.queue jobs).jobs ↔ .task c func ∈ s.jobs := by
  simp [queue]

theorem dispatch_queue (jobs : List (Queued V E (Callback S V))) :
    (s.queue jobs).jobs.filterMap Job.dispatch =
      s.jobs.filterMap Job.dispatch + (jobs.map Queued.dispatch : List _) := by
  have hjobs : (jobs.map Job.callback).filterMap Job.dispatch = jobs.map Queued.dispatch := by
    rw [List.filterMap_map]
    exact List.filterMap_eq_map ▸ rfl
  rw [queue, Multiset.filterMap_add, Multiset.filterMap_coe, hjobs]

namespace Machine.Inv

theorem size_le (h : s.Inv σ p G ran) {c d : ℕ} (hcd : s.heap.link c = some d) :
    c < s.heap.size ∧ d < s.heap.size := by
  obtain ⟨rank, hr⟩ := id h.served.acyclic
  exact ⟨hr.dom hcd, hr.mem hcd⟩

theorem ranked (h : s.Inv σ p G ran) : Forest.Ranked s.heap.link s.heap.size G.rank :=
  ⟨fun hcd => (h.linked _ _ hcd).2.1, fun hcd => (h.size_le hcd).1, fun hcd => (h.size_le hcd).2⟩

/-- The parts of the invariant that the cells carry are enough. -/
theorem of_grows (h : s.Inv σ p G ran) (g : Grows s s') (a : G.Agree s.heap.size G')
    (hmade : ∀ m ∈ s'.made, m ∈ s.made ∨ m.Ok σ G' s' ∧ m.Done ran s')
    (nodup : (s'.made.map Made.cell).Nodup)
    (hframes : s'.frames = s.frames) (hinvoked : s'.invoked = s.invoked)
    (hjobs : ∀ c func, .task c func ∈ s.jobs → .task c func ∈ s'.jobs)
    (tasks : ∀ c func, .task c func ∈ s'.jobs → .task c func ∈ s'.made)
    (served : s'.heap.Served s'.registered (s'.jobs.filterMap Job.dispatch + ran))
    (filled : ∀ c r, s'.heap.value c = some r → r = G'.den c)
    (linked : ∀ c d, s'.heap.link c = some d →
      s'.Live d ∧ G'.rank d < G'.rank c ∧ G'.den c = G'.den d) : s'.Inv σ p G' ran where
  served := served
  invoked := by rw [hinvoked]; exact h.invoked
  filled := filled
  linked := linked
  nodup := nodup
  tasks := tasks
  made m hm := (hmade m hm).elim (fun hm => (h.made m hm).grows g a) And.left
  done m hm := by
    rcases hmade m hm with hm | hm
    · exact (h.done m hm).grows (h.made m hm) g hjobs
        fun f hf c hfc => .inr ⟨f, by rw [hframes]; exact hf, hfc⟩
    · exact hm.2
  frames f hf := by rw [hframes] at hf; exact (h.frames f hf).grows g a

theorem write (h : s.Inv σ p G ran) {c : ℕ} {r : Result V E} (hc : c < s.heap.size)
    (ctx : Context) (hr : r = G.den c) : (s.write c ctx r).Inv σ p G ran := by
  obtain ⟨hsize, hkind, hlink⟩ : (s.write c ctx r).heap.size = s.heap.size ∧
      (s.write c ctx r).heap.isTracking = s.heap.isTracking ∧
      (s.write c ctx r).heap.link = s.heap.link := s.heap.writeResult_frame c ctx r
  have g : Grows s (s.write c ctx r) :=
    ⟨hsize.ge, fun _ _ => congrFun hkind _, fun _ => id,
      fun _ _ hv => Heap.isSome_value_writeResult (.inl hv), fun _ _ hl => by rw [hlink]; exact hl⟩
  refine h.of_grows g .refl (fun _ => .inl) h.nodup rfl rfl (fun _ _ => mem_queue.2)
    (fun _ _ hj => h.tasks _ _ (mem_queue.1 hj)) ?_ ?_ ?_
  · have hs := h.served.write ctx r hc
    rw [Machine.write, dispatch_queue, add_right_comm]
    exact hs
  · intro c' r' hv
    rcases Heap.value_writeResult hv with hv | ⟨rfl, rfl⟩
    · exact h.filled c' r' hv
    · exact hr
  · intro c' d hl
    obtain ⟨hlive, hrest⟩ := h.linked c' d (by rw [← hlink]; exact hl)
    exact ⟨g.live hlive, hrest⟩

theorem root_ne (h : s.Inv σ p G ran) {c d : ℕ} (hrank : G.rank d < G.rank c) :
    s.heap.root d ≠ c := by
  rintro rfl
  have := h.ranked.rank_root_le (c := d)
  unfold Heap.root at hrank
  omega

theorem track (h : s.Inv σ p G ran) {c d : ℕ} (hc : c < s.heap.size) (hd : s.Live d)
    (hrank : G.rank d < G.rank c) (hden : G.den c = G.den d) : (s.track c d).Inv σ p G ran := by
  have hne := h.root_ne hrank
  obtain ⟨hsize, hkind, hvalue, hlink⟩ : (s.track c d).heap.size = s.heap.size ∧
      (s.track c d).heap.isTracking = s.heap.isTracking ∧
      (s.track c d).heap.value = s.heap.value ∧
      (s.track c d).heap.link = if s.heap.isTracking c ∧ s.heap.link c = none then
        Function.update s.heap.link c (some d) else s.heap.link :=
    Heap.track_frame h.served.acyclic hc hd.1 hne
  have hlink' : ∀ c' d', (s.track c d).heap.link c' = some d' →
      s.heap.link c' = some d' ∨ c' = c ∧ d' = d := by
    intro c' d' hl
    rw [hlink] at hl
    split at hl
    · rw [Function.update_apply] at hl
      split at hl
      · next heq => exact .inr ⟨heq, (Option.some.inj hl).symm⟩
      · exact .inl hl
    · exact .inl hl
  have g : Grows s (s.track c d) := by
    refine ⟨hsize.ge, fun _ _ => congrFun hkind _, fun _ => id, fun c' _ hv => ?_, fun c' _ hl => ?_⟩
    · rw [hvalue]; exact hv
    · rw [hlink]
      split
      · rw [Function.update_apply]
        split
        · rfl
        · exact hl
      · exact hl
  refine h.of_grows g .refl (fun _ => .inl) h.nodup rfl rfl (fun _ _ => mem_queue.2)
    (fun _ _ hj => h.tasks _ _ (mem_queue.1 hj)) ?_ ?_ ?_
  · have hs := h.served.track hc hd.1 hne
    rw [Machine.track, dispatch_queue, add_right_comm]
    exact hs
  · intro c' r hv
    exact h.filled c' r (by rw [← hvalue]; exact hv)
  · intro c' d' hl
    rcases hlink' c' d' hl with hl | ⟨rfl, rfl⟩
    · obtain ⟨hlive, hrest⟩ := h.linked c' d' hl
      exact ⟨g.live hlive, hrest⟩
    · exact ⟨g.live hd, hrank, hden⟩

theorem alloc (h : s.Inv σ p G ran) (cell : ICell V E (Callback S V)) (hlink : cell.link = none)
    (hvalue : cell.value = none) (hcb : cell.callbacks = []) (k : ℕ) (r : Result V E) :
    (s.alloc cell).Inv σ p (G.insert s.heap.size k r) ran := by
  have a : G.Agree s.heap.size (G.insert s.heap.size k r) := Ghost.agree_insert
  have hlink' : (s.alloc cell).heap.link = Function.update s.heap.link s.heap.size none := by
    rw [← hlink]; exact Heap.link_alloc
  have hvalue' : (s.alloc cell).heap.value = Function.update s.heap.value s.heap.size none := by
    rw [← hvalue]; exact Heap.value_alloc
  have g : Grows s (s.alloc cell) := by
    refine ⟨Nat.le_succ _, fun c hc => ?_, fun _ => id, fun c hc hv => ?_, fun c hc hl => ?_⟩
    · exact (congrFun Heap.isTracking_alloc c).trans (Function.update_of_ne hc.ne ..)
    · rw [hvalue', Function.update_of_ne hc.ne]; exact hv
    · rw [hlink', Function.update_of_ne hc.ne]; exact hl
  refine h.of_grows g a (fun _ => .inl) h.nodup rfl rfl (fun _ _ => id) h.tasks
    (h.served.alloc hlink hvalue hcb) ?_ ?_
  · intro c r' hv
    rw [hvalue', Function.update_apply] at hv
    split at hv
    · cases hv
    · next hne => rw [h.filled c r' hv]; exact (Function.update_of_ne hne ..).symm
  · intro c d hl
    rw [hlink', Function.update_apply] at hl
    split at hl
    · cases hl
    · obtain ⟨hlive, hrank, hden⟩ := h.linked c d hl
      obtain ⟨hc, hd⟩ := h.size_le hl
      exact ⟨g.live hlive, a.rank d c hd hc hrank, by rw [a.den c hc, a.den d hd, hden]⟩

theorem Grows.of_eq (hheap : s'.heap = s.heap) (hmade : s'.made = s.made) : Grows s s' :=
  ⟨by rw [hheap], fun _ _ => by rw [hheap], fun m hm => by rwa [hmade],
    fun _ _ hv => by rwa [hheap], fun _ _ hl => by rwa [hheap]⟩

/-- The parts of the invariant that the jobs, the frames and the history carry are enough. -/
theorem of_heap_eq (h : s.Inv σ p G ran) {ran' : Multiset (Callback S V × Result V E)}
    (hheap : s'.heap = s.heap) (hmade : s'.made = s.made)
    (hsent : s'.jobs.filterMap Job.dispatch + ran' = s.jobs.filterMap Job.dispatch + ran)
    (invoked : (s'.invoked : Multiset ℕ) = ran'.filterMap invocation)
    (hjobs : ∀ c func, .task c func ∈ s'.jobs → .task c func ∈ s.jobs)
    (done : ∀ m ∈ s.made, m.Done ran' s') (frames : ∀ f ∈ s'.frames, f.Ok σ p G s) :
    s'.Inv σ p G ran' := by
  have g := Grows.of_eq hheap hmade
  have hreg : s'.registered = s.registered := by unfold registered; rw [hmade]
  refine ⟨by rw [hheap, hreg, hsent]; exact h.served, invoked, by rw [hheap]; exact h.filled,
    fun c d hl => ?_, by rw [hmade]; exact h.nodup,
    fun c func hj => by rw [hmade]; exact h.tasks c func (hjobs c func hj), fun m hm => ?_,
    by rwa [hmade],
    fun f hf => (frames f hf).grows g .refl⟩
  · obtain ⟨hlive, hrest⟩ := h.linked c d (by rwa [hheap] at hl)
    exact ⟨g.live hlive, hrest⟩
  · exact (h.made m (by rwa [hmade] at hm)).grows g .refl

/-- Functions are entered, go on and return; one that returns has linked its cell. -/
theorem setFrames (h : s.Inv σ p G ran) {frames : Multiset (Frame S V)}
    (hf : ∀ f ∈ s.frames, ∀ c, f.trackingCell = some c →
      (s.heap.link c).isSome ∨ ∃ f' ∈ frames, f'.trackingCell = some c)
    (hok : ∀ f ∈ frames, f ∈ s.frames ∨ f.Ok σ p G s) :
    ({ s with frames := frames } : Machine S V E).Inv σ p G ran :=
  h.of_heap_eq rfl rfl rfl h.invoked (fun _ _ => id)
    (fun m hm => (h.done m hm).grows (h.made m hm) (Grows.of_eq rfl rfl) (fun _ _ => id) hf)
    fun f hf => (hok f hf).elim (h.frames f) id

theorem swap (h : s.Inv σ p G ran) {f' : Frame S V} {frames : Multiset (Frame S V)}
    (hs : s.frames = f ::ₘ frames) (htc : f'.trackingCell = f.trackingCell) (hf' : f'.Ok σ p G s) :
    ({ s with frames := f' ::ₘ frames } : Machine S V E).Inv σ p G ran := by
  refine h.setFrames (fun f₁ hf₁ c hfc => ?_) fun f₁ hf₁ => ?_
  · rw [hs] at hf₁
    rcases Multiset.mem_cons.1 hf₁ with rfl | hf₁
    · exact .inr ⟨f', Multiset.mem_cons_self .., htc.trans hfc⟩
    · exact .inr ⟨f₁, Multiset.mem_cons_of_mem hf₁, hfc⟩
  · rcases Multiset.mem_cons.1 hf₁ with rfl | hf₁
    · exact .inr hf'
    · exact .inl (by rw [hs]; exact Multiset.mem_cons_of_mem hf₁)

theorem leave (h : s.Inv σ p G ran) {frames : Multiset (Frame S V)} (hs : s.frames = f ::ₘ frames)
    (hf : ∀ c, f.trackingCell = some c → (s.heap.link c).isSome) :
    ({ s with frames := frames } : Machine S V E).Inv σ p G ran := by
  refine h.setFrames (fun f₁ hf₁ c hfc => ?_) fun f₁ hf₁ => ?_
  · rw [hs] at hf₁
    rcases Multiset.mem_cons.1 hf₁ with rfl | hf₁
    · exact .inl (hf c hfc)
    · exact .inr ⟨f₁, hf₁, hfc⟩
  · exact .inl (by rw [hs]; exact Multiset.mem_cons_of_mem hf₁)

theorem enter (h : s.Inv σ p G ran) (hf : f.Ok σ p G s) : (s.enter f).Inv σ p G ran := by
  refine h.setFrames (fun f₁ hf₁ c hfc => ?_) fun f₁ hf₁ => ?_
  · exact .inr ⟨f₁, Multiset.mem_cons_of_mem hf₁, hfc⟩
  · rcases Multiset.mem_cons.1 hf₁ with rfl | hf₁
    · exact .inr hf
    · exact .inl hf₁

theorem retireTask (h : s.Inv σ p G ran) {c : ℕ} {func : Unit → V} {jobs : Multiset (Job S V E)}
    (hs : s.jobs = .task c func ::ₘ jobs) (hc : (s.heap.value c).isSome) :
    ({ s with jobs := jobs } : Machine S V E).Inv σ p G ran := by
  refine h.of_heap_eq rfl rfl ?_ h.invoked
    (fun _ _ hj => by rw [hs]; exact Multiset.mem_cons_of_mem hj) (fun m hm => ?_) h.frames
  · rw [hs, Multiset.filterMap_cons_none _ _ rfl]
  · have hd := h.done m hm
    cases m with
    | source | map | bind => exact hd
    | task c' func' =>
      rcases hd with hd | hd
      · rw [hs] at hd
        rcases Multiset.mem_cons.1 hd with heq | hd
        · cases heq; exact .inr hc
        · exact .inl hd
      · exact .inr hd

theorem retire (h : s.Inv σ p G ran) {q : Queued V E (Callback S V)} {jobs : Multiset (Job S V E)}
    {invoked : List ℕ} (hs : s.jobs = .callback q ::ₘ jobs) (hq : q.callback.Done s)
    (hinvoked : invoked = (invocation (q.dispatch)).toList ++ s.invoked) :
    ({ s with jobs := jobs, invoked := invoked } : Machine S V E).Inv σ p G (q.dispatch ::ₘ ran) := by
  refine h.of_heap_eq rfl rfl ?_ ?_
    (fun _ _ hj => by rw [hs]; exact Multiset.mem_cons_of_mem hj) (fun m hm => ?_) h.frames
  · rw [hs, Multiset.filterMap_cons_some Job.dispatch (.callback q) jobs rfl, Multiset.add_cons,
      Multiset.cons_add]
  · rw [hinvoked, Multiset.filterMap_cons, ← h.invoked]
    cases invocation q.dispatch <;> rfl
  · have hd := h.done m hm
    cases m with
    | source => exact hd
    | task c func =>
      refine hd.imp_left fun hd => ?_
      rw [hs] at hd
      exact (Multiset.mem_cons.1 hd).resolve_left nofun
    | map c src func =>
      intro r hr
      rcases Multiset.mem_cons.1 hr with heq | hr
      · rw [Queued.dispatch, Prod.mk.injEq] at heq
        rw [← heq.1] at hq
        exact hq
      · exact hd r hr
    | bind c src errorCell env func =>
      intro r hr
      rcases Multiset.mem_cons.1 hr with heq | hr
      · rw [Queued.dispatch, Prod.mk.injEq] at heq
        rw [← heq.1] at hq
        exact hq
      · exact hd r hr

/-! ### New tasks -/

theorem den_root (h : s.Inv σ p G ran) {c : ℕ} (hc : c < s.heap.size) :
    G.den (s.heap.root c) = G.den c := by
  refine Forest.Acyclic.induction (motive := fun c => G.den (s.heap.root c) = G.den c)
    h.served.acyclic (fun c hc hn => ?_) (fun c d hc hcd ih => ?_) hc
  · rw [Heap.root, Forest.root_of_none hn]
  · rw [Heap.root, Forest.Acyclic.root_of_some h.served.acyclic hc hcd, (h.linked c d hcd).2.2]
    exact ih

/-- What is read in a cell is what it was to hold. -/
theorem read_eq (h : s.Inv σ p G ran) {c : ℕ} (hc : c < s.heap.size) {r : Result V E}
    (hr : s.heap.read c = some r) : r = G.den c := by
  rw [Heap.read_eq h.served.acyclic hc] at hr
  rw [h.filled _ _ hr, h.den_root hc]

/-- A callback gets a job when its task can be read, and with what is read there. -/
theorem mem_sent (h : s.Inv σ p G ran) {callback : Callback S V} {r : Result V E} :
    (callback, r) ∈ s.jobs.filterMap Job.dispatch + ran ↔
      ∃ m ∈ s.made, ∃ src, m.registered = some (src, callback) ∧ s.heap.read src = some r := by
  rw [h.served.sent_eq, Multiset.mem_filterMap]
  constructor
  · rintro ⟨⟨src, callback'⟩, hreg, howed⟩
    have hsrc := h.served.mem _ hreg
    obtain ⟨m, hm, hmr⟩ := List.mem_filterMap.1 (Multiset.mem_coe.1 hreg)
    obtain ⟨r', hr', heq⟩ := Option.map_eq_some_iff.1 howed
    cases heq
    exact ⟨m, hm, src, hmr, by rw [Heap.read_eq h.served.acyclic hsrc]; exact hr'⟩
  · rintro ⟨m, hm, src, hmr, hr⟩
    have hreg : (src, callback) ∈ s.registered :=
      Multiset.mem_coe.2 (List.mem_filterMap.2 ⟨m, hm, hmr⟩)
    rw [Heap.read_eq h.served.acyclic (h.served.mem _ hreg)] at hr
    exact ⟨_, hreg, by rw [Heap.owed, hr]; rfl⟩

theorem registered_cell {src : ℕ} {callback : Callback S V}
    (hm : m.registered = some (src, callback)) : callback.cell = m.cell := by
  cases m with
  | source | task => cases hm
  | map | bind => cases hm; rfl

theorem done_of_fresh (h : s.Inv σ p G ran) {src : ℕ} {callback : Callback S V}
    (hreg : m.registered = some (src, callback)) (hfresh : m.cell ∉ s.made.map Made.cell) :
    m.Done ran s' := by
  have hnot : ∀ r, (callback, r) ∉ ran := by
    intro r hr
    obtain ⟨m', hm', src', hreg', -⟩ := h.mem_sent.1 (Multiset.mem_add.2 (.inr hr))
    rw [← registered_cell hreg, registered_cell hreg'] at hfresh
    exact hfresh (List.mem_map_of_mem hm')
  cases m with
  | source | task => cases hreg
  | map | bind =>
    cases hreg
    exact fun r hr => absurd hr (hnot r)

theorem grows_record : Grows s (s.record m) :=
  ⟨le_rfl, fun _ _ => rfl, fun _ => List.mem_cons_of_mem m, fun _ _ => id, fun _ _ => id⟩

theorem registered_record_of_none (hreg : m.registered = none) :
    (s.record m).registered = s.registered := by
  unfold registered Machine.record
  rw [List.filterMap_cons_none hreg]

theorem recordSource (h : s.Inv σ p G ran) (c : ℕ) (src : S) (hok : (Made.source c src).Ok σ G s)
    (hfresh : c ∉ s.made.map Made.cell) : (s.record (.source c src)).Inv σ p G ran := by
  have g : Grows s (s.record (.source c src)) := grows_record
  refine h.of_grows g .refl (fun m hm => ?_) (List.nodup_cons.2 ⟨hfresh, h.nodup⟩) rfl rfl
    (fun _ _ => id) (fun _ _ hj => List.mem_cons_of_mem _ (h.tasks _ _ hj)) ?_ h.filled
    fun c d hl => ?_
  · rcases List.mem_cons.1 hm with rfl | hm
    · exact .inr ⟨hok.grows g .refl, trivial⟩
    · exact .inl hm
  · rw [registered_record_of_none rfl]; exact h.served
  · obtain ⟨hlive, hrest⟩ := h.linked c d hl
    exact ⟨g.live hlive, hrest⟩

theorem recordTask (h : s.Inv σ p G ran) (c : ℕ) (func : Unit → V)
    (hok : (Made.task c func).Ok σ G s) (hfresh : c ∉ s.made.map Made.cell) :
    ({ s.record (.task c func) with jobs := .task c func ::ₘ s.jobs } : Machine S V E).Inv
      σ p G ran := by
  set s' : Machine S V E := { s.record (.task c func) with jobs := .task c func ::ₘ s.jobs }
  have g : Grows s s' := ⟨le_rfl, fun _ _ => rfl, fun _ => List.mem_cons_of_mem _,
    fun _ _ => id, fun _ _ => id⟩
  refine h.of_grows g .refl (fun m hm => ?_) (List.nodup_cons.2 ⟨hfresh, h.nodup⟩) rfl rfl
    (fun _ _ => Multiset.mem_cons_of_mem) (fun c' func' hj => ?_) ?_ h.filled fun c d hl => ?_
  · rcases List.mem_cons.1 hm with rfl | hm
    · exact .inr ⟨hok.grows g .refl, .inl (Multiset.mem_cons_self ..)⟩
    · exact .inl hm
  · rcases Multiset.mem_cons.1 hj with heq | hj
    · cases heq; exact List.mem_cons_self ..
    · exact List.mem_cons_of_mem _ (h.tasks _ _ hj)
  · have hreg : s'.registered = s.registered := registered_record_of_none rfl
    rw [hreg, Multiset.filterMap_cons_none _ _ rfl]; exact h.served
  · obtain ⟨hlive, hrest⟩ := h.linked c d hl
    exact ⟨g.live hlive, hrest⟩

theorem recordAwait (h : s.Inv σ p G ran) (m : Made S V) {src : ℕ} {callback : Callback S V}
    (hreg : m.registered = some (src, callback)) (hsrc : src < s.heap.size) (hok : m.Ok σ G s)
    (hfresh : m.cell ∉ s.made.map Made.cell) :
    ((s.record m).await src callback).Inv σ p G ran := by
  obtain ⟨hsize, hkind, hlink, hvalue⟩ :
      ((s.record m).await src callback).heap.size = s.heap.size ∧
      ((s.record m).await src callback).heap.isTracking = s.heap.isTracking ∧
      ((s.record m).await src callback).heap.link = s.heap.link ∧
      ((s.record m).await src callback).heap.value = s.heap.value :=
    s.heap.await_frame callback h.served.acyclic hsrc
  have g : Grows s ((s.record m).await src callback) :=
    ⟨hsize.ge, fun _ _ => by rw [hkind], fun _ => List.mem_cons_of_mem m,
      fun _ _ hv => by rwa [hvalue], fun _ _ hl => by rwa [hlink]⟩
  refine h.of_grows g .refl (fun m' hm' => ?_) (List.nodup_cons.2 ⟨hfresh, h.nodup⟩) rfl rfl
    (fun _ _ => mem_queue.2)
    (fun _ _ hj => List.mem_cons_of_mem _ (h.tasks _ _ (mem_queue.1 hj))) ?_
    (by rw [hvalue]; exact h.filled) fun c d hl => ?_
  · rcases List.mem_cons.1 hm' with rfl | hm'
    · exact .inr ⟨hok.grows g .refl, h.done_of_fresh hreg hfresh⟩
    · exact .inl hm'
  · have hregd : ((s.record m).await src callback).registered = (src, callback) ::ₘ s.registered := by
      unfold registered Machine.await queue Machine.record
      rw [List.filterMap_cons_some hreg]; rfl
    rw [hregd, Machine.await, dispatch_queue, add_right_comm]
    exact h.served.await callback hsrc
  · rw [hlink] at hl
    obtain ⟨hlive, hrest⟩ := h.linked c d hl
    exact ⟨g.live hlive, hrest⟩

end Machine.Inv
end AsyncEry.Async
