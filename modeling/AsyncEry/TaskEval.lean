import AsyncEry.TaskInv

/-!
# Task chains compute the meaning of their program

Every step keeps the invariant of the tasks. When the scheduler is idle and all sources are resolved
no cell is left waiting: by induction on the rank, what a task waits for is resolved, so its callback
has run, so it is resolved itself, to what the program says.
-/

namespace AsyncEry.Async
open Cell Scheduler Machine Lts

variable {S V E : Type} {σ : S → Result V E} {p : Prog S V 0} {G : Ghost V E} {s s' : Machine S V E}
  {f : Frame S V} {m : Made S V} {ran : Multiset (Callback S V × Result V E)}

/-! ### The next statement of a function -/

/-- The function after it has made the task `c`. -/
theorem Frame.Ok.next {n : ℕ} {env : Fin n → ℕ} {prog : Prog S V n} {rest : Prog S V (n + 1)}
    {tc : Option ℕ} {c : ℕ} (h : Frame.Ok σ p G s ⟨n, env, prog, tc⟩) (hc : s.Live c)
    (heval : prog.eval σ (G.den ∘ env) = rest.eval σ (push (G.den ∘ env) (G.den c)))
    (htasks : prog.tasks σ (G.den ∘ env) = G.den c :: rest.tasks σ (push (G.den ∘ env) (G.den c)))
    (hrank : ∀ t, tc = some t → G.rank c < G.rank t) :
    Frame.Ok σ p G s ⟨n + 1, push env c, rest, tc⟩ := by
  obtain ⟨henv, h⟩ := h
  refine ⟨forall_push.2 ⟨henv, hc⟩, ?_⟩
  cases tc with
  | none =>
    show _ = rest.eval σ (G.den ∘ push env c) ∧
      _ = List.ofFn (G.den ∘ push env c) ++ rest.tasks σ (G.den ∘ push env c)
    obtain ⟨he, ht⟩ := h
    rw [comp_push, ofFn_push, he, ht, heval, htasks, List.append_assoc]
    exact ⟨rfl, rfl⟩
  | some t =>
    obtain ⟨ht, hden, hlt⟩ := h
    refine ⟨ht, ?_, (forall_push (P := fun x => G.rank x < G.rank t)).2 ⟨hlt, hrank t rfl⟩⟩
    show _ = rest.eval σ (G.den ∘ push env c)
    rw [comp_push, hden, heval]

/-- A place in the order for what a function makes. -/
theorem Frame.Ok.place (h : f.Ok σ p G s) :
    ∃ k, (∀ i, G.rank (f.env i) < k) ∧
      ∀ t, f.trackingCell = some t → t < s.heap.size ∧ k ≤ G.rank t := by
  obtain ⟨n, env, prog, tc⟩ := f
  cases tc with
  | none =>
    refine ⟨Finset.univ.sup (G.rank ∘ env) + 1, fun i => Nat.lt_succ_of_le ?_, nofun⟩
    exact Finset.le_sup (f := G.rank ∘ env) (Finset.mem_univ i)
  | some t =>
    refine ⟨G.rank t, h.2.2.2, fun t' ht' => ?_⟩
    cases ht'
    exact ⟨h.2.1.1, le_rfl⟩

namespace Machine.Inv

theorem cell_lt (h : s.Inv σ p G ran) (hm : m ∈ s.made) : m.cell < s.heap.size := by
  have hok := h.made m hm
  cases m with
  | source | task | map | bind => exact hok.1.1

theorem live_cell (h : s.Inv σ p G ran) (hm : m ∈ s.made) : s.Live m.cell :=
  ⟨h.cell_lt hm, .inl (List.mem_map_of_mem hm)⟩

theorem fresh (h : s.Inv σ p G ran) {c : ℕ} (hc : s.heap.size ≤ c) :
    c ∉ s.made.map Made.cell := by
  intro hmem
  obtain ⟨m, hm, rfl⟩ := List.mem_map.1 hmem
  exact (h.cell_lt hm).not_ge hc

section statements
variable {n : ℕ} {env : Fin n → ℕ} {rest : Prog S V (n + 1)} {tc : Option ℕ}
  {frames : Multiset (Frame S V)}

theorem runSource (h : s.Inv σ p G ran) {src : S}
    (hs : s.frames = ⟨n, env, .source src rest, tc⟩ ::ₘ frames) :
    ∃ G', ({ s with frames := frames }.runFrame ⟨n, env, .source src rest, tc⟩).Inv σ p G' ran := by
  have hmem := Multiset.mem_cons_self (⟨n, env, .source src rest, tc⟩ : Frame S V) frames
  rw [← hs] at hmem
  obtain ⟨k, -, hk⟩ := (h.frames _ hmem).place
  set G' := G.insert s.heap.size k (σ src)
  have hden : G'.den s.heap.size = σ src := Ghost.den_insert
  have h₁ := h.alloc (.writeOnce .init) rfl rfl rfl k (σ src)
  have h₂ := h₁.recordSource s.heap.size src
    ⟨⟨Nat.lt_succ_self _, Heap.isTracking_alloc_self⟩, hden⟩ (h.fresh le_rfl)
  refine ⟨G', h₂.swap hs rfl ((h₂.frames _ hmem).next (c := s.heap.size) (h₂.live_cell (List.mem_cons_self ..))
    (by rw [hden]; rfl) (by rw [hden]; rfl) fun t ht => ?_)⟩
  rw [Ghost.rank_insert]
  exact Ghost.lt_rank_insert (hk t ht).1 (hk t ht).2

theorem runTask (h : s.Inv σ p G ran) {func : Unit → V}
    (hs : s.frames = ⟨n, env, .task func rest, tc⟩ ::ₘ frames) :
    ∃ G', ({ s with frames := frames }.runFrame ⟨n, env, .task func rest, tc⟩).Inv σ p G' ran := by
  have hmem := Multiset.mem_cons_self (⟨n, env, .task func rest, tc⟩ : Frame S V) frames
  rw [← hs] at hmem
  obtain ⟨k, -, hk⟩ := (h.frames _ hmem).place
  set G' := G.insert s.heap.size k (.value (func ()))
  have hden : G'.den s.heap.size = .value (func ()) := Ghost.den_insert
  have h₁ := h.alloc (.writeOnce .init) rfl rfl rfl k (.value (func ()))
  have h₂ := h₁.recordTask s.heap.size func
    ⟨⟨Nat.lt_succ_self _, Heap.isTracking_alloc_self⟩, hden⟩ (h.fresh le_rfl)
  refine ⟨G', h₂.swap hs rfl ((h₂.frames _ hmem).next (c := s.heap.size) (h₂.live_cell (List.mem_cons_self ..))
    (by rw [hden]; rfl) (by rw [hden]; rfl) fun t ht => ?_)⟩
  rw [Ghost.rank_insert]
  exact Ghost.lt_rank_insert (hk t ht).1 (hk t ht).2

theorem runMap (h : s.Inv σ p G ran) {x : Fin n} {func : V → V}
    (hs : s.frames = ⟨n, env, .map x func rest, tc⟩ ::ₘ frames) :
    ∃ G', ({ s with frames := frames }.runFrame ⟨n, env, .map x func rest, tc⟩).Inv σ p G' ran := by
  have hmem := Multiset.mem_cons_self (⟨n, env, .map x func rest, tc⟩ : Frame S V) frames
  rw [← hs] at hmem
  have hf := h.frames _ hmem
  obtain ⟨k, henv, hk⟩ := hf.place
  have hx : env x < s.heap.size := (hf.1 x).1
  set G' := G.insert s.heap.size k (mapMeaning func (G.den (env x))) with hG'
  have hden : G'.den s.heap.size = mapMeaning func (G'.den (env x)) := by
    rw [Ghost.agree_insert.den _ hx]; exact Ghost.den_insert
  have hrank : G'.rank s.heap.size = k := Ghost.rank_insert
  have h₁ := h.alloc (.writeOnce .init) rfl rfl rfl k (mapMeaning func (G.den (env x)))
  have h₂ := h₁.recordAwait (.map s.heap.size (env x) func) rfl (hx.trans (Nat.lt_succ_self _))
    ⟨⟨Nat.lt_succ_self _, Heap.isTracking_alloc_self⟩, (h₁.frames _ hmem).1 x,
      (Ghost.rank_insert_lt hx (henv x)).trans_eq hrank.symm, hden⟩ (h.fresh le_rfl)
  refine ⟨G', h₂.swap hs rfl ((h₂.frames _ hmem).next (c := s.heap.size) (h₂.live_cell (List.mem_cons_self ..))
    (by rw [hden]; rfl) (by rw [hden]; rfl) fun t ht => ?_)⟩
  rw [hrank]
  exact Ghost.lt_rank_insert (hk t ht).1 (hk t ht).2

theorem runBind (h : s.Inv σ p G ran) {x : Fin n} {func : V → Prog S V n}
    (hs : s.frames = ⟨n, env, .bind x func rest, tc⟩ ::ₘ frames) :
    ∃ G', ({ s with frames := frames }.runFrame ⟨n, env, .bind x func rest, tc⟩).Inv σ p G' ran := by
  have hmem := Multiset.mem_cons_self (⟨n, env, .bind x func rest, tc⟩ : Frame S V) frames
  rw [← hs] at hmem
  have hf := h.frames _ hmem
  obtain ⟨k, henv, hk⟩ := hf.place
  have hlt : ∀ i, env i < s.heap.size := fun i => (hf.1 i).1
  -- the tracking cell, then the error cell just before it in the order
  set r := Prog.bindMeaning σ func (G.den ∘ env) (G.den (env x))
  set G₁ := G.insert s.heap.size k r
  set G₂ := G₁.insert (s.heap.size + 1) k r
  have a₁ : G.Agree s.heap.size G₁ := Ghost.agree_insert
  have a₂ : G₁.Agree (s.heap.size + 1) G₂ := Ghost.agree_insert
  have hcomp : G₂.den ∘ env = G.den ∘ env := by
    rw [a₂.comp_env fun i => (hlt i).trans (Nat.lt_succ_self _), a₁.comp_env hlt]
  have hdenc : G₂.den s.heap.size = r :=
    (a₂.den _ (Nat.lt_succ_self _)).trans Ghost.den_insert
  have hden : G₂.den s.heap.size = Prog.bindMeaning σ func (G₂.den ∘ env) (G₂.den (env x)) := by
    have hx : G₂.den (env x) = G.den (env x) := congrFun hcomp x
    rw [hcomp, hx, hdenc]
  have hrankc : k < G₂.rank s.heap.size :=
    Ghost.lt_rank_insert (Nat.lt_succ_self _) Ghost.rank_insert.ge
  have hranke : ∀ i, G₂.rank (env i) < k := fun i =>
    Ghost.rank_insert_lt ((hlt i).trans (Nat.lt_succ_self _)) (Ghost.rank_insert_lt (hlt i) (henv i))
  have h₁ : (s.alloc (.tracking .init)).Inv σ p G₁ ran := h.alloc _ rfl rfl rfl k r
  have h₂ : ((s.alloc (.tracking .init)).alloc (.writeOnce .init)).Inv σ p G₂ ran :=
    h₁.alloc _ rfl rfl rfl k r
  have hkind : ((s.heap.alloc (.tracking .init)).alloc (.writeOnce .init)).isTracking s.heap.size := by
    rw [Heap.isTracking_alloc]
    exact (Function.update_of_ne (Nat.lt_succ_self _).ne ..).trans Heap.isTracking_alloc_self
  have hf₂ := h₂.frames _ hmem
  have h₃ := h₂.recordAwait (.bind s.heap.size (env x) (s.heap.size + 1) env func) rfl
    ((hlt x).trans (by simp [Machine.alloc]))
    ⟨⟨by simp [Machine.alloc], hkind⟩, ⟨by simp [Machine.alloc], Heap.isTracking_alloc_self⟩, hf₂.1 x,
      (hranke x).trans hrankc, fun i => ⟨hf₂.1 i, (hranke i).trans hrankc⟩,
      Ghost.rank_insert.trans_lt hrankc, Ghost.den_insert.trans hdenc.symm, hden⟩ (h.fresh le_rfl)
  refine ⟨G₂, h₃.swap hs rfl ((h₃.frames _ hmem).next (c := s.heap.size) (h₃.live_cell (List.mem_cons_self ..))
    (by rw [hden]; rfl) (by rw [hden]; rfl) fun t ht => ?_)⟩
  obtain ⟨htc, hkt⟩ := hk t ht
  refine a₂.rank _ _ (Nat.lt_succ_self _) (htc.trans (Nat.lt_succ_self _)) ?_
  rw [Ghost.rank_insert]
  exact Ghost.lt_rank_insert htc hkt

theorem runRet (h : s.Inv σ p G ran) {x : Fin n} {c : ℕ}
    (hs : s.frames = ⟨n, env, .ret x, some c⟩ ::ₘ frames) :
    ({ s with frames := frames }.runFrame ⟨n, env, .ret x, some c⟩).Inv σ p G ran := by
  have hmem := Multiset.mem_cons_self (⟨n, env, .ret x, some c⟩ : Frame S V) frames
  rw [← hs] at hmem
  obtain ⟨henv, ⟨hc, hkind⟩, hden, hrank⟩ := h.frames _ hmem
  refine (h.track hc (henv x) (hrank x) hden).leave hs fun c' hc' => ?_
  cases hc'
  exact Heap.isSome_link_track h.served.acyclic hc (henv x).1 (h.root_ne (hrank x)) hkind

end statements

theorem runFrame (h : s.Inv σ p G ran) {frames : Multiset (Frame S V)}
    (hs : s.frames = f ::ₘ frames) :
    ∃ G', ({ s with frames := frames }.runFrame f).Inv σ p G' ran := by
  obtain ⟨n, env, prog, tc⟩ := f
  cases prog with
  | source src rest => exact h.runSource hs
  | task func rest => exact h.runTask hs
  | map x func rest => exact h.runMap hs
  | bind x func rest => exact h.runBind hs
  | ret x =>
    cases tc with
    | some c => exact ⟨G, h.runRet hs⟩
    | none =>
      have hself : { s with frames := frames }.runFrame ⟨n, env, .ret x, none⟩ = s := by
        show { s with frames := _ ::ₘ frames } = s
        rw [← hs]
      exact ⟨G, by rw [hself]; exact h⟩

/-! ### A job -/

theorem runTaskJob (h : s.Inv σ p G ran) (ctx : Context) {c : ℕ} {func : Unit → V}
    {jobs : Multiset (Job S V E)} (hs : s.jobs = .task c func ::ₘ jobs) :
    ({ s with jobs := jobs }.runJob ctx (.task c func)).Inv σ p G ran := by
  have hm := h.tasks c func (by rw [hs]; exact Multiset.mem_cons_self ..)
  obtain ⟨⟨hc, hkind⟩, hden⟩ := h.made _ hm
  have h₁ := h.write hc ctx hden.symm
  have hjobs : (s.write c ctx (.value (func ()))).jobs =
      .task c func ::ₘ ({ s with jobs := jobs }.write c ctx (.value (func ()))).jobs := by
    show s.jobs + _ = _ ::ₘ (jobs + _)
    rw [hs, Multiset.cons_add]
  exact h₁.retireTask hjobs (Heap.isSome_value_writeResult (.inr ⟨rfl, hkind⟩))

/-- The call that registered the callback of a pending job, and what its task is to hold. -/
theorem pending (h : s.Inv σ p G ran) {q : Queued V E (Callback S V)} (hq : .callback q ∈ s.jobs) :
    ∃ m ∈ s.made, ∃ src, m.registered = some (src, q.callback) ∧ q.result = G.den src := by
  have hmem : (q.callback, q.result) ∈ s.jobs.filterMap Job.dispatch + ran :=
    Multiset.mem_add.2 (.inl ((Multiset.mem_filterMap ..).2 ⟨_, hq, rfl⟩))
  obtain ⟨m, hm, src, hreg, hread⟩ := h.mem_sent.1 hmem
  have hsrc : src < s.heap.size :=
    h.served.mem (src, q.callback) (Multiset.mem_coe.2 (List.mem_filterMap.2 ⟨m, hm, hreg⟩))
  exact ⟨m, hm, src, hreg, h.read_eq hsrc hread⟩

theorem runMapJob (h : s.Inv σ p G ran) (ctx ctx' : Context) {c : ℕ} {func : V → V}
    {r : Result V E} {jobs : Multiset (Job S V E)}
    (hs : s.jobs = .callback ⟨ctx', .map c func, r⟩ ::ₘ jobs) :
    ∃ ran', ({ s with jobs := jobs }.runJob ctx (.callback ⟨ctx', .map c func, r⟩)).Inv
      σ p G ran' := by
  obtain ⟨m, hm, src, hreg, hr⟩ := h.pending (by rw [hs]; exact Multiset.mem_cons_self ..)
  cases m with
  | source | task | bind => cases hreg
  | map c' src' func' =>
    cases hreg
    obtain ⟨⟨hc, hkind⟩, -, -, hden⟩ := h.made _ hm
    change r = G.den src at hr
    rw [← hr] at hden
    have hjobs : ∀ new, s.jobs + new = .callback ⟨ctx', .map c func, r⟩ ::ₘ (jobs + new) :=
      fun new => by rw [hs, Multiset.cons_add]
    have hdone : ∀ r', ((s.write c ctx r').heap.value c).isSome :=
      fun r' => Heap.isSome_value_writeResult (.inr ⟨rfl, hkind⟩)
    cases r with
    | value v => exact ⟨_, (h.write hc ctx hden.symm).retire (hjobs _) (hdone _) rfl⟩
    | error e => exact ⟨_, (h.write hc ctx hden.symm).retire (hjobs _) (hdone _) rfl⟩

theorem runBindJob (h : s.Inv σ p G ran) (ctx ctx' : Context) {c errorCell n : ℕ}
    {env : Fin n → ℕ} {func : V → Prog S V n} {r : Result V E} {jobs : Multiset (Job S V E)}
    (hs : s.jobs = .callback ⟨ctx', .bind c errorCell env func, r⟩ ::ₘ jobs) :
    ∃ ran', ({ s with jobs := jobs }.runJob ctx
      (.callback ⟨ctx', .bind c errorCell env func, r⟩)).Inv σ p G ran' := by
  obtain ⟨m, hm, src, hreg, hr⟩ := h.pending (by rw [hs]; exact Multiset.mem_cons_self ..)
  cases m with
  | source | task | map => cases hreg
  | bind c' src' errorCell' env' func' =>
    cases hreg
    obtain ⟨hc, ⟨he, hkind⟩, -, -, henv, hranke, hdene, hden⟩ := h.made _ hm
    change r = G.den src at hr
    rw [← hr] at hden
    have hjobs : ∀ new, s.jobs + new =
        .callback ⟨ctx', .bind c errorCell env func, r⟩ ::ₘ (jobs + new) :=
      fun new => by rw [hs, Multiset.cons_add]
    cases r with
    | value v =>
      have hf : Frame.Ok σ p G s ⟨n, env, func v, some c⟩ :=
        ⟨fun i => (henv i).1, hc, hden, fun i => (henv i).2⟩
      exact ⟨_, (h.enter hf).retire hs (.inr ⟨_, Multiset.mem_cons_self .., rfl⟩) rfl⟩
    | error e =>
      have h₁ := h.write he ctx (hdene.trans hden).symm
      have hlive : (s.write errorCell ctx (.error e)).Live errorCell :=
        ⟨he.trans_le (s.heap.writeResult_frame errorCell ctx _).1.ge,
          .inr (Heap.isSome_value_writeResult (.inr ⟨rfl, hkind⟩))⟩
      obtain ⟨hc₁, -⟩ := h₁.made _ hm
      have hf : Frame.Ok σ p G (s.write errorCell ctx (.error e))
          ⟨1, fun _ => errorCell, .ret 0, some c⟩ :=
        ⟨fun _ => hlive, hc₁, hdene.symm, fun _ => hranke⟩
      exact ⟨_, (h₁.enter hf).retire (hjobs _) (.inr ⟨_, Multiset.mem_cons_self .., rfl⟩) rfl⟩

theorem runJob (h : s.Inv σ p G ran) (ctx : Context) {j : Job S V E} {jobs : Multiset (Job S V E)}
    (hs : s.jobs = j ::ₘ jobs) :
    ∃ ran', ({ s with jobs := jobs }.runJob ctx j).Inv σ p G ran' := by
  cases j with
  | task c func => exact ⟨ran, h.runTaskJob ctx hs⟩
  | callback q =>
    obtain ⟨ctx', callback, r⟩ := q
    cases callback with
    | map c func => exact h.runMapJob ctx ctx' hs
    | bind c errorCell env func => exact h.runBindJob ctx ctx' hs

end Machine.Inv

theorem Machine.Init.inv (h : s.Init p) : ∃ G : Ghost V E, s.Inv σ p G 0 := by
  subst h
  refine ⟨⟨fun _ => p.eval σ Fin.elim0, fun _ => 0⟩, ⟨⟨⟨id, nofun, nofun, nofun⟩, nofun, nofun, rfl⟩,
    rfl, nofun, nofun, List.nodup_nil, nofun, nofun, nofun, fun f hf => ?_⟩⟩
  rw [Multiset.mem_singleton] at hf
  subst hf
  have henv : ∀ env : Fin 0 → Result V E, env = Fin.elim0 := fun _ => Subsingleton.elim ..
  refine ⟨nofun, ?_⟩
  show _ = p.eval σ _ ∧ _ = List.ofFn _ ++ p.tasks σ _
  rw [henv (_ ∘ _), List.ofFn_zero]
  exact ⟨rfl, rfl⟩

theorem Machine.Inv.step (h : s.Inv σ p G ran) (hs : Step σ s s') : ∃ G' ran', s'.Inv σ p G' ran' := by
  cases hs with
  | frame hf =>
    obtain ⟨G', h'⟩ := h.runFrame hf
    exact ⟨G', ran, h'⟩
  | job ctx hj =>
    obtain ⟨ran', h'⟩ := h.runJob ctx hj
    exact ⟨G, ran', h'⟩
  | complete ctx hm =>
    obtain ⟨⟨hc, -⟩, hden⟩ := h.made _ hm
    exact ⟨G, ran, h.write hc ctx hden.symm⟩

theorem Machine.inv_of_reach (h : Reach (Init p) (Step σ) s) : ∃ G ran, s.Inv σ p G ran := by
  refine Inductive.reach (P := fun s => ∃ G ran, s.Inv σ p G ran) ⟨fun s hs => ?_, fun s s' h hs => ?_⟩ h
  · obtain ⟨G, h⟩ := Init.inv hs
    exact ⟨G, 0, h⟩
  · obtain ⟨G, ran, h⟩ := h
    exact h.step hs

/-! ### When nothing is left to run -/

namespace Machine

/-- No job is pending and no function given to `bind` is in execution. -/
def Idle (s : Machine S V E) : Prop := s.jobs = 0 ∧ ∀ f ∈ s.frames, f.trackingCell = none

/-- All sources are completed. -/
def SourcesResolved (s : Machine S V E) : Prop :=
  ∀ c src, .source c src ∈ s.made → (s.heap.value c).isSome

namespace Inv

theorem resolved (h : s.Inv σ p G ran) (hidle : s.Idle) (hsrc : s.SourcesResolved) {c : ℕ}
    (hc : s.Live c) : s.heap.read c = some (G.den c) := by
  have ha := h.served.acyclic
  suffices hsome : (s.heap.read c).isSome by
    obtain ⟨r, hr⟩ := Option.isSome_iff_exists.1 hsome
    rw [hr, h.read_eq hc.1 hr]
  -- what a cell waits for has a smaller rank
  induction hk : G.rank c using Nat.strong_induction_on generalizing c with
  | _ k ih =>
    subst hk
    have hvalue : (s.heap.value c).isSome → (s.heap.read c).isSome := fun hv => by
      rw [Heap.read_of_value ha hc.1 hv]; exact hv
    have hran : ∀ m ∈ s.made, ∀ src callback, m.registered = some (src, callback) → s.Live src →
        G.rank src < G.rank c → ∃ r, (callback, r) ∈ ran := by
      intro m hm src callback hreg hlive hlt
      obtain ⟨r, hr⟩ := Option.isSome_iff_exists.1 (ih _ hlt hlive rfl)
      have hsent := h.mem_sent.2 ⟨m, hm, src, hreg, hr⟩
      rw [hidle.1, Multiset.filterMap_zero, zero_add] at hsent
      exact ⟨r, hsent⟩
    rcases hc.2 with hmade | hv
    · obtain ⟨m, hm, rfl⟩ := List.mem_map.1 hmade
      have hok := h.made m hm
      have hdone := h.done m hm
      cases m with
      | source c src => exact hvalue (hsrc c src hm)
      | task c func =>
        refine hvalue (hdone.resolve_left fun hj => ?_)
        rw [hidle.1] at hj; exact Multiset.notMem_zero _ hj
      | map c src func =>
        obtain ⟨-, hlive, hlt, -⟩ := hok
        obtain ⟨r, hr⟩ := hran _ hm _ _ rfl hlive hlt
        exact hvalue (hdone r hr)
      | bind c src errorCell env func =>
        obtain ⟨-, -, hlive, hlt, -⟩ := hok
        obtain ⟨r, hr⟩ := hran _ hm _ _ rfl hlive hlt
        rcases hdone r hr with hl | ⟨f, hf, hfc⟩
        · obtain ⟨d, hd⟩ := Option.isSome_iff_exists.1 hl
          obtain ⟨hlived, hltd, -⟩ := h.linked _ _ hd
          have hread := ih _ hltd hlived rfl
          rw [← Heap.read_of_link ha hc.1 hd] at hread
          exact hread
        · rw [hidle.2 f hf] at hfc; cases hfc
    · exact hvalue hv

theorem invoked_eq (h : s.Inv σ p G ran) (hidle : s.Idle) :
    (s.invoked : Multiset ℕ) = (s.made.filterMap fun m =>
      m.registered.bind fun reg => (s.heap.owed reg).bind invocation : List ℕ) := by
  have hran : ran = s.registered.filterMap s.heap.owed := by
    rw [← h.served.sent_eq, hidle.1, Multiset.filterMap_zero, zero_add]
  rw [h.invoked, hran, Multiset.filterMap_filterMap, registered, Multiset.filterMap_coe,
    List.filterMap_filterMap]

/-- The function of a `map` or a `bind` was called once if the task it was called on has a value. -/
theorem invoked_count (h : s.Inv σ p G ran) (hidle : s.Idle) (hm : m ∈ s.made) {src : ℕ}
    {callback : Callback S V} {r : Result V E} (hreg : m.registered = some (src, callback))
    (hr : s.heap.read src = some r) :
    s.invoked.count m.cell = r.mapResult (fun _ => 1) fun _ => 0 := by
  have hsrc : src < s.heap.size :=
    h.served.mem (src, callback) (Multiset.mem_coe.2 (List.mem_filterMap.2 ⟨m, hm, hreg⟩))
  have howed : s.heap.owed (src, callback) = some (callback, r) := by
    rw [Heap.owed, ← Heap.read_eq h.served.acyclic hsrc, hr]; rfl
  rw [← Multiset.coe_count, h.invoked_eq hidle, Multiset.coe_count,
    Conserve.count_filterMap h.nodup _ hm, hreg, Option.bind_some, howed, Option.bind_some]
  · cases r <;> rfl
  · intro m' _ c hc
    obtain ⟨⟨src', callback'⟩, hreg', hc⟩ := Option.bind_eq_some_iff.1 hc
    obtain ⟨⟨callback'', r'⟩, howed', hc⟩ := Option.bind_eq_some_iff.1 hc
    obtain ⟨_, -, heq⟩ := Option.map_eq_some_iff.1 howed'
    cases heq
    rw [← registered_cell hreg']
    cases r' with
    | value v => exact (Option.some.inj hc).symm
    | error e => cases hc

end Inv

/-- The main program is in execution, or has returned, once. -/
def mains (s : Machine S V E) : ℕ := s.frames.countP fun f => f.trackingCell = none

theorem Step.mains_eq (hs : Step σ s s') : s'.mains = s.mains := by
  have hsame : ∀ (f f' : Frame S V) (frames : Multiset (Frame S V)),
      f'.trackingCell = f.trackingCell →
      (f' ::ₘ frames).countP (fun f => f.trackingCell = none) =
        (f ::ₘ frames).countP fun f => f.trackingCell = none := by
    intro f f' frames htc
    rw [Multiset.countP_cons, Multiset.countP_cons, htc]
  have hbody : ∀ (f : Frame S V) (frames : Multiset (Frame S V)), f.trackingCell ≠ none →
      (f ::ₘ frames).countP (fun f => f.trackingCell = none) =
        frames.countP fun f => f.trackingCell = none :=
    fun f frames htc => Multiset.countP_cons_of_neg _ htc
  cases hs with
  | @frame f frames hf =>
    obtain ⟨n, env, prog, tc⟩ := f
    show _ = Multiset.countP _ s.frames
    rw [hf]
    cases prog with
    | source | task | map | bind => exact hsame _ _ _ rfl
    | ret x =>
      cases tc with
      | none => rfl
      | some c => exact (hbody _ _ (Option.some_ne_none c)).symm
  | @job j jobs ctx hj =>
    cases j with
    | task => rfl
    | callback q =>
      obtain ⟨ctx', callback, r⟩ := q
      cases callback <;> cases r <;> first | rfl | exact hbody _ _ (Option.some_ne_none _)
  | complete ctx hm => rfl

theorem mains_of_reach (h : Reach (Init p) (Step σ) s) : s.mains = 1 :=
  Inductive.reach (P := fun s => s.mains = 1)
    ⟨fun _ hs => by rw [hs]; rfl, fun _ _ h hs => hs.mains_eq.trans h⟩ h

end Machine

/-- The cells hold what the call that made the task means, and it has called its function as often
as it should. -/
def Made.Evaluated (σ : S → Result V E) (s : Machine S V E) : Made S V → Prop
  | .source c src => s.heap.read c = some (σ src)
  | .task c func => s.heap.read c = some (.value (func ()))
  | .map c src func => ∃ r, s.heap.read src = some r ∧
      s.heap.read c = some (mapMeaning func r) ∧
      s.invoked.count c = r.mapResult (fun _ => 1) fun _ => 0
  | .bind c src _ env func => ∃ r renv, s.heap.read src = some r ∧
      (∀ i, s.heap.read (env i) = some (renv i)) ∧
      s.heap.read c = some (Prog.bindMeaning σ func renv r) ∧
      s.invoked.count c = r.mapResult (fun _ => 1) fun _ => 0

/-- In every reachable state in which the scheduler is idle and the sources are resolved, every task
made so far (by the main program or inside any function given to `bind`) is resolved to what the call
that made it means, and the main program is where the reference evaluation is with the same results:
when it has returned `x`, its tasks are `p.tasks` and the one it returned is `p.eval`. -/
theorem tasks_evaluate (σ : S → Result V E) (p : Prog S V 0) (s : Machine S V E)
    (hs : Reach (Init p) (Step σ) s) (hidle : s.Idle) (hsrc : s.SourcesResolved) :
    (∀ m ∈ s.made, m.Evaluated σ s) ∧
      ∃ n env prog, s.frames = {⟨n, env, prog, none⟩} ∧
        ∃ renv : Fin n → Result V E, (∀ i, s.heap.read (env i) = some (renv i)) ∧
          p.eval σ Fin.elim0 = prog.eval σ renv ∧
          p.tasks σ Fin.elim0 = List.ofFn renv ++ prog.tasks σ renv := by
  obtain ⟨G, ran, h⟩ := inv_of_reach hs
  refine ⟨fun m hm => ?_, ?_⟩
  · have hok := h.made m hm
    have hread := h.resolved hidle hsrc (h.live_cell hm)
    cases m with
    | source c src => rw [Made.Evaluated, ← hok.2]; exact hread
    | task c func => rw [Made.Evaluated, ← hok.2]; exact hread
    | map c src func =>
      obtain ⟨-, hlive, -, hden⟩ := hok
      have hr := h.resolved hidle hsrc hlive
      exact ⟨G.den src, hr, by rw [← hden]; exact hread, h.invoked_count hidle hm rfl hr⟩
    | bind c src errorCell env func =>
      obtain ⟨-, -, hlive, -, henv, -, -, hden⟩ := hok
      have hr := h.resolved hidle hsrc hlive
      exact ⟨G.den src, G.den ∘ env, hr, fun i => h.resolved hidle hsrc (henv i).1,
        by rw [← hden]; exact hread, h.invoked_count hidle hm rfl hr⟩
  · have hcard : s.frames.card = 1 := by
      rw [← mains_of_reach hs, mains, Multiset.countP_eq_card.2 hidle.2]
    obtain ⟨⟨n, env, prog, tc⟩, hf⟩ := Multiset.card_eq_one.1 hcard
    have hmem : (⟨n, env, prog, tc⟩ : Frame S V) ∈ s.frames := by
      rw [hf]; exact Multiset.mem_singleton_self _
    obtain rfl : tc = none := hidle.2 _ hmem
    obtain ⟨henv, heval, htasks⟩ := h.frames _ hmem
    exact ⟨n, env, prog, hf, G.den ∘ env, fun i => h.resolved hidle hsrc (henv i), heval, htasks⟩

/-- `source.map(n → n + 1)` -/
def succProg : Prog Unit ℕ 0 := .source () (.map (Fin.last 0) (· + 1) (.ret (Fin.last 1)))

def succStart : Machine Unit ℕ ℕ :=
  ⟨⟨0, fun _ => .writeOnce .init⟩, 0, {⟨0, Fin.elim0, succProg, none⟩}, [], []⟩

/-- The chain is built, the source is completed, the callback runs. -/
def succBuilt : Machine Unit ℕ ℕ :=
  ({ ({ succStart with frames := 0 }.runFrame ⟨0, Fin.elim0, succProg, none⟩) with
    frames := 0 }.runFrame ⟨1, push Fin.elim0 0, .map (Fin.last 0) (· + 1) (.ret (Fin.last 1)), none⟩)

def succDone : Machine Unit ℕ ℕ :=
  { succBuilt.write 0 Context.empty (.value 3) with jobs := 0 }.runJob Context.empty
    (.callback ⟨Context.empty, .map 1 (· + 1), .value 3⟩)

theorem succDone_reach : Reach (Init succProg) (Step fun _ => .value 3) succDone :=
  .next (.next (.next (.next (.start rfl) (.frame rfl)) (.frame rfl))
    (.complete Context.empty (List.mem_cons_of_mem _ (List.mem_singleton_self _))))
    (.job Context.empty rfl)

theorem tasks_evaluate_succDone :
    (∀ m ∈ succDone.made, m.Evaluated (fun _ => .value 3) succDone) ∧
      succDone.heap.read 1 = some (.value 4) := by
  refine ⟨(tasks_evaluate _ succProg succDone succDone_reach ⟨rfl, by decide⟩ fun c src hm => ?_).1, rfl⟩
  rcases List.mem_cons.1 hm with hm | hm
  · cases hm
  · cases List.mem_singleton.1 hm
    rfl

end AsyncEry.Async
