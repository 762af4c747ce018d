import AsyncEry.Lib.Run

/-!
# The poll source of asynchronous reads

Reads are started outside the lock and entered under it; a poll holds the lock while it goes through
the requests in flight and tests each. Requests complete at any time, also between two tests of one
poll, and a job asks for the status again when it runs. The numbers of the polls that have tested a
request, with what they saw, are recorded: a request is kept as long as it was in progress when tested,
and given back with the first test that found it completed.
-/

namespace AsyncEry.Io
open Lts

/-! ### Requests -/

inductive AIOError
  | canceled
  | noExist
  | unknown
  | inProgress
deriving DecidableEq

def EEXIST : ℤ := 17
def EINPROGRESS : ℤ := 115
def ECANCELED : ℤ := 125

def parseAioError (errorCode : ℤ) : AIOError :=
  if errorCode = EINPROGRESS then .inProgress
  else if errorCode = ECANCELED then .canceled
  else if errorCode = EEXIST then .noExist
  else .unknown

/-- Control blocks are numbered; `aioError` says what `aio_error` returns for each. -/
structure InFlightAIORequest (Request : Type) where
  request : Request
  controlBlock : ℕ

namespace InFlightAIORequest
variable {Request : Type}

def isCompleted (aioError : ℕ → ℤ) (r : InFlightAIORequest Request) : Bool :=
  aioError r.controlBlock ≠ EINPROGRESS

def result (aioError : ℕ → ℤ) (r : InFlightAIORequest Request) : Except AIOError Request :=
  let aioStatus := aioError r.controlBlock
  if aioStatus = 0 then .ok r.request else .error (parseAioError aioStatus)

end InFlightAIORequest

/-- A callback with its request: an entry of `in_flight_requests`, or a job with what it has captured. -/
structure Read (Cb Request : Type) where
  callback : Cb
  request : InFlightAIORequest Request

/-- `poll` in its loop: the entries to come, `pending_requests` and `completed_jobs`. -/
structure Poll (Cb Request : Type) where
  rest : List (Read Cb Request)
  pendingRequests : List (Read Cb Request)
  completedJobs : List (Read Cb Request)

/-- `starting` are the calls of `queue_read` that have started their read and wait for the lock, which
is taken while there is a poll; `jobs` are the returned jobs that have not run. The rest is recorded:
how many polls have returned, the reads in the order they were entered, the jobs with the number of the
poll that returned them, for each control block the number of the first poll after it was entered and
the tests, and the results that callbacks were given. -/
structure PollSource (Cb Request : Type) where
  aioError : ℕ → ℤ
  controlBlocks : ℕ
  starting : List (Read Cb Request)
  inFlightRequests : List (Read Cb Request)
  poll : Option (Poll Cb Request)
  jobs : List (Read Cb Request)
  polls : ℕ
  queued : List (Read Cb Request)
  returned : List (ℕ × Read Cb Request)
  since : ℕ → ℕ
  tests : ℕ → List (ℕ × ℤ)
  reported : List (Read Cb Request × Except AIOError Request)

namespace PollSource
variable {Cb Request : Type}

def Init (s : PollSource Cb Request) : Prop :=
  ∃ aioError since, s = ⟨aioError, 0, [], [], none, [], 0, [], [], since, fun _ => [], []⟩

/-- `enqueue_and_start_read`, after which the status of the new block is `status`. -/
def startRead (s : PollSource Cb Request) (callback : Cb) (request : Request) (status : ℤ) :
    PollSource Cb Request :=
  { s with
    aioError := Function.update s.aioError s.controlBlocks status
    controlBlocks := s.controlBlocks + 1
    starting := s.starting ++ [⟨callback, request, s.controlBlocks⟩] }

/-- The rest of `queue_read`. -/
def enter (s : PollSource Cb Request) (starting : List (Read Cb Request)) (read : Read Cb Request) :
    PollSource Cb Request :=
  { s with
    starting := starting
    inFlightRequests := s.inFlightRequests ++ [read]
    queued := s.queued ++ [read]
    since := Function.update s.since read.request.controlBlock s.polls }

/-- One round of the loop of `poll`. -/
def test (s : PollSource Cb Request) (p : Poll Cb Request) (read : Read Cb Request)
    (rest : List (Read Cb Request)) : PollSource Cb Request :=
  { s with
    poll := some (if read.request.isCompleted s.aioError then
        { p with rest := rest, completedJobs := p.completedJobs ++ [read] }
      else { p with rest := rest, pendingRequests := p.pendingRequests ++ [read] })
    tests := Function.update s.tests read.request.controlBlock
      (s.tests read.request.controlBlock ++ [(s.polls, s.aioError read.request.controlBlock)]) }

def endPoll (s : PollSource Cb Request) (p : Poll Cb Request) : PollSource Cb Request :=
  { s with
    inFlightRequests := p.pendingRequests
    poll := none
    jobs := s.jobs ++ p.completedJobs
    polls := s.polls + 1
    returned := s.returned ++ p.completedJobs.map fun read => (s.polls, read) }

inductive Step : PollSource Cb Request → PollSource Cb Request → Prop
  | startRead {s} (callback : Cb) (request : Request) (status : ℤ) :
    Step s (s.startRead callback request status)
  | enter {s before read after} (hlock : s.poll = none) (h : s.starting = before ++ read :: after) :
    Step s (s.enter (before ++ after) read)
  /-- A request in progress completes. -/
  | complete {s} (block : ℕ) (status : ℤ) (h : s.aioError block = EINPROGRESS) :
    Step s { s with aioError := Function.update s.aioError block status }
  | beginPoll {s} (hlock : s.poll = none) : Step s { s with poll := some ⟨s.inFlightRequests, [], []⟩ }
  | test {s p read rest} (h : s.poll = some p) (hrest : p.rest = read :: rest) :
    Step s (s.test p read rest)
  | endPoll {s p} (h : s.poll = some p) (hrest : p.rest = []) : Step s (s.endPoll p)
  | run {s before read after} (h : s.jobs = before ++ read :: after) :
    Step s { s with
      jobs := before ++ after
      reported := s.reported ++ [(read, read.request.result s.aioError)] }

/-! ### What is kept and what is given back -/

end PollSource

def Read.block {Cb Request : Type} (read : Read Cb Request) : ℕ := read.request.controlBlock

namespace PollSource
variable {Cb Request : Type}

/-- The entries that have not been found completed. -/
def kept (s : PollSource Cb Request) : List (Read Cb Request) :=
  match s.poll with
  | none => s.inFlightRequests
  | some p => p.pendingRequests ++ p.rest

def untested (s : PollSource Cb Request) : List (Read Cb Request) :=
  match s.poll with
  | none => s.inFlightRequests
  | some p => p.rest

def pending (s : PollSource Cb Request) : List (Read Cb Request) :=
  match s.poll with
  | none => []
  | some p => p.pendingRequests

/-- The entries that have been found completed, with the number of the poll. -/
def finished (s : PollSource Cb Request) : List (ℕ × Read Cb Request) :=
  match s.poll with
  | none => s.returned
  | some p => s.returned ++ p.completedJobs.map fun read => (s.polls, read)

/-- The polls from number `m` up to number `n` found the request in progress. -/
def inProgress (m n : ℕ) : List (ℕ × ℤ) := (List.range' m (n - m)).map fun poll => (poll, EINPROGRESS)

/-- Each poll tests each entry in flight once, keeps those in progress and gives the others back. -/
structure Inv (s : PollSource Cb Request) : Prop where
  fresh : ∀ read ∈ s.queued ++ s.starting, read.block < s.controlBlocks
  nodup : ((s.queued ++ s.starting).map Read.block).Nodup
  order : s.kept.Sublist s.queued
  split : s.queued.Perm (s.kept ++ s.finished.map Prod.snd)
  untouched : ∀ block, block ∉ s.queued.map Read.block → s.tests block = []
  untested : ∀ read ∈ s.untested, s.since read.block ≤ s.polls ∧
    s.tests read.block = inProgress (s.since read.block) s.polls
  pending : ∀ read ∈ s.pending, s.since read.block ≤ s.polls ∧
    s.tests read.block = inProgress (s.since read.block) (s.polls + 1)
  finished : ∀ p ∈ s.finished, s.since p.2.block ≤ p.1 ∧ s.aioError p.2.block ≠ EINPROGRESS ∧
    s.tests p.2.block = inProgress (s.since p.2.block) p.1 ++ [(p.1, s.aioError p.2.block)]
  jobs : (s.reported.map Prod.fst ++ s.jobs).Perm (s.returned.map Prod.snd)
  reported : ∀ p ∈ s.reported, p.2 = p.1.request.result s.aioError

variable {s s' : PollSource Cb Request} {p : Poll Cb Request} {read : Read Cb Request}
  {before after rest : List (Read Cb Request)}

theorem Init.inv (h : Init s) : s.Inv := by
  obtain ⟨aioError, since, rfl⟩ := h
  exact ⟨nofun, .nil, .slnil, .nil, fun _ _ => rfl, nofun, nofun, nofun, .nil, nofun⟩

theorem inProgress_succ {m n : ℕ} (h : m ≤ n) : inProgress m (n + 1) = inProgress m n ++ [(n, EINPROGRESS)] := by
  rw [inProgress, Nat.succ_sub h, List.range'_1_concat, List.map_append, Nat.add_sub_cancel' h]
  rfl

theorem idle (h : s.poll = none) : s.kept = s.inFlightRequests ∧ s.untested = s.inFlightRequests ∧
    s.pending = [] ∧ s.finished = s.returned := by
  unfold kept untested pending finished
  rw [h]
  exact ⟨rfl, rfl, rfl, rfl⟩

theorem busy (h : s.poll = some p) : s.kept = p.pendingRequests ++ p.rest ∧ s.untested = p.rest ∧
    s.pending = p.pendingRequests ∧
    s.finished = s.returned ++ p.completedJobs.map fun read => (s.polls, read) := by
  unfold kept untested pending finished
  rw [h]
  exact ⟨rfl, rfl, rfl, rfl⟩

namespace Inv

theorem mem_queued_of_finished (h : s.Inv) {p : ℕ × Read Cb Request} (hp : p ∈ s.finished) :
    p.2 ∈ s.queued :=
  h.split.mem_iff.2 (List.mem_append_right _ (List.mem_map_of_mem hp))

theorem mem_finished_of_returned {p : ℕ × Read Cb Request} (hp : p ∈ s.returned) : p ∈ s.finished := by
  unfold PollSource.finished
  split
  · exact hp
  · exact List.mem_append_left _ hp

theorem mem_finished_of_reported (h : s.Inv) {p : Read Cb Request × Except AIOError Request}
    (hp : p ∈ s.reported) : ∃ n, (n, p.1) ∈ s.finished := by
  have hmem := h.jobs.mem_iff.1 (List.mem_append_left _ (List.mem_map_of_mem hp))
  obtain ⟨⟨n, read⟩, hreturned, heq⟩ := List.mem_map.1 hmem
  exact ⟨n, by rw [← heq]; exact mem_finished_of_returned hreturned⟩

/-- Statuses may change of blocks that have not been found completed. -/
theorem setStatus (h : s.Inv) {block : ℕ} (status : ℤ)
    (hblock : ∀ p ∈ s.finished, p.2.block ≠ block) :
    Inv { s with aioError := Function.update s.aioError block status } := by
  refine ⟨h.fresh, h.nodup, h.order, h.split, h.untouched, h.untested, h.pending, fun p hp => ?_, h.jobs,
    fun p hp => ?_⟩
  · obtain ⟨hsince, hstatus, htests⟩ := h.finished p hp
    show _ ∧ Function.update s.aioError block status _ ≠ _ ∧
      s.tests _ = _ ++ [(_, Function.update s.aioError block status _)]
    rw [Function.update_of_ne (hblock p hp)]
    exact ⟨hsince, hstatus, htests⟩
  · obtain ⟨n, hn⟩ := h.mem_finished_of_reported hp
    rw [h.reported p hp]
    unfold InFlightAIORequest.result
    have hne : p.1.request.controlBlock ≠ block := hblock _ hn
    dsimp only
    rw [Function.update_of_ne hne]

theorem startRead (h : s.Inv) (callback : Cb) (request : Request) (status : ℤ) :
    (s.startRead callback request status).Inv := by
  have hset : Inv { s with aioError := Function.update s.aioError s.controlBlocks status } :=
    h.setStatus status fun p hp => (h.fresh p.2
      (List.mem_append_left _ (h.mem_queued_of_finished hp))).ne
  have happend : s.queued ++ (s.starting ++ [⟨callback, request, s.controlBlocks⟩]) =
      (s.queued ++ s.starting) ++ [⟨callback, request, s.controlBlocks⟩] := (List.append_assoc ..).symm
  refine ⟨fun read hread => ?_, ?_, hset.order, hset.split, hset.untouched, hset.untested, hset.pending,
    hset.finished, hset.jobs, hset.reported⟩
  · change read ∈ s.queued ++ (s.starting ++ [_]) at hread
    show read.block < s.controlBlocks + 1
    rw [happend] at hread
    rcases List.mem_append.1 hread with hread | hread
    · exact (h.fresh read hread).trans (Nat.lt_succ_self _)
    · rw [List.mem_singleton.1 hread]
      exact Nat.lt_succ_self _
  · show ((s.queued ++ (s.starting ++ [_])).map _).Nodup
    rw [happend, List.map_append, List.nodup_append]
    refine ⟨h.nodup, List.nodup_singleton _, ?_⟩
    rintro _ hmem _ hnew rfl
    obtain ⟨read, hread, heq⟩ := List.mem_map.1 hmem
    have hlt := h.fresh read hread
    rw [heq, List.mem_singleton.1 hnew] at hlt
    exact lt_irrefl _ hlt

theorem enter (h : s.Inv) (hlock : s.poll = none) (hstarting : s.starting = before ++ read :: after) :
    (s.enter (before ++ after) read).Inv := by
  have hmiddle : (read :: (before ++ after)).Perm (before ++ read :: after) := List.perm_middle.symm
  have hperm : ((s.queued ++ [read]) ++ (before ++ after)).Perm (s.queued ++ s.starting) := by
    rw [List.append_assoc, hstarting]
    exact hmiddle.append_left s.queued
  have hnodup := (hperm.map Read.block).nodup_iff.2 h.nodup
  have hnew : ∀ r ∈ s.queued, r.block ≠ read.block := by
    rw [List.map_append, List.map_append] at hnodup
    exact fun r hr => (List.nodup_append.1 (List.nodup_append.1 hnodup).1).2.2 _ (List.mem_map_of_mem hr) _
      (List.mem_singleton_self _)
  have hsince : ∀ r ∈ s.queued, (s.enter (before ++ after) read).since r.block = s.since r.block :=
    fun r hr => Function.update_of_ne (hnew r hr) ..
  obtain ⟨hkept, huntested, hpending, hfinished⟩ := idle hlock
  obtain ⟨hkept', huntested', hpending', hreturned⟩ := idle (s := s.enter (before ++ after) read) hlock
  have hfinished' : (s.enter (before ++ after) read).finished = s.finished := hreturned.trans hfinished.symm
  have horder := h.order
  have hsplit := h.split
  rw [hkept] at horder hsplit
  refine ⟨fun r hr => h.fresh r (hperm.mem_iff.1 hr), hnodup, ?_, ?_, fun block hblock => ?_, fun r hr => ?_,
    ?_, fun q hq => ?_, h.jobs, h.reported⟩
  · rw [hkept']
    exact horder.append_right [read]
  · rw [hkept', hfinished']
    show (s.queued ++ [read]).Perm ((s.inFlightRequests ++ [read]) ++ _)
    rw [List.append_assoc]
    exact (List.perm_append_singleton read s.queued).trans ((hsplit.cons read).trans List.perm_middle.symm)
  · refine h.untouched block fun hmem => hblock ?_
    show block ∈ (s.queued ++ [read]).map Read.block
    rw [List.map_append]
    exact List.mem_append_left _ hmem
  · rw [huntested'] at hr
    rcases List.mem_append.1 hr with hr | hr
    · rw [hsince r (horder.subset hr)]
      exact h.untested r (by rw [huntested]; exact hr)
    · -- nobody has tested it
      have htests : s.tests read.block = [] := h.untouched _ fun hmem => by
        obtain ⟨r', hr', heq⟩ := List.mem_map.1 hmem
        exact hnew r' hr' heq
      rw [List.mem_singleton.1 hr]
      show Function.update s.since read.block s.polls read.block ≤ s.polls ∧
        s.tests _ = inProgress (Function.update s.since read.block s.polls read.block) s.polls
      rw [Function.update_self, htests, inProgress, Nat.sub_self]
      exact ⟨le_rfl, rfl⟩
  · rw [hpending']
    exact nofun
  · rw [hfinished'] at hq
    rw [hsince q.2 (h.mem_queued_of_finished hq)]
    exact h.finished q hq

theorem beginPoll (h : s.Inv) (hlock : s.poll = none) :
    Inv { s with poll := some ⟨s.inFlightRequests, [], []⟩ } := by
  obtain ⟨hkept, huntested, hpending, hfinished⟩ := idle hlock
  have horder := h.order
  have hsplit := h.split
  have hall := h.finished
  rw [hkept] at horder hsplit
  rw [hfinished] at hsplit hall
  refine ⟨h.fresh, h.nodup, horder, ?_, h.untouched, fun r hr => h.untested r (by rw [huntested]; exact hr),
    nofun, fun q hq => ?_, h.jobs, h.reported⟩
  · show s.queued.Perm (s.inFlightRequests ++ (s.returned ++ []).map Prod.snd)
    rw [List.append_nil]
    exact hsplit
  · change q ∈ s.returned ++ [] at hq
    rw [List.append_nil] at hq
    exact hall q hq

theorem endPoll (h : s.Inv) (hpoll : s.poll = some p) (hrest : p.rest = []) : (s.endPoll p).Inv := by
  obtain ⟨hkept, huntested, hpending, hfinished⟩ := busy hpoll
  have horder := h.order
  have hsplit := h.split
  have hall := h.finished
  rw [hkept, hrest, List.append_nil] at horder hsplit
  rw [hfinished] at hsplit hall
  refine ⟨h.fresh, h.nodup, horder, hsplit, h.untouched, fun r hr => ?_, nofun, hall, ?_, h.reported⟩
  · obtain ⟨hsince, htests⟩ := h.pending r (by rw [hpending]; exact hr)
    exact ⟨hsince.trans (Nat.le_succ _), htests⟩
  · show (s.reported.map Prod.fst ++ (s.jobs ++ p.completedJobs)).Perm ((s.returned ++ _).map Prod.snd)
    rw [← List.append_assoc, List.map_append, List.map_map]
    have hmap : p.completedJobs.map (Prod.snd ∘ fun read => (s.polls, read)) = p.completedJobs :=
      List.map_id' _
    rw [hmap]
    exact h.jobs.append_right _

theorem test (h : s.Inv) (hpoll : s.poll = some p) (hrest : p.rest = read :: rest) :
    (s.test p read rest).Inv := by
  obtain ⟨hkept, huntested, hpending, hfinished⟩ := busy hpoll
  have hsplit := h.split
  rw [hkept, hrest] at hsplit
  have hperm : s.queued.Perm (read :: ((p.pendingRequests ++ rest) ++ s.finished.map Prod.snd)) :=
    hsplit.trans (List.perm_middle.append_right _)
  have hnodup : (s.queued.map Read.block).Nodup := by
    have hall := h.nodup
    rw [List.map_append] at hall
    exact (List.nodup_append.1 hall).1
  have hother : ∀ r ∈ (p.pendingRequests ++ rest) ++ s.finished.map Prod.snd,
      (s.test p read rest).tests r.block = s.tests r.block := by
    intro r hr
    have hmem : r.block ∈ ((p.pendingRequests ++ rest) ++ s.finished.map Prod.snd).map Read.block :=
      List.mem_map_of_mem hr
    rw [(hperm.map Read.block).nodup_iff, List.map_cons, List.nodup_cons] at hnodup
    have hne : r.block ≠ read.block := fun heq => hnodup.1 (heq ▸ hmem)
    exact Function.update_of_ne hne ..
  obtain ⟨hsince, htests⟩ := h.untested read (by rw [huntested, hrest]; exact List.mem_cons_self ..)
  have hself : (s.test p read rest).tests read.block =
      inProgress (s.since read.block) s.polls ++ [(s.polls, s.aioError read.block)] := by
    rw [← htests]
    exact Function.update_self ..
  have huntouched : ∀ block, block ∉ s.queued.map Read.block → (s.test p read rest).tests block = [] := by
    intro block hblock
    have hmem : read.block ∈ s.queued.map Read.block :=
      List.mem_map_of_mem (hperm.mem_iff.2 (List.mem_cons_self ..))
    have hne : block ≠ read.block := fun heq => hblock (heq ▸ hmem)
    exact (Function.update_of_ne hne ..).trans (h.untouched block hblock)
  have hrest' : ∀ r ∈ rest, s.since r.block ≤ s.polls ∧
      (s.test p read rest).tests r.block = inProgress (s.since r.block) s.polls := by
    intro r hr
    rw [hother r (by simp [hr])]
    exact h.untested r (by rw [huntested, hrest]; exact List.mem_cons_of_mem _ hr)
  have hpending' : ∀ r ∈ p.pendingRequests, s.since r.block ≤ s.polls ∧
      (s.test p read rest).tests r.block = inProgress (s.since r.block) (s.polls + 1) := by
    intro r hr
    rw [hother r (by simp [hr])]
    exact h.pending r (by rw [hpending]; exact hr)
  have hfinished' : ∀ q ∈ s.finished, s.since q.2.block ≤ q.1 ∧ s.aioError q.2.block ≠ EINPROGRESS ∧
      (s.test p read rest).tests q.2.block =
        inProgress (s.since q.2.block) q.1 ++ [(q.1, s.aioError q.2.block)] := by
    intro q hq
    rw [hother q.2 (List.mem_append_right _ (List.mem_map_of_mem hq))]
    exact h.finished q hq
  have horder := h.order
  rw [hkept, hrest] at horder
  by_cases hc : read.request.isCompleted s.aioError = true
  · have hpoll' : (s.test p read rest).poll =
        some { p with rest := rest, completedJobs := p.completedJobs ++ [read] } :=
      congrArg some (if_pos hc)
    obtain ⟨hk, hu, hp, hf⟩ := busy hpoll'
    have hf' : (s.test p read rest).finished = s.finished ++ [(s.polls, read)] := by
      rw [hf, hfinished, List.append_assoc]
      exact congrArg (s.returned ++ ·) List.map_append
    refine ⟨h.fresh, h.nodup, ?_, ?_, huntouched, ?_, ?_, ?_, h.jobs, h.reported⟩
    · rw [hk]
      exact ((List.sublist_cons_self read rest).append_left _).trans horder
    · rw [hk, hf', List.map_append, ← List.append_assoc]
      exact hperm.trans (List.perm_append_singleton read _).symm
    · rw [hu]
      exact hrest'
    · rw [hp]
      exact hpending'
    · rw [hf']
      intro q hq
      rcases List.mem_append.1 hq with hq | hq
      · exact hfinished' q hq
      · rw [List.mem_singleton.1 hq]
        exact ⟨hsince, of_decide_eq_true hc, hself⟩
  · have hpoll' : (s.test p read rest).poll =
        some { p with rest := rest, pendingRequests := p.pendingRequests ++ [read] } :=
      congrArg some (if_neg hc)
    obtain ⟨hk, hu, hp, hf⟩ := busy hpoll'
    have hf' : (s.test p read rest).finished = s.finished := hf.trans hfinished.symm
    have hk' : (s.test p read rest).kept = p.pendingRequests ++ read :: rest := by
      rw [hk, List.append_assoc]
      rfl
    refine ⟨h.fresh, h.nodup, ?_, ?_, huntouched, ?_, ?_, ?_, h.jobs, h.reported⟩
    · rw [hk']
      exact horder
    · rw [hk', hf']
      exact hsplit
    · rw [hu]
      exact hrest'
    · rw [hp]
      intro r hr
      rcases List.mem_append.1 hr with hr | hr
      · exact hpending' r hr
      · have hstatus : s.aioError read.block = EINPROGRESS := by
          by_contra hne
          exact hc (decide_eq_true hne)
        rw [List.mem_singleton.1 hr]
        refine ⟨hsince, ?_⟩
        show (s.test p read rest).tests read.block = inProgress (s.since read.block) (s.polls + 1)
        rw [hself, inProgress_succ hsince, hstatus]
    · rw [hf']
      exact hfinished'

theorem run (h : s.Inv) (hjobs : s.jobs = before ++ read :: after) :
    Inv { s with
      jobs := before ++ after
      reported := s.reported ++ [(read, read.request.result s.aioError)] } := by
  refine ⟨h.fresh, h.nodup, h.order, h.split, h.untouched, h.untested, h.pending, h.finished, ?_, ?_⟩
  · have hperm := h.jobs
    rw [hjobs] at hperm
    show (((s.reported ++ [_]).map Prod.fst) ++ (before ++ after)).Perm _
    rw [List.map_append, List.append_assoc]
    have hmiddle : (read :: (before ++ after)).Perm (before ++ read :: after) := List.perm_middle.symm
    exact (hmiddle.append_left (s.reported.map Prod.fst)).trans hperm
  · intro p hp
    rcases List.mem_append.1 hp with hp | hp
    · exact h.reported p hp
    · rw [List.mem_singleton.1 hp]

end Inv

theorem Step.inv (h : Step s s') (hs : s.Inv) : s'.Inv := by
  cases h with
  | startRead callback request status => exact hs.startRead callback request status
  | enter hlock hstarting => exact hs.enter hlock hstarting
  | complete block status hblock =>
    exact hs.setStatus status fun p hp heq => (hs.finished p hp).2.1 (by rw [heq]; exact hblock)
  | beginPoll hlock => exact hs.beginPoll hlock
  | test hpoll hrest => exact hs.test hpoll hrest
  | endPoll hpoll hrest => exact hs.endPoll hpoll hrest
  | run hjobs => exact hs.run hjobs

theorem Inv.reach (hs : Reach Init Step s) : s.Inv :=
  Inductive.reach (P := Inv) ⟨fun _ h => h.inv, fun _ _ h hstep => hstep.inv h⟩ hs

end PollSource
end AsyncEry.Io
