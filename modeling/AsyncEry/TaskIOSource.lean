import AsyncEry.IoPollSource
import AsyncEry.WriteOnceCell

/-!
# What a read delivers

A `ReadRequest` owns the buffer that the control block points to, and the task of a read resolves to the
request itself. `aio` stores what the file has from the offset on, up to the size of the request, and
reports how much that is; the request does not ask, so its size stays the size of the buffer. What is
behind the bytes of the file is what the buffer held before.
-/

namespace AsyncEry.Io

/-- `io_request.h`. `buffer` is the number of the array. -/
structure ReadRequest where
  buffer : ℕ
  nbytes : ℕ
  fileOffset : ℤ
deriving DecidableEq

namespace ReadRequest

def size (r : ReadRequest) : ℕ := r.nbytes

def offset (r : ReadRequest) : ℤ := r.fileOffset

def underlyingBuffer (r : ReadRequest) : ℕ := r.buffer

def copyBuffer (buffers : ℕ → List UInt8) (r : ReadRequest) : List UInt8 :=
  (buffers r.buffer).take r.nbytes

end ReadRequest

/-- The fields of `struct aiocb` that are set. -/
structure Aiocb where
  aioFildes : ℕ
  aioBuf : ℕ
  aioNbytes : ℕ
  aioOffset : ℤ

/-- `F[offset, offset + m)`. -/
def bytesAt (F : List UInt8) (offset : ℤ) (m : ℕ) : List UInt8 := (F.drop offset.toNat).take m

namespace Aiocb

/-- How many bytes there are to read in a file with contents `F`. -/
def count (cb : Aiocb) (F : List UInt8) : ℕ := min cb.aioNbytes (F.length - cb.aioOffset.toNat)

/-- The buffer after a successful read. -/
def transfer (cb : Aiocb) (F : List UInt8) (buffer : List UInt8) : List UInt8 :=
  bytesAt F cb.aioOffset (cb.count F) ++ buffer.drop (cb.count F)

/-- `aio_buf`, `aio_nbytes` and `aio_offset` are taken from the request. -/
def ofRequest (fildes : ℕ) (request : ReadRequest) : Aiocb :=
  ⟨fildes, request.underlyingBuffer, request.size, request.offset⟩

variable {cb : Aiocb} {F buffer : List UInt8}

theorem length_bytesAt : (bytesAt F cb.aioOffset (cb.count F)).length = cb.count F := by
  rw [bytesAt, List.length_take, List.length_drop]
  exact Nat.min_eq_left (Nat.min_le_right ..)

theorem length_transfer (h : buffer.length = cb.aioNbytes) :
    (cb.transfer F buffer).length = cb.aioNbytes := by
  have hle : cb.count F ≤ cb.aioNbytes := Nat.min_le_left ..
  rw [transfer, List.length_append, List.length_drop, length_bytesAt, h]
  omega

end Aiocb
end AsyncEry.Io

namespace AsyncEry.Async
open Cell Scheduler Io Lts

inductive Error
  | rejected
  | ioError
deriving DecidableEq

/-- The poll source and what the reads work on. The buffer, the control block and the value source of a
read have its number, which is also its callback. `initial` records what a buffer held when it was
allocated. -/
structure TaskIOSource (Cb : Type) where
  ioPollSource : Io.PollSource ℕ ReadRequest
  buffers : ℕ → List UInt8
  controlBlock : ℕ → Aiocb
  valueSources : ℕ → WriteOnceCell ReadRequest Error Cb
  scheduler : List (Queued ReadRequest Error Cb)
  initial : ℕ → List UInt8

namespace TaskIOSource
variable {Cb : Type}

def Init (s : TaskIOSource Cb) : Prop :=
  s.ioPollSource.Init ∧ s.valueSources = (fun _ => .init) ∧ s.scheduler = []

/-- `read(file, ReadRequest(nbytes, offset))`; the buffer is allocated with `content`, and the status is
`status` when `aio_read` returns. -/
def read (s : TaskIOSource Cb) (file nbytes : ℕ) (offset : ℤ) (content : List UInt8) (status : ℤ) :
    TaskIOSource Cb :=
  let n := s.ioPollSource.controlBlocks
  let request : ReadRequest := ⟨n, nbytes, offset⟩
  { s with
    ioPollSource := s.ioPollSource.startRead n request status
    buffers := Function.update s.buffers n content
    controlBlock := Function.update s.controlBlock n (.ofRequest file request)
    initial := Function.update s.initial n content }

/-- The read with control block `n` ends well. -/
def succeed (s : TaskIOSource Cb) (files : ℕ → List UInt8) (n : ℕ) : TaskIOSource Cb :=
  let cb := s.controlBlock n
  { s with
    ioPollSource := { s.ioPollSource with aioError := Function.update s.ioPollSource.aioError n 0 }
    buffers := Function.update s.buffers cb.aioBuf
      (cb.transfer (files cb.aioFildes) (s.buffers cb.aioBuf)) }

/-- `read_callback`. -/
def readCallback (s : TaskIOSource Cb) (n : ℕ) (ioResult : Except AIOError ReadRequest) :
    TaskIOSource Cb :=
  let (cell, jobs, _) := match ioResult with
    | .ok buff => (s.valueSources n).write Context.empty buff
    | .error _ => (s.valueSources n).error Context.empty .ioError
  { s with valueSources := Function.update s.valueSources n cell, scheduler := s.scheduler ++ jobs }

/-- The steps of the poll source, with those of `aio` and of the tasks. -/
inductive Step (files : ℕ → List UInt8) : TaskIOSource Cb → TaskIOSource Cb → Prop
  | read {s} (file nbytes : ℕ) (offset : ℤ) (content : List UInt8) (status : ℤ)
      (hcontent : content.length = nbytes) (hstatus : status ≠ 0) :
    Step files s (s.read file nbytes offset content status)
  | succeed {s n} (hn : n < s.ioPollSource.controlBlocks)
      (h : s.ioPollSource.aioError n = EINPROGRESS) (hoffset : 0 ≤ (s.controlBlock n).aioOffset) :
    Step files s (s.succeed files n)
  | fail {s n} (status : ℤ) (hn : n < s.ioPollSource.controlBlocks)
      (h : s.ioPollSource.aioError n = EINPROGRESS) (hstatus : status ≠ 0) :
    Step files s { s with
      ioPollSource := { s.ioPollSource with aioError := Function.update s.ioPollSource.aioError n status } }
  | enter {s before read after} (hlock : s.ioPollSource.poll = none)
      (h : s.ioPollSource.starting = before ++ read :: after) :
    Step files s { s with ioPollSource := s.ioPollSource.enter (before ++ after) read }
  | beginPoll {s} (hlock : s.ioPollSource.poll = none) :
    Step files s { s with
      ioPollSource := { s.ioPollSource with poll := some ⟨s.ioPollSource.inFlightRequests, [], []⟩ } }
  | test {s p read rest} (h : s.ioPollSource.poll = some p) (hrest : p.rest = read :: rest) :
    Step files s { s with ioPollSource := s.ioPollSource.test p read rest }
  | endPoll {s p} (h : s.ioPollSource.poll = some p) (hrest : p.rest = []) :
    Step files s { s with ioPollSource := s.ioPollSource.endPoll p }
  | run {s before read after} (h : s.ioPollSource.jobs = before ++ read :: after) :
    Step files s { s.readCallback read.callback (read.request.result s.ioPollSource.aioError) with
      ioPollSource := { s.ioPollSource with
        jobs := before ++ after
        reported := s.ioPollSource.reported ++
          [(read, read.request.result s.ioPollSource.aioError)] } }
  | await {s} (n : ℕ) (callback : Cb) :
    Step files s { s with
      valueSources := Function.update s.valueSources n ((s.valueSources n).await callback).1
      scheduler := s.scheduler ++ ((s.valueSources n).await callback).2 }

variable {files : ℕ → List UInt8} {s s' : TaskIOSource Cb}

/-- The poll source takes its own steps. -/
theorem Step.source (hs : Step files s s') :
    s'.ioPollSource = s.ioPollSource ∨ s.ioPollSource.Step s'.ioPollSource := by
  cases hs with
  | read file nbytes offset content status => exact .inr (.startRead _ _ status)
  | succeed _ h => exact .inr (.complete _ 0 h)
  | fail status _ h => exact .inr (.complete _ status h)
  | enter hlock h => exact .inr (.enter hlock h)
  | beginPoll hlock => exact .inr (.beginPoll hlock)
  | test h hrest => exact .inr (.test h hrest)
  | endPoll h hrest => exact .inr (.endPoll h hrest)
  | run h => exact .inr (.run h)
  | await => exact .inl rfl

/-- What the task is written. -/
def delivered : Except AIOError ReadRequest → Result ReadRequest Error
  | .ok buff => .value buff
  | .error _ => .error .ioError

theorem readCallback_eq (s : TaskIOSource Cb) (n : ℕ) (ioResult : Except AIOError ReadRequest) :
    s.readCallback n ioResult =
      { s with
        valueSources := Function.update s.valueSources n
          ((s.valueSources n).writeResultToValue Context.empty (delivered ioResult)).1
        scheduler := s.scheduler ++
          ((s.valueSources n).writeResultToValue Context.empty (delivered ioResult)).2.1 } := by
  cases ioResult <;> rfl

/-- The request of read `n`. -/
def request (s : TaskIOSource Cb) (n : ℕ) : ReadRequest :=
  ⟨n, (s.controlBlock n).aioNbytes, (s.controlBlock n).aioOffset⟩

/-- What `aio` has done to the buffer of each read, and what the tasks have been given. -/
structure Inv (files : ℕ → List UInt8) (s : TaskIOSource Cb) : Prop where
  source : s.ioPollSource.Inv
  reads : ∀ read ∈ s.ioPollSource.queued ++ s.ioPollSource.starting,
    read.callback = read.block ∧ read.request.request = s.request read.block
  buf : ∀ n, n < s.ioPollSource.controlBlocks → (s.controlBlock n).aioBuf = n ∧
    (s.initial n).length = (s.controlBlock n).aioNbytes
  buffer : ∀ n, n < s.ioPollSource.controlBlocks → s.buffers n =
    if s.ioPollSource.aioError n = 0 then
      (s.controlBlock n).transfer (files (s.controlBlock n).aioFildes) (s.initial n)
    else s.initial n
  resolved : ∀ n request, (s.valueSources n).read = some (.value request) →
    n < s.ioPollSource.controlBlocks ∧ s.ioPollSource.aioError n = 0 ∧ request = s.request n

variable {source : Io.PollSource ℕ ReadRequest} {before after : List (Read ℕ ReadRequest)}
  {entry : Read ℕ ReadRequest} {n : ℕ}

theorem Init.inv (h : Init s) : s.Inv files := by
  obtain ⟨hsource, hcells, -⟩ := h
  have hinv := hsource.inv
  obtain ⟨aioError, since, hsource⟩ := hsource
  rw [hsource] at hinv
  refine ⟨hsource ▸ hinv, ?_, ?_, ?_, fun n request hread => ?_⟩
  · rw [hsource]
    exact List.forall_mem_nil _
  · rw [hsource]
    exact fun n hn => absurd hn (Nat.not_lt_zero n)
  · rw [hsource]
    exact fun n hn => absurd hn (Nat.not_lt_zero n)
  · rw [hcells] at hread
    cases hread

namespace Inv

/-- A step of the poll source that leaves the statuses alone. -/
theorem of_source (h : s.Inv files) (hinv : source.Inv) (haio : source.aioError = s.ioPollSource.aioError)
    (hblocks : source.controlBlocks = s.ioPollSource.controlBlocks)
    (hreads : ∀ read ∈ source.queued ++ source.starting,
      read ∈ s.ioPollSource.queued ++ s.ioPollSource.starting) :
    Inv files { s with ioPollSource := source } := by
  refine ⟨hinv, fun read hread => h.reads read (hreads read hread), ?_, ?_, ?_⟩
  · show ∀ n, n < source.controlBlocks → _
    rw [hblocks]
    exact h.buf
  · show ∀ n, n < source.controlBlocks → s.buffers n = if source.aioError n = 0 then _ else _
    rw [hblocks, haio]
    exact h.buffer
  · show ∀ n request, _ → n < source.controlBlocks ∧ source.aioError n = 0 ∧ _
    rw [hblocks, haio]
    exact h.resolved

theorem read (h : s.Inv files) (file nbytes : ℕ) (offset : ℤ) {content : List UInt8} {status : ℤ}
    (hcontent : content.length = nbytes) (hstatus : status ≠ 0) :
    (s.read file nbytes offset content status).Inv files := by
  set k := s.ioPollSource.controlBlocks with hk
  have hblock : ∀ n, n < k → (s.read file nbytes offset content status).controlBlock n = s.controlBlock n :=
    fun n hn => Function.update_of_ne hn.ne ..
  have hinitial : ∀ n, n < k → (s.read file nbytes offset content status).initial n = s.initial n :=
    fun n hn => Function.update_of_ne hn.ne ..
  have hbuffers : ∀ n, n < k → (s.read file nbytes offset content status).buffers n = s.buffers n :=
    fun n hn => Function.update_of_ne hn.ne ..
  have haio : ∀ n, n < k →
      (s.read file nbytes offset content status).ioPollSource.aioError n = s.ioPollSource.aioError n :=
    fun n hn => Function.update_of_ne hn.ne ..
  have hself : (s.read file nbytes offset content status).controlBlock k =
      .ofRequest file ⟨k, nbytes, offset⟩ := Function.update_self ..
  have hinitialSelf : (s.read file nbytes offset content status).initial k = content :=
    Function.update_self ..
  refine ⟨h.source.startRead k _ status, fun r hr => ?_, fun n hn => ?_, fun n hn => ?_,
    fun n request hread => ?_⟩
  · change r ∈ s.ioPollSource.queued ++ (s.ioPollSource.starting ++ [_]) at hr
    rw [← List.append_assoc] at hr
    unfold request
    rcases List.mem_append.1 hr with hr | hr
    · rw [hblock _ (h.source.fresh r hr)]
      exact h.reads r hr
    · rw [List.mem_singleton.1 hr]
      show k = k ∧ _ = ReadRequest.mk k
        ((s.read file nbytes offset content status).controlBlock k).aioNbytes
        ((s.read file nbytes offset content status).controlBlock k).aioOffset
      rw [hself]
      exact ⟨rfl, rfl⟩
  · rcases Nat.lt_succ_iff_lt_or_eq.1 hn with hn | rfl
    · rw [hblock n hn, hinitial n hn]
      exact h.buf n hn
    · rw [hself, hinitialSelf]
      exact ⟨rfl, hcontent⟩
  · rcases Nat.lt_succ_iff_lt_or_eq.1 hn with hn | rfl
    · rw [hblock n hn, hinitial n hn, hbuffers n hn, haio n hn]
      exact h.buffer n hn
    · have hnew : (s.read file nbytes offset content status).ioPollSource.aioError k = status :=
        Function.update_self ..
      rw [hnew, if_neg hstatus, hinitialSelf]
      exact Function.update_self ..
  · obtain ⟨hn, h0, hrequest⟩ := h.resolved n request hread
    refine ⟨Nat.lt_succ_of_lt hn, by rw [haio n hn, h0], ?_⟩
    unfold TaskIOSource.request
    rw [hblock n hn]
    exact hrequest

/-- The status of a read in progress becomes `status`, with what this means for its buffer. -/
theorem complete (h : s.Inv files) (hn : n < s.ioPollSource.controlBlocks)
    (hprogress : s.ioPollSource.aioError n = EINPROGRESS) (status : ℤ) {buffer : List UInt8}
    (hbuffer : buffer = if status = 0 then
        (s.controlBlock n).transfer (files (s.controlBlock n).aioFildes) (s.initial n)
      else s.initial n) :
    Inv files { s with
      ioPollSource := { s.ioPollSource with aioError := Function.update s.ioPollSource.aioError n status }
      buffers := Function.update s.buffers n buffer } := by
  refine ⟨(Io.PollSource.Step.complete n status hprogress).inv h.source, h.reads, h.buf, fun m hm => ?_,
    fun m request hread => ?_⟩
  · show Function.update s.buffers n buffer m =
      if Function.update s.ioPollSource.aioError n status m = 0 then _ else _
    by_cases hmn : m = n
    · subst hmn
      rw [Function.update_self, Function.update_self]
      exact hbuffer
    · rw [Function.update_of_ne hmn, Function.update_of_ne hmn]
      exact h.buffer m hm
  · obtain ⟨hm, h0, hrequest⟩ := h.resolved m request hread
    have hmn : m ≠ n := by
      rintro rfl
      rw [hprogress] at h0
      exact absurd h0 (by decide)
    refine ⟨hm, ?_, hrequest⟩
    show Function.update s.ioPollSource.aioError n status m = 0
    rw [Function.update_of_ne hmn]
    exact h0

theorem initial_of_progress (h : s.Inv files) (hn : n < s.ioPollSource.controlBlocks)
    (hprogress : s.ioPollSource.aioError n = EINPROGRESS) : s.buffers n = s.initial n := by
  rw [h.buffer n hn, hprogress]
  exact if_neg (by decide)

theorem succeed (h : s.Inv files) (hn : n < s.ioPollSource.controlBlocks)
    (hprogress : s.ioPollSource.aioError n = EINPROGRESS) : (s.succeed files n).Inv files := by
  have hbuf := (h.buf n hn).1
  have hcomplete := h.complete hn hprogress 0 (if_pos rfl).symm
  unfold TaskIOSource.succeed
  dsimp only
  rw [hbuf, h.initial_of_progress hn hprogress]
  exact hcomplete

theorem fail (h : s.Inv files) (hn : n < s.ioPollSource.controlBlocks)
    (hprogress : s.ioPollSource.aioError n = EINPROGRESS) {status : ℤ} (hstatus : status ≠ 0) :
    Inv files { s with ioPollSource :=
      { s.ioPollSource with aioError := Function.update s.ioPollSource.aioError n status } } := by
  have hcomplete := h.complete hn hprogress status
    ((h.initial_of_progress hn hprogress).trans (if_neg hstatus).symm)
  rw [Function.update_eq_self] at hcomplete
  exact hcomplete

/-- The task of a read may be given its request when the read has ended well. -/
theorem setCell (h : s.Inv files) (n : ℕ) {cell : WriteOnceCell ReadRequest Error Cb}
    {jobs : List (Queued ReadRequest Error Cb)}
    (hcell : ∀ request, cell.read = some (.value request) →
      (s.valueSources n).read = some (.value request) ∨
        n < s.ioPollSource.controlBlocks ∧ s.ioPollSource.aioError n = 0 ∧ request = s.request n) :
    Inv files { s with
      valueSources := Function.update s.valueSources n cell, scheduler := s.scheduler ++ jobs } := by
  refine ⟨h.source, h.reads, h.buf, h.buffer, fun m request hread => ?_⟩
  change (Function.update s.valueSources n cell m).read = _ at hread
  by_cases hmn : m = n
  · subst hmn
    rw [Function.update_self] at hread
    exact (hcell request hread).elim (h.resolved m request) id
  · rw [Function.update_of_ne hmn] at hread
    exact h.resolved m request hread

theorem mem_queued_of_job (h : s.ioPollSource.Inv) (hjob : entry ∈ s.ioPollSource.jobs) :
    entry ∈ s.ioPollSource.queued := by
  obtain ⟨p, hp, rfl⟩ := List.mem_map.1 (h.jobs.mem_iff.1 (List.mem_append_right _ hjob))
  exact h.mem_queued_of_finished (Io.PollSource.Inv.mem_finished_of_returned hp)

theorem readCallback (h : s.Inv files) (hjob : entry ∈ s.ioPollSource.jobs) :
    (s.readCallback entry.callback (entry.request.result s.ioPollSource.aioError)).Inv files := by
  have hqueued := mem_queued_of_job h.source hjob
  have hlt := h.source.fresh entry (List.mem_append_left _ hqueued)
  obtain ⟨hcallback, hrequest⟩ := h.reads entry (List.mem_append_left _ hqueued)
  rw [hcallback, readCallback_eq]
  refine h.setCell entry.block fun request hread => ?_
  rw [WriteOnceCell.read, WriteOnceCell.value_writeResultToValue] at hread
  cases hvalue : (s.valueSources entry.block).value with
  | some result =>
    rw [hvalue] at hread
    exact .inl (hvalue.trans hread)
  | none =>
    rw [hvalue] at hread
    -- only a status of 0 gives the task a value
    unfold InFlightAIORequest.result at hread
    dsimp only at hread
    by_cases h0 : s.ioPollSource.aioError entry.request.controlBlock = 0
    · rw [if_pos h0] at hread
      cases hread
      exact .inr ⟨hlt, h0, hrequest⟩
    · rw [if_neg h0] at hread
      cases hread

end Inv

theorem Step.inv (hs : Step files s s') (h : s.Inv files) : s'.Inv files := by
  cases hs with
  | read file nbytes offset content status hcontent hstatus => exact h.read file nbytes offset hcontent hstatus
  | succeed hn hprogress => exact h.succeed hn hprogress
  | fail status hn hprogress hstatus => exact h.fail hn hprogress hstatus
  | enter hlock hstarting =>
    refine h.of_source (h.source.enter hlock hstarting) rfl rfl fun r hr => ?_
    change r ∈ (s.ioPollSource.queued ++ [_]) ++ (_ ++ _) at hr
    rw [hstarting]
    simp only [List.mem_append, List.mem_cons] at hr ⊢
    tauto
  | beginPoll hlock => exact h.of_source (h.source.beginPoll hlock) rfl rfl fun _ => id
  | test hpoll hrest => exact h.of_source (h.source.test hpoll hrest) rfl rfl fun _ => id
  | endPoll hpoll hrest => exact h.of_source (h.source.endPoll hpoll hrest) rfl rfl fun _ => id
  | @run before entry after hjobs =>
    have hjob : entry ∈ s.ioPollSource.jobs := by rw [hjobs]; simp
    exact (h.readCallback hjob).of_source (h.source.run hjobs) rfl rfl fun _ => id
  | await n callback =>
    refine h.setCell n fun request hread => .inl ?_
    rw [WriteOnceCell.read, WriteOnceCell.value_await] at hread
    exact hread

/-- The bytes of the file, and behind them what the buffer held before. -/
theorem Inv.copyBuffer (h : s.Inv files) (hn : n < s.ioPollSource.controlBlocks)
    (h0 : s.ioPollSource.aioError n = 0) :
    let cb := s.controlBlock n
    let F := files cb.aioFildes
    (s.request n).copyBuffer s.buffers =
      bytesAt F cb.aioOffset (cb.count F) ++ (s.initial n).drop (cb.count F) := by
  intro cb F
  have hbuffer : s.buffers n = cb.transfer F (s.initial n) := (h.buffer n hn).trans (if_pos h0)
  have hlength : (cb.transfer F (s.initial n)).length = cb.aioNbytes :=
    Aiocb.length_transfer (h.buf n hn).2
  show (s.buffers n).take cb.aioNbytes = _
  rw [hbuffer, ← hlength, List.take_length]
  rfl

/-- In every state of every run: a task that has a request has the one of its read, which is of the size
of the bytes that were there to read, and gives them back, exactly when there were as many as it asked
for. -/
theorem run_delivers_iff (files : ℕ → List UInt8)
    (r : Run (Init : TaskIOSource Cb → Prop) (Step files)) (k n : ℕ) (request : ReadRequest)
    (hread : ((r.state k).valueSources n).read = some (.value request)) :
    let s := r.state k
    let cb := s.controlBlock n
    let F := files cb.aioFildes
    request.size = cb.count F ∧
        request.copyBuffer s.buffers = bytesAt F cb.aioOffset (cb.count F) ↔
      cb.aioNbytes ≤ F.length - cb.aioOffset.toNat := by
  intro s cb F
  have hinv : s.Inv files := Inductive.reach ⟨fun _ h => h.inv, fun _ _ h hs => hs.inv h⟩ (r.reach k)
  obtain ⟨hn, h0, hrequest⟩ := hinv.resolved n request hread
  have hcopy := hinv.copyBuffer hn h0
  have hsize : request.size = cb.aioNbytes := by rw [hrequest]; rfl
  rw [hsize]
  constructor
  · rintro ⟨hcount, -⟩
    rw [hcount]
    exact Nat.min_le_right ..
  · intro hle
    have hcount : cb.count F = cb.aioNbytes := Nat.min_eq_left hle
    have hdrop : (s.initial n).drop (cb.count F) = [] :=
      List.drop_eq_nil_of_le ((hinv.buf n hn).2.trans hcount.symm).le
    refine ⟨hcount.symm, ?_⟩
    rw [hrequest, hcopy, hdrop, List.append_nil]

/-- A read of three bytes at the start of a file of two, into a buffer that held nines. -/
theorem reach_short_read : ∃ s : TaskIOSource Unit, Reach Init (Step fun _ => [65, 66]) s ∧
    (s.valueSources 0).read = some (.value ⟨0, 3, 0⟩) ∧ s.controlBlock 0 = ⟨0, 0, 3, 0⟩ ∧
    s.buffers 0 = [65, 66, 9] := by
  let s₀ : TaskIOSource Unit := ⟨⟨fun _ => 0, 0, [], [], none, [], 0, [], [], fun _ => 0, fun _ => [], []⟩,
    fun _ => [], fun _ => ⟨0, 0, 0, 0⟩, fun _ => .init, [], fun _ => []⟩
  let entry : Read ℕ ReadRequest := ⟨0, ⟨0, 3, 0⟩, 0⟩
  have h₀ : Reach Init (Step fun _ => [65, 66]) s₀ := .start ⟨⟨_, _, rfl⟩, rfl, rfl⟩
  have h₁ := h₀.next (.read 0 3 0 [9, 9, 9] EINPROGRESS rfl (by decide))
  have h₂ := h₁.next (@Step.enter Unit _ _ [] entry [] rfl rfl)
  have h₃ := h₂.next (@Step.succeed Unit _ _ 0 (by decide) rfl (by decide))
  have h₄ := h₃.next (.beginPoll rfl)
  have h₅ := h₄.next (@Step.test Unit _ _ _ entry [] rfl rfl)
  have h₆ := h₅.next (.endPoll rfl rfl)
  have h₇ := h₆.next (@Step.run Unit _ _ [] entry [] rfl)
  exact ⟨_, h₇, rfl, rfl, rfl⟩

/-- The task is given three bytes, of which the last is not from the file. -/
theorem run_delivers_too_much :
    ∃ (r : Run (Init : TaskIOSource Unit → Prop) (Step fun _ => [65, 66])) (k : ℕ) (request : ReadRequest),
      ((r.state k).valueSources 0).read = some (.value request) ∧
        ((r.state k).controlBlock 0).count [65, 66] = 2 ∧ request.size = 3 ∧
        request.copyBuffer (r.state k).buffers = [65, 66, 9] ∧
        ¬ (request.size = ((r.state k).controlBlock 0).count [65, 66] ∧
          request.copyBuffer (r.state k).buffers =
            bytesAt [65, 66] ((r.state k).controlBlock 0).aioOffset
              (((r.state k).controlBlock 0).count [65, 66])) := by
  obtain ⟨s, hs, hread, hblock, hbuffer⟩ := reach_short_read
  obtain ⟨r, k, rfl⟩ := Run.exists_state hs
  have hcount : ((r.state k).controlBlock 0).count [65, 66] = 2 := by rw [hblock]; rfl
  refine ⟨r, k, _, hread, hcount, rfl, ?_, fun h => ?_⟩
  · show ((r.state k).buffers 0).take 3 = _
    rw [hbuffer]
    rfl
  · rw [hcount] at h
    exact absurd h.1 (by decide)

/-- Three bytes are more than there are. -/
theorem run_delivers_iff_short :
    ∃ (r : Run (Init : TaskIOSource Unit → Prop) (Step fun _ => [65, 66])) (k : ℕ),
      ¬ ((⟨0, 3, 0⟩ : ReadRequest).size = ((r.state k).controlBlock 0).count [65, 66] ∧
        (⟨0, 3, 0⟩ : ReadRequest).copyBuffer (r.state k).buffers =
          bytesAt [65, 66] ((r.state k).controlBlock 0).aioOffset
            (((r.state k).controlBlock 0).count [65, 66])) := by
  obtain ⟨s, hs, hread, hblock, -⟩ := reach_short_read
  obtain ⟨r, k, rfl⟩ := Run.exists_state hs
  refine ⟨r, k, mt (run_delivers_iff _ r k 0 _ hread).1 ?_⟩
  rw [hblock]
  decide

end TaskIOSource
end AsyncEry.Async
