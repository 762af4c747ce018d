import AsyncEry.Timetable
import AsyncEry.Lib.Conserve
import AsyncEry.Lib.Ring

/-!
# `HierarchicalTimingWheel`

The wheels from the lowest up, each turning by one bucket when the one below it has come round. An
entry is due at the tick at which its bucket comes down to the lowest wheel and is collected:
`chainDues` are the entries of all wheels with their ticks. Turning the wheels and moving entries
down leaves them as they are, and a placement adds one.
-/

namespace AsyncEry.Timing

/-- A timer and how many ticks it is due after the start of its bucket. -/
structure TimerEntry (Timer : Type) where
  tickOffsetIntoBucket : ℕ
  timer : Timer

structure Wheel (Timer : Type) where
  numBuckets : ℕ
  ticksPerBucket : ℕ
  currBucketIndex : Fin numBuckets
  buckets : Vector (List (TimerEntry Timer)) numBuckets

namespace Wheel
variable {Timer : Type}

def create (wheelSize : ℕ+) (ticksPerBucket : ℕ) : Wheel Timer :=
  ⟨wheelSize, ticksPerBucket, ⟨0, wheelSize.pos⟩, .replicate wheelSize []⟩

/-- `idx % num_buckets`. -/
def bucket (w : Wheel Timer) (idx : ℕ) : Fin w.numBuckets :=
  ⟨idx % w.numBuckets, Nat.mod_lt _ w.currBucketIndex.pos⟩

/-- `buckets[b]`. -/
def entries (w : Wheel Timer) (b : Fin w.numBuckets) : List (TimerEntry Timer) := w.buckets[b]

def setEntries (w : Wheel Timer) (b : Fin w.numBuckets) (entries : List (TimerEntry Timer)) :
    Wheel Timer :=
  { w with buckets := w.buckets.set b entries }

def push (w : Wheel Timer) (b : Fin w.numBuckets) (entry : TimerEntry Timer) : Wheel Timer :=
  w.setEntries b (w.entries b ++ [entry])

def clear (w : Wheel Timer) (b : Fin w.numBuckets) : Wheel Timer := w.setEntries b []

def next (w : Wheel Timer) : Wheel Timer :=
  { w with currBucketIndex := w.bucket (SizeT.add w.currBucketIndex 1) }

/-- The end of `schedule`. -/
def place (w : Wheel Timer) (ticksLeft : ℕ) (timer : Timer) : Wheel Timer :=
  w.push (w.bucket (SizeT.add w.currBucketIndex (ticksLeft / w.ticksPerBucket)))
    ⟨ticksLeft % w.ticksPerBucket, timer⟩

/-- What `load_timers_from_wheel` does with each entry of the wheel above. -/
def receive (w : Wheel Timer) (entry : TimerEntry Timer) : Wheel Timer :=
  let bucketIndex := w.bucket
    (SizeT.add w.currBucketIndex (entry.tickOffsetIntoBucket / w.ticksPerBucket))
  w.push bucketIndex
    ⟨SizeT.sub entry.tickOffsetIntoBucket (SizeT.mul bucketIndex w.ticksPerBucket), entry.timer⟩

end Wheel

/-- `load_timers_from_wheel`, into the wheel `below` from the first of the wheels above it. -/
def loadTimersFromWheel {Timer : Type} :
    Wheel Timer → List (Wheel Timer) → Wheel Timer × List (Wheel Timer)
  | below, [] => (below, [])
  | below, wheel :: above =>
    let below := (wheel.entries wheel.currBucketIndex).foldl Wheel.receive below
    let wheel := (wheel.clear wheel.currBucketIndex).next
    if wheel.currBucketIndex.val = 0 then
      let (wheel, above) := loadTimersFromWheel wheel above
      (below, wheel :: above)
    else (below, wheel :: above)

/-- The number of the wheel to place a timer in, `wheel` being number 0, and the ticks left for it. -/
def determineTimerWheel {Timer : Type} : Wheel Timer → List (Wheel Timer) → ℕ → ℕ × ℕ
  | _, [], ticksToFit => (0, ticksToFit)
  | wheel, above :: rest, ticksToFit =>
    if SizeT.add wheel.currBucketIndex (ticksToFit / wheel.ticksPerBucket) < wheel.numBuckets then
      (0, ticksToFit)
    else
      let (currWheel, ticksLeft) := determineTimerWheel above rest
        (SizeT.sub ticksToFit (SizeT.mul wheel.numBuckets wheel.ticksPerBucket))
      (currWheel + 1, ticksLeft)

/-- `timing_wheel_hierarchical.h`; the vector of wheels is not empty. -/
structure HierarchicalTimingWheel (Timer : Type) where
  tickSize : Milliseconds
  lastAdvancementTime : TimePoint
  lowestWheel : Wheel Timer
  wheelsAbove : List (Wheel Timer)

namespace HierarchicalTimingWheel
variable {Timer : Type}

def wheels (s : HierarchicalTimingWheel Timer) : List (Wheel Timer) := s.lowestWheel :: s.wheelsAbove

def createWheels : ℕ → List ℕ+ → List (Wheel Timer)
  | _, [] => []
  | totalTicksInLastWheel, wheelSize :: wheelSizes =>
    .create wheelSize totalTicksInLastWheel ::
      createWheels (SizeT.mul totalTicksInLastWheel wheelSize) wheelSizes

/-- The constructor, called at `now` with the sizes `wheelSize :: wheelSizes`. -/
def create (tickSize : Milliseconds) (now : TimePoint) (wheelSize : ℕ+) (wheelSizes : List ℕ+) :
    HierarchicalTimingWheel Timer :=
  ⟨tickSize, now, .create wheelSize 1, createWheels (SizeT.mul 1 wheelSize) wheelSizes⟩

def place (s : HierarchicalTimingWheel Timer) (ticksLeft : ℕ) (timer : Timer) :
    ℕ → HierarchicalTimingWheel Timer
  | 0 => { s with lowestWheel := s.lowestWheel.place ticksLeft timer }
  | i + 1 => { s with wheelsAbove := s.wheelsAbove.modify i fun w => w.place ticksLeft timer }

def schedule (s : HierarchicalTimingWheel Timer) (durationFromLastAdvancement : Milliseconds)
    (timer : Timer) : HierarchicalTimingWheel Timer :=
  let ticksToFit := SizeT.ofInt (ticksIn s.tickSize durationFromLastAdvancement)
  let (wheelToPlaceIn, ticksLeft) := determineTimerWheel s.lowestWheel s.wheelsAbove ticksToFit
  s.place ticksLeft timer wheelToPlaceIn

def determineNewBottomWheelIndex (s : HierarchicalTimingWheel Timer) (now : TimePoint) : ℕ :=
  SizeT.add s.lowestWheel.currBucketIndex
    (SizeT.ofInt (ticksSince s.tickSize (since now s.lastAdvancementTime)))

/-- One round of the loop of `advance`. -/
def processBucket (s : HierarchicalTimingWheel Timer) (bucket : Fin s.lowestWheel.numBuckets) :
    HierarchicalTimingWheel Timer × List Timer :=
  let resolved := (s.lowestWheel.entries bucket).map TimerEntry.timer
  let lowestWheel := (s.lowestWheel.clear bucket).next
  if lowestWheel.currBucketIndex.val = 0 then
    let (lowestWheel, wheelsAbove) := loadTimersFromWheel lowestWheel s.wheelsAbove
    ({ s with lowestWheel := lowestWheel, wheelsAbove := wheelsAbove }, resolved)
  else ({ s with lowestWheel := lowestWheel }, resolved)

def processBuckets (s : HierarchicalTimingWheel Timer) :
    List ℕ → HierarchicalTimingWheel Timer × List Timer
  | [] => (s, [])
  | idx :: completed =>
    let (s, resolved) := s.processBucket (s.lowestWheel.bucket idx)
    let (s, rest) := s.processBuckets completed
    (s, resolved ++ rest)

def advance (s : HierarchicalTimingWheel Timer) (now : TimePoint) :
    HierarchicalTimingWheel Timer × List Timer :=
  if since now s.lastAdvancementTime < nanos s.tickSize then (s, [])
  else
    let completed := List.range' s.lowestWheel.currBucketIndex
      (s.determineNewBottomWheelIndex now - s.lowestWheel.currBucketIndex)
    let (s, resolvedTimers) := s.processBuckets completed
    ({ s with lastAdvancementTime := now }, resolvedTimers)

def step (s : HierarchicalTimingWheel Timer) :
    Call Timer → HierarchicalTimingWheel Timer × List Timer
  | .schedule duration timer => (s.schedule duration timer, [])
  | .advance now => s.advance now

end HierarchicalTimingWheel
end AsyncEry.Timing
