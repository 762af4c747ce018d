import Mathlib

/-!
# `std::chrono` and `size_t`

Milliseconds and the nanoseconds of the system clock are 64-bit counts. The program converts, subtracts
and divides them in 64 bits, where an overflow is undefined; here this is done in `ℤ`. So all that is said
of the wheels assumes that nothing overflows there: that the tick sizes, the durations they are compared
with and the differences of clock readings are less than `2 ^ 63` nanoseconds, some 292 years. A `size_t`
is a number below `2 ^ 64`, and its arithmetic wraps.
-/

namespace AsyncEry.Timing

/-- `std::chrono::milliseconds`. -/
abbrev Milliseconds := Int64

/-- `std::chrono::system_clock::time_point`, in nanoseconds since the epoch. -/
abbrev TimePoint := Int64

/-- A duration converted to the resolution of the clock, if that does not overflow. -/
def nanos (d : Milliseconds) : ℤ := d.toInt * 1000000

/-- `now - last`, if that does not overflow. -/
def since (now last : TimePoint) : ℤ := now.toInt - last.toInt

/-- The ticks in a duration, `duration / tick_size`. -/
def ticksIn (tickSize d : Milliseconds) : ℤ := d.toInt.tdiv tickSize.toInt

/-- The ticks in a difference of clock readings, `/ tick_size`. -/
def ticksSince (tickSize : Milliseconds) (d : ℤ) : ℤ := d.tdiv (nanos tickSize)

variable {tickSize d : Milliseconds} {start last now : TimePoint} {n t : ℕ}

theorem nanos_pos (h : 0 < d.toInt) : 0 < nanos d := by
  unfold nanos; omega

theorem since_lt (now last : TimePoint) : since now last < 2 ^ 64 := by
  have h1 := now.toInt_lt
  have h2 := last.le_toInt
  unfold since
  omega

theorem since_add_since (now last start : TimePoint) :
    since now last + since last start = since now start := by
  unfold since; omega

theorem ticksSince_nanos : ticksSince tickSize (nanos d) = ticksIn tickSize d :=
  Int.mul_tdiv_mul_of_pos_left _ _ (by decide)

theorem ticksIn_nonneg (htick : 0 < tickSize.toInt) (hd : 0 ≤ d.toInt) : 0 ≤ ticksIn tickSize d :=
  Int.tdiv_nonneg hd htick.le

theorem ticksIn_lt (tickSize : Milliseconds) (hd : 0 ≤ d.toInt) : ticksIn tickSize d < 2 ^ 63 :=
  (Int.tdiv_le_self _ hd).trans_lt d.toInt_lt

/-- `n` is the number of whole ticks between two clock readings. -/
theorem ticksSince_mul_le (htick : 0 < tickSize.toInt) (h : nanos tickSize ≤ since now last) :
    0 ≤ ticksSince tickSize (since now last) ∧
      ticksSince tickSize (since now last) * nanos tickSize ≤ since now last := by
  have hpos := nanos_pos htick
  refine ⟨Int.tdiv_nonneg (by omega) hpos.le, ?_⟩
  unfold ticksSince
  rw [Int.tdiv_eq_ediv_of_nonneg (by omega)]
  exact Int.ediv_mul_le _ hpos.ne'

/-- And the rest is less than a tick. -/
theorem lt_ticksSince_mul (htick : 0 < tickSize.toInt) (h : nanos tickSize ≤ since now last) :
    since now last < (ticksSince tickSize (since now last) + 1) * nanos tickSize := by
  have hpos := nanos_pos htick
  unfold ticksSince
  rw [Int.tdiv_eq_ediv_of_nonneg (by omega)]
  exact Int.lt_ediv_add_one_mul_self _ hpos

/-- So many ticks fit between two clock readings that they are far from filling a `size_t`. -/
theorem lt_of_mul_le (htick : 0 < tickSize.toInt) (h : t * nanos tickSize ≤ since now start) :
    t < 2 ^ 63 := by
  have hlt := since_lt now start
  have hle : (1000000 : ℤ) ≤ nanos tickSize := by unfold nanos; omega
  nlinarith

namespace SizeT

/-- `static_cast<size_t>`. -/
def ofInt (z : ℤ) : ℕ := (z % 2 ^ 64).toNat

def add (a b : ℕ) : ℕ := (a + b) % 2 ^ 64

def mul (a b : ℕ) : ℕ := a * b % 2 ^ 64

def sub (a b : ℕ) : ℕ := (a + (2 ^ 64 - b)) % 2 ^ 64

variable {a b : ℕ} {z : ℤ}

theorem ofInt_of_lt (h0 : 0 ≤ z) (h : z < 2 ^ 64) : ofInt z = z.toNat := by
  rw [ofInt, Int.emod_eq_of_lt h0 h]

theorem add_of_lt (h : a + b < 2 ^ 64) : add a b = a + b := Nat.mod_eq_of_lt h

theorem mul_of_lt (h : a * b < 2 ^ 64) : mul a b = a * b := Nat.mod_eq_of_lt h

theorem sub_of_le (h : b ≤ a) (ha : a < 2 ^ 64) : sub a b = a - b := by
  rw [sub, show a + (2 ^ 64 - b) = a - b + 2 ^ 64 by omega, Nat.add_mod_right,
    Nat.mod_eq_of_lt (by omega)]

end SizeT

end AsyncEry.Timing
