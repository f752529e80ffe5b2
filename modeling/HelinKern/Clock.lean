import Mathlib.Data.BitVec

/-! The clock of `src/thread.c`: `kwait` and `clock_convertTime`. -/

namespace HelinKern
namespace Clock

/-- The test of the loop of `kwait`, which was called with `num_clocks` at `entry`, after `ticks` calls of `clock_handler`. -/
def waits (entry : BitVec 64) (ms ticks : Nat) : Prop :=
  -- `now` is an `int`, and the difference is a `uint64_t`
  let now : Int := (entry.toNat + 2147483648) % 4294967296 - 2147483648
  (entry.toNat + ticks - now) % 18446744073709551616 < ms + 1

instance (entry : BitVec 64) (ms ticks : Nat) : Decidable (waits entry ms ticks) := Int.decLt ..

/-- `kwait(ms)`, given the ticks that were counted at each test: those at the test that ends it. -/
def kwait (entry : BitVec 64) (ms : Nat) (tests : List Nat) : Option Nat := tests.find? (¬waits entry ms ·)

structure Tm where
  year : Nat
  mon : Nat
  mday : Nat
  hour : Nat
  min : Nat
  sec : Nat

/-- For dates from 1970 on. Every month has 30 days, and `leap_years` is not used. -/
def clockConvertTime (t : Tm) : Nat :=
  let year := if t.year < 1970 then t.year + 1900 else t.year
  let yearDiff := year - 1970 + 1
  let days := yearDiff * 365 + t.mon * 30 + (t.mday - 1)
  days * 86400 + t.hour * 3600 + t.min * 60 + t.sec

end Clock
end HelinKern
