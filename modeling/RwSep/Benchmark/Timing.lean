import RwSep.Benchmark.Multithread
import Mathlib.Data.Rat.Cast.Order
import Mathlib.Tactic.FieldSimp
import Mathlib.Tactic.Positivity

namespace RwSep.Benchmark

open RwSep.Data

/-! The times that the two read/write benchmarks report.

Both define `TIMEDIFF` alike and assign it to a `long`.  The quotients that
they print are `double`s; they are exact fractions here.
-/

/-- A `struct timeval` as `gettimeofday` fills it. -/
structure Timeval where
  tvSec : Word
  tvUsec : Word
  nonneg : 0 ≤ tvUsec.toInt
  below : tvUsec.toInt < 1000000

/-- `((end.tv_sec - start.tv_sec) * 1000000000 + (end.tv_usec - start.tv_usec))` -/
def TIMEDIFF (start stop : Timeval) : Word :=
  (stop.tvSec - start.tvSec) * 1000000000 + (stop.tvUsec - start.tvUsec)

/-- Two readings in order, so close that no step of `TIMEDIFF` overflows. -/
structure Interval where
  tstart : Timeval
  tend : Timeval
  ordered : tstart.tvSec.toInt < tend.tvSec.toInt ∨
    (tstart.tvSec.toInt = tend.tvSec.toInt ∧ tstart.tvUsec.toInt ≤ tend.tvUsec.toInt)
  scaled : (tend.tvSec.toInt - tstart.tvSec.toInt) * 1000000000 < 2 ^ 63
  summed : (tend.tvSec.toInt - tstart.tvSec.toInt) * 1000000000 +
    (tend.tvUsec.toInt - tstart.tvUsec.toInt) < 2 ^ 63

namespace Interval

variable (interval : Interval)

def diff : Word := TIMEDIFF interval.tstart interval.tend

/-- `(double)count * NUMTHREAD / (double)diff` -/
def throughput (count : Word) : Rat := count.toInt * NUMTHREAD / interval.diff.toInt

/-- `throughput2 / throughput1`, the speedup of the task against the base. -/
def speedup (count : Word) (task base : Interval) : Rat := task.throughput count / base.throughput count

def seconds : Int := interval.tend.tvSec.toInt - interval.tstart.tvSec.toInt

def micros : Int := interval.tend.tvUsec.toInt - interval.tstart.tvUsec.toInt

def elapsedNs : Int := 1000 * (interval.seconds * 1000000 + interval.micros)

theorem micros_bounds : -1000000 < interval.micros ∧ interval.micros < 1000000 := by
  have first := interval.tstart.nonneg
  have second := interval.tstart.below
  have third := interval.tend.nonneg
  have fourth := interval.tend.below
  rw [micros]
  omega

theorem seconds_nonneg : 0 ≤ interval.seconds := by
  have ordered := interval.ordered
  rw [seconds]
  omega

/-- Seconds are scaled to nanoseconds, microseconds are not. -/
theorem diff_toInt : interval.diff.toInt = interval.seconds * 1000000000 + interval.micros := by
  have micros := interval.micros_bounds
  have seconds := interval.seconds_nonneg
  have scaled : interval.seconds * 1000000000 < 2 ^ 63 := interval.scaled
  have summed : interval.seconds * 1000000000 + interval.micros < 2 ^ 63 := interval.summed
  have subtracted : (interval.tend.tvSec - interval.tstart.tvSec).toInt = interval.seconds := by
    rw [BitVec.toInt_sub, Int.bmod_eq_of_le] <;> simp only [Interval.seconds] at * <;> omega
  have rest : (interval.tend.tvUsec - interval.tstart.tvUsec).toInt = interval.micros := by
    rw [BitVec.toInt_sub, Int.bmod_eq_of_le] <;> simp only [Interval.micros] at * <;> omega
  have product : ((interval.tend.tvSec - interval.tstart.tvSec) * 1000000000).toInt =
      interval.seconds * 1000000000 := by
    rw [BitVec.toInt_mul, subtracted, show (1000000000 : Word).toInt = 1000000000 from rfl, Int.bmod_eq_of_le] <;>
      omega
  rw [diff, TIMEDIFF, BitVec.toInt_add, product, rest, Int.bmod_eq_of_le] <;> omega

theorem diff_eq_elapsed_iff : interval.diff.toInt = interval.elapsedNs ↔
    interval.tstart.tvUsec = interval.tend.tvUsec := by
  rw [diff_toInt, elapsedNs, ← BitVec.toInt_inj, micros]
  omega

end Interval

/-- What the reports of two measured intervals are taken to say. -/
structure Reported (count : Word) (task base : Interval) : Prop where
  taskExact : task.diff.toInt = task.elapsedNs
  baseExact : base.diff.toInt = base.elapsedNs
  ordered : base.elapsedNs ≤ task.elapsedNs → base.diff.toInt ≤ task.diff.toInt
  speedup : 0 < task.elapsedNs → 0 < base.elapsedNs →
    Interval.speedup count task base = base.elapsedNs / task.elapsedNs

theorem Interval.speedup_eq {count : Word} (some : 0 < count.toInt) {task base : Interval}
    (taskSome : 0 < task.diff.toInt) (baseSome : 0 < base.diff.toInt) :
    speedup count task base = base.diff.toInt / task.diff.toInt := by
  have positive : (0 : Rat) < count.toInt := Int.cast_pos.mpr some
  have task' : (0 : Rat) < task.diff.toInt := Int.cast_pos.mpr taskSome
  have base' : (0 : Rat) < base.diff.toInt := Int.cast_pos.mpr baseSome
  rw [speedup, throughput, throughput, NUMTHREAD]
  field_simp

/-- Two intervals are reported in nanoseconds exactly when neither takes up
any microseconds beside its seconds. -/
theorem reported_iff {count : Word} (some : 0 < count.toInt) (task base : Interval) :
    Reported count task base ↔
      task.tstart.tvUsec = task.tend.tvUsec ∧ base.tstart.tvUsec = base.tend.tvUsec := by
  rw [← task.diff_eq_elapsed_iff, ← base.diff_eq_elapsed_iff]
  apply Iff.intro
  · intro reported
    exact ⟨reported.taskExact, reported.baseExact⟩
  · intro found
    obtain ⟨taskExact, baseExact⟩ := found
    refine ⟨taskExact, baseExact, fun longer => ?_, fun taskSome baseSome => ?_⟩
    · rw [taskExact, baseExact]
      exact longer
    · rw [← taskExact] at taskSome
      rw [← baseExact] at baseSome
      rw [Interval.speedup_eq some taskSome baseSome, taskExact, baseExact]

def twoSeconds : Interval :=
  ⟨⟨5, 700, by decide, by decide⟩, ⟨7, 700, by decide, by decide⟩, by decide, by decide, by decide⟩

def sixSeconds : Interval :=
  ⟨⟨7, 0, by decide, by decide⟩, ⟨13, 0, by decide, by decide⟩, by decide, by decide, by decide⟩

theorem reported_iff_wholeSeconds : Reported 16777216 twoSeconds sixSeconds :=
  (reported_iff (by decide) twoSeconds sixSeconds).mpr ⟨rfl, rfl⟩

/-- Two microseconds across the end of a second. -/
def acrossSecond : Interval :=
  ⟨⟨0, 999999, by decide, by decide⟩, ⟨1, 1, by decide, by decide⟩, by decide, by decide, by decide⟩

/-- Nine tenths of a second within one. -/
def withinSecond : Interval :=
  ⟨⟨0, 0, by decide, by decide⟩, ⟨0, 900000, by decide, by decide⟩, by decide, by decide, by decide⟩

/-- The interval of 2000 ns is reported as 999000002 ns, that of 900000000 ns as 900000 ns. -/
theorem timediff_mixes_units : acrossSecond.elapsedNs = 2000 ∧ acrossSecond.diff.toInt = 999000002 ∧
    withinSecond.elapsedNs = 900000000 ∧ withinSecond.diff.toInt = 900000 ∧
    ¬ Reported 16777216 withinSecond acrossSecond := by
  refine ⟨rfl, rfl, rfl, rfl, fun reported => ?_⟩
  have longer := reported.ordered (by decide)
  exact absurd longer (by decide)

end RwSep.Benchmark
