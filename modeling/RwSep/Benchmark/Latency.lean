import RwSep.Data.Accumulate
import RwSep.Data.Word
import Mathlib.Algebra.Order.BigOperators.Group.List
import Mathlib.Algebra.Order.Ring.Int

namespace RwSep.Benchmark

open RwSep.Data

/-! The statistics of latency_job.c.

`total`, `min` and `max` are not initialised and not reset between the tasks.
Additions of `long`s wrap as the compiled ones do.
-/

def LATENCY_OPS_COUNT : Nat := 1048576

structure LatencyLocals where
  total : Word
  min : Word
  max : Word

/-- What `printf` is given for a task. -/
structure TaskReport where
  average : Word
  stddev : Word
  max : Word
  min : Word
deriving DecidableEq, Repr

def addResult (locals : LatencyLocals) (result : Word) : LatencyLocals where
  total := locals.total + result
  min := if result.slt locals.min then result else locals.min
  max := if locals.max.slt result then result else locals.max

def addDeviation (average stddev result : Word) : Word := stddev + (result - average) * (result - average)

def latencyTask (locals : LatencyLocals) (results : List Word) : TaskReport × LatencyLocals :=
  let locals := results.foldl addResult locals
  let average := locals.total.sdiv (BitVec.ofNat 64 LATENCY_OPS_COUNT)
  let stddev := results.foldl (addDeviation average) 0
  (⟨average, stddev.sdiv (BitVec.ofNat 64 LATENCY_OPS_COUNT), locals.max, locals.min⟩, locals)

/-- The reports of the tasks, by the results of their operations. -/
def latencyJob : LatencyLocals → List (List Word) → List TaskReport
  | _, [] => []
  | locals, results :: rest => (latencyTask locals results).1 :: latencyJob (latencyTask locals results).2 rest

/-! # What a report should say -/

def sumOf (results : List Word) : Int := (results.map BitVec.toInt).sum

/-- The floor of the mean. -/
def meanOf (results : List Word) : Int := sumOf results / LATENCY_OPS_COUNT

def squaresOf (results : List Word) : Int :=
  (results.map fun result => (result.toInt - meanOf results) * (result.toInt - meanOf results)).sum

/-- `%lu` prints a report's values as unsigned numbers. -/
structure Describes (report : TaskReport) (results : List Word) : Prop where
  average : (report.average.toNat : Int) = meanOf results
  stddev : (report.stddev.toNat : Int) = squaresOf results / LATENCY_OPS_COUNT
  max : ∃ largest ∈ results, (∀ result ∈ results, result.toInt ≤ largest.toInt) ∧
    (report.max.toNat : Int) = largest.toInt
  min : ∃ smallest ∈ results, (∀ result ∈ results, smallest.toInt ≤ result.toInt) ∧
    (report.min.toNat : Int) = smallest.toInt

/-- One task's results, with sums in the range of `long`. -/
structure TaskResults (results : List Word) : Prop where
  count : results.length = LATENCY_OPS_COUNT
  sum : -2 ^ 63 ≤ sumOf results ∧ sumOf results < 2 ^ 63
  squares : squaresOf results < 2 ^ 63

/-- The initial locals and the earlier results do not show in the report of a task. -/
structure Undisturbed (locals : LatencyLocals) (earlier results : List Word) : Prop where
  nonneg : ∀ result ∈ results, 0 ≤ result.toInt
  total : ((locals.total.toInt + sumOf earlier + sumOf results).bmod (2 ^ 64)).tdiv LATENCY_OPS_COUNT = meanOf results
  max : ∃ result ∈ results, locals.max.toInt ≤ result.toInt ∧ ∀ other ∈ earlier, other.toInt ≤ result.toInt
  min : ∃ result ∈ results, result.toInt ≤ locals.min.toInt ∧ ∀ other ∈ earlier, result.toInt ≤ other.toInt

/-- The largest result has the least negated value. -/
def negated (result : Word) : Int := -result.toInt

section Task

variable {locals : LatencyLocals} {results earlier : List Word} {average stddev : Word}

theorem addResults_total (locals : LatencyLocals) (results : List Word) :
    (results.foldl addResult locals).total = BitVec.ofInt 64 (locals.total.toInt + sumOf results) := by
  have sums : results.foldl (fun total result => total + result) (BitVec.ofInt 64 locals.total.toInt) =
      BitVec.ofInt 64 (locals.total.toInt + sumOf results) := foldl_sum results _ fun _ => BitVec.ofInt_toInt.symm
  rw [← sums, BitVec.ofInt_toInt]
  clear sums
  induction results generalizing locals with
  | nil => rfl
  | cons result rest ih => exact ih (addResult locals result)

theorem addResults_min (locals : LatencyLocals) (results : List Word) :
    (results.foldl addResult locals).min = least BitVec.toInt results locals.min := by
  induction results generalizing locals with
  | nil => rfl
  | cons result rest ih =>
      rw [List.foldl_cons, ih, least, least, List.foldl_cons]
      simp only [addResult, BitVec.slt_iff_toInt_lt]

theorem addResults_max (locals : LatencyLocals) (results : List Word) :
    (results.foldl addResult locals).max = least negated results locals.max := by
  induction results generalizing locals with
  | nil => rfl
  | cons result rest ih =>
      rw [List.foldl_cons, ih, least, least, List.foldl_cons]
      simp only [addResult, negated, BitVec.slt_iff_toInt_lt, Int.neg_lt_neg_iff]

theorem addDeviations (average : Word) (results : List Word) : results.foldl (addDeviation average) 0 =
    BitVec.ofInt 64
      (results.map fun result => (result.toInt - average.toInt) * (result.toInt - average.toInt)).sum := by
  have square (result : Word) : (result - average) * (result - average) =
      BitVec.ofInt 64 ((result.toInt - average.toInt) * (result.toInt - average.toInt)) := by
    rw [BitVec.ofInt_mul, Int.sub_eq_add_neg, BitVec.ofInt_add, BitVec.ofInt_neg, BitVec.ofInt_toInt, BitVec.ofInt_toInt,
      ← BitVec.sub_eq_add_neg]
  have sums := foldl_sum results 0 square
  rw [Int.zero_add] at sums
  exact sums

theorem long_count : (BitVec.ofNat 64 LATENCY_OPS_COUNT).toInt = LATENCY_OPS_COUNT := rfl

/-- A value that is printed as a number of the range of `long` is that number. -/
theorem printed_iff {value : Word} {number : Int} (small : number < 2 ^ 63) :
    (value.toNat : Int) = number ↔ value.toInt = number ∧ 0 ≤ number := by
  have cond := BitVec.toInt_eq_toNat_cond value
  have bound := value.isLt
  split at cond <;> omega

theorem average_toInt (locals : LatencyLocals) (earlier results : List Word) :
    (latencyTask (earlier.foldl addResult locals) results).1.average.toInt =
      ((locals.total.toInt + sumOf earlier + sumOf results).bmod (2 ^ 64)).tdiv LATENCY_OPS_COUNT := by
  have joined : sumOf (earlier ++ results) = sumOf earlier + sumOf results := by
    rw [sumOf, List.map_append, List.sum_append]
    rfl
  simp only [latencyTask]
  rw [BitVec.toInt_sdiv_of_ne_or_ne _ _ (Or.inr (by decide)), long_count, ← List.foldl_append, addResults_total,
    BitVec.toInt_ofInt, joined, Int.add_assoc]

theorem report_min (locals : LatencyLocals) (earlier results : List Word) :
    (latencyTask (earlier.foldl addResult locals) results).1.min =
      least BitVec.toInt results (least BitVec.toInt earlier locals.min) := by
  simp only [latencyTask]
  rw [addResults_min, addResults_min]

theorem report_max (locals : LatencyLocals) (earlier results : List Word) :
    (latencyTask (earlier.foldl addResult locals) results).1.max =
      least negated results (least negated earlier locals.max) := by
  simp only [latencyTask]
  rw [addResults_max, addResults_max]

/-- The minimum is that of the task's results when one of them is no larger than all that was compared before. -/
theorem report_min_iff : (∃ smallest ∈ results, (∀ result ∈ results, smallest.toInt ≤ result.toInt) ∧
      (latencyTask (earlier.foldl addResult locals) results).1.min.toInt = smallest.toInt) ↔
    ∃ result ∈ results, result.toInt ≤ locals.min.toInt ∧ ∀ other ∈ earlier, result.toInt ≤ other.toInt := by
  rw [report_min, least_reached_iff]
  simp only [le_least_iff]

theorem report_max_iff : (∃ largest ∈ results, (∀ result ∈ results, result.toInt ≤ largest.toInt) ∧
      (latencyTask (earlier.foldl addResult locals) results).1.max.toInt = largest.toInt) ↔
    ∃ result ∈ results, locals.max.toInt ≤ result.toInt ∧ ∀ other ∈ earlier, other.toInt ≤ result.toInt := by
  have reached := least_reached_iff negated results (least negated earlier locals.max)
  simp only [le_least_iff] at reached
  simp only [negated, Int.neg_le_neg_iff, Int.neg_inj] at reached
  rw [report_max]
  exact reached

/-- With the right average the squared deviations are right. -/
theorem report_stddev (valid : TaskResults results)
    (right : (latencyTask locals results).1.average.toInt = meanOf results) :
    ((latencyTask locals results).1.stddev.toNat : Int) = squaresOf results / LATENCY_OPS_COUNT := by
  have squares : ∀ square ∈ results.map fun result => (result.toInt - meanOf results) * (result.toInt - meanOf results),
      0 ≤ square := by
    intro square member
    obtain ⟨result, _, rfl⟩ := List.mem_map.mp member
    exact mul_self_nonneg (result.toInt - meanOf results)
  have nonneg : 0 ≤ squaresOf results := List.sum_nonneg squares
  have small := valid.squares
  simp only [latencyTask] at right ⊢
  rw [printed_iff (by rw [LATENCY_OPS_COUNT]; omega), BitVec.toInt_sdiv_of_ne_or_ne _ _ (Or.inr (by decide)), long_count,
    addDeviations, right, BitVec.toInt_ofInt]
  change ((squaresOf results).bmod (2 ^ 64)).tdiv _ = _ ∧ _
  rw [Int.bmod_eq_of_le (by omega) (by omega), Int.tdiv_eq_ediv_of_nonneg nonneg]
  exact ⟨rfl, Int.ediv_nonneg nonneg (by decide)⟩

theorem describes_iff (valid : TaskResults results) :
    Describes (latencyTask (earlier.foldl addResult locals) results).1 results ↔
      Undisturbed locals earlier results := by
  have range := valid.sum
  have meanSmall : meanOf results < 2 ^ 63 := by
    rw [meanOf, LATENCY_OPS_COUNT]
    omega
  have average := average_toInt locals earlier results
  constructor
  · intro describes
    obtain ⟨smallest, inResults, smallest_le, printedMin⟩ := describes.min
    obtain ⟨largest, inResults', le_largest, printedMax⟩ := describes.max
    rw [printed_iff BitVec.toInt_lt] at printedMin printedMax
    have right := ((printed_iff meanSmall).mp describes.average).1
    refine ⟨fun result member => Int.le_trans printedMin.2 (smallest_le result member), average.symm.trans right, ?_, ?_⟩
    · exact report_max_iff.mp ⟨largest, inResults', le_largest, printedMax.1⟩
    · exact report_min_iff.mp ⟨smallest, inResults, smallest_le, printedMin.1⟩
  · intro undisturbed
    have nonneg := undisturbed.nonneg
    have right := average.trans undisturbed.total
    have meanNonneg : 0 ≤ meanOf results := by
      have values : ∀ value ∈ results.map BitVec.toInt, 0 ≤ value := by
        intro value member
        obtain ⟨result, inResults, rfl⟩ := List.mem_map.mp member
        exact nonneg result inResults
      exact Int.ediv_nonneg (List.sum_nonneg values) (by decide)
    refine ⟨(printed_iff meanSmall).mpr ⟨right, meanNonneg⟩, report_stddev valid right, ?_, ?_⟩
    · obtain ⟨largest, inResults, le_largest, same⟩ := report_max_iff.mpr undisturbed.max
      exact ⟨largest, inResults, le_largest, (printed_iff BitVec.toInt_lt).mpr ⟨same, nonneg largest inResults⟩⟩
    · obtain ⟨smallest, inResults, smallest_le, same⟩ := report_min_iff.mpr undisturbed.min
      exact ⟨smallest, inResults, smallest_le, (printed_iff BitVec.toInt_lt).mpr ⟨same, nonneg smallest inResults⟩⟩

theorem latencyJob_task {tasks : List (List Word)} {i : Nat} (bound : i < tasks.length) :
    (latencyJob locals tasks)[i]? =
      some (latencyTask ((tasks.take i).flatten.foldl addResult locals) tasks[i]).1 := by
  induction tasks generalizing locals i with
  | nil => exact absurd bound (Nat.not_lt_zero i)
  | cons results rest ih =>
      cases i with
      | zero => rfl
      | succ i =>
          have below : i < rest.length := Nat.lt_of_succ_lt_succ bound
          rw [latencyJob, List.getElem?_cons_succ, ih below, List.take_succ_cons, List.flatten_cons, List.foldl_append,
            List.getElem_cons_succ]
          rfl

end Task

/-- Every task's report describes its own results exactly when no task's is disturbed by what the locals held before:
garbage at first, then the results of the earlier tasks. -/
theorem latencyJob_describes_iff (locals : LatencyLocals) {tasks : List (List Word)}
    (valid : ∀ results ∈ tasks, TaskResults results) :
    (∀ i (bound : i < tasks.length), ∃ report, (latencyJob locals tasks)[i]? = some report ∧
        Describes report tasks[i]) ↔
      ∀ i (bound : i < tasks.length), Undisturbed locals (tasks.take i).flatten tasks[i] := by
  apply forall_congr'
  intro i
  apply forall_congr'
  intro bound
  rw [latencyJob_task bound, ← describes_iff (valid _ (List.getElem_mem bound))]
  constructor
  · intro found
    obtain ⟨report, same, describes⟩ := found
    rw [Option.some.inj same]
    exact describes
  · intro describes
    exact ⟨_, rfl, describes⟩

/-- Operations that all take five ticks. -/
@[irreducible] def steady : List Word := List.replicate LATENCY_OPS_COUNT 5

theorem steady_mem {result : Word} (member : result ∈ steady) : result = 5 := by
  rw [steady] at member
  exact List.eq_of_mem_replicate member

theorem steady_results : TaskResults steady := by
  have sum : sumOf steady = LATENCY_OPS_COUNT * 5 := by
    rw [sumOf, steady, List.map_replicate, List.sum_replicate, nsmul_eq_mul]
    rfl
  have mean : meanOf steady = 5 := by
    rw [meanOf, sum]
    rfl
  have squares : squaresOf steady = 0 := by
    rw [squaresOf, mean, steady, List.map_replicate, List.sum_replicate]
    rfl
  refine ⟨?_, ?_, ?_⟩
  · rw [steady, List.length_replicate]
  · rw [sum]
    decide
  · rw [squares]
    decide

theorem latencyJob_describes_iff_steady : (∀ i (bound : i < [steady].length), ∃ report,
      (latencyJob ⟨0, 9, 0⟩ [steady])[i]? = some report ∧ Describes report [steady][i]) ↔
    ∀ i (bound : i < [steady].length), Undisturbed ⟨0, 9, 0⟩ ([steady].take i).flatten [steady][i] :=
  latencyJob_describes_iff ⟨0, 9, 0⟩ fun _ member => by
    rw [List.mem_singleton.mp member]
    exact steady_results

/-- From locals that hold zeros the minimum is reported as zero. -/
theorem latencyJob_min_garbage : ∃ report, latencyJob ⟨0, 0, 0⟩ [steady] = [report] ∧ report.min = 0 ∧
    ¬ Describes report steady := by
  have minimum := report_min ⟨0, 0, 0⟩ [] steady
  have zero : (latencyTask ⟨0, 0, 0⟩ steady).1.min = 0 := by
    have below := (least_le BitVec.toInt steady 0).1
    rcases least_mem BitVec.toInt steady 0 with same | member
    · exact minimum.trans same
    · rw [steady_mem member] at below
      contradiction
  refine ⟨(latencyTask ⟨0, 0, 0⟩ steady).1, by rw [latencyJob, latencyJob], zero, fun describes => ?_⟩
  obtain ⟨smallest, member, _, printed⟩ := describes.min
  rw [zero, steady_mem member] at printed
  contradiction

end RwSep.Benchmark
