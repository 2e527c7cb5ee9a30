import RwSep.Benchmark.Latency
import RwSep.Latency.Call

namespace RwSep.Latency

open RwSep.Data RwSep.Execution
open RwSep.X86 (Reg Memory lineOf storeBytes)
open RwSep.Benchmark (LATENCY_OPS_COUNT LatencyLocals sumOf)

/-! The measurements of latency_job.c.

For each task the function is called on one block of the buffer after the
other.  The code between two calls does not show here: it stores to `rbuf` and
to locals only, and a call depends on no register.
-/

/-- The number in latency_job.c.  With `AEP_SUPPORTED` common.h has six tasks more. -/
def BASIC_OPS_TASK_COUNT : Nat := 25

/-- The loop over `j`: the values of `result`, and what the calls have done together. -/
def latencyOps (counter : Counter) (func : Word → List Instr) (skip : Nat) :
    Nat → Word → Core → Memory → List Word × Action Core Word Byte Event
  | 0, _, core, _ => ([], .idle core)
  | count + 1, buf, core, memory =>
      let done := run counter (func buf) core memory
      let (results, rest) :=
        latencyOps counter func skip count (buf + BitVec.ofNat 64 skip) done.own (overwrite memory done.writes)
      ((done.own.t2 - done.own.t1) :: results, done.followed rest)

/-- The loop over `i`, with `count` operations for each task. -/
def latencyTasks (counter : Counter) (count : Nat) (m : Word) :
    List ((Word → List Instr) × Nat) → Core → Memory → List (List Word) × Action Core Word Byte Event
  | [], core, _ => ([], .idle core)
  | (func, skip) :: rest, core, memory =>
      let (results, done) := latencyOps counter func skip count m core memory
      let (others, later) := latencyTasks counter count m rest done.own (overwrite memory done.writes)
      (results :: others, done.followed later)

def jobTasks (aepSupported : Bool) : List ((Word → List Instr) × Nat) :=
  ((benchFunc aepSupported).zip (latencyTasksSkip aepSupported)).take BASIC_OPS_TASK_COUNT

/-- The values that latency_job goes on to report on, and what its calls have done together. -/
def latencyMeasurements (counter : Counter) (aepSupported : Bool) (m : Word) (core : Core) (memory : Memory) :
    List (List Word) × Action Core Word Byte Event :=
  latencyTasks counter LATENCY_OPS_COUNT m (jobTasks aepSupported) core memory

/-! # One task -/

section Task

variable {counter : Counter} {func : Word → List Instr} {writes : Word → Word → Word → Option Byte}
variable {events : Word → Word → Word → List Event} {core : Core} {memory : Memory} {buf byte : Word}
variable {skip count op first : Nat}

/-- `buf` of the operation. -/
def blockAt (buf : Word) (skip op : Nat) : Word := buf + BitVec.ofNat 64 (skip * op)

/-- The time stamps that the operation takes, when `first` have been taken before the task. -/
def startStamp (counter : Counter) (first op : Nat) : Word := counter.stamp (first + 2 * op)

def stopStamp (counter : Counter) (first op : Nat) : Word := counter.stamp (first + 2 * op + 1)

theorem blockAt_succ (buf : Word) (skip op : Nat) : blockAt (buf + BitVec.ofNat 64 skip) skip op = blockAt buf skip (op + 1) := by
  rw [blockAt, blockAt, BitVec.add_assoc, ← BitVec.ofNat_add, Nat.mul_succ, Nat.add_comm skip]

theorem startStamp_succ (counter : Counter) (first op : Nat) :
    startStamp counter (first + 2) op = startStamp counter first (op + 1) := by
  rw [startStamp, startStamp, Nat.mul_succ, Nat.add_assoc, Nat.add_comm 2]

theorem stopStamp_succ (counter : Counter) (first op : Nat) :
    stopStamp counter (first + 2) op = stopStamp counter first (op + 1) := by
  rw [stopStamp, stopStamp, Nat.mul_succ, Nat.add_assoc first 2, Nat.add_comm 2]

/-- What the operations of a task do together. -/
structure Ops (counter : Counter) (writes : Word → Word → Word → Option Byte) (events : Word → Word → Word → List Event)
    (skip count : Nat) (buf : Word) (first : Nat) (results : List Word) (done : Action Core Word Byte Event) : Prop where
  stamps : done.own.stamps = first + 2 * count
  results : results = (List.range count).map fun op => stopStamp counter first op - startStamp counter first op
  events : done.events = (List.range count).flatMap fun op =>
    events (blockAt buf skip op) (startStamp counter first op) (stopStamp counter first op)
  unwritten : ∀ byte, (∀ op < count, writes (blockAt buf skip op) (startStamp counter first op) byte = none) →
    done.writes byte = none
  single : ∀ byte, ∀ op < count, (∀ other < count, other ≠ op →
      writes (blockAt buf skip other) (startStamp counter first other) byte = none) →
    done.writes byte = writes (blockAt buf skip op) (startStamp counter first op) byte

theorem latencyOps_ops (calls : Calls func writes events) (counter : Counter) (skip count : Nat) (buf : Word) (core : Core)
    (memory : Memory) : Ops counter writes events skip count buf core.stamps
      (latencyOps counter func skip count buf core memory).1 (latencyOps counter func skip count buf core memory).2 := by
  induction count generalizing buf core memory with
  | zero => exact ⟨rfl, rfl, rfl, fun _ _ => rfl, fun _ op bound => absurd bound (Nat.not_lt_zero op)⟩
  | succ count ih =>
      obtain ⟨after, ran, stamps, t1, t2⟩ := calls.call counter buf core memory
      have rest := ih (buf + BitVec.ofNat 64 skip) after (overwrite memory (writes buf (counter.stamp core.stamps)))
      rw [stamps] at rest
      simp only [latencyOps, ran]
      have block : blockAt buf skip 0 = buf := by simp [blockAt]
      have results := rest.results
      have recorded := rest.events
      have unwritten := rest.unwritten
      have single := rest.single
      simp only [blockAt_succ, startStamp_succ, stopStamp_succ] at results recorded unwritten single
      refine ⟨?_, ?_, ?_, fun byte quiet => ?_, fun byte op bound alone => ?_⟩
      · rw [Nat.mul_succ, Nat.add_comm (2 * count), ← Nat.add_assoc]
        exact rest.stamps
      · rw [List.range_succ_eq_map, List.map_cons, List.map_map, t1, t2, results]
        rfl
      · rw [List.range_succ_eq_map, List.flatMap_cons, List.flatMap_map, Action.followed, recorded, block]
        rfl
      · have here := quiet 0 (Nat.succ_pos count)
        rw [block] at here
        exact Option.or_eq_none_iff.mpr
          ⟨unwritten byte fun op bound => quiet (op + 1) (Nat.succ_lt_succ bound), here⟩
      · cases op with
        | zero =>
            have behind := unwritten byte fun other bound => alone (other + 1) (Nat.succ_lt_succ bound) (Nat.succ_ne_zero other)
            rw [Action.followed_writes, behind, Option.none_or, block]
            rfl
        | succ op =>
            have here := alone 0 (Nat.succ_pos count) (Ne.symm (Nat.succ_ne_zero op))
            rw [block] at here
            rw [Action.followed_writes]
            change Option.or _ (writes buf (startStamp counter core.stamps 0) byte) = _
            rw [here, Option.or_none]
            exact single byte op (Nat.lt_of_succ_lt_succ bound) fun other bound different =>
              alone (other + 1) (Nat.succ_lt_succ bound) fun same => different (Nat.succ.inj same)

end Task

/-! # The tasks of the table -/

/-- A family with a number of lines, or the baseline. -/
abbrev Task := Option (Family × Nat)

namespace Task

def func : Task → Word → List Instr
  | some (family, lines) => family.code lines
  | none => baseline

def skip : Task → Nat
  | some (_, lines) => 64 * lines
  | none => 0

def writes : Task → Word → Word → Word → Option Byte
  | some (family, lines) => family.writes lines
  | none => fun _ _ _ => none

def events : Task → Word → Word → Word → List Event
  | some (family, lines) => family.events lines
  | none => fun _ start stop => [.rdtscp start, .mfence, .rdtscp stop]

/-- At most the four lines that `LOAD_CACHE_LINE` and `FLUSH_CACHE_LINE` touch. -/
def Short : Task → Prop
  | some (_, lines) => 1 ≤ lines ∧ lines ≤ 4
  | none => True

instance (task : Task) : Decidable task.Short :=
  match task with
  | some (_, lines) => inferInstanceAs (Decidable (1 ≤ lines ∧ lines ≤ 4))
  | none => isTrue trivial

theorem calls {task : Task} (short : task.Short) : Calls task.func task.writes task.events := by
  cases task with
  | none => exact baseline_calls
  | some entry =>
      obtain ⟨family, lines⟩ := entry
      have fits : 64 * lines ≤ 2 ^ 64 := by
        have := short.2
        omega
      exact family.calls fits

end Task

def measuredTasks (aepSupported : Bool) : List Task :=
  ((tasks aepSupported).map some ++ [none]).take BASIC_OPS_TASK_COUNT

theorem jobTasks_measured (aepSupported : Bool) :
    jobTasks aepSupported = (measuredTasks aepSupported).map fun task => (task.func, task.skip) := by
  cases aepSupported <;> rfl

theorem measuredTasks_length (aepSupported : Bool) : (measuredTasks aepSupported).length = BASIC_OPS_TASK_COUNT := by
  cases aepSupported <;> rfl

theorem measuredTasks_short (aepSupported : Bool) : ∀ task ∈ measuredTasks aepSupported, task.Short := by
  cases aepSupported <;> decide

section Tasks

variable {counter : Counter} {core : Core} {memory : Memory} {m byte : Word} {task : Task} {earlier later all : List Task}

/-- The tasks one after the other, from any state. -/
def runTasks (counter : Counter) (count : Nat) (m : Word) (all : List Task) (core : Core) (memory : Memory) :
    List (List Word) × Action Core Word Byte Event :=
  latencyTasks counter count m (all.map fun task => (task.func, task.skip)) core memory

def runTask (counter : Counter) (count : Nat) (m : Word) (task : Task) (core : Core) (memory : Memory) :
    List Word × Action Core Word Byte Event :=
  latencyOps counter task.func task.skip count m core memory

variable (counter : Counter) (count : Nat) (m : Word) (core : Core) (memory : Memory)

theorem runTasks_cons (task : Task) (later : List Task) : runTasks counter count m (task :: later) core memory =
    let done := runTask counter count m task core memory
    let rest := runTasks counter count m later done.2.own (overwrite memory done.2.writes)
    (done.1 :: rest.1, done.2.followed rest.2) := rfl

theorem runTask_ops (short : task.Short) :
    Ops counter task.writes task.events task.skip count m core.stamps (runTask counter count m task core memory).1
      (runTask counter count m task core memory).2 :=
  latencyOps_ops (Task.calls short) counter task.skip count m core memory

theorem runTasks_stamps (short : ∀ task ∈ all, task.Short) :
    (runTasks counter count m all core memory).2.own.stamps = core.stamps + 2 * (count * all.length) := by
  induction all generalizing core memory with
  | nil => rfl
  | cons task later ih =>
      have ops := runTask_ops counter count m core memory (short task List.mem_cons_self)
      rw [runTasks_cons]
      simp only [Action.followed]
      rw [ih _ _ fun task member => short task (List.mem_cons_of_mem _ member), ops.stamps, List.length_cons, Nat.mul_succ]
      omega

/-- What is measured for the operation, counted through all tasks. -/
def ticks (counter : Counter) (first op : Nat) : Word := stopStamp counter first op - startStamp counter first op

theorem runTasks_results (short : ∀ task ∈ all, task.Short) :
    (runTasks counter count m all core memory).1 = (List.range all.length).map fun i =>
      (List.range count).map fun op => ticks counter core.stamps (count * i + op) := by
  induction all generalizing core memory with
  | nil => rfl
  | cons task later ih =>
      have ops := runTask_ops counter count m core memory (short task List.mem_cons_self)
      have shifted (i op : Nat) : ticks counter (core.stamps + 2 * count) (count * i + op) =
          ticks counter core.stamps (count * (i + 1) + op) := by
        have place : core.stamps + 2 * count + 2 * (count * i + op) = core.stamps + 2 * (count * (i + 1) + op) := by
          rw [Nat.mul_succ]
          omega
        simp only [ticks, startStamp, stopStamp, place]
      rw [runTasks_cons]
      simp only
      rw [ih _ _ fun task member => short task (List.mem_cons_of_mem _ member), ops.stamps, ops.results, List.length_cons,
        List.range_succ_eq_map, List.map_cons, List.map_map]
      simp only [shifted, Function.comp_def, Nat.mul_zero, Nat.zero_add]
      rfl

theorem runTasks_append (earlier later : List Task) :
    (runTasks counter count m (earlier ++ later) core memory).2 =
      let done := (runTasks counter count m earlier core memory).2
      done.followed (runTasks counter count m later done.own (overwrite memory done.writes)).2 := by
  induction earlier generalizing core memory with
  | nil => exact (Action.idle_followed core _).symm
  | cons task rest ih =>
      rw [List.cons_append, runTasks_cons]
      simp only
      rw [ih, runTasks_cons]
      simp only [Action.followed_assoc, overwrite_followed]
      rfl

end Tasks

section Calls

variable {counter : Counter} {count lines op : Nat} {m : Word} {core : Core} {memory : Memory} {all : List Task}
variable {family : Family}

/-- Every call is somewhere in what the tasks do. -/
theorem runTasks_call (short : ∀ task ∈ all, task.Short) (member : some (family, lines) ∈ all) (bound : op < count) :
    ∃ before start stop after, (runTasks counter count m all core memory).2.events =
      before ++ family.events lines (blockAt m (64 * lines) op) start stop ++ after := by
  obtain ⟨earlier, later, rfl⟩ := List.append_of_mem member
  obtain ⟨front, behind, range⟩ := List.append_of_mem (List.mem_range.mpr bound)
  have shape (first second call third fourth : List Event) :
      first ++ ((second ++ (call ++ third)) ++ fourth) = first ++ second ++ call ++ (third ++ fourth) := by simp
  have ops := runTask_ops counter count m (runTasks counter count m earlier core memory).2.own
    (overwrite memory (runTasks counter count m earlier core memory).2.writes) (short _ member)
  rw [runTasks_append]
  simp only [runTasks_cons, Action.followed]
  rw [ops.events, range, List.flatMap_append, List.flatMap_cons]
  exact ⟨_, _, _, _, shape ..⟩

end Calls

theorem latencyMeasurements_runTasks (counter : Counter) (aepSupported : Bool) (m : Word) (core : Core) (memory : Memory) :
    latencyMeasurements counter aepSupported m core memory =
      runTasks counter LATENCY_OPS_COUNT m (measuredTasks aepSupported) core memory := by
  rw [latencyMeasurements, jobTasks_measured, runTasks]

/-! # Reports -/

/-- The counter does not run backwards. -/
def Rising (counter : Counter) : Prop := ∀ n, (counter.stamp n).toInt ≤ (counter.stamp (n + 1)).toInt

section Reports

variable {counter : Counter} {first count n : Nat}

theorem Rising.le (rising : Rising counter) {n later : Nat} (ordered : n ≤ later) :
    (counter.stamp n).toInt ≤ (counter.stamp later).toInt := by
  induction later, ordered using Nat.le_induction with
  | base => exact Int.le_refl _
  | succ later _ ih => exact Int.le_trans ih (rising later)

theorem ticks_elapsed (rising : Rising counter) (started : 0 ≤ (counter.stamp first).toInt) (op : Nat) :
    (ticks counter first op).toInt = (stopStamp counter first op).toInt - (startStamp counter first op).toInt ∧
      0 ≤ (ticks counter first op).toInt := by
  have start : 0 ≤ (startStamp counter first op).toInt :=
    Int.le_trans started (rising.le (Nat.le_add_right first (2 * op)))
  have forward : (startStamp counter first op).toInt ≤ (stopStamp counter first op).toInt := rising _
  have short := BitVec.toInt_lt (x := stopStamp counter first op)
  have same : (ticks counter first op).toInt =
      (stopStamp counter first op).toInt - (startStamp counter first op).toInt := by
    rw [ticks, BitVec.toInt_sub, Int.bmod_eq_of_le (by omega) (by omega)]
  exact ⟨same, by omega⟩

/-- All that is measured is part of the time that passes. -/
theorem ticks_sum (rising : Rising counter) (started : 0 ≤ (counter.stamp first).toInt) (count : Nat) :
    sumOf ((List.range count).map (ticks counter first)) ≤
      (counter.stamp (first + 2 * count)).toInt - (counter.stamp first).toInt ∧
    0 ≤ sumOf ((List.range count).map (ticks counter first)) := by
  induction count with
  | zero => simp [sumOf]
  | succ count ih =>
      obtain ⟨same, nonneg⟩ := ticks_elapsed rising started count
      have next := rising (first + 2 * count + 1)
      have concat : sumOf ((List.range (count + 1)).map (ticks counter first)) =
          sumOf ((List.range count).map (ticks counter first)) + (ticks counter first count).toInt := by
        simp [sumOf, List.range_succ]
      have start : (startStamp counter first count).toInt = (counter.stamp (first + 2 * count)).toInt := rfl
      have stop : (stopStamp counter first count).toInt = (counter.stamp (first + 2 * count + 1)).toInt := rfl
      have last : first + 2 * (count + 1) = first + 2 * count + 1 + 1 := by omega
      rw [concat, last]
      omega

theorem flatten_blocks {α : Type} (f : Nat → α) (size blocks : Nat) :
    ((List.range blocks).map fun block => (List.range size).map fun i => f (size * block + i)).flatten =
      (List.range (size * blocks)).map f := by
  induction blocks with
  | zero => rfl
  | succ blocks ih =>
      rw [List.range_succ, List.map_append, List.flatten_append, ih, Nat.mul_succ, List.range_add, List.map_append]
      simp [Function.comp_def]

theorem sum_blocks (f : Nat → Word) (size blocks : Nat) :
    sumOf ((List.range blocks).map fun block => (List.range size).map fun i => f (size * block + i)).flatten +
      sumOf ((List.range size).map fun i => f (size * blocks + i)) = sumOf ((List.range (size * (blocks + 1))).map f) := by
  rw [flatten_blocks, Nat.mul_succ, List.range_add, List.map_append]
  simp [sumOf, Function.comp_def]

/-- The average of a report is over all that has been measured so far: `total` is set nowhere, not for each task either. -/
theorem report_average (counter : Counter) (first : Nat) (locals : LatencyLocals) {tasks i : Nat} (bound : i < tasks) :
    let results := (List.range tasks).map fun task =>
      (List.range LATENCY_OPS_COUNT).map fun op => ticks counter first (LATENCY_OPS_COUNT * task + op)
    ∃ report, (Benchmark.latencyJob locals results)[i]? = some report ∧ report.average.toInt =
      ((locals.total.toInt + sumOf ((List.range (LATENCY_OPS_COUNT * (i + 1))).map (ticks counter first))).bmod
        (2 ^ 64)).tdiv LATENCY_OPS_COUNT := by
  intro results
  have inside : i < results.length := by simpa [results] using bound
  have before : results.take i = (List.range i).map fun task =>
      (List.range LATENCY_OPS_COUNT).map fun op => ticks counter first (LATENCY_OPS_COUNT * task + op) := by
    rw [← List.map_take, List.take_range, Nat.min_eq_left (Nat.le_of_lt bound)]
  have here : results[i] =
      (List.range LATENCY_OPS_COUNT).map fun op => ticks counter first (LATENCY_OPS_COUNT * i + op) := by
    simp only [results, List.getElem_map, List.getElem_range]
  have all : sumOf (results.take i).flatten + sumOf results[i] =
      sumOf ((List.range (LATENCY_OPS_COUNT * (i + 1))).map (ticks counter first)) := by
    rw [before, here]
    exact sum_blocks (ticks counter first) LATENCY_OPS_COUNT i
  refine ⟨_, Benchmark.latencyJob_task inside, ?_⟩
  rw [Benchmark.average_toInt, Int.add_assoc, all]

/-- From zero the average is exact, and part of the time that has passed. -/
theorem average_elapsed (rising : Rising counter) (started : 0 ≤ (counter.stamp first).toInt) {total : Word}
    (zero : total = 0) :
    let measured := sumOf ((List.range count).map (ticks counter first))
    let average := ((total.toInt + measured).bmod (2 ^ 64)).tdiv LATENCY_OPS_COUNT
    average = measured / LATENCY_OPS_COUNT ∧
      average * LATENCY_OPS_COUNT ≤ (counter.stamp (first + 2 * count)).toInt - (counter.stamp first).toInt := by
  intro measured average
  have start : total.toInt = 0 := by
    rw [zero]
    rfl
  obtain ⟨elapsed, nonneg⟩ := ticks_sum rising started count
  have short := BitVec.toInt_lt (x := counter.stamp (first + 2 * count))
  have exact : average = measured / LATENCY_OPS_COUNT := by
    simp only [average, measured]
    rw [start, Int.zero_add, Int.bmod_eq_of_le (by omega) (by omega), Int.tdiv_eq_ediv_of_nonneg nonneg]
  rw [exact]
  exact ⟨rfl, Int.le_trans (Int.ediv_mul_le _ (by decide)) elapsed⟩

/-- Every result is the time between the two stamps of its call, and report `i` averages the calls of tasks 0 to `i`,
over the number of one task's calls and with whatever `total` has been before. -/
theorem latencyMeasurements_reports (aepSupported : Bool) (m : Word) (core : Core) (memory : Memory)
    (locals : LatencyLocals) (rising : Rising counter) (started : 0 ≤ (counter.stamp core.stamps).toInt) :
    let results := (latencyMeasurements counter aepSupported m core memory).1
    (∀ i < BASIC_OPS_TASK_COUNT, ∃ task, results[i]? = some task ∧ ∀ op < LATENCY_OPS_COUNT,
      ∃ result, task[op]? = some result ∧ 0 ≤ result.toInt ∧ result.toInt =
        (stopStamp counter core.stamps (LATENCY_OPS_COUNT * i + op)).toInt -
          (startStamp counter core.stamps (LATENCY_OPS_COUNT * i + op)).toInt) ∧
    ∀ i < BASIC_OPS_TASK_COUNT, ∃ report, (Benchmark.latencyJob locals results)[i]? = some report ∧
      let measured := sumOf ((List.range (LATENCY_OPS_COUNT * (i + 1))).map (ticks counter core.stamps))
      report.average.toInt = ((locals.total.toInt + measured).bmod (2 ^ 64)).tdiv LATENCY_OPS_COUNT ∧
      (locals.total = 0 → report.average.toInt = measured / LATENCY_OPS_COUNT ∧ report.average.toInt * LATENCY_OPS_COUNT ≤
        (counter.stamp (core.stamps + 2 * (LATENCY_OPS_COUNT * (i + 1)))).toInt - (counter.stamp core.stamps).toInt) := by
  intro results
  have same : results = (List.range BASIC_OPS_TASK_COUNT).map fun i =>
      (List.range LATENCY_OPS_COUNT).map fun op => ticks counter core.stamps (LATENCY_OPS_COUNT * i + op) := by
    have ran := runTasks_results counter LATENCY_OPS_COUNT m core memory (measuredTasks_short aepSupported)
    rw [measuredTasks_length] at ran
    rw [← ran, ← latencyMeasurements_runTasks]
  apply And.intro
  · intro i bound
    refine ⟨(List.range LATENCY_OPS_COUNT).map fun op => ticks counter core.stamps (LATENCY_OPS_COUNT * i + op), ?_, ?_⟩
    · rw [same, List.getElem?_map, List.getElem?_range bound, Option.map_some]
    · intro op below
      obtain ⟨elapsed, nonneg⟩ := ticks_elapsed rising started (LATENCY_OPS_COUNT * i + op)
      exact ⟨_, by rw [List.getElem?_map, List.getElem?_range below, Option.map_some], nonneg, elapsed⟩
  · intro i bound
    obtain ⟨report, found, average⟩ := report_average counter core.stamps locals bound
    refine ⟨report, same ▸ found, average, fun zero => ?_⟩
    rw [average]
    exact average_elapsed rising started zero

/-- A counter that stops at 2^62. -/
def stoppingCounter : Counter := ⟨fun n => BitVec.ofNat 64 (min n (2 ^ 62)), fun _ => 0⟩

theorem stoppingCounter_rising : Rising stoppingCounter := by
  intro n
  have value (n : Nat) : (stoppingCounter.stamp n).toInt = (min n (2 ^ 62) : Nat) := by
    have small : min n (2 ^ 62) ≤ 2 ^ 62 := Nat.min_le_right ..
    rw [stoppingCounter, BitVec.toInt_ofNat', Int.bmod_eq_of_le (by omega) (by omega)]
  rw [value, value]
  omega

theorem latencyMeasurements_reports_stopping :
    let results := (latencyMeasurements stoppingCounter false 0x10000 ⟨fun _ => 0, fun _ _ => 0, 3, 0, 0⟩ fun _ => 7).1
    ∃ report, (Benchmark.latencyJob ⟨0, 5, 7⟩ results)[24]? = some report ∧
      report.average.toInt = sumOf ((List.range (LATENCY_OPS_COUNT * 25)).map (ticks stoppingCounter 3)) / LATENCY_OPS_COUNT := by
  intro results
  have started : 0 ≤ (stoppingCounter.stamp 3).toInt := by decide
  obtain ⟨report, found, _, exact⟩ := (latencyMeasurements_reports false 0x10000 ⟨fun _ => 0, fun _ _ => 0, 3, 0, 0⟩
    (fun _ => 7) ⟨0, 5, 7⟩ stoppingCounter_rising started).2 24 (by decide)
  exact ⟨report, found, (exact rfl).1⟩

end Reports

end RwSep.Latency
