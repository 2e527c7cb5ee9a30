import RwSep.Benchmark.RwPhases
import RwSep.Benchmark.Timing
import RwSep.Execution.ForInt

namespace RwSep.Benchmark

open RwSep.Data RwSep.Execution RwSep.X86

/-! The program of fastallocate/rw_sep.cpp: mixed against separated reads and writes.

`int` arithmetic stops where the language leaves it undefined.  The fences
between the phases order the accesses and do nothing else; they are left out.
-/

inductive SweepFault where
  | outOfBounds (index : Nat)
  | intOverflow
deriving DecidableEq, Repr

/-- `atoi(argv[1])` and `atoi(argv[2])`, where they are given. -/
structure Arguments where
  argv1 : Option (BitVec 32)
  argv2 : Option (BitVec 32)

/-- The four times that one turn of the measurement reads. -/
structure Reading where
  start : Timeval
  stop : Timeval
  start2 : Timeval
  stop2 : Timeval

/-- The objects that `concurrency_fast_alloc` returns, and the clock. -/
structure SweepWorld where
  alloc : Nat → Word
  clock : Nat → Nat → Reading

def checkedInt (value : Int) : Except SweepFault Int :=
  if -2 ^ 31 ≤ value ∧ value < 2 ^ 31 then .ok value else .error .intOverflow

/-- `(sep_grn - 1) * 4 + 1` -/
def timesOf (sepGrn : Int) : Except SweepFault Int := do
  let less ← checkedInt (sepGrn - 1)
  let scaled ← checkedInt (less * 4)
  checkedInt (scaled + 1)

def defaultSepGrn : Int := 513

def defaultTestLoop : Int := 10000

def nRw : Nat := 100000

def Arguments.sepGrn (arguments : Arguments) : Int := (arguments.argv1.map BitVec.toInt).getD defaultSepGrn

def Arguments.testLoop (arguments : Arguments) : Int := (arguments.argv2.map BitVec.toInt).getD defaultTestLoop

/-- `a[index]` -/
def objectAt (a : List Word) (index : Nat) : Except SweepFault Word :=
  match a[index]? with
  | some object => .ok object
  | none => .error (.outOfBounds index)

/-- `p->data[j] = j` for all `j`. -/
def initObject (heap : Heap) (p : Word) : Heap :=
  (List.range 8).foldl (fun heap j => heap.store (dataAt p j) 8 (Word.byte (BitVec.ofNat 64 j))) heap

def readAt (a : List Word) (index : Nat) (heap : Heap) : Except SweepFault Heap := do
  let p ← objectAt a index
  return readData heap p

def streamAt (a : List Word) (index : Nat) (heap : Heap) : Except SweepFault Heap := do
  let p ← objectAt a index
  return streamData heap p

def mixAt (a : List Word) (j : Nat) (heap : Heap) : Except SweepFault Heap := do
  let heap ← readAt a (4 * (j + 0)) heap
  streamAt a (4 * j) heap

/-- `wrMix` within the array. -/
def boundedMix (a : List Word) (sepGrn : Nat) (heap : Heap) : Except SweepFault Heap :=
  forInt .intOverflow (fun _ => forInt .intOverflow (mixAt a) sepGrn 0) (nRw / sepGrn) 0 heap

def readPair (a : List Word) (j : Nat) (heap : Heap) : Except SweepFault Heap := do
  let heap ← readAt a (4 * j) heap
  readAt a (4 * (j + 1)) heap

def streamPair (a : List Word) (j : Nat) (heap : Heap) : Except SweepFault Heap := do
  let heap ← streamAt a (4 * j) heap
  streamAt a (4 * (j + 1)) heap

/-- `for (int j = 0; j < sep_grn; j+=2)`, by half the index. -/
def forPairs (sepGrn : Nat) (body : Nat → Heap → Except SweepFault Heap) (heap : Heap) : Except SweepFault Heap :=
  forInt .intOverflow (fun half => body (2 * half)) ((sepGrn + 1) / 2) 0 heap

def boundedSepTurn (a : List Word) (sepGrn : Nat) (heap : Heap) : Except SweepFault Heap := do
  let heap ← forPairs sepGrn (readPair a) heap
  forPairs sepGrn (streamPair a) heap

/-- `wrSep` within the array. -/
def boundedSep (a : List Word) (sepGrn : Nat) (heap : Heap) : Except SweepFault Heap :=
  forInt .intOverflow (fun _ => boundedSepTurn a sepGrn) (nRw / sepGrn) 0 heap

/-- `1000000 * (end.tv_sec - start.tv_sec) + end.tv_usec - start.tv_usec` -/
def elapsedUs (start stop : Timeval) : Word := 1000000 * (stop.tvSec - start.tvSec) + stop.tvUsec - start.tvUsec

def Reading.diffs (reading : Reading) : Word × Word :=
  (elapsedUs reading.start reading.stop, elapsedUs reading.start2 reading.stop2)

structure Counters where
  n : Nat
  sumDiff1 : Word
  sumDiff2 : Word
deriving DecidableEq, Repr

/-- `if(diff1 < diff2) n++; sum_diff1 += diff1; sum_diff2 += diff2;` -/
def Counters.add (counters : Counters) (diffs : Word × Word) : Counters where
  n := if diffs.1 < diffs.2 then counters.n + 1 else counters.n
  sumDiff1 := counters.sumDiff1 + diffs.1
  sumDiff2 := counters.sumDiff2 + diffs.2

def testTurn (world : SweepWorld) (a : List Word) (sepGrn t : Nat) (state : Counters × Heap) :
    Except SweepFault (Counters × Heap) := do
  let heap ← boundedMix a sepGrn state.2
  let heap ← boundedSep a sepGrn heap
  return (state.1.add (world.clock sepGrn t).diffs, heap)

structure Line where
  sepGrn : Nat
  counters : Counters
  testLoop : Int
deriving DecidableEq, Repr

def sweepTurn (world : SweepWorld) (a : List Word) (testLoop : Int) (state : List Line × Heap) (sepGrn : Nat) :
    Except SweepFault (List Line × Heap) := do
  let (counters, heap) ← forInt .intOverflow (testTurn world a sepGrn) testLoop.toNat 0 (⟨0, 0, 0⟩, state.2)
  return (state.1 ++ [⟨sepGrn, counters, testLoop⟩], heap)

/-- `for(sep_grn = 16; sep_grn < 1024; sep_grn *= 2)` -/
def sepGrns : List Nat := [16, 32, 64, 128, 256, 512]

/-- What `main` writes to the file, and the memory it leaves. -/
def main (arguments : Arguments) (world : SweepWorld) (heap : Heap) : Except SweepFault (List Line × Heap) := do
  let times ← timesOf arguments.sepGrn
  -- `malloc(8 * times)`
  let _ ← checkedInt (8 * times)
  let a := (List.range times.toNat).map world.alloc
  sepGrns.foldlM (sweepTurn world a arguments.testLoop) ([], a.foldl initObject heap)

/-! # Indices -/

section Indices

variable {a : List Word} {index sepGrn j : Nat} {heap after : Heap} {world : SweepWorld} {testLoop value : Int}

theorem checkedInt_ok : (∃ result, checkedInt value = .ok result) ↔ -2 ^ 31 ≤ value ∧ value < 2 ^ 31 := by
  rw [checkedInt]
  split
  · simpa
  · rename_i outside
    simpa using outside

theorem checkedInt_eq {result : Int} (ran : checkedInt value = .ok result) : result = value := by
  rw [checkedInt] at ran
  split at ran
  · cases ran
    rfl
  · contradiction

/-- The number of objects, and the range in which it and the size of their array are `int`s. -/
theorem timesOf_ok {times : Int} (arguments : Arguments) :
    (timesOf arguments.sepGrn = .ok times ∧ ∃ size, checkedInt (8 * times) = .ok size) ↔
      times = (arguments.sepGrn - 1) * 4 + 1 ∧ -67108863 ≤ arguments.sepGrn ∧ arguments.sepGrn ≤ 67108864 := by
  constructor
  · intro returns
    obtain ⟨counted, sized⟩ := returns
    obtain ⟨less, first, counted⟩ := bind_ok.mp counted
    obtain ⟨scaled, second, third⟩ := bind_ok.mp counted
    have value := checkedInt_eq first
    have value' := checkedInt_eq second
    have value'' := checkedInt_eq third
    have range := checkedInt_ok.mp sized
    omega
  · intro condition
    obtain ⟨rfl, lower, upper⟩ := condition
    have inRange {value : Int} (low : -2 ^ 31 ≤ value) (high : value < 2 ^ 31) : checkedInt value = .ok value :=
      if_pos ⟨low, high⟩
    constructor
    · rw [timesOf, inRange (by omega) (by omega)]
      dsimp only [bind, Except.bind]
      rw [inRange (by omega) (by omega)]
      exact inRange (by omega) (by omega)
    · exact ⟨_, inRange (by omega) (by omega)⟩

/-- The array as `wrMix` and `wrSep` see it. -/
def pointers (a : List Word) (index : Nat) : Word := a.getD index 0

theorem objectAt_eq (bound : index < a.length) : objectAt a index = .ok (pointers a index) := by
  rw [objectAt, pointers, List.getD_eq_getElem?_getD, List.getElem?_eq_getElem bound]
  rfl

theorem objectAt_bound {p : Word} (found : objectAt a index = .ok p) : index < a.length := by
  by_contra outside
  rw [objectAt, List.getElem?_eq_none (by omega)] at found
  contradiction

theorem readAt_eq (bound : index < a.length) (heap : Heap) :
    readAt a index heap = .ok (readData heap (pointers a index)) := by
  rw [readAt, objectAt_eq bound]
  rfl

theorem streamAt_eq (bound : index < a.length) (heap : Heap) :
    streamAt a index heap = .ok (streamData heap (pointers a index)) := by
  rw [streamAt, objectAt_eq bound]
  rfl

theorem turns_short (sepGrn : Nat) : nRw / sepGrn < 2 ^ 31 :=
  Nat.lt_of_le_of_lt (Nat.div_le_self nRw sepGrn) (by decide)

theorem boundedMix_eq (short : sepGrn < 2 ^ 31) (reach : ∀ j < sepGrn, 4 * j < a.length) (heap : Heap) :
    boundedMix a sepGrn heap = .ok (wrMix (pointers a) nRw sepGrn heap) := by
  apply forInt_eq_iterate (turns_short sepGrn)
  intro _ _ heap
  apply forInt_eq_foldl short
  intro j bound heap
  rw [mixAt, Nat.add_zero, readAt_eq (reach j bound)]
  exact streamAt_eq (reach j bound) _

/-- The pairs of an even number of objects are all within it. -/
theorem forPairs_eq {body : Nat → Heap → Except SweepFault Heap} {step : Heap → Nat → Heap} (short : sepGrn < 2 ^ 31)
    (even : sepGrn % 2 = 0) (each : ∀ j, j + 1 < sepGrn → ∀ heap, body j heap = .ok (step heap j)) (heap : Heap) :
    forPairs sepGrn body heap = .ok ((everySecond sepGrn).foldl step heap) := by
  have doubled : everySecond sepGrn = (List.range ((sepGrn + 1) / 2)).map (2 * ·) := by
    apply List.ext_getElem
    · rw [everySecond, List.length_range', List.length_map, List.length_range]
    · intro i _ _
      simp only [everySecond, List.getElem_range', List.getElem_map, List.getElem_range, Nat.zero_add]
  rw [doubled, List.foldl_map]
  apply forInt_eq_foldl (by omega)
  intro half bound heap
  exact each (2 * half) (by omega) heap

theorem boundedSep_eq (short : sepGrn < 2 ^ 31) (even : sepGrn % 2 = 0) (reach : ∀ j < sepGrn, 4 * j < a.length)
    (heap : Heap) : boundedSep a sepGrn heap = .ok (wrSep (pointers a) nRw sepGrn heap) := by
  apply forInt_eq_iterate (turns_short sepGrn)
  intro _ _ heap
  have reads : ∀ j, j + 1 < sepGrn → ∀ heap, readPair a j heap =
      .ok (readData (readData heap (pointers a (4 * j))) (pointers a (4 * (j + 1)))) := by
    intro j bound heap
    rw [readPair, readAt_eq (reach j (by omega))]
    exact readAt_eq (reach (j + 1) bound) _
  have streams : ∀ j, j + 1 < sepGrn → ∀ heap, streamPair a j heap =
      .ok (streamData (streamData heap (pointers a (4 * j))) (pointers a (4 * (j + 1)))) := by
    intro j bound heap
    rw [streamPair, streamAt_eq (reach j (by omega))]
    exact streamAt_eq (reach (j + 1) bound) _
  rw [boundedSepTurn, forPairs_eq short even reads]
  exact forPairs_eq short even streams _

/-- Within the array a turn of the measurement runs both phases. -/
theorem testTurn_eq (short : sepGrn < 2 ^ 31) (even : sepGrn % 2 = 0) (reach : ∀ j < sepGrn, 4 * j < a.length)
    (t : Nat) (state : Counters × Heap) : testTurn world a sepGrn t state =
      .ok (state.1.add (world.clock sepGrn t).diffs,
        wrSep (pointers a) nRw sepGrn (wrMix (pointers a) nRw sepGrn state.2)) := by
  rw [testTurn, boundedMix_eq short reach]
  dsimp only [bind, Except.bind]
  rw [boundedSep_eq short even reach]
  rfl

theorem sweepTurn_ok (counted : testLoop < 2 ^ 31) (short : sepGrn < 2 ^ 31) (even : sepGrn % 2 = 0)
    (reach : 0 < testLoop → ∀ j < sepGrn, 4 * j < a.length) (state : List Line × Heap) :
    ∃ after, sweepTurn world a testLoop state sepGrn = .ok after := by
  have turn : ∀ t < testLoop.toNat, ∀ before, ∃ after, testTurn world a sepGrn t before = .ok after := by
    intro t bound before
    exact ⟨_, testTurn_eq short even (reach (by omega)) t before⟩
  obtain ⟨⟨counters, heap⟩, ran⟩ := forInt_returns (by omega) turn (⟨0, 0, 0⟩, state.2)
  exact ⟨_, bind_ok.mpr ⟨(counters, heap), ran, rfl⟩⟩

/-- A turn of the sweep that ends has used the last object that its mixed phase reads. -/
theorem sweepTurn_needs {state after : List Line × Heap} (positive : 1 ≤ sepGrn) (turns : sepGrn ≤ nRw)
    (measures : 0 < testLoop) (ran : sweepTurn world a testLoop state sepGrn = .ok after) :
    4 * (sepGrn - 1) < a.length := by
  obtain ⟨_, looped, _⟩ := bind_ok.mp ran
  obtain ⟨_, _, tested⟩ := forInt_each looped 0 (by omega)
  obtain ⟨_, mixed, _⟩ := bind_ok.mp tested
  obtain ⟨_, _, inner⟩ := forInt_each mixed 0 (Nat.div_pos turns positive)
  obtain ⟨_, _, object⟩ := forInt_each inner (sepGrn - 1) (by omega)
  obtain ⟨_, read, _⟩ := bind_ok.mp object
  obtain ⟨_, found, _⟩ := bind_ok.mp read
  exact objectAt_bound found

theorem testLoop_lt (arguments : Arguments) : arguments.testLoop < 2 ^ 31 := by
  rw [Arguments.testLoop]
  cases arguments.argv2 with
  | none => decide
  | some value => exact BitVec.toInt_lt

/-- The objects that `main` allocates. -/
def allocated (arguments : Arguments) (world : SweepWorld) : List Word :=
  (List.range ((arguments.sepGrn - 1) * 4 + 1).toNat).map world.alloc

theorem main_ok {arguments : Arguments} {report : List Line × Heap} : main arguments world heap = .ok report ↔
    -67108863 ≤ arguments.sepGrn ∧ arguments.sepGrn ≤ 67108864 ∧
      sepGrns.foldlM (sweepTurn world (allocated arguments world) arguments.testLoop)
        ([], (allocated arguments world).foldl initObject heap) = .ok report := by
  rw [main, bind_ok]
  constructor
  · intro ran
    obtain ⟨times, counted, ran⟩ := ran
    obtain ⟨size, sized, ran⟩ := bind_ok.mp ran
    obtain ⟨rfl, lower, upper⟩ := (timesOf_ok arguments).mp ⟨counted, size, sized⟩
    exact ⟨lower, upper, ran⟩
  · intro condition
    obtain ⟨lower, upper, ran⟩ := condition
    obtain ⟨counted, size, sized⟩ := (timesOf_ok arguments).mpr ⟨rfl, lower, upper⟩
    exact ⟨_, counted, bind_ok.mpr ⟨size, sized, ran⟩⟩

end Indices

/-- The program uses no index outside its array exactly when the array has 2045 objects, or when nothing is measured,
and its size is an `int`. -/
theorem main_in_bounds_iff (arguments : Arguments) (world : SweepWorld) (heap : Heap) :
    (∃ report, main arguments world heap = .ok report) ↔
      -67108863 ≤ arguments.sepGrn ∧ arguments.sepGrn ≤ 67108864 ∧
        (arguments.testLoop ≤ 0 ∨ 512 ≤ arguments.sepGrn) := by
  have length : (allocated arguments world).length = ((arguments.sepGrn - 1) * 4 + 1).toNat := by
    rw [allocated, List.length_map, List.length_range]
  constructor
  · intro returns
    obtain ⟨report, ran⟩ := returns
    obtain ⟨lower, upper, sweep⟩ := main_ok.mp ran
    refine ⟨lower, upper, ?_⟩
    by_contra neither
    rw [not_or] at neither
    obtain ⟨_, _, last⟩ := foldlM_each sweep 512 (by decide)
    have reached := sweepTurn_needs (by decide) (by decide) (by omega) last
    omega
  · intro condition
    obtain ⟨lower, upper, enough⟩ := condition
    have each : ∀ sepGrn ∈ sepGrns, ∀ before, ∃ after,
        sweepTurn world (allocated arguments world) arguments.testLoop before sepGrn = .ok after := by
      intro sepGrn member before
      have bounds : sepGrn ≤ 512 ∧ sepGrn % 2 = 0 := by
        revert sepGrn
        decide
      apply sweepTurn_ok (testLoop_lt arguments) (by omega) bounds.2
      intro measures j inside
      omega
    obtain ⟨report, ran⟩ := foldlM_returns each ([], (allocated arguments world).foldl initObject heap)
    exact ⟨report, main_ok.mpr ⟨lower, upper, ran⟩⟩

/-- With the argument 1 there is one object, and the second turn of the first phase uses `a[4]`. -/
theorem main_out_of_bounds : main ⟨some 1, some 1⟩ ⟨fun i => BitVec.ofNat 64 (4096 + 64 * i), fun _ _ =>
      ⟨⟨0, 0, by decide, by decide⟩, ⟨0, 5, by decide, by decide⟩, ⟨0, 5, by decide, by decide⟩,
        ⟨0, 9, by decide, by decide⟩⟩⟩ ⟨fun _ => 0, []⟩ = .error (.outOfBounds 4) :=
  rfl

end RwSep.Benchmark
