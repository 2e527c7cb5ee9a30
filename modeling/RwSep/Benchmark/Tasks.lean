import RwSep.Benchmark.Multithread
import RwSep.MemAccess.CrashImages
import Mathlib.Data.Fintype.Prod

namespace RwSep.Benchmark

open RwSep.Data RwSep.Execution RwSep.X86 RwSep.Allocator RwSep.MemAccess

/-! The three tasks of `read_after_write_job` in rw_sep_multithread.cpp.

`pthread_create` starts the threads of a task and `pthread_join` waits for all
of them; in between their instructions come in any order.  The registers that
a thread starts with are arbitrary.
-/

instance : Fintype Routine where
  elems := {.strideStoreclwb, .strideNt}
  complete routine := by cases routine <;> simp

def Routine.events : Routine → Word → List X86.Event
  | .strideStoreclwb, line => [.store line 64, .clwb line]
  | .strideNt, line => [.ntStore line]

/-- `tid_w[i]` runs `stride_storeclwb`, `tid_r[i]` runs `stride_nt`. -/
abbrev Worker := Routine × Fin NUMTHREAD

/-- In task 1 both threads of a pair have the argument `&f1[i]`. -/
def task1Argument (bench : Bench) (worker : Worker) : Foo := bench.f1 worker.2

/-- In task 2 `tid_w[i]` has `&f1[i]` and `tid_r[i]` has `&f2[i]`. -/
def task2Argument (bench : Bench) : Worker → Foo
  | (.strideStoreclwb, i) => bench.f1 i
  | (.strideNt, i) => bench.f2 i

def task1Code (bench : Bench) (worker : Worker) : Code := worker.1.code (task1Argument bench worker)

def task2Code (bench : Bench) (worker : Worker) : Code := worker.1.code (task2Argument bench worker)

/-- Task 3 joins all `tid_w[i]` before it creates the first `tid_r[i]`, both with `&f1[i]`. -/
def task3Code (bench : Bench) (routine : Routine) (i : Fin NUMTHREAD) : Code := routine.code (bench.f1 i)

/-! # Arguments -/

section Arguments

variable {linux : Bool} {garbage1 garbage2 : Garbage} {port : Int × Int} {bench after : Bench} {os os' : Os}
variable {count strideSize accessSize delay : Word}

theorem Routine.kernel (routine : Routine) (f : Foo) : ∃ access, Advances access (stored routine.events) ∧
    routine.code f = MemAccess.strided access .mfence f.args := by
  cases routine with
  | strideStoreclwb => exact ⟨_, advances_storeclwb, rfl⟩
  | strideNt => exact ⟨_, advances_nt, rfl⟩

theorem Routine.storesLine (routine : Routine) : StoresLine routine.events := by
  cases routine with
  | strideStoreclwb => exact storesLine_storeclwb
  | strideNt => exact storesLine_nt

/-- An access size that fits the stride in whole lines, and `count` strides that fit a region. -/
structure Fits (accessSize strideSize count : Word) : Prop where
  counted : 1 ≤ count.toInt
  accessed : 1 ≤ accessSize.toInt
  wide : (accessSize.toInt + 63) / 64 * 64 ≤ strideSize.toInt
  total : count.toInt * strideSize.toInt ≤ ALLOC_SIZE.toInt

/-- What `init` and `set_arg` leave to the tasks. -/
structure Prepared (accessSize strideSize delay count : Word) (bench : Bench) : Prop where
  args : ∀ thread, (bench.argument thread).args = ⟨bench.buffer thread, accessSize, strideSize, delay, count⟩
  spaced : ∀ thread, (bench.argument thread).args.Spaced
  apart : ∀ thread other, thread ≠ other → ∀ byte,
    (bench.argument thread).args.Covers byte → ¬ (bench.argument other).args.Covers byte

theorem prepared (fits : Fits accessSize strideSize count)
    (returned : init linux garbage1 garbage2 port bench os count strideSize = .ok (after, os'))
    (granted : Granted os'.log) :
    Prepared accessSize strideSize delay count (setArg after accessSize strideSize delay count) := by
  let ready := setArg after accessSize strideSize delay count
  have args : ∀ thread, (ready.argument thread).args = ⟨ready.buffer thread, accessSize, strideSize, delay, count⟩ := by
    intro thread
    rw [argument_args after accessSize strideSize delay count thread]
    cases thread.1 <;> rfl
  have spaced : ∀ thread, (ready.argument thread).args.Spaced := by
    intro thread
    rw [args thread]
    exact ⟨fits.counted, fits.accessed, fits.wide, Int.lt_of_le_of_lt fits.total (by decide)⟩
  obtain ⟨_, apart⟩ := buffers_isolated returned (total_le fits.counted fits.accessed fits.wide fits.total) granted
  refine ⟨args, spaced, fun thread other different byte covered covered' => ?_⟩
  have inside : ∀ thread, (ready.argument thread).args.Covers byte → byte ∈ after.block (count * strideSize) thread := by
    intro thread covered
    obtain ⟨line, member, found⟩ := covered
    obtain ⟨i, bound, j, bound', rfl⟩ := mem_lines.mp member
    have within := ((spaced thread).line_inside bound bound').mem (Nat.le_of_lt (BitVec.isLt _)) found
    rw [args thread] at within
    exact within
  exact apart thread other different byte (inside thread covered) (inside other covered')

end Arguments

/-! # Tasks -/

section Tasks

variable {bench : Bench} {accessSize strideSize delay count : Word}

theorem Prepared.stores (prepared : Prepared accessSize strideSize delay count bench) {ι : Type}
    (routine : ι → Routine) (thread : ι → Thread) :
    StridedStores (fun worker => (routine worker).code (bench.argument (thread worker)))
      (fun worker => (bench.argument (thread worker)).args) fun worker => (routine worker).events where
  kernel worker := (routine worker).kernel _
  storesLine worker := (routine worker).storesLine
  spaced worker := prepared.spaced (thread worker)

theorem task1_stores (prepared : Prepared accessSize strideSize delay count bench) :
    StridedStores (task1Code bench) (fun worker => (bench.f1 worker.2).args) fun worker => worker.1.events :=
  prepared.stores Prod.fst fun worker => (false, worker.2)

/-- The buffer that a thread of task 2 works on. -/
def Worker.thread (worker : Worker) : Thread := (decide (worker.1 = .strideNt), worker.2)

theorem task2_argument (bench : Bench) (worker : Worker) : bench.argument worker.thread = task2Argument bench worker := by
  obtain ⟨routine, i⟩ := worker
  cases routine <;> rfl

theorem Worker.thread_injective {worker other : Worker} (different : other ≠ worker) : other.thread ≠ worker.thread := by
  intro same
  apply different
  obtain ⟨routine, i⟩ := worker
  obtain ⟨routine', i'⟩ := other
  obtain ⟨side, index⟩ := Prod.mk.inj same
  cases routine <;> cases routine' <;> simp_all

theorem task2_stores (prepared : Prepared accessSize strideSize delay count bench) :
    StridedStores (task2Code bench) (fun worker => (task2Argument bench worker).args) fun worker => worker.1.events := by
  have stores := prepared.stores Prod.fst Worker.thread
  simp only [task2_argument] at stores
  exact stores

theorem task3_stores (prepared : Prepared accessSize strideSize delay count bench) (routine : Routine) :
    StridedStores (task3Code bench routine) (fun i => (bench.f1 i).args) fun _ => routine.events :=
  prepared.stores (fun _ => routine) fun i => (false, i)

/-- The low word of a stamp is the address that the thread was started with. -/
theorem stamped_word {memory : Memory} {line address : Word} (low : ∀ lane : Fin 64, lane.val < 8 →
    memory (line + BitVec.ofNat 64 lane) = address.byte lane) : memory.readWord line = address := by
  rw [Memory.readWord, ← Word.ofBytes_byte address]
  apply Word.ofBytes_congr
  intro lane bound
  exact low ⟨lane, Nat.lt_trans bound (by decide)⟩ bound

variable {linux : Bool} {garbage1 garbage2 : Garbage} {port : Int × Int} {after : Bench} {os os' : Os}

/-- The mapped regions start at whole lines. -/
def LineMapped (bench : Bench) : Prop :=
  ∀ side, ∀ index < ((bench.allocator side).pool true).cnt.toNat,
    64 ∣ (((bench.allocator side).pool true).entry index).toNat

/-- Sixteen buffers of 2 GiB, two to a region. -/
theorem init_spaced : Fits 64 64 0x2000000 ∧ ∃ after os',
    init true blankGarbage blankGarbage (0, 1) blankBench spacedOs 0x2000000 64 = .ok (after, os') ∧
      Granted os'.log ∧ LineMapped after := by
  have returned : init true blankGarbage blankGarbage (0, 1) blankBench spacedOs 0x2000000 64 = .ok (_, _) := rfl
  refine ⟨⟨by decide, by decide, by decide, by decide⟩, _, _, returned, ?_, ?_⟩
  · exact ⟨by decide, (show List.Pairwise _ _ by decide).imp Range.Separate.disjoint⟩
  · intro side
    cases side <;> decide

/-- Both threads of a pair store to the same lines.  Every order of all sixteen
ends; each byte then has the value of one thread of the pair or the other, and
the first word of each line is the start of the buffer. -/
theorem task1_any_order (fits : Fits accessSize strideSize count)
    (returned : init linux garbage1 garbage2 port bench os count strideSize = .ok (after, os'))
    (granted : Granted os'.log) (registers : Worker → Registers) (memory : Memory) :
    let ready := setArg after accessSize strideSize delay count
    let start := startThreads registers memory
    start.EveryOrderEnds (threadSteps (task1Code ready)) ∧
    ∀ schedule done, start.Complete (threadSteps (task1Code ready)) schedule done →
      (∀ worker, eventsOf worker done.log = strideTrace worker.1.events (ready.f1 worker.2).args) ∧
      (∀ i, ∀ line ∈ (ready.f1 i).args.lines, Memory.readWord done.store line = after.bufSep1 i ∧ ∀ lane : Fin 64,
        ∃ routine, done.store (line + BitVec.ofNat 64 lane) = stamp (registers (routine, i)) (ready.f1 i).args lane) ∧
      ∀ byte, (∀ i, ¬ (ready.f1 i).args.Covers byte) → done.store byte = memory byte := by
  intro ready start
  have prepared : Prepared accessSize strideSize delay count ready := prepared fits returned granted
  have stores := task1_stores prepared
  refine ⟨stores.everyOrderEnds registers memory, fun schedule done complete => ?_⟩
  have stamped := stores.stamped complete
  have bytes : ∀ i, ∀ line ∈ (ready.f1 i).args.lines, ∀ lane : Fin 64,
      ∃ routine, done.store (line + BitVec.ofNat 64 lane) = stamp (registers (routine, i)) (ready.f1 i).args lane := by
    intro i line member lane
    obtain ⟨other, covers, same⟩ := stamped.raced (.strideNt, i) _ (covers_lane member lane)
    have pair : other.2 = i := by
      by_contra different
      have apart := prepared.apart (false, other.2) (false, i) fun equal => different (Prod.mk.inj equal).2
      exact apart _ covers (covers_lane member lane)
    obtain ⟨routine, index⟩ := other
    cases pair
    exact ⟨routine, same.trans (writeLines_at _ (lines_apart (prepared.spaced (false, index))) member lane)⟩
  refine ⟨stamped.traces, fun i line member => ⟨?_, bytes i line member⟩, fun byte outside => ?_⟩
  · apply stamped_word
    intro lane low
    obtain ⟨routine, same⟩ := bytes i line member lane
    rw [same, stamp, Line.setLow, if_pos low]
    rfl
  · have single := stamped.single (.strideNt, ⟨0, Nat.succ_pos 7⟩) byte fun other _ => outside other.2
    rw [single, MemAccess.writeLines_uncovered _ (outside _)]

theorem task1_any_order_spaced : ∃ after os',
    init true blankGarbage blankGarbage (0, 1) blankBench spacedOs 0x2000000 64 = .ok (after, os') ∧
    ∀ (registers : Worker → Registers) (memory : Memory),
      (startThreads registers memory).EveryOrderEnds (threadSteps (task1Code (setArg after 64 64 200 0x2000000))) := by
  obtain ⟨fits, after, os', returned, granted, _⟩ := init_spaced
  exact ⟨after, os', returned, fun registers memory => (task1_any_order fits returned granted registers memory).1⟩

theorem task2_apart (prepared : Prepared accessSize strideSize delay count bench) (worker other : Worker)
    (different : other ≠ worker) (byte : Word) (covered : (task2Argument bench worker).args.Covers byte) :
    ¬ (task2Argument bench other).args.Covers byte := by
  have disjoint := prepared.apart _ _ (Worker.thread_injective different).symm byte
  rw [task2_argument, task2_argument] at disjoint
  exact disjoint covered

/-- No line is of two threads, and every order leaves the same memory: each line
has the value of its thread, all other bytes are as before. -/
theorem task2_any_order (fits : Fits accessSize strideSize count)
    (returned : init linux garbage1 garbage2 port bench os count strideSize = .ok (after, os'))
    (granted : Granted os'.log) (registers : Worker → Registers) (memory : Memory) :
    let ready := setArg after accessSize strideSize delay count
    let start := startThreads registers memory
    let args := fun worker => (task2Argument ready worker).args
    start.EveryOrderEnds (threadSteps (task2Code ready)) ∧
    ∀ schedule done, start.Complete (threadSteps (task2Code ready)) schedule done →
      (∀ worker, eventsOf worker done.log = strideTrace worker.1.events (args worker)) ∧
      (∀ worker, ∀ line ∈ (args worker).lines, ∀ lane : Fin 64,
        done.store (line + BitVec.ofNat 64 lane) = stamp (registers worker) (args worker) lane) ∧
      ∀ byte, (∀ worker, ¬ (args worker).Covers byte) → done.store byte = memory byte := by
  intro ready start args
  have prepared : Prepared accessSize strideSize delay count ready := prepared fits returned granted
  have stores : StridedStores (task2Code ready) args fun worker => worker.1.events := task2_stores prepared
  have spaced : ∀ worker, (args worker).Spaced := stores.spaced
  refine ⟨stores.everyOrderEnds registers memory, fun schedule done complete => ?_⟩
  have stamped := stores.stamped complete
  refine ⟨stamped.traces, fun worker line member lane => ?_, fun byte outside => ?_⟩
  · have covered := covers_lane member lane
    rw [stamped.single worker _ fun other different => task2_apart prepared worker other different _ covered]
    exact writeLines_at _ (lines_apart (spaced worker)) member lane
  · have single := stamped.single (.strideNt, ⟨0, Nat.succ_pos 7⟩) byte fun other _ => outside other
    rw [single, MemAccess.writeLines_uncovered _ (outside _)]

theorem task2_any_order_spaced : ∃ after os',
    init true blankGarbage blankGarbage (0, 1) blankBench spacedOs 0x2000000 64 = .ok (after, os') ∧
    ∀ (registers : Worker → Registers) (memory : Memory),
      (startThreads registers memory).EveryOrderEnds (threadSteps (task2Code (setArg after 64 64 200 0x2000000))) := by
  obtain ⟨fits, after, os', returned, granted, _⟩ := init_spaced
  exact ⟨after, os', returned, fun registers memory => (task2_any_order fits returned granted registers memory).1⟩

theorem task3_apart (prepared : Prepared accessSize strideSize delay count bench) (i other : Fin NUMTHREAD)
    (different : other ≠ i) (byte : Word) (covered : (bench.f1 i).args.Covers byte) :
    ¬ (bench.f1 other).args.Covers byte :=
  prepared.apart (false, i) (false, other) (fun same => different (Prod.mk.inj same).2.symm) byte covered

theorem task3_phase (prepared : Prepared accessSize strideSize delay count bench) {routine : Routine}
    {registers : Fin NUMTHREAD → Registers} {memory : Memory} {schedule : List (Fin NUMTHREAD)}
    {done : Execution.Pool (Fin NUMTHREAD) Core Word Byte X86.Event}
    (complete : (startThreads registers memory).Complete (threadSteps (task3Code bench routine)) schedule done) :
    (∀ i, ∀ line ∈ (bench.f1 i).args.lines, ∀ lane : Fin 64,
      done.store (line + BitVec.ofNat 64 lane) = stamp (registers i) (bench.f1 i).args lane) ∧
    ∀ byte, (∀ i, ¬ (bench.f1 i).args.Covers byte) → done.store byte = memory byte := by
  have stamped := (task3_stores prepared routine).stamped complete
  apply And.intro
  · intro i line member lane
    have covered := covers_lane member lane
    rw [stamped.single i _ fun other different => task3_apart prepared i other different _ covered]
    exact writeLines_at _ (lines_apart (prepared.spaced (false, i))) member lane
  · intro byte outside
    have single := stamped.single ⟨0, Nat.succ_pos 7⟩ byte fun other _ => outside other
    rw [single, MemAccess.writeLines_uncovered _ (outside _)]

/-- The readers of task 3 start once all writers have ended, and store over all
that these have stored. -/
theorem task3_any_order (fits : Fits accessSize strideSize count)
    (returned : init linux garbage1 garbage2 port bench os count strideSize = .ok (after, os'))
    (granted : Granted os'.log) (writers readers : Fin NUMTHREAD → Registers) (memory : Memory) :
    let ready := setArg after accessSize strideSize delay count
    let writing := threadSteps (task3Code ready .strideStoreclwb)
    let reading := threadSteps (task3Code ready .strideNt)
    (startThreads writers memory).EveryOrderEnds writing ∧
    ∀ schedule written, (startThreads writers memory).Complete writing schedule written →
      (∀ i, ∀ line ∈ (ready.f1 i).args.lines, ∀ lane : Fin 64,
        written.store (line + BitVec.ofNat 64 lane) = stamp (writers i) (ready.f1 i).args lane) ∧
      (startThreads readers written.store).EveryOrderEnds reading ∧
      ∀ schedule' done, (startThreads readers written.store).Complete reading schedule' done →
        (∀ i, ∀ line ∈ (ready.f1 i).args.lines, ∀ lane : Fin 64,
          done.store (line + BitVec.ofNat 64 lane) = stamp (readers i) (ready.f1 i).args lane) ∧
        ∀ byte, (∀ i, ¬ (ready.f1 i).args.Covers byte) → done.store byte = memory byte := by
  intro ready writing reading
  have prepared : Prepared accessSize strideSize delay count ready := prepared fits returned granted
  refine ⟨(task3_stores prepared .strideStoreclwb).everyOrderEnds writers memory, fun schedule written complete => ?_⟩
  obtain ⟨stamped, untouched⟩ := task3_phase prepared complete
  refine ⟨stamped, (task3_stores prepared .strideNt).everyOrderEnds readers written.store, ?_⟩
  intro schedule' done complete'
  obtain ⟨stamped', untouched'⟩ := task3_phase prepared complete'
  exact ⟨stamped', fun byte outside => (untouched' byte outside).trans (untouched byte outside)⟩

theorem task3_any_order_spaced : ∃ after os',
    init true blankGarbage blankGarbage (0, 1) blankBench spacedOs 0x2000000 64 = .ok (after, os') ∧
    ∀ (writers : Fin NUMTHREAD → Registers) (memory : Memory), (startThreads writers memory).EveryOrderEnds
      (threadSteps (task3Code (setArg after 64 64 200 0x2000000) .strideStoreclwb)) := by
  obtain ⟨fits, after, os', returned, granted, _⟩ := init_spaced
  exact ⟨after, os', returned, fun writers memory => (task3_any_order fits returned granted writers writers memory).1⟩

/-! # Crashes -/

theorem Routine.persists (routine : Routine) : PersistsLine routine.events := by
  cases routine with
  | strideStoreclwb => exact persistsLine_storeclwb
  | strideNt => exact persistsLine_nt

theorem buffers_aligned (fits : Fits accessSize strideSize count)
    (returned : init linux garbage1 garbage2 port bench os count strideSize = .ok (after, os'))
    (granted : Granted os'.log) (mapped : LineMapped after) (thread : Thread) : 64 ∣ (after.buffer thread).toNat := by
  obtain ⟨located, _⟩ := buffers_isolated returned (total_le fits.counted fits.accessed fits.wide fits.total) granted
  obtain ⟨index, live, offset⟩ := located thread
  have base := mapped thread.1 index live
  bv_omega

/-- A crash at any moment of task 2, in any order of its threads, leaves the
lines of each thread persistent in the order of its turns; once all have ended
there is nothing left to lose. -/
theorem task2_crash (fits : Fits accessSize strideSize count)
    (returned : init linux garbage1 garbage2 port bench os count strideSize = .ok (after, os'))
    (granted : Granted os'.log) (mapped : LineMapped after) (whole : 64 ∣ strideSize.toNat)
    (registers : Worker → Registers) (memory : Memory) :
    let ready := setArg after accessSize strideSize delay count
    let start := startThreads registers memory
    let args := fun worker => (task2Argument ready worker).args
    ∀ schedule now (image : Memory), start.interleave (threadSteps (task2Code ready)) schedule = some now →
      start.Image persistence (threadSteps (task2Code ready)) schedule image →
      (∀ worker, PersistsInOrder (args worker) (stamp (registers worker) (args worker)) memory
        (fencedTurns (eventsOf worker now.log)) image) ∧
      (∀ byte, (∀ worker, ¬ (args worker).Covers byte) → image byte = memory byte) ∧
      ((∀ worker, now.Ended (threadSteps (task2Code ready)) worker) → image = now.store) := by
  intro ready start args schedule now image ran crashed
  have prepared : Prepared accessSize strideSize delay count ready := prepared fits returned granted
  have stores : StridedStores (task2Code ready) args fun worker => worker.1.events := task2_stores prepared
  have located : ∀ worker : Worker, args worker =
      ⟨ready.buffer worker.thread, accessSize, strideSize, delay, count⟩ := by
    intro worker
    rw [← prepared.args, task2_argument]
  have aligned : ∀ worker, 64 ∣ (args worker).startAddr.toNat := by
    intro worker
    rw [located]
    exact buffers_aligned fits returned granted mapped worker.thread
  have stride : ∀ worker, 64 ∣ (args worker).skip.toNat := by
    intro worker
    rw [located]
    exact whole
  have apart := task2_apart prepared
  refine ⟨fun worker => ?_, fun byte outside => ?_, fun ended => ?_⟩
  · exact crash_lines stores worker.1.persists (aligned worker) (stride worker) (apart worker) ran crashed
  · exact crash_untouched stores (.strideNt, ⟨0, Nat.succ_pos 7⟩) (apart _) ran crashed outside
  · have : Inhabited Worker := ⟨(.strideNt, ⟨0, Nat.succ_pos 7⟩)⟩
    exact crash_complete stores (fun worker => worker.1.persists) aligned stride apart ⟨ran, ended⟩ crashed

theorem task2_crash_spaced : ∃ after os',
    init true blankGarbage blankGarbage (0, 1) blankBench spacedOs 0x2000000 64 = .ok (after, os') ∧
    ∀ (registers : Worker → Registers) (memory : Memory) schedule done image,
      (startThreads registers memory).Complete (threadSteps (task2Code (setArg after 64 64 200 0x2000000))) schedule done →
      (startThreads registers memory).Image persistence (threadSteps (task2Code (setArg after 64 64 200 0x2000000)))
        schedule image → image = done.store := by
  obtain ⟨fits, after, os', returned, granted, mapped⟩ := init_spaced
  refine ⟨after, os', returned, fun registers memory schedule done image complete crashed => ?_⟩
  exact (task2_crash fits returned granted mapped (by decide) registers memory schedule done image complete.ran crashed).2.2
    complete.ended

/-- Once the writers of task 3 are joined their lines are persistent, and a crash
under the readers leaves each word as its writer or its reader has stored it. -/
theorem task3_crash (fits : Fits accessSize strideSize count)
    (returned : init linux garbage1 garbage2 port bench os count strideSize = .ok (after, os'))
    (granted : Granted os'.log) (mapped : LineMapped after) (whole : 64 ∣ strideSize.toNat)
    (writers readers : Fin NUMTHREAD → Registers) (memory : Memory) :
    let ready := setArg after accessSize strideSize delay count
    let writing := threadSteps (task3Code ready .strideStoreclwb)
    let reading := threadSteps (task3Code ready .strideNt)
    ∀ schedule written, (startThreads writers memory).Complete writing schedule written →
      (∀ image, (startThreads writers memory).Image persistence writing schedule image → image = written.store) ∧
      ∀ schedule' now (image : Memory), (startThreads readers written.store).interleave reading schedule' = some now →
        (startThreads readers written.store).Image persistence reading schedule' image →
        (∀ i, PersistsInOrder (ready.f1 i).args (stamp (readers i) (ready.f1 i).args) written.store
          (fencedTurns (eventsOf i now.log)) image) ∧
        ∀ i, ∀ line ∈ (ready.f1 i).args.lines, ∀ word < 8,
          SameWord word (image.readLine line) (stamp (writers i) (ready.f1 i).args) ∨
            SameWord word (image.readLine line) (stamp (readers i) (ready.f1 i).args) := by
  intro ready writing reading schedule written complete
  have prepared : Prepared accessSize strideSize delay count ready := prepared fits returned granted
  have aligned : ∀ i, 64 ∣ (ready.f1 i).args.startAddr.toNat :=
    fun i => buffers_aligned fits returned granted mapped (false, i)
  have stride : ∀ i, 64 ∣ (ready.f1 i).args.skip.toNat := fun _ => whole
  have apart := task3_apart prepared
  refine ⟨fun image crashed => ?_, fun schedule' now image ran crashed => ?_⟩
  · have : Inhabited (Fin NUMTHREAD) := ⟨⟨0, Nat.succ_pos 7⟩⟩
    exact crash_complete (task3_stores prepared .strideStoreclwb) (fun _ => Routine.strideStoreclwb.persists) aligned stride
      apart complete crashed
  · have inOrder : ∀ i, PersistsInOrder (ready.f1 i).args (stamp (readers i) (ready.f1 i).args) written.store
        (fencedTurns (eventsOf i now.log)) image := fun i =>
      crash_lines (task3_stores prepared .strideNt) Routine.strideNt.persists (aligned i) (stride i) (apart i) ran crashed
    refine ⟨inOrder, fun i line inLines word inside => ?_⟩
    obtain ⟨turn, inRange, member⟩ := List.mem_flatMap.mp inLines
    rcases (inOrder i turn (List.mem_range.mp inRange) line member).1 word inside with new | old
    · exact .inr new
    · left
      intro lane here
      rw [old lane here]
      exact (task3_phase prepared complete).1 i line inLines lane

theorem task3_crash_spaced : ∃ after os',
    init true blankGarbage blankGarbage (0, 1) blankBench spacedOs 0x2000000 64 = .ok (after, os') ∧
    ∀ (writers : Fin NUMTHREAD → Registers) (memory : Memory) schedule written image,
      (startThreads writers memory).Complete
        (threadSteps (task3Code (setArg after 64 64 200 0x2000000) .strideStoreclwb)) schedule written →
      (startThreads writers memory).Image persistence
        (threadSteps (task3Code (setArg after 64 64 200 0x2000000) .strideStoreclwb)) schedule image →
      image = written.store := by
  obtain ⟨fits, after, os', returned, granted, mapped⟩ := init_spaced
  refine ⟨after, os', returned, fun writers memory schedule written image complete => ?_⟩
  exact (task3_crash fits returned granted mapped (by decide) writers writers memory schedule written complete).1 image

end Tasks

end RwSep.Benchmark
