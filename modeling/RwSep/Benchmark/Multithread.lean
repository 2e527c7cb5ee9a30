import RwSep.Allocator.Family
import RwSep.MemAccess.Footprint

namespace RwSep.Benchmark

open RwSep.Data RwSep.Execution RwSep.X86 RwSep.Allocator

/-! The buffers and argument tables of rw_sep_multithread.cpp. -/

def NUMTHREAD : Nat := 8

structure Foo where
  startAddr : Word
  accessSize : Word
  strideSkip : Word
  delay : Word
  count : Word
deriving DecidableEq, Repr

def strideNt (f : Foo) : Code := MemAccess.strideNt ⟨f.startAddr, f.accessSize, f.strideSkip, f.delay, f.count⟩

def strideStoreclwb (f : Foo) : Code :=
  MemAccess.strideStoreclwb ⟨f.startAddr, f.accessSize, f.strideSkip, f.delay, f.count⟩

structure Bench where
  alloc1 : Fastalloc
  alloc2 : Fastalloc
  bufSep1 : Fin NUMTHREAD → Word
  bufSep2 : Fin NUMTHREAD → Word
  f1 : Fin NUMTHREAD → Foo
  f2 : Fin NUMTHREAD → Foo

def setArg (bench : Bench) (accessSize strideSize delay count : Word) : Bench :=
  { bench with
    f1 := fun i => ⟨bench.bufSep1 i, accessSize, strideSize, delay, count⟩
    f2 := fun i => ⟨bench.bufSep2 i, accessSize, strideSize, delay, count⟩ }

/-- What the memory of a `new fastalloc` holds where the class has no initialiser. -/
structure Garbage where
  dram : Table
  nvm : Table
  channel : Int

def initFastAllocator (linux : Bool) (garbage : Garbage) (os : Os) (channel : Int) : Except Stop (Fastalloc × Os) :=
  OptaneStudy.init linux (.new garbage.dram garbage.nvm garbage.channel) os channel

/-- The `for` loop of `init` over the remaining threads. -/
def allocBuffers (linux : Bool) (size : Word) : List (Fin NUMTHREAD) → Bench → Os → Except Stop (Bench × Os)
  | [], bench, os => .ok (bench, os)
  | i :: rest, bench, os => do
      let (buffer1, alloc1, os) ← OptaneStudy.alloc linux bench.alloc1 os size true
      let bench := { bench with alloc1, bufSep1 := Function.update bench.bufSep1 i buffer1 }
      let (buffer2, alloc2, os) ← OptaneStudy.alloc linux bench.alloc2 os size true
      let bench := { bench with alloc2, bufSep2 := Function.update bench.bufSep2 i buffer2 }
      allocBuffers linux size rest bench os

def init (linux : Bool) (garbage1 garbage2 : Garbage) (port : Int × Int) (bench : Bench) (os : Os)
    (count strideSize : Word) : Except Stop (Bench × Os) := do
  let (alloc1, os) ← initFastAllocator linux garbage1 os port.1
  let (alloc2, os) ← initFastAllocator linux garbage2 os port.2
  allocBuffers linux (count * strideSize) (List.finRange NUMTHREAD) { bench with alloc1, alloc2 } os

/-! # Two allocators as a family -/

/-- A writer thread works on `f1` (`false`), a reader thread of a two-channel task on `f2` (`true`). -/
abbrev Thread := Bool × Fin NUMTHREAD

namespace Bench

def allocator (bench : Bench) : Bool → Fastalloc
  | false => bench.alloc1
  | true => bench.alloc2

def buffer (bench : Bench) : Thread → Word
  | (false, i) => bench.bufSep1 i
  | (true, i) => bench.bufSep2 i

def argument (bench : Bench) : Thread → Foo
  | (false, i) => bench.f1 i
  | (true, i) => bench.f2 i

end Bench

def plainGrowth (linux : Bool) (_ : Bool) : Fastalloc → Fill := OptaneStudy.growth linux

def bufferCalls (size : Word) (order : List (Fin NUMTHREAD)) : List (Bool × Request) :=
  order.flatMap fun _ => [(false, ⟨size, true⟩), (true, ⟨size, true⟩)]

def bufferPointers (bench : Bench) (order : List (Fin NUMTHREAD)) : List Word :=
  order.flatMap fun i => [bench.buffer (false, i), bench.buffer (true, i)]

variable {linux : Bool} {size : Word} {bench after : Bench} {os os' : Os} {order : List (Fin NUMTHREAD)}

theorem allocBuffers_cons {i : Fin NUMTHREAD} {rest : List (Fin NUMTHREAD)}
    (returned : allocBuffers linux size (i :: rest) bench os = .ok (after, os')) :
    ∃ buffer1 alloc1 os₁ buffer2 alloc2 os₂,
      OptaneStudy.alloc linux bench.alloc1 os size true = .ok (buffer1, alloc1, os₁) ∧
      OptaneStudy.alloc linux bench.alloc2 os₁ size true = .ok (buffer2, alloc2, os₂) ∧
      allocBuffers linux size rest
        { bench with
          alloc1, alloc2
          bufSep1 := Function.update bench.bufSep1 i buffer1
          bufSep2 := Function.update bench.bufSep2 i buffer2 } os₂ = .ok (after, os') := by
  obtain ⟨served1, first, returned⟩ := bind_ok.mp returned
  obtain ⟨buffer1, alloc1, os₁⟩ := served1
  obtain ⟨served2, second, returned⟩ := bind_ok.mp returned
  obtain ⟨buffer2, alloc2, os₂⟩ := served2
  exact ⟨buffer1, alloc1, os₁, buffer2, alloc2, os₂, first, second, returned⟩

theorem allocBuffers_keeps (returned : allocBuffers linux size order bench os = .ok (after, os'))
    (thread : Thread) (outside : thread.2 ∉ order) : after.buffer thread = bench.buffer thread := by
  induction order generalizing bench os with
  | nil =>
      cases returned
      rfl
  | cons i rest ih =>
      obtain ⟨buffer1, alloc1, os₁, buffer2, alloc2, os₂, _, _, remaining⟩ := allocBuffers_cons returned
      rw [List.mem_cons, not_or] at outside
      rw [ih remaining outside.2]
      obtain ⟨side, which⟩ := thread
      cases side with
      | false => exact Function.update_of_ne outside.1 ..
      | true => exact Function.update_of_ne outside.1 ..

/-- The loop is a run of the family of the two allocators. -/
theorem allocBuffers_run (returned : allocBuffers linux size order bench os = .ok (after, os'))
    (distinct : order.Nodup) :
    run (familyStep (plainGrowth linux)) (bench.allocator, os) (bufferCalls size order) =
      .ok (bufferPointers after order, (after.allocator, os')) := by
  induction order generalizing bench os with
  | nil =>
      cases returned
      rfl
  | cons i rest ih =>
      obtain ⟨buffer1, alloc1, os₁, buffer2, alloc2, os₂, first, second, remaining⟩ := allocBuffers_cons returned
      obtain ⟨outside, distinctRest⟩ := List.nodup_cons.mp distinct
      have run' := ih remaining distinctRest
      have kept1 : after.buffer (false, i) = buffer1 := by
        rw [allocBuffers_keeps remaining (false, i) outside]
        exact Function.update_self ..
      have kept2 : after.buffer (true, i) = buffer2 := by
        rw [allocBuffers_keeps remaining (true, i) outside]
        exact Function.update_self ..
      have step1 : familyStep (plainGrowth linux) (bench.allocator, os) (false, ⟨size, true⟩) =
          .ok (after.buffer (false, i), (Function.update bench.allocator false alloc1, os₁)) := by
        change bench.alloc1.allocWith (OptaneStudy.growth linux) os size true = _ at first
        simp only [familyStep, plainGrowth, Bench.allocator, first, kept1]
      have step2 : familyStep (plainGrowth linux) (Function.update bench.allocator false alloc1, os₁)
          (true, ⟨size, true⟩) = .ok (after.buffer (true, i),
            (Function.update (Function.update bench.allocator false alloc1) true alloc2, os₂)) := by
        change bench.alloc2.allocWith (OptaneStudy.growth linux) os₁ size true = _ at second
        simp only [familyStep, plainGrowth]
        rw [Function.update_of_ne (by decide)]
        simp only [Bench.allocator, second, kept2]
      have both : Function.update (Function.update bench.allocator false alloc1) true alloc2 =
          Bench.allocator { bench with
            alloc1, alloc2
            bufSep1 := Function.update bench.bufSep1 i buffer1
            bufSep2 := Function.update bench.bufSep2 i buffer2 } := by
        funext side
        cases side <;> rfl
      rw [both] at step2
      exact run_cons.mpr ⟨_, _, _, step1, run_cons.mpr ⟨_, _, _, step2, run', rfl⟩, rfl⟩

/-! # Disjoint buffers -/

def Bench.block (bench : Bench) (size : Word) (thread : Thread) : Range := ⟨bench.buffer thread, size.toNat⟩

def plainSetup (linux : Bool) (channel : Int) : Setup := ⟨.optaneStudy, .plain, linux, channel, 0⟩

variable {garbage1 garbage2 : Garbage} {port : Int × Int} {count strideSize : Word}

theorem init_split (returned : init linux garbage1 garbage2 port bench os count strideSize = .ok (after, os')) :
    ∃ alloc1 os₁ alloc2 os₂,
      (plainSetup linux port.1).Started garbage1.dram garbage1.nvm garbage1.channel os alloc1 os₁ ∧
      (plainSetup linux port.2).Started garbage2.dram garbage2.nvm garbage2.channel os₁ alloc2 os₂ ∧
      allocBuffers linux (count * strideSize) (List.finRange NUMTHREAD) { bench with alloc1, alloc2 } os₂ =
        .ok (after, os') := by
  obtain ⟨started1, first, returned⟩ := bind_ok.mp returned
  obtain ⟨alloc1, os₁⟩ := started1
  obtain ⟨started2, second, returned⟩ := bind_ok.mp returned
  obtain ⟨alloc2, os₂⟩ := started2
  exact ⟨alloc1, os₁, alloc2, os₂, Setup.init_started first, Setup.init_started second, returned⟩

def newAllocators (garbage1 garbage2 : Garbage) : Bool → Fastalloc
  | false => .new garbage1.dram garbage1.nvm garbage1.channel
  | true => .new garbage2.dram garbage2.nvm garbage2.channel

theorem allocBuffers_exists (room : ∀ side, ((bench.allocator side).pool true).cnt.toNat + order.length ≤ 100) :
    ∃ after os', allocBuffers linux size order bench os = .ok (after, os') := by
  induction order generalizing bench os with
  | nil => exact ⟨bench, os, rfl⟩
  | cons i rest ih =>
      have room1 : (bench.alloc1.pool true).cnt.toNat + (rest.length + 1) ≤ 100 := room false
      have room2 : (bench.alloc2.pool true).cnt.toNat + (rest.length + 1) ≤ 100 := room true
      have served1 : ∃ pointer alloc1 os₁, OptaneStudy.alloc linux bench.alloc1 os size true =
          .ok (pointer, alloc1, os₁) := Fastalloc.allocWith_exists _ _ (.inr (by omega))
      obtain ⟨buffer1, alloc1, os₁, first⟩ := served1
      have served2 : ∃ pointer alloc2 os₂, OptaneStudy.alloc linux bench.alloc2 os₁ size true =
          .ok (pointer, alloc2, os₂) := Fastalloc.allocWith_exists _ _ (.inr (by omega))
      obtain ⟨buffer2, alloc2, os₂, second⟩ := served2
      have grown1 := (Fastalloc.allocWith_served first).cnt_le true
      have grown2 := (Fastalloc.allocWith_served second).cnt_le true
      simp only [allocBuffers, first, second, bind, Except.bind]
      apply ih
      intro side
      cases side with
      | false =>
          change (alloc1.pool true).cnt.toNat + rest.length ≤ 100
          omega
      | true =>
          change (alloc2.pool true).cnt.toNat + rest.length ≤ 100
          omega

theorem init_exists (valid1 : 0 ≤ port.1 ∧ port.1 ≤ 3) (valid2 : 0 ≤ port.2 ∧ port.2 ≤ 3) :
    ∃ after os', init linux garbage1 garbage2 port bench os count strideSize = .ok (after, os') := by
  obtain ⟨alloc1, os₁, first, known1⟩ : ∃ alloc1 os₁, (plainSetup linux port.1).init
      (.new garbage1.dram garbage1.nvm garbage1.channel) os = .ok (alloc1, os₁) ∧ _ :=
    Setup.init_opens fun _ => valid1
  obtain ⟨alloc2, os₂, second, known2⟩ : ∃ alloc2 os₂, (plainSetup linux port.2).init
      (.new garbage2.dram garbage2.nvm garbage2.channel) os₁ = .ok (alloc2, os₂) ∧ _ :=
    Setup.init_opens fun _ => valid2
  have opened1 := known1.cnt true
  have opened2 := known2.cnt true
  change initFastAllocator linux garbage1 os port.1 = _ at first
  change initFastAllocator linux garbage2 os₁ port.2 = _ at second
  simp only [init, first, second, bind, Except.bind]
  apply allocBuffers_exists
  intro side
  cases side with
  | false =>
      change (alloc1.pool true).cnt.toNat + 8 ≤ 100
      omega
  | true =>
      change (alloc2.pool true).cnt.toNat + 8 ≤ 100
      omega

theorem handed_buffers (bench : Bench) (size : Word) (order : List (Fin NUMTHREAD)) :
    handed (bufferCalls size order) (bufferPointers bench order) =
      order.flatMap fun i =>
        [(false, ⟨true, bench.block size (false, i)⟩), (true, ⟨true, bench.block size (true, i)⟩)] := by
  induction order with
  | nil => rfl
  | cons i rest ih =>
      rw [List.flatMap_cons, ← ih]
      rfl

/-- After the two calls of `init_fast_allocator` both allocators own their
first regions and have handed out nothing. -/
theorem started_owned (bench : Bench) {alloc1 alloc2 : Fastalloc} {os₁ os₂ : Os}
    (started1 : (plainSetup linux port.1).Started garbage1.dram garbage1.nvm garbage1.channel os alloc1 os₁)
    (started2 : (plainSetup linux port.2).Started garbage2.dram garbage2.nvm garbage2.channel os₁ alloc2 os₂)
    (granted : Granted os₂.log) :
    Owned (fun _ => ALLOC_SIZE) (Bench.allocator { bench with alloc1, alloc2 }) os₂.log ∧
      ∀ side pool, Represents ALLOC_SIZE ((Bench.allocator { bench with alloc1, alloc2 } side).pool pool)
        (.opened 0 ALLOC_SIZE.toNat) := by
  obtain ⟨events, grown⟩ := started2.log
  have granted₁ : Granted os₁.log := Granted.of_append (grown ▸ granted)
  have fresh : Owned (fun _ => ALLOC_SIZE) (newAllocators garbage1 garbage2) os.log := by
    apply Owned.empty
    intro owner pool
    cases owner <;> cases pool <;> rfl
  have owned := started2.owned true (started1.owned false fresh rfl rfl granted₁) rfl rfl granted
  have both : Function.update (Function.update (newAllocators garbage1 garbage2) false alloc1) true alloc2 =
      Bench.allocator { bench with alloc1, alloc2 } := by
    funext side
    cases side <;> rfl
  rw [both] at owned
  refine ⟨owned, fun side pool => ?_⟩
  cases side with
  | false => exact started1.represents pool
  | true => exact started2.represents pool

/-- The buffers of different threads are disjoint, and each starts at a
multiple of 64 from a region of its allocator. -/
theorem buffers_isolated
    (returned : init linux garbage1 garbage2 port bench os count strideSize = .ok (after, os'))
    (short : count * strideSize ≤ ALLOC_SIZE) (granted : Granted os'.log) :
    (∀ thread : Thread, ∃ index < ((after.allocator thread.1).pool true).cnt.toNat,
      64 ∣ (after.buffer thread - ((after.allocator thread.1).pool true).entry index).toNat) ∧
    ∀ thread other, thread ≠ other →
      (after.block (count * strideSize) thread).Disjoint (after.block (count * strideSize) other) := by
  obtain ⟨alloc1, os₁, alloc2, os₂, started1, started2, looped⟩ := init_split returned
  have ran := allocBuffers_run looped (List.nodup_finRange _)
  obtain ⟨events, grown⟩ := family_log ran
  obtain ⟨owned, opened⟩ := started_owned bench started1 started2 (Granted.of_append (grown ▸ granted))
  have small : ∀ call ∈ bufferCalls (count * strideSize) (List.finRange NUMTHREAD), call.2.Small := by
    intro call member
    obtain ⟨i, _, called⟩ := List.mem_flatMap.mp member
    have request : call.2 = ⟨count * strideSize, true⟩ := by
      rcases List.mem_pair.mp called with rfl | rfl <;> rfl
    rw [request]
    exact Request.small_of_le short
  obtain ⟨inside, apart⟩ := family_isolated (fun _ => (plainSetup linux 0).growth_length) (fun _ => Nat.le_refl _)
    opened owned small ran granted
  rw [handed_buffers] at inside apart
  apply And.intro
  · intro thread
    have member : (thread.1, (⟨true, after.block (count * strideSize) thread⟩ : Block)) ∈
        (List.finRange NUMTHREAD).flatMap fun i =>
          [(false, ⟨true, after.block (count * strideSize) (false, i)⟩),
            (true, ⟨true, after.block (count * strideSize) (true, i)⟩)] := by
      apply List.mem_flatMap.mpr
      obtain ⟨side, i⟩ := thread
      cases side <;> exact ⟨i, List.mem_finRange i, by simp⟩
    obtain ⟨index, live, region, _, range, _, aligned⟩ := inside _ member
    rw [range] at aligned
    exact ⟨index, live, aligned⟩
  · intro thread other different
    exact forall_of_pairwise_pairs (fun left right : Bool × Block => left.2.range.Disjoint right.2.range)
      Range.Disjoint.symm (fun side i => (side, ⟨true, after.block (count * strideSize) (side, i)⟩)) apart
      (List.mem_finRange thread.2) (List.mem_finRange other.2) different

/-! # Threads -/

inductive Routine where
  | strideStoreclwb
  | strideNt
deriving DecidableEq, Repr

def Routine.code : Routine → Foo → Code
  | .strideStoreclwb => Benchmark.strideStoreclwb
  | .strideNt => Benchmark.strideNt

def Foo.args (f : Foo) : MemAccess.StrideArgs := ⟨f.startAddr, f.accessSize, f.strideSkip, f.delay, f.count⟩

theorem Routine.strided (routine : Routine) : ∃ access events,
    MemAccess.Advances access (MemAccess.stored events) ∧ MemAccess.OnLine events ∧
    ∀ f : Foo, routine.code f = MemAccess.strided access .mfence f.args := by
  cases routine with
  | strideStoreclwb => exact ⟨_, _, MemAccess.advances_storeclwb, MemAccess.onLine_storeclwb, fun _ => rfl⟩
  | strideNt => exact ⟨_, _, MemAccess.advances_nt, MemAccess.onLine_nt, fun _ => rfl⟩

theorem argument_args (bench : Bench) (accessSize strideSize delay count : Word) (thread : Thread) :
    ((setArg bench accessSize strideSize delay count).argument thread).args =
      ⟨bench.buffer thread, accessSize, strideSize, delay, count⟩ := by
  obtain ⟨side, i⟩ := thread
  cases side <;> rfl

theorem total_le {accessSize : Word} (counted : 1 ≤ count.toInt) (accessed : 1 ≤ accessSize.toInt)
    (wide : (accessSize.toInt + 63) / 64 * 64 ≤ strideSize.toInt)
    (total : count.toInt * strideSize.toInt ≤ ALLOC_SIZE.toInt) : count * strideSize ≤ ALLOC_SIZE := by
  have spaced : MemAccess.StrideArgs.Spaced ⟨0, accessSize, strideSize, 0, count⟩ :=
    ⟨counted, accessed, wide, Int.lt_of_le_of_lt total (by decide)⟩
  have product := spaced.total.1
  have values : (count.toNat : Int) = count.toInt ∧ (strideSize.toNat : Int) = strideSize.toInt := spaced.values
  have limit : (ALLOC_SIZE.toNat : Int) = ALLOC_SIZE.toInt := rfl
  rw [← values.1, ← values.2, ← limit] at total
  apply BitVec.le_def.mpr
  change (count * strideSize).toNat = count.toNat * strideSize.toNat at product
  rw [product]
  exact_mod_cast total

/-- With an access size that fits the stride in whole lines and `count` strides
that fit a region, `init` succeeds on valid ports, and after `set_arg` every
routine ends on every thread's arguments and touches the bytes of the thread's
own block only, which no other thread's block meets.  Where the mapped regions
and the stride are whole lines, all accesses are aligned; on the machine a
routine ends where they are, at canonical addresses. -/
theorem threads_isolated {accessSize : Word} (delay : Word) (counted : 1 ≤ count.toInt)
    (accessed : 1 ≤ accessSize.toInt)
    (wide : (accessSize.toInt + 63) / 64 * 64 ≤ strideSize.toInt)
    (total : count.toInt * strideSize.toInt ≤ ALLOC_SIZE.toInt) :
    ((0 ≤ port.1 ∧ port.1 ≤ 3) → (0 ≤ port.2 ∧ port.2 ≤ 3) →
      ∃ after os', init linux garbage1 garbage2 port bench os count strideSize = .ok (after, os')) ∧
    ∀ after os', init linux garbage1 garbage2 port bench os count strideSize = .ok (after, os') →
      Granted os'.log →
      let argument := (setArg after accessSize strideSize delay count).argument
      let block := after.block (count * strideSize)
      (∀ (routine : Routine) thread before, ∃ final, Exec (routine.code (argument thread)) before final) ∧
      (∀ (routine : Routine) thread byte,
        MemAccess.Touches (routine.code (argument thread)) byte → byte ∈ block thread) ∧
      (∀ (routine : Routine) thread before final, Exec (routine.code (argument thread)) before final →
        ∀ byte ∉ block thread, final.data.memory byte = before.data.memory byte) ∧
      (∀ (routine routine' : Routine) thread other, thread ≠ other → ∀ byte,
        MemAccess.Touches (routine.code (argument thread)) byte →
        ¬ MemAccess.Touches (routine'.code (argument other)) byte) ∧
      (64 ∣ strideSize.toNat →
        (∀ side, ∀ index < ((after.allocator side).pool true).cnt.toNat,
          64 ∣ (((after.allocator side).pool true).entry index).toNat) →
        ∀ (routine : Routine) thread before final trace, Exec (routine.code (argument thread)) before final →
          final.data.trace = before.data.trace ++ trace → ∀ event ∈ trace, event.Aligned) := by
  refine ⟨fun valid1 valid2 => init_exists valid1 valid2, ?_⟩
  intro after os' returned granted argument block
  have args : ∀ thread, (argument thread).args = ⟨after.buffer thread, accessSize, strideSize, delay, count⟩ :=
    argument_args after accessSize strideSize delay count
  have spaced : ∀ thread, (argument thread).args.Spaced := by
    intro thread
    rw [args thread]
    exact ⟨counted, accessed, wide, Int.lt_of_le_of_lt total (by decide)⟩
  have own : ∀ thread, Range.mk (argument thread).args.startAddr
      ((argument thread).args.count * (argument thread).args.skip).toNat = block thread := by
    intro thread
    rw [args thread]
    rfl
  obtain ⟨located, apart⟩ := buffers_isolated returned (total_le counted accessed wide total) granted
  have touches : ∀ (routine : Routine) thread byte,
      MemAccess.Touches (routine.code (argument thread)) byte → byte ∈ block thread := by
    intro routine thread byte touched
    obtain ⟨access, events, advances, onLine, code⟩ := routine.strided
    rw [code] at touched
    rw [← own thread]
    exact MemAccess.strided_touches advances onLine (spaced thread) touched
  refine ⟨?_, touches, ?_, ?_, ?_⟩
  · intro routine thread before
    obtain ⟨access, events, advances, _, code⟩ := routine.strided
    obtain ⟨final, ran, _⟩ := (MemAccess.strided_ends before advances).ends (spaced thread).room
    exact ⟨final, by rw [code]; exact ran⟩
  · intro routine thread before final ran byte outside
    obtain ⟨access, events, advances, _, code⟩ := routine.strided
    rw [code] at ran
    rw [← own thread] at outside
    exact MemAccess.strided_frame advances (spaced thread) ran outside
  · intro routine routine' thread other different byte touched touched'
    exact apart thread other different byte (touches routine thread byte touched)
      (touches routine' other byte touched')
  · intro stride mapped routine thread before final trace ran traced event member
    obtain ⟨access, events, advances, onLine, code⟩ := routine.strided
    rw [code] at ran
    have start : 64 ∣ (argument thread).args.startAddr.toNat := by
      obtain ⟨index, live, offset⟩ := located thread
      have base := mapped thread.1 index live
      rw [args thread]
      change 64 ∣ (after.buffer thread).toNat
      bv_omega
    have skip : 64 ∣ (argument thread).args.skip.toNat := by
      rw [args thread]
      exact stride
    exact MemAccess.strided_aligned advances onLine start skip ran traced member

def blankGarbage : Garbage := ⟨Vector.replicate 100 0, Vector.replicate 100 0, 0⟩

def blankBench : Bench :=
  ⟨newAllocators blankGarbage blankGarbage false, newAllocators blankGarbage blankGarbage true, fun _ => 0, fun _ => 0,
    fun _ => ⟨0, 0, 0, 0, 0⟩, fun _ => ⟨0, 0, 0, 0, 0⟩⟩

/-- Buffers of 2 GiB, two to a region. -/
theorem threads_isolated_spaced : ∃ after os',
    init true blankGarbage blankGarbage (0, 1) blankBench spacedOs 0x2000000 64 = .ok (after, os') ∧
    ∀ (routine routine' : Routine) thread other, thread ≠ other → ∀ byte,
      MemAccess.Touches (routine.code ((setArg after 64 64 200 0x2000000).argument thread)) byte →
      ¬ MemAccess.Touches (routine'.code ((setArg after 64 64 200 0x2000000).argument other)) byte := by
  have counted : 1 ≤ (0x2000000 : Word).toInt := by decide
  have accessed : 1 ≤ (64 : Word).toInt := by decide
  have wide : ((64 : Word).toInt + 63) / 64 * 64 ≤ (64 : Word).toInt := by decide
  have total : (0x2000000 : Word).toInt * (64 : Word).toInt ≤ ALLOC_SIZE.toInt := by decide
  have returned : init true blankGarbage blankGarbage (0, 1) blankBench spacedOs 0x2000000 64 = .ok (_, _) := rfl
  have apart := (threads_isolated 200 counted accessed wide total).2 _ _ returned
    ⟨by decide, (show List.Pairwise _ _ by decide).imp Range.Separate.disjoint⟩
  exact ⟨_, _, returned, apart.2.2.2.1⟩

end RwSep.Benchmark
