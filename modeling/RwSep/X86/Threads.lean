import RwSep.Execution.Interleaving
import RwSep.X86.Assembly

namespace RwSep.X86

open RwSep.Data RwSep.Execution

/-! Threads that run texts of code on one memory.

Each has its own registers.  Their instructions come in any order, and what an
instruction stores is seen by all later ones.
-/

namespace Event

def Loads (byte : Word) : Event → Prop
  | .load address size => byte ∈ Range.mk address size
  | .ntLoad address => byte ∈ Range.mk address 64
  | _ => False

def Stores (byte : Word) : Event → Prop
  | .store address size => byte ∈ Range.mk address size
  | .ntStore address => byte ∈ Range.mk address 64
  | _ => False

instance (byte : Word) (event : Event) : Decidable (event.Stores byte) :=
  match event with
  | .store address size => inferInstanceAs (Decidable (byte ∈ Range.mk address size))
  | .ntStore address => inferInstanceAs (Decidable (byte ∈ Range.mk address 64))
  | .load _ _ => isFalse id
  | .ntLoad _ => isFalse id
  | .clwb _ => isFalse id
  | .clflush _ => isFalse id
  | .mfence => isFalse id
  | .sfence => isFalse id

end Event

def LoadsAny (events : List Event) (byte : Word) : Prop := ∃ event ∈ events, event.Loads byte

def StoresAny (events : List Event) (byte : Word) : Prop := ∃ event ∈ events, event.Stores byte

instance (events : List Event) (byte : Word) : Decidable (StoresAny events byte) :=
  inferInstanceAs (Decidable (∃ event ∈ events, event.Stores byte))

/-- A thread without the memory. -/
structure Core where
  pc : Nat
  gpr : Reg → Word
  zmm : Fin 32 → Line

def Core.machine (core : Core) (memory : Memory) : Machine := ⟨core.pc, core.gpr, core.zmm, memory, []⟩

namespace Machine

def trace (machine : Machine) : List Event := machine.state.data.trace

def memory (machine : Machine) : Memory := machine.state.data.memory

def core (machine : Machine) : Core := ⟨machine.pc, machine.state.gpr, machine.state.data.zmm⟩

/-- The same machine, with these events before its own. -/
def after (machine : Machine) (events : List Event) : Machine :=
  ⟨machine.pc, machine.state.gpr, machine.state.data.zmm, machine.memory, events ++ machine.trace⟩

/-- What a machine that started with an empty trace has become, stored and recorded. -/
def action (machine : Machine) : Action Core Word Byte Event where
  own := machine.core
  writes byte := if StoresAny machine.trace byte then some (machine.memory byte) else none
  events := machine.trace

end Machine

def threadStep (text : List Asm) : Stepper Core Word Byte Event := fun core memory =>
  ((core.machine memory).step text).map Machine.action

/-! # One step -/

section Step

variable {asm : Asm} {machine : Machine} {core : Core} {memory memory' : Memory} {events more : List Event}
variable {byte address : Word}

theorem storesAny_append : StoresAny (events ++ more) byte ↔ StoresAny events byte ∨ StoresAny more byte := by
  simp only [StoresAny, List.mem_append, or_and_right, exists_or]

/-- The trace so far has no bearing on a step. -/
theorem Asm.step_after (asm : Asm) (machine : Machine) (events : List Event) :
    asm.step (machine.after events) = (asm.step machine).after events := by
  cases asm with
  | jl back bound counter => rfl
  | instr single =>
      cases single <;>
        simp only [Asm.step, Instr.step, Machine.after, Machine.trace, Machine.memory, State.record, State.set,
          State.setZmm, State.writeWord, State.writeLine, List.append_assoc]

/-- What a step has recorded, and that it has stored nowhere else. -/
theorem Asm.step_stores (asm : Asm) (machine : Machine) :
    ∃ events, (asm.step machine).trace = machine.trace ++ events ∧
      ∀ byte, ¬ StoresAny events byte → (asm.step machine).memory byte = machine.memory byte := by
  have silent : ∃ events : List Event, machine.trace = machine.trace ++ events ∧
      ∀ byte, ¬ StoresAny events byte → machine.memory byte = machine.memory byte :=
    ⟨[], (List.append_nil _).symm, fun _ _ => rfl⟩
  have recorded (event : Event) : ∃ events : List Event, machine.trace ++ [event] = machine.trace ++ events ∧
      ∀ byte, ¬ StoresAny events byte → machine.memory byte = machine.memory byte :=
    ⟨[event], rfl, fun _ _ => rfl⟩
  cases asm with
  | jl back bound counter => exact silent
  | instr single =>
      cases single with
      | movLoad src dst => exact recorded _
      | movqLoad src dst => exact recorded _
      | vmovntdqa src dst => exact recorded _
      | clwb line => exact recorded _
      | clflush line => exact recorded _
      | mfence => exact recorded _
      | sfence => exact recorded _
      | movStore src dst =>
          refine ⟨[_], rfl, fun byte outside => Memory.writeBytes_outside fun inside => outside ?_⟩
          exact ⟨_, List.mem_singleton_self _, inside⟩
      | vmovdqa64 src dst =>
          refine ⟨[_], rfl, fun byte outside => Memory.writeLine_outside fun inside => outside ?_⟩
          exact ⟨_, List.mem_singleton_self _, inside⟩
      | vmovntdq src dst =>
          refine ⟨[_], rfl, fun byte outside => Memory.writeLine_outside fun inside => outside ?_⟩
          exact ⟨_, List.mem_singleton_self _, inside⟩
      | _ => exact silent

theorem overwrite_action (kept : ∀ byte, ¬ StoresAny machine.trace byte → machine.memory byte = memory byte) :
    overwrite memory machine.action.writes = machine.memory := by
  funext byte
  by_cases stored : StoresAny machine.trace byte
  · exact overwrite_touched (if_pos stored)
  · have untouched : machine.action.writes byte = none := if_neg stored
    rw [overwrite_untouched untouched, kept byte stored]

theorem readLine_congr (same : ∀ byte ∈ Range.mk address 64, memory' byte = memory byte) :
    memory'.readLine address = memory.readLine address := by
  funext lane
  exact same _ (Memory.lane_mem lane.isLt (by decide))

theorem action_congr {left right : Machine} (core : left.core = right.core) (traced : left.trace = right.trace)
    (stored : ∀ byte, StoresAny right.trace byte → left.memory byte = right.memory byte) :
    left.action = right.action := by
  simp only [Machine.action, core, traced, Execution.Action.mk.injEq, true_and, and_true]
  funext byte
  split
  · rename_i inside
    rw [stored byte inside]
  · rfl

theorem storesAny_single {event : Event} : StoresAny [event] byte ↔ event.Stores byte := by
  simp only [StoresAny, List.mem_singleton, exists_eq_left]

theorem not_storesAny_nil : ¬ StoresAny [] byte := fun found => List.not_mem_nil found.choose_spec.1

section Local

variable {core : Core} {src : Address}

theorem movLoad_core (memory : Memory) (dst : Reg) : (Asm.step (core.machine memory) (.instr (.movLoad src dst))).core =
    ⟨core.pc + 1, Function.update core.gpr dst (memory.readWord (src.eval core.gpr)), core.zmm⟩ := rfl

theorem movLoad_trace (memory : Memory) (dst : Reg) :
    (Asm.step (core.machine memory) (.instr (.movLoad src dst))).trace = [.load (src.eval core.gpr) 8] := rfl

theorem movqLoad_core (memory : Memory) (dst : Fin 32) :
    (Asm.step (core.machine memory) (.instr (.movqLoad src dst))).core =
      ⟨core.pc + 1, core.gpr,
        Function.update core.zmm dst ((core.zmm dst).setLow (memory.readWord (src.eval core.gpr)))⟩ := rfl

theorem movqLoad_trace (memory : Memory) (dst : Fin 32) :
    (Asm.step (core.machine memory) (.instr (.movqLoad src dst))).trace = [.load (src.eval core.gpr) 8] := rfl

theorem movLoad_local {dst : Reg}
    (loaded : memory'.readWord (src.eval core.gpr) = memory.readWord (src.eval core.gpr)) :
    (Asm.step (core.machine memory') (.instr (.movLoad src dst))).action =
      (Asm.step (core.machine memory) (.instr (.movLoad src dst))).action := by
  apply action_congr
  · rw [movLoad_core, movLoad_core, loaded]
  · rw [movLoad_trace, movLoad_trace]
  · rw [movLoad_trace]
    intro byte found
    exact (storesAny_single.mp found).elim

theorem movqLoad_local {dst : Fin 32}
    (loaded : memory'.readWord (src.eval core.gpr) = memory.readWord (src.eval core.gpr)) :
    (Asm.step (core.machine memory') (.instr (.movqLoad src dst))).action =
      (Asm.step (core.machine memory) (.instr (.movqLoad src dst))).action := by
  apply action_congr
  · rw [movqLoad_core, movqLoad_core, loaded]
  · rw [movqLoad_trace, movqLoad_trace]
  · rw [movqLoad_trace]
    intro byte found
    exact (storesAny_single.mp found).elim

end Local

/-- A step depends on the bytes that it loads. -/
theorem Asm.step_local (asm : Asm) (core : Core)
    (same : ∀ byte, LoadsAny (asm.step (core.machine memory)).trace byte → memory' byte = memory byte) :
    (asm.step (core.machine memory')).action = (asm.step (core.machine memory)).action := by
  have loads {event : Event} (member : event ∈ (asm.step (core.machine memory)).trace) {range : Range}
      (loaded : ∀ byte ∈ range, event.Loads byte) : ∀ byte ∈ range, memory' byte = memory byte :=
    fun byte inside => same byte ⟨event, member, loaded byte inside⟩
  have nothing : ∀ byte, StoresAny [] byte → memory' byte = memory byte := fun _ found => absurd found not_storesAny_nil
  have quiet (event : Event) (quiet : ∀ byte, ¬ event.Stores byte) :
      ∀ byte, StoresAny [event] byte → memory' byte = memory byte :=
    fun byte found => absurd (storesAny_single.mp found) (quiet byte)
  cases asm with
  | jl back bound counter => exact action_congr rfl rfl nothing
  | instr single =>
      cases single with
      | movLoad src dst =>
          have loaded := Memory.readWord_congr (loads (List.mem_singleton_self _) fun _ inside => inside)
          exact movLoad_local loaded
      | movqLoad src dst =>
          have loaded := Memory.readWord_congr (loads (List.mem_singleton_self _) fun _ inside => inside)
          exact movqLoad_local loaded
      | vmovntdqa src dst =>
          have loaded := readLine_congr (loads (List.mem_singleton_self _) fun _ inside => inside)
          exact action_congr (congrArg (fun line => Core.mk (core.pc + 1) core.gpr (Function.update core.zmm dst line)) loaded)
            rfl (quiet (.ntLoad (src.eval core.gpr)) fun _ => id)
      | clwb line => exact action_congr rfl rfl (quiet (.clwb (line.eval core.gpr)) fun _ => id)
      | clflush line => exact action_congr rfl rfl (quiet (.clflush (line.eval core.gpr)) fun _ => id)
      | mfence => exact action_congr rfl rfl (quiet .mfence fun _ => id)
      | sfence => exact action_congr rfl rfl (quiet .sfence fun _ => id)
      | movStore src dst =>
          refine action_congr rfl rfl fun byte found => ?_
          have inside : byte ∈ Range.mk (dst.eval core.gpr) 8 := storesAny_single.mp found
          exact (if_pos inside).trans (if_pos inside).symm
      | vmovdqa64 src dst =>
          refine action_congr rfl rfl fun byte found => ?_
          have inside : byte ∈ Range.mk (dst.eval core.gpr) 64 := storesAny_single.mp found
          exact (Memory.writeLine_of_mem inside).trans (Memory.writeLine_of_mem inside).symm
      | vmovntdq src dst =>
          refine action_congr rfl rfl fun byte found => ?_
          have inside : byte ∈ Range.mk (dst.eval core.gpr) 64 := storesAny_single.mp found
          exact (Memory.writeLine_of_mem inside).trans (Memory.writeLine_of_mem inside).symm
      | _ => exact action_congr rfl rfl nothing

end Step

/-! # Threads alone -/

section Runs

variable {text : List Asm} {machine middle last : Machine} {core : Core} {memory : Memory} {count more : Nat}
variable {byte : Word}

theorem steps_concat : Machine.steps text (count + 1) machine =
    (Machine.steps text count machine).bind (Machine.step text) := by
  rw [Machine.steps_add]
  apply congrArg
  funext middle
  exact Option.bind_fun_some _

theorem machine_step_some : machine.step text = some last ↔
    ∃ asm, text[machine.pc]? = some asm ∧ asm.step machine = last :=
  Option.map_eq_some_iff

/-- What a run has recorded, and that it has stored nowhere else. -/
theorem steps_stores (ran : Machine.steps text count machine = some last) :
    ∃ events, last.trace = machine.trace ++ events ∧
      ∀ byte, ¬ StoresAny events byte → last.memory byte = machine.memory byte := by
  induction count generalizing last with
  | zero =>
      cases ran
      exact ⟨[], (List.append_nil _).symm, fun _ _ => rfl⟩
  | succ count ih =>
      rw [steps_concat, Option.bind_eq_some_iff] at ran
      obtain ⟨middle, ran, stepped⟩ := ran
      obtain ⟨asm, _, rfl⟩ := machine_step_some.mp stepped
      obtain ⟨events, traced, kept⟩ := ih ran
      obtain ⟨more, traced', kept'⟩ := asm.step_stores middle
      refine ⟨events ++ more, by rw [traced', traced, List.append_assoc], fun byte outside => ?_⟩
      rw [storesAny_append, not_or] at outside
      rw [kept' byte outside.2, kept byte outside.1]

theorem steps_onwards (ran : Machine.steps text count machine = some middle)
    (whole : Machine.steps text more machine = some last) (before : count ≤ more) :
    Machine.steps text (more - count) middle = some last := by
  rw [← Nat.add_sub_cancel' before, Machine.steps_add, ran, Option.bind_some] at whole
  exact whole

theorem memory_of_core (ran : Machine.steps text count (core.machine memory) = some last) :
    overwrite memory last.action.writes = last.memory := by
  obtain ⟨events, traced, kept⟩ := steps_stores ran
  apply overwrite_action
  intro byte outside
  apply kept
  rwa [traced] at outside

theorem machine_after (machine : Machine) : (machine.core.machine machine.memory).after machine.trace = machine := by
  obtain ⟨pc, gpr, zmm, memory, trace⟩ := machine
  exact congrArg (fun trace => Machine.mk pc ⟨gpr, zmm, memory, trace⟩) (List.append_nil trace)

theorem action_after (kept : ∀ byte, ¬ StoresAny last.trace byte → last.memory byte = machine.memory byte) :
    (last.after machine.trace).action = machine.action.followed last.action := by
  have writes : (last.after machine.trace).action.writes = (machine.action.followed last.action).writes := by
    funext byte
    change (if StoresAny (machine.trace ++ last.trace) byte then some (last.memory byte) else none) =
      (if StoresAny last.trace byte then some (last.memory byte) else none).or
        (if StoresAny machine.trace byte then some (machine.memory byte) else none)
    by_cases later : StoresAny last.trace byte
    · simp [storesAny_append, later]
    · simp [storesAny_append, later, kept byte later]
  simp only [Action.followed, Machine.action, Execution.Action.mk.injEq]
  exact ⟨rfl, writes, rfl⟩

/-- A thread alone is the machine of its text. -/
theorem alone_eq (text : List Asm) (core : Core) (memory : Memory) (count : Nat) :
    alone (threadStep text) core memory count =
      (Machine.steps text count (core.machine memory)).map Machine.action := by
  induction count with
  | zero =>
      have blank : (core.machine memory).action = ⟨core, fun _ => none, []⟩ := by
        simp [Machine.action, Core.machine, Machine.core, Machine.trace, StoresAny]
      rw [alone, Machine.steps, Option.map_some, blank]
  | succ count ih =>
      rw [alone, ih, steps_concat]
      cases ran : Machine.steps text count (core.machine memory) with
      | none => rfl
      | some machine =>
          rw [Option.map_some, Option.bind_some, Option.bind_eq_bind, Option.bind_some, memory_of_core ran]
          change ((((machine.core.machine machine.memory).step text).map Machine.action).bind
            fun later => some (machine.action.followed later)) = (machine.step text).map Machine.action
          rw [Machine.step, Machine.step]
          change (((text[machine.pc]?.map _).map _).bind _) = _
          cases found : text[machine.pc]? with
          | none => rfl
          | some asm =>
              rw [Option.map_some, Option.map_some, Option.map_some, Option.map_some, Option.bind_some]
              have stepped := asm.step_after (machine.core.machine machine.memory) machine.trace
              rw [machine_after] at stepped
              obtain ⟨events, traced, kept⟩ := asm.step_stores (machine.core.machine machine.memory)
              have kept' : ∀ byte, ¬ StoresAny (asm.step (machine.core.machine machine.memory)).trace byte →
                  (asm.step (machine.core.machine machine.memory)).memory byte = machine.memory byte := by
                intro byte outside
                apply kept
                rwa [traced] at outside
              rw [stepped, action_after kept']

end Runs

/-! # Threads together -/

structure Registers where
  gpr : Reg → Word
  zmm : Fin 32 → Line

def Registers.core (registers : Registers) : Core := ⟨0, registers.gpr, registers.zmm⟩

def Registers.state (registers : Registers) (memory : Memory) : State := ⟨registers.gpr, registers.zmm, memory, []⟩

section Together

variable {ι : Type} {code : ι → Code} {registers : ι → Registers} {memory : Memory} {finals : ι → State}

def threadSteps (code : ι → Code) (thread : ι) : Stepper Core Word Byte Event := threadStep (code thread).text

def startThreads (registers : ι → Registers) (memory : Memory) : Pool ι Core Word Byte Event :=
  ⟨fun thread => (registers thread).core, memory, []⟩

/-- The ends of the threads' codes, each run from this memory alone. -/
def EndsAlone (code : ι → Code) (registers : ι → Registers) (memory : Memory) (finals : ι → State) : Prop :=
  ∀ thread, Exec (code thread) ((registers thread).state memory) (finals thread)

/-- No thread loads what another one stores. -/
def Unraced (finals : ι → State) : Prop :=
  ∀ thread other, thread ≠ other → ∀ byte, LoadsAny (finals thread).data.trace byte →
    ¬ StoresAny (finals other).data.trace byte

/-- No byte is stored to twice. -/
def StoresOnce (events : List Event) : Prop :=
  events.Pairwise fun event later => ∀ byte, event.Stores byte → ¬ later.Stores byte

def finalAction (code : ι → Code) (finals : ι → State) (thread : ι) : Action Core Word Byte Event :=
  (Machine.mk (code thread).text.length (finals thread)).action

theorem threads_end [DecidableEq ι] (alone : EndsAlone code registers memory finals) :
    ∃ lengths, (∀ thread, Machine.steps (code thread).text (lengths thread)
        ((registers thread).core.machine memory) = some ⟨(code thread).text.length, finals thread⟩) ∧
      (startThreads registers memory).Ends (threadSteps code) lengths (finalAction code finals) := by
  have counts : ∀ thread, ∃ count, Machine.steps (code thread).text count
      ((registers thread).core.machine memory) = some ⟨(code thread).text.length, finals thread⟩ :=
    fun thread => exec_iff_text.mp (alone thread)
  choose lengths ran using counts
  refine ⟨lengths, ran, fun thread => ?_, fun thread => ?_⟩
  · exact (alone_eq _ _ _ _).trans (by rw [startThreads, ran, Option.map_some]; rfl)
  · have ended : (code thread).text[(code thread).text.length]? = none := by simp
    change (((code thread).text[(code thread).text.length]?.map _).map _) = none
    rw [ended]
    rfl

theorem threadStep_some {text : List Asm} {core : Core} {action : Action Core Word Byte Event} :
    threadStep text core memory = some action ↔
      ∃ asm, text[core.pc]? = some asm ∧ (asm.step (core.machine memory)).action = action := by
  rw [threadStep, Machine.step, Option.map_map, Option.map_eq_some_iff]
  rfl

theorem machine_alone {text : List Asm} {core : Core} {count : Nat} {action : Action Core Word Byte Event}
    (ran : alone (threadStep text) core memory count = some action) :
    ∃ machine, Machine.steps text count (core.machine memory) = some machine ∧ machine.action = action ∧
      overwrite memory action.writes = machine.memory := by
  rw [alone_eq, Option.map_eq_some_iff] at ran
  obtain ⟨machine, ran, rfl⟩ := ran
  exact ⟨machine, ran, rfl, memory_of_core ran⟩

/-- What a thread has recorded on its way it has recorded at its end. -/
theorem recorded_before {text : List Asm} {core : Core} {count length : Nat} {machine last : Machine}
    (ran : Machine.steps text count (core.machine memory) = some machine)
    (whole : Machine.steps text length (core.machine memory) = some last) (before : count ≤ length) :
    ∃ events, last.trace = machine.trace ++ events ∧
      ∀ byte, ¬ StoresAny events byte → last.memory byte = machine.memory byte :=
  steps_stores (steps_onwards ran whole before)

/-- A step of a thread that ends depends on the bytes that the thread loads. -/
theorem depends_alone {text : List Asm} {core : Core} {count length : Nat} {last : Machine}
    {action : Action Core Word Byte Event} (whole : Machine.steps text length (core.machine memory) = some last)
    (ended : text[last.pc]? = none) (ran : alone (threadStep text) core memory count = some action) (store : Memory)
    (same : ∀ byte, LoadsAny last.trace byte → store byte = overwrite memory action.writes byte) :
    threadStep text action.own store = threadStep text action.own (overwrite memory action.writes) := by
  obtain ⟨machine, steps, rfl, kept⟩ := machine_alone ran
  rw [kept] at same ⊢
  cases found : text[machine.pc]? with
  | none =>
      have stuck (memory : Memory) : threadStep text machine.action.own memory = none := by
        change ((text[machine.pc]?.map _).map _) = none
        rw [found]
        rfl
      rw [stuck, stuck]
  | some asm =>
      have next : Machine.steps text (count + 1) (core.machine memory) = some (asm.step machine) := by
        rw [steps_concat, steps, Option.bind_some]
        exact machine_step_some.mpr ⟨asm, found, rfl⟩
      have bound : count + 1 ≤ length := by
        by_contra beyond
        have past := steps_onwards whole next (by omega)
        have := (Machine.steps_ended ended past).1
        omega
      obtain ⟨events, traced, _⟩ := recorded_before next whole bound
      have stepped := asm.step_after (machine.core.machine machine.memory) machine.trace
      rw [machine_after] at stepped
      have loaded : ∀ byte, LoadsAny (asm.step (machine.core.machine machine.memory)).trace byte →
          store byte = machine.memory byte := by
        intro byte found
        obtain ⟨event, member, loads⟩ := found
        apply same
        refine ⟨event, ?_, loads⟩
        rw [traced, stepped]
        exact List.mem_append_left _ (List.mem_append_right _ member)
      change threadStep text machine.core store = threadStep text machine.core machine.memory
      rw [threadStep_some.mpr ⟨asm, found, asm.step_local machine.core loaded⟩]
      exact (threadStep_some.mpr ⟨asm, found, rfl⟩).symm

theorem threads_independent [DecidableEq ι] (alone : EndsAlone code registers memory finals) (unraced : Unraced finals) :
    (startThreads registers memory).Independent (threadSteps code)
      (fun thread byte => LoadsAny (finals thread).data.trace byte) := by
  obtain ⟨lengths, ran, ends⟩ := threads_end alone
  constructor
  · intro thread count action steps store same
    exact depends_alone (ran thread) (by simp) steps store same
  · intro thread other different count action steps byte loaded
    have before := alone_le (ends.ran other) (ends.ended other) steps
    obtain ⟨machine, reached, rfl, _⟩ := machine_alone steps
    obtain ⟨events, traced, _⟩ := recorded_before reached (ran other) before
    have traced' : (finals other).data.trace = machine.trace ++ events := traced
    apply if_neg
    intro stored
    apply unraced thread other different byte loaded
    rw [traced', storesAny_append]
    exact .inl stored

/-- The threads after they have all ended.  A byte that one thread alone stores
to holds what it holds there when the thread runs alone; of a byte that several
store to, this is so for one of them. -/
structure Finished (code : ι → Code) (finals : ι → State) [DecidableEq ι] (done : Pool ι Core Word Byte Event) : Prop where
  cores : ∀ thread, done.own thread =
    ⟨(code thread).text.length, (finals thread).gpr, (finals thread).data.zmm⟩
  traces : ∀ thread, eventsOf thread done.log = (finals thread).data.trace
  single : ∀ thread byte, (∀ other, other ≠ thread → ¬ StoresAny (finals other).data.trace byte) →
    done.store byte = (finals thread).data.memory byte
  raced : (∀ thread, StoresOnce (finals thread).data.trace) → ∀ thread byte,
    StoresAny (finals thread).data.trace byte →
      ∃ other, StoresAny (finals other).data.trace byte ∧ done.store byte = (finals other).data.memory byte

theorem not_storesAny_later {events more : List Event} {byte : Word} (once : StoresOnce (events ++ more))
    (stored : StoresAny events byte) : ¬ StoresAny more byte := by
  intro again
  obtain ⟨event, member, stores⟩ := stored
  obtain ⟨later, member', stores'⟩ := again
  exact (List.pairwise_append.mp once).2.2 event member later member' byte stores stores'

/-- A byte that a thread has stored to holds its last value, if it stores there once. -/
theorem value_before {text : List Asm} {core : Core} {count length : Nat} {machine last : Machine} {byte : Word}
    (ran : Machine.steps text count (core.machine memory) = some machine)
    (whole : Machine.steps text length (core.machine memory) = some last) (before : count ≤ length)
    (once : StoresOnce last.trace) (stored : StoresAny machine.trace byte) :
    StoresAny last.trace byte ∧ last.memory byte = machine.memory byte := by
  obtain ⟨events, traced, kept⟩ := recorded_before ran whole before
  rw [traced] at once ⊢
  exact ⟨storesAny_append.mpr (.inl stored), kept byte (not_storesAny_later once stored)⟩

variable [DecidableEq ι] {schedule : List ι} {now done : Pool ι Core Word Byte Event}

/-- At any moment a thread has recorded a part of what it records alone.  A byte
that it alone stores to, and once, has its last value or its first. -/
theorem threads_underway (alone : EndsAlone code registers memory finals) (unraced : Unraced finals)
    (ran : (startThreads registers memory).interleave (threadSteps code) schedule = some now) (thread : ι) :
    eventsOf thread now.log <+: (finals thread).data.trace ∧
    ∀ byte, (∀ other, other ≠ thread → ¬ StoresAny (finals other).data.trace byte) →
      StoresOnce (finals thread).data.trace →
      now.store byte = if StoresAny (eventsOf thread now.log) byte then (finals thread).data.memory byte else memory byte := by
  have independent := threads_independent alone unraced
  obtain ⟨lengths, whole, ends⟩ := threads_end alone
  obtain ⟨actions, follows⟩ := Pool.interleave_follows independent ran
  have reach (other : ι) : ∃ machine, Machine.steps (code other).text (schedule.count other)
      ((registers other).core.machine memory) = some machine ∧ machine.action = actions other := by
    obtain ⟨machine, reached, same, _⟩ := machine_alone (follows.ran other)
    exact ⟨machine, reached, same⟩
  obtain ⟨machine, reached, same⟩ := reach thread
  have recorded : eventsOf thread now.log = machine.trace := by
    rw [follows.events, ← same]
    rfl
  obtain ⟨events, traced, _⟩ := recorded_before reached (whole thread) (ends.count_le follows thread)
  refine ⟨⟨events, by rw [recorded]; exact traced.symm⟩, fun byte single once => ?_⟩
  have untouched : ∀ other, other ≠ thread → (actions other).writes byte = none := by
    intro other different
    obtain ⟨machine', reached', same'⟩ := reach other
    obtain ⟨events', traced', _⟩ := recorded_before reached' (whole other) (ends.count_le follows other)
    have traced'' : (finals other).data.trace = machine'.trace ++ events' := traced'
    rw [← same']
    apply if_neg
    intro stored
    apply single other different
    rw [traced'', storesAny_append]
    exact .inl stored
  rw [follows.kept thread byte untouched, ← same, recorded]
  by_cases stored : StoresAny machine.trace byte
  · have last := (value_before reached (whole thread) (ends.count_le follows thread) once stored).2
    have written : machine.action.writes byte = some (machine.memory byte) := if_pos stored
    rw [if_pos stored, overwrite_touched written]
    exact last.symm
  · have unwritten : machine.action.writes byte = none := if_neg stored
    rw [if_neg stored, overwrite_untouched unwritten]
    rfl

theorem threads_finished (alone : EndsAlone code registers memory finals) (unraced : Unraced finals)
    (complete : (startThreads registers memory).Complete (threadSteps code) schedule done) :
    Finished code finals done := by
  have independent := threads_independent alone unraced
  obtain ⟨lengths, ran, ends⟩ := threads_end alone
  have follows := ends.finished independent complete
  have kept : ∀ thread, overwrite memory (finalAction code finals thread).writes = (finals thread).data.memory :=
    fun thread => memory_of_core (ran thread)
  refine ⟨follows.own, follows.events, fun thread byte single => ?_, fun once thread byte stored => ?_⟩
  · rw [← kept thread]
    apply follows.kept
    intro other different
    exact if_neg (single other different)
  · have written : (finalAction code finals thread).writes byte ≠ none := by
      intro untouched
      change (if StoresAny (finals thread).data.trace byte then _ else _) = none at untouched
      rw [if_pos stored] at untouched
      contradiction
    obtain ⟨writer, count, action, steps, wrote⟩ := follows.last byte thread written
    have before := alone_le (ends.ran writer) (ends.ended writer) steps
    obtain ⟨machine, reached, rfl, _⟩ := machine_alone steps
    change (if StoresAny machine.trace byte then some (machine.memory byte) else none) = some (done.store byte) at wrote
    split at wrote
    · rename_i stored
      obtain ⟨stored', same⟩ := value_before reached (ran writer) before (once writer) stored
      exact ⟨writer, stored', (Option.some.inj wrote).symm.trans same.symm⟩
    · contradiction

end Together

end RwSep.X86
