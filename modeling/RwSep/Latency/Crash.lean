import RwSep.Data.Lists
import RwSep.Latency.Buffer

namespace RwSep.Latency

open RwSep.Data RwSep.Execution
open RwSep.X86 (Reg Memory lineOf wordOf storeBytes)
open RwSep.Benchmark (LATENCY_OPS_COUNT)

/-! What a crash during a task of latency_job leaves in persistent memory.

What persists at once is an aligned word of eight bytes: a flush brings those of
its line, a non-temporal store the four that it covers.  The interval between the
two stamps of a call contains the flushes and the fence behind them.
-/

def Event.Persists (word : Nat) : Event → Prop
  | .clflush address => lineOf address = word / 8
  | .clflushopt address => lineOf address = word / 8
  | .clwb address => lineOf address = word / 8
  | .ntStore address => wordOf address / 4 = word / 4
  | _ => False

def Event.Fences : Event → Prop
  | .mfence => True
  | _ => False

def persistence : Persistence Nat Word Event := ⟨wordOf, Event.Persists, Event.Fences⟩

/-- The functions that bring what they store to persistent memory. -/
def Family.Persists : Family → Prop
  | .storeClflush => True
  | .storeClwb => True
  | .storeClflushopt => True
  | .nstore => True
  | .storeClflushMovq => True
  | _ => False

/-! # Scripts -/

def opsScript (func : Word → List Instr) (skip count : Nat) (buf : Word) : List Instr :=
  (List.range count).flatMap fun op => func (blockAt buf skip op)

section Scripts

variable {counter : Counter} {func : Word → List Instr} {skip count first more : Nat} {buf byte : Word}
variable {core : Core} {memory : Memory} {code part rest : List Instr}

theorem blockAt_add (buf : Word) (skip first more : Nat) :
    blockAt (blockAt buf skip first) skip more = blockAt buf skip (first + more) := by
  rw [blockAt, blockAt, blockAt, BitVec.add_assoc, ← BitVec.ofNat_add, Nat.mul_add]

theorem opsScript_add (func : Word → List Instr) (skip first more : Nat) (buf : Word) :
    opsScript func skip (first + more) buf = opsScript func skip first buf ++ opsScript func skip more (blockAt buf skip first) := by
  rw [opsScript, List.range_add, List.flatMap_append, List.flatMap_map]
  simp only [opsScript, blockAt_add]

theorem opsScript_one (func : Word → List Instr) (skip : Nat) (buf : Word) : opsScript func skip 1 buf = func buf := by
  simp [opsScript, blockAt]

/-- The calls of a task are one script. -/
theorem run_opsScript (counter : Counter) (func : Word → List Instr) (skip count : Nat) (buf : Word) (core : Core)
    (memory : Memory) :
    run counter (opsScript func skip count buf) core memory = (latencyOps counter func skip count buf core memory).2 := by
  induction count generalizing buf core memory with
  | zero => rfl
  | succ count ih =>
      have one : blockAt buf skip 1 = buf + BitVec.ofNat 64 skip := by rw [blockAt, Nat.mul_one]
      rw [Nat.add_comm count, opsScript_add, opsScript_one, one, run_append rfl rfl, ih, Nat.add_comm 1]
      rfl

/-- What a script has not written it has not written before its end. -/
theorem prefix_unwritten (shorter : part <+: code) (unwritten : (run counter code core memory).writes byte = none) :
    (run counter part core memory).writes byte = none := by
  obtain ⟨rest, rfl⟩ := shorter
  rw [run_append rfl rfl] at unwritten
  exact (Option.or_eq_none_iff.mp unwritten).2

/-- Code without accesses writes nothing. -/
theorem registers_unwritten (pure : ∀ instr ∈ code, ∀ kind disp, instr ≠ .access kind disp) :
    (run counter code core memory).writes byte = none := by
  induction code generalizing core memory with
  | nil => rfl
  | cons instr rest ih =>
      have behind := fun core memory => @ih core memory fun instr member => pure instr (List.mem_cons_of_mem _ member)
      have here : (Instr.act counter instr core memory).writes byte = none := by
        cases instr with
        | access kind disp => exact absurd rfl (pure _ List.mem_cons_self kind disp)
        | _ => rfl
      exact Option.or_eq_none_iff.mpr ⟨behind _ _, here⟩

end Scripts

/-! # One call -/

section Call

variable {family : Family} {lines line : Nat} {addr byte stamp word : Word} {counter : Counter} {core : Core}
variable {memory image : Memory} {before rest more part : List Instr} {schedule : List Unit}

/-- A call up to its second time stamp. -/
def Family.timed (family : Family) (lines : Nat) (addr : Word) : List Instr :=
  family.opening addr ++ TIMING_BEG ++ accessCode (family.accesses lines) ++ [.mfence, .rdtscp]

theorem code_timed (family : Family) (lines : Nat) (addr : Word) :
    family.code lines addr = family.timed lines addr ++ TIMING_END.drop 2 := by
  simp [Family.code, Family.timed, measured, TIMING_END]

/-- The words of an aligned line. -/
theorem line_word (aligned : 64 ∣ addr.toNat) (inside : byte ∈ Range.mk (addr + BitVec.ofNat 64 (64 * line)) 64) :
    lineOf (addr + BitVec.ofNat 64 (64 * line)) = wordOf byte / 8 := by
  rw [Range.mem_iff] at inside
  unfold lineOf wordOf
  simp only at inside
  bv_omega

theorem stored_word {disp : Nat} (aligned : 32 ∣ (addr + BitVec.ofNat 64 disp).toNat)
    (inside : byte ∈ Range.mk (addr + BitVec.ofNat 64 disp) 32) :
    wordOf (addr + BitVec.ofNat 64 disp) / 4 = wordOf byte / 4 := by
  rw [Range.mem_iff] at inside
  unfold wordOf
  simp only at inside
  bv_omega

/-- Where the byte of a line is brought to persistent memory, and that nothing is stored to it behind. -/
theorem Family.line_persists (persists : family.Persists) (aligned : 64 ∣ addr.toNat)
    (inside : byte ∈ Range.mk (addr + BitVec.ofNat 64 (64 * line)) 64) :
    ∃ earlier kind disp later, family.line line = earlier ++ (kind, disp) :: later ∧
      (kind.event (addr + BitVec.ofNat 64 disp)).Persists (wordOf byte) ∧ ¬ Stored addr later byte := by
  have nothing : ¬ Stored addr [] byte := by
    intro stored
    obtain ⟨_, member, _⟩ := stored
    exact absurd member List.not_mem_nil
  have whole := line_word aligned inside
  cases family with
  | storeClflush => exact ⟨storeLine line, .clflush, 64 * line, [], rfl, whole, nothing⟩
  | storeClwb => exact ⟨storeLine line, .clwb, 64 * line, [], rfl, whole, nothing⟩
  | storeClflushopt => exact ⟨storeLine line, .clflushopt, 64 * line, [], rfl, whole, nothing⟩
  | storeClflushMovq => exact ⟨storeWords line, .clflush, 64 * line, [], rfl, whole, nothing⟩
  | nstore =>
      have halves : byte ∈ Range.mk (addr + BitVec.ofNat 64 (64 * line)) (32 + 32) ↔ _ := mem_parts (by decide)
      rw [BitVec.add_assoc, ← BitVec.ofNat_add] at halves
      have multiple : 32 ∣ 64 * line := Nat.dvd_mul_right_of_dvd (by decide) line
      by_cases second : byte ∈ Range.mk (addr + BitVec.ofNat 64 (64 * line + 32)) 32
      · refine ⟨[(.vmovntpd, 64 * line)], .vmovntpd, 64 * line + 32, [], rfl, ?_, nothing⟩
        exact stored_word (offset_aligned aligned (Nat.dvd_add multiple (by decide))) second
      · have first := (halves.mp inside).resolve_right second
        refine ⟨[], .vmovntpd, 64 * line, [(.vmovntpd, 64 * line + 32)], rfl, ?_, ?_⟩
        · exact stored_word (offset_aligned aligned multiple) first
        · rw [stored_single]
          exact second
  | load => exact persists.elim
  | ntLoad => exact persists.elim
  | store => exact persists.elim
  | storeMovq => exact persists.elim
  | loadMovq => exact persists.elim

theorem Family.Persists.stores (persists : family.Persists) (stamp : Word) : ∃ word, family.word stamp = some word := by
  cases family with
  | load => exact persists.elim
  | ntLoad => exact persists.elim
  | store => exact persists.elim
  | storeMovq => exact persists.elim
  | loadMovq => exact persists.elim
  | _ => exact ⟨_, rfl⟩

theorem Family.accesses_persist (persists : family.Persists) (aligned : 64 ∣ addr.toNat) (short : 64 * lines ≤ 2 ^ 64)
    (inside : byte ∈ Range.mk addr (64 * lines)) :
    ∃ earlier kind disp later, family.accesses lines = earlier ++ (kind, disp) :: later ∧
      (kind.event (addr + BitVec.ofNat 64 disp)).Persists (wordOf byte) ∧ ¬ Stored addr later byte := by
  obtain ⟨line, bound, within⟩ := (mem_pieces short).mp inside
  obtain ⟨earlier, kind, disp, later, split, flushes, unstored⟩ := Family.line_persists persists aligned within
  obtain ⟨before, behind, range⟩ := List.append_of_mem (List.mem_range.mpr bound)
  refine ⟨before.flatMap family.line ++ earlier, kind, disp, later ++ behind.flatMap family.line, ?_, flushes, ?_⟩
  · rw [Family.accesses, range, List.flatMap_append, List.flatMap_cons, split]
    simp
  · rw [stored_append]
    rintro (stored | stored)
    · exact unstored stored
    · obtain ⟨entry, member, stores⟩ := stored
      obtain ⟨other, inBehind, inLine⟩ := List.mem_flatMap.mp member
      obtain ⟨word, written⟩ := persists.stores 0
      have hit := (Family.line_stored written).mp ⟨entry, inLine, stores⟩
      have ordered := List.pairwise_lt_range (n := lines)
      rw [range] at ordered
      have after := (List.pairwise_cons.mp (List.pairwise_append.mp ordered).2.1).1 other inBehind
      have limit : other < lines := by
        rw [← List.mem_range, range]
        exact List.mem_append_right _ (List.mem_cons_of_mem _ inBehind)
      rw [Range.mem_iff] at hit within
      simp only at hit within
      bv_omega

theorem located (family : Family) (counter : Counter) (addr : Word) (earlier : List (Access × Nat)) (pre : List Instr)
    (core : Core) (memory : Memory) :
    (run counter (pre ++ (family.opening addr ++ TIMING_BEG ++ accessCode earlier)) core memory).own.gpr .rsi = addr := by
  rw [run_append rfl rfl]
  obtain ⟨begun, ran, ready, _⟩ := family.begins counter addr (run counter pre core memory).own
    (overwrite memory (run counter pre core memory).writes)
  obtain ⟨steady, _, _⟩ := accesses_run counter earlier begun (overwrite memory (run counter pre core memory).writes)
  rw [run_append_quiet ran rfl]
  exact steady.rsi.trans ready.rsi

theorem mfence_recorded {code : List Instr} (fenced : Instr.mfence ∈ code) (core : Core) (memory : Memory) :
    Event.mfence ∈ (run counter code core memory).events := by
  obtain ⟨before, behind, rfl⟩ := List.append_of_mem fenced
  rw [run_append rfl rfl]
  apply List.mem_append_right
  exact List.mem_cons_self

/-- Once its second stamp has been taken, what a call has stored is persistent, unless something has been stored
over it. -/
theorem call_settled (persists : family.Persists) (aligned : 64 ∣ addr.toNat) (short : 64 * lines ≤ 2 ^ 64)
    (inside : byte ∈ Range.mk addr (64 * lines)) {pre : List Instr}
    (length : (pre ++ family.timed lines addr ++ more).length = schedule.length)
    (crashed : (startScript (pre ++ family.timed lines addr ++ more ++ rest) core memory).Image persistence
      (scriptSteps (Instr.act counter)) schedule image)
    (quiet : ∀ core memory, (run counter more core memory).writes byte = none) :
    image byte = overwrite memory (run counter (pre ++ family.timed lines addr ++ more) core memory).writes byte := by
  obtain ⟨earlier, kind, disp, later, split, flushes, unstored⟩ := Family.accesses_persist persists aligned short inside
  have script : pre ++ family.timed lines addr ++ more =
      pre ++ (family.opening addr ++ TIMING_BEG ++ accessCode earlier) ++
        .access kind disp :: (accessCode later ++ ([.mfence, .rdtscp] ++ more)) := by
    simp [Family.timed, split, accessCode]
  have here := located family counter addr earlier pre core memory
  have behind := located family counter addr (earlier ++ [(kind, disp)]) pre core memory
  have code : pre ++ (family.opening addr ++ TIMING_BEG ++ accessCode (earlier ++ [(kind, disp)])) =
      pre ++ (family.opening addr ++ TIMING_BEG ++ accessCode earlier) ++ [.access kind disp] := by
    simp [accessCode]
  rw [code] at behind
  rw [script] at length crashed ⊢
  apply script_settled length crashed
  · refine ⟨kind.event (addr + BitVec.ofNat 64 disp), ?_, flushes⟩
    rw [resume, runScript_single]
    simp only [Instr.act, Core.address, here, List.mem_singleton]
  · refine ⟨.mfence, mfence_recorded ?_ _ _, trivial⟩
    simp
  · rw [resume, ← run, run_append rfl rfl, Action.followed_writes, run_append rfl rfl, Action.followed_writes, quiet,
      registers_unwritten (by simp), Option.none_or, Option.none_or]
    obtain ⟨_, _, unwritten⟩ := accesses_run counter later
      (run counter (pre ++ (family.opening addr ++ TIMING_BEG ++ accessCode earlier) ++ [.access kind disp]) core memory).own
      (overwrite memory (run counter
        (pre ++ (family.opening addr ++ TIMING_BEG ++ accessCode earlier) ++ [.access kind disp]) core memory).writes)
    rw [behind] at unwritten
    exact unwritten byte unstored

theorem fence_unflushed {event : Event} {start stop : Word} (stores : family = .store ∨ family = .storeMovq)
    (member : event ∈ family.events lines addr start stop) (word : Nat) : ¬ event.Persists word := by
  have fetched : ∀ entry ∈ family.fetched, ∀ address, ¬ (entry.1.event address).Persists word := by
    intro entry member address
    have loads : family.fetched = loadCacheLine := by
      rcases stores with rfl | rfl <;> rfl
    rw [loads] at member
    obtain ⟨_, _, rfl⟩ := List.mem_map.mp member
    exact id
  have stored : ∀ entry ∈ family.accesses lines, ∀ address, ¬ (entry.1.event address).Persists word := by
    intro entry member address
    obtain ⟨line, _, member⟩ := List.mem_flatMap.mp member
    rcases stores with rfl | rfl
    · rcases List.mem_pair.mp member with rfl | rfl <;> exact id
    · obtain ⟨_, _, rfl⟩ := List.mem_map.mp member
      exact id
  simp only [Family.events, Family.openingEvents, List.cons_append, List.append_assoc, List.mem_cons, List.mem_append,
    List.nil_append, List.not_mem_nil, or_false] at member
  rcases member with rfl | found | rfl | rfl | found | rfl | rfl
  · exact id
  · obtain ⟨entry, inFetched, rfl⟩ := List.mem_map.mp found
    exact fetched entry inFetched _
  · exact id
  · exact id
  · obtain ⟨entry, inAccesses, rfl⟩ := List.mem_map.mp found
    exact stored entry inAccesses _
  · exact id
  · exact id

end Call

/-! # One task -/

section Task

variable {family : Family} {lines count op : Nat} {buf byte : Word} {counter : Counter} {core : Core}
variable {memory image : Memory} {before rest part : List Instr} {schedule : List Unit}

/-- The script of a family's task. -/
abbrev Family.script (family : Family) (lines count : Nat) (buf : Word) : List Instr :=
  opsScript (family.code lines) (64 * lines) count buf

theorem script_split (family : Family) (lines : Nat) (buf : Word) (bound : op < count) :
    family.script lines count buf = family.script lines op buf ++ (family.code lines (blockAt buf (64 * lines) op) ++
      family.script lines (count - op - 1) (blockAt buf (64 * lines) (op + 1))) := by
  have whole : count = op + (1 + (count - op - 1)) := by omega
  rw [Family.script, whole, opsScript_add, opsScript_add, opsScript_one, blockAt_add]
  have same : op + (1 + (count - op - 1)) - op - 1 = count - op - 1 := by omega
  rw [same]

/-- Operations on other blocks. -/
theorem script_unwritten (few : 1 ≤ lines ∧ lines ≤ 4) (counter : Counter) (core : Core) (memory : Memory)
    (elsewhere : ∀ op < count, byte ∉ Range.mk (blockAt buf (64 * lines) op) (64 * lines)) :
    (run counter (family.script lines count buf) core memory).writes byte = none := by
  have ops := runTask_ops counter count buf core memory (show Task.Short (some (family, lines)) from few)
  rw [Family.script, run_opsScript]
  exact ops.unwritten byte fun op bound => Family.writes_outside (elsewhere op bound)

theorem other_block (fits : 64 * lines * count ≤ 2 ^ 64) (positive : 1 ≤ lines) (bound : op < count)
    (inside : byte ∈ Range.mk (blockAt buf (64 * lines) op) (64 * lines)) {other : Nat} (bound' : other < count)
    (different : other ≠ op) : byte ∉ Range.mk (blockAt buf (64 * lines) other) (64 * lines) := by
  intro inside'
  have wide : 0 < 64 * lines := Nat.mul_pos (by decide) positive
  exact different (((mem_block fits bound' wide).mp inside').symm.trans ((mem_block fits bound wide).mp inside))

/-- What a task does behind the second stamp of an operation. -/
def Family.behind (family : Family) (lines count op : Nat) (buf : Word) : List Instr :=
  TIMING_END.drop 2 ++ family.script lines (count - op - 1) (blockAt buf (64 * lines) (op + 1))

theorem script_timed (family : Family) (lines : Nat) (buf : Word) (bound : op < count) :
    family.script lines count buf = family.script lines op buf ++
      (family.timed lines (blockAt buf (64 * lines) op) ++ family.behind lines count op buf) := by
  rw [script_split family lines buf bound, code_timed, Family.behind, List.append_assoc]

/-- The operations before one, and those behind it, leave its block alone. -/
theorem script_spares (few : 1 ≤ lines ∧ lines ≤ 4) (fits : 64 * lines * count ≤ 2 ^ 64) (bound : op < count)
    (inside : byte ∈ Range.mk (blockAt buf (64 * lines) op) (64 * lines)) (counter : Counter) (core : Core) (memory : Memory) :
    (run counter (family.script lines op buf) core memory).writes byte = none ∧
    (run counter (family.behind lines count op buf) core memory).writes byte = none := by
  apply And.intro
  · apply script_unwritten few
    intro other below
    exact other_block fits few.1 bound inside (Nat.lt_trans below bound) (Nat.ne_of_lt below)
  · have pure : ∀ instr ∈ TIMING_END.drop 2, ∀ kind disp, instr ≠ .access kind disp := by
      intro instr member kind disp
      rintro rfl
      simp [TIMING_END] at member
    rw [Family.behind, run_append rfl rfl, Action.followed_writes, registers_unwritten pure, Option.or_none]
    apply script_unwritten few
    intro other below
    rw [blockAt_add]
    exact other_block fits few.1 bound inside (by omega) (by omega)

/-- `mfence` waits for the stores of a call, and brings nothing to persistent memory: a crash at any moment of a task
that does not flush, its end included, may leave all as it was before the task. -/
theorem fence_task_crash (stores : family = .store ∨ family = .storeMovq) (few : 1 ≤ lines ∧ lines ≤ 4) (counter : Counter)
    (core : Core) (memory : Memory) :
    let start := startScript (family.script lines count buf) core memory
    let steps := scriptSteps (Instr.act counter)
    start.EveryOrderEnds steps ∧
    ∀ schedule now, Pool.interleave steps start schedule = some now → start.Image persistence steps schedule memory := by
  intro start steps
  refine ⟨script_everyOrderEnds _ _ core memory, fun schedule now ran => ?_⟩
  obtain ⟨before, rest, split, length, rfl⟩ := interleave_script.mp ran
  have ops := runTask_ops counter count buf core memory (show Task.Short (some (family, lines)) from few)
  have unflushed : ∀ event ∈ (run counter (family.script lines count buf) core memory).events, ∀ word, ¬ event.Persists word := by
    intro event member word
    rw [run_opsScript] at member
    change event ∈ (runTask counter count buf (some (family, lines)) core memory).2.events at member
    rw [ops.events] at member
    obtain ⟨op, _, found⟩ := List.mem_flatMap.mp member
    exact fence_unflushed stores found word
  simp only [start, split]
  apply script_image_start length
  intro word settled
  obtain ⟨earlier, flush, middle, fence, later, recorded, flushes, _⟩ := settled
  apply unflushed flush _ word flushes
  rw [split, run_append rfl rfl]
  apply List.mem_append_left
  rw [run, recorded]
  simp

theorem fence_task_crash_two :
    let start := startScript (Family.storeMovq.script 4 2 0x1000) ⟨fun _ => 0, fun _ _ => 0, 3, 0, 0⟩ fun _ => 7
    let steps := scriptSteps (Instr.act stoppingCounter)
    start.EveryOrderEnds steps ∧
    ∀ schedule now, Pool.interleave steps start schedule = some now → start.Image persistence steps schedule fun _ => 7 :=
  fence_task_crash (.inr rfl) (by decide) stoppingCounter ⟨fun _ => 0, fun _ _ => 0, 3, 0, 0⟩ fun _ => 7

end Task

/-! # All tasks -/

def tasksScript (count : Nat) (m : Word) (all : List Task) : List Instr :=
  all.flatMap fun task => opsScript task.func task.skip count m

/-- The script of all measurements of latency_job. -/
def jobScript (aepSupported : Bool) (m : Word) : List Instr := tasksScript LATENCY_OPS_COUNT m (measuredTasks aepSupported)

section Tasks

variable {family : Family} {lines count : Nat} {m byte : Word} {counter : Counter} {core : Core}
variable {memory image : Memory} {earlier later all : List Task} {schedule : List Unit}

theorem run_tasksScript (counter : Counter) (count : Nat) (m : Word) (all : List Task) (core : Core) (memory : Memory) :
    run counter (tasksScript count m all) core memory = (runTasks counter count m all core memory).2 := by
  induction all generalizing core memory with
  | nil => rfl
  | cons task later ih =>
      rw [tasksScript, List.flatMap_cons, run_append rfl rfl, run_opsScript, ← tasksScript, ih]
      rfl

/-- When all tasks have been run, what a task has brought to persistent memory stays there, if no later task stores. -/
theorem tasks_settled (persists : family.Persists) (short : ∀ task ∈ earlier ++ some (family, lines) :: later, task.Short)
    (aligned : 64 ∣ m.toNat) (fits : count ≤ 2 ^ 56) (spares : ∀ task ∈ later, task.Spares count m byte)
    (inside : (byte - m).toNat < 64 * lines * count)
    (length : (tasksScript count m (earlier ++ some (family, lines) :: later)).length = schedule.length)
    (crashed : (startScript (tasksScript count m (earlier ++ some (family, lines) :: later)) core memory).Image persistence
      (scriptSteps (Instr.act counter)) schedule image) :
    image byte = overwrite memory
      (run counter (tasksScript count m (earlier ++ some (family, lines) :: later)) core memory).writes byte := by
  have few : 1 ≤ lines ∧ lines ≤ 4 := short _ (List.mem_append_right _ List.mem_cons_self)
  have product : lines * count ≤ 4 * count := Nat.mul_le_mul_right count few.2
  have room : 64 * lines * count ≤ 2 ^ 64 := by
    rw [Nat.mul_assoc]
    omega
  have positive : 0 < 64 * lines := Nat.mul_pos (by decide) few.1
  have bound : (byte - m).toNat / (64 * lines) < count := by
    rw [Nat.div_lt_iff_lt_mul positive, Nat.mul_comm]
    exact inside
  have within := (mem_block room bound positive).mpr rfl
  have block : 64 ∣ (blockAt m (64 * lines) ((byte - m).toNat / (64 * lines))).toNat := by
    rw [blockAt, BitVec.toNat_add, BitVec.toNat_ofNat, Nat.mul_assoc]
    omega
  generalize (byte - m).toNat / (64 * lines) = op at *
  have split : tasksScript count m (earlier ++ some (family, lines) :: later) =
      tasksScript count m earlier ++ family.script lines op m ++ family.timed lines (blockAt m (64 * lines) op) ++
        (family.behind lines count op m ++ tasksScript count m later) := by
    have task : opsScript (Task.func (some (family, lines))) (Task.skip (some (family, lines))) count m = _ :=
      script_timed family lines m bound
    simp [tasksScript, task]
  have fewLater : ∀ task ∈ later, task.Short := fun task member =>
    short task (List.mem_append_right _ (List.mem_cons_of_mem _ member))
  have quiet (core : Core) (memory : Memory) :
      (run counter (family.behind lines count op m ++ tasksScript count m later) core memory).writes byte = none := by
    rw [run_append rfl rfl, Action.followed_writes, run_tasksScript, runTasks_spared fewLater fits spares, Option.none_or]
    exact (script_spares few room bound within counter core memory).2
  rw [split] at length crashed ⊢
  rw [← List.append_nil (_ ++ (family.behind lines count op m ++ _))] at crashed
  exact call_settled persists block (by omega) within length crashed quiet

/-- A crash behind the last task leaves in persistent memory what the tasks have left in memory. -/
theorem latencyMeasurements_crash (aepSupported : Bool) (aligned : 64 ∣ m.toNat) (counter : Counter) (core : Core)
    (memory : Memory) :
    let start := startScript (jobScript aepSupported m) core memory
    let steps := scriptSteps (Instr.act counter)
    start.EveryOrderEnds steps ∧
    ∀ schedule done image, Pool.Complete steps start schedule done → start.Image persistence steps schedule image →
      image = overwrite memory (latencyMeasurements counter aepSupported m core memory).2.writes ∧ image = done.store := by
  intro start steps
  refine ⟨script_everyOrderEnds _ _ core memory, fun schedule done image complete crashed => ?_⟩
  have fits : LATENCY_OPS_COUNT ≤ 2 ^ 56 := by decide
  obtain ⟨before, rest, split, length, rfl⟩ := interleave_script.mp complete.ran
  have all : before = jobScript aepSupported m := by
    cases rest with
    | nil => rw [split, List.append_nil]
    | cons instr rest => exact absurd (complete.ended ()) (Option.some_ne_none _)
  have same : image = overwrite memory (run counter (jobScript aepSupported m) core memory).writes := by
    funext byte
    by_cases inside : (byte - m).toNat < LATENCY_OPS_COUNT * 256
    · rw [all] at length
      cases aepSupported with
      | false =>
          have last : measuredTasks false =
              (measuredTasks false).take 22 ++ some (.storeClflushMovq, 4) :: [some (.loadMovq, 4), none] := rfl
          rw [jobScript, last] at length ⊢
          simp only [start, jobScript] at crashed
          rw [last] at crashed
          apply tasks_settled (show Family.storeClflushMovq.Persists from trivial) (last ▸ measuredTasks_short false) aligned fits _ _ length crashed
          · intro task member
            rcases List.mem_pair.mp member with rfl | rfl
            · exact .inl fun _ => rfl
            · trivial
          · rw [Nat.mul_comm]
            exact inside
      | true =>
          have last : measuredTasks true = (measuredTasks true).take 24 ++ some (.storeClwb, 4) :: [] := rfl
          rw [jobScript, last] at length ⊢
          simp only [start, jobScript] at crashed
          rw [last] at crashed
          apply tasks_settled (show Family.storeClwb.Persists from trivial) (last ▸ measuredTasks_short true) aligned fits _ _ length crashed
          · exact fun _ member => absurd member List.not_mem_nil
          · rw [Nat.mul_comm]
            exact inside
    · have spares := latencyMeasurements_spared aepSupported inside
      have unwritten : (run counter (jobScript aepSupported m) core memory).writes byte = none := by
        rw [jobScript, run_tasksScript]
        exact runTasks_spared (measuredTasks_short aepSupported) fits spares
      rw [overwrite_untouched unwritten]
      simp only [start, split] at crashed
      obtain ⟨reached, later, shorter, _, held⟩ := script_image length crashed (wordOf byte)
      have part : reached <+: jobScript aepSupported m := ⟨later, by rw [← shorter, all]⟩
      rw [held byte rfl]
      exact overwrite_untouched (prefix_unwritten part unwritten)
  apply And.intro
  · rw [same, jobScript, run_tasksScript, latencyMeasurements_runTasks]
  · rw [same, underway_store, all]

theorem latencyMeasurements_crash_page :
    let core : Core := ⟨fun _ => 0, fun _ _ => 0, 3, 0, 0⟩
    let start := startScript (jobScript true 0x1000) core fun _ => 7
    let steps := scriptSteps (Instr.act stoppingCounter)
    start.EveryOrderEnds steps ∧
    ∀ schedule done image, Pool.Complete steps start schedule done → start.Image persistence steps schedule image →
      image = overwrite (fun _ => 7) (latencyMeasurements stoppingCounter true 0x1000 core fun _ => 7).2.writes ∧
        image = done.store :=
  @latencyMeasurements_crash 0x1000 true (by decide) stoppingCounter ⟨fun _ => 0, fun _ _ => 0, 3, 0, 0⟩ fun _ => 7

end Tasks

end RwSep.Latency
