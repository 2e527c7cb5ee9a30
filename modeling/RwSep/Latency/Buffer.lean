import RwSep.Latency.Job

namespace RwSep.Latency

open RwSep.Data RwSep.Execution
open RwSep.X86 (Reg Memory lineOf storeBytes)
open RwSep.Benchmark (LATENCY_OPS_COUNT)

/-! Where in its buffer latency_job reads and writes, and what it leaves there. -/

def Event.range : Event → Option Range
  | .load address size => some ⟨address, size⟩
  | .ntLoad address => some ⟨address, 32⟩
  | .store address size => some ⟨address, size⟩
  | .ntStore address => some ⟨address, 32⟩
  | .clflush address => some ⟨address, 1⟩
  | .clflushopt address => some ⟨address, 1⟩
  | .clwb address => some ⟨address, 1⟩
  | .mfence => none
  | .rdtscp _ => none

/-- `vmovdqa`, `vmovntpd` and `vmovntdqa` fault on other addresses. -/
def Event.Aligned : Event → Prop
  | .load address size => size = 32 → 32 ∣ address.toNat
  | .ntLoad address => 32 ∣ address.toNat
  | .store address size => size = 32 → 32 ∣ address.toNat
  | .ntStore address => 32 ∣ address.toNat
  | _ => True

def Access.size : Access → Nat
  | .vmovdqa => 32
  | .vmovntpd => 32
  | .movq => 8
  | .vmovdqaLoad _ => 32
  | .vmovntdqaLoad _ => 32
  | .movqLoad => 8
  | .clflush => 1
  | .clflushopt => 1
  | .clwb => 1

/-- An event of a call: within 256 bytes of its argument, aligned if the argument is. -/
structure Event.Near (addr : Word) (event : Event) : Prop where
  inside : ∀ range, event.range = some range → range.Inside ⟨addr, 256⟩
  aligned : 64 ∣ addr.toNat → event.Aligned

section Near

variable {addr start stop : Word} {family : Family} {lines line : Nat} {entry : Access × Nat} {event : Event}

/-- An access that ends within 256 bytes, a vector access at a multiple of its size. -/
structure Fitting (entry : Access × Nat) : Prop where
  room : entry.2 + entry.1.size ≤ 256
  vector : entry.1.size = 32 → 32 ∣ entry.2

instance (entry : Access × Nat) : Decidable (Fitting entry) :=
  decidable_of_iff (entry.2 + entry.1.size ≤ 256 ∧ (entry.1.size = 32 → 32 ∣ entry.2))
    ⟨fun both => ⟨both.1, both.2⟩, fun fitting => ⟨fitting.room, fitting.vector⟩⟩

theorem Access.event_range (kind : Access) (address : Word) : (kind.event address).range = some ⟨address, kind.size⟩ := by
  cases kind <;> rfl

theorem offset_aligned {disp : Nat} (aligned : 64 ∣ addr.toNat) (multiple : 32 ∣ disp) :
    32 ∣ (addr + BitVec.ofNat 64 disp).toNat := by
  rw [BitVec.toNat_add, BitVec.toNat_ofNat]
  omega

theorem Fitting.near (fitting : Fitting entry) : Event.Near addr (entry.1.event (addr + BitVec.ofNat 64 entry.2)) where
  inside range found := by
    rw [Access.event_range] at found
    cases found
    exact Range.inside_of_offset ⟨addr, 256⟩ fitting.room (by simp)
  aligned aligned := by
    obtain ⟨kind, disp⟩ := entry
    have vector := fitting.vector
    cases kind with
    | vmovdqa => exact fun _ => offset_aligned aligned (vector rfl)
    | vmovntpd => exact offset_aligned aligned (vector rfl)
    | movq => exact fun word => absurd word (by decide)
    | vmovdqaLoad dst => exact fun _ => offset_aligned aligned (vector rfl)
    | vmovntdqaLoad dst => exact offset_aligned aligned (vector rfl)
    | movqLoad => exact fun word => absurd word (by decide)
    | _ => trivial

theorem fetched_fitting (family : Family) : ∀ entry ∈ family.fetched, Fitting entry := by
  cases family <;> decide

theorem accesses_fitting (family : Family) (few : lines ≤ 4) : ∀ entry ∈ family.accesses lines, Fitting entry := by
  have four : ∀ entry ∈ family.accesses 4, Fitting entry := by
    cases family <;> decide
  intro entry member
  obtain ⟨line, inRange, member⟩ := List.mem_flatMap.mp member
  rw [List.mem_range] at inRange
  exact four entry (List.mem_flatMap.mpr ⟨line, List.mem_range.mpr (by omega), member⟩)

theorem near_accesses {accesses : List (Access × Nat)} (fitting : ∀ entry ∈ accesses, Fitting entry)
    (member : event ∈ accessEvents addr accesses) : event.Near addr := by
  obtain ⟨entry, inAccesses, rfl⟩ := List.mem_map.mp member
  exact (fitting entry inAccesses).near

theorem near_mfence : Event.Near addr .mfence := ⟨fun _ found => absurd found (by simp [Event.range]), fun _ => trivial⟩

theorem near_rdtscp {stamp : Word} : Event.Near addr (.rdtscp stamp) :=
  ⟨fun _ found => absurd found (by simp [Event.range]), fun _ => trivial⟩

theorem Task.near {task : Task} (short : task.Short) (member : event ∈ task.events addr start stop) : event.Near addr := by
  cases task with
  | none =>
      simp only [Task.events, List.mem_cons, List.not_mem_nil, or_false] at member
      rcases member with rfl | rfl | rfl
      · exact near_rdtscp
      · exact near_mfence
      · exact near_rdtscp
  | some entry =>
      obtain ⟨family, lines⟩ := entry
      simp only [Task.events, Family.events, Family.openingEvents, List.cons_append, List.append_assoc, List.mem_cons,
        List.mem_append, List.nil_append, List.not_mem_nil, or_false] at member
      rcases member with rfl | fetched | rfl | rfl | accessed | rfl | rfl
      · exact near_mfence
      · exact near_accesses (fetched_fitting family) fetched
      · exact near_mfence
      · exact near_rdtscp
      · exact near_accesses (accesses_fitting family short.2) accessed
      · exact near_mfence
      · exact near_rdtscp

end Near

section Footprint

variable {counter : Counter} {count : Nat} {m : Word} {core : Core} {memory : Memory} {all : List Task} {event : Event}

theorem runTasks_events (short : ∀ task ∈ all, task.Short)
    (member : event ∈ (runTasks counter count m all core memory).2.events) :
    ∃ task ∈ all, ∃ op < count, ∃ start stop, event ∈ task.events (blockAt m task.skip op) start stop := by
  induction all generalizing core memory with
  | nil => exact absurd member List.not_mem_nil
  | cons task later ih =>
      have ops := runTask_ops counter count m core memory (short task List.mem_cons_self)
      rw [runTasks_cons] at member
      simp only [Action.followed, List.mem_append] at member
      rcases member with here | behind
      · rw [ops.events] at here
        obtain ⟨op, inRange, found⟩ := List.mem_flatMap.mp here
        exact ⟨task, List.mem_cons_self, op, List.mem_range.mp inRange, _, _, found⟩
      · obtain ⟨other, member, found⟩ := ih (fun task member => short task (List.mem_cons_of_mem _ member)) behind
        exact ⟨other, List.mem_cons_of_mem _ member, found⟩

/-- The last block of a task may be read beyond its own bytes, but not beyond the buffer. -/
theorem block_inside {task : Task} (short : task.Short) {op : Nat} (bound : op < count) :
    64 * (op * task.skip / 64) = op * task.skip ∧ task.skip * op + 256 ≤ count * 256 := by
  cases task with
  | none => simp only [Task.skip]; omega
  | some entry =>
      obtain ⟨family, lines⟩ := entry
      have few : lines ≤ 4 := short.2
      have product : lines * op ≤ 4 * op := Nat.mul_le_mul_right op few
      have split : 64 * lines * op = 64 * (lines * op) := Nat.mul_assoc ..
      simp only [Task.skip]
      rw [Nat.mul_comm op, split]
      omega

/-- All calls of all tasks stay in the buffer of `LATENCY_OPS_COUNT * 256` bytes, and in an aligned one no vector
access faults. -/
theorem latencyMeasurements_inside (counter : Counter) (aepSupported : Bool) (m : Word) (core : Core) (memory : Memory) :
    ∀ event ∈ (latencyMeasurements counter aepSupported m core memory).2.events,
      (∀ range, event.range = some range → range.Inside ⟨m, LATENCY_OPS_COUNT * 256⟩) ∧
      (64 ∣ m.toNat → event.Aligned) := by
  intro event member
  rw [latencyMeasurements_runTasks] at member
  obtain ⟨task, inTasks, op, bound, start, stop, found⟩ := runTasks_events (measuredTasks_short aepSupported) member
  have short := measuredTasks_short aepSupported task inTasks
  have near := Task.near short found
  obtain ⟨whole, room⟩ := block_inside short bound
  have fits : LATENCY_OPS_COUNT * 256 < 2 ^ 64 := by decide
  have block : (Range.mk (blockAt m task.skip op) 256).Inside ⟨m, LATENCY_OPS_COUNT * 256⟩ :=
    Range.inside_of_offset ⟨m, LATENCY_OPS_COUNT * 256⟩ room fits
  refine ⟨fun range located => (near.inside range located).trans block fits, fun aligned => near.aligned ?_⟩
  rw [blockAt, BitVec.toNat_add, BitVec.toNat_ofNat, Nat.mul_comm task.skip, ← whole]
  omega

/-- The last store of `store_256byte_fence` to the last block. -/
theorem latencyMeasurements_inside_last : ∃ events,
    (latencyMeasurements stoppingCounter true 0x1000 ⟨fun _ => 0, fun _ _ => 0, 3, 0, 0⟩ fun _ => 7).2.events = events ∧
      Event.store (blockAt 0x1000 256 1048575 + 224) 32 ∈ events ∧
      (Range.mk (blockAt 0x1000 256 1048575 + 224) 32).Inside ⟨0x1000, LATENCY_OPS_COUNT * 256⟩ ∧
      (Event.store (blockAt 0x1000 256 1048575 + 224) 32).Aligned := by
  have bound : 1048575 < LATENCY_OPS_COUNT := by decide
  obtain ⟨before, start, stop, after, recorded⟩ := @runTasks_call stoppingCounter LATENCY_OPS_COUNT 4 1048575 0x1000
    ⟨fun _ => 0, fun _ _ => 0, 3, 0, 0⟩ (fun _ => 7) (measuredTasks true) .store (measuredTasks_short true) (by decide) bound
  rw [← latencyMeasurements_runTasks] at recorded
  have stored : Event.store (blockAt 0x1000 256 1048575 + 224) 32 ∈
      Family.events .store 4 (blockAt 0x1000 256 1048575) start stop := by
    simp [Family.events, Family.accesses, Family.line, storeLine, accessEvents, Access.event, List.range_succ]
  have member := List.mem_append_left after (List.mem_append_right before stored)
  rw [← recorded] at member
  obtain ⟨inside, aligned⟩ := latencyMeasurements_inside stoppingCounter true 0x1000 ⟨fun _ => 0, fun _ _ => 0, 3, 0, 0⟩
    (fun _ => 7) _ member
  exact ⟨_, rfl, member, inside _ rfl, aligned (by decide)⟩

end Footprint

/-! # What the tasks leave -/

/-- What a task of a family stores to a byte: the copies of a word in the block of each operation. -/
def Family.filled (family : Family) (lines : Nat) (counter : Counter) (first count : Nat) (buf byte : Word) : Option Byte :=
  let offset := (byte - buf).toNat
  if offset < 64 * lines * count then
    (family.word (startStamp counter first (offset / (64 * lines)))).map fun word => word.byte (offset % 8)
  else none

section Memory

variable {counter : Counter} {first count op lines skip : Nat} {buf m byte addr stamp : Word} {family : Family}
variable {core : Core} {memory : Memory} {all earlier later : List Task} {task : Task}

theorem mem_block (fits : skip * count ≤ 2 ^ 64) (bound : op < count) (positive : 0 < skip) :
    byte ∈ Range.mk (blockAt buf skip op) skip ↔ (byte - buf).toNat / skip = op := by
  have room : skip * (op + 1) ≤ skip * count := Nat.mul_le_mul_left skip bound
  rw [Nat.mul_succ] at room
  rw [Nat.div_eq_iff positive, Range.mem_iff, blockAt, Nat.mul_comm op]
  generalize skip * op = start at *
  simp only
  bv_omega

theorem Family.writes_outside (outside : byte ∉ Range.mk addr (64 * lines)) : family.writes lines addr stamp byte = none := by
  rw [Family.writes]
  cases family.word stamp with
  | none => rfl
  | some word => exact if_neg outside

theorem Family.writes_inside (inside : byte ∈ Range.mk addr (64 * lines)) :
    family.writes lines addr stamp byte = (family.word stamp).map fun word => word.byte ((byte - addr).toNat % 8) := by
  rw [Family.writes]
  cases family.word stamp with
  | none => rfl
  | some word => exact if_pos inside

theorem task_filled (few : 1 ≤ lines ∧ lines ≤ 4) (fits : 64 * lines * count ≤ 2 ^ 64) (counter : Counter) (m : Word)
    (core : Core) (memory : Memory) (byte : Word) :
    (runTask counter count m (some (family, lines)) core memory).2.writes byte =
      family.filled lines counter core.stamps count m byte := by
  have ops := runTask_ops counter count m core memory (show Task.Short (some (family, lines)) from few)
  have positive : 0 < 64 * lines := Nat.mul_pos (by decide) few.1
  have elsewhere (op : Nat) (bound : op < count) (different : (byte - m).toNat / (64 * lines) ≠ op) :
      family.writes lines (blockAt m (64 * lines) op) (startStamp counter core.stamps op) byte = none :=
    Family.writes_outside fun inside => different ((mem_block fits bound positive).mp inside)
  simp only [Family.filled]
  split
  · rename_i inBuffer
    have bound : (byte - m).toNat / (64 * lines) < count := by
      rw [Nat.div_lt_iff_lt_mul positive, Nat.mul_comm]
      exact inBuffer
    have single := ops.single byte _ bound fun other inRange different => elsewhere other inRange (Ne.symm different)
    have here : byte ∈ Range.mk (blockAt m (64 * lines) ((byte - m).toNat / (64 * lines))) (64 * lines) :=
      (mem_block fits bound positive).mpr rfl
    rw [single]
    simp only [Task.writes, Task.skip]
    rw [Family.writes_inside here, blockAt, displaced (Nat.dvd_mul_right_of_dvd (Nat.dvd_mul_right_of_dvd (by decide) _) _)]
  · rename_i outside
    apply ops.unwritten byte
    intro op bound
    apply elsewhere op bound
    intro same
    apply outside
    rw [← Nat.mul_comm count, ← Nat.div_lt_iff_lt_mul positive, same]
    exact bound

/-- Nothing of the task is stored to the byte. -/
def Task.Spares (task : Task) (count : Nat) (m byte : Word) : Prop :=
  match task with
  | some (family, lines) => (∀ stamp, family.word stamp = none) ∨ ¬ (byte - m).toNat < 64 * lines * count
  | none => True

theorem runTask_spared (short : task.Short) (fits : count ≤ 2 ^ 56) (spares : task.Spares count m byte) :
    (runTask counter count m task core memory).2.writes byte = none := by
  cases task with
  | none => exact (runTask_ops counter count m core memory short).unwritten byte fun _ _ => rfl
  | some entry =>
      obtain ⟨family, lines⟩ := entry
      have few : lines * count ≤ 4 * count := Nat.mul_le_mul_right count short.2
      rw [task_filled short (by rw [Nat.mul_assoc]; omega)]
      rcases spares with loads | outside
      · simp only [Family.filled, loads, Option.map_none, ite_self]
      · exact if_neg outside

theorem runTasks_spared (short : ∀ task ∈ all, task.Short) (fits : count ≤ 2 ^ 56)
    (spares : ∀ task ∈ all, task.Spares count m byte) :
    (runTasks counter count m all core memory).2.writes byte = none := by
  induction all generalizing core memory with
  | nil => rfl
  | cons task later ih =>
      rw [runTasks_cons]
      apply Option.or_eq_none_iff.mpr
      exact ⟨ih (fun task member => short task (List.mem_cons_of_mem _ member))
          fun task member => spares task (List.mem_cons_of_mem _ member),
        runTask_spared (short task List.mem_cons_self) fits (spares task List.mem_cons_self)⟩

/-- The last task that stores to a byte decides it. -/
theorem runTasks_last {lines : Nat} {value : Byte} (short : ∀ task ∈ earlier ++ some (family, lines) :: later, task.Short)
    (fits : count ≤ 2 ^ 56) (spares : ∀ task ∈ later, task.Spares count m byte)
    (stores : family.filled lines counter (core.stamps + 2 * (count * earlier.length)) count m byte = some value) :
    (runTasks counter count m (earlier ++ some (family, lines) :: later) core memory).2.writes byte = some value := by
  have few := short _ (List.mem_append_right _ List.mem_cons_self)
  have product : lines * count ≤ 4 * count := Nat.mul_le_mul_right count few.2
  have stamps := runTasks_stamps counter count m core memory fun task member => short task (List.mem_append_left _ member)
  have quiet (core : Core) (memory : Memory) : (runTasks counter count m later core memory).2.writes byte = none :=
    runTasks_spared (fun task member => short task (List.mem_append_right _ (List.mem_cons_of_mem _ member))) fits spares
  rw [runTasks_append]
  simp only [runTasks_cons, Action.followed_writes]
  rw [quiet, Option.none_or, task_filled few (by rw [Nat.mul_assoc]; omega), stamps, stores, Option.some_or]

/-- What the last task to store to the buffer leaves at an offset: `store_clflush_256` with `movq` stores the high half
of the stamp that its call started with, `store_clwb_256` the value. -/
def lastWord (aepSupported : Bool) (counter : Counter) (first offset : Nat) : Word :=
  if aepSupported then value else high (startStamp counter first (LATENCY_OPS_COUNT * 22 + offset / 256))

theorem filled_clflushMovq {first : Nat} (inside : (byte - m).toNat < LATENCY_OPS_COUNT * 256) :
    Family.filled .storeClflushMovq 4 counter (first + 2 * (LATENCY_OPS_COUNT * 22)) LATENCY_OPS_COUNT m byte =
      some ((lastWord false counter first (byte - m).toNat).byte ((byte - m).toNat % 8)) := by
  have place : startStamp counter (first + 2 * (LATENCY_OPS_COUNT * 22)) ((byte - m).toNat / 256) =
      startStamp counter first (LATENCY_OPS_COUNT * 22 + (byte - m).toNat / 256) := by
    rw [startStamp, startStamp, Nat.mul_add, Nat.add_assoc]
  simp only [Family.filled, Family.word, Option.map_some, Nat.reduceMul]
  rw [Nat.mul_comm 256, if_pos inside, place]
  rfl

theorem filled_clwb {first : Nat} (inside : (byte - m).toNat < LATENCY_OPS_COUNT * 256) :
    Family.filled .storeClwb 4 counter (first + 2 * (LATENCY_OPS_COUNT * 24)) LATENCY_OPS_COUNT m byte =
      some ((lastWord true counter first (byte - m).toNat).byte ((byte - m).toNat % 8)) := by
  simp only [Family.filled, Family.word, Option.map_some, Nat.reduceMul]
  rw [Nat.mul_comm 256, if_pos inside]
  rfl

/-- No task stores outside the buffer. -/
theorem latencyMeasurements_spared (aepSupported : Bool) (outside : ¬ (byte - m).toNat < LATENCY_OPS_COUNT * 256) :
    ∀ task ∈ measuredTasks aepSupported, task.Spares LATENCY_OPS_COUNT m byte := by
  intro task member
  have short := measuredTasks_short aepSupported task member
  cases task with
  | none => trivial
  | some entry =>
      obtain ⟨family, lines⟩ := entry
      have few : lines ≤ 4 := short.2
      have product : lines * LATENCY_OPS_COUNT ≤ 4 * LATENCY_OPS_COUNT := Nat.mul_le_mul_right _ few
      exact .inr (by rw [Nat.mul_assoc]; omega)

/-- After all tasks every word of the buffer is that of the last task that stores, all else is as before. -/
theorem latencyMeasurements_memory (counter : Counter) (aepSupported : Bool) (m : Word) (core : Core) (memory : Memory)
    (byte : Word) :
    overwrite memory (latencyMeasurements counter aepSupported m core memory).2.writes byte =
      if (byte - m).toNat < LATENCY_OPS_COUNT * 256 then
        (lastWord aepSupported counter core.stamps (byte - m).toNat).byte ((byte - m).toNat % 8)
      else memory byte := by
  have fits : LATENCY_OPS_COUNT ≤ 2 ^ 56 := by decide
  rw [latencyMeasurements_runTasks]
  split
  · rename_i inside
    apply overwrite_touched
    cases aepSupported with
    | false =>
        have split : measuredTasks false =
            (measuredTasks false).take 22 ++ some (.storeClflushMovq, 4) :: [some (.loadMovq, 4), none] := rfl
        rw [split]
        apply runTasks_last (split ▸ measuredTasks_short false) fits _ (filled_clflushMovq inside)
        intro task member
        rcases List.mem_pair.mp member with rfl | rfl
        · exact .inl fun _ => rfl
        · trivial
    | true =>
        have split : measuredTasks true = (measuredTasks true).take 24 ++ some (.storeClwb, 4) :: [] := rfl
        rw [split]
        exact runTasks_last (split ▸ measuredTasks_short true) fits (fun _ member => absurd member List.not_mem_nil)
          (filled_clwb inside)
  · rename_i outside
    apply overwrite_untouched
    exact runTasks_spared (measuredTasks_short aepSupported) fits (latencyMeasurements_spared aepSupported outside)

end Memory

end RwSep.Latency
