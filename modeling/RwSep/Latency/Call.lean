import RwSep.Latency.Functions

namespace RwSep.Latency

open RwSep.Data RwSep.Execution
open RwSep.X86 (Reg Memory lineOf storeBytes)

/-! What a call of a latency function stores, records and returns, from any registers. -/

variable {counter : Counter} {core : Core} {memory : Memory} {addr stamp byte : Word} {family : Family} {lines : Nat}

theorem run_append {first second : List Instr} {done later : Action Core Word Byte Event}
    (ran : run counter first core memory = done)
    (ran' : run counter second done.own (overwrite memory done.writes) = later) :
    run counter (first ++ second) core memory = done.followed later := by
  rw [run, runScript_append, resume, ← run, ran]
  exact congrArg done.followed ran'

theorem run_append_quiet {first second : List Instr} {middle : Core} {events : List Event}
    {later : Action Core Word Byte Event} (ran : run counter first core memory = ⟨middle, fun _ => none, events⟩)
    (ran' : run counter second middle memory = later) :
    run counter (first ++ second) core memory = ⟨later.own, later.writes, events ++ later.events⟩ := by
  rw [run_append ran ran']
  simp [Action.followed]

/-- Code that writes nothing and does not read the time stamp counter. -/
structure Quiet (counter : Counter) (code : List Instr) (core : Core) (memory : Memory) (after : Core)
    (events : List Event) : Prop where
  run : run counter code core memory = ⟨after, fun _ => none, events⟩
  stamps : after.stamps = core.stamps

theorem Quiet.append {first second : List Instr} {middle after : Core} {events later : List Event}
    (left : Quiet counter first core memory middle events) (right : Quiet counter second middle memory after later) :
    Quiet counter (first ++ second) core memory after (events ++ later) where
  run := run_append left.run right.run
  stamps := right.stamps.trans left.stamps

theorem quiet_accesses {accesses : List (Access × Nat)} (counter : Counter) (core : Core) (memory : Memory)
    (unstored : ∀ byte, ¬ Stored (core.gpr .rsi) accesses byte) :
    ∃ after, Quiet counter (accessCode accesses) core memory after (accessEvents (core.gpr .rsi) accesses) ∧
      Steady core after := by
  obtain ⟨steady, events, unwritten⟩ := accesses_run counter accesses core memory
  refine ⟨_, ⟨?_, steady.stamps⟩, steady⟩
  have writes : (run counter (accessCode accesses) core memory).writes = fun _ => none :=
    funext fun byte => unwritten byte (unstored byte)
  rw [← writes, ← events]

theorem quiet_mfence (counter : Counter) (core : Core) (memory : Memory) :
    Quiet counter [.mfence] core memory core [.mfence] := ⟨rfl, rfl⟩

theorem quiet_clearPipeline (counter : Counter) (core : Core) (memory : Memory) :
    Quiet counter CLEAR_PIPELINE core memory core [] := by
  unfold CLEAR_PIPELINE
  generalize 42 = count
  induction count with
  | zero => exact ⟨rfl, rfl⟩
  | succ count ih => exact Quiet.append (⟨rfl, rfl⟩ : Quiet counter [.nop] core memory core []) ih

/-! # Before the first time stamp -/

/-- The value is in `%ymm0`. -/
def Family.Vector : Family → Prop
  | .store => True
  | .storeClflush => True
  | .storeClwb => True
  | .storeClflushopt => True
  | .nstore => True
  | _ => False

/-- The lines are flushed, not loaded, before the measurement. -/
def Family.cold : Family → Bool
  | .load => true
  | .ntLoad => true
  | .nstore => true
  | .loadMovq => true
  | _ => false

def Family.fetched (family : Family) : List (Access × Nat) := if family.cold then flushCacheLine else loadCacheLine

def Family.openingEvents (family : Family) (addr : Word) : List Event :=
  .mfence :: (accessEvents addr family.fetched ++ [.mfence])

theorem movqLoads_ymm {accesses : List (Access × Nat)} (counter : Counter) (core : Core) (memory : Memory)
    (loads : ∀ entry ∈ accesses, entry.1 = .movqLoad) :
    (run counter (accessCode accesses) core memory).own.ymm = core.ymm := by
  induction accesses generalizing core memory with
  | nil => rfl
  | cons entry rest ih =>
      obtain ⟨kind, disp⟩ := entry
      cases loads _ List.mem_cons_self
      exact (ih _ _ fun entry member => loads entry (List.mem_cons_of_mem _ member)).trans rfl

/-- What the flushes or loads between `LOAD_ADDR` and `CLEAR_PIPELINE` do. -/
def Prepares (counter : Counter) (addr : Word) (code : List Instr) (events : List Event) : Prop :=
  ∀ core memory, core.gpr .rsi = addr → ∃ after, Quiet counter code core memory after events ∧
    after.gpr .rsi = addr ∧ after.ymm = core.ymm

theorem prepares_flush : Prepares counter addr FLUSH_CACHE_LINE (accessEvents addr flushCacheLine ++ [.mfence]) := by
  intro core memory located
  have unstored : ∀ byte, ¬ Stored (core.gpr .rsi) flushCacheLine byte := by
    intro byte stored
    obtain ⟨entry, member, stores⟩ := stored
    obtain ⟨line, _, rfl⟩ := List.mem_map.mp member
    exact stores
  obtain ⟨after, quiet, _⟩ := quiet_accesses counter core memory unstored
  have flushes : ∀ entry ∈ flushCacheLine, entry.1.Repeats core 0 := by
    intro entry member
    obtain ⟨line, _, rfl⟩ := List.mem_map.mp member
    trivial
  have same : after = core := by
    rw [← (accesses_repeat counter memory flushes (by decide)).1, quiet.run]
  rw [same, located] at quiet
  exact ⟨core, quiet.append (quiet_mfence counter core memory), located, rfl⟩

theorem prepares_load : Prepares counter addr LOAD_CACHE_LINE (accessEvents addr loadCacheLine ++ [.mfence]) := by
  intro core memory located
  have loads : ∀ entry ∈ loadCacheLine, entry.1 = .movqLoad := by
    intro entry member
    obtain ⟨word, _, rfl⟩ := List.mem_map.mp member
    rfl
  have unstored : ∀ byte, ¬ Stored (core.gpr .rsi) loadCacheLine byte := by
    intro byte stored
    obtain ⟨entry, member, stores⟩ := stored
    rw [loads entry member] at stores
    exact stores
  obtain ⟨after, quiet, steady⟩ := quiet_accesses counter core memory unstored
  have ymm := movqLoads_ymm counter core memory loads
  rw [quiet.run] at ymm
  rw [located] at quiet
  exact ⟨after, quiet.append (quiet_mfence counter after memory), steady.rsi.trans located, ymm⟩

section Openings

variable {code : List Instr} {events : List Event}

theorem quiet_loadAddr (counter : Counter) (addr : Word) (core : Core) (memory : Memory) :
    Quiet counter (LOAD_ADDR addr) core memory (core.set .rsi addr) [.mfence] := ⟨rfl, rfl⟩

theorem quiet_loadValue (counter : Counter) (core : Core) (memory : Memory) :
    Quiet counter LOAD_VALUE core memory (core.setYmm ymm0 (broadcast value)) [] := ⟨rfl, rfl⟩

theorem opens_address (prepares : Prepares counter addr code events) (core : Core) (memory : Memory) :
    ∃ after, Quiet counter (LOAD_ADDR addr ++ code ++ CLEAR_PIPELINE) core memory after (.mfence :: events) ∧
      after.gpr .rsi = addr := by
  obtain ⟨after, quiet, located, _⟩ := prepares (core.set .rsi addr) memory Core.set_same
  refine ⟨after, ?_, located⟩
  simpa using ((quiet_loadAddr counter addr core memory).append quiet).append (quiet_clearPipeline counter after memory)

theorem opens_address_value (prepares : Prepares counter addr code events) (core : Core) (memory : Memory) :
    ∃ after, Quiet counter (LOAD_ADDR addr ++ LOAD_VALUE ++ code ++ CLEAR_PIPELINE) core memory after (.mfence :: events) ∧
      after.gpr .rsi = addr ∧ after.ymm ymm0 = broadcast value := by
  let ready := (core.set .rsi addr).setYmm ymm0 (broadcast value)
  have placed : ready.gpr .rsi = addr := by simp [ready]
  have held : ready.ymm ymm0 = broadcast value := by simp [ready]
  obtain ⟨after, quiet, located, ymm⟩ := prepares ready memory placed
  refine ⟨after, ?_, located, by rw [ymm, held]⟩
  have opened := (quiet_loadAddr counter addr core memory).append (quiet_loadValue counter _ memory)
  simpa using (opened.append quiet).append (quiet_clearPipeline counter after memory)

theorem opens_value_address (prepares : Prepares counter addr code events) (core : Core) (memory : Memory) :
    ∃ after, Quiet counter (LOAD_VALUE ++ LOAD_ADDR addr ++ code ++ CLEAR_PIPELINE) core memory after (.mfence :: events) ∧
      after.gpr .rsi = addr ∧ after.ymm ymm0 = broadcast value := by
  let ready := (core.setYmm ymm0 (broadcast value)).set .rsi addr
  have placed : ready.gpr .rsi = addr := by simp [ready]
  have held : ready.ymm ymm0 = broadcast value := by simp [ready]
  obtain ⟨after, quiet, located, ymm⟩ := prepares ready memory placed
  refine ⟨after, ?_, located, by rw [ymm, held]⟩
  have opened := (quiet_loadValue counter core memory).append (quiet_loadAddr counter addr _ memory)
  simpa using (opened.append quiet).append (quiet_clearPipeline counter after memory)

end Openings

theorem Family.opens (family : Family) (counter : Counter) (addr : Word) (core : Core) (memory : Memory) :
    ∃ after, Quiet counter (family.opening addr) core memory after (family.openingEvents addr) ∧
      after.gpr .rsi = addr ∧ (family.Vector → after.ymm ymm0 = broadcast value) := by
  have address {code : List Instr} {events : List Event} (prepares : Prepares counter addr code events) :
      ∃ after, Quiet counter (LOAD_ADDR addr ++ code ++ CLEAR_PIPELINE) core memory after (.mfence :: events) ∧
        after.gpr .rsi = addr ∧ (False → after.ymm ymm0 = broadcast value) := by
    obtain ⟨after, quiet, located⟩ := opens_address prepares core memory
    exact ⟨after, quiet, located, False.elim⟩
  have held {code : List Instr} {events : List Event} (opened : ∃ after, Quiet counter code core memory after events ∧
      after.gpr .rsi = addr ∧ after.ymm ymm0 = broadcast value) :
      ∃ after, Quiet counter code core memory after events ∧
        after.gpr .rsi = addr ∧ (True → after.ymm ymm0 = broadcast value) := by
    obtain ⟨after, quiet, located, ymm⟩ := opened
    exact ⟨after, quiet, located, fun _ => ymm⟩
  cases family with
  | load => exact address prepares_flush
  | ntLoad => exact address prepares_flush
  | store => exact held (opens_value_address prepares_load core memory)
  | storeClflush => exact held (opens_address_value prepares_load core memory)
  | storeClwb => exact held (opens_address_value prepares_load core memory)
  | storeClflushopt => exact held (opens_address_value prepares_load core memory)
  | nstore => exact held (opens_address_value prepares_flush core memory)
  | storeMovq => exact address prepares_load
  | storeClflushMovq => exact address prepares_load
  | loadMovq => exact address prepares_flush

/-! # Time stamps -/

/-- `%r9` and `%r8` have the halves of the first time stamp, and so has `%rdx` the high one. -/
structure Begun (counter : Counter) (before after : Core) : Prop where
  rsi : after.gpr .rsi = before.gpr .rsi
  rdx : after.gpr .rdx = high (counter.stamp before.stamps)
  r9 : after.gpr .r9 = high (counter.stamp before.stamps)
  r8 : after.gpr .r8 = low (counter.stamp before.stamps)
  ymm : after.ymm = before.ymm
  stamps : after.stamps = before.stamps + 1

theorem timingBeg (counter : Counter) (core : Core) (memory : Memory) :
    ∃ after, run counter TIMING_BEG core memory = ⟨after, fun _ => none, [.rdtscp (counter.stamp core.stamps)]⟩ ∧
      Begun counter core after := by
  refine ⟨_, rfl, ?_, ?_, ?_, ?_, rfl, rfl⟩ <;>
  · simp [runScript, Instr.act, register, Action.followed, Action.idle, Core.set, Core.stamped, low_high, low_low]

theorem timingEnd {start : Word} (counter : Counter) (core : Core) (memory : Memory) (r9 : core.gpr .r9 = high start)
    (r8 : core.gpr .r8 = low start) :
    ∃ after, run counter TIMING_END core memory =
        ⟨after, fun _ => none, [.mfence, .rdtscp (counter.stamp core.stamps)]⟩ ∧
      after.stamps = core.stamps + 1 ∧ after.t1 = start ∧ after.t2 = counter.stamp core.stamps := by
  refine ⟨_, rfl, rfl, ?_, ?_⟩ <;>
  · simp [runScript, Instr.act, register, Action.followed, Action.idle, Core.set, Core.stamped, low_high, joined, r9, r8]

/-! # What is stored -/

/-- The word whose copies a function stores, by the time stamp it starts with: `TIMING_BEG` leaves the high half of
the stamp in `%rdx`. -/
def Family.word (stamp : Word) : Family → Option Word
  | .load => none
  | .ntLoad => none
  | .store => some value
  | .storeClflush => some value
  | .storeClwb => some value
  | .storeClflushopt => some value
  | .nstore => some value
  | .storeMovq => some (high stamp)
  | .storeClflushMovq => some (high stamp)
  | .loadMovq => none

def fill (addr : Word) (size : Nat) (word byte : Word) : Option Byte :=
  if byte ∈ Range.mk addr size then some (word.byte ((byte - addr).toNat % 8)) else none

def Family.writes (family : Family) (lines : Nat) (addr stamp : Word) : Word → Option Byte :=
  match family.word stamp with
  | some word => fill addr (64 * lines) word
  | none => fun _ => none

def Family.events (family : Family) (lines : Nat) (addr start stop : Word) : List Event :=
  family.openingEvents addr ++ .rdtscp start :: (accessEvents addr (family.accesses lines) ++ [.mfence, .rdtscp stop])

section Stored

variable {word : Word} {line : Nat}

theorem storeLine_stored (kind : Access) (half : ∀ address, kind.Stores address byte ↔ byte ∈ Range.mk address 32) :
    Stored addr [(kind, 64 * line), (kind, 64 * line + 32)] byte ↔ byte ∈ Range.mk (addr + BitVec.ofNat 64 (64 * line)) 64 := by
  have halves : byte ∈ Range.mk (addr + BitVec.ofNat 64 (64 * line)) (32 + 32) ↔ _ := mem_parts (by decide)
  rw [BitVec.add_assoc, ← BitVec.ofNat_add] at halves
  rw [halves, ← half, ← half, ← List.singleton_append, stored_append, stored_single, stored_single]

theorem storeWords_stored : Stored addr (storeWords line) byte ↔ byte ∈ Range.mk (addr + BitVec.ofNat 64 (64 * line)) 64 := by
  have words : byte ∈ Range.mk (addr + BitVec.ofNat 64 (64 * line)) (8 * 8) ↔ _ := mem_pieces (by decide)
  simp only [BitVec.add_assoc, ← BitVec.ofNat_add] at words
  rw [words]
  simp [Stored, storeWords, Access.Stores]

theorem flush_stored {kind : Access} {disp : Nat} (flushes : ∀ address, ¬ kind.Stores address byte) :
    Stored addr (storeLine line ++ [(kind, disp)]) byte ↔ Stored addr (storeLine line) byte := by
  rw [stored_append, stored_single, or_iff_left (flushes _)]

theorem Family.line_stored (stores : family.word stamp = some word) :
    Stored addr (family.line line) byte ↔ byte ∈ Range.mk (addr + BitVec.ofNat 64 (64 * line)) 64 := by
  have vector : Stored addr (storeLine line) byte ↔ byte ∈ Range.mk (addr + BitVec.ofNat 64 (64 * line)) 64 :=
    storeLine_stored .vmovdqa fun _ => Iff.rfl
  cases family with
  | store => exact vector
  | storeClflush => exact (flush_stored fun _ => id).trans vector
  | storeClwb => exact (flush_stored fun _ => id).trans vector
  | storeClflushopt => exact (flush_stored fun _ => id).trans vector
  | nstore => exact storeLine_stored .vmovntpd fun _ => Iff.rfl
  | storeMovq => exact storeWords_stored
  | storeClflushMovq =>
      rw [Family.line, stored_append, stored_single]
      exact (or_iff_left id).trans storeWords_stored
  | load => contradiction
  | ntLoad => contradiction
  | loadMovq => contradiction

theorem Family.line_quiet (loads : family.word stamp = none) : ¬ Stored addr (family.line line) byte := by
  intro stored
  obtain ⟨entry, member, stores⟩ := stored
  have vector {kind kind' : Access} (quiet : ∀ address, ¬ kind.Stores address byte)
      (quiet' : ∀ address, ¬ kind'.Stores address byte) (member : entry ∈ [(kind, 64 * line), (kind', 64 * line + 32)]) :
      False := by
    rcases List.mem_pair.mp member with rfl | rfl
    · exact quiet _ stores
    · exact quiet' _ stores
  cases family with
  | load => exact vector (fun _ => id) (fun _ => id) member
  | ntLoad => exact vector (fun _ => id) (fun _ => id) member
  | loadMovq =>
      obtain ⟨_, _, rfl⟩ := List.mem_map.mp member
      exact stores
  | _ => contradiction

theorem stored_accesses :
    Stored addr (family.accesses lines) byte ↔ ∃ line < lines, Stored addr (family.line line) byte := by
  simp only [Stored, Family.accesses, List.mem_flatMap, List.mem_range]
  apply Iff.intro
  · intro found
    obtain ⟨entry, ⟨line, bound, member⟩, stores⟩ := found
    exact ⟨line, bound, entry, member, stores⟩
  · intro found
    obtain ⟨line, bound, entry, member, stores⟩ := found
    exact ⟨entry, ⟨line, bound, member⟩, stores⟩

theorem Family.stored_iff (short : 64 * lines ≤ 2 ^ 64) (stores : family.word stamp = some word) :
    Stored addr (family.accesses lines) byte ↔ byte ∈ Range.mk addr (64 * lines) := by
  rw [stored_accesses, mem_pieces short]
  simp only [Family.line_stored stores]

theorem Family.quiet (loads : family.word stamp = none) : ¬ Stored addr (family.accesses lines) byte := by
  rw [stored_accesses]
  intro stored
  obtain ⟨line, _, stored⟩ := stored
  exact Family.line_quiet loads stored

/-- Where the measurement begins, the registers hold the word. -/
theorem Family.repeats (held : family.Vector → core.ymm ymm0 = broadcast value) (high : core.gpr .rdx = high stamp)
    (stores : family.word stamp = some word) : ∀ entry ∈ family.line line, entry.1.Repeats core word := by
  intro entry member
  have vector (same : core.ymm ymm0 = broadcast value) (flush : Access) (flushes : flush.Repeats core value) {disp : Nat}
      (member : entry ∈ storeLine line ++ [(flush, disp)]) : entry.1.Repeats core value := by
    rcases List.mem_append.mp member with stored | flushed
    · rcases List.mem_pair.mp stored with rfl | rfl
      · exact same
      · exact same
    · cases List.mem_singleton.mp flushed
      exact flushes
  cases family with
  | store =>
      cases stores
      rcases List.mem_pair.mp member with rfl | rfl
      · exact held trivial
      · exact held trivial
  | nstore =>
      cases stores
      rcases List.mem_pair.mp member with rfl | rfl
      · exact held trivial
      · exact held trivial
  | storeClflush =>
      cases stores
      exact vector (held trivial) .clflush trivial member
  | storeClwb =>
      cases stores
      exact vector (held trivial) .clwb trivial member
  | storeClflushopt =>
      cases stores
      exact vector (held trivial) .clflushopt trivial member
  | storeMovq =>
      cases stores
      obtain ⟨_, _, rfl⟩ := List.mem_map.mp member
      exact high
  | storeClflushMovq =>
      cases stores
      rcases List.mem_append.mp member with stored | flushed
      · obtain ⟨_, _, rfl⟩ := List.mem_map.mp stored
        exact high
      · cases List.mem_singleton.mp flushed
        trivial
  | load => contradiction
  | ntLoad => contradiction
  | loadMovq => contradiction

theorem Family.line_eight (family : Family) (line : Nat) : ∀ entry ∈ family.line line, 8 ∣ entry.2 := by
  intro entry member
  have words {kind : Access} (member : entry ∈ (List.range 8).map fun word => (kind, 64 * line + 8 * word)) : 8 ∣ entry.2 := by
    obtain ⟨word, _, rfl⟩ := List.mem_map.mp member
    simp only
    omega
  cases family with
  | storeMovq => exact words member
  | loadMovq => exact words member
  | storeClflushMovq =>
      rcases List.mem_append.mp member with stored | flushed
      · exact words stored
      · cases List.mem_singleton.mp flushed
        simp only
        omega
  | _ =>
      simp only [Family.line, storeLine, List.cons_append, List.nil_append, List.mem_cons, List.not_mem_nil, or_false] at member
      rcases member with rfl | rfl | rfl <;>
      · simp only
        omega

end Stored

/-! # Calls -/

section Calls

variable {word : Word}

/-- The registers when the first time stamp has been taken. -/
structure Family.Ready (family : Family) (addr stamp : Word) (core : Core) : Prop where
  rsi : core.gpr .rsi = addr
  r9 : core.gpr .r9 = high stamp
  r8 : core.gpr .r8 = low stamp
  repeats : ∀ word, family.word stamp = some word → ∀ line, ∀ entry ∈ family.line line, entry.1.Repeats core word

theorem Family.begins (family : Family) (counter : Counter) (addr : Word) (core : Core) (memory : Memory) :
    ∃ after, run counter (family.opening addr ++ TIMING_BEG) core memory =
        ⟨after, fun _ => none, family.openingEvents addr ++ [.rdtscp (counter.stamp core.stamps)]⟩ ∧
      family.Ready addr (counter.stamp core.stamps) after ∧ after.stamps = core.stamps + 1 := by
  obtain ⟨middle, quiet, located, held⟩ := family.opens counter addr core memory
  obtain ⟨after, ran, begun⟩ := timingBeg counter middle memory
  have r9 := begun.r9
  have r8 := begun.r8
  have rdx := begun.rdx
  rw [quiet.stamps] at ran r9 r8 rdx
  refine ⟨after, ?_, ⟨begun.rsi.trans located, r9, r8, fun word stores line => ?_⟩, ?_⟩
  · exact run_append quiet.run ran
  · apply Family.repeats _ rdx stores
    intro vector
    rw [begun.ymm, held vector]
  · rw [begun.stamps, quiet.stamps]

theorem Family.accesses_writes (family : Family) (counter : Counter) (short : 64 * lines ≤ 2 ^ 64)
    (ready : family.Ready addr stamp core) (memory : Memory) :
    (run counter (accessCode (family.accesses lines)) core memory).writes = family.writes lines addr stamp := by
  obtain ⟨_, _, unwritten⟩ := accesses_run counter (family.accesses lines) core memory
  rw [ready.rsi] at unwritten
  funext byte
  rw [Family.writes]
  cases word : family.word stamp with
  | none => exact unwritten byte (Family.quiet word)
  | some stored =>
      have repeats : ∀ entry ∈ family.accesses lines, entry.1.Repeats core stored := by
        intro entry member
        obtain ⟨line, _, member⟩ := List.mem_flatMap.mp member
        exact ready.repeats stored word line entry member
      have eight : ∀ entry ∈ family.accesses lines, 8 ∣ entry.2 := by
        intro entry member
        obtain ⟨line, _, member⟩ := List.mem_flatMap.mp member
        exact family.line_eight line entry member
      obtain ⟨_, written⟩ := accesses_repeat counter memory repeats eight
      rw [ready.rsi] at written
      have stores : Stored addr (family.accesses lines) byte ↔ byte ∈ Range.mk addr (64 * lines) := Family.stored_iff short word
      by_cases inside : byte ∈ Range.mk addr (64 * lines)
      · exact (written byte (stores.mpr inside)).trans (if_pos inside).symm
      · exact (unwritten byte fun stored => inside (stores.mp stored)).trans (if_neg inside).symm

/-- Every register that a call depends on is set by the call. -/
theorem Family.call (family : Family) (counter : Counter) (short : 64 * lines ≤ 2 ^ 64) (addr : Word) (core : Core)
    (memory : Memory) :
    ∃ after, run counter (family.code lines addr) core memory =
        ⟨after, family.writes lines addr (counter.stamp core.stamps),
          family.events lines addr (counter.stamp core.stamps) (counter.stamp (core.stamps + 1))⟩ ∧
      after.stamps = core.stamps + 2 ∧ after.t1 = counter.stamp core.stamps ∧
      after.t2 = counter.stamp (core.stamps + 1) := by
  obtain ⟨begun, ran, ready, stamps⟩ := family.begins counter addr core memory
  obtain ⟨steady, events, _⟩ := accesses_run counter (family.accesses lines) begun memory
  have writes := family.accesses_writes counter short ready memory
  rw [ready.rsi] at events
  generalize ranAccesses : run counter (accessCode (family.accesses lines)) begun memory = accessed at *
  obtain ⟨after, ended, counted, t1, t2⟩ := timingEnd counter accessed.own (overwrite memory accessed.writes)
    (steady.r9.trans ready.r9) (steady.r8.trans ready.r8)
  rw [steady.stamps, stamps] at ended counted t2
  refine ⟨after, ?_, counted, t1, t2⟩
  have timed := run_append_quiet ran ranAccesses
  rw [Family.code, measured, run_append timed ended, Action.followed, events, writes]
  simp [Family.events]

/-- What any call does, by its argument and the time stamps it takes. -/
structure Calls (func : Word → List Instr) (writes : Word → Word → Word → Option Byte)
    (events : Word → Word → Word → List Event) : Prop where
  call : ∀ (counter : Counter) addr core memory, ∃ after, run counter (func addr) core memory =
      ⟨after, writes addr (counter.stamp core.stamps),
        events addr (counter.stamp core.stamps) (counter.stamp (core.stamps + 1))⟩ ∧
    after.stamps = core.stamps + 2 ∧ after.t1 = counter.stamp core.stamps ∧
    after.t2 = counter.stamp (core.stamps + 1)

theorem Family.calls (family : Family) (short : 64 * lines ≤ 2 ^ 64) :
    Calls (family.code lines) (family.writes lines) (family.events lines) :=
  ⟨fun counter => family.call counter short⟩

theorem baseline_calls :
    Calls baseline (fun _ _ _ => none) fun _ start stop => [.rdtscp start, .mfence, .rdtscp stop] where
  call counter addr core memory := by
    obtain ⟨begun, ran, begins⟩ := timingBeg counter core memory
    obtain ⟨after, ended, counted, t1, t2⟩ := timingEnd counter begun memory begins.r9 begins.r8
    rw [begins.stamps] at ended counted t2
    refine ⟨after, ?_, counted, t1, t2⟩
    have started := run_append_quiet (quiet_clearPipeline counter core memory).run ran
    have timed := run_append_quiet started (show run counter (accessCode []) begun memory = _ from rfl)
    exact run_append_quiet timed ended

end Calls

end RwSep.Latency
