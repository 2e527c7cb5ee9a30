import RwSep.X86.Code
import Mathlib.Data.List.Nodup

namespace RwSep.MemAccess

open RwSep.Data RwSep.Execution RwSep.X86

/-! The strided access kernels of memaccess.c. -/

/-- `0x0(%%r9, %%r10)`. -/
def accessed : Address := ⟨0, .reg .r9, .reg .r10, 1⟩

def SIZEBTNT_64_AVX512 : List Instr :=
  [.vmovntdq zmm0 accessed, .add (.value 0x40) .r10]

def SIZEBTSTFLUSH_64_AVX512 : List Instr :=
  [.vmovdqa64 zmm0 accessed, .clwb accessed, .add (.value 0x40) .r10]

def SIZEBTST_FENCE : Instr := .mfence

def SIZEBTLD_FENCE : Instr := .mfence

structure StrideArgs where
  startAddr : Word
  size : Word
  skip : Word
  delay : Word
  count : Word
deriving DecidableEq, Repr

def stridedOuter (access : List Instr) (fence : Instr) (args : StrideArgs) : Code :=
  .sequence [
    .block [.lea ⟨0, .value args.startAddr, .reg .r8, 1⟩ .r9, .xor .r10 .r10],
    .loop (.block access) (.value args.size) .r10,
    .block [fence, .xor .r10 .r10],
    .loop (.block [.inc .r10]) (.value args.delay) .r10,
    .block [.add (.value args.skip) .r8, .inc .r11]]

def strided (access : List Instr) (fence : Instr) (args : StrideArgs) : Code :=
  .sequence [
    .block [.xor .r8 .r8, .xor .r11 .r11, .movqXmm (.value args.startAddr) zmm0],
    .loop (stridedOuter access fence args) (.value args.count) .r11]

def strideNt : StrideArgs → Code := strided SIZEBTNT_64_AVX512 SIZEBTLD_FENCE

def strideStoreclwb : StrideArgs → Code := strided SIZEBTSTFLUSH_64_AVX512 SIZEBTST_FENCE

/-! # Lines -/

/-- `count` lines from an address on. -/
def linesFrom (address : Word) (count : Nat) : List Word :=
  (List.range count).map fun i => address + BitVec.ofNat 64 (64 * i)

theorem linesFrom_succ (address : Word) (count : Nat) :
    linesFrom address (count + 1) = linesFrom address count ++ [address + BitVec.ofNat 64 (64 * count)] := by
  simp [linesFrom, List.range_succ]

section Lines

variable {address : Word} {first second count : Nat}

theorem linesFrom_append : linesFrom address (first + second) =
    linesFrom address first ++ linesFrom (address + BitVec.ofNat 64 (64 * first)) second := by
  rw [linesFrom, List.range_add, List.map_append, List.map_map]
  apply congrArg
  apply List.map_congr_left
  intro i _
  simp only [Function.comp, Nat.mul_add, BitVec.ofNat_add, BitVec.add_assoc]

theorem linesFrom_flatMap : ((List.range count).flatMap fun i =>
    linesFrom (address + BitVec.ofNat 64 (64 * first * i)) first) = linesFrom address (first * count) := by
  induction count with
  | zero => rfl
  | succ count ih =>
      rw [List.range_succ, List.flatMap_append, ih, Nat.mul_succ, linesFrom_append, ← Nat.mul_assoc]
      simp

theorem linesFrom_nodup (short : 64 * count < 2 ^ 64) : (linesFrom address count).Nodup := by
  apply List.Nodup.map_on _ List.nodup_range
  intro i inRange j inRange' same
  have bound := List.mem_range.mp inRange
  have bound' := List.mem_range.mp inRange'
  have equal := congrArg (fun line : Word => (line - address).toNat) same
  have left : 64 * i < 2 ^ 64 := by omega
  have right : 64 * j < 2 ^ 64 := by omega
  simp only [Word.offset_distance address left, Word.offset_distance address right] at equal
  omega

/-- Short of a whole turn around the address space the lines ascend. -/
theorem linesFrom_ascending (short : 64 * count ≤ 2 ^ 64) :
    (linesFrom address count).Pairwise fun line later => (line - address).toNat < (later - address).toNat := by
  rw [linesFrom, List.pairwise_map, List.pairwise_iff_getElem]
  intro left right inLeft inRight ordered
  simp only [List.length_range] at inLeft inRight
  rw [List.getElem_range, List.getElem_range, Word.offset_distance address (by omega),
    Word.offset_distance address (by omega)]
  omega

end Lines

/-! # What the kernels do -/

def storedLines (events : List Event) : List Word :=
  events.filterMap fun
    | .store address 64 => some address
    | _ => none

def writtenBackLines (events : List Event) : List Word :=
  events.filterMap fun
    | .clwb address => some address
    | _ => none

/-- The line that turn `i` of the outer loop and turn `j` of the inner loop access. -/
def StrideArgs.line (args : StrideArgs) (i j : Nat) : Word :=
  args.startAddr + BitVec.ofNat 64 i * args.skip + BitVec.ofNat 64 (64 * j)

def StrideArgs.block (args : StrideArgs) (i : Nat) : List Word :=
  (List.range (turns args.size 64)).map (args.line i)

def StrideArgs.lines (args : StrideArgs) : List Word :=
  (List.range (turns args.count 1)).flatMap args.block

/-- The accesses of one turn of the inner loop: `effect` on the line at
`r9 + r10`, then `r10` moves to the next line. -/
structure Advances (access : List Instr) (effect : Word → Data → Data) : Prop where
  counts : ∀ state, (runBlock access state).gpr .r10 = state.gpr .r10 + 64
  keeps : ∀ state reg, reg ≠ .r10 → (runBlock access state).gpr reg = state.gpr reg
  touches : ∀ state, (runBlock access state).data = effect (state.gpr .r9 + state.gpr .r10) state.data

def fenced (data : Data) : Data := { data with trace := data.trace ++ [.mfence] }

def through (effect : Word → Data → Data) (data : Data) (lines : List Word) : Data :=
  lines.foldl (fun data line => effect line data) data

def stridedThrough (effect : Word → Data → Data) (args : StrideArgs) (data : Data) (count : Nat) : Data :=
  (List.range count).foldl (fun data i => fenced (through effect data (args.block i))) data

def started (args : StrideArgs) (data : Data) : Data :=
  { data with zmm := Function.update data.zmm zmm0 ((data.zmm zmm0).setLow args.startAddr) }

/-- `zmm0` stored to a line by accesses that leave the given events. -/
def stored (events : Word → List Event) (line : Word) (data : Data) : Data :=
  { data with memory := data.memory.writeLine line (data.zmm zmm0), trace := data.trace ++ events line }

def ntStored : Word → Data → Data := stored fun line => [.ntStore line]

def storedBack : Word → Data → Data := stored fun line => [.store line 64, .clwb line]

section Effects

variable {events : Word → List Event} {data : Data} {args : StrideArgs}

theorem through_stored (lines : List Word) : through (stored events) data lines =
    { data with
      memory := data.memory.writeLines (data.zmm zmm0) lines
      trace := data.trace ++ lines.flatMap events } := by
  induction lines generalizing data with
  | nil => simp [through, Memory.writeLines]
  | cons line rest ih =>
      change through (stored events) (stored events line data) rest = _
      rw [ih]
      simp [stored, Memory.writeLines]

theorem stridedThrough_stored (count : Nat) : stridedThrough (stored events) args data count =
    { data with
      memory := data.memory.writeLines (data.zmm zmm0) ((List.range count).flatMap args.block)
      trace := data.trace ++
        (List.range count).flatMap fun turn => (args.block turn).flatMap events ++ [.mfence] } := by
  induction count with
  | zero => simp [stridedThrough, Memory.writeLines]
  | succ count ih =>
      have last : stridedThrough (stored events) args data (count + 1) =
          fenced (through (stored events) (stridedThrough (stored events) args data count) (args.block count)) := by
        simp only [stridedThrough, List.range_succ, List.foldl_append, List.foldl_cons, List.foldl_nil]
      rw [last, through_stored, ih]
      simp [fenced, List.range_succ]

end Effects

theorem accessed_eval (gpr : Reg → Word) : accessed.eval gpr = gpr .r9 + gpr .r10 := by
  simp [accessed, Address.eval, Operand.eval]

theorem advances_nt : Advances SIZEBTNT_64_AVX512 ntStored where
  counts _ := rfl
  keeps _ _ different := State.set_other different
  touches state := by
    rw [← accessed_eval]
    rfl

theorem advances_storeclwb : Advances SIZEBTSTFLUSH_64_AVX512 storedBack where
  counts _ := rfl
  keeps _ _ different := State.set_other different
  touches state := by
    rw [← accessed_eval, storedBack, stored, ← List.singleton_append, ← List.append_assoc]
    rfl

variable {access : List Instr} {effect : Word → Data → Data} {args : StrideArgs} {state : State}

theorem exec_access_loop (state : State) (advances : Advances access effect) (room : args.size.toInt + 64 ≤ 2 ^ 63)
    (zero : state.gpr .r10 = 0) :
    ∃ after, Exec (.loop (.block access) (.value args.size) .r10) state after ∧
      (∀ reg, reg ≠ .r10 → after.gpr reg = state.gpr reg) ∧
      after.data = through effect state.data
        ((List.range (turns args.size 64)).map fun j => state.gpr .r9 + BitVec.ofNat 64 (64 * j)) := by
  have touches : ∀ turn before, before.gpr .r10 = BitVec.ofNat 64 (64 * turn) →
      (∀ reg, reg ≠ .r10 → before.gpr reg = state.gpr reg) →
      (runBlock access before).data = effect (state.gpr .r9 + BitVec.ofNat 64 (64 * turn)) before.data := by
    intro turn before counted kept
    rw [advances.touches, counted, kept .r9 (by simp)]
  obtain ⟨after, ran, kept, touched⟩ :=
    exec_block_loop (by decide) (by decide) room advances.counts advances.keeps touches zero
  exact ⟨after, ran, kept, by rw [touched, through, List.foldl_map]⟩

/-- Where the last line may lie beyond 2^63, the counter never passes the access size. -/
theorem access_loop_diverges {size : Word} {after : State}
    (counts : ∀ state, (runBlock access state).gpr .r10 = state.gpr .r10 + 64)
    (far : 2 ^ 63 < size.toInt + 64) (zero : state.gpr .r10 = 0) :
    ¬ Exec (.loop (.block access) (.value size) .r10) state after := by
  have step : ∀ {before after : State}, 64 ∣ (before.gpr .r10).toNat →
      Exec (.block access) before after → 64 ∣ (after.gpr .r10).toNat := by
    intro before after aligned ran
    cases ran
    rw [counts, BitVec.toNat_add]
    change 64 ∣ ((before.gpr .r10).toNat + 64) % 2 ^ 64
    omega
  have aligned : 64 ∣ (state.gpr .r10).toNat := by
    rw [zero]
    decide
  exact exec_counting_diverges (by decide) far (fun state => 64 ∣ (state.gpr .r10).toNat)
    (fun aligned => aligned) step aligned

theorem exec_delay_loop (state : State) (delay : Word) (zero : state.gpr .r10 = 0) :
    ∃ after, Exec (.loop (.block [.inc .r10]) (.value delay) .r10) state after ∧
      (∀ reg, reg ≠ .r10 → after.gpr reg = state.gpr reg) ∧ after.data = state.data := by
  have room : delay.toInt + 1 ≤ 2 ^ 63 := by
    have := BitVec.toInt_lt (x := delay)
    omega
  have counts : ∀ state, (runBlock [.inc .r10] state).gpr .r10 = state.gpr .r10 + BitVec.ofNat 64 1 :=
    fun state => State.set_same
  have keeps : ∀ state reg, reg ≠ .r10 → (runBlock [.inc .r10] state).gpr reg = state.gpr reg :=
    fun state reg different => State.set_other different
  let nothing : Nat → Data → Data := fun _ data => data
  have touches : ∀ turn before, before.gpr .r10 = BitVec.ofNat 64 (1 * turn) →
      (∀ reg, reg ≠ .r10 → before.gpr reg = state.gpr reg) →
      (runBlock [.inc .r10] before).data = nothing turn before.data := fun _ _ _ _ => rfl
  obtain ⟨after, ran, kept, untouched⟩ :=
    exec_block_loop (by decide) (by decide) room counts keeps touches zero
  exact ⟨after, ran, kept, untouched.trans (List.foldl_fixed _)⟩

/-- The outer loops count their turns in `r11` and move `r8` by the stride. -/
theorem exec_outer_loop {body : Code} {count skip : Word} (Inv : Nat → State → Prop)
    (step : ∀ turn < turns count 1, ∀ before,
      before.gpr .r8 = BitVec.ofNat 64 turn * skip → Inv turn before →
      ∃ after, Exec body before after ∧ after.gpr .r8 = before.gpr .r8 + skip ∧
        after.gpr .r11 = before.gpr .r11 + 1 ∧ Inv (turn + 1) after)
    (offset : state.gpr .r8 = 0) (zero : state.gpr .r11 = 0) (start : Inv 0 state) :
    ∃ after, Exec (.loop body (.value count) .r11) state after ∧ Inv (turns count 1) after := by
  let Reached : Nat → State → Prop := fun turn after =>
    after.gpr .r11 = BitVec.ofNat 64 (1 * turn) ∧ after.gpr .r8 = BitVec.ofNat 64 turn * skip ∧ Inv turn after
  have turnStep : ∀ turn < turns count 1, ∀ before, Reached turn before →
      ∃ after, Exec body before after ∧ Reached (turn + 1) after := by
    intro turn bound before reached
    obtain ⟨counted, offset, invariant⟩ := reached
    obtain ⟨after, ran, offset', counted', invariant'⟩ := step turn bound before offset invariant
    refine ⟨after, ran, ?_, ?_, invariant'⟩
    · rw [counted', counted, Nat.one_mul, Nat.one_mul, BitVec.ofNat_add]
      rfl
    · rw [offset', offset, BitVec.ofNat_add, BitVec.add_mul, BitVec.one_mul]
  have countRoom : count.toInt + 1 ≤ 2 ^ 63 := by
    have := BitVec.toInt_lt (x := count)
    omega
  have atStart : state.gpr .r8 = BitVec.ofNat 64 0 * skip := by
    rw [offset, BitVec.zero_mul]
    rfl
  obtain ⟨after, ran, reached⟩ := exec_counting (by decide) (by decide) countRoom Reached
    (fun reached => reached.1) turnStep ⟨zero, atStart, start⟩
  exact ⟨after, ran, reached.2.2⟩

/-- The accesses to the lines of one block, and the fence after them. -/
theorem exec_block_accesses (advances : Advances access effect) (room : args.size.toInt + 64 ≤ 2 ^ 63) {turn : Nat}
    (located : state.gpr .r9 = args.startAddr + BitVec.ofNat 64 turn * args.skip) (zero : state.gpr .r10 = 0) :
    ∃ accessed after, Exec (.loop (.block access) (.value args.size) .r10) state accessed ∧
      Exec (.block [.mfence, .xor .r10 .r10]) accessed after ∧
      (∀ reg, reg ≠ .r10 → after.gpr reg = state.gpr reg) ∧ after.gpr .r10 = 0 ∧
      after.data = fenced (through effect state.data (args.block turn)) := by
  obtain ⟨accessed, ran, kept, touched⟩ := exec_access_loop state advances room zero
  refine ⟨accessed, _, ran, exec_block, fun reg different => ?_, BitVec.xor_self .., ?_⟩
  · change (accessed.record .mfence |>.set .r10 _).gpr reg = _
    rw [State.set_other different]
    exact kept reg different
  · change fenced accessed.data = _
    rw [touched, located]
    rfl

/-- The delay, and the step to the next stride. -/
theorem exec_advance (state : State) (args : StrideArgs) (zero : state.gpr .r10 = 0) :
    ∃ delayed after, Exec (.loop (.block [.inc .r10]) (.value args.delay) .r10) state delayed ∧
      Exec (.block [.add (.value args.skip) .r8, .inc .r11]) delayed after ∧
      after.gpr .r8 = state.gpr .r8 + args.skip ∧ after.gpr .r11 = state.gpr .r11 + 1 ∧
      after.data = state.data := by
  obtain ⟨delayed, ran, kept, untouched⟩ := exec_delay_loop state args.delay zero
  refine ⟨delayed, _, ran, exec_block, ?_, ?_, untouched⟩
  · change delayed.gpr .r8 + args.skip = _
    rw [kept .r8 (by simp)]
  · change delayed.gpr .r11 + 1 = _
    rw [kept .r11 (by simp)]

theorem located_at {turn : Nat} (offset : state.gpr .r8 = BitVec.ofNat 64 turn * args.skip) :
    (runBlock [.lea ⟨0, .value args.startAddr, .reg .r8, 1⟩ .r9, .xor .r10 .r10] state).gpr .r9 =
      args.startAddr + BitVec.ofNat 64 turn * args.skip := by
  simp [Instr.step, Address.eval, Operand.eval, State.set, offset]

theorem exec_strided_turn (advances : Advances access effect) (room : args.size.toInt + 64 ≤ 2 ^ 63)
    {turn : Nat} (offset : state.gpr .r8 = BitVec.ofNat 64 turn * args.skip) :
    ∃ after, Exec (stridedOuter access .mfence args) state after ∧
      after.gpr .r8 = state.gpr .r8 + args.skip ∧ after.gpr .r11 = state.gpr .r11 + 1 ∧
      after.data = fenced (through effect state.data (args.block turn)) := by
  let located := runBlock [.lea ⟨0, .value args.startAddr, .reg .r8, 1⟩ .r9, .xor .r10 .r10] state
  obtain ⟨accessed, waiting, ranAccesses, ranFence, kept, zero, touched⟩ :=
    exec_block_accesses advances room (located_at offset) (BitVec.xor_self ..)
  obtain ⟨delayed, after, ranDelay, ranAdvance, offset', counted, untouched⟩ := exec_advance waiting args zero
  refine ⟨after, ⟨located, exec_block, accessed, ranAccesses, waiting, ranFence, delayed, ranDelay, after, ranAdvance,
    rfl⟩, ?_, ?_, untouched.trans touched⟩
  · rw [offset', kept .r8 (by simp)]
    rfl
  · rw [counted, kept .r11 (by simp)]
    rfl

theorem exec_strided_loop (advances : Advances access effect) (room : args.size.toInt + 64 ≤ 2 ^ 63)
    (offset : state.gpr .r8 = 0) (zero : state.gpr .r11 = 0) :
    ∃ after, Exec (.loop (stridedOuter access .mfence args) (.value args.count) .r11) state after ∧
      after.data = stridedThrough effect args state.data (turns args.count 1) := by
  have step : ∀ turn < turns args.count 1, ∀ before, before.gpr .r8 = BitVec.ofNat 64 turn * args.skip →
      before.data = stridedThrough effect args state.data turn →
      ∃ after, Exec (stridedOuter access .mfence args) before after ∧ after.gpr .r8 = before.gpr .r8 + args.skip ∧
        after.gpr .r11 = before.gpr .r11 + 1 ∧ after.data = stridedThrough effect args state.data (turn + 1) := by
    intro turn _ before offset reached
    obtain ⟨after, ran, offset', counted', touched⟩ := exec_strided_turn advances room offset
    refine ⟨after, ran, offset', counted', ?_⟩
    rw [touched, reached]
    simp only [stridedThrough, List.range_succ, List.foldl_append, List.foldl_cons, List.foldl_nil]
  exact exec_outer_loop (fun turn after => after.data = stridedThrough effect args state.data turn) step offset zero rfl

theorem exec_strided (advances : Advances access effect) (room : args.size.toInt + 64 ≤ 2 ^ 63) :
    ∃ after, Exec (strided access .mfence args) state after ∧
      after.data = stridedThrough effect args (started args state.data) (turns args.count 1) := by
  let start := runBlock [.xor .r8 .r8, .xor .r11 .r11, .movqXmm (.value args.startAddr) zmm0] state
  have offset : start.gpr .r8 = 0 := BitVec.xor_self ..
  obtain ⟨after, ran, reached⟩ := exec_strided_loop advances room offset (BitVec.xor_self ..)
  exact ⟨after, ⟨start, exec_block, after, ran, rfl⟩, reached⟩

theorem strided_loop_diverges {rest : Code} {after : State}
    (counts : ∀ state, (runBlock access state).gpr .r10 = state.gpr .r10 + 64) (far : 2 ^ 63 < args.size.toInt + 64) :
    ¬ Exec (.loop
      (.seq (.block [.lea ⟨0, .value args.startAddr, .reg .r8, 1⟩ .r9, .xor .r10 .r10])
        (.seq (.loop (.block access) (.value args.size) .r10) rest))
      (.value args.count) .r11) state after := by
  intro outer
  obtain ⟨_, located, atLine, accessed, inner, _⟩ := outer.enters
  have zero : located.gpr .r10 = 0 := by
    cases atLine
    exact BitVec.xor_self ..
  exact access_loop_diverges counts far zero inner

/-- A kernel that stores `zmm0` to each of its lines. -/
theorem strided_ends {events : Word → List Event} (state : State) (advances : Advances access (stored events)) :
    EndsIff (strided access .mfence args) state (args.size.toInt + 64 ≤ 2 ^ 63) fun after =>
      after.data.zmm zmm0 = (state.data.zmm zmm0).setLow args.startAddr ∧
      after.data.memory = state.data.memory.writeLines ((state.data.zmm zmm0).setLow args.startAddr) args.lines ∧
      after.data.trace = state.data.trace ++
        (List.range (turns args.count 1)).flatMap fun turn => (args.block turn).flatMap events ++ [.mfence] where
  needs ran := by
    obtain ⟨start, _, final, outer, _⟩ := ran
    by_contra far
    exact strided_loop_diverges advances.counts (by omega) outer
  ends room := by
    obtain ⟨after, ran, reached⟩ := exec_strided advances room
    rw [stridedThrough_stored] at reached
    refine ⟨after, ran, ?_, ?_, ?_⟩
    · rw [reached]
      simp only [started, Function.update_self]
    · rw [reached]
      simp only [started, Function.update_self]
      rfl
    · rw [reached]
      rfl

end RwSep.MemAccess
