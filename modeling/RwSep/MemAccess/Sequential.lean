import RwSep.MemAccess.StrideKernels
import RwSep.MemAccess.RandomBandwidth

namespace RwSep.MemAccess

open RwSep.Data RwSep.Execution RwSep.X86

/-! The sequential kernels of memaccess.c.

The outer loop moves `r9` from the start address by `size` until it is no longer
below the end address, as signed numbers.  The inner loop moves `r8` by 64.
-/

def seqLoad (args : SeqArgs) : Code :=
  .sequence [
    .block [.mov (.value args.startAddr) .r9],
    .loop
      (.sequence [
        .block [.xor .r8 .r8],
        .loop (.block [.vmovntdqa sequential zmm0, .add (.value 0x40) .r8]) (.value args.size) .r8,
        .block [.add (.value args.size) .r9]])
      (.value args.endAddr) .r9]

def seqStore (args : SeqArgs) : Code :=
  .sequence [
    .block [.mov (.value args.startAddr) .r9, .movqXmm (.value args.startAddr) zmm0],
    .loop
      (.sequence [
        .block [.xor .r8 .r8],
        .loop (.block [.vmovdqa64 zmm0 sequential, .clwb sequential, .add (.value 0x40) .r8]) (.value args.size) .r8,
        .block [.add (.value args.size) .r9]])
      (.value args.endAddr) .r9]

def seqNt (args : SeqArgs) : Code :=
  .sequence [
    .block [.mov (.value args.startAddr) .r9, .movqXmm (.value args.startAddr) zmm0],
    .loop
      (.sequence [
        .block [.xor .r8 .r8],
        .loop (.block [.vmovntdq zmm0 sequential, .add (.value 0x40) .r8]) (.value args.size) .r8,
        .block [.add (.value args.size) .r9]])
      (.value args.endAddr) .r9]

/-! # One pass -/

/-- The accesses of one turn of the inner loop: `effect` on the line at
`r9 + r8`, then `r8` moves to the next line. -/
structure Moves (access : List Instr) (effect : Word → Data → Data) : Prop where
  counts : ∀ state, (runBlock access state).gpr .r8 = state.gpr .r8 + 64
  keeps : ∀ state reg, reg ≠ .r8 → (runBlock access state).gpr reg = state.gpr reg
  touches : ∀ state, (runBlock access state).data = effect (state.gpr .r9 + state.gpr .r8) state.data

def seqPass (access : List Instr) (args : SeqArgs) : Code :=
  .sequence [
    .block [.xor .r8 .r8],
    .loop (.block access) (.value args.size) .r8,
    .block [.add (.value args.size) .r9]]

/-- How often the outer loop runs. -/
def SeqArgs.passes (args : SeqArgs) : Nat :=
  (args.endAddr.toNat - args.startAddr.toNat + args.size.toNat - 1) / args.size.toNat

/-- A pass is a block whose stride is its size. -/
def SeqArgs.strides (args : SeqArgs) : StrideArgs := ⟨args.startAddr, args.size, args.size, 0, 0⟩

section Passes

variable {args : SeqArgs} {access start : List Instr} {effect : Word → Data → Data} {events : Word → List Event}
variable {state before : State} {turn : Nat}

theorem sequential_eval (gpr : Reg → Word) : sequential.eval gpr = gpr .r9 + gpr .r8 := by
  simp [sequential, Address.eval, Operand.eval]

theorem moves_load : Moves [.vmovntdqa sequential zmm0, .add (.value 0x40) .r8] ntLoaded where
  counts _ := rfl
  keeps _ _ different := State.set_other different
  touches state := by
    rw [← sequential_eval]
    rfl

theorem moves_nt : Moves [.vmovntdq zmm0 sequential, .add (.value 0x40) .r8] ntStored where
  counts _ := rfl
  keeps _ _ different := State.set_other different
  touches state := by
    rw [← sequential_eval]
    rfl

theorem moves_storeclwb : Moves [.vmovdqa64 zmm0 sequential, .clwb sequential, .add (.value 0x40) .r8] storedBack where
  counts _ := rfl
  keeps _ _ different := State.set_other different
  touches state := by
    rw [← sequential_eval, storedBack, stored]
    change Data.mk _ _ (state.data.trace ++ [_] ++ [_]) = _
    rw [List.append_assoc]
    rfl

theorem exec_seqPass (moves : Moves access effect) (leaves : Leaves effect events)
    (room : args.size.toInt + 64 ≤ 2 ^ 63)
    (located : state.gpr .r9 = args.startAddr + BitVec.ofNat 64 turn * args.size) :
    ∃ after, Exec (seqPass access args) state after ∧ after.gpr .r9 = state.gpr .r9 + args.size ∧
      after.data.trace = state.data.trace ++ (args.strides.block turn).flatMap events := by
  let cleared := runBlock [.xor .r8 .r8] state
  have touches : ∀ turn before, before.gpr .r8 = BitVec.ofNat 64 (64 * turn) →
      (∀ reg, reg ≠ .r8 → before.gpr reg = cleared.gpr reg) →
      (runBlock access before).data = effect (cleared.gpr .r9 + BitVec.ofNat 64 (64 * turn)) before.data := by
    intro turn before counted kept
    rw [moves.touches, counted, kept .r9 (by simp)]
  obtain ⟨swept, ran, kept, touched⟩ :=
    exec_block_loop (by decide) (by decide) room moves.counts moves.keeps touches (BitVec.xor_self ..)
  refine ⟨runBlock [.add (.value args.size) .r9] swept, ⟨cleared, exec_block, swept, ran, _, exec_block, rfl⟩, ?_, ?_⟩
  · change swept.gpr .r9 + args.size = _
    rw [kept .r9 (by simp)]
    rfl
  · change swept.data.trace = _
    have lines : swept.data = through effect state.data (args.strides.block turn) := by
      rw [touched, StrideArgs.block, through, List.foldl_map]
      change List.foldl _ state.data _ = _
      rw [show cleared.gpr .r9 = state.gpr .r9 from rfl, located]
      rfl
    rw [lines, leaves.through]

/-! # All passes -/

/-- The end address is not passed while passes are left. -/
theorem pass_goes_on_iff (ordered : args.startAddr.toNat < args.endAddr.toNat) (inside : args.endAddr.toNat < 2 ^ 63)
    (sized : 0 < args.size.toNat) (room : args.startAddr.toNat + args.passes * args.size.toNat < 2 ^ 63)
    (bound : turn < args.passes) :
    (args.startAddr + BitVec.ofNat 64 (turn + 1) * args.size).slt args.endAddr = true ↔ turn + 1 < args.passes := by
  have reach : (turn + 1) * args.size.toNat ≤ args.passes * args.size.toNat := Nat.mul_le_mul_right _ bound
  have value : (args.startAddr + BitVec.ofNat 64 (turn + 1) * args.size).toNat =
      args.startAddr.toNat + (turn + 1) * args.size.toNat := by
    have product : (BitVec.ofNat 64 (turn + 1) * args.size).toNat = (turn + 1) * args.size.toNat := by
      have small : turn + 1 ≤ (turn + 1) * args.size.toNat := Nat.le_mul_of_pos_right _ sized
      have counted : (turn + 1) % 2 ^ 64 = turn + 1 := Nat.mod_eq_of_lt (by omega)
      rw [BitVec.toNat_mul, BitVec.toNat_ofNat, counted, Nat.mod_eq_of_lt (by omega)]
    rw [BitVec.toNat_add, product, Nat.mod_eq_of_lt (by omega)]
  have signed : (args.startAddr + BitVec.ofNat 64 (turn + 1) * args.size).slt args.endAddr = true ↔
      args.startAddr.toNat + (turn + 1) * args.size.toNat < args.endAddr.toNat := by
    rw [BitVec.slt_iff_toInt_lt, BitVec.toInt_eq_toNat_of_lt (by omega), BitVec.toInt_eq_toNat_of_lt (by omega), value]
    exact Int.ofNat_lt
  have left : turn + 1 < args.passes ↔
      (turn + 1) * args.size.toNat < args.endAddr.toNat - args.startAddr.toNat := by
    rw [← Nat.succ_le_iff, SeqArgs.passes, Nat.le_div_iff_mul_le sized, Nat.succ_mul]
    omega
  rw [signed, left]
  omega

theorem passes_pos (ordered : args.startAddr.toNat < args.endAddr.toNat) (sized : 0 < args.size.toNat) :
    0 < args.passes := by
  rw [SeqArgs.passes]
  exact Nat.div_pos (by omega) sized

/-- Instructions that put the start address into `r9`, and access no memory. -/
structure Begins (start : List Instr) (args : SeqArgs) : Prop where
  located : ∀ state, (runBlock start state).gpr .r9 = args.startAddr
  untraced : ∀ state, (runBlock start state).data.trace = state.data.trace

theorem exec_seq (before : State) (begins : Begins start args) (moves : Moves access effect) (leaves : Leaves effect events)
    (ordered : args.startAddr.toNat < args.endAddr.toNat) (inside : args.endAddr.toNat < 2 ^ 63)
    (sized : 0 < args.size.toNat) (sizeRoom : args.size.toInt + 64 ≤ 2 ^ 63)
    (room : args.startAddr.toNat + args.passes * args.size.toNat < 2 ^ 63) :
    ∃ after, Exec (.sequence [.block start, .loop (seqPass access args) (.value args.endAddr) .r9]) before after ∧
      after.data.trace = before.data.trace ++
        (List.range args.passes).flatMap fun pass => (args.strides.block pass).flatMap events := by
  let Inv : Nat → State → Prop := fun turn after =>
    after.gpr .r9 = args.startAddr + BitVec.ofNat 64 turn * args.size ∧
    after.data.trace = before.data.trace ++
      (List.range turn).flatMap fun pass => (args.strides.block pass).flatMap events
  have step : ∀ turn < args.passes, ∀ before, Inv turn before →
      ∃ after, Exec (seqPass access args) before after ∧ Inv (turn + 1) after ∧
        (after.below (.value args.endAddr) .r9 = true ↔ turn + 1 < args.passes) := by
    intro turn bound before invariant
    obtain ⟨located, traced⟩ := invariant
    obtain ⟨after, ran, moved, accessed⟩ := exec_seqPass moves leaves sizeRoom located
    have next : after.gpr .r9 = args.startAddr + BitVec.ofNat 64 (turn + 1) * args.size := by
      rw [moved, located, BitVec.ofNat_add, BitVec.add_mul, BitVec.one_mul, BitVec.add_assoc]
    refine ⟨after, ran, ⟨next, ?_⟩, ?_⟩
    · rw [accessed, traced, List.range_succ, List.flatMap_append, List.flatMap_singleton, List.append_assoc]
    · rw [State.below, next]
      exact pass_goes_on_iff ordered inside sized room bound
  have begun : Inv 0 (runBlock start before) := by
    refine ⟨?_, (begins.untraced before).trans (List.append_nil _).symm⟩
    rw [begins.located, BitVec.zero_mul, BitVec.add_zero]
  obtain ⟨after, ran, _, traced⟩ := DoWhile.counted Inv (passes_pos ordered sized) step begun
  exact ⟨after, ⟨_, exec_block, after, ran, rfl⟩, traced⟩

theorem begins_load (args : SeqArgs) : Begins [.mov (.value args.startAddr) .r9] args where
  located _ := State.set_same
  untraced _ := rfl

theorem begins_store (args : SeqArgs) :
    Begins [.mov (.value args.startAddr) .r9, .movqXmm (.value args.startAddr) zmm0] args where
  located _ := rfl
  untraced _ := rfl

end Passes

/-! # Lines -/

def SeqArgs.line (args : SeqArgs) (pass j : Nat) : Word :=
  args.startAddr + BitVec.ofNat 64 pass * args.size + BitVec.ofNat 64 (64 * j)

/-- Those of all passes, of as many lines as `size` bytes reach into. -/
def SeqArgs.lines (args : SeqArgs) : List Word :=
  (List.range args.passes).flatMap fun pass => (List.range ((args.size.toNat + 63) / 64)).map (args.line pass)

section Lines

variable {args : SeqArgs}

theorem line_toNat (room : args.startAddr.toNat + args.passes * args.size.toNat < 2 ^ 63) {pass j : Nat}
    (bound : pass < args.passes) (bound' : j < (args.size.toNat + 63) / 64) :
    (args.line pass j).toNat = args.startAddr.toNat + (pass * args.size.toNat + 64 * j) ∧
      pass * args.size.toNat + 64 * j < args.passes * args.size.toNat := by
  have reach : (pass + 1) * args.size.toNat ≤ args.passes * args.size.toNat := Nat.mul_le_mul_right _ bound
  rw [Nat.succ_mul] at reach
  have inside : pass * args.size.toNat + 64 * j < args.passes * args.size.toNat := by omega
  have offset : args.line pass j = args.startAddr + BitVec.ofNat 64 (pass * args.size.toNat + 64 * j) :=
    @line_offset args.strides pass j
  refine ⟨?_, inside⟩
  rw [offset]
  generalize pass * args.size.toNat + 64 * j = distance at inside
  bv_omega

theorem linesFrom_covers {address byte : Word} {count : Nat} (fits : address.toNat + 64 * count ≤ 2 ^ 64) :
    (∃ line ∈ linesFrom address count, byte ∈ Range.mk line 64) ↔
      address.toNat ≤ byte.toNat ∧ byte.toNat < address.toNat + 64 * count := by
  have value {i : Nat} (bound : i < count) : (address + BitVec.ofNat 64 (64 * i)).toNat = address.toNat + 64 * i := by
    bv_omega
  apply Iff.intro
  · intro covered
    obtain ⟨line, member, inside⟩ := covered
    obtain ⟨i, inRange, rfl⟩ := List.mem_map.mp member
    have bound := List.mem_range.mp inRange
    rw [Range.mem_between (by rw [value bound]; omega), value bound] at inside
    omega
  · intro between
    have bound : (byte.toNat - address.toNat) / 64 < count := by omega
    refine ⟨_, List.mem_map_of_mem (List.mem_range.mpr bound), ?_⟩
    rw [Range.mem_between (by rw [value bound]; omega), value bound]
    omega

theorem linesFrom_increasing {address : Word} {count : Nat} (fits : address.toNat + 64 * count ≤ 2 ^ 64) :
    (linesFrom address count).Pairwise fun line later => line.toNat < later.toNat := by
  apply List.pairwise_map.mpr
  apply List.Pairwise.imp_of_mem _ List.pairwise_lt_range
  intro i j _ inRange before
  have bound := List.mem_range.mp inRange
  bv_omega

/-- Whole lines in each pass, and whole passes up to the end address. -/
theorem lines_contiguous (whole : 64 ∣ args.size.toNat) (sized : 0 < args.size.toNat)
    (divides : args.size.toNat ∣ args.endAddr.toNat - args.startAddr.toNat) :
    args.lines = linesFrom args.startAddr ((args.endAddr.toNat - args.startAddr.toNat) / 64) := by
  obtain ⟨perPass, size⟩ := whole
  obtain ⟨passes, length⟩ := divides
  have counted : args.passes = passes := by
    rw [SeqArgs.passes, length, Nat.add_sub_assoc sized, Nat.mul_add_div sized,
      Nat.div_eq_of_lt (Nat.sub_lt sized Nat.one_pos), Nat.add_zero]
  have lines : (args.size.toNat + 63) / 64 = perPass := by omega
  have total : (args.endAddr.toNat - args.startAddr.toNat) / 64 = perPass * passes := by
    rw [length, size, Nat.mul_assoc, Nat.mul_div_cancel_left _ (by decide)]
  rw [SeqArgs.lines, counted, lines, total, ← linesFrom_flatMap]
  apply List.flatMap_congr
  intro pass _
  have offset : BitVec.ofNat 64 (64 * perPass * pass) = BitVec.ofNat 64 pass * args.size := by
    rw [← size, BitVec.ofNat_mul, BitVec.ofNat_toNat, BitVec.setWidth_eq, BitVec.mul_comm]
  rw [offset]
  rfl

end Lines

/-! # All four kernels -/

inductive SeqKernel where
  | load | store | clwb | nt
deriving DecidableEq, Repr

def SeqKernel.code : SeqKernel → SeqArgs → Code
  | .load => seqLoad
  | .store => seqStore
  | .clwb => seqClwb
  | .nt => seqNt

/-- The accesses to one line.  `seq_store` writes its lines back as `seq_clwb` does. -/
def SeqKernel.events (line : Word) : SeqKernel → List Event
  | .load => [.ntLoad line]
  | .store => [.store line 64, .clwb line]
  | .clwb => [.store line 64, .clwb line]
  | .nt => [.ntStore line]

theorem SeqKernel.form (kernel : SeqKernel) (args : SeqArgs) : ∃ start access effect,
    kernel.code args = .sequence [.block start, .loop (seqPass access args) (.value args.endAddr) .r9] ∧
      Begins start args ∧ Moves access effect ∧ Leaves effect fun line => kernel.events line := by
  cases kernel with
  | load => exact ⟨_, _, _, rfl, begins_load args, moves_load, leaves_loaded⟩
  | store => exact ⟨_, _, _, rfl, begins_store args, moves_storeclwb, leaves_stored _⟩
  | clwb => exact ⟨_, _, _, rfl, begins_store args, moves_storeclwb, leaves_stored _⟩
  | nt => exact ⟨_, _, _, rfl, begins_store args, moves_nt, leaves_stored _⟩

theorem SeqKernel.accesses (kernel : SeqKernel) (line : Word) : accessedLines (kernel.events line) = [line] := by
  cases kernel <;> rfl

theorem SeqKernel.onLine (kernel : SeqKernel) : OnLine fun line => kernel.events line := by
  cases kernel with
  | load => exact onLine_load
  | store => exact onLine_storeclwb
  | clwb => exact onLine_storeclwb
  | nt => exact onLine_nt

/-- Every line is accessed in full. -/
theorem SeqKernel.spans (kernel : SeqKernel) (line : Word) : ∃ event ∈ kernel.events line, event.footprint = ⟨line, 64⟩ := by
  cases kernel with
  | load => exact ⟨_, List.mem_cons_self, rfl⟩
  | store => exact ⟨_, List.mem_cons_self, rfl⟩
  | clwb => exact ⟨_, List.mem_cons_self, rfl⟩
  | nt => exact ⟨_, List.mem_cons_self, rfl⟩

theorem SeqKernel.touches (kernel : SeqKernel) (lines : List Word) (byte : Word) :
    (∃ event ∈ lines.flatMap fun line => kernel.events line, byte ∈ event.footprint) ↔
      ∃ line ∈ lines, byte ∈ Range.mk line 64 := by
  apply Iff.intro
  · intro touched
    obtain ⟨event, member, inside⟩ := touched
    obtain ⟨line, inLines, inEvents⟩ := List.mem_flatMap.mp member
    exact ⟨line, inLines, kernel.onLine.inside line event inEvents byte inside⟩
  · intro covered
    obtain ⟨line, inLines, inside⟩ := covered
    obtain ⟨event, inEvents, whole⟩ := kernel.spans line
    exact ⟨event, List.mem_flatMap.mpr ⟨line, inLines, inEvents⟩, whole ▸ inside⟩

theorem line_below {args : SeqArgs} (room : args.startAddr.toNat + args.passes * args.size.toNat < 2 ^ 63) {line byte : Word}
    (member : line ∈ args.lines) (inside : byte ∈ Range.mk line 64) :
    byte.toNat < args.startAddr.toNat + args.size.toNat * args.passes + 63 := by
  obtain ⟨pass, inPasses, inBlock⟩ := List.mem_flatMap.mp member
  obtain ⟨j, inLines, rfl⟩ := List.mem_map.mp inBlock
  obtain ⟨value, short⟩ := line_toNat room (List.mem_range.mp inPasses) (List.mem_range.mp inLines)
  rw [Range.mem_between (by omega), value] at inside
  rw [Nat.mul_comm args.size.toNat]
  omega

theorem SeqKernel.accessesLine (kernel : SeqKernel) : AccessesLine fun line => kernel.events line := by
  cases kernel with
  | load => exact accessesLine_ntLoad
  | store => exact accessesLine_storeclwb
  | clwb => exact accessesLine_storeclwb
  | nt => exact accessesLine_ntStore

/-- A range below 2^63, and passes that leave `r8` and `r9` in the range of `long`. -/
structure SeqArgs.Ranged (args : SeqArgs) : Prop where
  nonneg : 0 ≤ args.startAddr.toInt
  ordered : args.startAddr.toInt < args.endAddr.toInt
  sized : 1 ≤ args.size.toInt
  sizeRoom : args.size.toInt + 64 ≤ 2 ^ 63
  room : args.startAddr.toNat + args.passes * args.size.toNat < 2 ^ 63

section Ranged

variable {args : SeqArgs} {before after : State} {trace : List Event}

theorem SeqArgs.Ranged.values (ranged : args.Ranged) : (args.startAddr.toNat : Int) = args.startAddr.toInt ∧
    (args.endAddr.toNat : Int) = args.endAddr.toInt ∧ (args.size.toNat : Int) = args.size.toInt := by
  have nonneg := ranged.nonneg
  have ordered := ranged.ordered
  have sized := ranged.sized
  exact ⟨Word.toNat_eq_toInt nonneg, Word.toNat_eq_toInt (by omega), Word.toNat_eq_toInt (by omega)⟩

/-- Passes that end below the upper bound of the canonical addresses. -/
theorem SeqArgs.Ranged.canonical (ranged : args.Ranged)
    (low : args.startAddr.toNat + args.passes * args.size.toNat ≤ 2 ^ 56) : ∀ line ∈ args.lines, Canonical line := by
  intro line member
  obtain ⟨pass, inPasses, inBlock⟩ := List.mem_flatMap.mp member
  obtain ⟨j, inLines, rfl⟩ := List.mem_map.mp inBlock
  obtain ⟨value, short⟩ := line_toNat ranged.room (List.mem_range.mp inPasses) (List.mem_range.mp inLines)
  unfold Canonical
  rw [BitVec.toInt_eq_toNat_of_lt (by omega), value]
  omega

theorem SeqKernel.exec (kernel : SeqKernel) (ranged : args.Ranged) (before : State) :
    ∃ after, Exec (kernel.code args) before after ∧
      after.data.trace = before.data.trace ++ args.lines.flatMap fun line => kernel.events line := by
  obtain ⟨startValue, endValue, sizeValue⟩ := ranged.values
  have ordered := ranged.ordered
  have sized := ranged.sized
  have endInside := BitVec.toInt_lt (x := args.endAddr)
  obtain ⟨start, access, effect, form, begins, moves, leaves⟩ := kernel.form args
  obtain ⟨after, ran, traced⟩ := exec_seq before begins moves leaves (by omega) (by omega) (by omega)
    ranged.sizeRoom ranged.room
  refine ⟨after, form ▸ ran, ?_⟩
  rw [traced, SeqArgs.lines, List.flatMap_assoc]
  congr 1
  apply List.flatMap_congr
  intro pass _
  have sizedBlock : 1 ≤ args.strides.size.toInt := sized
  rw [block_eq sizedBlock]
  rfl

theorem SeqKernel.traced (kernel : SeqKernel) (ranged : args.Ranged) (ran : Exec (kernel.code args) before after) :
    after.data.trace = before.data.trace ++ args.lines.flatMap fun line => kernel.events line := by
  obtain ⟨other, ran', traced⟩ := kernel.exec ranged before
  rwa [ran.unique ran']

/-- The second pass begins `size` bytes behind the start address. -/
theorem SeqKernel.runs_iff (kernel : SeqKernel) (ranged : args.Ranged) (before : State) :
    (∃ after trace, Runs (kernel.code args) before after trace) ↔ 64 ∣ args.startAddr.toNat ∧
      (64 ∣ args.size.toNat ∨ args.passes = 1) ∧ ∀ line ∈ args.lines, Canonical line := by
  obtain ⟨startValue, endValue, sizeValue⟩ := ranged.values
  have ordered := ranged.ordered
  have sized := ranged.sized
  obtain ⟨after, ran, _⟩ := kernel.exec ranged before
  have ends : ∃ after, Exec (kernel.code args) before after := ⟨after, ran⟩
  have inLines {Holds : Word → Prop} : (∀ line ∈ args.lines, Holds line) ↔
      ∀ pass < args.passes, ∀ j < (args.size.toNat + 63) / 64, Holds (args.strides.line pass j) := by
    simp only [SeqArgs.lines, List.mem_flatMap, List.mem_map, List.mem_range]
    apply Iff.intro
    · intro all pass bound j bound'
      exact all _ ⟨pass, bound, j, bound', rfl⟩
    · intro all line found
      obtain ⟨pass, bound, j, bound', rfl⟩ := found
      exact all pass bound j bound'
  have accessible : (∀ i < args.passes, ∀ j < (args.size.toNat + 63) / 64, Accessible (args.strides.line i j)) ↔ _ :=
    lines_accessible (passes_pos (by omega) (by omega)) (by omega)
  rw [X86.runs_iff fun _ ran => kernel.traced ranged ran, kernel.accessesLine.lines, inLines, inLines, accessible]
  exact and_iff_right ends

end Ranged

/-- Every kernel runs to its end, unless a vector access faults, and touches the
lines of all passes in order: none of their bytes lies 63 bytes or more behind
the last pass.  With whole lines in a pass and whole passes in the range these
are the lines of the range, ascending, and every touched byte lies in it. -/
theorem seq_covers (args : SeqArgs) (ranged : args.Ranged) (kernel : SeqKernel) (before : State) :
    ((∃ after trace, Runs (kernel.code args) before after trace) ↔ 64 ∣ args.startAddr.toNat ∧
      (64 ∣ args.size.toNat ∨ args.passes = 1) ∧ ∀ line ∈ args.lines, Canonical line) ∧
    ∀ after trace, Runs (kernel.code args) before after trace →
      (trace = (List.range args.passes).flatMap fun k =>
        (List.range ((args.size.toNat + 63) / 64)).flatMap fun j => kernel.events (args.line k j)) ∧
      accessedLines trace = args.lines ∧
      (∀ event ∈ trace, ∀ byte ∈ event.footprint,
        byte.toNat < args.startAddr.toNat + args.size.toNat * args.passes + 63) ∧
      (64 ∣ args.size.toNat → args.size.toNat ∣ args.endAddr.toNat - args.startAddr.toNat →
        accessedLines trace = linesFrom args.startAddr ((args.endAddr.toNat - args.startAddr.toNat) / 64) ∧
        (accessedLines trace).Pairwise (fun line later => line.toNat < later.toNat) ∧
        ∀ byte, (∃ event ∈ trace, byte ∈ event.footprint) ↔
          args.startAddr.toNat ≤ byte.toNat ∧ byte.toNat < args.endAddr.toNat) := by
  refine ⟨kernel.runs_iff ranged before, fun after trace runs => ?_⟩
  obtain ⟨startValue, endValue, sizeValue⟩ := ranged.values
  have ordered := ranged.ordered
  have sized := ranged.sized
  have endInside := BitVec.toInt_lt (x := args.endAddr)
  have positive : 0 < args.size.toNat := by omega
  rw [runs.events_eq (kernel.traced ranged runs.exec)]
  refine ⟨?_, accessedLines_flatMap kernel.accesses _, ?_, ?_⟩
  · rw [SeqArgs.lines, List.flatMap_assoc]
    simp only [List.flatMap_map]
  · intro event member byte inside
    obtain ⟨line, inLines, covered⟩ := (kernel.touches args.lines byte).mp ⟨event, member, inside⟩
    exact line_below ranged.room inLines covered
  · intro whole divides
    have contiguous := lines_contiguous whole positive divides
    obtain ⟨count, length⟩ := Nat.dvd_trans whole divides
    have fits : args.startAddr.toNat + 64 * ((args.endAddr.toNat - args.startAddr.toNat) / 64) = args.endAddr.toNat := by
      omega
    rw [accessedLines_flatMap kernel.accesses, contiguous]
    refine ⟨rfl, linesFrom_increasing (by omega), fun byte => ?_⟩
    rw [kernel.touches, linesFrom_covers (by omega), fits]

theorem seq_covers_two : ∃ after trace, Runs (seqStore ⟨0x1000, 0x1100, 128⟩) .blank after trace ∧
    accessedLines trace = [0x1000, 0x1040, 0x1080, 0x10c0] := by
  have ranged : SeqArgs.Ranged ⟨0x1000, 0x1100, 128⟩ := ⟨by decide, by decide, by decide, by decide, by decide⟩
  obtain ⟨runsIff, covers⟩ := seq_covers ⟨0x1000, 0x1100, 128⟩ ranged .store .blank
  obtain ⟨after, trace, runs⟩ := runsIff.mpr ⟨by decide, .inl (by decide), ranged.canonical (by decide)⟩
  obtain ⟨_, _, _, contiguous⟩ := covers after trace runs
  exact ⟨after, trace, runs, (contiguous (by decide) (by decide)).1⟩

/-- The second of two passes of 100 bytes begins inside a line, at 0x1064. -/
theorem seq_misaligned : SeqArgs.Ranged ⟨0x1000, 4296, 100⟩ ∧
    (∀ line ∈ SeqArgs.lines ⟨0x1000, 4296, 100⟩, Canonical line) ∧
    ¬ ∃ after trace, Runs (seqStore ⟨0x1000, 4296, 100⟩) .blank after trace := by
  have ranged : SeqArgs.Ranged ⟨0x1000, 4296, 100⟩ := ⟨by decide, by decide, by decide, by decide, by decide⟩
  refine ⟨ranged, ranged.canonical (by decide), fun ended => ?_⟩
  obtain ⟨_, whole, _⟩ := (SeqKernel.store.runs_iff ranged .blank).mp ended
  exact absurd whole (by decide)

end RwSep.MemAccess
