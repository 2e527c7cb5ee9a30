import RwSep.MemAccess.Footprint
import RwSep.MemAccess.WriteBack

namespace RwSep.MemAccess

open RwSep.Data RwSep.Execution RwSep.X86

/-! The random-bandwidth kernels of memaccess.c.

All four share one loop: a turn draws four offsets, and sweeps `size` bytes
from each in steps of 512.  They differ in the access macro and in the
registers they clear first.
-/

def SIZEBTNT_512_AVX512 : List Instr :=
  [.vmovntdq zmm0 (accessedAt 0x0), .vmovntdq zmm0 (accessedAt 0x40),
    .vmovntdq zmm0 (accessedAt 0x80), .vmovntdq zmm0 (accessedAt 0xc0),
    .vmovntdq zmm0 (accessedAt 0x100), .vmovntdq zmm0 (accessedAt 0x140),
    .vmovntdq zmm0 (accessedAt 0x180), .vmovntdq zmm0 (accessedAt 0x1c0),
    .add (.value 0x200) .r10]

def SIZEBTST_512_AVX512 : List Instr :=
  [.vmovdqa64 zmm0 (accessedAt 0x0), .vmovdqa64 zmm0 (accessedAt 0x40),
    .vmovdqa64 zmm0 (accessedAt 0x80), .vmovdqa64 zmm0 (accessedAt 0xc0),
    .vmovdqa64 zmm0 (accessedAt 0x100), .vmovdqa64 zmm0 (accessedAt 0x140),
    .vmovdqa64 zmm0 (accessedAt 0x180), .vmovdqa64 zmm0 (accessedAt 0x1c0),
    .add (.value 0x200) .r10]

def SIZEBTLD_512_AVX512 : List Instr :=
  [.vmovntdqa (accessedAt 0x0) zmm0, .vmovntdqa (accessedAt 0x40) (zmm 1),
    .vmovntdqa (accessedAt 0x80) (zmm 2), .vmovntdqa (accessedAt 0xc0) (zmm 3),
    .vmovntdqa (accessedAt 0x100) (zmm 4), .vmovntdqa (accessedAt 0x140) (zmm 5),
    .vmovntdqa (accessedAt 0x180) (zmm 6), .vmovntdqa (accessedAt 0x1c0) (zmm 7),
    .add (.value 0x200) .r10]

def sizebwOne (access : List Instr) (fence : Instr) (args : SizeBwArgs) : Code :=
  .sequence [
    .block (RandLFSR64 args.randSeed args.accessMask),
    .block [.lea ⟨0, .value args.startAddr, .reg .r8, 1⟩ .r9, .xor .r10 .r10],
    .loop (.block access) (.value args.size) .r10,
    .block [fence]]

/-- The body of the outer loop: the four copies of the block. -/
def sizebwTurn (access : List Instr) (fence : Instr) (args : SizeBwArgs) : Code :=
  .sequence [
    sizebwOne access fence args,
    sizebwOne access fence args,
    sizebwOne access fence args,
    sizebwOne access fence args,
    .block [.add (.value 4) .r11]]

def sizebw (start access : List Instr) (fence : Instr) (args : SizeBwArgs) : Code :=
  .sequence [.block start, .loop (sizebwTurn access fence args) (.value args.count) .r11]

def sizebwLoad : SizeBwArgs → Code :=
  sizebw [.mov (.value lfsrMask) .rcx, .xor .r8 .r8, .xor .r11 .r11] SIZEBTLD_512_AVX512 SIZEBTLD_FENCE

def sizebwNt (args : SizeBwArgs) : Code :=
  sizebw [.mov (.value lfsrMask) .rcx, .xor .r11 .r11, .movqXmm (.value args.startAddr) zmm0]
    SIZEBTNT_512_AVX512 SIZEBTST_FENCE args

def sizebwStore (args : SizeBwArgs) : Code :=
  sizebw [.mov (.value lfsrMask) .rcx, .xor .r11 .r11, .movqXmm (.value args.startAddr) zmm0]
    SIZEBTST_512_AVX512 SIZEBTST_FENCE args

theorem sizebwStoreclwb_eq (args : SizeBwArgs) : sizebwStoreclwb args =
    sizebw [.mov (.value lfsrMask) .rcx, .xor .r11 .r11, .movqXmm (.value args.startAddr) zmm0]
      SIZEBTSTFLUSH_512_AVX512 SIZEBTST_FENCE args := rfl

/-! # Accesses -/

/-- Instructions that access the line at some distance from `r9 + r10`, and no other memory. -/
structure AtLine (instrs : List Instr) (disp : Nat) (events : Word → List Event) : Prop where
  keeps : ∀ state, (runBlock instrs state).gpr = state.gpr
  traced : ∀ state, (runBlock instrs state).data.trace =
    state.data.trace ++ events (state.gpr .r9 + state.gpr .r10 + BitVec.ofNat 64 disp)
  frame : ∀ state byte, byte ∉ Range.mk (state.gpr .r9 + state.gpr .r10 + BitVec.ofNat 64 disp) 64 →
    (runBlock instrs state).data.memory byte = state.data.memory byte

/-- An access macro that sweeps some lines from `r9 + r10` on. -/
structure Sweeps (access : List Instr) (lines : Nat) (events : Word → List Event) : Prop where
  counts : ∀ state, (runBlock access state).gpr .r10 = state.gpr .r10 + BitVec.ofNat 64 (64 * lines)
  keeps : ∀ state reg, reg ≠ .r10 → (runBlock access state).gpr reg = state.gpr reg
  traced : ∀ state, (runBlock access state).data.trace = state.data.trace ++
    (List.range lines).flatMap fun j => events (state.gpr .r9 + state.gpr .r10 + BitVec.ofNat 64 (64 * j))
  frame : ∀ state byte, byte ∉ Range.mk (state.gpr .r9 + state.gpr .r10) (64 * lines) →
    (runBlock access state).data.memory byte = state.data.memory byte

section Accesses

variable {events : Word → List Event} {disp lines count : Nat} {state : State} {oneLine : Nat → List Instr}

theorem accessedAt_eval (gpr : Reg → Word) : (accessedAt (BitVec.ofNat 64 disp)).eval gpr =
    gpr .r9 + gpr .r10 + BitVec.ofNat 64 disp := by
  have sum : (accessedAt (BitVec.ofNat 64 disp)).eval gpr = BitVec.ofNat 64 disp + gpr .r9 + gpr .r10 := by
    simp [accessedAt, Address.eval, Operand.eval]
  rw [sum, BitVec.add_assoc, BitVec.add_comm]

theorem atLine_nt : AtLine [.vmovntdq zmm0 (accessedAt (BitVec.ofNat 64 disp))] disp fun line => [.ntStore line] where
  keeps _ := rfl
  traced state := by
    rw [← accessedAt_eval]
    rfl
  frame state byte outside := by
    rw [← accessedAt_eval] at outside
    exact Memory.writeLine_outside outside

theorem atLine_store :
    AtLine [.vmovdqa64 zmm0 (accessedAt (BitVec.ofNat 64 disp))] disp fun line => [.store line 64] where
  keeps _ := rfl
  traced state := by
    rw [← accessedAt_eval]
    rfl
  frame state byte outside := by
    rw [← accessedAt_eval] at outside
    exact Memory.writeLine_outside outside

theorem atLine_storeclwb :
    AtLine [.vmovdqa64 zmm0 (accessedAt (BitVec.ofNat 64 disp)), .clwb (accessedAt (BitVec.ofNat 64 disp))] disp
      fun line => [.store line 64, .clwb line] where
  keeps _ := rfl
  traced state := by
    rw [← accessedAt_eval]
    exact List.append_assoc ..
  frame state byte outside := by
    rw [← accessedAt_eval] at outside
    exact Memory.writeLine_outside outside

theorem atLine_load (reg : Fin 32) :
    AtLine [.vmovntdqa (accessedAt (BitVec.ofNat 64 disp)) reg] disp fun line => [.ntLoad line] where
  keeps _ := rfl
  traced state := by
    rw [← accessedAt_eval]
    rfl
  frame _ _ _ := rfl

theorem runBlock_append {first second : List Instr} :
    runBlock (first ++ second) state = runBlock second (runBlock first state) :=
  List.foldl_append ..

/-- The first lines of a macro: the registers stay, so the next line is found from where the first was. -/
theorem lines_access (accesses : ∀ j, AtLine (oneLine j) (64 * j) events) (state : State) (bound : count ≤ lines)
    (short : 64 * lines < 2 ^ 64) :
    (runBlock ((List.range count).flatMap oneLine) state).gpr = state.gpr ∧
      (runBlock ((List.range count).flatMap oneLine) state).data.trace = state.data.trace ++
        (List.range count).flatMap (fun j => events (state.gpr .r9 + state.gpr .r10 + BitVec.ofNat 64 (64 * j))) ∧
      ∀ byte, byte ∉ Range.mk (state.gpr .r9 + state.gpr .r10) (64 * lines) →
        (runBlock ((List.range count).flatMap oneLine) state).data.memory byte = state.data.memory byte := by
  induction count with
  | zero => exact ⟨rfl, (List.append_nil _).symm, fun _ _ => rfl⟩
  | succ count ih =>
      obtain ⟨kept, traced, frame⟩ := ih (Nat.le_of_succ_le bound)
      rw [List.range_succ, List.flatMap_append, List.flatMap_append, List.flatMap_singleton,
        List.flatMap_singleton, runBlock_append]
      refine ⟨?_, ?_, fun byte outside => ?_⟩
      · rw [(accesses count).keeps, kept]
      · rw [(accesses count).traced, traced, kept, List.append_assoc]
      · rw [(accesses count).frame, frame byte outside]
        rw [kept]
        intro inside
        have fits : 64 * count + 64 ≤ 64 * lines := by omega
        have within := Range.inside_of_offset ⟨state.gpr .r9 + state.gpr .r10, 64 * lines⟩ fits short
        exact outside (within.mem (Nat.le_of_lt short) inside)

theorem sweeps_lines (lines : Nat) (accesses : ∀ j, AtLine (oneLine j) (64 * j) events) (short : 64 * lines < 2 ^ 64) :
    Sweeps ((List.range lines).flatMap oneLine ++ [.add (.value (BitVec.ofNat 64 (64 * lines))) .r10]) lines events where
  counts state := by
    rw [runBlock_append, ← (lines_access accesses state (Nat.le_refl lines) short).1]
    exact State.set_same
  keeps state reg different := by
    rw [runBlock_append, ← (lines_access accesses state (Nat.le_refl lines) short).1]
    exact State.set_other different
  traced state := by
    rw [runBlock_append]
    exact (lines_access accesses state (Nat.le_refl lines) short).2.1
  frame state byte outside := by
    rw [runBlock_append]
    exact (lines_access accesses state (Nat.le_refl lines) short).2.2 byte outside

theorem sweeps_nt : Sweeps SIZEBTNT_512_AVX512 8 fun line => [.ntStore line] :=
  sweeps_lines 8 (fun _ => atLine_nt) (by omega)

theorem sweeps_store : Sweeps SIZEBTST_512_AVX512 8 fun line => [.store line 64] :=
  sweeps_lines 8 (fun _ => atLine_store) (by omega)

theorem sweeps_storeclwb : Sweeps SIZEBTSTFLUSH_512_AVX512 8 fun line => [.store line 64, .clwb line] :=
  sweeps_lines 8 (fun _ => atLine_storeclwb) (by omega)

theorem sweeps_load : Sweeps SIZEBTLD_512_AVX512 8 fun line => [.ntLoad line] :=
  sweeps_lines 8 (fun j => atLine_load (zmm j)) (by omega)

end Accesses

/-! # One block -/

def SizeBwArgs.address (args : SizeBwArgs) (drawn : Word) : Word := args.startAddr + (drawn &&& args.accessMask)

/-- What a block accesses when the generator draws a state, and reaches memory in units of 512 bytes. -/
def SizeBwArgs.pass (args : SizeBwArgs) (events : Word → List Event) (drawn : Word) : List Event :=
  [.load args.randSeed 8, .store args.randSeed 8] ++
    (List.range (8 * turns args.size 512)).flatMap fun j => events (args.address drawn + BitVec.ofNat 64 (64 * j))

def SizeBwArgs.touched (args : SizeBwArgs) (drawn : Word) : Range :=
  ⟨args.address drawn, 512 * turns args.size 512⟩

section Blocks

variable {access start : List Instr} {events : Word → List Event} {args : SizeBwArgs} {size word : Word}
variable {lines count : Nat} {state before after : State}

theorem exec_sweep_loop (sweeps : Sweeps access lines events) (positive : 0 < lines) (small : 64 * lines < 2 ^ 63)
    (room : size.toInt + (64 * lines : Nat) ≤ 2 ^ 63) (zero : state.gpr .r10 = 0) :
    ∃ after, Exec (.loop (.block access) (.value size) .r10) state after ∧
      (∀ reg, reg ≠ .r10 → after.gpr reg = state.gpr reg) ∧
      after.data.trace = state.data.trace ++ (List.range (lines * turns size (64 * lines))).flatMap
        (fun j => events (state.gpr .r9 + BitVec.ofNat 64 (64 * j))) ∧
      ∀ byte, byte ∉ Range.mk (state.gpr .r9) (64 * lines * turns size (64 * lines)) →
        after.data.memory byte = state.data.memory byte := by
  have wide : 0 < 64 * lines := by omega
  have short := turns_short wide small room
  let Inv : Nat → State → Prop := fun turn after =>
    after.gpr .r10 = BitVec.ofNat 64 (64 * lines * turn) ∧
    (∀ reg, reg ≠ .r10 → after.gpr reg = state.gpr reg) ∧
    after.data.trace = state.data.trace ++ (List.range (lines * turn)).flatMap
      (fun j => events (state.gpr .r9 + BitVec.ofNat 64 (64 * j))) ∧
    ∀ byte, byte ∉ Range.mk (state.gpr .r9) (64 * lines * turns size (64 * lines)) →
      after.data.memory byte = state.data.memory byte
  have step : ∀ turn < turns size (64 * lines), ∀ before, Inv turn before →
      ∃ after, Exec (.block access) before after ∧ Inv (turn + 1) after := by
    intro turn bound before invariant
    obtain ⟨counted, kept, traced, frame⟩ := invariant
    have base : before.gpr .r9 = state.gpr .r9 := kept .r9 (by simp)
    refine ⟨runBlock access before, rfl, ?_, fun reg different => ?_, ?_, fun byte outside => ?_⟩
    · rw [sweeps.counts, counted, Nat.mul_succ, BitVec.ofNat_add]
    · rw [sweeps.keeps before reg different, kept reg different]
    · rw [sweeps.traced, traced, counted, base, Nat.mul_succ, List.range_add, List.flatMap_append,
        List.flatMap_map, List.append_assoc]
      simp only [Nat.mul_add, BitVec.ofNat_add, Nat.mul_assoc, BitVec.add_assoc]
    · rw [sweeps.frame before byte, frame byte outside]
      rw [counted, base]
      intro inside
      have fits : 64 * lines * turn + 64 * lines ≤ 64 * lines * turns size (64 * lines) := by
        rw [← Nat.mul_succ]
        exact Nat.mul_le_mul_left _ bound
      have within := Range.inside_of_offset ⟨state.gpr .r9, 64 * lines * turns size (64 * lines)⟩ fits
        (Nat.lt_trans short (by omega))
      exact outside (within.mem (Nat.le_of_lt (Nat.lt_trans short (by omega))) inside)
  obtain ⟨after, ran, _, kept, traced, frame⟩ := exec_counting wide small room Inv
    (fun invariant => invariant.1) step ⟨zero, fun _ _ => rfl, (List.append_nil _).symm, fun _ _ => rfl⟩
  exact ⟨after, ran, kept, traced, frame⟩

theorem exec_draw (args : SizeBwArgs) (state : State) :
    ∃ after, Exec (.block (RandLFSR64 args.randSeed args.accessMask)) state after ∧
      after.gpr .r8 = lfsr (state.gpr .rcx) (state.data.memory.readWord args.randSeed) &&& args.accessMask ∧
      (∀ reg, reg ≠ .r8 → reg ≠ .r9 → reg ≠ .r12 → after.gpr reg = state.gpr reg) ∧
      after.data = { state.data with
        memory := state.data.memory.writeWord args.randSeed
          (lfsr (state.gpr .rcx) (state.data.memory.readWord args.randSeed))
        trace := state.data.trace ++ [.load args.randSeed 8] ++ [.store args.randSeed 8] } :=
  ⟨_, exec_block, draw_offset state, fun _ => draw_keeps state, draw_data state⟩

theorem exec_sizebwOne (sweeps : Sweeps access 8 events) (room : args.size.toInt + 512 ≤ 2 ^ 63) {drawn : Word}
    (draws : lfsr (before.gpr .rcx) (before.data.memory.readWord args.randSeed) = drawn) :
    ∃ after, Exec (sizebwOne access .mfence args) before after ∧
      after.gpr .rcx = before.gpr .rcx ∧ after.gpr .r11 = before.gpr .r11 ∧
      after.data.trace = before.data.trace ++ (args.pass events drawn ++ [.mfence]) ∧
      ∀ byte, byte ∉ args.touched drawn →
        after.data.memory byte = (before.data.memory.writeWord args.randSeed drawn) byte := by
  obtain ⟨advanced, ranDraw, offset, keptDraw, data⟩ := exec_draw args before
  rw [draws] at offset data
  let located := runBlock [.lea ⟨0, .value args.startAddr, .reg .r8, 1⟩ .r9, .xor .r10 .r10] advanced
  have zero : located.gpr .r10 = 0 := State.set_same.trans BitVec.xor_self
  have base : located.gpr .r9 = args.address drawn := by
    simp [located, Instr.step, Address.eval, Operand.eval, State.set, offset, SizeBwArgs.address]
  obtain ⟨swept, ran, kept, traced, frame⟩ := exec_sweep_loop sweeps (by omega) (by omega) (by omega) zero
  simp only [Nat.reduceMul] at traced frame
  have same : ∀ reg, reg ≠ .r8 → reg ≠ .r9 → reg ≠ .r10 → reg ≠ .r12 → swept.gpr reg = before.gpr reg := by
    intro reg notOffset notBase notCounter notState
    rw [kept reg notCounter, ← keptDraw reg notOffset notBase notState]
    change ((advanced.set .r9 _).set .r10 _).gpr reg = _
    rw [State.set_other notCounter, State.set_other notBase]
  refine ⟨runBlock [.mfence] swept,
    ⟨advanced, ranDraw, located, exec_block, swept, ran, _, exec_block, rfl⟩, ?_, ?_, ?_, fun byte outside => ?_⟩
  · exact same .rcx (by simp) (by simp) (by simp) (by simp)
  · exact same .r11 (by simp) (by simp) (by simp) (by simp)
  · change swept.data.trace ++ [.mfence] = _
    rw [traced, base, SizeBwArgs.pass]
    change advanced.data.trace ++ _ ++ _ = _
    rw [data]
    simp only [List.append_assoc, List.cons_append, List.nil_append]
  · change swept.data.memory byte = _
    rw [frame byte (by rwa [base])]
    change advanced.data.memory byte = _
    rw [data]

/-- Where the last value of the counter is not below 2^63, it never passes the access size. -/
theorem sweep_loop_diverges (sweeps : Sweeps access lines events) (divides : 64 * lines ∣ 2 ^ 63)
    (far : 2 ^ 63 < size.toInt + (64 * lines : Nat)) (zero : state.gpr .r10 = 0) :
    ¬ Exec (.loop (.block access) (.value size) .r10) state after := by
  have whole : 64 * lines ∣ 2 ^ 64 := Nat.dvd_trans divides (by decide)
  have step : ∀ {before after : State}, 64 * lines ∣ (before.gpr .r10).toNat →
      Exec (.block access) before after → 64 * lines ∣ (after.gpr .r10).toNat := by
    intro before after counted ran
    cases ran
    rw [sweeps.counts, BitVec.toNat_add, BitVec.toNat_ofNat, Nat.add_mod_mod]
    exact (Nat.dvd_mod_iff whole).mpr (Nat.dvd_add counted (Nat.dvd_refl _))
  have start : 64 * lines ∣ (state.gpr .r10).toNat := by
    rw [zero]
    exact Nat.dvd_zero _
  exact exec_counting_diverges divides far (fun state => 64 * lines ∣ (state.gpr .r10).toNat)
    (fun counted => counted) step start

theorem sizebwOne_keeps_counter (sweeps : Sweeps access 8 events) (room : args.size.toInt + 512 ≤ 2 ^ 63)
    (ran : Exec (sizebwOne access .mfence args) before after) : after.gpr .r11 = before.gpr .r11 := by
  obtain ⟨other, ran', _, counter, _⟩ := @exec_sizebwOne _ _ _ before sweeps room _ rfl
  rw [ran.unique ran', counter]

end Blocks

/-! # All blocks -/

/-- The instructions before the outer loop load the mask of the generator and clear the counter. -/
structure Starts (start : List Instr) : Prop where
  masked : ∀ state, (runBlock start state).gpr .rcx = lfsrMask
  zero : ∀ state, (runBlock start state).gpr .r11 = 0
  untraced : ∀ state, (runBlock start state).data.trace = state.data.trace
  unwritten : ∀ state, (runBlock start state).data.memory = state.data.memory

theorem starts_load : Starts [.mov (.value lfsrMask) .rcx, .xor .r8 .r8, .xor .r11 .r11] where
  masked _ := rfl
  zero _ := State.set_same.trans BitVec.xor_self
  untraced _ := rfl
  unwritten _ := rfl

theorem starts_store (word : Word) :
    Starts [.mov (.value lfsrMask) .rcx, .xor .r11 .r11, .movqXmm (.value word) zmm0] where
  masked _ := rfl
  zero _ := BitVec.xor_self
  untraced _ := rfl
  unwritten _ := rfl

/-- What `count` blocks since `origin` have done. -/
structure Drawn (args : SizeBwArgs) (events : Word → List Event) (seed : Word) (origin : State) (count : Nat)
    (state : State) : Prop where
  masked : state.gpr .rcx = lfsrMask
  generator : state.data.memory.readWord args.randSeed = (lfsr lfsrMask)^[count] seed
  traced : state.data.trace = origin.data.trace ++
    (List.range count).flatMap fun k => args.pass events ((lfsr lfsrMask)^[k + 1] seed) ++ [.mfence]

section Run

variable {access start : List Instr} {events : Word → List Event} {args : SizeBwArgs} {seed : Word}
variable {count : Nat} {origin before after : State}

theorem Drawn.next (sweeps : Sweeps access 8 events) (room : args.size.toInt + 512 ≤ 2 ^ 63)
    (apart : (Range.mk args.randSeed 8).Disjoint (args.touched ((lfsr lfsrMask)^[count + 1] seed)))
    (drawn : Drawn args events seed origin count before) :
    ∃ after, Exec (sizebwOne access .mfence args) before after ∧ after.gpr .r11 = before.gpr .r11 ∧
      Drawn args events seed origin (count + 1) after := by
  have draws : lfsr (before.gpr .rcx) (before.data.memory.readWord args.randSeed) =
      (lfsr lfsrMask)^[count + 1] seed := by
    rw [drawn.masked, drawn.generator, Function.iterate_succ_apply']
  obtain ⟨after, ran, masked, counter, traced, frame⟩ := exec_sizebwOne sweeps room draws
  refine ⟨after, ran, counter, masked.trans drawn.masked, ?_, ?_⟩
  · rw [Memory.readWord_congr fun byte inside => frame byte (apart byte inside), Memory.readWord_writeWord]
  · rw [traced, drawn.traced, List.range_succ, List.flatMap_append, List.flatMap_singleton, List.append_assoc]

theorem exec_sizebw (starts : Starts start) (sweeps : Sweeps access 8 events)
    (sizeRoom : args.size.toInt + 512 ≤ 2 ^ 63) (countRoom : args.count.toInt + 4 ≤ 2 ^ 63)
    (held : before.data.memory.readWord args.randSeed = seed)
    (apart : ∀ k < 4 * turns args.count 4,
      (Range.mk args.randSeed 8).Disjoint (args.touched ((lfsr lfsrMask)^[k + 1] seed))) :
    ∃ after, Exec (sizebw start access .mfence args) before after ∧
      Drawn args events seed before (4 * turns args.count 4) after := by
  let Inv : Nat → State → Prop := fun turn state =>
    state.gpr .r11 = BitVec.ofNat 64 (4 * turn) ∧ Drawn args events seed before (4 * turn) state
  have step : ∀ turn < turns args.count 4, ∀ state, Inv turn state →
      ∃ after, Exec (sizebwTurn access .mfence args) state after ∧ Inv (turn + 1) after := by
    intro turn bound state invariant
    obtain ⟨counted, drawn⟩ := invariant
    obtain ⟨first, ranFirst, keptFirst, drawn⟩ := drawn.next sweeps sizeRoom (apart _ (by omega))
    obtain ⟨second, ranSecond, keptSecond, drawn⟩ := drawn.next sweeps sizeRoom (apart _ (by omega))
    obtain ⟨third, ranThird, keptThird, drawn⟩ := drawn.next sweeps sizeRoom (apart _ (by omega))
    obtain ⟨fourth, ranFourth, keptFourth, drawn⟩ := drawn.next sweeps sizeRoom (apart _ (by omega))
    refine ⟨runBlock [.add (.value 4) .r11] fourth,
      ⟨first, ranFirst, second, ranSecond, third, ranThird, fourth, ranFourth, _, exec_block, rfl⟩,
      ?_, drawn.masked, drawn.generator, drawn.traced⟩
    change fourth.gpr .r11 + 4 = _
    rw [keptFourth, keptThird, keptSecond, keptFirst, counted, Nat.mul_succ, BitVec.ofNat_add]
    rfl
  have started : Drawn args events seed before 0 (runBlock start before) := by
    constructor
    · exact starts.masked before
    · rw [starts.unwritten, held, Function.iterate_zero, id]
    · rw [starts.untraced, List.range_zero, List.flatMap_nil, List.append_nil]
  have four : 0 < 4 := by omega
  obtain ⟨after, ran, _, drawn⟩ := exec_counting four (by omega) countRoom Inv
    (fun invariant => invariant.1) step ⟨starts.zero before, started⟩
  exact ⟨after, ⟨_, exec_block, after, ran, rfl⟩, drawn⟩

/-- No number of turns is enough where the last value of a counter is not below 2^63. -/
theorem sizebw_diverges (starts : Starts start) (sweeps : Sweeps access 8 events)
    (far : 2 ^ 63 < args.size.toInt + 512 ∨ 2 ^ 63 < args.count.toInt + 4) :
    ¬ Exec (sizebw start access .mfence args) before after := by
  intro ran
  obtain ⟨begun, ranStart, final, outer, _⟩ := ran
  cases ranStart
  by_cases room : args.size.toInt + 512 ≤ 2 ^ 63
  · have step : ∀ {before after : State}, 4 ∣ (before.gpr .r11).toNat →
        Exec (sizebwTurn access .mfence args) before after → 4 ∣ (after.gpr .r11).toNat := by
      intro before after divides ran
      obtain ⟨first, ranFirst, second, ranSecond, third, ranThird, fourth, ranFourth, last, added, rfl⟩ := ran
      cases added
      change 4 ∣ (fourth.gpr .r11 + 4).toNat
      rw [sizebwOne_keeps_counter sweeps room ranFourth, sizebwOne_keeps_counter sweeps room ranThird,
        sizebwOne_keeps_counter sweeps room ranSecond, sizebwOne_keeps_counter sweeps room ranFirst,
        BitVec.toNat_add]
      change 4 ∣ ((before.gpr .r11).toNat + 4) % 2 ^ 64
      omega
    have zero : 4 ∣ ((runBlock start before).gpr .r11).toNat := by
      rw [starts.zero]
      exact Nat.dvd_zero 4
    exact exec_counting_diverges (by decide) (by omega) (fun state => 4 ∣ (state.gpr .r11).toNat)
      (fun divides => divides) step zero outer
  · obtain ⟨_, first, ran, _⟩ := outer.enters
    obtain ⟨advanced, _, located, atBlock, swept, inner, _⟩ := ran
    cases atBlock
    exact sweep_loop_diverges sweeps (by decide) (by omega) (State.set_same.trans BitVec.xor_self) inner

end Run

/-! # The blocks of a run -/

/-- The line of a vector access.  The accesses to the state of the generator have 8 bytes. -/
def accessedLine : Event → Option Word
  | .load address 64 => some address
  | .ntLoad address => some address
  | .store address 64 => some address
  | .ntStore address => some address
  | _ => none

def contiguous (base : Word) (length : Nat) : List Word :=
  (List.range length).map fun offset => base + BitVec.ofNat 64 offset

def accessedBytes (events : List Event) : List Word :=
  (events.filterMap accessedLine).flatMap fun line => contiguous line 64

inductive SizeBw where
  | load | nt | store | storeclwb
deriving DecidableEq, Repr

namespace SizeBw

def code : SizeBw → SizeBwArgs → Code
  | load => sizebwLoad
  | nt => sizebwNt
  | store => sizebwStore
  | storeclwb => sizebwStoreclwb

def events : SizeBw → Word → List Event
  | load => fun line => [.ntLoad line]
  | nt => fun line => [.ntStore line]
  | store => fun line => [.store line 64]
  | storeclwb => fun line => [.store line 64, .clwb line]

end SizeBw

namespace SizeBwArgs

/-- The same call with another count. -/
def counting (args : SizeBwArgs) (count : Word) : SizeBwArgs := { args with count := count }

def blockCount (args : SizeBwArgs) : Nat := 4 * ((args.count.toNat + 3) / 4)

def blockBytes (args : SizeBwArgs) : Nat := 512 * ((args.size.toNat + 511) / 512)

/-- The state that the generator reaches for block `k`, counted from 0. -/
def drawn (seed : Word) (k : Nat) : Word := (lfsr lfsrMask)^[k + 1] seed

/-- Positive sizes and counts; the blocks lie below the top of memory and off the word of the generator. -/
structure Placed (args : SizeBwArgs) (seed : Word) : Prop where
  sized : 1 ≤ args.size.toInt
  counted : 1 ≤ args.count.toInt
  inMemory : ∀ k < args.blockCount,
    args.startAddr.toNat + (drawn seed k &&& args.accessMask).toNat + args.blockBytes ≤ 2 ^ 64
  seedApart : ∀ k < args.blockCount,
    (Range.mk args.randSeed 8).Disjoint ⟨args.address (drawn seed k), args.blockBytes⟩

/-- The fences end blocks of contiguous bytes, at the offsets drawn. -/
structure Visits (args : SizeBwArgs) (seed : Word) (before after : State) (blocks : List (List Event)) : Prop where
  traced : after.data.trace = before.data.trace ++ blocks.flatMap (· ++ [.mfence])
  contiguous : blocks.map accessedBytes =
    (List.range args.blockCount).map fun k => contiguous (args.address (drawn seed k)) args.blockBytes
  generator : after.data.memory.readWord args.randSeed = (lfsr lfsrMask)^[args.blockCount] seed
  below : ∀ block ∈ blocks, ∀ event ∈ block, ∀ byte ∈ event.footprint, byte ∈ Range.mk args.randSeed 8 ∨
    byte.toNat < args.startAddr.toNat + args.accessMask.toNat + args.blockBytes

/-- The word of the generator and all lines of the blocks can be accessed. -/
structure Faultless (args : SizeBwArgs) (seed : Word) : Prop where
  generator : ∀ byte ∈ Range.mk args.randSeed 8, Canonical byte
  lines : ∀ k < args.blockCount, ∀ j < args.blockBytes / 64,
    Accessible (args.address (drawn seed k) + BitVec.ofNat 64 (64 * j))

/-- Code that runs to its end unless an access faults, and then has visited the blocks. -/
structure VisitedBy (args : SizeBwArgs) (code : Code) (seed : Word) (before : State) : Prop where
  runs_iff : (∃ after trace, Runs code before after trace) ↔ args.Faultless seed
  visits : ∀ {after trace}, Runs code before after trace → ∃ blocks, args.Visits seed before after blocks

end SizeBwArgs

section Law

variable {args : SizeBwArgs} {events : Word → List Event} {seed : Word} {before after middle : State}
variable {kernel : SizeBw} {blocks more : List (List Event)}

theorem onLine_store : OnLine fun line => [.store line 64] := onLine_single (fun _ => rfl) fun _ whole _ => whole

theorem onLine_load : OnLine fun line => [.ntLoad line] := onLine_single (fun _ => rfl) fun _ whole => whole

theorem SizeBw.onLine (kernel : SizeBw) : OnLine kernel.events := by
  cases kernel with
  | load => exact onLine_load
  | nt => exact onLine_nt
  | store => exact onLine_store
  | storeclwb => exact onLine_storeclwb

theorem SizeBw.accessesLine (kernel : SizeBw) : AccessesLine kernel.events := by
  cases kernel with
  | load => exact accessesLine_ntLoad
  | nt => exact accessesLine_ntStore
  | store => exact accessesLine_store
  | storeclwb => exact accessesLine_storeclwb

theorem SizeBw.accessedLine (kernel : SizeBw) (line : Word) :
    (kernel.events line).filterMap accessedLine = [line] := by
  cases kernel <;> rfl

theorem SizeBw.form (kernel : SizeBw) (args : SizeBwArgs) :
    ∃ start access, kernel.code args = sizebw start access .mfence args ∧ Starts start ∧
      Sweeps access 8 kernel.events := by
  cases kernel with
  | load => exact ⟨_, _, rfl, starts_load, sweeps_load⟩
  | nt => exact ⟨_, _, rfl, starts_store args.startAddr, sweeps_nt⟩
  | store => exact ⟨_, _, rfl, starts_store args.startAddr, sweeps_store⟩
  | storeclwb => exact ⟨_, _, sizebwStoreclwb_eq args, starts_store args.startAddr, sweeps_storeclwb⟩

theorem contiguous_add (base : Word) (length more : Nat) :
    contiguous base (length + more) = contiguous base length ++ contiguous (base + BitVec.ofNat 64 length) more := by
  simp only [contiguous, List.range_add, List.map_append, List.map_map, Function.comp_def, BitVec.ofNat_add,
    BitVec.add_assoc]

theorem contiguous_lines (base : Word) (count : Nat) :
    (List.range count).flatMap (fun j => contiguous (base + BitVec.ofNat 64 (64 * j)) 64) =
      contiguous base (64 * count) := by
  induction count with
  | zero => rfl
  | succ count ih =>
      rw [List.range_succ, List.flatMap_append, List.flatMap_singleton, ih, Nat.mul_succ, contiguous_add]

theorem accessedBytes_pass (kernel : SizeBw) (sized : 1 ≤ args.size.toInt) (drawn : Word) :
    accessedBytes (args.pass kernel.events drawn) = contiguous (args.address drawn) args.blockBytes := by
  have lines : (args.pass kernel.events drawn).filterMap accessedLine =
      (List.range (8 * turns args.size 512)).map fun j => args.address drawn + BitVec.ofNat 64 (64 * j) := by
    rw [SizeBwArgs.pass, List.filterMap_append, List.filterMap_flatMap]
    simp only [SizeBw.accessedLine, List.map_eq_flatMap]
    rfl
  have bytes : 64 * (8 * turns args.size 512) = args.blockBytes := by
    rw [turns_positive sized (by omega), SizeBwArgs.blockBytes, ← Nat.mul_assoc]
  rw [accessedBytes, lines, List.flatMap_map, contiguous_lines, bytes]

theorem SizeBwArgs.Placed.counts (placed : args.Placed seed) : args.blockCount = 4 * turns args.count 4 ∧
    args.blockBytes = 512 * turns args.size 512 := by
  rw [turns_positive placed.counted (by omega), turns_positive placed.sized (by omega)]
  exact ⟨rfl, rfl⟩

theorem SizeBwArgs.Placed.short (placed : args.Placed seed) : args.blockBytes < 2 ^ 64 := by
  have value := Word.toNat_eq_toInt (Int.le_trans Int.one_nonneg placed.sized)
  have upper := BitVec.toInt_lt (x := args.size)
  unfold SizeBwArgs.blockBytes
  omega

theorem faultless_generator :
    AllFaultless [.load args.randSeed 8, .store args.randSeed 8] ↔ ∀ byte ∈ Range.mk args.randSeed 8, Canonical byte := by
  apply Iff.intro
  · intro faultless
    exact (faultless _ List.mem_cons_self).canonical
  · intro canonical event member
    rcases List.mem_pair.mp member with rfl | rfl
    · exact ⟨fun whole => absurd whole (by decide), canonical⟩
    · exact ⟨fun whole => absurd whole (by decide), canonical⟩

theorem faultless_pass (kernel : SizeBw) (placed : args.Placed seed) (drawn : Word) :
    AllFaultless (args.pass kernel.events drawn ++ [.mfence]) ↔ (∀ byte ∈ Range.mk args.randSeed 8, Canonical byte) ∧
      ∀ j < args.blockBytes / 64, Accessible (args.address drawn + BitVec.ofNat 64 (64 * j)) := by
  have lines : 8 * turns args.size 512 = args.blockBytes / 64 := by
    rw [placed.counts.2]
    omega
  have access : AllFaultless ((List.range (args.blockBytes / 64)).flatMap fun j =>
      kernel.events (args.address drawn + BitVec.ofNat 64 (64 * j))) ↔
      ∀ j < args.blockBytes / 64, Accessible (args.address drawn + BitVec.ofNat 64 (64 * j)) := by
    simp only [faultless_flatMap, List.mem_range, kernel.accessesLine _]
  rw [SizeBwArgs.pass, lines, faultless_append, faultless_append, faultless_generator, access,
    and_iff_left faultless_mfence]

theorem faultless_blocks (kernel : SizeBw) (placed : args.Placed seed) :
    AllFaultless (((List.range args.blockCount).map fun k =>
      args.pass kernel.events (SizeBwArgs.drawn seed k)).flatMap (· ++ [.mfence])) ↔ args.Faultless seed := by
  have counted := placed.counted
  have value := Word.toNat_eq_toInt (Int.le_trans Int.one_nonneg counted)
  have some_block : 0 < args.blockCount := by
    unfold SizeBwArgs.blockCount
    omega
  simp only [List.flatMap_map, faultless_flatMap, List.mem_range, faultless_pass kernel placed]
  apply Iff.intro
  · intro faultless
    exact ⟨(faultless 0 some_block).1, fun k bound => (faultless k bound).2⟩
  · intro faultless k bound
    exact ⟨faultless.generator, faultless.lines k bound⟩

/-- Blocks begin on lines where the start address does and the mask leaves no smaller offset. -/
theorem address_aligned (start : 64 ∣ args.startAddr.toNat) (mask : 64 ∣ args.accessMask.toNat) (drawn : Word) :
    64 ∣ (args.address drawn).toNat := by
  have offset : 64 ∣ (drawn &&& args.accessMask).toNat := by
    have low : args.accessMask.toNat % 2 ^ 6 = 0 := Nat.mod_eq_zero_of_dvd mask
    rw [BitVec.toNat_and]
    apply Nat.dvd_of_mod_eq_zero
    change (drawn.toNat &&& args.accessMask.toNat) % 2 ^ 6 = 0
    rw [Nat.and_mod_two_pow, low, Nat.and_zero]
  rw [SizeBwArgs.address, BitVec.toNat_add]
  omega

theorem address_bound (placed : args.Placed seed) {k : Nat} (bound : k < args.blockCount) {byte : Word}
    (inside : byte ∈ Range.mk (args.address (SizeBwArgs.drawn seed k)) args.blockBytes) :
    byte.toNat < args.startAddr.toNat + args.accessMask.toNat + args.blockBytes := by
  have room := placed.inMemory k bound
  have masked : (SizeBwArgs.drawn seed k &&& args.accessMask).toNat ≤ args.accessMask.toNat := by
    rw [BitVec.toNat_and]
    exact Nat.and_le_right
  rw [Range.mem_iff, SizeBwArgs.address] at inside
  simp only at inside
  generalize SizeBwArgs.drawn seed k &&& args.accessMask = offset at room masked inside
  generalize args.blockBytes = length at room inside ⊢
  bv_omega

/-- Whatever is drawn, the blocks lie in the area that the mask spans, and one block behind it. -/
theorem SizeBwArgs.Placed.of_area (sized : 1 ≤ args.size.toInt) (counted : 1 ≤ args.count.toInt)
    {area : Nat} (spans : args.accessMask.toNat + args.blockBytes = area) (fits : args.startAddr.toNat + area < 2 ^ 64)
    (apart : (Range.mk args.randSeed 8).Disjoint ⟨args.startAddr, area⟩) : args.Placed seed := by
  subst spans
  have masked : ∀ word : Word, (word &&& args.accessMask).toNat ≤ args.accessMask.toNat := by
    intro word
    rw [BitVec.toNat_and]
    exact Nat.and_le_right
  refine ⟨sized, counted, fun k _ => ?_, fun k _ byte inSeed inBlock => apart byte inSeed ?_⟩
  · have := masked (SizeBwArgs.drawn seed k)
    omega
  · have offset := masked (SizeBwArgs.drawn seed k)
    have located : args.address (SizeBwArgs.drawn seed k) =
        args.startAddr + BitVec.ofNat 64 (SizeBwArgs.drawn seed k &&& args.accessMask).toNat := by
      rw [BitVec.ofNat_toNat, BitVec.setWidth_eq, SizeBwArgs.address]
    rw [located] at inBlock
    have short : args.accessMask.toNat + args.blockBytes < 2 ^ 64 := by omega
    have within := Range.inside_of_offset ⟨args.startAddr, args.accessMask.toNat + args.blockBytes⟩
      (Nat.add_le_add_right offset args.blockBytes) short
    exact within.mem (Nat.le_of_lt short) inBlock

theorem pass_below (kernel : SizeBw) (placed : args.Placed seed) {k : Nat} (bound : k < args.blockCount) {event : Event}
    (member : event ∈ args.pass kernel.events (SizeBwArgs.drawn seed k)) {byte : Word}
    (touched : byte ∈ event.footprint) : byte ∈ Range.mk args.randSeed 8 ∨
      byte.toNat < args.startAddr.toNat + args.accessMask.toNat + args.blockBytes := by
  rcases List.mem_append.mp member with generator | access
  · rcases List.mem_cons.mp generator with rfl | generator
    · exact .inl touched
    · cases List.mem_singleton.mp generator
      exact .inl touched
  · obtain ⟨j, inRange, access⟩ := List.mem_flatMap.mp access
    have inLine := kernel.onLine.inside _ event access byte touched
    have fits : 64 * j + 64 ≤ args.blockBytes := by
      rw [placed.counts.2]
      have := List.mem_range.mp inRange
      omega
    have within :=
      Range.inside_of_offset ⟨args.address (SizeBwArgs.drawn seed k), args.blockBytes⟩ fits placed.short
    exact .inr (address_bound placed bound (within.mem (Nat.le_of_lt placed.short) inLine))

theorem exec_visits (kernel : SizeBw) (placed : args.Placed seed) (sizeRoom : args.size.toInt + 512 ≤ 2 ^ 63)
    (countRoom : args.count.toInt + 4 ≤ 2 ^ 63) (held : before.data.memory.readWord args.randSeed = seed) :
    ∃ after blocks, Exec (kernel.code args) before after ∧ args.Visits seed before after blocks ∧
      (AllFaultless (blocks.flatMap (· ++ [.mfence])) ↔ args.Faultless seed) := by
  obtain ⟨start, access, same, starts, sweeps⟩ := kernel.form args
  obtain ⟨count, bytes⟩ := placed.counts
  have apart : ∀ k < 4 * turns args.count 4,
      (Range.mk args.randSeed 8).Disjoint (args.touched ((lfsr lfsrMask)^[k + 1] seed)) := by
    intro k bound
    have apart := placed.seedApart k (by rwa [count])
    rwa [bytes] at apart
  obtain ⟨after, ran, drawn⟩ := exec_sizebw starts sweeps sizeRoom countRoom held apart
  rw [← count] at drawn
  refine ⟨after, (List.range args.blockCount).map fun k => args.pass kernel.events (SizeBwArgs.drawn seed k),
    same ▸ ran, ⟨?_, ?_, drawn.generator, ?_⟩, faultless_blocks kernel placed⟩
  · rw [drawn.traced, List.flatMap_map]
    rfl
  · rw [List.map_map]
    exact List.map_congr_left fun k _ => accessedBytes_pass kernel placed.sized _
  · intro block member event inBlock byte touched
    obtain ⟨k, inRange, rfl⟩ := List.mem_map.mp member
    exact pass_below kernel placed (List.mem_range.mp inRange) inBlock touched

theorem drawn_later (seed : Word) (earlier k : Nat) :
    SizeBwArgs.drawn ((lfsr lfsrMask)^[earlier] seed) k = SizeBwArgs.drawn seed (earlier + k) := by
  rw [SizeBwArgs.drawn, SizeBwArgs.drawn, ← Function.iterate_add_apply, Nat.add_comm earlier, Nat.add_right_comm]

section Split

variable {first second : Word}

theorem blockCount_split (positive : 1 ≤ first.toInt) (positive' : 1 ≤ second.toInt) (whole : 4 ∣ first.toInt)
    (sum : first.toInt + second.toInt = args.count.toInt) :
    (args.counting first).blockCount + (args.counting second).blockCount = args.blockCount := by
  have value := Word.toNat_eq_toInt (Int.le_trans Int.one_nonneg positive)
  have value' := Word.toNat_eq_toInt (Int.le_trans Int.one_nonneg positive')
  have nonneg : 0 ≤ args.count.toInt := by omega
  have total := Word.toNat_eq_toInt nonneg
  simp only [SizeBwArgs.blockCount, SizeBwArgs.counting]
  omega

theorem SizeBwArgs.Placed.opening (placed : args.Placed seed) (positive : 1 ≤ first.toInt)
    (total : (args.counting first).blockCount + (args.counting second).blockCount = args.blockCount) :
    (args.counting first).Placed seed where
  sized := placed.sized
  counted := positive
  inMemory k bound := placed.inMemory k (by omega)
  seedApart k bound := placed.seedApart k (by omega)

theorem SizeBwArgs.Placed.rest (placed : args.Placed seed) (positive : 1 ≤ second.toInt)
    (total : (args.counting first).blockCount + (args.counting second).blockCount = args.blockCount) :
    (args.counting second).Placed ((lfsr lfsrMask)^[(args.counting first).blockCount] seed) where
  sized := placed.sized
  counted := positive
  inMemory k bound := by
    rw [drawn_later]
    exact placed.inMemory _ (by omega)
  seedApart k bound := by
    rw [drawn_later]
    exact placed.seedApart _ (by omega)

/-- The blocks of one call, then those of another that continues with its generator. -/
theorem SizeBwArgs.Visits.append
    (total : (args.counting first).blockCount + (args.counting second).blockCount = args.blockCount)
    (visits : (args.counting first).Visits seed before middle blocks)
    (visits' : (args.counting second).Visits ((lfsr lfsrMask)^[(args.counting first).blockCount] seed) middle after
      more) : args.Visits seed before after (blocks ++ more) := by
  constructor
  · rw [visits'.traced, visits.traced, List.flatMap_append, List.append_assoc]
  · rw [List.map_append, visits.contiguous, visits'.contiguous, ← total, List.range_add, List.map_append, List.map_map]
    simp only [drawn_later, Function.comp_def]
    rfl
  · rw [← total, Nat.add_comm, Function.iterate_add_apply]
    exact visits'.generator
  · intro block member
    rcases List.mem_append.mp member with earlier | later
    · exact visits.below block earlier
    · exact visits'.below block later

theorem SizeBwArgs.Faultless.split
    (total : (args.counting first).blockCount + (args.counting second).blockCount = args.blockCount) :
    (args.counting first).Faultless seed ∧
      (args.counting second).Faultless ((lfsr lfsrMask)^[(args.counting first).blockCount] seed) ↔
    args.Faultless seed := by
  apply Iff.intro
  · intro both
    refine ⟨both.1.generator, fun k bound j bound' => ?_⟩
    by_cases early : k < (args.counting first).blockCount
    · exact both.1.lines k early j bound'
    · have later := both.2.lines (k - (args.counting first).blockCount) (by omega) j bound'
      rwa [drawn_later, Nat.add_sub_cancel' (Nat.le_of_not_lt early)] at later
  · intro faultless
    refine ⟨⟨faultless.generator, fun k bound => faultless.lines k (by omega)⟩, faultless.generator, fun k bound => ?_⟩
    rw [drawn_later]
    exact faultless.lines _ (by omega)

end Split

theorem SizeBwArgs.Visits.visitedBy {code : Code} (visits : args.Visits seed before after blocks)
    (ran : Exec code before after)
    (faultless : AllFaultless (blocks.flatMap (· ++ [.mfence])) ↔ args.Faultless seed) :
    args.VisitedBy code seed before where
  runs_iff := by
    have traced : ∀ other, Exec code before other →
        other.data.trace = before.data.trace ++ blocks.flatMap (· ++ [.mfence]) := by
      intro other ran'
      rw [ran'.unique ran, visits.traced]
    rw [X86.runs_iff traced, faultless]
    exact and_iff_right ⟨after, ran⟩
  visits runs := by
    rw [runs.exec.unique ran]
    exact ⟨blocks, visits⟩

end Law

/-- Every random-bandwidth kernel that runs to its end visits the blocks that the
generator draws, four for each turn, and a call can be split at any multiple of
four.  It runs to its end unless a drawn block is misaligned or not canonical. -/
theorem sizebw_visits (args : SizeBwArgs) (seed : Word) (before : State) (placed : args.Placed seed)
    (sizeRoom : args.size.toInt + 512 ≤ 2 ^ 63) (countRoom : args.count.toInt + 4 ≤ 2 ^ 63)
    (held : before.data.memory.readWord args.randSeed = seed) :
    (64 ∣ args.startAddr.toNat → 64 ∣ args.accessMask.toNat →
      ∀ k, 64 ∣ (args.address (SizeBwArgs.drawn seed k)).toNat) ∧
    (∀ kernel : SizeBw, args.VisitedBy (kernel.code args) seed before) ∧
    ∀ first second : Word, 1 ≤ first.toInt → 1 ≤ second.toInt → 4 ∣ first.toInt →
      first.toInt + second.toInt = args.count.toInt → ∀ kernel kernel' : SizeBw, args.VisitedBy
        (.seq (kernel.code (args.counting first)) (kernel'.code (args.counting second))) seed before := by
  refine ⟨fun start mask k => address_aligned start mask _, fun kernel => ?_, ?_⟩
  · obtain ⟨after, blocks, ran, visits, faultless⟩ := exec_visits kernel placed sizeRoom countRoom held
    exact visits.visitedBy ran faultless
  · intro first second positive positive' whole sum kernel kernel'
    have total := blockCount_split positive positive' whole sum
    have firstRoom : (args.counting first).count.toInt + 4 ≤ 2 ^ 63 := by
      change first.toInt + 4 ≤ 2 ^ 63
      omega
    have secondRoom : (args.counting second).count.toInt + 4 ≤ 2 ^ 63 := by
      change second.toInt + 4 ≤ 2 ^ 63
      omega
    obtain ⟨middle, blocks, ran, visits, faultless⟩ :=
      exec_visits kernel (placed.opening positive total) sizeRoom firstRoom held
    obtain ⟨after, more, ran', visits', faultless'⟩ :=
      exec_visits kernel' (placed.rest positive' total) sizeRoom secondRoom visits.generator
    have both : Exec (.seq (kernel.code (args.counting first)) (kernel'.code (args.counting second))) before after :=
      ⟨middle, ran, ran'⟩
    apply (visits.append total visits').visitedBy both
    rw [List.flatMap_append, faultless_append, faultless, faultless', SizeBwArgs.Faultless.split total]

/-- Two turns of `sizebw_store` over 4 KiB and the two blocks behind, with the generator in state 5. -/
theorem sizebw_visits_eight : ∃ after trace blocks,
    Runs (SizeBw.store.code ⟨4096, 600, 8, 16384, 0xfc0⟩) (State.blank.writeWord 16384 5) after trace ∧
      SizeBwArgs.Visits ⟨4096, 600, 8, 16384, 0xfc0⟩ 5 (State.blank.writeWord 16384 5) after blocks := by
  have apart : (Range.mk 16384 8).Disjoint ⟨4096, 5056⟩ := Range.Separate.disjoint (by decide)
  have placed : SizeBwArgs.Placed ⟨4096, 600, 8, 16384, 0xfc0⟩ 5 :=
    .of_area (by decide) (by decide) (by decide) (by decide) apart
  have held : (State.blank.writeWord 16384 5).data.memory.readWord 16384 = 5 :=
    @Memory.readWord_writeWord State.blank.data.memory 16384 5
  obtain ⟨_, visitedBy, _⟩ := sizebw_visits ⟨4096, 600, 8, 16384, 0xfc0⟩ 5 _ placed (by decide) (by decide) held
  have faultless : SizeBwArgs.Faultless ⟨4096, 600, 8, 16384, 0xfc0⟩ 5 := ⟨canonical_low (by decide), by decide⟩
  obtain ⟨after, trace, runs⟩ := (visitedBy .store).runs_iff.mpr faultless
  obtain ⟨blocks, visits⟩ := (visitedBy .store).visits runs
  exact ⟨after, trace, blocks, runs, visits⟩

/-- A count from 2^63 - 3 on is never reached, and a mask with low bits may
draw an offset inside a line, here 2. -/
theorem sizebw_unfinished :
    (SizeBwArgs.Placed ⟨4096, 64, 0x7fffffffffffffff, 8192, 0⟩ 0 ∧
      ¬ ∃ after, Exec (SizeBw.nt.code ⟨4096, 64, 0x7fffffffffffffff, 8192, 0⟩) .blank after) ∧
    SizeBwArgs.Placed ⟨4096, 600, 8, 16384, 0xfff⟩ 5 ∧
      ∀ kernel : SizeBw, ¬ ∃ after trace,
        Runs (kernel.code ⟨4096, 600, 8, 16384, 0xfff⟩) (State.blank.writeWord 16384 5) after trace := by
  refine ⟨⟨?_, fun returned => ?_⟩, ?_⟩
  · have apart : (Range.mk 8192 8).Disjoint ⟨4096, 512⟩ := Range.Separate.disjoint (by decide)
    exact .of_area (by decide) (by decide) (by decide) (by decide) apart
  · obtain ⟨after, ran⟩ := returned
    exact sizebw_diverges (starts_store 4096) sweeps_nt (.inr (by decide)) ran
  · have apart : (Range.mk 16384 8).Disjoint ⟨4096, 5119⟩ := Range.Separate.disjoint (by decide)
    have placed : SizeBwArgs.Placed ⟨4096, 600, 8, 16384, 0xfff⟩ 5 :=
      .of_area (by decide) (by decide) (by decide) (by decide) apart
    have held : (State.blank.writeWord 16384 5).data.memory.readWord 16384 = 5 :=
      @Memory.readWord_writeWord State.blank.data.memory 16384 5
    refine ⟨placed, fun kernel ended => ?_⟩
    obtain ⟨after, blocks, ran, visits, faultless⟩ := exec_visits kernel placed (by decide) (by decide) held
    have first := ((visits.visitedBy ran faultless).runs_iff.mp ended).lines 0 (by decide) 0 (by decide)
    exact absurd first.aligned (by decide)

end RwSep.MemAccess
