import RwSep.MemAccess.ChasingIndex
import RwSep.MemAccess.Stride

namespace RwSep.MemAccess

open RwSep.Data RwSep.Execution RwSep.X86

/-! The chasing kernels of memaccess.c.

`chasing_storeclwb` takes the next position from `cindex` and stores it in the
line it leaves; `chasing_loadnt` takes it from the line itself.
-/

structure ChaseArgs where
  startAddr : Word
  size : Word
  skip : Word
  count : Word
  cindex : Word
deriving DecidableEq, Repr

/-- `0x0(%%r9, %%r12)`. -/
def chased : Address := ⟨0, .reg .r9, .reg .r12, 1⟩

def storeclwbAccess (args : ChaseArgs) : List Instr :=
  [.movqLoad ⟨0, .value args.cindex, .reg .r12, 8⟩ zmm0, .shl 6 .r12, .vmovdqa64 zmm0 chased, .clwb chased,
    .add (.value 0x40) .r10, .movqGpr zmm0 .r12]

def loadntAccess : List Instr :=
  [.shl 6 .r12, .vmovntdqa chased zmm0, .movqGpr zmm0 .r12, .add (.value 0x40) .r10]

def chasingOuter (access closing : List Instr) (args : ChaseArgs) : Code :=
  .sequence [
    .block [.lea ⟨0, .value args.startAddr, .reg .r8, 1⟩ .r9, .xor .r10 .r10, .xor .r12 .r12],
    .loop (.block access) (.value args.size) .r10,
    .block closing,
    .block [.add (.value args.skip) .r8, .inc .r11]]

def chasing (access closing : List Instr) (args : ChaseArgs) : Code :=
  .sequence [
    .block [.xor .r8 .r8, .xor .r11 .r11],
    .loop (chasingOuter access closing args) (.value args.count) .r11]

def chasingStoreclwb (args : ChaseArgs) : Code :=
  chasing (storeclwbAccess args) [SIZEBTST_FENCE, .xor .r10 .r10] args

def chasingLoadnt (args : ChaseArgs) : Code := chasing loadntAccess [SIZEBTLD_FENCE] args

/-! # Both loops -/

structure Chases (access : List Instr) : Prop where
  counts : ∀ state, (runBlock access state).gpr .r10 = state.gpr .r10 + 64
  keeps : ∀ state reg, reg ≠ .r10 → reg ≠ .r12 → (runBlock access state).gpr reg = state.gpr reg

structure Closes (closing : List Instr) : Prop where
  keeps : ∀ state reg, reg ≠ .r10 → (runBlock closing state).gpr reg = state.gpr reg
  fences : ∀ state, (runBlock closing state).data = fenced state.data

theorem chases_storeclwb (args : ChaseArgs) : Chases (storeclwbAccess args) where
  counts _ := rfl
  keeps state reg notCounter notPosition := by
    change ((((state.setZmm zmm0 _).record _).set .r12 _ |>.writeLine _ _ |>.record _ |>.record _).set .r10 _ |>.set
      .r12 _).gpr reg = _
    rw [State.set_other notPosition, State.set_other notCounter]
    exact State.set_other notPosition

theorem chases_loadnt : Chases loadntAccess where
  counts _ := rfl
  keeps state reg notCounter notPosition := by
    change ((((state.set .r12 _).setZmm zmm0 _).record _).set .r12 _ |>.set .r10 _).gpr reg = _
    rw [State.set_other notCounter, State.set_other notPosition]
    exact State.set_other notPosition

theorem closes_storeclwb : Closes [SIZEBTST_FENCE, .xor .r10 .r10] where
  keeps _ _ notCounter := State.set_other notCounter
  fences _ := rfl

theorem closes_loadnt : Closes [SIZEBTLD_FENCE] where
  keeps _ _ _ := rfl
  fences _ := rfl

def ChaseArgs.base (args : ChaseArgs) (pass : Nat) : Word := args.startAddr + BitVec.ofNat 64 pass * args.skip

variable {access closing : List Instr} {args : ChaseArgs} {state : State} {walk : Nat → Word}

theorem exec_chase_loop (state : State) (chases : Chases access) (room : args.size.toInt + 64 ≤ 2 ^ 63)
    (Inv : Nat → Data → Prop) {base : Word}
    (step : ∀ turn < turns args.size 64, ∀ state, state.gpr .r9 = base → state.gpr .r12 = walk turn →
      Inv turn state.data → (runBlock access state).gpr .r12 = walk (turn + 1) ∧
        Inv (turn + 1) (runBlock access state).data)
    (zero : state.gpr .r10 = 0) (located : state.gpr .r9 = base) (first : state.gpr .r12 = walk 0)
    (start : Inv 0 state.data) :
    ∃ after, Exec (.loop (.block access) (.value args.size) .r10) state after ∧
      (∀ reg, reg ≠ .r10 → reg ≠ .r12 → after.gpr reg = state.gpr reg) ∧
      after.gpr .r12 = walk (turns args.size 64) ∧ Inv (turns args.size 64) after.data := by
  let Reached : Nat → State → Prop := fun turn after =>
    after.gpr .r10 = BitVec.ofNat 64 (64 * turn) ∧
    (∀ reg, reg ≠ .r10 → reg ≠ .r12 → after.gpr reg = state.gpr reg) ∧
    after.gpr .r12 = walk turn ∧ Inv turn after.data
  have turnStep : ∀ turn < turns args.size 64, ∀ before, Reached turn before →
      ∃ after, Exec (.block access) before after ∧ Reached (turn + 1) after := by
    intro turn bound before reached
    obtain ⟨counted, kept, position, invariant⟩ := reached
    have base' := (kept .r9 (by simp) (by simp)).trans located
    obtain ⟨position', invariant'⟩ := step turn bound before base' position invariant
    refine ⟨runBlock access before, exec_block, ?_, fun reg notCounter notPosition => ?_, position', invariant'⟩
    · rw [chases.counts, counted, Nat.mul_succ, BitVec.ofNat_add]
      rfl
    · rw [chases.keeps before reg notCounter notPosition, kept reg notCounter notPosition]
  obtain ⟨after, ran, reached⟩ := exec_counting (by decide) (by decide) room Reached
    (fun reached => reached.1) turnStep ⟨zero, fun _ _ _ => rfl, first, start⟩
  exact ⟨after, ran, reached.2⟩

theorem exec_chase_turn (chases : Chases access) (closes : Closes closing)
    (room : args.size.toInt + 64 ≤ 2 ^ 63) (first : walk 0 = 0) (Inv : Nat → Data → Prop) {pass : Nat}
    (step : ∀ turn < turns args.size 64, ∀ state, state.gpr .r9 = args.base pass → state.gpr .r12 = walk turn →
      Inv turn state.data → (runBlock access state).gpr .r12 = walk (turn + 1) ∧
        Inv (turn + 1) (runBlock access state).data)
    (offset : state.gpr .r8 = BitVec.ofNat 64 pass * args.skip) (start : Inv 0 state.data) :
    ∃ after, Exec (chasingOuter access closing args) state after ∧
      after.gpr .r8 = state.gpr .r8 + args.skip ∧ after.gpr .r11 = state.gpr .r11 + 1 ∧
      after.gpr .r12 = walk (turns args.size 64) ∧
      ∃ data, Inv (turns args.size 64) data ∧ after.data = fenced data := by
  let located :=
    runBlock [.lea ⟨0, .value args.startAddr, .reg .r8, 1⟩ .r9, .xor .r10 .r10, .xor .r12 .r12] state
  have base : located.gpr .r9 = args.base pass := by
    simp [located, Instr.step, Address.eval, Operand.eval, State.set, offset, ChaseArgs.base]
  have origin : located.gpr .r12 = walk 0 := by
    rw [first]
    exact BitVec.xor_self ..
  obtain ⟨accessed, ran, kept, position, invariant⟩ :=
    exec_chase_loop located chases room Inv step (BitVec.xor_self ..) base origin start
  let closed := runBlock closing accessed
  have same : ∀ reg, reg ≠ .r9 → reg ≠ .r10 → reg ≠ .r12 → closed.gpr reg = state.gpr reg := by
    intro reg notBase notCounter notPosition
    rw [closes.keeps accessed reg notCounter, kept reg notCounter notPosition]
    change (((state.set .r9 _).set .r10 _).set .r12 _).gpr reg = _
    rw [State.set_other notPosition, State.set_other notCounter, State.set_other notBase]
  refine ⟨runBlock [.add (.value args.skip) .r8, .inc .r11] closed,
    ⟨located, exec_block, accessed, ran, closed, exec_block, _, exec_block, rfl⟩, ?_, ?_, ?_,
    accessed.data, invariant, closes.fences accessed⟩
  · change closed.gpr .r8 + args.skip = _
    rw [same .r8 (by simp) (by simp) (by simp)]
  · change closed.gpr .r11 + 1 = _
    rw [same .r11 (by simp) (by simp) (by simp)]
  · change closed.gpr .r12 = _
    rw [closes.keeps accessed .r12 (by simp), position]

theorem chasing_room (chases : Chases access) {after : State} (ran : Exec (chasing access closing args) state after) :
    args.size.toInt + 64 ≤ 2 ^ 63 := by
  obtain ⟨start, _, final, outer, _⟩ := ran
  obtain ⟨_, located, atLine, accessed, inner, _⟩ := outer.enters
  have zero : located.gpr .r10 = 0 := by
    cases atLine
    exact BitVec.xor_self ..
  by_contra far
  exact access_loop_diverges chases.counts (by omega) zero inner

/-- Unless the access counter overflows, an invariant that each access and each fence
takes on holds after the last pass, and `r12` has the end of that pass's walk. -/
theorem chasing_ends (walk : Nat → Nat → Word) (chases : Chases access) (closes : Closes closing)
    (first : ∀ pass, walk pass 0 = 0) (Inv : Nat → Nat → Data → Prop)
    (step : ∀ pass < turns args.count 1, ∀ turn < turns args.size 64, ∀ state,
      state.gpr .r9 = args.base pass → state.gpr .r12 = walk pass turn → Inv pass turn state.data →
      (runBlock access state).gpr .r12 = walk pass (turn + 1) ∧ Inv pass (turn + 1) (runBlock access state).data)
    (close : ∀ pass < turns args.count 1, ∀ data, Inv pass (turns args.size 64) data →
      Inv (pass + 1) 0 (fenced data))
    (start : Inv 0 0 state.data) :
    EndsIff (chasing access closing args) state (args.size.toInt + 64 ≤ 2 ^ 63) fun after =>
      after.gpr .r12 = walk (turns args.count 1 - 1) (turns args.size 64) ∧
      Inv (turns args.count 1) 0 after.data := by
  refine ⟨chasing_room chases, fun room => ?_⟩
  let ready := runBlock [.xor .r8 .r8, .xor .r11 .r11] state
  let Passed : Nat → State → Prop := fun pass after =>
    (0 < pass → after.gpr .r12 = walk (pass - 1) (turns args.size 64)) ∧ Inv pass 0 after.data
  have passStep : ∀ pass < turns args.count 1, ∀ before, before.gpr .r8 = BitVec.ofNat 64 pass * args.skip →
      Passed pass before → ∃ after, Exec (chasingOuter access closing args) before after ∧
        after.gpr .r8 = before.gpr .r8 + args.skip ∧ after.gpr .r11 = before.gpr .r11 + 1 ∧
        Passed (pass + 1) after := by
    intro pass bound before offset invariant
    obtain ⟨after, ran, offset', counted', position, data, invariant', fence⟩ :=
      exec_chase_turn chases closes room (first pass) (Inv pass) (step pass bound) offset invariant.2
    refine ⟨after, ran, offset', counted', fun _ => position, ?_⟩
    rw [fence]
    exact close pass bound data invariant'
  have fresh : Passed 0 ready := ⟨fun positive => absurd positive (Nat.lt_irrefl 0), start⟩
  obtain ⟨after, ran, position, reached⟩ := exec_outer_loop Passed passStep
    (show ready.gpr .r8 = 0 from BitVec.xor_self ..) (BitVec.xor_self ..) fresh
  exact ⟨after, ⟨ready, exec_block, after, ran, rfl⟩, position turns_pos, reached⟩

end RwSep.MemAccess
