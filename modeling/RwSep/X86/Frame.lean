import RwSep.X86.Code

namespace RwSep.X86

open RwSep.Execution

/-! Which general registers code writes, and what a caller finds in them.

The compiler saves and restores those callee-saved registers that an assembly
statement names as clobbered, and no others.
-/

def Instr.writes : Instr → List Reg
  | .mov _ dst => [dst]
  | .movLoad _ dst => [dst]
  | .movStore _ _ => []
  | .xor _ dst => [dst]
  | .and _ dst => [dst]
  | .andLow _ dst => [dst]
  | .neg dst => [dst]
  | .add _ dst => [dst]
  | .inc dst => [dst]
  | .shl _ dst => [dst]
  | .shr _ dst => [dst]
  | .lea _ dst => [dst]
  | .movqXmm _ _ => []
  | .movqLoad _ _ => []
  | .movqGpr _ dst => [dst]
  | .vmovdqa64 _ _ => []
  | .vmovntdq _ _ => []
  | .vmovntdqa _ _ => []
  | .clwb _ => []
  | .clflush _ => []
  | .mfence => []
  | .sfence => []

def Code.writes : Code → List Reg
  | .block instrs => instrs.flatMap Instr.writes
  | .seq first second => first.writes ++ second.writes
  | .loop body _ _ => body.writes

variable {code : Code} {instrs : List Instr} {before after : State} {reg : Reg}

theorem Instr.frame (instr : Instr) (state : State) (unwritten : reg ∉ instr.writes) :
    (instr.step state).gpr reg = state.gpr reg := by
  have other {dst : Reg} (alone : reg ∉ [dst]) : reg ≠ dst := fun same => alone (List.mem_singleton.mpr same)
  cases instr with
  | mov src dst => exact State.set_other (other unwritten)
  | movLoad src dst => exact State.set_other (other unwritten)
  | xor src dst => exact State.set_other (other unwritten)
  | and src dst => exact State.set_other (other unwritten)
  | andLow mask dst => exact State.set_other (other unwritten)
  | neg dst => exact State.set_other (other unwritten)
  | add src dst => exact State.set_other (other unwritten)
  | inc dst => exact State.set_other (other unwritten)
  | shl count dst => exact State.set_other (other unwritten)
  | shr count dst => exact State.set_other (other unwritten)
  | lea src dst => exact State.set_other (other unwritten)
  | movqGpr src dst => exact State.set_other (other unwritten)
  | movStore src dst => rfl
  | movqXmm src dst => rfl
  | movqLoad src dst => rfl
  | vmovdqa64 src dst => rfl
  | vmovntdq src dst => rfl
  | vmovntdqa src dst => rfl
  | clwb line => rfl
  | clflush line => rfl
  | mfence => rfl
  | sfence => rfl

theorem runBlock_frame (unwritten : reg ∉ instrs.flatMap Instr.writes) :
    (runBlock instrs before).gpr reg = before.gpr reg := by
  induction instrs generalizing before with
  | nil => rfl
  | cons instr rest ih =>
      rw [List.flatMap_cons, List.mem_append, not_or] at unwritten
      rw [runBlock_cons, ih unwritten.2, instr.frame before unwritten.1]

theorem Exec.frame (ran : Exec code before after) (unwritten : reg ∉ code.writes) :
    after.gpr reg = before.gpr reg := by
  induction code generalizing before after with
  | block instrs =>
      cases ran
      exact runBlock_frame unwritten
  | seq first second firstFrame secondFrame =>
      obtain ⟨middle, ranFirst, ranSecond⟩ := ran
      rw [Code.writes, List.mem_append, not_or] at unwritten
      rw [secondFrame ranSecond unwritten.2, firstFrame ranFirst unwritten.1]
  | loop body bound counter bodyFrame =>
      exact DoWhile.keeps (fun state => state.gpr reg) (fun ran => bodyFrame ran unwritten) ran

/-! # Calls -/

def calleeSaved : List Reg := [.rbx, .rbp, .r12, .r13, .r14, .r15]

def State.restore (state : State) (clobbers : List Reg) (before : State) : State :=
  { state with gpr := fun reg => if reg ∈ calleeSaved ∧ reg ∈ clobbers then before.gpr reg else state.gpr reg }

theorem State.restore_unnamed {done : State} {clobbers : List Reg} (unnamed : reg ∉ clobbers) :
    (done.restore clobbers before).gpr reg = done.gpr reg :=
  if_neg fun both => unnamed both.2

/-- A call of a function whose body is an assembly statement with these clobbers. -/
def Calls (code : Code) (clobbers : List Reg) (before after : State) : Prop :=
  ∃ done, Exec code before done ∧ after = done.restore clobbers before

variable {clobbers : List Reg}

theorem Calls.keeps (called : Calls code clobbers before after) (saved : reg ∈ calleeSaved)
    (named : reg ∈ code.writes → reg ∈ clobbers) : after.gpr reg = before.gpr reg := by
  obtain ⟨done, ran, rfl⟩ := called
  by_cases clobbered : reg ∈ clobbers
  · exact if_pos ⟨saved, clobbered⟩
  · rw [State.restore_unnamed clobbered]
    exact ran.frame fun written => clobbered (named written)

end RwSep.X86
