import RwSep.MemAccess.ChaseAgreement
import RwSep.MemAccess.ReadAfterWrite
import RwSep.MemAccess.Sequential
import RwSep.X86.Frame

namespace RwSep.MemAccess

open RwSep.Data RwSep.Execution RwSep.X86

/-! The clobber lists of memaccess.c, and what its functions keep for their callers.

The comment above the macros names r12 to r15, rbx and rbp as callee-saved.
All kernels but one name every register that they write; `chasing_loadnt`
leaves out `r12`, which `chasing_storeclwb` names.
-/

structure CacheProbeArgs where
  startAddr : Word
  endAddr : Word
  stride : Word
deriving DecidableEq, Repr

structure ImcProbeArgs where
  startAddr : Word
  endAddr : Word
  loop : Word
deriving DecidableEq, Repr

/-- `disp(%%r8)` -/
def probed (disp : Word) : Address := ⟨disp, .reg .r8, .value 0, 1⟩

def cacheprobe (args : CacheProbeArgs) : Code :=
  .sequence [
    .block [.mov (.value args.startAddr) .r8, .movqXmm (.value args.startAddr) zmm0],
    .loop
      (.block [.vmovdqa64 zmm0 (probed 0x0), .clflush (probed 0x0), .vmovdqa64 zmm0 (probed 0x40),
        .clflush (probed 0x40), .add (.value args.stride) .r8])
      (.value args.endAddr) .r8,
    .block [.mfence]]

def imcprobe (args : ImcProbeArgs) : Code :=
  .sequence [
    .block [.xor .r9 .r9, .movqXmm (.value args.startAddr) zmm0],
    .loop
      (.sequence [
        .block [.mov (.value args.startAddr) .r8],
        .loop (.block [.vmovntdq zmm0 (probed 0x0), .add (.value 0x40) .r8]) (.value args.endAddr) .r8,
        .block [.add (.value 1) .r9]])
      (.value args.loop) .r9]

/-- A call of an access kernel. -/
inductive KernelCall where
  | sizebwLoad (args : SizeBwArgs)
  | sizebwNt (args : SizeBwArgs)
  | sizebwStore (args : SizeBwArgs)
  | sizebwStoreclwb (args : SizeBwArgs)
  | strideLoad (args : StrideArgs)
  | strideNt (args : StrideArgs)
  | strideStore (args : StrideArgs)
  | strideStoreclwb (args : StrideArgs)
  | clwbNtMixed (args : StrideArgs)
  | strideReadAfterWrite (args : StrideArgs)
  | chasingStoreclwb (args : ChaseArgs)
  | chasingLoadnt (args : ChaseArgs)
  | cachefence (args : CacheFenceArgs)
  | cacheprobe (args : CacheProbeArgs)
  | imcprobe (args : ImcProbeArgs)
  | seqLoad (args : SeqArgs)
  | seqStore (args : SeqArgs)
  | seqClwb (args : SeqArgs)
  | seqNt (args : SeqArgs)

namespace KernelCall

def code : KernelCall → Code
  | .sizebwLoad args => MemAccess.sizebwLoad args
  | .sizebwNt args => MemAccess.sizebwNt args
  | .sizebwStore args => MemAccess.sizebwStore args
  | .sizebwStoreclwb args => MemAccess.sizebwStoreclwb args
  | .strideLoad args => MemAccess.strideLoad args
  | .strideNt args => MemAccess.strideNt args
  | .strideStore args => MemAccess.strideStore args
  | .strideStoreclwb args => MemAccess.strideStoreclwb args
  | .clwbNtMixed args => MemAccess.clwbNtMixed args
  | .strideReadAfterWrite args => MemAccess.strideReadAfterWrite args
  | .chasingStoreclwb args => MemAccess.chasingStoreclwb args
  | .chasingLoadnt args => MemAccess.chasingLoadnt args
  | .cachefence args => MemAccess.cachefence args
  | .cacheprobe args => MemAccess.cacheprobe args
  | .imcprobe args => MemAccess.imcprobe args
  | .seqLoad args => MemAccess.seqLoad args
  | .seqStore args => MemAccess.seqStore args
  | .seqClwb args => MemAccess.seqClwb args
  | .seqNt args => MemAccess.seqNt args

/-- The output operand of the first four is an input too, and not written. -/
def clobbers : KernelCall → List Reg
  | .sizebwLoad _ => [.rcx, .r12, .r11, .r10, .r9, .r8]
  | .sizebwNt _ => [.rcx, .r12, .r11, .r10, .r9, .r8]
  | .sizebwStore _ => [.rcx, .r12, .r11, .r10, .r9, .r8]
  | .sizebwStoreclwb _ => [.rcx, .r12, .r11, .r10, .r9, .r8]
  | .strideLoad _ => [.r11, .r10, .r9, .r8]
  | .strideNt _ => [.r11, .r10, .r9, .r8]
  | .strideStore _ => [.r11, .r10, .r9, .r8]
  | .strideStoreclwb _ => [.r11, .r10, .r9, .r8]
  | .clwbNtMixed _ => [.r11, .r10, .r9, .r8]
  | .strideReadAfterWrite _ => [.r11, .r10, .r9, .r8]
  | .chasingStoreclwb _ => [.r12, .r11, .r10, .r9, .r8]
  | .chasingLoadnt _ => [.r11, .r10, .r9, .r8]
  | .cachefence _ => [.rdx, .rcx, .r11, .r10, .r9]
  | .cacheprobe _ => [.r8]
  | .imcprobe _ => [.r8, .r9]
  | .seqLoad _ => [.r8, .r9]
  | .seqStore _ => [.r8, .r9]
  | .seqClwb _ => [.r8, .r9]
  | .seqNt _ => [.r8, .r9]

/-- The registers it writes and does not name. -/
def unnamed (call : KernelCall) : List Reg := call.code.writes.filter (· ∉ call.clobbers)

theorem unnamed_loadnt (args : ChaseArgs) : (chasingLoadnt args).unnamed = [.r12, .r12, .r12] := rfl

theorem unnamed_other (call : KernelCall) (other : ∀ args, call ≠ .chasingLoadnt args) : call.unnamed = [] := by
  cases call with
  | chasingLoadnt args => exact absurd rfl (other args)
  | _ => rfl

end KernelCall

/-! # The register that is left out -/

/-- The positions that a pass of `chasing_loadnt` reads from a memory, one out of the line of another. -/
def ChaseArgs.position (args : ChaseArgs) (memory : Memory) (pass : Nat) : Nat → Word
  | 0 => 0
  | turn + 1 => memory.readWord (args.base pass + args.position memory pass turn <<< 6)

/-- The last of the last pass. -/
def ChaseArgs.lastPosition (args : ChaseArgs) (memory : Memory) : Word :=
  args.position memory (turns args.count 1 - 1) (turns args.size 64)

theorem chasingLoadnt_leaves {args : ChaseArgs} {before after : State} (ran : Exec (chasingLoadnt args) before after) :
    after.gpr .r12 = args.lastPosition before.data.memory := by
  have step : ∀ pass < turns args.count 1, ∀ turn < turns args.size 64, ∀ state : State,
      state.gpr .r9 = args.base pass → state.gpr .r12 = args.position before.data.memory pass turn →
      state.data.memory = before.data.memory →
      (runBlock loadntAccess state).gpr .r12 = args.position before.data.memory pass (turn + 1) ∧
        (runBlock loadntAccess state).data.memory = before.data.memory := by
    intro pass _ turn _ state base position unchanged
    have atLine : state.gpr .r9 + state.gpr .r12 <<< 6 =
        args.base pass + args.position before.data.memory pass turn <<< 6 := by
      rw [base, position]
    obtain ⟨moved, unchanged', _⟩ := loadnt_access atLine
    refine ⟨?_, unchanged'.trans unchanged⟩
    rw [moved, unchanged]
    rfl
  exact ((chasing_ends (args.position before.data.memory) chases_loadnt closes_loadnt (fun _ => rfl)
    (fun _ _ data => data.memory = before.data.memory) step (fun _ _ _ unchanged => unchanged) rfl).result ran).1

/-- What the registers and the memory at the call have to be. -/
def KernelCall.Restores (call : KernelCall) (before : State) : Prop :=
  match call with
  | .chasingLoadnt args => before.gpr .r12 = args.lastPosition before.data.memory
  | _ => True

/-- A call keeps the callee-saved registers, unless it is one of `chasing_loadnt`
whose walk through the memory ends elsewhere than at what `r12` holds. -/
theorem calleeSaved_kept_iff (call : KernelCall) (before after : State)
    (called : Calls call.code call.clobbers before after) :
    (∀ reg ∈ calleeSaved, after.gpr reg = before.gpr reg) ↔ call.Restores before := by
  have named (reg : Reg) (unnamed : reg ∉ call.unnamed) (written : reg ∈ call.code.writes) : reg ∈ call.clobbers := by
    by_contra unsaid
    exact unnamed (List.mem_filter.mpr ⟨written, by rwa [decide_eq_true_eq]⟩)
  by_cases loadnt : ∃ args, call = .chasingLoadnt args
  · obtain ⟨args, rfl⟩ := loadnt
    have left : after.gpr .r12 = args.lastPosition before.data.memory := by
      obtain ⟨done, ran, rfl⟩ := called
      exact (State.restore_unnamed (by simp [KernelCall.clobbers])).trans (chasingLoadnt_leaves ran)
    apply Iff.intro
    · intro kept
      exact (kept .r12 (by decide)).symm.trans left
    · intro restores reg saved
      by_cases position : reg = .r12
      · rw [position, left]
        exact restores.symm
      · apply called.keeps saved (named reg _)
        rw [KernelCall.unnamed_loadnt]
        simpa using position
  · have other : ∀ args, call ≠ .chasingLoadnt args := fun args same => loadnt ⟨args, same⟩
    have restores : call.Restores before := by
      cases call with
      | chasingLoadnt args => exact absurd rfl (other args)
      | _ => trivial
    refine iff_of_true (fun reg saved => called.keeps saved (named reg ?_)) restores
    rw [call.unnamed_other other]
    exact List.not_mem_nil

/-- One line, whose first word is the line itself. -/
def oneLine : ChaseArgs := ⟨0x1000, 64, 64, 1, 0x8000⟩

theorem calleeSaved_kept_blank :
    ∃ after, Calls (chasingLoadnt oneLine) (KernelCall.chasingLoadnt oneLine).clobbers .blank after ∧
      ∀ reg ∈ calleeSaved, after.gpr reg = State.blank.gpr reg := by
  have ran : Exec (chasingLoadnt oneLine) .blank _ := @Code.run_sound _ _ _ 2 rfl
  exact ⟨_, ⟨_, ran, rfl⟩, (calleeSaved_kept_iff (.chasingLoadnt oneLine) .blank _ ⟨_, ran, rfl⟩).mpr rfl⟩

/-- A caller's 7 in `r12` is gone. -/
theorem calleeSaved_lost :
    ∃ before after, Calls (chasingLoadnt oneLine) (KernelCall.chasingLoadnt oneLine).clobbers before after ∧
      before.gpr .r12 = 7 ∧ after.gpr .r12 = 0 := by
  have ran : Exec (chasingLoadnt oneLine) (State.blank.set .r12 7) _ := @Code.run_sound _ _ _ 2 rfl
  exact ⟨_, _, ⟨_, ran, rfl⟩, rfl, rfl⟩

end RwSep.MemAccess
