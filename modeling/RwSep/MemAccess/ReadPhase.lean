import RwSep.MemAccess.Stride

namespace RwSep.MemAccess

open RwSep.Data RwSep.X86

/-! The read phase of the read/write experiments runs `stride_nt`.

Its accesses are non-temporal stores of `zmm0`, so a byte keeps its value only
where the last store to it finds what it puts there.
-/

variable {args : StrideArgs} {before after : State}

/-- The bytes that every access of a strided kernel stores: the start address,
eight zeros, and what `zmm0` held before above them. -/
def StrideArgs.stamp (args : StrideArgs) (data : Data) : Line := (data.zmm zmm0).setLow args.startAddr

def Settled (args : StrideArgs) (data : Data) : Prop :=
  ∀ line (lane : Fin 64), Memory.lastCovering args.lines (line + BitVec.ofNat 64 lane) = some line →
    data.memory (line + BitVec.ofNat 64 lane) = args.stamp data lane

theorem strideNt_ends_iff (args : StrideArgs) (before : State) :
    (∃ after, Exec (strideNt args) before after) ↔ args.size.toInt + 64 ≤ 2 ^ 63 :=
  (strided_ends before advances_nt).ends_iff

theorem strideNt_memory (ran : Exec (strideNt args) before after) :
    after.data.memory = before.data.memory.writeLines (args.stamp before.data) args.lines :=
  ((strided_ends before advances_nt).result ran).2.1

/-- The read phase ends iff there is room for one more line above the access
size, and it leaves the memory as it was iff the memory is settled.  The machine
ends it where its lines are aligned and canonical as well (`strided_traces`). -/
theorem strideNt_readOnly_iff (args : StrideArgs) (before : State) :
    ((∃ after, Exec (strideNt args) before after) ↔ args.size.toInt + 64 ≤ 2 ^ 63) ∧
    ∀ after, Exec (strideNt args) before after →
      (after.data.memory = before.data.memory ↔ Settled args before.data) := by
  refine ⟨strideNt_ends_iff args before, fun after ran => ?_⟩
  rw [strideNt_memory ran]
  exact Memory.writeLines_eq_self_iff

theorem strideNt_overwrites : ∃ after, Exec (strideNt ⟨4096, 64, 64, 200, 1⟩) State.blank after ∧
    after.data.memory 4097 = 16 ∧ State.blank.data.memory 4097 = 0 := by
  obtain ⟨after, ran⟩ := (strideNt_ends_iff ⟨4096, 64, 64, 200, 1⟩ State.blank).mpr (by decide)
  refine ⟨after, ran, ?_, rfl⟩
  rw [strideNt_memory ran]
  decide

/-- On the lines that `stride_storeclwb` has just written with the same
arguments the read phase stores what is there. -/
theorem settled_after_storeclwb (ran : Exec (strideStoreclwb args) before after) :
    Settled args after.data := by
  obtain ⟨held, written, _⟩ := (strided_ends before advances_storeclwb).result ran
  have same : args.stamp after.data = args.stamp before.data := by
    rw [StrideArgs.stamp, StrideArgs.stamp, held, Line.setLow_setLow]
  rw [Settled, same, written]
  exact Memory.writeLines_eq_self_iff.mp (Memory.writeLines_again ..)

theorem strideNt_readOnly_iff_settled : ∃ after,
    Exec (strideNt ⟨0, 64, 64, 200, 1⟩) State.blank after ∧ after.data.memory = State.blank.data.memory := by
  obtain ⟨after, ran⟩ := (strideNt_readOnly_iff ⟨0, 64, 64, 200, 1⟩ State.blank).1.mpr (by decide)
  refine ⟨after, ran, ((strideNt_readOnly_iff ⟨0, 64, 64, 200, 1⟩ State.blank).2 after ran).mpr ?_⟩
  have zeros : ∀ lane, StrideArgs.stamp ⟨0, 64, 64, 200, 1⟩ State.blank.data lane = 0 := by decide
  intro line lane _
  exact (zeros lane).symm

end RwSep.MemAccess
