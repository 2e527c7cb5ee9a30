import RwSep.Benchmark.Multithread
import RwSep.MemAccess.StrideKernels

namespace RwSep.Benchmark

open RwSep.Data RwSep.Execution RwSep.X86 RwSep.MemAccess

/-! What the strided kernels and their thread copies have in common. -/

inductive StridedKernel where
  | strideLoad
  | strideNt
  | strideStore
  | strideStoreclwb
  | clwbNtMixed
  | threadNt
  | threadStoreclwb
deriving DecidableEq, Repr

def StridedKernel.code : StridedKernel → StrideArgs → Code
  | .strideLoad, args => MemAccess.strideLoad args
  | .strideNt, args => MemAccess.strideNt args
  | .strideStore, args => MemAccess.strideStore args
  | .strideStoreclwb, args => MemAccess.strideStoreclwb args
  | .clwbNtMixed, args => MemAccess.clwbNtMixed args
  | .threadNt, args => Benchmark.strideNt ⟨args.startAddr, args.size, args.skip, args.delay, args.count⟩
  | .threadStoreclwb, args => Benchmark.strideStoreclwb ⟨args.startAddr, args.size, args.skip, args.delay, args.count⟩

/-- The accesses to one line. -/
def StridedKernel.events (line : Word) : StridedKernel → List Event
  | .strideLoad => [.ntLoad line]
  | .strideNt => [.ntStore line]
  | .strideStore => [.store line 64]
  | .strideStoreclwb => [.store line 64, .clwb line]
  | .clwbNtMixed => [.store line 64, .clwb line]
  | .threadNt => [.ntStore line]
  | .threadStoreclwb => [.store line 64, .clwb line]

theorem StridedKernel.traverses (kernel : StridedKernel) (args : StrideArgs) :
    Traverses (kernel.code args) args fun line => kernel.events line := by
  cases kernel with
  | strideLoad => exact traverses_load args
  | strideNt => exact traverses_nt args
  | strideStore => exact traverses_store args
  | strideStoreclwb => exact traverses_storeclwb args
  | clwbNtMixed => exact traverses_clwbNtMixed args
  | threadNt => exact traverses_nt args
  | threadStoreclwb => exact traverses_storeclwb args

theorem StridedKernel.accesses (kernel : StridedKernel) (line : Word) :
    accessedLines (kernel.events line) = [line] := by
  cases kernel <;> rfl

theorem StridedKernel.accessesLine (kernel : StridedKernel) : AccessesLine fun line => kernel.events line := by
  cases kernel with
  | strideLoad => exact accessesLine_ntLoad
  | strideNt => exact accessesLine_ntStore
  | strideStore => exact accessesLine_store
  | strideStoreclwb => exact accessesLine_storeclwb
  | clwbNtMixed => exact accessesLine_storeclwb
  | threadNt => exact accessesLine_ntStore
  | threadStoreclwb => exact accessesLine_storeclwb

theorem StridedKernel.runs_iff (kernel : StridedKernel) {args : StrideArgs} (sized : 1 ≤ args.size.toInt)
    (counted : 1 ≤ args.count.toInt) (before : State) :
    (∃ after events, Runs (kernel.code args) before after events) ↔
      args.size.toInt + 64 ≤ 2 ^ 63 ∧ 64 ∣ args.startAddr.toNat ∧ (64 ∣ args.skip.toNat ∨ args.count.toNat = 1) ∧
        ∀ i < args.count.toNat, ∀ j < (args.size.toNat + 63) / 64, Canonical (args.line i j) := by
  have runs := (kernel.traverses args).runs_iff kernel.accessesLine before
  rwa [turns_count counted, turns_positive sized (by decide)] at runs

/-- Unless the access counter leaves the range of `long`, or a vector access
faults, every kernel runs to its end.  It has then touched the lines of its
blocks in order, with a fence after each block: the same lines as every other
kernel, and each of them once where a stride has room for a block. -/
theorem strided_traces (args : StrideArgs) (sized : 1 ≤ args.size.toInt) (counted : 1 ≤ args.count.toInt) :
    (∀ (kernel : StridedKernel) before, (∃ after events, Runs (kernel.code args) before after events) ↔
      args.size.toInt + 64 ≤ 2 ^ 63 ∧ 64 ∣ args.startAddr.toNat ∧ (64 ∣ args.skip.toNat ∨ args.count.toNat = 1) ∧
        ∀ i < args.count.toNat, ∀ j < (args.size.toNat + 63) / 64, Canonical (args.line i j)) ∧
    (∀ (kernel : StridedKernel) before after trace, Runs (kernel.code args) before after trace →
      (trace = (List.range args.count.toNat).flatMap fun i =>
        ((List.range ((args.size.toNat + 63) / 64)).flatMap fun j => kernel.events (args.line i j)) ++ [.mfence]) ∧
      (accessedLines trace = (List.range args.count.toNat).flatMap fun i =>
        (List.range ((args.size.toNat + 63) / 64)).map (args.line i)) ∧
      (64 * ((args.size.toNat + 63) / 64) ≤ args.skip.toInt →
        (accessedLines trace).Pairwise fun earlier later => (Range.mk earlier 64).Disjoint ⟨later, 64⟩)) := by
  refine ⟨fun kernel => kernel.runs_iff sized counted, fun kernel before after trace runs => ?_⟩
  have blocks : args.block = fun i => (List.range ((args.size.toNat + 63) / 64)).map (args.line i) :=
    funext (block_eq sized)
  have traced := runs.events_eq ((kernel.traverses args).traced before after runs.exec)
  have touched := accessedLines_traversal kernel.accesses args (turns args.count 1)
  rw [turns_count counted, blocks] at traced touched
  simp only [List.flatMap_map] at traced touched
  rw [← traced] at touched
  refine ⟨traced, touched, fun wide => ?_⟩
  obtain ⟨room, _, _, canonical⟩ := (kernel.runs_iff sized counted before).mp ⟨after, trace, runs⟩
  have value := Word.toNat_eq_toInt (Int.le_trans Int.one_nonneg sized)
  rw [touched]
  exact lines_disjoint_canonical (by omega) (by omega) wide canonical

/-- Two lines in each of three strides. -/
def threeStrides : StrideArgs := ⟨0x1000, 100, 256, 5, 3⟩

theorem strided_traces_three :
    (∀ (kernel : StridedKernel) before, ∃ after trace, Runs (kernel.code threeStrides) before after trace ∧
      accessedLines trace = [0x1000, 0x1040, 0x1100, 0x1140, 0x1200, 0x1240]) ∧
    ([0x1000, 0x1040, 0x1100, 0x1140, 0x1200, 0x1240] : List Word).Pairwise fun earlier later =>
      (Range.mk earlier 64).Disjoint ⟨later, 64⟩ := by
  obtain ⟨runsIff, traced⟩ := strided_traces threeStrides (by decide) (by decide)
  have runs : ∀ (kernel : StridedKernel) before, ∃ after trace, Runs (kernel.code threeStrides) before after trace :=
    fun kernel before => (runsIff kernel before).mpr (by decide)
  apply And.intro
  · intro kernel before
    obtain ⟨after, trace, run⟩ := runs kernel before
    exact ⟨after, trace, run, (traced kernel before after trace run).2.1⟩
  · obtain ⟨after, trace, run⟩ := runs .strideLoad .blank
    obtain ⟨_, touched, disjoint⟩ := traced .strideLoad .blank after trace run
    have apart := disjoint (by decide)
    rw [touched] at apart
    exact apart

/-- The second of two strides of 100 bytes begins inside a line. -/
theorem strided_misaligned : (∀ i < 2, ∀ j < 1, Canonical (StrideArgs.line ⟨0x1000, 64, 100, 0, 2⟩ i j)) ∧
    ∀ (kernel : StridedKernel) before, (∃ after, Exec (kernel.code ⟨0x1000, 64, 100, 0, 2⟩) before after) ∧
      ¬ ∃ after trace, Runs (kernel.code ⟨0x1000, 64, 100, 0, 2⟩) before after trace := by
  refine ⟨by decide, fun kernel before => ⟨?_, fun ended => ?_⟩⟩
  · exact ((kernel.traverses _).returns before).mpr (by decide)
  · obtain ⟨_, _, stride, _⟩ := (kernel.runs_iff (by decide) (by decide) before).mp ended
    exact absurd stride (by decide)

end RwSep.Benchmark
