import RwSep.MemAccess.CacheFence
import RwSep.MemAccess.Chasing
import RwSep.MemAccess.RandLfsr

namespace RwSep.MemAccess

open RwSep.Data RwSep.Execution RwSep.X86

/-! What the write-back kernels of memaccess.c leave in persistent memory. -/

structure SizeBwArgs where
  startAddr : Word
  size : Word
  count : Word
  randSeed : Word
  accessMask : Word
deriving DecidableEq, Repr

/-- `disp(%%r9, %%r10)` -/
def accessedAt (disp : Word) : Address := ⟨disp, .reg .r9, .reg .r10, 1⟩

def SIZEBTSTFLUSH_512_AVX512 : List Instr :=
  [.vmovdqa64 zmm0 (accessedAt 0x0), .clwb (accessedAt 0x0),
    .vmovdqa64 zmm0 (accessedAt 0x40), .clwb (accessedAt 0x40),
    .vmovdqa64 zmm0 (accessedAt 0x80), .clwb (accessedAt 0x80),
    .vmovdqa64 zmm0 (accessedAt 0xc0), .clwb (accessedAt 0xc0),
    .vmovdqa64 zmm0 (accessedAt 0x100), .clwb (accessedAt 0x100),
    .vmovdqa64 zmm0 (accessedAt 0x140), .clwb (accessedAt 0x140),
    .vmovdqa64 zmm0 (accessedAt 0x180), .clwb (accessedAt 0x180),
    .vmovdqa64 zmm0 (accessedAt 0x1c0), .clwb (accessedAt 0x1c0),
    .add (.value 0x200) .r10]

/-- One of the four blocks of a turn: an offset is drawn, and `size` bytes from there are stored. -/
def sizebwBlock (args : SizeBwArgs) : Code :=
  .sequence [
    .block (RandLFSR64 args.randSeed args.accessMask),
    .block [.lea ⟨0, .value args.startAddr, .reg .r8, 1⟩ .r9, .xor .r10 .r10],
    .loop (.block SIZEBTSTFLUSH_512_AVX512) (.value args.size) .r10,
    .block [SIZEBTST_FENCE]]

def sizebwStoreclwb (args : SizeBwArgs) : Code :=
  .sequence [
    .block [.mov (.value lfsrMask) .rcx, .xor .r11 .r11, .movqXmm (.value args.startAddr) zmm0],
    .loop
      (.sequence [sizebwBlock args, sizebwBlock args, sizebwBlock args, sizebwBlock args,
        .block [.add (.value 4) .r11]])
      (.value args.count) .r11]

structure SeqArgs where
  startAddr : Word
  endAddr : Word
  size : Word
deriving DecidableEq, Repr

/-- `(%%r9, %%r8)` -/
def sequential : Address := ⟨0, .reg .r9, .reg .r8, 1⟩

def seqClwb (args : SeqArgs) : Code :=
  .sequence [
    .block [.mov (.value args.startAddr) .r9, .movqXmm (.value args.startAddr) zmm0],
    .loop
      (.sequence [
        .block [.xor .r8 .r8],
        .loop (.block [.vmovdqa64 zmm0 sequential, .clwb sequential, .add (.value 0x40) .r8]) (.value args.size) .r8,
        .block [.add (.value args.size) .r9]])
      (.value args.endAddr) .r9]

/-! # Accesses -/

section Accesses

variable {exempt : Nat → Prop}

theorem emits_strideAccess : Emits (.block SIZEBTSTFLUSH_64_AVX512) (Steady exempt) :=
  emits_block fun state => ⟨_, by rw [advances_storeclwb.touches]; rfl, steady_storeclwb⟩

theorem emits_sequentialAccess :
    Emits (.block [.vmovdqa64 zmm0 sequential, .clwb sequential, .add (.value 0x40) .r8]) (Steady exempt) := by
  apply emits_block
  intro state
  let address := sequential.eval state.gpr
  have traced : (runBlock [.vmovdqa64 zmm0 sequential, .clwb sequential, .add (.value 0x40) .r8] state).data.trace =
      state.data.trace ++ [.store address 64] ++ [.clwb address] := rfl
  exact ⟨_, traced.trans (List.append_assoc ..), steady_storeclwb⟩

theorem steady_load {address : Word} {size : Nat} : Steady exempt [.load address size] := by
  apply Quiet.steady
  intro event member
  rw [List.mem_singleton.mp member]
  exact fun _ => id

theorem emits_chaseAccess (args : ChaseArgs) : Emits (.block (storeclwbAccess args)) (Steady exempt) := by
  apply emits_block
  intro state
  let index := (Address.mk 0 (.value args.cindex) (.reg .r12) 8).eval state.gpr
  let address := chased.eval (state.set .r12 (state.gpr .r12 <<< 6)).gpr
  have traced : (runBlock (storeclwbAccess args) state).data.trace =
      state.data.trace ++ [.load index 8] ++ [.store address 64] ++ [.clwb address] := rfl
  refine ⟨[.load index 8] ++ [.store address 64, .clwb address], ?_, steady_load.append steady_storeclwb⟩
  rw [traced]
  simp

/-- Stores at several displacements, each followed by its write-back. -/
theorem emits_pairs (disps : List Word) :
    Emits (.block (disps.flatMap fun disp => [.vmovdqa64 zmm0 (accessedAt disp), .clwb (accessedAt disp)]))
      (Steady exempt) := by
  induction disps with
  | nil => exact emits_nothing.quiet_steady
  | cons disp rest ih =>
      have pair : Emits (.block [.vmovdqa64 zmm0 (accessedAt disp), .clwb (accessedAt disp)]) (Steady exempt) := by
        apply emits_block
        intro state
        let address := (accessedAt disp).eval state.gpr
        have traced : (runBlock [.vmovdqa64 zmm0 (accessedAt disp), .clwb (accessedAt disp)] state).data.trace =
            state.data.trace ++ [.store address 64] ++ [.clwb address] := rfl
        exact ⟨_, traced.trans (List.append_assoc ..), steady_storeclwb⟩
      exact pair.block_append ih Steady.append

theorem emits_sizebwAccess : Emits (.block SIZEBTSTFLUSH_512_AVX512) (Steady exempt) := by
  have advance : Emits (.block [.add (.value 0x200) .r10]) (Steady exempt) := (emits_quiet fun _ => rfl).quiet_steady
  exact (emits_pairs [0x0, 0x40, 0x80, 0xc0, 0x100, 0x140, 0x180, 0x1c0]).block_append advance Steady.append

end Accesses

/-- The lines of the word that `rand_seed` points to. -/
def SizeBwArgs.SeedLine (args : SizeBwArgs) (line : Nat) : Prop := (Event.store args.randSeed 8).Writes line

theorem emits_draw (args : SizeBwArgs) :
    Emits (.block (RandLFSR64 args.randSeed args.accessMask)) (Steady args.SeedLine) := by
  apply emits_block
  intro state
  refine ⟨[.load args.randSeed 8] ++ [.store args.randSeed 8], ?_, steady_load.append (steady_exempt ?_)⟩
  · rw [draw_data, List.append_assoc]
  · intro line written
    obtain ⟨event, member, writes⟩ := written
    rwa [List.mem_singleton.mp member] at writes

/-! # Kernels -/

section Kernels

variable {exempt : Nat → Prop}

theorem emits_fence : Emits (.block [.mfence]) (Settling exempt) :=
  emits_block fun _ => ⟨[.mfence], rfl, settling_fence trivial⟩

theorem emits_fence_reset : Emits (.block [.mfence, .xor .r10 .r10]) (Settling exempt) :=
  emits_block fun _ => ⟨[.mfence], rfl, settling_fence trivial⟩

theorem emits_strideStoreclwb (args : StrideArgs) : Emits (strideStoreclwb args) (Settling exempt) := by
  have tick : Emits (.block [.inc .r10]) Quiet := emits_quiet fun _ => rfl
  have delay : Emits (.loop (.block [.inc .r10]) (.value args.delay) .r10) Quiet := tick.quiet_loop
  have advance : Emits (.block [.add (.value args.skip) .r8, .inc .r11]) Quiet := emits_quiet fun _ => rfl
  have locate : Emits (.block [.lea ⟨0, .value args.startAddr, .reg .r8, 1⟩ .r9, .xor .r10 .r10]) Quiet :=
    emits_quiet fun _ => rfl
  have start : Emits (.block [.xor .r8 .r8, .xor .r11 .r11, .movqXmm (.value args.startAddr) zmm0]) Quiet :=
    emits_quiet fun _ => rfl
  have turn : Emits (stridedOuter SIZEBTSTFLUSH_64_AVX512 SIZEBTST_FENCE args) (Settling exempt) :=
    locate.quiet_steady.settled (emits_strideAccess.steady_loop.settled
      (emits_fence_reset.settled_quiet (delay.quiet_seq (advance.quiet_seq emits_nothing))))
  exact start.quiet_steady.settled (turn.settling_loop.settled_quiet emits_nothing)

theorem emits_chasingStoreclwb (args : ChaseArgs) : Emits (chasingStoreclwb args) (Settling exempt) := by
  have advance : Emits (.block [.add (.value args.skip) .r8, .inc .r11]) Quiet := emits_quiet fun _ => rfl
  have locate : Emits (.block [.lea ⟨0, .value args.startAddr, .reg .r8, 1⟩ .r9, .xor .r10 .r10, .xor .r12 .r12])
      Quiet := emits_quiet fun _ => rfl
  have start : Emits (.block [.xor .r8 .r8, .xor .r11 .r11]) Quiet := emits_quiet fun _ => rfl
  have turn : Emits (chasingOuter (storeclwbAccess args) [SIZEBTST_FENCE, .xor .r10 .r10] args) (Settling exempt) :=
    locate.quiet_steady.settled ((emits_chaseAccess args).steady_loop.settled
      (emits_fence_reset.settled_quiet (advance.quiet_seq emits_nothing)))
  exact start.quiet_steady.settled (turn.settling_loop.settled_quiet emits_nothing)

theorem emits_sizebwStoreclwb (args : SizeBwArgs) : Emits (sizebwStoreclwb args) (Settling args.SeedLine) := by
  have locate : Emits (.block [.lea ⟨0, .value args.startAddr, .reg .r8, 1⟩ .r9, .xor .r10 .r10]) Quiet :=
    emits_quiet fun _ => rfl
  have advance : Emits (.block [.add (.value 4) .r11]) Quiet := emits_quiet fun _ => rfl
  have start : Emits (.block [.mov (.value lfsrMask) .rcx, .xor .r11 .r11, .movqXmm (.value args.startAddr) zmm0])
      Quiet := emits_quiet fun _ => rfl
  have block : Emits (sizebwBlock args) (Settling args.SeedLine) :=
    (emits_draw args).settled (locate.quiet_steady.settled
      (emits_sizebwAccess.steady_loop.settled (emits_fence.settled_quiet emits_nothing)))
  have again : Emits (sizebwBlock args) (Steady args.SeedLine) := block.imp Settling.steady
  have turn := again.settled (again.settled (again.settled
    (block.settled_quiet (advance.quiet_seq emits_nothing))))
  exact start.quiet_steady.settled (turn.settling_loop.settled_quiet emits_nothing)

/-- No fence: the lines are written back, and no more. -/
theorem emits_seqClwb (args : SeqArgs) : Emits (seqClwb args) (Steady exempt) := by
  have start : Emits (.block [.mov (.value args.startAddr) .r9, .movqXmm (.value args.startAddr) zmm0])
      (Steady exempt) := (emits_quiet fun _ => rfl).quiet_steady
  have reset : Emits (.block [.xor .r8 .r8]) (Steady exempt) := (emits_quiet fun _ => rfl).quiet_steady
  have advance : Emits (.block [.add (.value args.size) .r9]) (Steady exempt) :=
    (emits_quiet fun _ => rfl).quiet_steady
  have nothing : Emits (.block []) (Steady exempt) := emits_nothing.quiet_steady
  have inner : Emits (.loop (.block [.vmovdqa64 zmm0 sequential, .clwb sequential, .add (.value 0x40) .r8])
      (.value args.size) .r8) (Steady exempt) := emits_sequentialAccess.steady_loop
  have turn := reset.seq (inner.seq (advance.seq nothing Steady.append) Steady.append) Steady.append
  have outer : Emits (.loop _ (.value args.endAddr) .r9) (Steady exempt) := turn.steady_loop
  exact start.seq (outer.seq nothing Steady.append) Steady.append

end Kernels

/-! # Batches flushed by address

`cachefence` compares the flush address with the end of the batch as signed
numbers.  Between canonical addresses that is right.
-/

theorem canonical_end {address : Word} {count : Nat}
    (canonical : ∀ line ∈ linesFrom address count, (Event.store line 64).Canonical) :
    address.toInt + (64 * count : Nat) < 2 ^ 63 := by
  induction count with
  | zero =>
      have := BitVec.toInt_lt (x := address)
      omega
  | succ count ih =>
      rw [linesFrom_succ] at canonical
      have before := ih fun line member => canonical line (List.mem_append_left _ member)
      have last : (address + BitVec.ofNat 64 (64 * count)).toInt < 2 ^ 56 :=
        (canonical _ (List.mem_append_right _ List.mem_cons_self)).2
      rw [Word.toInt_offset before] at last
      omega

theorem linesFrom_subset {address line : Word} {count count' : Nat} (short : count ≤ count')
    (member : line ∈ linesFrom address count) : line ∈ linesFrom address count' := by
  rw [show count' = count + (count' - count) by omega, linesFrom_append]
  exact List.mem_append_left _ member

section CacheFence

variable {exempt : Nat → Prop}

/-- Of a kind when all accesses are canonical. -/
def IfCanonical (Kind : List Event → Prop) (events : List Event) : Prop := AllCanonical events → Kind events

theorem IfCanonical.append {Kind Kind' Kind'' : List Event → Prop}
    (join : ∀ {events more}, Kind events → Kind' more → Kind'' (events ++ more)) {events more : List Event}
    (first : IfCanonical Kind events) (second : IfCanonical Kind' more) : IfCanonical Kind'' (events ++ more) := by
  intro canonical
  obtain ⟨before, after⟩ := List.forall_mem_append.mp canonical
  exact join (first before) (second after)

theorem emits_cachefenceBatch (args : CacheFenceArgs) :
    Emits (cachefenceBatch args) (IfCanonical (Steady exempt)) := by
  intro before after ran
  obtain ⟨ready, prepared, stored, stores, flushing, ended, flushed, flushes, rfl⟩ := ran
  cases prepared
  cases ended
  obtain ⟨count, _, rfl, _⟩ := stores.iterates Eq.symm
  obtain ⟨turns, _, rfl, done, _⟩ := flushes.iterates Eq.symm
  have wrote : Wrote args count _ _ := writeOne_iterate (runBlock [.xor .r10 .r10, .lea args.offset .rdx] before) count
  generalize (runBlock (writeOne args))^[count] (runBlock [.xor .r10 .r10, .lea args.offset .rdx] before) = stored
    at wrote done
  have wroteBack := flushOne_iterate (runBlock [.lea args.offset .rcx] stored) turns
  have start : (runBlock [.lea args.offset .rcx] stored).gpr .rdx = args.startAddr + before.gpr .r9 := by
    rw [← offset_eval]
    exact wrote.flushStart
  have stop : (runBlock [.lea args.offset .rcx] stored).gpr .rcx =
      (runBlock [.lea args.offset .rcx] stored).gpr .rdx + BitVec.ofNat 64 (64 * count) := by
    rw [start, BitVec.add_assoc]
    change args.offset.eval stored.gpr = _
    rw [offset_eval, wrote.offset]
    rfl
  let address := args.startAddr + before.gpr .r9
  refine ⟨(linesFrom address count).map (.store · 64) ++ (linesFrom address turns).map .clwb, ?_, fun canonical => ?_⟩
  · change ((runBlock flushOne)^[turns] (runBlock [.lea args.offset .rcx] stored)).data.trace = _
    rw [wroteBack.trace, start, ← List.append_assoc]
    exact congrArg (· ++ _) wrote.trace
  · apply steady_batch
    intro line member
    apply linesFrom_subset _ member
    by_contra short
    have below := canonical_end fun line member =>
      canonical (.store line 64) (List.mem_append_left _ (List.mem_map_of_mem member))
    exact done ((flush_goes_on (by rwa [start]) stop (by omega)).mpr (by omega))

theorem emits_cachefence (args : CacheFenceArgs) : Emits (cachefence args) (IfCanonical (Settling exempt)) := by
  have reset : Emits (.block [.xor .r11 .r11]) (IfCanonical (Steady exempt)) :=
    (emits_quiet fun _ => rfl).imp fun quiet _ => quiet.steady
  have start : Emits (.block [.movqXmm (.value args.startAddr) zmm0, .xor .r9 .r9]) (IfCanonical (Steady exempt)) :=
    (emits_quiet fun _ => rfl).imp fun quiet _ => quiet.steady
  have nothing : Emits (.block []) (IfCanonical Quiet) := emits_nothing.imp fun quiet _ => quiet
  have fence : Emits (.block [CACHEFENCE_FENCE]) (IfCanonical (Settling exempt)) :=
    emits_block fun _ => ⟨[.sfence], rfl, fun _ => settling_fence trivial⟩
  have batches : Emits (.loop (cachefenceBatch args) (.value args.fence) .r11) (IfCanonical (Steady exempt)) :=
    (emits_cachefenceBatch args).loop (IfCanonical.append Steady.append)
  have group : Emits (cachefenceGroup args) (IfCanonical (Settling exempt)) :=
    reset.seq (batches.seq (fence.seq nothing (IfCanonical.append Settling.quiet))
      (IfCanonical.append Steady.settling)) (IfCanonical.append Steady.settling)
  have groups : Emits (.loop (cachefenceGroup args) (.value args.size) .r9) (IfCanonical (Settling exempt)) :=
    group.loop (IfCanonical.append fun first second => first.steady.settling second)
  exact start.seq (groups.seq nothing (IfCanonical.append Settling.quiet)) (IfCanonical.append Steady.settling)

end CacheFence

/-! # All kernels -/

inductive WriteBack where
  | strideStoreclwb (args : StrideArgs)
  | sizebwStoreclwb (args : SizeBwArgs)
  | chasingStoreclwb (args : ChaseArgs)
  | cachefence (args : CacheFenceArgs)
  | seqClwb (args : SeqArgs)

namespace WriteBack

def code : WriteBack → Code
  | strideStoreclwb args => MemAccess.strideStoreclwb args
  | sizebwStoreclwb args => MemAccess.sizebwStoreclwb args
  | chasingStoreclwb args => MemAccess.chasingStoreclwb args
  | cachefence args => MemAccess.cachefence args
  | seqClwb args => MemAccess.seqClwb args

def Fenced : WriteBack → Prop
  | seqClwb _ => False
  | _ => True

/-- The lines of the state of the offset generator, which plain stores update. -/
def GeneratorLine (kernel : WriteBack) (line : Nat) : Prop :=
  match kernel with
  | sizebwStoreclwb args => args.SeedLine line
  | _ => False

end WriteBack

/-- Whatever a write-back kernel has written when it returns, its generator's
state apart, is durable, or will be with the next fence in the case of the
sequential kernel, which has none. -/
theorem writeBack_durable (kernel : WriteBack) {before after : State} {events : List Event}
    (ran : Exec kernel.code before after) (traced : after.data.trace = before.data.trace ++ events)
    (aligned : AllAligned events) (canonical : AllCanonical events) :
    (kernel.Fenced → AllWritten Durable kernel.GeneratorLine events) ∧
      ∀ fence : Event, fence.Fences → AllWritten Durable kernel.GeneratorLine (events ++ [fence]) := by
  have settled : Settling kernel.GeneratorLine events →
      (kernel.Fenced → AllWritten Durable kernel.GeneratorLine events) ∧
        ∀ fence : Event, fence.Fences → AllWritten Durable kernel.GeneratorLine (events ++ [fence]) := by
    intro settling
    have durable := settling aligned [] allWritten_nil
    exact ⟨fun _ => durable, fun fence fences => durable.flushed.settle fences⟩
  cases kernel with
  | strideStoreclwb args => exact settled ((emits_strideStoreclwb args).events ran traced)
  | sizebwStoreclwb args => exact settled ((emits_sizebwStoreclwb args).events ran traced)
  | chasingStoreclwb args => exact settled ((emits_chasingStoreclwb args).events ran traced)
  | cachefence args => exact settled ((emits_cachefence args).events ran traced canonical)
  | seqClwb args =>
      have steady : Steady (WriteBack.seqClwb args).GeneratorLine events := (emits_seqClwb args).events ran traced
      have flushed := steady aligned [] allWritten_nil
      exact ⟨fun fenced => fenced.elim, fun fence fences => flushed.settle fences⟩

theorem writeBack_durable_stride : ∃ after,
    Exec (WriteBack.strideStoreclwb ⟨4096, 100, 64, 1, 2⟩).code .blank after ∧
      AllWritten Durable (fun _ => False) after.data.trace := by
  have computed : ((WriteBack.strideStoreclwb ⟨4096, 100, 64, 1, 2⟩).code.run 3 .blank).map (·.data.trace) =
      some [.store 4096 64, .clwb 4096, .store 4160 64, .clwb 4160, .mfence,
        .store 4160 64, .clwb 4160, .store 4224 64, .clwb 4224, .mfence] := by decide +kernel
  obtain ⟨after, ran, traced⟩ := Code.run_blank computed
  refine ⟨after, ran, ?_⟩
  rw [traced]
  exact (writeBack_durable (.strideStoreclwb ⟨4096, 100, 64, 1, 2⟩) ran traced (by decide) (by decide)).1 trivial

/-- The accesses of one block of `sizebw_storeclwb` at 4096 with its generator at 8192. -/
def drawnBlock : List Event :=
  [.load 8192 8, .store 8192 8] ++
    ([4096, 4160, 4224, 4288, 4352, 4416, 4480, 4544].flatMap fun line => [.store line 64, .clwb line]) ++ [.mfence]

/-- Without a fence no line is durable, and without a write-back the
generator's line is not. -/
theorem writeBack_not_durable :
    (∃ after, Exec (WriteBack.seqClwb ⟨4096, 4160, 64⟩).code .blank after ∧ AllAligned after.data.trace ∧
      AllCanonical after.data.trace ∧ ¬ AllWritten Durable (fun _ => False) after.data.trace) ∧
    ∃ after, Exec (WriteBack.sizebwStoreclwb ⟨4096, 64, 4, 8192, 0⟩).code .blank after ∧
      AllAligned after.data.trace ∧ AllCanonical after.data.trace ∧
      ¬ AllWritten Durable (fun _ => False) after.data.trace := by
  have sequential : ((WriteBack.seqClwb ⟨4096, 4160, 64⟩).code.run 2 .blank).map (·.data.trace) =
      some [.store 4096 64, .clwb 4096] := by decide +kernel
  have drawn : ((WriteBack.sizebwStoreclwb ⟨4096, 64, 4, 8192, 0⟩).code.run 2 .blank).map (·.data.trace) =
      some (drawnBlock ++ drawnBlock ++ drawnBlock ++ drawnBlock) := by decide +kernel
  apply And.intro
  · obtain ⟨after, ran, traced⟩ := Code.run_blank sequential
    refine ⟨after, ran, ?_⟩
    rw [traced]
    refine ⟨by decide, by decide, fun durable => ?_⟩
    have written : Written 64 [.store 4096 64, .clwb 4096] :=
      ⟨.store 4096 64, by simp, (writes_aligned (by decide)).mpr rfl⟩
    exact absurd (durable 64 id written).fences (by decide)
  · obtain ⟨after, ran, traced⟩ := Code.run_blank drawn
    refine ⟨after, ran, ?_⟩
    rw [traced]
    refine ⟨by decide, by decide, fun durable => ?_⟩
    have written : Written 128 (drawnBlock ++ drawnBlock ++ drawnBlock ++ drawnBlock) :=
      ⟨.store 8192 8, by simp [drawnBlock], 8192, by decide, rfl⟩
    exact absurd (durable 128 id written).flushed.writesBack (by decide)

end RwSep.MemAccess
