import RwSep.MemAccess.ReadPhase
import RwSep.MemAccess.StrideKernels
import Mathlib.Data.List.Perm.Basic

namespace RwSep.MemAccess

open RwSep.Data RwSep.Execution RwSep.X86

/-! The separate and the combined job of read_after_write.cpp.

The combined kernel reads each block right after it has written it.  Both store
the same line to the same addresses, and within a block the second sweep stores
what the first has left.
-/

def rawOuter (args : StrideArgs) : Code :=
  .sequence [
    .block [.lea ⟨0, .value args.startAddr, .reg .r8, 1⟩ .r9, .xor .r10 .r10],
    .loop (.block SIZEBTSTFLUSH_64_AVX512) (.value args.size) .r10,
    .block [.mfence, .xor .r10 .r10],
    .loop (.block SIZEBTNT_64_AVX512) (.value args.size) .r10,
    .block [.mfence, .xor .r10 .r10],
    .loop (.block [.inc .r10]) (.value args.delay) .r10,
    .block [.add (.value args.skip) .r8, .inc .r11]]

def strideReadAfterWrite (args : StrideArgs) : Code :=
  .sequence [
    .block [.xor .r8 .r8, .xor .r11 .r11, .movqXmm (.value args.startAddr) zmm0],
    .loop (rawOuter args) (.value args.count) .r11]

/-- The fences are those of the job. -/
def rawSeparate (args : StrideArgs) : Code :=
  .sequence [strideStoreclwb args, .block [.mfence], strideNt args, .block [.mfence]]

def rawCombined (args : StrideArgs) : Code := .sequence [strideReadAfterWrite args, .block [.mfence]]

/-- The accesses of a trace without its fences. -/
def lineAccesses (events : List Event) : List Event := events.filter (· != .mfence)

def writeEvents (line : Word) : List Event := [.store line 64, .clwb line]

def readEvents (line : Word) : List Event := [.ntStore line]

/-- One block of the combined kernel: written, fenced, read, fenced. -/
def StrideArgs.rawBlock (args : StrideArgs) (turn : Nat) : List Event :=
  ((args.block turn).flatMap writeEvents ++ [.mfence]) ++ ((args.block turn).flatMap readEvents ++ [.mfence])

/-- All blocks in one sweep. -/
def StrideArgs.sweep (args : StrideArgs) (events : Word → List Event) : List Event :=
  (List.range (turns args.count 1)).flatMap fun turn => (args.block turn).flatMap events ++ [.mfence]

def rawThrough (args : StrideArgs) (data : Data) (count : Nat) : Data :=
  { data with
    memory := data.memory.writeLines (data.zmm zmm0) ((List.range count).flatMap args.block)
    trace := data.trace ++ (List.range count).flatMap args.rawBlock }

variable {args : StrideArgs} {state before after : State} {data : Data}

/-- The second sweep over a block leaves the memory as it is. -/
theorem rawThrough_succ (turn : Nat) :
    fenced (through ntStored (fenced (through storedBack (rawThrough args data turn) (args.block turn)))
      (args.block turn)) = rawThrough args data (turn + 1) := by
  rw [storedBack, through_stored, ntStored, through_stored]
  simp only [fenced, rawThrough, Memory.writeLines_again, List.range_succ, List.flatMap_append,
    List.flatMap_singleton, Memory.writeLines_append, StrideArgs.rawBlock, List.append_assoc]
  rfl

theorem exec_raw_turn (room : args.size.toInt + 64 ≤ 2 ^ 63) {turn : Nat}
    (offset : state.gpr .r8 = BitVec.ofNat 64 turn * args.skip) :
    ∃ after, Exec (rawOuter args) state after ∧
      after.gpr .r8 = state.gpr .r8 + args.skip ∧ after.gpr .r11 = state.gpr .r11 + 1 ∧
      after.data = fenced (through ntStored (fenced (through storedBack state.data (args.block turn)))
        (args.block turn)) := by
  let located := runBlock [.lea ⟨0, .value args.startAddr, .reg .r8, 1⟩ .r9, .xor .r10 .r10] state
  have start : located.gpr .r9 = _ := located_at offset
  obtain ⟨stored, fenceW, ranWrites, ranFenceW, keptW, zeroW, written⟩ :=
    exec_block_accesses advances_storeclwb room start (BitVec.xor_self ..)
  have still : fenceW.gpr .r9 = _ := (keptW .r9 (by simp)).trans start
  obtain ⟨loaded, waiting, ranReads, ranFenceR, keptR, zeroR, read⟩ :=
    exec_block_accesses advances_nt room still zeroW
  obtain ⟨delayed, after, ranDelay, ranAdvance, offset', counted, untouched⟩ := exec_advance waiting args zeroR
  have kept : ∀ reg, reg ≠ .r10 → waiting.gpr reg = located.gpr reg := by
    intro reg different
    rw [keptR reg different, keptW reg different]
  refine ⟨after, ⟨located, exec_block, stored, ranWrites, fenceW, ranFenceW, loaded, ranReads, waiting, ranFenceR,
    delayed, ranDelay, after, ranAdvance, rfl⟩, ?_, ?_, ?_⟩
  · rw [offset', kept .r8 (by simp)]
    rfl
  · rw [counted, kept .r11 (by simp)]
    rfl
  · rw [untouched, read, written]
    rfl

theorem exec_strideReadAfterWrite (state : State) (room : args.size.toInt + 64 ≤ 2 ^ 63) :
    ∃ after, Exec (strideReadAfterWrite args) state after ∧
      after.data = rawThrough args (started args state.data) (turns args.count 1) := by
  let start := runBlock [.xor .r8 .r8, .xor .r11 .r11, .movqXmm (.value args.startAddr) zmm0] state
  have offset : start.gpr .r8 = 0 := BitVec.xor_self ..
  have step : ∀ turn < turns args.count 1, ∀ before, before.gpr .r8 = BitVec.ofNat 64 turn * args.skip →
      before.data = rawThrough args start.data turn →
      ∃ after, Exec (rawOuter args) before after ∧ after.gpr .r8 = before.gpr .r8 + args.skip ∧
        after.gpr .r11 = before.gpr .r11 + 1 ∧ after.data = rawThrough args start.data (turn + 1) := by
    intro turn _ before offset reached
    obtain ⟨after, ran, offset', counted', touched⟩ := exec_raw_turn room offset
    refine ⟨after, ran, offset', counted', ?_⟩
    rw [touched, reached, rawThrough_succ]
  have nothing : start.data = rawThrough args start.data 0 := by
    simp [rawThrough, Memory.writeLines]
  obtain ⟨after, ran, reached⟩ := exec_outer_loop (fun turn after => after.data = rawThrough args start.data turn) step
    offset (BitVec.xor_self ..) nothing
  exact ⟨after, ⟨start, exec_block, after, ran, rfl⟩, reached⟩

/-! # Both jobs -/

theorem rawCombined_ends (args : StrideArgs) (before : State) :
    EndsIff (rawCombined args) before (args.size.toInt + 64 ≤ 2 ^ 63) fun after =>
      after.data.memory = before.data.memory.writeLines (args.stamp before.data) args.lines ∧
      after.data.trace = before.data.trace ++
        ((List.range (turns args.count 1)).flatMap args.rawBlock ++ [.mfence]) where
  needs ran := by
    obtain ⟨swept, ran, _⟩ := ran
    obtain ⟨_, _, final, outer, _⟩ := ran
    by_contra far
    exact strided_loop_diverges advances_storeclwb.counts (by omega) outer
  ends room := by
    obtain ⟨swept, ran, reached⟩ := exec_strideReadAfterWrite before room
    refine ⟨runBlock [.mfence] swept, ⟨swept, ran, _, exec_block, rfl⟩, ?_, ?_⟩
    · change swept.data.memory = _
      rw [reached]
      simp only [rawThrough, started, Function.update_self]
      rfl
    · change swept.data.trace ++ [.mfence] = _
      rw [reached, ← List.append_assoc]
      rfl

theorem rawSeparate_ends (args : StrideArgs) (before : State) :
    EndsIff (rawSeparate args) before (args.size.toInt + 64 ≤ 2 ^ 63) fun after =>
      after.data.memory = before.data.memory.writeLines (args.stamp before.data) args.lines ∧
      after.data.trace = before.data.trace ++
        ((args.sweep writeEvents ++ [.mfence]) ++ (args.sweep readEvents ++ [.mfence])) where
  needs ran := by
    obtain ⟨written, ran, _⟩ := ran
    exact (strided_ends before advances_storeclwb).needs ran
  ends room := by
    obtain ⟨written, ranWrites, held, writes, tracedWrites⟩ := (strided_ends before advances_storeclwb).ends room
    let fenced := runBlock [.mfence] written
    obtain ⟨read, ranReads, _, reads, tracedReads⟩ := (strided_ends fenced advances_nt).ends room
    refine ⟨runBlock [.mfence] read, ⟨written, ranWrites, fenced, exec_block, read, ranReads, _, exec_block, rfl⟩,
      ?_, ?_⟩
    · change read.data.memory = _
      have same : (fenced.data.zmm zmm0).setLow args.startAddr = args.stamp before.data := by
        change (written.data.zmm zmm0).setLow args.startAddr = _
        rw [held, Line.setLow_setLow]
        rfl
      rw [reads, same]
      change written.data.memory.writeLines _ _ = _
      rw [writes]
      exact Memory.writeLines_again ..
    · change read.data.trace ++ [.mfence] = _
      rw [tracedReads]
      change (written.data.trace ++ [.mfence]) ++ _ ++ [.mfence] = _
      rw [tracedWrites]
      simp only [List.append_assoc]
      rfl

/-! # Rearrangement -/

theorem lineAccesses_append (earlier later : List Event) :
    lineAccesses (earlier ++ later) = lineAccesses earlier ++ lineAccesses later :=
  List.filter_append ..

theorem lineAccesses_fenced {events : Word → List Event} (unfenced : ∀ line, .mfence ∉ events line) (turn : Nat) :
    lineAccesses ((args.block turn).flatMap events ++ [.mfence]) = (args.block turn).flatMap events := by
  rw [lineAccesses_append, lineAccesses, List.filter_eq_self.mpr]
  · exact List.append_nil _
  · intro event member
    obtain ⟨line, _, inEvents⟩ := List.mem_flatMap.mp member
    rw [bne_iff_ne]
    intro same
    exact unfenced line (same ▸ inEvents)

theorem writeEvents_unfenced (line : Word) : .mfence ∉ writeEvents line := by
  simp [writeEvents]

theorem readEvents_unfenced (line : Word) : .mfence ∉ readEvents line := by
  simp [readEvents]

theorem lineAccesses_flatMap (events : Nat → List Event) (count : Nat) :
    lineAccesses ((List.range count).flatMap events) = (List.range count).flatMap fun turn => lineAccesses (events turn) :=
  List.filter_flatMap ..

theorem raw_perm (args : StrideArgs) :
    (lineAccesses ((List.range (turns args.count 1)).flatMap args.rawBlock ++ [.mfence])).Perm
      (lineAccesses ((args.sweep writeEvents ++ [.mfence]) ++ (args.sweep readEvents ++ [.mfence]))) := by
  have fence : lineAccesses [.mfence] = [] := rfl
  have both (turn : Nat) : lineAccesses (args.rawBlock turn) =
      (args.block turn).flatMap writeEvents ++ (args.block turn).flatMap readEvents := by
    rw [StrideArgs.rawBlock, lineAccesses_append, lineAccesses_fenced writeEvents_unfenced,
      lineAccesses_fenced readEvents_unfenced]
  simp only [StrideArgs.sweep, lineAccesses_append, lineAccesses_flatMap, both, fence, List.append_nil,
    lineAccesses_fenced writeEvents_unfenced, lineAccesses_fenced readEvents_unfenced]
  exact (List.flatMap_append_perm ..).symm

theorem count_lineAccesses {event : Event} (access : event ≠ .mfence) (events : List Event) :
    (lineAccesses events).count event = events.count event :=
  List.count_filter (by rwa [bne_iff_ne])

theorem stamp_congr {left right : Data}
    (upper : ∀ lane : Fin 64, 16 ≤ lane.val → left.zmm zmm0 lane = right.zmm zmm0 lane) :
    args.stamp left = args.stamp right := by
  funext lane
  by_cases low : lane.val < 16
  · simp only [StrideArgs.stamp, Line.setLow, low, if_true]
  · have notWord : ¬ lane.val < 8 := by omega
    simp only [StrideArgs.stamp, Line.setLow, low, notWord, if_false]
    exact upper lane (by omega)

theorem rawBlock_eq (sized : 1 ≤ args.size.toInt) (turn : Nat) : args.rawBlock turn =
    ((List.range ((args.size.toNat + 63) / 64)).flatMap fun j =>
      [.store (args.line turn j) 64, .clwb (args.line turn j)]) ++ [.mfence] ++
    (((List.range ((args.size.toNat + 63) / 64)).map fun j => .ntStore (args.line turn j)) ++ [.mfence]) := by
  rw [StrideArgs.rawBlock, block_eq sized, List.flatMap_map, List.flatMap_map, List.map_eq_flatMap]
  rfl

/-- Both jobs end under the same condition.  The combined one writes each block,
fences, reads it and fences; its accesses are those of the separate one in
another order, and from the same memory and upper part of `zmm0` it leaves the
same memory.  The machine ends either where the lines, the same for both, are
aligned and canonical as well. -/
theorem raw_jobs_agree (args : StrideArgs) (sized : 1 ≤ args.size.toInt) (counted : 1 ≤ args.count.toInt) :
    (∀ before, (∃ after, Exec (rawCombined args) before after) ↔ args.size.toInt + 64 ≤ 2 ^ 63) ∧
    (∀ before, (∃ after, Exec (rawSeparate args) before after) ↔ args.size.toInt + 64 ≤ 2 ^ 63) ∧
    ∀ before before' combined separate, Exec (rawCombined args) before combined →
      Exec (rawSeparate args) before' separate →
      ∃ trace trace', combined.data.trace = before.data.trace ++ trace ∧
        separate.data.trace = before'.data.trace ++ trace' ∧
        trace = ((List.range args.count.toNat).flatMap fun i =>
          ((List.range ((args.size.toNat + 63) / 64)).flatMap fun j =>
            [.store (args.line i j) 64, .clwb (args.line i j)]) ++ [.mfence] ++
          (((List.range ((args.size.toNat + 63) / 64)).map fun j => .ntStore (args.line i j)) ++ [.mfence])) ++
          [.mfence] ∧
        (lineAccesses trace).Perm (lineAccesses trace') ∧
        (∀ event, event ≠ .mfence → trace.count event = trace'.count event) ∧
        (before.data.memory = before'.data.memory →
          (∀ lane : Fin 64, 16 ≤ lane.val → before.data.zmm zmm0 lane = before'.data.zmm zmm0 lane) →
          combined.data.memory = separate.data.memory) := by
  refine ⟨fun before => (rawCombined_ends args before).ends_iff, fun before => (rawSeparate_ends args before).ends_iff,
    ?_⟩
  intro before before' combined separate ranCombined ranSeparate
  obtain ⟨memory, trace⟩ := (rawCombined_ends args before).result ranCombined
  obtain ⟨memory', trace'⟩ := (rawSeparate_ends args before').result ranSeparate
  have perm := raw_perm args
  refine ⟨_, _, trace, trace', ?_, perm, fun event access => ?_, fun same upper => ?_⟩
  · rw [turns_count counted, funext (rawBlock_eq sized)]
  · have counts := perm.count_eq event
    rwa [count_lineAccesses access, count_lineAccesses access] at counts
  · rw [memory, memory', same, stamp_congr upper]

/-- Blocks of two lines, each overlapping the next in one. -/
def overlapping : StrideArgs := ⟨0x1000, 128, 64, 3, 2⟩

theorem raw_jobs_agree_overlapping : ∃ combined separate, Exec (rawCombined overlapping) .blank combined ∧
    Exec (rawSeparate overlapping) .blank separate ∧ combined.data.memory = separate.data.memory ∧
    combined.data.trace.count (.ntStore 0x1040) = separate.data.trace.count (.ntStore 0x1040) := by
  obtain ⟨endsCombined, endsSeparate, agree⟩ := raw_jobs_agree overlapping (by decide) (by decide)
  obtain ⟨combined, ranCombined⟩ := (endsCombined .blank).mpr (by decide)
  obtain ⟨separate, ranSeparate⟩ := (endsSeparate .blank).mpr (by decide)
  obtain ⟨trace, trace', traced, traced', _, _, counts, memory⟩ := agree _ _ _ _ ranCombined ranSeparate
  have same := counts (.ntStore 0x1040) (by decide)
  refine ⟨combined, separate, ranCombined, ranSeparate, memory rfl fun _ _ => rfl, ?_⟩
  rw [traced, traced']
  exact same

end RwSep.MemAccess
