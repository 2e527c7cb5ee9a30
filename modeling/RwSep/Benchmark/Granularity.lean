import RwSep.Execution.ForInt
import RwSep.MemAccess.Stride

namespace RwSep.Benchmark

open RwSep.Data RwSep.Execution RwSep.X86 RwSep.MemAccess

/-! Task 2 of read_after_write.cpp: `count` units written to one buffer and
streamed to the other, `grn` units at a time.

`count`, `grn` and the sizes are `long`, the index of the loop is an `int`.
-/

structure GrnArgs where
  bufSep1 : Word
  bufSep2 : Word
  accessSize : Word
  strideSize : Word
  delay : Word
  count : Word
  grn : Word
deriving DecidableEq, Repr

namespace GrnArgs

/-- `count / grn` -/
def granules (args : GrnArgs) : Nat := (args.count.toInt.tdiv args.grn.toInt).toNat

/-- `buf + i * grn * stride_size, grn * access_size, 0, delay, 1` -/
def granule (args : GrnArgs) (buf : Word) (i : Nat) : StrideArgs :=
  ⟨buf + BitVec.ofNat 64 i * args.grn * args.strideSize, args.grn * args.accessSize, 0, args.delay, 1⟩

/-- `buf, access_size, stride_size, delay, count` -/
def whole (args : GrnArgs) (buf : Word) : StrideArgs :=
  ⟨buf, args.accessSize, args.strideSize, args.delay, args.count⟩

def mixedTurn (args : GrnArgs) (i : Nat) (before after : State) : Prop :=
  ∃ middle, Exec (strideStoreclwb (args.granule args.bufSep1 i)) before middle ∧
    Exec (strideNt (args.granule args.bufSep2 i)) middle after

/-- `for (int i = 0; i < count / grn; i++)` -/
def Mixed (args : GrnArgs) : State → State → Prop := ForInt args.mixedTurn args.granules 0

end GrnArgs

def streamedLines (events : List Event) : List Word :=
  events.filterMap fun
    | .ntStore address => some address
    | _ => none

/-- The lines that the run between two states stores and writes back, and those it streams to. -/
def Covers (before after : State) (stored streamed : List Word) : Prop :=
  ∃ events, after.data.trace = before.data.trace ++ events ∧ storedLines events = stored ∧
    writtenBackLines events = stored ∧ streamedLines events = streamed

/-- The lines of the first units of a buffer. -/
def unitLines (buf unit : Word) (units : Nat) : List Word := linesFrom buf (units * (unit.toNat / 64))

/-! # Lines -/

section Lines

variable {base : Word} {count more : Nat} {before middle after : State} {stored stored' streamed streamed' : List Word}

theorem Covers.trans (first : Covers before middle stored streamed) (second : Covers middle after stored' streamed') :
    Covers before after (stored ++ stored') (streamed ++ streamed') := by
  obtain ⟨events, traced, rfl, flushed, rfl⟩ := first
  obtain ⟨events', traced', rfl, flushed', rfl⟩ := second
  refine ⟨events ++ events', ?_, List.filterMap_append, ?_, List.filterMap_append⟩
  · rw [traced', traced, List.append_assoc]
  · rw [writtenBackLines, List.filterMap_append]
    exact congrArg₂ _ flushed flushed'

/-- What a filter that fences do not pass finds in the accesses of a strided kernel. -/
theorem strided_filterMap {args : StrideArgs} {events : Word → List Event} {pick : Event → Option Word}
    {lines : Word → List Word} (fence : pick .mfence = none) (found : ∀ line, (events line).filterMap pick = lines line) :
    ((List.range (turns args.count 1)).flatMap fun turn => (args.block turn).flatMap events ++ [.mfence]).filterMap
      pick = args.lines.flatMap lines := by
  have none_left : ([Event.mfence] : List Event).filterMap pick = [] := by
    rw [List.filterMap_cons, fence]
    rfl
  simp only [List.filterMap_flatMap, List.filterMap_append, none_left, List.append_nil, found, StrideArgs.lines,
    List.flatMap_assoc]

/-- What a kernel does to one line, it does to all of its lines. -/
theorem exec_lines {access : List Instr} {events : Word → List Event} {stores streams : Word → List Word}
    (args : StrideArgs) (before : State) (advances : Advances access (MemAccess.stored events))
    (room : args.size.toInt + 64 ≤ 2 ^ 63) (stored : ∀ line, storedLines (events line) = stores line)
    (writtenBack : ∀ line, writtenBackLines (events line) = stores line)
    (streamed : ∀ line, streamedLines (events line) = streams line) :
    ∃ after, Exec (strided access .mfence args) before after ∧
      Covers before after (args.lines.flatMap stores) (args.lines.flatMap streams) := by
  obtain ⟨after, ran, _, _, traced⟩ := (strided_ends before advances).ends room
  exact ⟨after, ran, _, traced, strided_filterMap rfl stored, strided_filterMap rfl writtenBack,
    strided_filterMap rfl streamed⟩

theorem exec_storeclwb_lines (args : StrideArgs) (before : State) (room : args.size.toInt + 64 ≤ 2 ^ 63) :
    ∃ after, Exec (strideStoreclwb args) before after ∧ Covers before after args.lines [] := by
  have stores (line : Word) : storedLines [.store line 64, .clwb line] = [line] := rfl
  have streams (line : Word) : streamedLines [.store line 64, .clwb line] = [] := rfl
  have covered := exec_lines args before advances_storeclwb room stores (fun _ => rfl) streams
  rwa [List.flatMap_singleton', List.flatMap_eq_nil_iff.mpr fun _ _ => rfl] at covered

theorem exec_nt_lines (args : StrideArgs) (before : State) (room : args.size.toInt + 64 ≤ 2 ^ 63) :
    ∃ after, Exec (strideNt args) before after ∧ Covers before after [] args.lines := by
  have stores (line : Word) : storedLines [.ntStore line] = [] := rfl
  have streams (line : Word) : streamedLines [.ntStore line] = [line] := rfl
  have covered := exec_lines args before advances_nt room stores (fun _ => rfl) streams
  rwa [List.flatMap_singleton', List.flatMap_eq_nil_iff.mpr fun _ _ => rfl] at covered

/-- One block of a strided access with whole lines. -/
theorem block_lines {args : StrideArgs} {i lines : Nat} (positive : 1 ≤ args.size.toInt) (size : args.size.toNat = 64 * lines)
    (skip : BitVec.ofNat 64 i * args.skip = BitVec.ofNat 64 (64 * lines * i)) :
    args.block i = linesFrom (args.startAddr + BitVec.ofNat 64 (64 * lines * i)) lines := by
  have count : turns args.size 64 = lines := by
    rw [turns_positive positive (by omega), size]
    omega
  rw [StrideArgs.block, count, linesFrom, ← skip]
  rfl

end Lines

/-! # Granules -/

/-- Units of whole lines, in buffers of `count` units that a `long` can count in bytes. -/
structure GrnArgs.Fitting (args : GrnArgs) : Prop where
  unit : args.accessSize = args.strideSize
  positive : 1 ≤ args.strideSize.toInt
  whole : 64 ∣ args.strideSize.toInt
  counted : 1 ≤ args.count.toInt
  grained : 1 ≤ args.grn.toInt
  bytes : args.count.toInt * args.strideSize.toInt < 2 ^ 63

namespace GrnArgs.Fitting

variable {args : GrnArgs} {i : Nat}

/-- The conditions on natural numbers. -/
theorem values (fitting : args.Fitting) : ∃ lines, args.strideSize.toNat = 64 * lines ∧ 1 ≤ lines ∧
    1 ≤ args.count.toNat ∧ 1 ≤ args.grn.toNat ∧ args.count.toNat * (64 * lines) < 2 ^ 63 ∧
    args.granules = args.count.toNat / args.grn.toNat := by
  have unit := Word.toNat_eq_toInt (Int.le_trans Int.one_nonneg fitting.positive)
  have count := Word.toNat_eq_toInt (Int.le_trans Int.one_nonneg fitting.counted)
  have grn := Word.toNat_eq_toInt (Int.le_trans Int.one_nonneg fitting.grained)
  have positive := fitting.positive
  have counted := fitting.counted
  have grained := fitting.grained
  have bytes := fitting.bytes
  have whole := fitting.whole
  obtain ⟨lines, size⟩ : 64 ∣ args.strideSize.toNat := by omega
  rw [← count, ← unit] at bytes
  refine ⟨lines, size, ?_, ?_, ?_, ?_, ?_⟩
  · omega
  · omega
  · omega
  · rw [← size]
    exact_mod_cast bytes
  · rw [GrnArgs.granules, ← count, ← grn, Int.natCast_tdiv_eq_ediv, ← Int.natCast_ediv, Int.toNat_natCast]

end GrnArgs.Fitting

namespace GrnArgs.Fitting

variable {args : GrnArgs} {buf : Word} {i lines : Nat}

theorem granule_size (fitting : args.Fitting) (buf : Word) (size : args.strideSize.toNat = 64 * lines) (bound : i < args.granules) :
    (args.granule buf i).size.toNat = 64 * (args.grn.toNat * lines) ∧
      64 * (args.grn.toNat * lines) < 2 ^ 63 ∧ 1 ≤ args.grn.toNat * lines := by
  obtain ⟨lines', size', positive, counted, grained, bytes, turns⟩ := fitting.values
  obtain rfl : lines = lines' := by omega
  have fewer : args.grn.toNat ≤ args.count.toNat := by
    by_contra more
    rw [turns, Nat.div_eq_of_lt (by omega)] at bound
    exact absurd bound (Nat.not_lt_zero i)
  have short : args.grn.toNat * (64 * lines) < 2 ^ 63 := Nat.lt_of_le_of_lt (Nat.mul_le_mul_right _ fewer) bytes
  rw [Nat.mul_left_comm] at short
  refine ⟨?_, short, Nat.mul_pos grained positive⟩
  change (args.grn * args.accessSize).toNat = _
  rw [fitting.unit, BitVec.toNat_mul, size, Nat.mul_left_comm, Nat.mod_eq_of_lt (by omega)]

theorem granule_room (fitting : args.Fitting) (buf : Word) (bound : i < args.granules) :
    (args.granule buf i).size.toInt + 64 ≤ 2 ^ 63 ∧ 1 ≤ (args.granule buf i).size.toInt := by
  obtain ⟨lines, size, _⟩ := fitting.values
  obtain ⟨bytes, short, positive⟩ := fitting.granule_size buf size bound
  rw [BitVec.toInt_eq_toNat_of_lt (by omega), bytes]
  omega

theorem granule_lines (fitting : args.Fitting) (size : args.strideSize.toNat = 64 * lines) (bound : i < args.granules) :
    (args.granule buf i).lines =
      linesFrom (buf + BitVec.ofNat 64 (64 * (args.grn.toNat * lines) * i)) (args.grn.toNat * lines) := by
  obtain ⟨bytes, _, _⟩ := fitting.granule_size buf size bound
  have one : turns (args.granule buf i).count 1 = 1 := by
    change turns 1 1 = 1
    decide
  have start : (args.granule buf i).startAddr = buf + BitVec.ofNat 64 (64 * (args.grn.toNat * lines) * i) := by
    change buf + BitVec.ofNat 64 i * args.grn * args.strideSize = _
    have product : BitVec.ofNat 64 i * args.grn * args.strideSize =
        BitVec.ofNat 64 (i * args.grn.toNat * args.strideSize.toNat) := by
      rw [BitVec.ofNat_mul, BitVec.ofNat_mul, BitVec.ofNat_toNat, BitVec.ofNat_toNat, BitVec.setWidth_eq,
        BitVec.setWidth_eq]
    have reordered : i * args.grn.toNat * (64 * lines) = 64 * (args.grn.toNat * lines) * i := by ac_rfl
    rw [product, size, reordered]
  have first : (args.granule buf i).block 0 = linesFrom ((args.granule buf i).startAddr + 0#64) (args.grn.toNat * lines) :=
    block_lines (fitting.granule_room buf bound).2 bytes (by simp [GrnArgs.granule])
  rw [StrideArgs.lines, one, List.range_one, List.flatMap_singleton, first, BitVec.add_zero, start]

theorem whole_room (fitting : args.Fitting) : (args.whole buf).size.toInt + 64 ≤ 2 ^ 63 := by
  have whole := fitting.whole
  have upper := BitVec.toInt_lt (x := args.strideSize)
  change args.accessSize.toInt + 64 ≤ 2 ^ 63
  rw [fitting.unit]
  omega

theorem whole_lines (fitting : args.Fitting) (size : args.strideSize.toNat = 64 * lines) :
    (args.whole buf).lines = linesFrom buf (lines * args.count.toNat) := by
  have count : turns args.count 1 = args.count.toNat := by
    rw [turns_positive fitting.counted (by omega), Nat.sub_self, Nat.add_zero, Nat.div_one]
  have blocks : ∀ i, (args.whole buf).block i = linesFrom (buf + BitVec.ofNat 64 (64 * lines * i)) lines := by
    intro i
    apply block_lines
    · change 1 ≤ args.accessSize.toInt
      rw [fitting.unit]
      exact fitting.positive
    · change args.accessSize.toNat = _
      rw [fitting.unit, size]
    · change BitVec.ofNat 64 i * args.strideSize = _
      rw [← size, BitVec.ofNat_mul, BitVec.ofNat_toNat, BitVec.setWidth_eq, BitVec.mul_comm]
  change (List.range (turns args.count 1)).flatMap (args.whole buf).block = _
  rw [count, List.flatMap_congr fun i _ => blocks i, linesFrom_flatMap]

end GrnArgs.Fitting

/-! # The loop -/

section Loop

variable {args : GrnArgs} {before after : State}

theorem exec_mixedTurn (fitting : args.Fitting) {lines i : Nat} (size : args.strideSize.toNat = 64 * lines)
    (bound : i < args.granules) (before : State) :
    ∃ after, args.mixedTurn i before after ∧
      Covers before after
        (linesFrom (args.bufSep1 + BitVec.ofNat 64 (64 * (args.grn.toNat * lines) * i)) (args.grn.toNat * lines))
        (linesFrom (args.bufSep2 + BitVec.ofNat 64 (64 * (args.grn.toNat * lines) * i)) (args.grn.toNat * lines)) := by
  obtain ⟨middle, ran, covers⟩ :=
    exec_storeclwb_lines (args.granule args.bufSep1 i) before (fitting.granule_room _ bound).1
  obtain ⟨after, ran', covers'⟩ := exec_nt_lines (args.granule args.bufSep2 i) middle (fitting.granule_room _ bound).1
  rw [fitting.granule_lines size bound] at covers covers'
  have both := covers.trans covers'
  rw [List.append_nil, List.nil_append] at both
  exact ⟨after, ⟨middle, ran, ran'⟩, both⟩

theorem exec_mixed (fitting : args.Fitting) {lines : Nat} (size : args.strideSize.toNat = 64 * lines)
    (short : args.granules < 2 ^ 31) (before : State) :
    ∃ after, args.Mixed before after ∧
      Covers before after (linesFrom args.bufSep1 (args.grn.toNat * lines * args.granules))
        (linesFrom args.bufSep2 (args.grn.toNat * lines * args.granules)) := by
  let Inv : Nat → State → Prop := fun i after =>
    Covers before after (linesFrom args.bufSep1 (args.grn.toNat * lines * i))
      (linesFrom args.bufSep2 (args.grn.toNat * lines * i))
  apply ForInt.counted Inv short _ (Nat.zero_le _) ⟨[], (List.append_nil _).symm, rfl, rfl, rfl⟩
  intro i bound state covers
  obtain ⟨after, ran, turn⟩ := exec_mixedTurn fitting size bound state
  refine ⟨after, ran, ?_⟩
  have both := covers.trans turn
  rwa [Nat.mul_assoc 64, ← linesFrom_append, ← linesFrom_append, ← Nat.mul_succ] at both

end Loop

/-- As long as the index can count the granules, the two calls for each granule
access the lines of all whole granules in ascending order: those that one call
for each buffer accesses when no unit is left over. -/
theorem mixed_lines (args : GrnArgs) (fitting : args.Fitting) (short : args.granules < 2 ^ 31) (before : State) :
    let units := args.grn.toNat * (args.count.toNat / args.grn.toNat)
    (∃ after, args.Mixed before after ∧
      Covers before after (unitLines args.bufSep1 args.strideSize units)
        (unitLines args.bufSep2 args.strideSize units)) ∧
    (∀ buf, (unitLines buf args.strideSize units).Pairwise fun line later =>
      (line - buf).toNat < (later - buf).toNat) ∧
    (args.grn.toInt ∣ args.count.toInt →
      (∃ after, Exec (strideStoreclwb (args.whole args.bufSep1)) before after ∧
        Covers before after (unitLines args.bufSep1 args.strideSize units) []) ∧
      ∃ after, Exec (strideNt (args.whole args.bufSep2)) before after ∧
        Covers before after [] (unitLines args.bufSep2 args.strideSize units)) := by
  intro units
  obtain ⟨lines, size, positive, counted, grained, bytes, granules⟩ := fitting.values
  have listed : ∀ buf, unitLines buf args.strideSize units = linesFrom buf (units * lines) := by
    intro buf
    rw [unitLines, size, Nat.mul_div_cancel_left lines (Nat.succ_pos 63)]
  have reordered : args.grn.toNat * lines * args.granules = units * lines := by
    rw [granules]
    change _ = args.grn.toNat * (args.count.toNat / args.grn.toNat) * lines
    ac_rfl
  have fewer : units ≤ args.count.toNat := Nat.mul_div_le _ _
  simp only [listed]
  refine ⟨?_, fun buf => ?_, fun divides => ?_⟩
  · rw [← reordered]
    exact exec_mixed fitting size short before
  · apply linesFrom_ascending
    have smaller := Nat.mul_le_mul_right (64 * lines) fewer
    rw [Nat.mul_left_comm] at smaller
    omega
  · have every : units = args.count.toNat := by
      have count := Word.toNat_eq_toInt (Int.le_trans Int.one_nonneg fitting.counted)
      have grn := Word.toNat_eq_toInt (Int.le_trans Int.one_nonneg fitting.grained)
      rw [← count, ← grn] at divides
      exact Nat.mul_div_cancel' (Int.natCast_dvd_natCast.mp divides)
    obtain ⟨stored, ran, covers⟩ := exec_storeclwb_lines (args.whole args.bufSep1) before fitting.whole_room
    obtain ⟨streamed, ran', covers'⟩ := exec_nt_lines (args.whole args.bufSep2) before fitting.whole_room
    rw [fitting.whole_lines size, Nat.mul_comm] at covers covers'
    rw [every]
    exact ⟨⟨stored, ran, covers⟩, streamed, ran', covers'⟩

/-- Five units of 128 bytes, two at a time: the last one is left out. -/
theorem mixed_lines_five : ∃ after,
    GrnArgs.Mixed ⟨4096, 16384, 128, 128, 200, 5, 2⟩ .blank after ∧
      Covers .blank after (unitLines 4096 128 4) (unitLines 16384 128 4) := by
  have fitting : GrnArgs.Fitting ⟨4096, 16384, 128, 128, 200, 5, 2⟩ :=
    ⟨rfl, by decide, by decide, by decide, by decide, by decide⟩
  exact (mixed_lines ⟨4096, 16384, 128, 128, 200, 5, 2⟩ fitting (by decide) .blank).1

/-- 2^31 granules are more than the index can count, and the size of a granule of
2^58 units of 64 bytes is zero. -/
theorem mixed_overflows : GrnArgs.Fitting ⟨4096, 0x4000000000, 64, 64, 200, 0x80000000, 1⟩ ∧
    (¬ ∃ after, GrnArgs.Mixed ⟨4096, 0x4000000000, 64, 64, 200, 0x80000000, 1⟩ .blank after) ∧
    (GrnArgs.granule ⟨4096, 4096, 64, 64, 200, 0x400000000000000, 0x400000000000000⟩ 4096 0).size = 0 := by
  have fitting : GrnArgs.Fitting ⟨4096, 0x4000000000, 64, 64, 200, 0x80000000, 1⟩ :=
    ⟨rfl, by decide, by decide, by decide, by decide, by decide⟩
  refine ⟨fitting, ?_, rfl⟩
  intro returned
  obtain ⟨after, ran⟩ := returned
  exact absurd (ForInt.short ran (by omega)) (by decide)

end RwSep.Benchmark
