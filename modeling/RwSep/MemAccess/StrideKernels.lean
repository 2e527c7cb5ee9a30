import RwSep.MemAccess.Footprint
import RwSep.X86.Faults

namespace RwSep.MemAccess

open RwSep.Data RwSep.Execution RwSep.X86

/-! The other strided kernels of memaccess.c, and what all of them access. -/

def SIZEBTLD_64_AVX512 : List Instr :=
  [.vmovntdqa accessed zmm0, .add (.value 0x40) .r10]

def SIZEBTST_64_AVX512 : List Instr :=
  [.vmovdqa64 zmm0 accessed, .add (.value 0x40) .r10]

/-- It does not put the start address into `zmm0`. -/
def strideLoad (args : StrideArgs) : Code :=
  .sequence [
    .block [.xor .r8 .r8, .xor .r11 .r11],
    .loop (stridedOuter SIZEBTLD_64_AVX512 SIZEBTLD_FENCE args) (.value args.count) .r11]

def strideStore : StrideArgs → Code := strided SIZEBTST_64_AVX512 SIZEBTST_FENCE

/-- Its accesses are written out in the source. -/
def clwbNtMixed : StrideArgs → Code :=
  strided [.vmovdqa64 zmm0 accessed, .clwb accessed, .add (.value 0x40) .r10] SIZEBTST_FENCE

/-- The addresses of the lines that loads and stores touch. -/
def accessedLines (events : List Event) : List Word :=
  events.filterMap fun
    | .ntLoad address => some address
    | .ntStore address => some address
    | .store address 64 => some address
    | _ => none

def ntLoaded (line : Word) (data : Data) : Data :=
  { data with zmm := Function.update data.zmm zmm0 (data.memory.readLine line), trace := data.trace ++ [.ntLoad line] }

/-- An effect that leaves these events. -/
def Leaves (effect : Word → Data → Data) (events : Word → List Event) : Prop :=
  ∀ line data, (effect line data).trace = data.trace ++ events line

/-- A kernel that returns unless the access counter leaves the range of `long`,
and touches its lines in order, with a fence after each turn. -/
structure Traverses (code : Code) (args : StrideArgs) (events : Word → List Event) : Prop where
  returns : ∀ before, (∃ after, Exec code before after) ↔ args.size.toInt + 64 ≤ 2 ^ 63
  traced : ∀ before after, Exec code before after → after.data.trace = before.data.trace ++
    (List.range (turns args.count 1)).flatMap fun turn => (args.block turn).flatMap events ++ [.mfence]

variable {args : StrideArgs} {events : Word → List Event} {effect : Word → Data → Data} {access : List Instr}
variable {data : Data} {i j i' j' : Nat}

theorem advances_load : Advances SIZEBTLD_64_AVX512 ntLoaded where
  counts _ := rfl
  keeps _ _ different := State.set_other different
  touches state := by
    rw [← accessed_eval]
    rfl

theorem advances_store : Advances SIZEBTST_64_AVX512 (stored fun line => [.store line 64]) where
  counts _ := rfl
  keeps _ _ different := State.set_other different
  touches state := by
    rw [← accessed_eval]
    rfl

theorem leaves_stored (events : Word → List Event) : Leaves (stored events) events := fun _ _ => rfl

theorem leaves_loaded : Leaves ntLoaded fun line => [.ntLoad line] := fun _ _ => rfl

theorem Leaves.through (leaves : Leaves effect events) (lines : List Word) :
    (through effect data lines).trace = data.trace ++ lines.flatMap events := by
  induction lines generalizing data with
  | nil => exact (List.append_nil _).symm
  | cons line rest ih =>
      change (MemAccess.through effect (effect line data) rest).trace = _
      rw [ih, leaves line data, List.flatMap_cons, List.append_assoc]

theorem Leaves.strided (leaves : Leaves effect events) (count : Nat) :
    (stridedThrough effect args data count).trace = data.trace ++
      (List.range count).flatMap fun turn => (args.block turn).flatMap events ++ [.mfence] := by
  induction count with
  | zero => exact (List.append_nil _).symm
  | succ count ih =>
      have last : stridedThrough effect args data (count + 1) =
          fenced (MemAccess.through effect (stridedThrough effect args data count) (args.block count)) := by
        simp only [stridedThrough, List.range_succ, List.foldl_append, List.foldl_cons, List.foldl_nil]
      rw [last]
      change (MemAccess.through _ _ _).trace ++ [.mfence] = _
      rw [leaves.through, ih, List.range_succ, List.flatMap_append, List.flatMap_singleton, List.append_assoc,
        List.append_assoc]

/-- Instructions that clear the registers of the loops, and access no memory. -/
structure Clears (start : List Instr) : Prop where
  offset : ∀ state, (runBlock start state).gpr .r8 = 0
  counter : ∀ state, (runBlock start state).gpr .r11 = 0
  untraced : ∀ state, (runBlock start state).data.trace = state.data.trace

theorem traverses {start : List Instr} (clears : Clears start) (advances : Advances access effect)
    (leaves : Leaves effect events) (args : StrideArgs) :
    Traverses (.sequence [.block start, .loop (stridedOuter access .mfence args) (.value args.count) .r11])
      args events := by
  have ends (before : State) : EndsIff (.sequence
      [.block start, .loop (stridedOuter access .mfence args) (.value args.count) .r11]) before
      (args.size.toInt + 64 ≤ 2 ^ 63) fun after => after.data.trace = before.data.trace ++
        (List.range (turns args.count 1)).flatMap fun turn => (args.block turn).flatMap events ++ [.mfence] := by
    constructor
    · intro after ran
      obtain ⟨begun, _, final, outer, _⟩ := ran
      by_contra far
      exact strided_loop_diverges advances.counts (by omega) outer
    · intro room
      obtain ⟨after, ran, reached⟩ :=
        exec_strided_loop advances room (clears.offset before) (clears.counter before)
      refine ⟨after, ⟨_, exec_block, after, ran, rfl⟩, ?_⟩
      rw [reached, leaves.strided, clears.untraced]
  exact ⟨fun before => (ends before).ends_iff, fun before after => (ends before).result⟩

theorem clears_load : Clears [.xor .r8 .r8, .xor .r11 .r11] where
  offset _ := BitVec.xor_self ..
  counter _ := BitVec.xor_self ..
  untraced _ := rfl

theorem clears_store (word : Word) : Clears [.xor .r8 .r8, .xor .r11 .r11, .movqXmm (.value word) zmm0] where
  offset _ := BitVec.xor_self ..
  counter _ := BitVec.xor_self ..
  untraced _ := rfl

theorem traverses_load (args : StrideArgs) : Traverses (strideLoad args) args fun line => [.ntLoad line] :=
  traverses clears_load advances_load leaves_loaded args

theorem traverses_nt (args : StrideArgs) : Traverses (strideNt args) args fun line => [.ntStore line] :=
  traverses (clears_store args.startAddr) advances_nt (leaves_stored _) args

theorem traverses_store (args : StrideArgs) : Traverses (strideStore args) args fun line => [.store line 64] :=
  traverses (clears_store args.startAddr) advances_store (leaves_stored _) args

theorem traverses_storeclwb (args : StrideArgs) :
    Traverses (strideStoreclwb args) args fun line => [.store line 64, .clwb line] :=
  traverses (clears_store args.startAddr) advances_storeclwb (leaves_stored _) args

theorem traverses_clwbNtMixed (args : StrideArgs) :
    Traverses (clwbNtMixed args) args fun line => [.store line 64, .clwb line] :=
  traverses (clears_store args.startAddr) advances_storeclwb (leaves_stored _) args

/-! # Lines -/

theorem accessedLines_append (earlier later : List Event) :
    accessedLines (earlier ++ later) = accessedLines earlier ++ accessedLines later :=
  List.filterMap_append ..

theorem accessedLines_flatMap (single : ∀ line, accessedLines (events line) = [line]) (lines : List Word) :
    accessedLines (lines.flatMap events) = lines := by
  induction lines with
  | nil => rfl
  | cons line rest ih =>
      rw [List.flatMap_cons, accessedLines_append, single, ih]
      rfl

/-- Kernels of one kind of access or another touch the same lines in the same order. -/
theorem accessedLines_traversal (single : ∀ line, accessedLines (events line) = [line]) (args : StrideArgs)
    (count : Nat) :
    accessedLines ((List.range count).flatMap fun turn => (args.block turn).flatMap events ++ [.mfence]) =
      (List.range count).flatMap args.block := by
  induction count with
  | zero => rfl
  | succ count ih =>
      rw [List.range_succ, List.flatMap_append, List.flatMap_append, accessedLines_append, ih, List.flatMap_singleton,
        List.flatMap_singleton, accessedLines_append, accessedLines_flatMap single]
      simp [accessedLines]

theorem block_eq (sized : 1 ≤ args.size.toInt) (turn : Nat) :
    args.block turn = (List.range ((args.size.toNat + 63) / 64)).map (args.line turn) := by
  rw [StrideArgs.block, turns_positive sized (by decide)]

theorem turns_count (counted : 1 ≤ args.count.toInt) : turns args.count 1 = args.count.toNat := by
  rw [turns_positive counted Nat.zero_lt_one, Nat.div_one, Nat.sub_self, Nat.add_zero]

/-- In the order of the turns, with room for its lines in each stride. -/
theorem lines_separate {lines : Nat} (wide : 64 * lines ≤ args.skip.toNat)
    (room : i' * args.skip.toNat + 64 * lines ≤ 2 ^ 64) (bound : j < lines) (bound' : j' < lines)
    (before : i < i' ∨ i = i' ∧ j < j') :
    (Range.mk (args.line i j) 64).Separate ⟨args.line i' j', 64⟩ := by
  have ahead : i * args.skip.toNat + 64 * j + 64 ≤ i' * args.skip.toNat + 64 * j' := by
    rcases before with earlier | same
    · have stride : (i + 1) * args.skip.toNat ≤ i' * args.skip.toNat := Nat.mul_le_mul_right _ earlier
      rw [Nat.succ_mul] at stride
      omega
    · rw [same.1]
      omega
  rw [line_offset, line_offset]
  generalize i * args.skip.toNat + 64 * j = offset at ahead
  have far : i' * args.skip.toNat + 64 * j' + 64 ≤ 2 ^ 64 := by omega
  generalize i' * args.skip.toNat + 64 * j' = offset' at ahead far
  change 64 ≤ (args.startAddr + BitVec.ofNat 64 offset' - (args.startAddr + BitVec.ofNat 64 offset)).toNat ∧
    64 ≤ (args.startAddr + BitVec.ofNat 64 offset - (args.startAddr + BitVec.ofNat 64 offset')).toNat
  bv_omega

theorem lines_disjoint {lines count : Nat} (wide : 64 * lines ≤ args.skip.toNat)
    (room : (count - 1) * args.skip.toNat + 64 * lines ≤ 2 ^ 64) :
    ((List.range count).flatMap fun turn => (List.range lines).map (args.line turn)).Pairwise fun earlier later =>
      (Range.mk earlier 64).Disjoint ⟨later, 64⟩ := by
  have turn_room {turn : Nat} (bound : turn < count) : turn * args.skip.toNat + 64 * lines ≤ 2 ^ 64 := by
    have reach : turn * args.skip.toNat ≤ (count - 1) * args.skip.toNat := Nat.mul_le_mul_right _ (by omega)
    omega
  apply List.pairwise_flatMap.mpr
  apply And.intro
  · intro turn inRange
    apply List.pairwise_map.mpr
    apply List.Pairwise.imp_of_mem _ List.pairwise_lt_range
    intro left right inLeft inRight before
    exact (lines_separate wide (turn_room (List.mem_range.mp inRange)) (List.mem_range.mp inLeft)
      (List.mem_range.mp inRight) (.inr ⟨rfl, before⟩)).disjoint
  · apply List.Pairwise.imp_of_mem _ List.pairwise_lt_range
    intro turn turn' _ inRange' before line inBlock line' inBlock'
    obtain ⟨left, inLeft, rfl⟩ := List.mem_map.mp inBlock
    obtain ⟨right, inRight, rfl⟩ := List.mem_map.mp inBlock'
    exact (lines_separate wide (turn_room (List.mem_range.mp inRange')) (List.mem_range.mp inLeft)
      (List.mem_range.mp inRight) (.inl before)).disjoint

/-! # Lines that do not fault -/

/-- The first line of the second stride is one stride behind the start address. -/
theorem lines_accessible {count lines : Nat} (some_turn : 0 < count) (some_line : 0 < lines) :
    (∀ i < count, ∀ j < lines, Accessible (args.line i j)) ↔
      64 ∣ args.startAddr.toNat ∧ (64 ∣ args.skip.toNat ∨ count = 1) ∧
        ∀ i < count, ∀ j < lines, Canonical (args.line i j) := by
  apply Iff.intro
  · intro accessible
    have start : args.line 0 0 = args.startAddr := by simp [StrideArgs.line]
    have aligned : 64 ∣ args.startAddr.toNat := start ▸ (accessible 0 some_turn 0 some_line).aligned
    refine ⟨aligned, ?_, fun i bound j bound' => (accessible i bound j bound').canonical⟩
    by_cases several : 1 < count
    · have second := (accessible 1 several 0 some_line).aligned
      have located : args.line 1 0 = args.startAddr + args.skip := by simp [StrideArgs.line]
      rw [located, BitVec.toNat_add] at second
      exact .inl (by omega)
    · exact .inr (by omega)
  · intro both i bound j bound'
    obtain ⟨aligned, stride, canonical⟩ := both
    refine ⟨?_, canonical i bound j bound'⟩
    cases stride with
    | inl stride => exact line_aligned aligned stride i j
    | inr single =>
        cases Nat.lt_one_iff.mp (single ▸ bound)
        have alone : args.line 0 j = args.startAddr + BitVec.ofNat 64 (64 * j) := by simp [StrideArgs.line]
        rw [alone, BitVec.toNat_add, BitVec.toNat_ofNat]
        omega

theorem Traverses.runs_iff {code : Code} (traverses : Traverses code args events) (accesses : AccessesLine events)
    (before : State) : (∃ after events, Runs code before after events) ↔
      args.size.toInt + 64 ≤ 2 ^ 63 ∧ 64 ∣ args.startAddr.toNat ∧ (64 ∣ args.skip.toNat ∨ turns args.count 1 = 1) ∧
        ∀ i < turns args.count 1, ∀ j < turns args.size 64, Canonical (args.line i j) := by
  rw [X86.runs_iff (traverses.traced before), traverses.returns, ← lines_accessible turns_pos turns_pos]
  apply and_congr_right'
  rw [faultless_flatMap]
  apply Iff.intro
  · intro faultless i bound j bound'
    have block := (faultless_append.mp (faultless i (List.mem_range.mpr bound))).1
    exact accesses.lines.mp block _ (List.mem_map_of_mem (List.mem_range.mpr bound'))
  · intro accessible i inRange
    refine faultless_append.mpr ⟨accesses.lines.mpr fun line inBlock => ?_, faultless_mfence⟩
    obtain ⟨j, inRange', rfl⟩ := List.mem_map.mp inBlock
    exact accessible i (List.mem_range.mp inRange) j (List.mem_range.mp inRange')

/-- Canonical lines in strides with room for a block. -/
theorem lines_disjoint_canonical {lines count : Nat} (some_line : 0 < lines) (short : 64 * lines ≤ 2 ^ 63)
    (wide : 64 * lines ≤ args.skip.toInt) (canonical : ∀ i < count, ∀ j < lines, Canonical (args.line i j)) :
    ((List.range count).flatMap fun turn => (List.range lines).map (args.line turn)).Pairwise fun earlier later =>
      (Range.mk earlier 64).Disjoint ⟨later, 64⟩ := by
  have forward : 0 ≤ args.skip.toInt := by omega
  have value := Word.toNat_eq_toInt forward
  have bases : ∀ turn < count, Canonical (args.startAddr + BitVec.ofNat 64 turn * args.skip) := by
    intro turn bound
    simpa [StrideArgs.line] using canonical turn bound 0 some_line
  apply lines_disjoint (by omega)
  cases count with
  | zero =>
      rw [Nat.zero_sub, Nat.zero_mul]
      omega
  | succ last =>
      have span := canonical_span forward bases (Nat.lt_succ_self last)
      change last * _ + _ ≤ _
      omega

end RwSep.MemAccess
