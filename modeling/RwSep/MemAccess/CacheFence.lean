import RwSep.MemAccess.Stride
import RwSep.X86.Persistency
import Mathlib.Data.List.Nodup

namespace RwSep.MemAccess

open RwSep.Data RwSep.Execution RwSep.X86

/-! `cachefence` of memaccess.c.

Three counters go up together with the offset `r9`: `r10` starts again with
each batch of stores, `r11` with each fence.  A batch is flushed from `rdx`, its
start address, to `rcx`, its end.
-/

structure CacheFenceArgs where
  startAddr : Word
  size : Word
  cache : Word
  fence : Word
deriving DecidableEq, Repr

def CACHEFENCE_FENCE : Instr := .sfence

/-- `(%[start_addr], %%r9)` -/
def CacheFenceArgs.offset (args : CacheFenceArgs) : Address := ⟨0, .value args.startAddr, .reg .r9, 1⟩

def writeOne (args : CacheFenceArgs) : List Instr :=
  [.vmovdqa64 zmm0 args.offset, .add (.value 0x40) .r9, .add (.value 0x40) .r10, .add (.value 0x40) .r11]

def flushOne : List Instr := [.clwb ⟨0, .reg .rdx, .value 0, 1⟩, .add (.value 0x40) .rdx]

def cachefenceBatch (args : CacheFenceArgs) : Code :=
  .sequence [
    .block [.xor .r10 .r10, .lea args.offset .rdx],
    .loop (.block (writeOne args)) (.value args.cache) .r10,
    .block [.lea args.offset .rcx],
    .loop (.block flushOne) (.reg .rcx) .rdx]

def cachefenceGroup (args : CacheFenceArgs) : Code :=
  .sequence [
    .block [.xor .r11 .r11],
    .loop (cachefenceBatch args) (.value args.fence) .r11,
    .block [CACHEFENCE_FENCE]]

def cachefence (args : CacheFenceArgs) : Code :=
  .sequence [
    .block [.movqXmm (.value args.startAddr) zmm0, .xor .r9 .r9],
    .loop (cachefenceGroup args) (.value args.size) .r9]

/-! # Turns of the inner loops -/

theorem ofNat_line_succ (count : Nat) :
    BitVec.ofNat 64 (64 * (count + 1)) = BitVec.ofNat 64 (64 * count) + 0x40 := by
  rw [Nat.mul_succ, BitVec.ofNat_add]
  rfl

/-- Before and after `count` turns of the loop that writes. -/
structure Wrote (args : CacheFenceArgs) (count : Nat) (before after : State) : Prop where
  offset : after.gpr .r9 = before.gpr .r9 + BitVec.ofNat 64 (64 * count)
  batch : after.gpr .r10 = before.gpr .r10 + BitVec.ofNat 64 (64 * count)
  group : after.gpr .r11 = before.gpr .r11 + BitVec.ofNat 64 (64 * count)
  flushStart : after.gpr .rdx = before.gpr .rdx
  trace : after.data.trace = before.data.trace ++
    (linesFrom (args.startAddr + before.gpr .r9) count).map (.store · 64)

/-- Before and after `count` turns of the loop that flushes. -/
structure WroteBack (count : Nat) (before after : State) : Prop where
  flushStart : after.gpr .rdx = before.gpr .rdx + BitVec.ofNat 64 (64 * count)
  others : ∀ reg, reg ≠ .rdx → after.gpr reg = before.gpr reg
  trace : after.data.trace = before.data.trace ++ (linesFrom (before.gpr .rdx) count).map .clwb

variable {args : CacheFenceArgs}

theorem offset_eval (gpr : Reg → Word) : args.offset.eval gpr = args.startAddr + gpr .r9 := by
  simp [CacheFenceArgs.offset, Address.eval, Operand.eval]

theorem writeOne_iterate (before : State) (count : Nat) :
    Wrote args count before ((runBlock (writeOne args))^[count] before) := by
  induction count with
  | zero => exact ⟨by simp, by simp, by simp, rfl, by simp [linesFrom]⟩
  | succ count ih =>
      rw [Function.iterate_succ_apply']
      generalize (runBlock (writeOne args))^[count] before = middle at ih
      refine ⟨?_, ?_, ?_, ?_, ?_⟩
      · rw [ofNat_line_succ, ← BitVec.add_assoc, ← ih.offset]
        rfl
      · rw [ofNat_line_succ, ← BitVec.add_assoc, ← ih.batch]
        rfl
      · rw [ofNat_line_succ, ← BitVec.add_assoc, ← ih.group]
        rfl
      · rw [← ih.flushStart]
        rfl
      · have stored : (runBlock (writeOne args) middle).data.trace =
            middle.data.trace ++ [.store (args.offset.eval middle.gpr) 64] := rfl
        rw [stored, offset_eval, ih.trace, ih.offset, linesFrom_succ, List.map_append, List.append_assoc,
          BitVec.add_assoc]
        rfl

theorem flushOne_iterate (before : State) (count : Nat) :
    WroteBack count before ((runBlock flushOne)^[count] before) := by
  induction count with
  | zero => exact ⟨by simp, fun _ _ => rfl, by simp [linesFrom]⟩
  | succ count ih =>
      rw [Function.iterate_succ_apply']
      generalize (runBlock flushOne)^[count] before = middle at ih
      refine ⟨?_, fun reg different => ?_, ?_⟩
      · rw [ofNat_line_succ, ← BitVec.add_assoc, ← ih.flushStart]
        rfl
      · rw [← ih.others reg different]
        exact State.set_other different
      · have flushed : (runBlock flushOne middle).data.trace = middle.data.trace ++ [.clwb (middle.gpr .rdx)] := by
          simp [flushOne, Instr.step, State.record, Address.eval, Operand.eval]
        rw [flushed, ih.trace, ih.flushStart, linesFrom_succ, List.map_append, List.append_assoc]
        rfl

/-! # What the loops do -/

/-- Stores of `count` lines, then their write-backs. -/
def batchEvents (address : Word) (count : Nat) : List Event :=
  (linesFrom address count).map (.store · 64) ++ (linesFrom address count).map .clwb

section Loops

variable {before : State} {count : Nat}

theorem exec_writes (short : 64 * turns args.cache 64 < 2 ^ 63) (zero : before.gpr .r10 = 0) :
    ∃ after, Exec (.loop (.block (writeOne args)) (.value args.cache) .r10) before after ∧
      Wrote args (turns args.cache 64) before after := by
  let Inv : Nat → State → Prop := fun turn state => state = (runBlock (writeOne args))^[turn] before
  have counts : ∀ {turn state}, Inv turn state → state.gpr .r10 = BitVec.ofNat 64 (64 * turn) := by
    intro turn state reached
    rw [show state = _ from reached, (writeOne_iterate before turn).batch, zero]
    exact BitVec.zero_add _
  have step : ∀ turn < turns args.cache 64, ∀ state, Inv turn state →
      ∃ after, Exec (.block (writeOne args)) state after ∧ Inv (turn + 1) after := by
    intro turn _ state reached
    refine ⟨_, exec_block, ?_⟩
    rw [show state = _ from reached]
    exact (Function.iterate_succ_apply' ..).symm
  obtain ⟨after, ran, reached⟩ := exec_counting_short (by decide) short Inv counts step rfl
  exact ⟨after, ran, (show after = _ from reached) ▸ writeOne_iterate before _⟩

theorem flush_goes_on {turn : Nat} (below : (before.gpr .rdx).toInt + (64 * count : Nat) < 2 ^ 63)
    (stop : before.gpr .rcx = before.gpr .rdx + BitVec.ofNat 64 (64 * count)) (bound : turn ≤ count) :
    ((runBlock flushOne)^[turn] before).below (.reg .rcx) .rdx = true ↔ turn < count := by
  have reached := flushOne_iterate before turn
  rw [State.below, Operand.eval, BitVec.slt_iff_toInt_lt, reached.others .rcx (by simp), reached.flushStart, stop,
    Word.toInt_offset (by omega), Word.toInt_offset below]
  omega

theorem exec_flushes (positive : 0 < count) (below : (before.gpr .rdx).toInt + (64 * count : Nat) < 2 ^ 63)
    (stop : before.gpr .rcx = before.gpr .rdx + BitVec.ofNat 64 (64 * count)) :
    ∃ after, Exec (.loop (.block flushOne) (.reg .rcx) .rdx) before after ∧ WroteBack count before after := by
  let Inv : Nat → State → Prop := fun turn state => state = (runBlock flushOne)^[turn] before
  have step : ∀ turn < count, ∀ state, Inv turn state → ∃ after, Exec (.block flushOne) state after ∧
      Inv (turn + 1) after ∧ (after.below (.reg .rcx) .rdx = true ↔ turn + 1 < count) := by
    intro turn bound state reached
    refine ⟨(runBlock flushOne)^[turn + 1] before, ?_, rfl, flush_goes_on below stop bound⟩
    rw [show state = _ from reached]
    exact (Function.iterate_succ_apply' ..).symm
  obtain ⟨after, ran, reached⟩ := DoWhile.counted Inv positive step rfl
  exact ⟨after, ran, (show after = _ from reached) ▸ flushOne_iterate before count⟩

/-- One batch: the lines from offset `r9` on, stored and written back. -/
theorem exec_batch (short : 64 * turns args.cache 64 < 2 ^ 63)
    (below : (args.startAddr + before.gpr .r9).toInt + (64 * turns args.cache 64 : Nat) < 2 ^ 63) :
    ∃ after, Exec (cachefenceBatch args) before after ∧
      after.gpr .r9 = before.gpr .r9 + BitVec.ofNat 64 (64 * turns args.cache 64) ∧
      after.gpr .r11 = before.gpr .r11 + BitVec.ofNat 64 (64 * turns args.cache 64) ∧
      after.data.trace = before.data.trace ++
        batchEvents (args.startAddr + before.gpr .r9) (turns args.cache 64) := by
  let ready := runBlock [.xor .r10 .r10, .lea args.offset .rdx] before
  have located : ready.gpr .rdx = args.startAddr + before.gpr .r9 := by
    rw [← offset_eval]
    rfl
  obtain ⟨stored, ranWrites, wrote⟩ := exec_writes short (show ready.gpr .r10 = 0 from BitVec.xor_self ..)
  let flushing := runBlock [.lea args.offset .rcx] stored
  have stop : flushing.gpr .rcx = flushing.gpr .rdx + BitVec.ofNat 64 (64 * turns args.cache 64) := by
    change args.offset.eval stored.gpr = stored.gpr .rdx + _
    rw [offset_eval, wrote.offset, wrote.flushStart, located, BitVec.add_assoc]
    rfl
  have start : flushing.gpr .rdx = args.startAddr + before.gpr .r9 := wrote.flushStart.trans located
  obtain ⟨flushed, ranFlushes, wroteBack⟩ := exec_flushes turns_pos (by rwa [start]) stop
  refine ⟨flushed, ⟨ready, exec_block, stored, ranWrites, flushing, exec_block, flushed, ranFlushes, rfl⟩, ?_, ?_, ?_⟩
  · rw [wroteBack.others .r9 (by simp)]
    exact wrote.offset
  · rw [wroteBack.others .r11 (by simp)]
    exact wrote.group
  · rw [wroteBack.trace, start, batchEvents, ← List.append_assoc]
    exact congrArg (· ++ _) wrote.trace

end Loops

namespace CacheFenceArgs

def ceil (bytes unit : Nat) : Nat := (bytes + unit - 1) / unit

/-- Bytes between two flushes. -/
def batchBytes (args : CacheFenceArgs) : Nat := 64 * ceil args.cache.toNat 64

/-- Bytes between two fences. -/
def groupBytes (args : CacheFenceArgs) : Nat := args.batchBytes * ceil args.fence.toNat args.batchBytes

def totalBytes (args : CacheFenceArgs) : Nat := args.groupBytes * ceil args.size.toNat args.groupBytes

def batchAt (args : CacheFenceArgs) (offset : Nat) : List Event :=
  batchEvents (args.startAddr + BitVec.ofNat 64 offset) (ceil args.cache.toNat 64)

def groupAt (args : CacheFenceArgs) (offset : Nat) : List Event :=
  ((List.range (ceil args.fence.toNat args.batchBytes)).flatMap fun b => args.batchAt (offset + args.batchBytes * b)) ++
    [.sfence]

def events (args : CacheFenceArgs) : List Event :=
  (List.range (ceil args.size.toNat args.groupBytes)).flatMap fun g => args.groupAt (args.groupBytes * g)

/-- Positive parameters, and addresses that do not overflow as the `long`s
which `jl` takes them for. -/
structure Addressable (args : CacheFenceArgs) : Prop where
  size : 1 ≤ args.size.toInt
  cache : 1 ≤ args.cache.toInt
  fence : 1 ≤ args.fence.toInt
  short : args.totalBytes < 2 ^ 63
  below : args.startAddr.toInt + args.totalBytes < 2 ^ 63

theorem turns_eq_ceil {limit : Word} {stride : Nat} (some : 1 ≤ limit.toInt) (positive : 0 < stride) :
    turns limit stride = ceil limit.toNat stride := by
  have value := Word.toNat_eq_toInt (Int.le_trans Int.one_nonneg some)
  have same : limit.toInt.toNat = limit.toNat := by omega
  rw [turns, same, ← ceil]
  apply Nat.max_eq_right
  rw [ceil, Nat.le_div_iff_mul_le positive]
  omega

theorem ceil_pos {limit : Word} {stride : Nat} (some : 1 ≤ limit.toInt) (positive : 0 < stride) :
    0 < ceil limit.toNat stride := by
  rw [← turns_eq_ceil some positive]
  exact turns_pos

namespace Addressable

theorem batch_pos (addressable : args.Addressable) : 0 < args.batchBytes :=
  Nat.mul_pos (by decide) (ceil_pos addressable.cache (by decide))

theorem group_pos (addressable : args.Addressable) : 0 < args.groupBytes :=
  Nat.mul_pos addressable.batch_pos (ceil_pos addressable.fence addressable.batch_pos)

end Addressable

section Runs

variable {before : State} {offset : Nat}

theorem exec_batch_at (addressable : args.Addressable) (fits : offset + args.batchBytes ≤ args.totalBytes)
    (at' : before.gpr .r9 = BitVec.ofNat 64 offset) :
    ∃ after, Exec (cachefenceBatch args) before after ∧
      after.gpr .r9 = BitVec.ofNat 64 (offset + args.batchBytes) ∧
      after.gpr .r11 = before.gpr .r11 + BitVec.ofNat 64 args.batchBytes ∧
      after.data.trace = before.data.trace ++ args.batchAt offset := by
  have lines := turns_eq_ceil addressable.cache (Nat.succ_pos 63)
  have bytes : 64 * turns args.cache 64 = args.batchBytes := by rw [lines, batchBytes]
  have short := addressable.short
  have below := addressable.below
  have located : (args.startAddr + before.gpr .r9).toInt + (64 * turns args.cache 64 : Nat) < 2 ^ 63 := by
    rw [at', Word.toInt_offset (by omega), bytes]
    omega
  obtain ⟨after, ran, moved, counted, traced⟩ := exec_batch (by omega) located
  rw [bytes] at moved counted
  rw [lines, at'] at traced
  refine ⟨after, ran, ?_, counted, traced⟩
  rw [moved, at', BitVec.ofNat_add]

theorem exec_group (addressable : args.Addressable) (fits : offset + args.groupBytes ≤ args.totalBytes)
    (at' : before.gpr .r9 = BitVec.ofNat 64 offset) :
    ∃ after, Exec (cachefenceGroup args) before after ∧
      after.gpr .r9 = BitVec.ofNat 64 (offset + args.groupBytes) ∧
      after.data.trace = before.data.trace ++ args.groupAt offset := by
  let ready := runBlock [.xor .r11 .r11] before
  let Inv : Nat → State → Prop := fun turn state =>
    state.gpr .r11 = BitVec.ofNat 64 (args.batchBytes * turn) ∧
    state.gpr .r9 = BitVec.ofNat 64 (offset + args.batchBytes * turn) ∧
    state.data.trace = before.data.trace ++
      (List.range turn).flatMap fun b => args.batchAt (offset + args.batchBytes * b)
  have batches := turns_eq_ceil addressable.fence addressable.batch_pos
  have bytes : args.batchBytes * turns args.fence args.batchBytes = args.groupBytes := by rw [batches, groupBytes]
  have step : ∀ turn < turns args.fence args.batchBytes, ∀ state, Inv turn state →
      ∃ after, Exec (cachefenceBatch args) state after ∧ Inv (turn + 1) after := by
    intro turn bound state invariant
    obtain ⟨counted, moved, traced⟩ := invariant
    have reach : args.batchBytes * turn + args.batchBytes ≤ args.groupBytes := by
      rw [← bytes, ← Nat.mul_succ]
      exact Nat.mul_le_mul_left _ bound
    obtain ⟨after, ran, moved', counted', traced'⟩ := exec_batch_at addressable (by omega) moved
    refine ⟨after, ran, ?_, ?_, ?_⟩
    · rw [counted', counted, Nat.mul_succ, BitVec.ofNat_add]
    · rw [moved', Nat.mul_succ, Nat.add_assoc]
    · rw [traced', traced, List.range_succ, List.flatMap_append, List.append_assoc]
      simp
  have short : args.batchBytes * turns args.fence args.batchBytes < 2 ^ 63 := by
    have := addressable.short
    omega
  obtain ⟨after, ran, invariant⟩ := exec_counting_short addressable.batch_pos short Inv
    (fun invariant => invariant.1) step (show Inv 0 ready from ⟨BitVec.xor_self .., at', by simp [ready, Instr.step]⟩)
  obtain ⟨_, moved, traced⟩ := invariant
  refine ⟨_, ⟨ready, exec_block, after, ran, _, exec_block, rfl⟩, ?_, ?_⟩
  · rw [← bytes]
    exact moved
  · rw [groupAt, ← batches, ← List.append_assoc, ← traced]
    rfl

theorem exec_cachefence (addressable : args.Addressable) (before : State) :
    ∃ after, Exec (cachefence args) before after ∧ after.data.trace = before.data.trace ++ args.events := by
  let ready := runBlock [.movqXmm (.value args.startAddr) zmm0, .xor .r9 .r9] before
  let Inv : Nat → State → Prop := fun turn state =>
    state.gpr .r9 = BitVec.ofNat 64 (args.groupBytes * turn) ∧
    state.data.trace = before.data.trace ++ (List.range turn).flatMap fun g => args.groupAt (args.groupBytes * g)
  have groups := turns_eq_ceil addressable.size addressable.group_pos
  have bytes : args.groupBytes * turns args.size args.groupBytes = args.totalBytes := by rw [groups, totalBytes]
  have step : ∀ turn < turns args.size args.groupBytes, ∀ state, Inv turn state →
      ∃ after, Exec (cachefenceGroup args) state after ∧ Inv (turn + 1) after := by
    intro turn bound state invariant
    obtain ⟨moved, traced⟩ := invariant
    have reach : args.groupBytes * turn + args.groupBytes ≤ args.totalBytes := by
      rw [← bytes, ← Nat.mul_succ]
      exact Nat.mul_le_mul_left _ bound
    obtain ⟨after, ran, moved', traced'⟩ := exec_group addressable reach moved
    refine ⟨after, ran, ?_, ?_⟩
    · rw [moved', Nat.mul_succ]
    · rw [traced', traced, List.range_succ, List.flatMap_append, List.append_assoc]
      simp
  obtain ⟨after, ran, invariant⟩ := exec_counting_short addressable.group_pos (by rw [bytes]; exact addressable.short)
    Inv (fun invariant => invariant.1) step
    (show Inv 0 ready from ⟨BitVec.xor_self .., by simp [ready, Instr.step, State.setZmm, State.set]⟩)
  refine ⟨after, ⟨ready, exec_block, after, ran, rfl⟩, ?_⟩
  rw [invariant.2, events, groups]

end Runs

end CacheFenceArgs

/-! # The trace as a whole -/

section Lines

variable {address : Word} {count : Nat}

theorem linesFrom_aligned (aligned : 64 ∣ address.toNat) {line : Word} (member : line ∈ linesFrom address count) :
    64 ∣ line.toNat := by
  obtain ⟨i, _, rfl⟩ := List.mem_map.mp member
  rw [BitVec.toNat_add, BitVec.toNat_ofNat]
  omega

/-- What a filter makes of the trace that keeps one event of each line of a batch. -/
theorem project_events {project : Event → Option Word}
    (batch : ∀ address count, (batchEvents address count).filterMap project = linesFrom address count)
    (fence : project .sfence = none) :
    args.events.filterMap project = linesFrom args.startAddr (args.totalBytes / 64) := by
  have groups : ∀ offset, (args.groupAt offset).filterMap project = linesFrom
      (args.startAddr + BitVec.ofNat 64 offset)
      (CacheFenceArgs.ceil args.cache.toNat 64 * CacheFenceArgs.ceil args.fence.toNat args.batchBytes) := by
    intro offset
    rw [CacheFenceArgs.groupAt, List.filterMap_append, List.filterMap_flatMap, ← linesFrom_flatMap]
    simp only [CacheFenceArgs.batchAt, batch, List.filterMap_cons, fence, List.filterMap_nil, List.append_nil,
      BitVec.ofNat_add, BitVec.add_assoc]
    rfl
  have total : args.totalBytes / 64 = CacheFenceArgs.ceil args.cache.toNat 64 *
      CacheFenceArgs.ceil args.fence.toNat args.batchBytes * CacheFenceArgs.ceil args.size.toNat args.groupBytes := by
    apply Nat.div_eq_of_eq_mul_right (by decide)
    rw [CacheFenceArgs.totalBytes]
    nth_rewrite 1 [CacheFenceArgs.groupBytes]
    nth_rewrite 1 [CacheFenceArgs.batchBytes]
    simp only [Nat.mul_assoc]
  rw [CacheFenceArgs.events, List.filterMap_flatMap, total, ← linesFrom_flatMap]
  simp only [groups]
  apply congrArg (List.flatMap · _)
  funext g
  rw [CacheFenceArgs.groupBytes, CacheFenceArgs.batchBytes, Nat.mul_assoc 64]

theorem batch_stored (address : Word) (count : Nat) : storedLines (batchEvents address count) = linesFrom address count := by
  simp [storedLines, batchEvents, List.filterMap_append, List.filterMap_map]

theorem batch_writtenBack (address : Word) (count : Nat) :
    writtenBackLines (batchEvents address count) = linesFrom address count := by
  simp [writtenBackLines, batchEvents, List.filterMap_append, List.filterMap_map]

end Lines

/-- Nothing is left unflushed by the events, nor at any fence among them. -/
structure Batched (events : List Event) : Prop where
  steady : Steady (fun _ => False) events
  fenced : ∀ {earlier later fence}, events = earlier ++ fence :: later → fence.Fences →
    Steady (fun _ => False) earlier

namespace Batched

variable {events more : List Event} {fence : Event}

theorem unfenced (steady : Steady (fun _ => False) events) (none : ∀ event ∈ events, ¬ event.Fences) : Batched events where
  steady := steady
  fenced split fences := by
    rw [split] at none
    exact absurd fences (none _ (by simp))

theorem append (first : Batched events) (second : Batched more) : Batched (events ++ more) where
  steady := first.steady.append second.steady
  fenced split fences := by
    rcases List.append_eq_append_iff.mp split with ⟨between, rfl, rest⟩ | ⟨between, rfl, rest⟩
    · exact first.steady.append (second.fenced rest fences)
    · cases between with
      | nil =>
          have whole := first.steady
          rwa [List.append_nil] at whole
      | cons head tail =>
          obtain ⟨rfl, _⟩ := List.cons.inj rest
          exact first.fenced rfl fences

theorem single (fences : fence.Fences) : Batched [fence] where
  steady := (settling_fence fences).steady
  fenced split _ := by
    cases List.append_eq_singleton_iff.mp split.symm with
    | inl found =>
        rw [found.1]
        exact Quiet.steady fun _ member => absurd member List.not_mem_nil
    | inr found => exact absurd found.2 (List.cons_ne_nil _ _)

theorem flatMap {α : Type} {items : List α} {part : α → List Event} (batched : ∀ item, Batched (part item)) :
    Batched (items.flatMap part) := by
  induction items with
  | nil => exact unfenced (Quiet.steady fun _ member => absurd member List.not_mem_nil) (by simp)
  | cons item rest ih => exact (batched item).append ih

theorem batch (address : Word) (count : Nat) : Batched (batchEvents address count) := by
  refine unfenced (steady_batch fun _ member => member) fun event member => ?_
  rcases List.mem_append.mp member with stored | flush
  · obtain ⟨line, _, rfl⟩ := List.mem_map.mp stored
    exact id
  · obtain ⟨line, _, rfl⟩ := List.mem_map.mp flush
    exact id

end Batched

theorem CacheFenceArgs.batched (args : CacheFenceArgs) : Batched args.events :=
  Batched.flatMap fun _ => (Batched.flatMap fun _ => Batched.batch _ _).append (Batched.single trivial)

theorem CacheFenceArgs.events_aligned (aligned : 64 ∣ args.startAddr.toNat) : AllAligned args.events := by
  intro event member
  cases event with
  | store address size =>
      intro whole
      subst whole
      have stored : address ∈ storedLines args.events := List.mem_filterMap.mpr ⟨_, member, rfl⟩
      rw [storedLines, project_events batch_stored rfl] at stored
      exact linesFrom_aligned aligned stored
  | clwb address => trivial
  | clflush address => trivial
  | mfence => trivial
  | sfence => trivial
  | load address size =>
      obtain ⟨g, _, inGroup⟩ := List.mem_flatMap.mp member
      simp [CacheFenceArgs.groupAt, CacheFenceArgs.batchAt, batchEvents] at inGroup
  | ntLoad address =>
      obtain ⟨g, _, inGroup⟩ := List.mem_flatMap.mp member
      simp [CacheFenceArgs.groupAt, CacheFenceArgs.batchAt, batchEvents] at inGroup
  | ntStore address =>
      obtain ⟨g, _, inGroup⟩ := List.mem_flatMap.mp member
      simp [CacheFenceArgs.groupAt, CacheFenceArgs.batchAt, batchEvents] at inGroup

/-- `cachefence` returns, and its accesses are these: groups of `groupBytes`
with a fence after each, in batches of `batchBytes` that are stored in
ascending order and then written back.  On the machine it returns where these
are `AllFaultless`: from an aligned start, with canonical lines. -/
theorem cachefence_trace (addressable : args.Addressable) (before : State) :
    ∃ after, Exec (cachefence args) before after ∧ after.data.trace = before.data.trace ++ args.events ∧
      storedLines args.events = linesFrom args.startAddr (args.totalBytes / 64) ∧
      writtenBackLines args.events = linesFrom args.startAddr (args.totalBytes / 64) ∧
      (linesFrom args.startAddr (args.totalBytes / 64)).Nodup ∧
      (64 ∣ args.startAddr.toNat → AllWritten Flushed (fun _ => False) args.events ∧
        ∀ earlier fence later, args.events = earlier ++ fence :: later → fence.Fences →
          AllWritten Flushed (fun _ => False) earlier) := by
  obtain ⟨after, ran, traced⟩ := CacheFenceArgs.exec_cachefence addressable before
  have short := addressable.short
  refine ⟨after, ran, traced, project_events batch_stored rfl, project_events batch_writtenBack rfl,
    linesFrom_nodup (by omega), fun aligned => ?_⟩
  have legal := CacheFenceArgs.events_aligned aligned
  apply And.intro
  · exact args.batched.steady legal [] allWritten_nil
  · intro earlier fence later split fences
    have part : AllAligned earlier := by
      rw [split] at legal
      exact legal.of_append.1
    exact args.batched.fenced split fences part [] allWritten_nil

/-- Two batches of 128 bytes between fences, which overshoot 300 bytes by 212. -/
theorem cachefence_trace_overshoot :
    storedLines (CacheFenceArgs.events ⟨0x10000, 300, 100, 200⟩) = linesFrom 0x10000 8 :=
  let ⟨_, _, _, stored, _⟩ := cachefence_trace
    (show CacheFenceArgs.Addressable ⟨0x10000, 300, 100, 200⟩ from
      ⟨by decide, by decide, by decide, by decide, by decide⟩) .blank
  stored

end RwSep.MemAccess
