import RwSep.Data.Word
import Mathlib.Logic.Function.Iterate

namespace RwSep.Benchmark

open RwSep.Data

/-! The copy benchmark of pmdk/rw_sep.c.

The source is a regular file: `read` continues at the offset of the
descriptor and fails on no input.  Both phases persist what the last `read`
has returned.
-/

def BUF_LEN : Nat := 4096

/-- The offset of `srcfd`, the variables of the loops, the mapped file, and how many bytes have been persisted. -/
structure Copying where
  offset : Nat
  buf : List Byte
  cc : Nat
  pmem : List Byte
  persisted : Nat

/-- `cc = read(srcfd, buf, BUF_LEN)` -/
def readSource (file : List Byte) (state : Copying) : Copying :=
  let bytes := (file.drop state.offset).take BUF_LEN
  { state with
    offset := state.offset + bytes.length
    buf := bytes ++ state.buf.drop bytes.length
    cc := bytes.length }

/-- Either branch on `is_pmem` copies `cc` bytes from `buf` and persists them. -/
def persistCopy (state : Copying) : Copying :=
  { state with
    pmem := state.buf.take state.cc ++ state.pmem.drop state.cc
    persisted := state.persisted + state.cc }

/-- The bytes that the two phases of an iteration persist. -/
structure Copied where
  separate : Nat
  interleaved : Nat
deriving DecidableEq, Repr

def copyTurn (file : List Byte) (half : Nat) (state : Copying) : Copied × Copying :=
  let written := persistCopy^[half] ((readSource file)^[half] state)
  let copied := (fun state => persistCopy (readSource file state))^[half] written
  (⟨written.persisted - state.persisted, copied.persisted - written.persisted⟩, copied)

def copyLoop (file : List Byte) (half : Nat) : Nat → Copying → List Copied
  | 0, _ => []
  | turns + 1, state => (copyTurn file half state).1 :: copyLoop file half turns (copyTurn file half state).2

/-- `main`, from a descriptor that has just been opened and variables that have not been set. -/
def copyMain (file : List Byte) (nRw testLoop : Int) (buf : List Byte) (cc : Nat) (pmem : List Byte) : List Copied :=
  copyLoop file (nRw.tdiv 2).toNat testLoop.toNat ⟨0, buf, cc, pmem, 0⟩

section Phases

variable {file : List Byte} {state : Copying} {half turns position : Nat}

theorem readSource_cc (file : List Byte) (state : Copying) :
    (readSource file state).cc = min BUF_LEN (file.length - state.offset) := by
  rw [readSource, List.length_take, List.length_drop]

theorem readSource_offset (located : state.offset = min file.length position) :
    (readSource file state).offset = min file.length (position + BUF_LEN) := by
  change state.offset + (readSource file state).cc = _
  rw [readSource_cc, located]
  omega

/-- Reads that follow each other advance the offset until the end of the file. -/
theorem reads_offset (located : state.offset = min file.length position) (half : Nat) :
    ((readSource file)^[half] state).offset = min file.length (position + half * BUF_LEN) := by
  induction half with
  | zero => rw [Nat.zero_mul, Nat.add_zero]; exact located
  | succ half ih =>
      rw [Function.iterate_succ_apply', readSource_offset ih, Nat.succ_mul, Nat.add_assoc]

theorem reads_persisted (file : List Byte) (half : Nat) (state : Copying) :
    ((readSource file)^[half] state).persisted = state.persisted := by
  induction half with
  | zero => rfl
  | succ half ih => rw [Function.iterate_succ_apply']; exact ih

/-- What is left to the last read decides what all writes of the phase persist. -/
theorem reads_cc (located : state.offset = min file.length position) (half : Nat) :
    ((readSource file)^[half + 1] state).cc = min BUF_LEN (file.length - (position + half * BUF_LEN)) := by
  rw [Function.iterate_succ_apply', readSource_cc, reads_offset located]
  omega

theorem persists_total (half : Nat) (state : Copying) :
    (persistCopy^[half] state).persisted = state.persisted + half * state.cc ∧
      (persistCopy^[half] state).cc = state.cc ∧ (persistCopy^[half] state).offset = state.offset := by
  induction half with
  | zero => simp
  | succ half ih =>
      obtain ⟨total, count, offset⟩ := ih
      rw [Function.iterate_succ_apply']
      refine ⟨?_, count, offset⟩
      change (persistCopy^[half] state).persisted + (persistCopy^[half] state).cc = _
      rw [total, count, Nat.succ_mul, Nat.add_assoc]

/-- Copying a piece at a time persists what the offset advances by. -/
theorem copies_total (located : state.offset = min file.length position) (half : Nat) :
    ((fun state => persistCopy (readSource file state))^[half] state).offset =
        min file.length (position + half * BUF_LEN) ∧
      ((fun state => persistCopy (readSource file state))^[half] state).persisted + state.offset =
        state.persisted + min file.length (position + half * BUF_LEN) := by
  induction half with
  | zero =>
      rw [Nat.zero_mul, Nat.add_zero]
      exact ⟨located, by rw [located]; rfl⟩
  | succ half ih =>
      obtain ⟨offset, total⟩ := ih
      rw [Function.iterate_succ_apply']
      generalize (fun state => persistCopy (readSource file state))^[half] state = middle at offset total ⊢
      have read := readSource_cc file middle
      have advanced := readSource_offset offset
      rw [Nat.succ_mul, ← Nat.add_assoc]
      refine ⟨advanced, ?_⟩
      change middle.persisted + (readSource file middle).cc + state.offset = _
      rw [read, offset]
      omega

theorem copyTurn_offset (located : state.offset = min file.length position) (half : Nat) :
    (copyTurn file half state).2.offset = min file.length (position + 2 * half * BUF_LEN) := by
  have read := reads_offset located half
  have written := (persists_total half ((readSource file)^[half] state)).2.2
  have copied := (copies_total (written.trans read) half).1
  have doubled : 2 * half * BUF_LEN = half * BUF_LEN + half * BUF_LEN := by rw [Nat.mul_assoc, Nat.two_mul]
  rw [doubled, ← Nat.add_assoc]
  exact copied

theorem copyTurn_none (file : List Byte) (state : Copying) : (copyTurn file 0 state).1 = ⟨0, 0⟩ := by
  simp [copyTurn]

/-- The phases of an iteration persist equally much when the file ends before the last read of the first phase, or
not before the end of the second. -/
theorem copyTurn_equal_iff (located : state.offset = min file.length position) (half : Nat) :
    (copyTurn file (half + 1) state).1.separate = (copyTurn file (half + 1) state).1.interleaved ↔
      file.length ≤ position + half * BUF_LEN ∨ position + 2 * (half + 1) * BUF_LEN ≤ file.length := by
  have read := reads_offset located (half + 1)
  have left := reads_cc located half
  have unchanged := reads_persisted file (half + 1) state
  obtain ⟨total, _, kept⟩ := persists_total (half + 1) ((readSource file)^[half + 1] state)
  obtain ⟨_, copied⟩ := copies_total (kept.trans read) (half + 1)
  rw [kept, read] at copied
  rw [unchanged, left] at total
  simp only [copyTurn]
  generalize (persistCopy^[half + 1] ((readSource file)^[half + 1] state)) = written at total copied ⊢
  rw [total, Nat.add_sub_cancel_left]
  unfold BUF_LEN at *
  by_cases full : 4096 ≤ file.length - (position + half * 4096)
  · rw [Nat.min_eq_left full] at total ⊢
    omega
  · rw [Nat.min_eq_right (by omega)] at total ⊢
    have same : (half + 1) * (file.length - (position + half * 4096)) = 0 ↔
        file.length ≤ position + half * 4096 := by
      rw [Nat.mul_eq_zero]
      omega
    omega

theorem copyLoop_equal_iff (located : state.offset = min file.length position) (half turns : Nat) :
    (∀ copied ∈ copyLoop file (half + 1) turns state, copied.separate = copied.interleaved) ↔
      ∀ i < turns, file.length ≤ position + 2 * (half + 1) * BUF_LEN * i + half * BUF_LEN ∨
        position + 2 * (half + 1) * BUF_LEN * (i + 1) ≤ file.length := by
  induction turns generalizing state position with
  | zero => simp [copyLoop]
  | succ turns ih =>
      have rest := ih (copyTurn_offset located (half + 1))
      rw [copyLoop, List.forall_mem_cons, copyTurn_equal_iff located, rest, Nat.forall_lt_succ_left']
      simp only [Nat.mul_zero, Nat.add_zero, Nat.zero_add, Nat.mul_succ, ← Nat.add_assoc, Nat.add_right_comm]

theorem copyLoop_none (file : List Byte) (turns : Nat) (state : Copying) :
    ∀ copied ∈ copyLoop file 0 turns state, copied = ⟨0, 0⟩ := by
  induction turns generalizing state with
  | zero => simp [copyLoop]
  | succ turns ih =>
      rw [copyLoop, List.forall_mem_cons]
      exact ⟨copyTurn_none file state, ih _⟩

end Phases

/-- The blocks that end within a length, or start no more than `low` before its end. -/
theorem blocks_iff {block low length turns : Nat} (positive : 0 < block) :
    (∀ i < turns, length ≤ block * i + low ∨ block * (i + 1) ≤ length) ↔
      block * turns ≤ length ∨ length % block ≤ low := by
  have split := Nat.div_add_mod length block
  have rest := Nat.mod_lt length positive
  constructor
  · intro each
    by_cases reached : length / block < turns
    · rcases each (length / block) reached with before | after
      · exact Or.inr (by omega)
      · rw [Nat.mul_succ] at after
        omega
    · exact Or.inl (Nat.le_trans (Nat.mul_le_mul_left block (by omega)) (Nat.mul_div_le length block))
  · intro either i inTurns
    rcases either with all | near
    · exact Or.inr (Nat.le_trans (Nat.mul_le_mul_left block inTurns) all)
    · by_cases earlier : i < length / block
      · exact Or.inr (Nat.le_trans (Nat.mul_le_mul_left block earlier) (Nat.mul_div_le length block))
      · have later := Nat.mul_le_mul_left block (Nat.le_of_not_lt earlier)
        exact Or.inl (by omega)

/-- The phases persist equally much in every iteration exactly when they persist nothing, or all iterations end
within the file, or the iteration in which the file ends reads nothing with the last read of its first phase. -/
theorem copyMain_equal_iff (file : List Byte) (nRw testLoop : Int) (buf : List Byte) (cc : Nat) (pmem : List Byte) :
    (∀ copied ∈ copyMain file nRw testLoop buf cc pmem, copied.separate = copied.interleaved) ↔
      (nRw.tdiv 2).toNat = 0 ∨ 2 * (nRw.tdiv 2).toNat * BUF_LEN * testLoop.toNat ≤ file.length ∨
        file.length % (2 * (nRw.tdiv 2).toNat * BUF_LEN) ≤ ((nRw.tdiv 2).toNat - 1) * BUF_LEN := by
  rw [copyMain]
  generalize (nRw.tdiv 2).toNat = half
  cases half with
  | zero =>
      have nothing := copyLoop_none file testLoop.toNat ⟨0, buf, cc, pmem, 0⟩
      exact ⟨fun _ => Or.inl rfl, fun _ copied member => by rw [nothing copied member]⟩
  | succ half =>
      have located : (⟨0, buf, cc, pmem, 0⟩ : Copying).offset = min file.length 0 := (Nat.min_zero _).symm
      have positive : 0 < 2 * (half + 1) * BUF_LEN := by
        unfold BUF_LEN
        omega
      rw [copyLoop_equal_iff located]
      simp only [Nat.zero_add]
      rw [blocks_iff positive, Nat.add_sub_cancel]
      exact ⟨Or.inr, fun either => either.resolve_left (Nat.succ_ne_zero half)⟩

/-- Of a file of one byte the separate phase persists the byte, and the interleaved phase nothing. -/
theorem copyMain_unequal : copyMain [7] 2 1 [] 0 [] = [⟨1, 0⟩] := by decide

end RwSep.Benchmark
