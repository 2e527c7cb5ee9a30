import RwSep.MemAccess.RandomBandwidth
import RwSep.MemAccess.StrideKernels

namespace RwSep.MemAccess

open RwSep.Data RwSep.Execution RwSep.X86

/-! The access macros of memaccess.h, unrolled to several lines. -/

def SIZEBTNT_128_AVX512 : List Instr :=
  [.vmovntdq zmm0 (accessedAt 0x0), .vmovntdq zmm0 (accessedAt 0x40),
    .add (.value 0x80) .r10]

def SIZEBTNT_256_AVX512 : List Instr :=
  [.vmovntdq zmm0 (accessedAt 0x0), .vmovntdq zmm0 (accessedAt 0x40),
    .vmovntdq zmm0 (accessedAt 0x80), .vmovntdq zmm0 (accessedAt 0xc0),
    .add (.value 0x100) .r10]

def SIZEBTNT_1024_AVX512 : List Instr :=
  [.vmovntdq zmm0 (accessedAt 0x0), .vmovntdq zmm0 (accessedAt 0x40),
    .vmovntdq zmm0 (accessedAt 0x80), .vmovntdq zmm0 (accessedAt 0xc0),
    .vmovntdq zmm0 (accessedAt 0x100), .vmovntdq zmm0 (accessedAt 0x140),
    .vmovntdq zmm0 (accessedAt 0x180), .vmovntdq zmm0 (accessedAt 0x1c0),
    .vmovntdq zmm0 (accessedAt 0x200), .vmovntdq zmm0 (accessedAt 0x240),
    .vmovntdq zmm0 (accessedAt 0x280), .vmovntdq zmm0 (accessedAt 0x2c0),
    .vmovntdq zmm0 (accessedAt 0x300), .vmovntdq zmm0 (accessedAt 0x340),
    .vmovntdq zmm0 (accessedAt 0x380), .vmovntdq zmm0 (accessedAt 0x3c0),
    .add (.value 0x400) .r10]

def SIZEBTSTFLUSH_128_AVX512 : List Instr :=
  [.vmovdqa64 zmm0 (accessedAt 0x0), .clwb (accessedAt 0x0),
    .vmovdqa64 zmm0 (accessedAt 0x40), .clwb (accessedAt 0x40),
    .add (.value 0x80) .r10]

def SIZEBTSTFLUSH_256_AVX512 : List Instr :=
  [.vmovdqa64 zmm0 (accessedAt 0x0), .clwb (accessedAt 0x0),
    .vmovdqa64 zmm0 (accessedAt 0x40), .clwb (accessedAt 0x40),
    .vmovdqa64 zmm0 (accessedAt 0x80), .clwb (accessedAt 0x80),
    .vmovdqa64 zmm0 (accessedAt 0xc0), .clwb (accessedAt 0xc0),
    .add (.value 0x100) .r10]

def SIZEBTSTFLUSH_1024_AVX512 : List Instr :=
  [.vmovdqa64 zmm0 (accessedAt 0x0), .clwb (accessedAt 0x0),
    .vmovdqa64 zmm0 (accessedAt 0x40), .clwb (accessedAt 0x40),
    .vmovdqa64 zmm0 (accessedAt 0x80), .clwb (accessedAt 0x80),
    .vmovdqa64 zmm0 (accessedAt 0xc0), .clwb (accessedAt 0xc0),
    .vmovdqa64 zmm0 (accessedAt 0x100), .clwb (accessedAt 0x100),
    .vmovdqa64 zmm0 (accessedAt 0x140), .clwb (accessedAt 0x140),
    .vmovdqa64 zmm0 (accessedAt 0x180), .clwb (accessedAt 0x180),
    .vmovdqa64 zmm0 (accessedAt 0x1c0), .clwb (accessedAt 0x1c0),
    .vmovdqa64 zmm0 (accessedAt 0x200), .clwb (accessedAt 0x200),
    .vmovdqa64 zmm0 (accessedAt 0x240), .clwb (accessedAt 0x240),
    .vmovdqa64 zmm0 (accessedAt 0x280), .clwb (accessedAt 0x280),
    .vmovdqa64 zmm0 (accessedAt 0x2c0), .clwb (accessedAt 0x2c0),
    .vmovdqa64 zmm0 (accessedAt 0x300), .clwb (accessedAt 0x300),
    .vmovdqa64 zmm0 (accessedAt 0x340), .clwb (accessedAt 0x340),
    .vmovdqa64 zmm0 (accessedAt 0x380), .clwb (accessedAt 0x380),
    .vmovdqa64 zmm0 (accessedAt 0x3c0), .clwb (accessedAt 0x3c0),
    .add (.value 0x400) .r10]

def SIZEBTST_128_AVX512 : List Instr :=
  [.vmovdqa64 zmm0 (accessedAt 0x0), .vmovdqa64 zmm0 (accessedAt 0x40),
    .add (.value 0x80) .r10]

def SIZEBTST_256_AVX512 : List Instr :=
  [.vmovdqa64 zmm0 (accessedAt 0x0), .vmovdqa64 zmm0 (accessedAt 0x40),
    .vmovdqa64 zmm0 (accessedAt 0x80), .vmovdqa64 zmm0 (accessedAt 0xc0),
    .add (.value 0x100) .r10]

def SIZEBTST_1024_AVX512 : List Instr :=
  [.vmovdqa64 zmm0 (accessedAt 0x0), .vmovdqa64 zmm0 (accessedAt 0x40),
    .vmovdqa64 zmm0 (accessedAt 0x80), .vmovdqa64 zmm0 (accessedAt 0xc0),
    .vmovdqa64 zmm0 (accessedAt 0x100), .vmovdqa64 zmm0 (accessedAt 0x140),
    .vmovdqa64 zmm0 (accessedAt 0x180), .vmovdqa64 zmm0 (accessedAt 0x1c0),
    .vmovdqa64 zmm0 (accessedAt 0x200), .vmovdqa64 zmm0 (accessedAt 0x240),
    .vmovdqa64 zmm0 (accessedAt 0x280), .vmovdqa64 zmm0 (accessedAt 0x2c0),
    .vmovdqa64 zmm0 (accessedAt 0x300), .vmovdqa64 zmm0 (accessedAt 0x340),
    .vmovdqa64 zmm0 (accessedAt 0x380), .vmovdqa64 zmm0 (accessedAt 0x3c0),
    .add (.value 0x400) .r10]

def SIZEBTLD_128_AVX512 : List Instr :=
  [.vmovntdqa (accessedAt 0x0) zmm0, .vmovntdqa (accessedAt 0x40) (zmm 1),
    .add (.value 0x80) .r10]

def SIZEBTLD_256_AVX512 : List Instr :=
  [.vmovntdqa (accessedAt 0x0) zmm0, .vmovntdqa (accessedAt 0x40) (zmm 1),
    .vmovntdqa (accessedAt 0x80) (zmm 2), .vmovntdqa (accessedAt 0xc0) (zmm 3),
    .add (.value 0x100) .r10]

def SIZEBTLD_1024_AVX512 : List Instr :=
  [.vmovntdqa (accessedAt 0x0) zmm0, .vmovntdqa (accessedAt 0x40) (zmm 1),
    .vmovntdqa (accessedAt 0x80) (zmm 2), .vmovntdqa (accessedAt 0xc0) (zmm 3),
    .vmovntdqa (accessedAt 0x100) (zmm 4), .vmovntdqa (accessedAt 0x140) (zmm 5),
    .vmovntdqa (accessedAt 0x180) (zmm 6), .vmovntdqa (accessedAt 0x1c0) (zmm 7),
    .vmovntdqa (accessedAt 0x200) (zmm 8), .vmovntdqa (accessedAt 0x240) (zmm 9),
    .vmovntdqa (accessedAt 0x280) (zmm 10), .vmovntdqa (accessedAt 0x2c0) (zmm 11),
    .vmovntdqa (accessedAt 0x300) (zmm 12), .vmovntdqa (accessedAt 0x340) (zmm 13),
    .vmovntdqa (accessedAt 0x380) (zmm 14), .vmovntdqa (accessedAt 0x3c0) (zmm 15),
    .add (.value 0x400) .r10]

inductive SizeBt where
  | nt | stflush | st | ld
deriving DecidableEq, Repr

inductive Width where
  | bytes128 | bytes256 | bytes512 | bytes1024
deriving DecidableEq, Repr

def Width.lines : Width → Nat
  | .bytes128 => 2
  | .bytes256 => 4
  | .bytes512 => 8
  | .bytes1024 => 16

def Width.bytes (width : Width) : Nat := 64 * width.lines

namespace SizeBt

def single : SizeBt → List Instr
  | .nt => SIZEBTNT_64_AVX512
  | .stflush => SIZEBTSTFLUSH_64_AVX512
  | .st => SIZEBTST_64_AVX512
  | .ld => SIZEBTLD_64_AVX512

def unrolled : SizeBt → Width → List Instr
  | .nt, .bytes128 => SIZEBTNT_128_AVX512
  | .nt, .bytes256 => SIZEBTNT_256_AVX512
  | .nt, .bytes512 => SIZEBTNT_512_AVX512
  | .nt, .bytes1024 => SIZEBTNT_1024_AVX512
  | .stflush, .bytes128 => SIZEBTSTFLUSH_128_AVX512
  | .stflush, .bytes256 => SIZEBTSTFLUSH_256_AVX512
  | .stflush, .bytes512 => SIZEBTSTFLUSH_512_AVX512
  | .stflush, .bytes1024 => SIZEBTSTFLUSH_1024_AVX512
  | .st, .bytes128 => SIZEBTST_128_AVX512
  | .st, .bytes256 => SIZEBTST_256_AVX512
  | .st, .bytes512 => SIZEBTST_512_AVX512
  | .st, .bytes1024 => SIZEBTST_1024_AVX512
  | .ld, .bytes128 => SIZEBTLD_128_AVX512
  | .ld, .bytes256 => SIZEBTLD_256_AVX512
  | .ld, .bytes512 => SIZEBTLD_512_AVX512
  | .ld, .bytes1024 => SIZEBTLD_1024_AVX512

/-- The accesses to one line. -/
def events (line : Word) : SizeBt → List Event
  | .nt => [.ntStore line]
  | .stflush => [.store line 64, .clwb line]
  | .st => [.store line 64]
  | .ld => [.ntLoad line]

theorem sweeps_single (family : SizeBt) : Sweeps family.single 1 fun line => family.events line := by
  cases family with
  | nt => exact sweeps_lines 1 (fun _ => atLine_nt) (by omega)
  | stflush => exact sweeps_lines 1 (fun _ => atLine_storeclwb) (by omega)
  | st => exact sweeps_lines 1 (fun _ => atLine_store) (by omega)
  | ld => exact sweeps_lines 1 (fun j => atLine_load (zmm j)) (by omega)

/-- Every displacement and every increment is as in a list of consecutive lines. -/
theorem sweeps_unrolled (family : SizeBt) (width : Width) :
    Sweeps (family.unrolled width) width.lines fun line => family.events line := by
  have short : 64 * width.lines < 2 ^ 64 := by
    cases width <;> decide
  cases family with
  | nt => cases width <;> exact sweeps_lines _ (fun _ => atLine_nt) short
  | stflush => cases width <;> exact sweeps_lines _ (fun _ => atLine_storeclwb) short
  | st => cases width <;> exact sweeps_lines _ (fun _ => atLine_store) short
  | ld => cases width <;> exact sweeps_lines _ (fun j => atLine_load (zmm j)) short

end SizeBt

/-- The inner loop: the counter cleared, then the macro until `size` bytes are accessed. -/
def accessLoop (access : List Instr) (size : Word) : Code :=
  .sequence [.block [.xor .r10 .r10], .loop (.block access) (.value size) .r10]

/-- The next multiple of `width`, as a `long`. -/
def roundUp (size : Word) (width : Nat) : Word := BitVec.ofNat 64 ((size.toNat + (width - 1)) / width * width)

section Loops

variable {access : List Instr} {events : Word → List Event} {size : Word} {lines width : Nat} {before after : State}

theorem accessLoop_ends (size : Word) (before : State) (sweeps : Sweeps access lines events) (positive : 0 < lines)
    (divides : 64 * lines ∣ 2 ^ 63) (small : 64 * lines < 2 ^ 63) :
    EndsIff (accessLoop access size) before (size.toInt + (64 * lines : Nat) ≤ 2 ^ 63) fun after =>
      after.data.trace = before.data.trace ++ (List.range (lines * turns size (64 * lines))).flatMap
        fun j => events (before.gpr .r9 + BitVec.ofNat 64 (64 * j)) where
  needs ran := by
    obtain ⟨cleared, atStart, swept, ran, _⟩ := ran
    by_contra far
    cases atStart
    exact sweep_loop_diverges sweeps divides (by omega) (BitVec.xor_self ..) ran
  ends room := by
    have zero : (runBlock [.xor .r10 .r10] before).gpr .r10 = 0 := BitVec.xor_self ..
    obtain ⟨after, ran, _, traced, _⟩ := exec_sweep_loop sweeps positive small room zero
    exact ⟨after, ⟨_, exec_block, after, ran, rfl⟩, traced⟩

/-- Rounded up, the size has room for its last unrolled turn, and takes as many lines. -/
theorem roundUp_turns (sized : 1 ≤ size.toInt) (positive : 0 < lines)
    (divides : 64 * lines ∣ 2 ^ 63) (room : size.toInt + (64 * lines : Nat) ≤ 2 ^ 63) :
    (roundUp size (64 * lines)).toInt + 64 ≤ 2 ^ 63 ∧
      turns (roundUp size (64 * lines)) 64 = lines * turns size (64 * lines) := by
  have wide : 0 < 64 * lines := by omega
  have value := Word.toNat_eq_toInt (Int.le_trans Int.one_nonneg sized)
  have count := turns_positive sized wide
  obtain ⟨most, half⟩ := divides
  have some_turn : 0 < turns size (64 * lines) := turns_pos
  have reach : turns size (64 * lines) * (64 * lines) < most * (64 * lines) := by
    have total := Nat.div_mul_le_self (size.toNat + (64 * lines - 1)) (64 * lines)
    rw [← count, Nat.mul_comm most, ← half] at *
    omega
  -- The rounded size and 2^63 are multiples of the width, so one more turn lies between them.
  have below : (turns size (64 * lines) + 1) * (64 * lines) ≤ 2 ^ 63 := by
    rw [half, Nat.mul_comm (64 * lines)]
    exact Nat.mul_le_mul_right _ (Nat.lt_of_mul_lt_mul_right reach)
  rw [Nat.succ_mul] at below
  have least : 64 * lines ≤ turns size (64 * lines) * (64 * lines) := Nat.le_mul_of_pos_left _ some_turn
  have rounded : (roundUp size (64 * lines)).toNat = turns size (64 * lines) * (64 * lines) := by
    rw [roundUp, ← count, BitVec.toNat_ofNat, Nat.mod_eq_of_lt (by omega)]
  have signed : (roundUp size (64 * lines)).toInt = (turns size (64 * lines) * (64 * lines) : Nat) := by
    rw [BitVec.toInt_eq_toNat_of_lt (by omega), rounded]
  refine ⟨by omega, ?_⟩
  rw [turns_positive (by omega) (by decide), rounded, Nat.mul_left_comm, Nat.mul_add_div (by decide),
    Nat.div_eq_of_lt (by decide), Nat.add_zero, Nat.mul_comm]

/-- A multiple is its own. -/
theorem roundUp_eq (positive : 0 < width) (divides : width ∣ size.toNat) : roundUp size width = size := by
  obtain ⟨count, total⟩ := divides
  rw [roundUp, total, Nat.mul_add_div positive, Nat.div_eq_of_lt (Nat.sub_lt positive Nat.one_pos), Nat.add_zero,
    Nat.mul_comm, ← total, BitVec.ofNat_toNat, BitVec.setWidth_eq]

end Loops

theorem Width.positive (width : Width) : 0 < width.lines := by
  cases width <;> decide

theorem Width.divides (width : Width) : 64 * width.lines ∣ 2 ^ 63 := by
  cases width <;> decide

theorem Width.small (width : Width) : 64 * width.lines < 2 ^ 63 := by
  cases width <;> decide

/-- An unrolled loop ends unless its counter leaves the range of `long`, and then
accesses what the plain loop does for the size rounded up.  On the machine both
end where these accesses are `AllFaultless`: from an aligned address in `%r9`, with
canonical lines. -/
theorem unrolled_refines (family : SizeBt) (width : Width) (size : Word) (sized : 1 ≤ size.toInt) (before : State) :
    ((∃ after, Exec (accessLoop (family.unrolled width) size) before after) ↔
      size.toInt + width.bytes ≤ 2 ^ 63) ∧
    (size.toInt + width.bytes ≤ 2 ^ 63 → ∃ after after' trace,
      Exec (accessLoop (family.unrolled width) size) before after ∧
      Exec (accessLoop family.single (roundUp size width.bytes)) before after' ∧
      after.data.trace = before.data.trace ++ trace ∧ after'.data.trace = before.data.trace ++ trace ∧
      trace = (List.range ((size.toNat + (width.bytes - 1)) / width.bytes * width.lines)).flatMap
        fun j => family.events (before.gpr .r9 + BitVec.ofNat 64 (64 * j))) ∧
    (width.bytes ∣ size.toNat → roundUp size width.bytes = size) := by
  have wide : 0 < width.bytes := Nat.mul_pos (by decide) width.positive
  have unrolled := accessLoop_ends size before (family.sweeps_unrolled width) width.positive width.divides width.small
  refine ⟨unrolled.ends_iff, fun room => ?_, roundUp_eq wide⟩
  obtain ⟨after, ran, traced⟩ := unrolled.ends room
  obtain ⟨roomSingle, sameTurns⟩ := roundUp_turns sized width.positive width.divides room
  have single := accessLoop_ends (roundUp size (64 * width.lines)) before family.sweeps_single Nat.one_pos
    (by decide) (by decide)
  obtain ⟨after', ran', traced'⟩ := single.ends roomSingle
  refine ⟨after, after', _, ran, ran', traced, ?_, ?_⟩
  · rw [traced', Nat.one_mul, ← sameTurns]
  · rw [turns_positive sized (Nat.mul_pos (by decide) width.positive), Nat.mul_comm width.lines]
    rfl

theorem unrolled_refines_hundred : ∃ after after', Exec (accessLoop SIZEBTST_256_AVX512 100) .blank after ∧
    Exec (accessLoop SIZEBTST_64_AVX512 256) .blank after' ∧ after.data.trace = after'.data.trace := by
  obtain ⟨after, after', trace, ran, ran', traced, traced', _⟩ :=
    (unrolled_refines .st .bytes256 100 (by decide) .blank).2.1 (by decide)
  exact ⟨after, after', ran, ran', traced.trans traced'.symm⟩

/-- The largest `long` rounds up to a negative one. -/
theorem unrolled_unending : (∃ after, Exec (accessLoop SIZEBTNT_64_AVX512 (roundUp 0x7fffffffffffffff 128)) .blank after) ∧
    ¬ ∃ after, Exec (accessLoop SIZEBTNT_128_AVX512 0x7fffffffffffffff) .blank after := by
  apply And.intro
  · have plain := accessLoop_ends (roundUp 0x7fffffffffffffff 128) .blank SizeBt.nt.sweeps_single
      (by decide) (by decide) (by decide)
    exact plain.ends_iff.mpr (by decide)
  · intro ends
    have unrolled := accessLoop_ends 0x7fffffffffffffff .blank (SizeBt.nt.sweeps_unrolled .bytes128)
      (by decide) (by decide) (by decide)
    exact absurd (unrolled.ends_iff.mp ends) (by decide)

end RwSep.MemAccess
