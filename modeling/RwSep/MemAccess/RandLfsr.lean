import RwSep.Data.ShiftRegister
import RwSep.X86.Code
import Mathlib.Tactic.NormNum.Prime

namespace RwSep.MemAccess

open RwSep.Data RwSep.X86

/-! `RandLFSR64` of memaccess.c, the generator of access offsets.

Its state is a word in memory.  The block computes the next state without a
branch, from the lowest bit turned into a mask of ones or zeros.
-/

/-- `movabs $0xd800000000000000, %%rcx` -/
def lfsrMask : Word := 0xd800000000000000

/-- `(%[...])` on an input that holds an address. -/
def pointer (address : Word) : Address := ⟨0, .value address, .value 0, 1⟩

def RandLFSR64 (random accessMask : Word) : List Instr :=
  [.movLoad (pointer random) .r9, .mov (.reg .r9) .r12, .shr 1 .r9, .andLow 1 .r12, .neg .r12, .and (.reg .rcx) .r12,
    .xor .r9 .r12, .movStore .r12 (pointer random), .mov (.reg .r12) .r8, .and (.value accessMask) .r8]

/-- What the block leaves in `*random`, from what it found in `rcx` and there. -/
def lfsr (rcx state : Word) : Word :=
  (-((state.truncate 32 &&& (1 : BitVec 32)).zeroExtend 64) &&& rcx) ^^^ (state >>> 1)

theorem lfsr_eq_shift (rcx state : Word) : lfsr rcx state = ShiftRegister.shift rcx state := by
  have low : (state.truncate 32 &&& (1 : BitVec 32)).zeroExtend 64 = if state.getLsbD 0 then 1 else 0 := by
    apply BitVec.eq_of_getLsbD_eq
    intro i bound
    cases bit : state.getLsbD 0 <;> rcases Nat.eq_zero_or_pos i with rfl | later <;>
      simp_all [Nat.pos_iff_ne_zero]
  rw [lfsr, low, ShiftRegister.shift, BitVec.xor_comm]
  cases state.getLsbD 0
  · simp
  · exact congrArg (_ ^^^ ·) BitVec.allOnes_and

@[simp] theorem pointer_eval (gpr : Reg → Word) (address : Word) : (pointer address).eval gpr = address := by
  simp [pointer, Address.eval, Operand.eval]

section Block

variable {state : State} {random accessMask : Word}

theorem draw_offset (state : State) : (runBlock (RandLFSR64 random accessMask) state).gpr .r8 =
    lfsr (state.gpr .rcx) (state.data.memory.readWord random) &&& accessMask := by
  rw [RandLFSR64, lfsr]
  simp only [runBlock_cons, runBlock_nil, Instr.step]
  simp only [pointer_eval, Operand.eval, State.record, State.writeWord, State.set, Function.update_self,
    Function.update_of_ne, ne_eq, reduceCtorEq, not_false_eq_true]

theorem draw_data (state : State) : (runBlock (RandLFSR64 random accessMask) state).data =
    { state.data with
      memory := state.data.memory.writeWord random
        (lfsr (state.gpr .rcx) (state.data.memory.readWord random))
      trace := state.data.trace ++ [.load random 8] ++ [.store random 8] } := by
  rw [RandLFSR64, lfsr]
  simp only [runBlock_cons, runBlock_nil, Instr.step]
  simp only [pointer_eval, Operand.eval, State.record, State.writeWord, State.set, Function.update_self,
    Function.update_of_ne, ne_eq, reduceCtorEq, not_false_eq_true]

theorem draw_keeps {reg : Reg} (state : State) (notOffset : reg ≠ .r8) (notShifted : reg ≠ .r9)
    (notState : reg ≠ .r12) : (runBlock (RandLFSR64 random accessMask) state).gpr reg = state.gpr reg := by
  simp only [RandLFSR64, runBlock_cons, runBlock_nil, Instr.step, State.record, State.writeWord, State.set,
    Function.update_of_ne notOffset, Function.update_of_ne notShifted, Function.update_of_ne notState]

/-- Successive draws: the word in memory, and the offset of the last one. -/
theorem draws (loaded : state.gpr .rcx = lfsrMask) (count : Nat) :
    ((runBlock (RandLFSR64 random accessMask))^[count + 1] state).data.memory.readWord random =
        (lfsr lfsrMask)^[count + 1] (state.data.memory.readWord random) ∧
      ((runBlock (RandLFSR64 random accessMask))^[count + 1] state).gpr .r8 =
        (lfsr lfsrMask)^[count + 1] (state.data.memory.readWord random) &&& accessMask := by
  have keeps : ∀ count, ((runBlock (RandLFSR64 random accessMask))^[count] state).gpr .rcx = lfsrMask ∧
      ((runBlock (RandLFSR64 random accessMask))^[count] state).data.memory.readWord random =
        (lfsr lfsrMask)^[count] (state.data.memory.readWord random) := by
    intro count
    induction count with
    | zero => exact ⟨loaded, rfl⟩
    | succ count ih =>
        obtain ⟨mask, word⟩ := ih
        rw [Function.iterate_succ_apply', Function.iterate_succ_apply']
        apply And.intro
        · rw [draw_keeps _ (by decide) (by decide) (by decide), mask]
        · rw [draw_data, mask, word]
          exact Memory.readWord_writeWord
  refine ⟨(keeps (count + 1)).2, ?_⟩
  rw [Function.iterate_succ_apply', Function.iterate_succ_apply', draw_offset, (keeps count).1, (keeps count).2]

end Block

/-! # The period -/

/-- The coefficients below the leading one of the polynomial of the register. -/
def lfsrFeedback : Word := (lfsrMask <<< 1) ^^^ 1

theorem prime_of_dvd_period {p : Nat} (prime : p.Prime) (divides : p ∣ 2 ^ 64 - 1) :
    p = 3 ∨ p = 5 ∨ p = 17 ∨ p = 257 ∨ p = 641 ∨ p = 65537 ∨ p = 6700417 := by
  have factored : 2 ^ 64 - 1 = 3 * (5 * (17 * (257 * (641 * (65537 * 6700417))))) := by norm_num
  rw [factored] at divides
  have equal : ∀ {q : Nat}, q.Prime → p ∣ q → p = q := fun prime' => (Nat.prime_dvd_prime_iff_eq prime prime').mp
  rcases prime.dvd_mul.mp divides with found | divides
  · exact .inl (equal (by norm_num) found)
  rcases prime.dvd_mul.mp divides with found | divides
  · exact .inr (.inl (equal (by norm_num) found))
  rcases prime.dvd_mul.mp divides with found | divides
  · exact .inr (.inr (.inl (equal (by norm_num) found)))
  rcases prime.dvd_mul.mp divides with found | divides
  · exact .inr (.inr (.inr (.inl (equal (by norm_num) found))))
  rcases prime.dvd_mul.mp divides with found | divides
  · exact .inr (.inr (.inr (.inr (.inl (equal (by norm_num) found)))))
  rcases prime.dvd_mul.mp divides with found | found
  · exact .inr (.inr (.inr (.inr (.inr (.inl (equal (by norm_num) found))))))
  · exact .inr (.inr (.inr (.inr (.inr (.inr (equal (by norm_num) found))))))

/-- A word whose product with the difference of a power and 1 is 1, checked by squaring. -/
theorem inverse_of_power {exponent : Nat} {u : Word} (short : exponent < 2 ^ 64)
    (checked : ShiftRegister.act lfsrFeedback u (ShiftRegister.power lfsrFeedback 64 exponent ^^^ 1) = 1) :
    ∃ u, ShiftRegister.act lfsrFeedback u ((ShiftRegister.times lfsrFeedback)^[exponent] 1 ^^^ 1) = 1 :=
  ⟨u, by rwa [← ShiftRegister.power_eq lfsrFeedback short]⟩

theorem lfsr_primitive : ShiftRegister.Primitive lfsrFeedback where
  full := by
    rw [← ShiftRegister.power_eq lfsrFeedback (show 2 ^ 64 - 1 < 2 ^ 64 by norm_num)]
    decide +kernel
  proper p prime divides := by
    have short : (2 ^ 64 - 1) / p < 2 ^ 64 := Nat.lt_of_le_of_lt (Nat.div_le_self _ _) (by norm_num)
    rcases prime_of_dvd_period prime divides with rfl | rfl | rfl | rfl | rfl | rfl | rfl
    · exact inverse_of_power (u := 0xd8444c68aac3023c) short (by decide +kernel)
    · exact inverse_of_power (u := 0x2f324291416e90e3) short (by decide +kernel)
    · exact inverse_of_power (u := 0x468d60fede5d4931) short (by decide +kernel)
    · exact inverse_of_power (u := 0xa7b0a1b095d0cbf3) short (by decide +kernel)
    · exact inverse_of_power (u := 0x45e2310e0e5cbd6f) short (by decide +kernel)
    · exact inverse_of_power (u := 0x69a400f47af8a318) short (by decide +kernel)
    · exact inverse_of_power (u := 0x6f5b8f5cb8029857) short (by decide +kernel)

theorem lfsr_eq : lfsr lfsrMask = ShiftRegister.shift lfsrMask := funext (lfsr_eq_shift lfsrMask)

theorem lfsrMask_msb : lfsrMask.msb = true := by decide

section Period

variable {seed : Word}

theorem lfsr_period (nonzero : seed ≠ 0) : Function.minimalPeriod (lfsr lfsrMask) seed = 2 ^ 64 - 1 := by
  rw [lfsr_eq, ShiftRegister.shift_period lfsrMask_msb]
  exact lfsr_primitive.period nonzero

theorem lfsr_ne_zero (nonzero : seed ≠ 0) (n : Nat) : (lfsr lfsrMask)^[n] seed ≠ 0 := by
  rw [lfsr_eq]
  exact ShiftRegister.iterate_shift_ne_zero lfsrMask_msb nonzero n

theorem lfsr_returns_first (nonzero : seed ≠ 0) :
    IsLeast {n | 1 ≤ n ∧ (lfsr lfsrMask)^[n] seed = seed} (2 ^ 64 - 1) := by
  have period := lfsr_period nonzero
  have back := Function.isPeriodicPt_minimalPeriod (lfsr lfsrMask) seed
  rw [period] at back
  refine ⟨⟨by norm_num, back⟩, fun n found => ?_⟩
  obtain ⟨positive, periodic⟩ := found
  rw [← period]
  exact Function.IsPeriodicPt.minimalPeriod_le positive periodic

theorem lfsr_meets_once (nonzero : seed ≠ 0) {value : Word} (other : value ≠ 0) :
    ∃! n, n < 2 ^ 64 - 1 ∧ (lfsr lfsrMask)^[n] seed = value := by
  have period := lfsr_period nonzero
  have member : value ∈ Finset.univ.erase (0 : Word) := Finset.mem_erase.mpr ⟨other, Finset.mem_univ _⟩
  rw [← ShiftRegister.orbit_nonzero period (lfsr_ne_zero nonzero)] at member
  obtain ⟨n, inRange, met⟩ := Finset.mem_image.mp member
  refine ⟨n, ⟨Finset.mem_range.mp inRange, met⟩, fun other found => ?_⟩
  have inRange' : other ∈ Finset.range (2 ^ 64 - 1) := Finset.mem_range.mpr found.1
  exact ShiftRegister.orbit_injective period inRange' inRange (found.2.trans met.symm)

end Period

/-- From a nonzero seed the block steps through all nonzero words before it
returns, so each offset that a mask lets through comes up as often as there
are words with these bits. -/
theorem randLFSR64_maximal {seed : Word} (nonzero : seed ≠ 0) :
    (∀ (state : State) (random accessMask : Word) (count : Nat), state.gpr .rcx = lfsrMask →
      state.data.memory.readWord random = seed →
      ((runBlock (RandLFSR64 random accessMask))^[count + 1] state).data.memory.readWord random =
          (lfsr lfsrMask)^[count + 1] seed ∧
        ((runBlock (RandLFSR64 random accessMask))^[count + 1] state).gpr .r8 =
          (lfsr lfsrMask)^[count + 1] seed &&& accessMask) ∧
    (∀ n, (lfsr lfsrMask)^[n] seed ≠ 0) ∧
    IsLeast {n | 1 ≤ n ∧ (lfsr lfsrMask)^[n] seed = seed} (2 ^ 64 - 1) ∧
    (∀ value : Word, value ≠ 0 → ∃! n, n < 2 ^ 64 - 1 ∧ (lfsr lfsrMask)^[n] seed = value) ∧
    ∀ accessMask offset : Word, offset &&& accessMask = offset →
      ((Finset.range (2 ^ 64 - 1)).filter fun n => (lfsr lfsrMask)^[n] seed &&& accessMask = offset).card =
        if offset = 0 then 2 ^ (64 - ShiftRegister.setBits accessMask) - 1
        else 2 ^ (64 - ShiftRegister.setBits accessMask) := by
  refine ⟨fun state random accessMask count loaded found => ?_, lfsr_ne_zero nonzero, lfsr_returns_first nonzero,
    fun value other => lfsr_meets_once nonzero other, fun accessMask offset valid => ?_⟩
  · rw [← found]
    exact draws loaded count
  · exact ShiftRegister.card_orbit_masked (lfsr_period nonzero) (lfsr_ne_zero nonzero) valid

theorem randLFSR64_maximal_one : IsLeast {n | 1 ≤ n ∧ (lfsr lfsrMask)^[n] 1 = 1} (2 ^ 64 - 1) :=
  (randLFSR64_maximal (by decide)).2.2.1

end RwSep.MemAccess
