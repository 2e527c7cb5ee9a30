import Mathlib.Data.BitVec
import Mathlib.Data.FinEnum
import Mathlib.Data.Fintype.BigOperators
import Mathlib.Data.Nat.Prime.Basic
import Mathlib.Dynamics.PeriodicPts.Defs

namespace RwSep.Data.ShiftRegister

/-! Shift registers with linear feedback, of any width.

A word stands for a polynomial over the field of two elements, bit `i` for the
coefficient of degree `i`, and `times f` multiplies by the indeterminate
modulo the polynomial of degree `w` whose lower coefficients are `f`.  The
register itself shifts the other way.  When the indeterminate has
order `2 ^ w - 1`, which a certificate for each prime divisor shows, the register
runs through all nonzero words.
-/

variable {w : Nat}

def times (f s : BitVec w) : BitVec w := (s <<< 1) ^^^ (if s.msb then f else 0)

/-- The product of `s` and the lowest `n` coefficients of `q`. -/
def actLow (f : BitVec w) : Nat → BitVec w → BitVec w → BitVec w
  | 0, _, _ => 0
  | n + 1, q, s => times f (actLow f n (q >>> 1) s) ^^^ (if q.getLsbD 0 then s else 0)

def act (f q s : BitVec w) : BitVec w := actLow f w q s

/-- The power of the indeterminate, by squaring; `fuel` bounds the length of the exponent. -/
def power (f : BitVec w) : Nat → Nat → BitVec w
  | 0, _ => 1
  | fuel + 1, n =>
      let half := power f fuel (n / 2)
      if n % 2 = 1 then times f (act f half half) else act f half half

/-- The register: bit 0 leaves, and decides whether the mask is added. -/
def shift (mask s : BitVec w) : BitVec w := (s >>> 1) ^^^ (if s.getLsbD 0 then mask else 0)

/-! # Linear maps -/

section Linear

variable (f : BitVec w) (n : Nat) (q r s t : BitVec w)

theorem gate_xor (bit : Bool) : (if bit then s ^^^ t else 0) = (if bit then s else 0) ^^^ (if bit then t else 0) := by
  cases bit <;> simp

theorem gate_add (left right : Bool) :
    (if left ^^ right then s else 0) = (if left then s else 0) ^^^ (if right then s else 0) := by
  cases left <;> cases right <;> simp

theorem times_zero : times f 0 = 0 := by simp [times]

theorem times_xor : times f (s ^^^ t) = times f s ^^^ times f t := by
  rw [times, times, times, BitVec.shiftLeft_xor_distrib, BitVec.msb_xor, gate_add]
  ac_rfl

theorem times_gate (bit : Bool) : times f (if bit then s else 0) = if bit then times f s else 0 := by
  cases bit
  · exact times_zero f
  · rfl

theorem actLow_xor_right : actLow f n q (s ^^^ t) = actLow f n q s ^^^ actLow f n q t := by
  induction n generalizing q with
  | zero => simp [actLow]
  | succ n ih =>
      rw [actLow, actLow, actLow, ih, times_xor, gate_xor]
      ac_rfl

theorem actLow_xor_left : actLow f n (q ^^^ r) s = actLow f n q s ^^^ actLow f n r s := by
  induction n generalizing q r with
  | zero => simp [actLow]
  | succ n ih =>
      rw [actLow, actLow, actLow, BitVec.ushiftRight_xor_distrib, ih, times_xor, BitVec.getLsbD_xor, gate_add]
      ac_rfl

theorem actLow_times : actLow f n q (times f s) = times f (actLow f n q s) := by
  induction n generalizing q with
  | zero => exact (times_zero f).symm
  | succ n ih => rw [actLow, actLow, ih, times_xor, times_gate]

theorem act_xor_left : act f (q ^^^ r) s = act f q s ^^^ act f r s := actLow_xor_left f w q r s

theorem act_times : act f q (times f s) = times f (act f q s) := actLow_times f w q s

theorem act_zero : act f q 0 = 0 := by
  have doubled := actLow_xor_right f w q 0 0
  simpa [act] using doubled

theorem act_gate (bit : Bool) : act f q (if bit then s else 0) = if bit then act f q s else 0 := by
  cases bit
  · exact act_zero f q
  · rfl

theorem actLow_act : actLow f n q (act f r s) = act f r (actLow f n q s) := by
  induction n generalizing q with
  | zero => exact (act_zero f r).symm
  | succ n ih =>
      have split := actLow_xor_right f w r (times f (actLow f n (q >>> 1) s)) (if q.getLsbD 0 then s else 0)
      rw [actLow, actLow, ih]
      exact (congrArg₂ (· ^^^ ·) (act_times f r _).symm (act_gate f r s _).symm).trans split.symm

variable {n q} in
/-- A product with 1 of coefficients that need no reduction. -/
theorem actLow_one (fits : n ≤ w) (i : Nat) :
    (actLow f n q 1).getLsbD i = (decide (i < n) && q.getLsbD i) := by
  induction n generalizing q i with
  | zero => simp [actLow]
  | succ n ih =>
      have short : (actLow f n (q >>> 1) 1).msb = false := by
        rw [BitVec.msb_eq_getLsbD_last, ih (by omega)]
        simp
        omega
      have one : (if q.getLsbD 0 then (1 : BitVec w) else 0).getLsbD i = (decide (i = 0) && q.getLsbD 0) := by
        cases q.getLsbD 0
        · simp
        · have positive : 0 < w := by omega
          simp [BitVec.getLsbD_one, positive]
      rw [actLow, times, short, BitVec.getLsbD_xor, BitVec.getLsbD_xor, BitVec.getLsbD_shiftLeft, ih (by omega), one]
      rcases Nat.eq_zero_or_pos i with rfl | later
      · simp
      · have position : 1 + (i - 1) = i := by omega
        have apart : i ≠ 0 := by omega
        have bounds : (decide (i < w) && decide (i - 1 < n)) = decide (i < n + 1) := by
          rw [← Bool.decide_and]
          exact decide_eq_decide.mpr (by omega)
        simp only [Bool.false_eq_true, if_false, Bool.bne_false, apart, decide_false,
          Bool.false_and, BitVec.getLsbD_ushiftRight, position, ← bounds]
        simp [show ¬ i < 1 by omega, Bool.and_assoc]

theorem act_one : act f q 1 = q := by
  apply BitVec.eq_of_getLsbD_eq
  intro i bound
  rw [act, actLow_one f (Nat.le_refl w)]
  simp [bound]

theorem act_comm : act f q r = act f r q := by
  calc act f q r = act f q (act f r 1) := by rw [act_one]
    _ = act f r (act f q 1) := actLow_act f w q r 1
    _ = act f r q := by rw [act_one]

theorem act_assoc : act f (act f q r) s = act f q (act f r s) := by
  rw [act_comm f (act f q r) s, act_comm f r s]
  exact (actLow_act f w q s r).symm

theorem one_act : act f 1 s = s := by rw [act_comm, act_one]

end Linear

/-! # Powers of the indeterminate -/

section Powers

variable (f : BitVec w)

theorem iterate_times (n : Nat) (s : BitVec w) : (times f)^[n] s = act f ((times f)^[n] 1) s := by
  induction n with
  | zero => exact (one_act f s).symm
  | succ n ih =>
      rw [Function.iterate_succ_apply', ih, Function.iterate_succ_apply', act_comm f (times f _), act_times,
        act_comm f s]

theorem power_eq {fuel n : Nat} (short : n < 2 ^ fuel) : power f fuel n = (times f)^[n] 1 := by
  induction fuel generalizing n with
  | zero =>
      have zero : n = 0 := by omega
      rw [zero]
      rfl
  | succ fuel ih =>
      have square : act f (power f fuel (n / 2)) (power f fuel (n / 2)) = (times f)^[n / 2 + n / 2] 1 := by
        rw [ih (by omega), Function.iterate_add_apply, iterate_times f (n / 2) ((times f)^[n / 2] 1)]
      rw [power]
      simp only [square]
      split
      · rw [← Function.iterate_succ_apply' (times f), show (n / 2 + n / 2).succ = n by omega]
      · rw [show n / 2 + n / 2 = n by omega]

/-- The order of the indeterminate is a divisor of `2 ^ w - 1`, and for no
prime divisor `p` of it a divisor of `(2 ^ w - 1) / p`, in a strong sense. -/
structure Primitive : Prop where
  full : (times f)^[2 ^ w - 1] 1 = 1
  proper : ∀ p, p.Prime → p ∣ 2 ^ w - 1 → ∃ u, act f u ((times f)^[(2 ^ w - 1) / p] 1 ^^^ 1) = 1

end Powers

theorem minimalPeriod_eq_of_prime_divisors {α : Type} {g : α → α} {x : α} {n : Nat}
    (periodic : Function.IsPeriodicPt g n x)
    (proper : ∀ p, p.Prime → p ∣ n → ¬ Function.IsPeriodicPt g (n / p) x) : Function.minimalPeriod g x = n := by
  obtain ⟨k, factored⟩ := periodic.minimalPeriod_dvd
  by_contra different
  have nontrivial : k ≠ 1 := fun one => different (by rw [factored, one, Nat.mul_one])
  obtain ⟨j, cofactor⟩ := k.minFac_dvd
  have prime := Nat.minFac_prime nontrivial
  refine proper k.minFac prime ⟨Function.minimalPeriod g x * j, ?_⟩ ?_
  · rw [factored]
    nth_rewrite 1 [cofactor]
    rw [Nat.mul_left_comm]
  · have quotient : n / k.minFac = Function.minimalPeriod g x * j := by
      rw [factored]
      nth_rewrite 1 [cofactor]
      rw [Nat.mul_left_comm, Nat.mul_div_cancel_left _ prime.pos]
    rw [quotient]
    exact (Function.isPeriodicPt_minimalPeriod g x).mul_const j

theorem Primitive.period {f s : BitVec w} (primitive : Primitive f) (nonzero : s ≠ 0) :
    Function.minimalPeriod (times f) s = 2 ^ w - 1 := by
  apply minimalPeriod_eq_of_prime_divisors
  · rw [Function.IsPeriodicPt, Function.IsFixedPt, iterate_times, primitive.full, one_act]
  · intro p prime divides periodic
    obtain ⟨u, inverse⟩ := primitive.proper p prime divides
    rw [Function.IsPeriodicPt, Function.IsFixedPt, iterate_times] at periodic
    -- The difference of the two actions on `s` is zero, and `u` undoes it.
    have zero : act f ((times f)^[(2 ^ w - 1) / p] 1 ^^^ 1) s = 0 := by
      rw [act_xor_left, periodic, one_act, BitVec.xor_self]
      rfl
    apply nonzero
    rw [← one_act f s, ← inverse, act_assoc, zero, act_zero]

/-! # The register -/

section Shift

variable {mask s : BitVec w}

theorem times_shift (top : mask.msb = true) : times ((mask <<< 1) ^^^ 1) (shift mask s) = s := by
  have wide : 0 < w := by
    by_contra narrow
    rw [BitVec.msb_eq_getLsbD_last, BitVec.getLsbD_of_ge mask _ (by omega)] at top
    contradiction
  have high : (s >>> 1).msb = false := by
    rw [BitVec.msb_eq_getLsbD_last, BitVec.getLsbD_ushiftRight]
    exact BitVec.getLsbD_of_ge s _ (by omega)
  apply BitVec.eq_of_getLsbD_eq
  intro i bound
  rw [times, shift, BitVec.msb_xor, high]
  cases low : s.getLsbD 0 with
  | false =>
      rcases Nat.eq_zero_or_pos i with rfl | later
      · simp [low]
      · simp [show 1 + (i - 1) = i by omega, bound, show ¬ i < 1 by omega]
  | true =>
      rcases Nat.eq_zero_or_pos i with rfl | later
      · simp [low, top, wide]
      · simp [show 1 + (i - 1) = i by omega, bound, show ¬ i < 1 by omega, top, show i ≠ 0 by omega]

theorem shift_zero : shift mask 0 = 0 := by simp [shift]

end Shift

section Orbit

variable {mask s : BitVec w}

theorem card_words : Fintype.card (BitVec w) = 2 ^ w := FinEnum.card_eq_fintypeCard.symm

theorem shift_left_inverse (top : mask.msb = true) :
    Function.LeftInverse (times ((mask <<< 1) ^^^ 1)) (shift mask) := fun _ => times_shift top

theorem shift_ne_zero (top : mask.msb = true) (nonzero : s ≠ 0) : shift mask s ≠ 0 := by
  intro zero
  exact nonzero ((shift_left_inverse top).injective (zero.trans shift_zero.symm))

theorem iterate_shift_ne_zero (top : mask.msb = true) (nonzero : s ≠ 0) (n : Nat) : (shift mask)^[n] s ≠ 0 := by
  induction n with
  | zero => exact nonzero
  | succ n ih =>
      rw [Function.iterate_succ_apply']
      exact shift_ne_zero top ih

/-- The register runs through its states in the opposite order of the powers. -/
theorem shift_period (top : mask.msb = true) (s : BitVec w) :
    Function.minimalPeriod (shift mask) s = Function.minimalPeriod (times ((mask <<< 1) ^^^ 1)) s := by
  have inverse := shift_left_inverse top
  have inverse' : Function.LeftInverse (shift mask) (times ((mask <<< 1) ^^^ 1)) :=
    inverse.rightInverse_of_surjective (Finite.surjective_of_injective inverse.injective)
  apply Function.minimalPeriod_eq_minimalPeriod_iff.mpr
  intro n
  apply Iff.intro
  · intro periodic
    have back := inverse.iterate n s
    rwa [periodic] at back
  · intro periodic
    have back := inverse'.iterate n s
    rwa [periodic] at back

theorem orbit_injective {g : BitVec w → BitVec w} (period : Function.minimalPeriod g s = 2 ^ w - 1) :
    Set.InjOn (g^[·] s) (Finset.range (2 ^ w - 1)) := by
  rw [← period, Finset.coe_range]
  exact Function.iterate_injOn_Iio_minimalPeriod

/-- An orbit as long as there are nonzero words meets each of them once. -/
theorem orbit_nonzero {g : BitVec w → BitVec w} (period : Function.minimalPeriod g s = 2 ^ w - 1)
    (nonzero : ∀ n, g^[n] s ≠ 0) :
    (Finset.range (2 ^ w - 1)).image (g^[·] s) = Finset.univ.erase 0 := by
  apply Finset.eq_of_subset_of_card_le
  · intro word member
    obtain ⟨n, _, rfl⟩ := Finset.mem_image.mp member
    exact Finset.mem_erase.mpr ⟨nonzero n, Finset.mem_univ _⟩
  · rw [Finset.card_erase_of_mem (Finset.mem_univ _), Finset.card_univ, card_words,
      Finset.card_image_of_injOn (orbit_injective period), Finset.card_range]

end Orbit

/-! # Masked words -/

section Masked

variable {mask offset s : BitVec w}

def setBits (mask : BitVec w) : Nat := (Finset.univ.filter fun i : Fin w => mask.getLsbD i = true).card

noncomputable def bitsEquiv : BitVec w ≃ (Fin w → Bool) :=
  Equiv.ofBijective (fun word i => word.getLsbD i) <| by
    apply (Fintype.bijective_iff_injective_and_card _).mpr
    apply And.intro
    · intro left right same
      apply BitVec.eq_of_getLsbD_eq
      intro i bound
      exact congrFun same ⟨i, bound⟩
    · rw [card_words, Fintype.card_fun, Fintype.card_bool, Fintype.card_fin]

/-- Every offset that a mask leaves unchanged is the masked value of a word for each choice of the other bits. -/
theorem card_masked (valid : offset &&& mask = offset) :
    (Finset.univ.filter fun word : BitVec w => word &&& mask = offset).card = 2 ^ (w - setBits mask) := by
  have chosen : ∀ word : BitVec w, word ∈ (Finset.univ.filter fun word : BitVec w => word &&& mask = offset) ↔
      bitsEquiv word ∈ Fintype.piFinset fun i : Fin w =>
        if mask.getLsbD i = true then {offset.getLsbD i} else Finset.univ := by
    intro word
    rw [Finset.mem_filter, Fintype.mem_piFinset]
    apply Iff.intro
    · intro found i
      have bit := congrArg (BitVec.getLsbD · i) found.2
      simp only [BitVec.getLsbD_and] at bit
      split
      · rename_i kept
        rw [kept, Bool.and_true] at bit
        exact Finset.mem_singleton.mpr bit
      · exact Finset.mem_univ _
    · intro found
      refine ⟨Finset.mem_univ _, BitVec.eq_of_getLsbD_eq fun i bound => ?_⟩
      have bit := found ⟨i, bound⟩
      rw [← valid, BitVec.getLsbD_and, BitVec.getLsbD_and]
      cases kept : mask.getLsbD i with
      | false => simp
      | true =>
          rw [if_pos kept] at bit
          exact congrArg (· && true) (Finset.mem_singleton.mp bit)
  have choices : ∀ i : Fin w, (if mask.getLsbD i = true then {offset.getLsbD i} else Finset.univ : Finset Bool).card =
      if mask.getLsbD i = true then 1 else 2 := by
    intro i
    split
    · exact Finset.card_singleton _
    · rfl
  have unset : (Finset.univ.filter fun i : Fin w => ¬ mask.getLsbD i = true).card = w - setBits mask := by
    have all := Finset.card_filter_add_card_filter_not (s := (Finset.univ : Finset (Fin w)))
      fun i : Fin w => mask.getLsbD i = true
    rw [Finset.card_univ, Fintype.card_fin] at all
    rw [setBits]
    omega
  rw [Finset.card_equiv bitsEquiv chosen, Fintype.card_piFinset, Finset.prod_congr rfl fun i _ => choices i,
    Finset.prod_ite, Finset.prod_const, Finset.prod_const, Nat.one_pow, Nat.one_mul, unset]

/-- How often an offset occurs among the masked states of an orbit through all nonzero words. -/
theorem card_orbit_masked {g : BitVec w → BitVec w} (period : Function.minimalPeriod g s = 2 ^ w - 1)
    (nonzero : ∀ n, g^[n] s ≠ 0) (valid : offset &&& mask = offset) :
    ((Finset.range (2 ^ w - 1)).filter fun n => g^[n] s &&& mask = offset).card =
      if offset = 0 then 2 ^ (w - setBits mask) - 1 else 2 ^ (w - setBits mask) := by
  have injective := orbit_injective period
  have visited : ((Finset.range (2 ^ w - 1)).filter fun n => g^[n] s &&& mask = offset).card =
      ((Finset.univ.filter fun word : BitVec w => word &&& mask = offset).erase 0).card := by
    rw [← Finset.card_image_of_injOn (injective.mono (Finset.coe_subset.mpr (Finset.filter_subset _ _))),
      ← Finset.filter_image (p := fun word => word &&& mask = offset), orbit_nonzero period nonzero, Finset.filter_erase]
  rw [visited]
  split
  · rename_i zero
    rw [Finset.card_erase_of_mem, card_masked valid]
    simp [zero]
  · rename_i other
    rw [Finset.erase_eq_of_notMem, card_masked valid]
    intro member
    exact other ((Finset.mem_filter.mp member).2.symm.trans BitVec.zero_and)

end Masked

end RwSep.Data.ShiftRegister
