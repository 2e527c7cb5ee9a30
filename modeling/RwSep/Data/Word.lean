import Mathlib.Algebra.Order.Ring.Nat

namespace RwSep.Data

/-! Machine words, their little-endian bytes, and half-open address ranges.

Addresses wrap: a range is the set of addresses whose modular distance from
the base is below the length.  Nothing below assumes that a range stays below
the top of the address space.
-/

abbrev Word := BitVec 64

abbrev Byte := BitVec 8

namespace Word

/-- Byte `lane` of a word, lane 0 being the least significant. -/
def byte (word : Word) (lane : Nat) : Byte := word.extractLsb' (8 * lane) 8

def ofBytes (bytes : Nat → Byte) : Word :=
  BitVec.ofNat 64 <|
    (bytes 0).toNat + (bytes 1).toNat * 2 ^ 8 + (bytes 2).toNat * 2 ^ 16 + (bytes 3).toNat * 2 ^ 24 +
    (bytes 4).toNat * 2 ^ 32 + (bytes 5).toNat * 2 ^ 40 + (bytes 6).toNat * 2 ^ 48 + (bytes 7).toNat * 2 ^ 56

theorem byte_toNat (word : Word) (lane : Nat) :
    (word.byte lane).toNat = word.toNat / 2 ^ (8 * lane) % 256 := by
  simp [byte, BitVec.extractLsb'_toNat, Nat.shiftRight_eq_div_pow]

@[simp] theorem ofBytes_byte (word : Word) : ofBytes word.byte = word := by
  apply BitVec.eq_of_toNat_eq
  have bound := word.isLt
  simp only [ofBytes, byte_toNat, BitVec.toNat_ofNat]
  omega

theorem toNat_eq_toInt {word : Word} (nonneg : 0 ≤ word.toInt) : (word.toNat : Int) = word.toInt := by
  have bound := word.isLt
  rw [BitVec.toInt_eq_toNat_cond] at nonneg ⊢
  split at nonneg <;> omega

theorem offset_distance (base : Word) {offset : Nat} (small : offset < 2 ^ 64) :
    (base + BitVec.ofNat 64 offset - base).toNat = offset := by
  rw [BitVec.add_comm, BitVec.add_sub_cancel, BitVec.toNat_ofNat, Nat.mod_eq_of_lt small]

theorem toInt_offset {base : Word} {offset : Nat} (short : base.toInt + offset < 2 ^ 63) :
    (base + BitVec.ofNat 64 offset).toInt = base.toInt + offset := by
  have lower := BitVec.le_toInt (x := base)
  rw [BitVec.toInt_add, BitVec.toInt_ofNat', Int.add_bmod_bmod, Int.bmod_eq_of_le] <;> omega

theorem ofBytes_congr {left right : Nat → Byte} (same : ∀ lane < 8, left lane = right lane) :
    ofBytes left = ofBytes right := by
  simp [ofBytes, same]

def quad (first second third fourth : Byte) : Nat :=
  first.toNat + second.toNat * 2 ^ 8 + third.toNat * 2 ^ 16 + fourth.toNat * 2 ^ 24

theorem quad_lt (first second third fourth : Byte) : quad first second third fourth < 2 ^ 32 := by
  have := first.isLt
  have := second.isLt
  have := third.isLt
  have := fourth.isLt
  unfold quad
  omega

theorem toNat_ofBytes (bytes : Nat → Byte) : (ofBytes bytes).toNat =
    quad (bytes 0) (bytes 1) (bytes 2) (bytes 3) + 2 ^ 32 * quad (bytes 4) (bytes 5) (bytes 6) (bytes 7) := by
  have low := quad_lt (bytes 0) (bytes 1) (bytes 2) (bytes 3)
  have high := quad_lt (bytes 4) (bytes 5) (bytes 6) (bytes 7)
  have sum : ofBytes bytes = BitVec.ofNat 64
      (quad (bytes 0) (bytes 1) (bytes 2) (bytes 3) + 2 ^ 32 * quad (bytes 4) (bytes 5) (bytes 6) (bytes 7)) := by
    unfold ofBytes quad
    congr 1
    omega
  rw [sum, BitVec.toNat_ofNat, Nat.mod_eq_of_lt (by omega)]

theorem ofBytes_congr_low {left right : Nat → Byte} (same : ∀ lane < 4, left lane = right lane) :
    (ofBytes left).setWidth 32 = (ofBytes right).setWidth 32 := by
  apply BitVec.eq_of_toNat_eq
  rw [BitVec.toNat_setWidth, BitVec.toNat_setWidth, toNat_ofBytes, toNat_ofBytes, same 0 (by omega),
    same 1 (by omega), same 2 (by omega), same 3 (by omega), Nat.add_mul_mod_self_left, Nat.add_mul_mod_self_left]

theorem ofBytes_congr_high {left right : Nat → Byte} (same : ∀ lane, 4 ≤ lane → lane < 8 → left lane = right lane) :
    (ofBytes left).extractLsb' 32 32 = (ofBytes right).extractLsb' 32 32 := by
  have low := quad_lt (left 0) (left 1) (left 2) (left 3)
  have low' := quad_lt (right 0) (right 1) (right 2) (right 3)
  apply BitVec.eq_of_toNat_eq
  rw [BitVec.extractLsb'_toNat, BitVec.extractLsb'_toNat, Nat.shiftRight_eq_div_pow, Nat.shiftRight_eq_div_pow,
    toNat_ofBytes, toNat_ofBytes, same 4 (by omega) (by omega), same 5 (by omega) (by omega),
    same 6 (by omega) (by omega), same 7 (by omega) (by omega)]
  omega

end Word

structure Range where
  base : Word
  length : Nat
deriving DecidableEq, Repr

namespace Range

variable {left right outer : Range} {address : Word}

instance : Membership Word Range where
  mem range address := (address - range.base).toNat < range.length

theorem mem_iff : address ∈ left ↔ (address - left.base).toNat < left.length := Iff.rfl

instance (address : Word) (range : Range) : Decidable (address ∈ range) :=
  inferInstanceAs (Decidable ((address - range.base).toNat < range.length))

def Disjoint (left right : Range) : Prop := ∀ address : Word, address ∈ left → address ∉ right

/-- Neither range starts within the other, measured along the wrapping addresses. -/
def Separate (left right : Range) : Prop :=
  left.length ≤ (right.base - left.base).toNat ∧ right.length ≤ (left.base - right.base).toNat

instance (left right : Range) : Decidable (left.Separate right) :=
  inferInstanceAs (Decidable (_ ∧ _))

theorem Separate.disjoint (separate : left.Separate right) : left.Disjoint right := by
  intro address inLeft inRight
  unfold Separate at separate
  rw [mem_iff] at inLeft inRight
  bv_omega

def offsetIn (range outer : Range) : Nat := (range.base - outer.base).toNat

def Inside (range outer : Range) : Prop := range.offsetIn outer + range.length ≤ outer.length

instance (range outer : Range) : Decidable (range.Inside outer) :=
  inferInstanceAs (Decidable (range.offsetIn outer + range.length ≤ outer.length))

theorem Disjoint.symm (apart : left.Disjoint right) : right.Disjoint left :=
  fun address inRight inLeft => apart address inLeft inRight

/-- In a range that does not wrap around the address space. -/
theorem mem_between {base : Word} {length : Nat} (fits : base.toNat + length ≤ 2 ^ 64) :
    address ∈ Range.mk base length ↔ base.toNat ≤ address.toNat ∧ address.toNat < base.toNat + length := by
  rw [mem_iff]
  simp only
  bv_omega

theorem Inside.distance (inside : left.Inside outer) (fits : outer.length ≤ 2 ^ 64)
    (member : address ∈ left) :
    (address - outer.base).toNat = left.offsetIn outer + (address - left.base).toNat := by
  have split : address - outer.base = (left.base - outer.base) + (address - left.base) := by bv_omega
  rw [mem_iff] at member
  unfold Inside offsetIn at inside
  rw [split, BitVec.toNat_add, Nat.mod_eq_of_lt (by omega)]
  rfl

theorem Inside.mem (inside : left.Inside outer) (fits : outer.length ≤ 2 ^ 64)
    (member : address ∈ left) : address ∈ outer := by
  rw [mem_iff, inside.distance fits member]
  rw [mem_iff] at member
  unfold Inside at inside
  omega

theorem Inside.trans {middle : Range} (first : left.Inside middle) (second : middle.Inside outer)
    (fits : outer.length < 2 ^ 64) : left.Inside outer := by
  have split : left.base - outer.base = (middle.base - outer.base) + (left.base - middle.base) := by bv_omega
  unfold Inside offsetIn at *
  rw [split, BitVec.toNat_add, Nat.mod_eq_of_lt (by omega)]
  omega

theorem Inside.base_mem (inside : left.Inside outer) (long : 0 < left.length) : left.base ∈ outer := by
  unfold Inside offsetIn at inside
  rw [mem_iff]
  omega

theorem Disjoint.shorten {length : Nat} (apart : left.Disjoint right) (shorter : length ≤ left.length) :
    (Range.mk left.base length).Disjoint right :=
  fun address inside => apart address (Nat.lt_of_lt_of_le inside shorter)

theorem inside_of_offset (outer : Range) {offset length : Nat} (bound : offset + length ≤ outer.length)
    (fits : outer.length < 2 ^ 64) : (Range.mk (outer.base + BitVec.ofNat 64 offset) length).Inside outer := by
  unfold Inside offsetIn
  rw [Word.offset_distance outer.base (by omega)]
  exact bound

theorem inside_start (base : Word) {length outer : Nat} (short : length ≤ outer) :
    (Range.mk base length).Inside ⟨base, outer⟩ := by
  simpa [Inside, offsetIn] using short

theorem Disjoint.of_inside {leftOuter rightOuter : Range} (apart : leftOuter.Disjoint rightOuter)
    (leftInside : left.Inside leftOuter) (rightInside : right.Inside rightOuter)
    (leftFits : leftOuter.length ≤ 2 ^ 64) (rightFits : rightOuter.length ≤ 2 ^ 64) :
    left.Disjoint right :=
  fun address inLeft inRight =>
    apart address (leftInside.mem leftFits inLeft) (rightInside.mem rightFits inRight)

theorem disjoint_of_offsets (leftInside : left.Inside outer) (rightInside : right.Inside outer)
    (fits : outer.length ≤ 2 ^ 64)
    (before : left.offsetIn outer + left.length ≤ right.offsetIn outer) :
    left.Disjoint right := by
  intro address inLeft inRight
  have fromLeft := leftInside.distance fits inLeft
  have fromRight := rightInside.distance fits inRight
  rw [mem_iff] at inLeft
  omega

end Range

end RwSep.Data
