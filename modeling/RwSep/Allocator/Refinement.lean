import RwSep.Allocator.Ownership
import RwSep.Execution.Run
import RwSep.Packing.NextFit
import Mathlib.Data.List.Forall2

namespace RwSep.Allocator

open RwSep.Data RwSep.Execution RwSep.Packing

/-! The object refines a depot of two next-fit packers.

A pool's `curr` and `left` are the position in the open bin, its count is the
number of bins, and every pointer that `alloc` returns is the base of a table
entry plus the offset the packer chose.
-/

theorem roundUp_toNat (size : Word) :
    (roundUp size).toNat = (size.toNat + 63) / 64 * 64 % 2 ^ 64 := by
  have bound := size.isLt
  have lines : (size / 64 * 64).toNat = size.toNat / 64 * 64 := by
    have line : (64 : Word).toNat = 64 := rfl
    rw [BitVec.toNat_mul, BitVec.toNat_udiv, line]
    omega
  unfold roundUp
  by_cases whole : size % 64 = 0
  · have remainder : size.toNat % 64 = 0 := by simpa using congrArg BitVec.toNat whole
    have none : (0 * 64 : Word).toNat = 0 := rfl
    simp only [whole, ne_eq, not_true_eq_false, if_false, BitVec.toNat_add, lines, none]
    omega
  · have remainder : size.toNat % 64 ≠ 0 := by
      intro zero
      exact whole (BitVec.eq_of_toNat_eq (by simpa using zero))
    have line : (1 * 64 : Word).toNat = 64 := rfl
    simp only [whole, ne_eq, not_false_eq_true, if_true, BitVec.toNat_add, lines, line]
    omega

def Request.Small (request : Request) : Prop :=
  (request.size.toNat + 63) / 64 * 64 ≤ ALLOC_SIZE.toNat

instance (request : Request) : Decidable request.Small :=
  inferInstanceAs (Decidable ((request.size.toNat + 63) / 64 * 64 ≤ ALLOC_SIZE.toNat))

theorem Request.Small.roundUp_toNat {request : Request} (small : request.Small) :
    (roundUp request.size).toNat = (request.size.toNat + 63) / 64 * 64 := by
  have limit : ALLOC_SIZE.toNat = 4294967296 := rfl
  unfold Request.Small at small
  rw [Allocator.roundUp_toNat]
  omega

theorem Request.small_of_le {request : Request} (short : request.size ≤ ALLOC_SIZE) : request.Small := by
  have limit : ALLOC_SIZE.toNat = 4294967296 := rfl
  have short' := BitVec.le_def.mp short
  unfold Request.Small
  omega

/-- The packer state a pool stands for. -/
structure Represents (first : Word) (pool : Pool) (packer : Packer) : Prop where
  bin : pool.cnt.toNat = packer.bin + 1
  capacity : packer.capacity = regionLength first packer.bin
  curr : pool.curr = pool.entry packer.bin + BitVec.ofNat 64 packer.used
  left : pool.left.toNat = packer.capacity - packer.used

structure Locates (first : Word) (a : Fastalloc) (onNvm : Bool) (pointer : Word) (slot : Slot) :
    Prop where
  live : slot.bin < (a.pool onNvm).cnt.toNat
  capacity : slot.capacity = regionLength first slot.bin
  pointer : pointer = (a.pool onNvm).entry slot.bin + BitVec.ofNat 64 slot.offset

section Call

variable {growth : Fastalloc → Fill} {a after : Fastalloc} {os os' : Os}
variable {first size pointer : Word} {onNvm : Bool} {depot : Depot Bool}

theorem Served.entries (outcome : Served growth a os size onNvm pointer after os') (pool : Bool) :
    (a.pool pool).cnt.toNat ≤ (after.pool pool).cnt.toNat ∧
      ∀ index < (a.pool pool).cnt.toNat, (after.pool pool).entry index = (a.pool pool).entry index := by
  by_cases samePool : pool = onNvm
  · subst samePool
    cases outcome with
    | fit room served other channel => simp [served]
    | grow full bound served other channel =>
        refine ⟨by simp [served], fun index old => ?_⟩
        rw [served, Pool.take_entry, Pool.opened_entry_old old]
  · obtain rfl : pool = !onNvm := Bool.eq_not_of_ne samePool
    cases outcome <;> simp [*]

theorem Served.cnt_le (outcome : Served growth a os size onNvm pointer after os') (pool : Bool) :
    (after.pool pool).cnt.toNat ≤ (a.pool pool).cnt.toNat + 1 := by
  by_cases samePool : pool = onNvm
  · subst samePool
    cases outcome with
    | fit room served other channel => simp [served]
    | grow full bound served other channel => simp [served]
  · obtain rfl : pool = !onNvm := Bool.eq_not_of_ne samePool
    cases outcome <;> simp [*]

theorem Served.channel_eq (outcome : Served growth a os size onNvm pointer after os') :
    after.channel = a.channel := by
  cases outcome <;> assumption

theorem Served.log (outcome : Served growth a os size onNvm pointer after os') :
    ∃ events, os'.log = os.log ++ events := by
  cases outcome with
  | fit room served other channel => exact ⟨[], by simp⟩
  | grow full bound served other channel =>
      obtain ⟨events, grown⟩ := os.fill_log (a.fill growth onNvm)
      exact ⟨_, grown.trans (List.append_assoc ..)⟩

theorem Locates.served {slot : Slot} {requested : Bool} (located : Locates first a onNvm pointer slot)
    {other : Word} (outcome : Served growth a os size requested other after os') :
    Locates first after onNvm pointer slot where
  live := Nat.lt_of_lt_of_le located.live (outcome.entries onNvm).1
  capacity := located.capacity
  pointer := by rw [(outcome.entries onNvm).2 slot.bin located.live, located.pointer]

/-- One call is one placement in the requested pool, whatever the other pool holds. -/
theorem Served.places (outcome : Served growth a os size onNvm pointer after os') {packer : Packer}
    (represents : Represents first (a.pool onNvm) packer) (small : size.toNat ≤ ALLOC_SIZE.toNat) :
    Represents first (after.pool onNvm) (packer.place ALLOC_SIZE.toNat size.toNat).2 ∧
      Locates first after onNvm pointer (packer.place ALLOC_SIZE.toNat size.toNat).1 := by
  have fits := packer.fits
  have left := represents.left
  cases outcome with
  | fit room served other channel =>
      have room' : packer.used + size.toNat ≤ packer.capacity := by
        have below : size.toNat ≤ (a.pool onNvm).left.toNat := room
        omega
      rw [Packer.place_fit room']
      apply And.intro
      · constructor
        · simp [served, represents.bin]
        · exact represents.capacity
        · simp [served, represents.curr, BitVec.ofNat_add, BitVec.add_assoc]
        · simp only [served, Pool.take_left, BitVec.toNat_sub_of_le room]
          omega
      · constructor
        · simp [served, represents.bin]
        · exact represents.capacity
        · simp [served, represents.curr]
  | grow full bound served other channel =>
      have full' : ¬ packer.used + size.toNat ≤ packer.capacity := by
        have above : (a.pool onNvm).left.toNat < size.toNat := full
        omega
      have newest := Pool.opened_entry_new (a.pool onNvm) (os.fill (a.fill growth onNvm)).1 ALLOC_SIZE bound
      rw [represents.bin] at newest
      rw [Packer.place_grow full' small]
      apply And.intro
      · constructor
        · simp [served, represents.bin]
        · simp [regionLength]
        · simp [served, newest]
        · have small' : size ≤ ALLOC_SIZE := small
          simp only [served, Pool.take_left, Pool.opened_left, BitVec.toNat_sub_of_le small']
      · constructor
        · simp [served, represents.bin]
        · simp [regionLength]
        · simp [served, newest]

theorem Served.other_eq (outcome : Served growth a os size onNvm pointer after os') {pool : Bool}
    (different : pool ≠ onNvm) : after.pool pool = a.pool pool := by
  obtain rfl : pool = !onNvm := Bool.eq_not_of_ne different
  cases outcome <;> assumption

/-- One call is one placement in the depot of both pools. -/
theorem Served.simulates (outcome : Served growth a os size onNvm pointer after os')
    (related : ∀ pool, Represents first (a.pool pool) (depot pool))
    (small : size.toNat ≤ ALLOC_SIZE.toNat) :
    (∀ pool, Represents first (after.pool pool)
      ((depot.place ALLOC_SIZE.toNat onNvm size.toNat).2 pool)) ∧
    Locates first after onNvm pointer (depot.place ALLOC_SIZE.toNat onNvm size.toNat).1 := by
  obtain ⟨represents, located⟩ := outcome.places (related onNvm) small
  refine ⟨fun pool => ?_, located⟩
  by_cases samePool : pool = onNvm
  · subst samePool
    rw [Depot.place_same]
    exact represents
  · rw [Depot.place_other samePool, outcome.other_eq samePool]
    exact related pool

end Call

end RwSep.Allocator
