import Mathlib.Logic.Function.Basic

namespace RwSep.Packing

/-! Next-fit packing of a stream of items into numbered bins.

The packer looks at one open bin only.  An item that does not fit closes the
bin for good and opens the next one.  A depot is one packer for each index of
a family; the packers do not see one another's items.
-/

structure Packer where
  bin : Nat
  capacity : Nat
  used : Nat
  fits : used ≤ capacity

/-- Where an item went.  A slot cannot reach past the end of its bin. -/
structure Slot where
  bin : Nat
  capacity : Nat
  offset : Nat
  length : Nat
  inside : offset + length ≤ capacity

def Packer.opened (bin capacity : Nat) : Packer := ⟨bin, capacity, 0, Nat.zero_le _⟩

/-- Place one item.  A new bin has the common capacity `fresh`, or the item's
own length when the item is longer than that. -/
def Packer.place (fresh : Nat) (packer : Packer) (item : Nat) : Slot × Packer :=
  if room : packer.used + item ≤ packer.capacity then
    (⟨packer.bin, packer.capacity, packer.used, item, room⟩,
      ⟨packer.bin, packer.capacity, packer.used + item, room⟩)
  else
    (⟨packer.bin + 1, max fresh item, 0, item, by omega⟩,
      ⟨packer.bin + 1, max fresh item, item, by omega⟩)

/-- What items of a total length have filled so far: any two neighbouring bins
hold more than one capacity, so every second bin is paid for in full. -/
def Packer.Filled (fresh total : Nat) (packer : Packer) : Prop :=
  packer.capacity = fresh ∧
    if packer.bin % 2 = 0 then
      packer.bin / 2 * fresh + packer.used ≤ total ∧
        (packer.bin = 0 ∨ packer.bin / 2 * fresh + packer.used < total)
    else (packer.bin + 1) / 2 * fresh < total

/-- `later` takes nothing that the packer state `packer` has already given away. -/
def Slot.Beyond (packer : Packer) (later : Slot) : Prop :=
  packer.bin ≤ later.bin ∧ (later.bin = packer.bin → packer.used ≤ later.offset)

def Slot.Before (first second : Slot) : Prop :=
  first.bin = second.bin → first.offset + first.length ≤ second.offset

namespace Packer

variable {fresh item : Nat} {packer : Packer}

theorem place_fit (room : packer.used + item ≤ packer.capacity) :
    packer.place fresh item =
      (⟨packer.bin, packer.capacity, packer.used, item, room⟩,
        ⟨packer.bin, packer.capacity, packer.used + item, room⟩) := by
  simp only [place, dif_pos room]

theorem place_grow (full : ¬ packer.used + item ≤ packer.capacity) (small : item ≤ fresh) :
    packer.place fresh item =
      (⟨packer.bin + 1, fresh, 0, item, by omega⟩, ⟨packer.bin + 1, fresh, item, small⟩) := by
  simp only [place, dif_neg full, Nat.max_eq_left small]

@[simp] theorem place_length : (packer.place fresh item).1.length = item := by
  unfold place
  split <;> rfl

theorem place_bin : (packer.place fresh item).1.bin = (packer.place fresh item).2.bin := by
  unfold place
  split <;> rfl

theorem place_bin_le (fresh item : Nat) (packer : Packer) : packer.bin ≤ (packer.place fresh item).2.bin := by
  unfold place
  split <;> simp

theorem place_left (fresh item : Nat) (packer : Packer) :
    (packer.place fresh item).2.capacity - (packer.place fresh item).2.used + item ≤
      (packer.place fresh item).2.capacity := by
  unfold place
  split <;> simp only <;> omega

theorem place_beyond : (packer.place fresh item).1.Beyond packer := by
  by_cases room : packer.used + item ≤ packer.capacity
  · simp [place_fit room, Slot.Beyond]
  · simp [place, room, Slot.Beyond]

/-- A slot beyond the state after a placement comes after the slot just placed
and is beyond the state before the placement. -/
theorem place_then_beyond {later : Slot} (beyond : later.Beyond (packer.place fresh item).2) :
    (packer.place fresh item).1.Before later ∧ later.Beyond packer := by
  by_cases room : packer.used + item ≤ packer.capacity
  · simp only [place_fit room, Slot.Beyond, Slot.Before] at beyond ⊢
    refine ⟨fun same => beyond.2 same.symm, beyond.1, fun same => ?_⟩
    have := beyond.2 same
    omega
  · simp only [place, room, dite_false, Slot.Beyond, Slot.Before] at beyond ⊢
    refine ⟨fun same => ?_, by omega, fun same => by omega⟩
    have := beyond.2 same.symm
    omega

theorem place_offset_dvd {unit : Nat} (aligned : unit ∣ packer.used) :
    unit ∣ (packer.place fresh item).1.offset := by
  unfold place
  split
  · exact aligned
  · exact Nat.dvd_zero unit

theorem place_used_dvd {unit : Nat} (aligned : unit ∣ packer.used) (whole : unit ∣ item) :
    unit ∣ (packer.place fresh item).2.used := by
  unfold place
  split
  · exact Nat.dvd_add aligned whole
  · exact whole

theorem Filled.opened (fresh : Nat) : (Packer.opened 0 fresh).Filled fresh 0 := by
  simp [Filled, Packer.opened]

theorem Filled.place {total : Nat} (filled : packer.Filled fresh total) (small : item ≤ fresh) :
    (packer.place fresh item).2.Filled fresh (total + item) := by
  obtain ⟨capacity, filled⟩ := filled
  by_cases room : packer.used + item ≤ packer.capacity
  · rw [place_fit room]
    refine ⟨capacity, ?_⟩
    split at filled
    · rename_i even
      simp only [if_pos even]
      omega
    · rename_i odd
      simp only [if_neg odd]
      omega
  · rw [place_grow room small]
    refine ⟨rfl, ?_⟩
    rw [capacity] at room
    split at filled
    · rename_i even
      have next : (packer.bin + 1 + 1) / 2 = packer.bin / 2 + 1 := by omega
      have odd : ¬ (packer.bin + 1) % 2 = 0 := by omega
      simp only [if_neg odd, next, Nat.succ_mul]
      omega
    · rename_i odd
      have even : (packer.bin + 1) % 2 = 0 := by omega
      simp only [if_pos even]
      omega

/-- The next-fit bound. -/
theorem Filled.bins {total : Nat} (filled : packer.Filled fresh total) :
    packer.bin + 1 = 1 ∨ (packer.bin + 1) / 2 * fresh < total := by
  obtain ⟨_, filled⟩ := filled
  split at filled
  · rename_i even
    rcases filled.2 with first | more
    · exact .inl (by omega)
    · have half : (packer.bin + 1) / 2 = packer.bin / 2 := by omega
      rw [half]
      omega
  · exact .inr filled

theorem Filled.bins_le {total half : Nat} (filled : packer.Filled fresh total) (positive : 0 < half)
    (short : total ≤ half * fresh) : packer.bin + 1 ≤ 2 * half - 1 := by
  rcases filled.bins with single | more
  · omega
  · have below := Nat.lt_of_mul_lt_mul_right (Nat.lt_of_lt_of_le more short)
    omega

end Packer

/-! # Depots -/

section Depot

variable {ι : Type} [DecidableEq ι]

abbrev Depot (ι : Type) := ι → Packer

def Depot.place (fresh : Nat) (depot : Depot ι) (index : ι) (item : Nat) : Slot × Depot ι :=
  (((depot index).place fresh item).1,
    Function.update depot index ((depot index).place fresh item).2)

def Depot.pack (fresh : Nat) : Depot ι → List (ι × Nat) → List (ι × Slot) × Depot ι
  | depot, [] => ([], depot)
  | depot, (index, item) :: rest =>
      let placed := depot.place fresh index item
      let packed := Depot.pack fresh placed.2 rest
      ((index, placed.1) :: packed.1, packed.2)

def Slot.Apart (first second : ι × Slot) : Prop :=
  first.1 = second.1 → first.2.Before second.2

variable {fresh item : Nat} {depot : Depot ι} {items : List (ι × Nat)} {index other : ι}

@[simp] theorem Depot.place_slot :
    (depot.place fresh index item).1 = ((depot index).place fresh item).1 := rfl

@[simp] theorem Depot.place_same :
    (depot.place fresh index item).2 index = ((depot index).place fresh item).2 :=
  Function.update_self ..

theorem Depot.place_other (different : other ≠ index) :
    (depot.place fresh index item).2 other = depot other :=
  Function.update_of_ne different ..

theorem Depot.pack_beyond : ∀ slot ∈ (depot.pack fresh items).1, slot.2.Beyond (depot slot.1) := by
  induction items generalizing depot with
  | nil => simp [Depot.pack]
  | cons entry rest ih =>
      obtain ⟨index, item⟩ := entry
      intro slot member
      rcases List.mem_cons.mp member with rfl | member
      · exact Packer.place_beyond
      · have beyond := ih slot member
        by_cases same : slot.1 = index
        · subst same
          rw [Depot.place_same] at beyond
          exact (Packer.place_then_beyond beyond).2
        · rwa [Depot.place_other same] at beyond

theorem Depot.pack_opens (fresh : Nat) (depot : Depot ι) (items : List (ι × Nat)) (index : ι)
    (opened : (depot index).bin < ((depot.pack fresh items).2 index).bin) :
    ∃ slot ∈ (depot.pack fresh items).1,
      slot.1 = index ∧ (depot index).bin < slot.2.bin ∧ 0 < slot.2.length := by
  induction items generalizing depot with
  | nil => exact absurd opened (Nat.lt_irrefl _)
  | cons entry rest ih =>
      obtain ⟨which, item⟩ := entry
      by_cases here : (depot index).bin < ((depot.place fresh which item).2 index).bin
      · by_cases same : index = which
        · subst same
          rw [Depot.place_same] at here
          refine ⟨(index, (depot.place fresh index item).1), by simp [Depot.pack], rfl, ?_, ?_⟩
          · rw [Depot.place_slot, Packer.place_bin]
            exact here
          · rw [Depot.place_slot, Packer.place_length]
            have fits := (depot index).fits
            by_cases room : (depot index).used + item ≤ (depot index).capacity
            · rw [Packer.place_fit room] at here
              exact absurd here (Nat.lt_irrefl _)
            · omega
        · rw [Depot.place_other same] at here
          exact absurd here (Nat.lt_irrefl _)
      · have kept : (depot index).bin = ((depot.place fresh which item).2 index).bin := by
          by_cases same : index = which
          · subst same
            rw [Depot.place_same] at here ⊢
            have := Packer.place_bin_le fresh item (depot index)
            omega
          · rw [Depot.place_other same]
        rw [kept] at opened ⊢
        obtain ⟨slot, member, found⟩ := ih _ opened
        exact ⟨slot, by simp [Depot.pack, member], found⟩

theorem Depot.pack_apart : (depot.pack fresh items).1.Pairwise Slot.Apart := by
  induction items generalizing depot with
  | nil => exact .nil
  | cons entry rest ih =>
      obtain ⟨index, item⟩ := entry
      refine List.pairwise_cons.mpr ⟨?_, ih⟩
      intro slot member same
      have beyond := pack_beyond slot member
      rw [← same, Depot.place_same] at beyond
      exact (Packer.place_then_beyond beyond).1

/-- Offsets stay multiples of a unit that divides every item. -/
theorem Depot.pack_aligned {unit : Nat} (aligned : ∀ index, unit ∣ (depot index).used)
    (whole : ∀ entry ∈ items, unit ∣ entry.2) :
    ∀ slot ∈ (depot.pack fresh items).1, unit ∣ slot.2.offset := by
  induction items generalizing depot with
  | nil => simp [Depot.pack]
  | cons entry rest ih =>
      obtain ⟨index, item⟩ := entry
      intro slot member
      rcases List.mem_cons.mp member with rfl | member
      · exact Packer.place_offset_dvd (aligned index)
      · refine ih (fun other => ?_) (fun entry inRest => whole entry (by simp [inRest])) slot member
        by_cases same : other = index
        · subst same
          rw [Depot.place_same]
          exact Packer.place_used_dvd (aligned other) (whole (other, item) (by simp))
        · rw [Depot.place_other same]
          exact aligned other

end Depot

end RwSep.Packing
