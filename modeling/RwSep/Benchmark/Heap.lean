import RwSep.X86.State

namespace RwSep.Benchmark

open RwSep.Data RwSep.X86

/-! Byte memory as the C++ benchmarks use it, with the accesses made to it. -/

inductive Access where
  | read (range : Range)
  | write (range : Range)
  /-- A non-temporal store. -/
  | stream (range : Range)
  | clwb (address : Word)
  | sfence
deriving DecidableEq, Repr

def Access.written : Access → Option Range
  | .write range => some range
  | .stream range => some range
  | _ => none

def Access.address : Access → Option Word
  | .read range => some range.base
  | .write range => some range.base
  | .stream range => some range.base
  | .clwb address => some address
  | .sfence => none

structure Heap where
  memory : Memory
  trace : List Access

/-- The `int` at an address: the low half of the word there. -/
def readInt (memory : Memory) (address : Word) : BitVec 32 := (memory.readWord address).setWidth 32

def intBytes (value : BitVec 32) : Nat → Byte := Word.byte (value.setWidth 64)

section Int

variable {memory : Memory} {address : Word} {value : BitVec 32}

theorem readInt_writeBytes : readInt (memory.writeBytes address 4 (intBytes value)) address = value := by
  have low : ((memory.writeBytes address 4 (intBytes value)).readWord address).setWidth 32 =
      (Word.ofBytes (intBytes value)).setWidth 32 := by
    apply Word.ofBytes_congr_low
    intro lane bound
    exact Memory.writeBytes_inside bound (by decide)
  rw [readInt, low, intBytes, Word.ofBytes_byte, BitVec.setWidth_setWidth_of_le _ (by decide), BitVec.setWidth_eq]

theorem high_writeBytes : ((memory.writeBytes address 4 (intBytes value)).readWord address).extractLsb' 32 32 =
    (memory.readWord address).extractLsb' 32 32 := by
  apply Word.ofBytes_congr_high
  intro lane lower upper
  apply Memory.writeBytes_outside
  rw [Range.mem_iff, Word.offset_distance address (Nat.lt_trans upper (by decide))]
  exact Nat.not_lt_of_ge lower

end Int

namespace Heap

variable {heap before middle after : Heap} {address : Word} {size : Nat} {bytes : Nat → Byte}
variable {region inner outer : Range} {access : Access}

def record (heap : Heap) (access : Access) : Heap := { heap with trace := heap.trace ++ [access] }

def load (heap : Heap) (address : Word) : Word × Heap :=
  (heap.memory.readWord address, heap.record (.read ⟨address, 8⟩))

def loadInt (heap : Heap) (address : Word) : BitVec 32 × Heap :=
  (readInt heap.memory address, heap.record (.read ⟨address, 4⟩))

def store (heap : Heap) (address : Word) (size : Nat) (bytes : Nat → Byte) : Heap :=
  { heap with memory := heap.memory.writeBytes address size bytes }.record (.write ⟨address, size⟩)

def stream (heap : Heap) (address : Word) (size : Nat) (bytes : Nat → Byte) : Heap :=
  { heap with memory := heap.memory.writeBytes address size bytes }.record (.stream ⟨address, size⟩)

/-! # Where a piece of code writes -/

structure WritesWithin (region : Range) (before after : Heap) : Prop where
  kept : ∀ byte, byte ∉ region → after.memory byte = before.memory byte
  accesses : ∃ accesses, after.trace = before.trace ++ accesses ∧
    ∀ access ∈ accesses, ∀ range, access.written = some range → range.Inside region

namespace WritesWithin

theorem trans (first : WritesWithin region before middle) (second : WritesWithin region middle after) :
    WritesWithin region before after where
  kept byte outside := (second.kept byte outside).trans (first.kept byte outside)
  accesses := by
    obtain ⟨earlier, traced, inside⟩ := first.accesses
    obtain ⟨later, traced', inside'⟩ := second.accesses
    refine ⟨earlier ++ later, by rw [traced', traced, List.append_assoc], fun access member => ?_⟩
    rcases List.mem_append.mp member with member | member
    · exact inside access member
    · exact inside' access member

theorem widen (writes : WritesWithin inner before after) (inside : inner.Inside outer)
    (fits : outer.length < 2 ^ 64) : WritesWithin outer before after where
  kept byte outside := writes.kept byte fun member => outside (inside.mem (Nat.le_of_lt fits) member)
  accesses := by
    obtain ⟨accesses, traced, within⟩ := writes.accesses
    exact ⟨accesses, traced, fun access member range written =>
      (within access member range written).trans inside fits⟩

theorem nothing (region : Range) (heap : Heap) : WritesWithin region heap heap where
  kept _ _ := rfl
  accesses := ⟨[], by simp, by simp⟩

theorem record (region : Range) (heap : Heap) (quiet : access.written = none) :
    WritesWithin region heap (heap.record access) where
  kept _ _ := rfl
  accesses := by
    refine ⟨[access], rfl, fun only member range written => ?_⟩
    rw [List.mem_singleton.mp member, quiet] at written
    contradiction

theorem written (heap : Heap) (writes : access.written = some ⟨address, size⟩)
    (inside : (Range.mk address size).Inside region) (fits : region.length ≤ 2 ^ 64) :
    WritesWithin region heap
      ({ heap with memory := heap.memory.writeBytes address size bytes }.record access) where
  kept _ outside := Memory.writeBytes_outside fun member => outside (inside.mem fits member)
  accesses := by
    refine ⟨[access], rfl, fun only member range written => ?_⟩
    rw [List.mem_singleton.mp member, writes] at written
    cases written
    exact inside

theorem readWord (writes : WritesWithin region before after) (apart : (Range.mk address 8).Disjoint region) :
    after.memory.readWord address = before.memory.readWord address :=
  Memory.readWord_congr fun byte member => writes.kept byte (apart byte member)

end WritesWithin

/-! # The addresses that a piece of code accesses -/

def Touches (allowed : Word → Prop) (before after : Heap) : Prop :=
  ∃ accesses, after.trace = before.trace ++ accesses ∧
    ∀ access ∈ accesses, ∀ address, access.address = some address → allowed address

namespace Touches

variable {allowed weaker : Word → Prop}

theorem trans (first : Touches allowed before middle) (second : Touches allowed middle after) :
    Touches allowed before after := by
  obtain ⟨earlier, traced, touched⟩ := first
  obtain ⟨later, traced', touched'⟩ := second
  refine ⟨earlier ++ later, by rw [traced', traced, List.append_assoc], fun access member => ?_⟩
  rcases List.mem_append.mp member with member | member
  · exact touched access member
  · exact touched' access member

theorem widen (touches : Touches allowed before after) (wider : ∀ address, allowed address → weaker address) :
    Touches weaker before after := by
  obtain ⟨accesses, traced, touched⟩ := touches
  exact ⟨accesses, traced, fun access member address located => wider address (touched access member address located)⟩

theorem nothing (allowed : Word → Prop) (heap : Heap) : Touches allowed heap heap :=
  ⟨[], (List.append_nil _).symm, fun _ member => absurd member List.not_mem_nil⟩

theorem one (access : Access) (traced : after.trace = before.trace ++ [access])
    (inAllowed : ∀ address, access.address = some address → allowed address) : Touches allowed before after := by
  refine ⟨[access], traced, fun only member => ?_⟩
  rw [List.mem_singleton.mp member]
  exact inAllowed

end Touches

end Heap

end RwSep.Benchmark
