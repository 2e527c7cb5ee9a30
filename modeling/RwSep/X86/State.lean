import RwSep.Data.Word
import Mathlib.Data.List.Induction

namespace RwSep.X86

open RwSep.Data

/-! General and vector registers, byte memory, and the accesses it sees. -/

inductive Reg where
  | rax | rcx | rdx | rbx | rsp | rbp | rsi | rdi | r8 | r9 | r10 | r11 | r12 | r13 | r14 | r15
deriving DecidableEq, Repr

def zmm0 : Fin 32 := 0

/-- The vector register of that number, below 32. -/
def zmm (number : Nat) : Fin 32 := Fin.ofNat 32 number

abbrev Line := Fin 64 → Byte

abbrev Memory := Word → Byte

/-- An access to `size` bytes of memory (64 for the non-temporal ones), the
write-back or flush of the line of a byte, or a fence. -/
inductive Event where
  | load (address : Word) (size : Nat)
  | ntLoad (address : Word)
  | store (address : Word) (size : Nat)
  | ntStore (address : Word)
  | clwb (address : Word)
  | clflush (address : Word)
  | mfence
  | sfence
deriving DecidableEq, Repr

/-- The bytes an access names.  `clwb` and `clflush` have a byte operand. -/
def Event.footprint : Event → Range
  | .load address size => ⟨address, size⟩
  | .ntLoad address => ⟨address, 64⟩
  | .store address size => ⟨address, size⟩
  | .ntStore address => ⟨address, 64⟩
  | .clwb address => ⟨address, 1⟩
  | .clflush address => ⟨address, 1⟩
  | .mfence => ⟨0, 0⟩
  | .sfence => ⟨0, 0⟩

structure Data where
  zmm : Fin 32 → Line
  memory : Memory
  trace : List Event

structure State where
  gpr : Reg → Word
  data : Data

/-! # Memory -/

/-- The bytes that a store of a number of bytes writes. -/
def storeBytes (address : Word) (count : Nat) (bytes : Nat → Byte) (byte : Word) : Option Byte :=
  if (byte - address).toNat < count then some (bytes (byte - address).toNat) else none

namespace Memory

variable {memory : Memory} {address other : Word} {line : Line}

def readLine (memory : Memory) (address : Word) : Line :=
  fun lane => memory (address + BitVec.ofNat 64 lane)

def readWord (memory : Memory) (address : Word) : Word :=
  Word.ofBytes fun lane => memory (address + BitVec.ofNat 64 lane)

def writeLine (memory : Memory) (address : Word) (line : Line) : Memory :=
  fun byte => if inside : (byte - address).toNat < 64 then line ⟨(byte - address).toNat, inside⟩ else memory byte

def writeBytes (memory : Memory) (address : Word) (count : Nat) (bytes : Nat → Byte) : Memory :=
  fun byte => if (byte - address).toNat < count then bytes (byte - address).toNat else memory byte

def writeWord (memory : Memory) (address word : Word) : Memory := memory.writeBytes address 8 word.byte

theorem lane_distance (address : Word) (lane : Fin 64) :
    (address + BitVec.ofNat 64 lane - address).toNat = lane :=
  Word.offset_distance address (Nat.lt_trans lane.isLt (by decide))

theorem writeLine_inside {lane : Fin 64} :
    memory.writeLine address line (address + BitVec.ofNat 64 lane) = line lane := by
  simp only [writeLine, lane_distance, lane.isLt, dite_true]

theorem writeLine_outside (outside : other ∉ Range.mk address 64) :
    memory.writeLine address line other = memory other :=
  dif_neg outside

theorem lane_mem {lane length : Nat} (inside : lane < length) (fits : length ≤ 2 ^ 64) :
    address + BitVec.ofNat 64 lane ∈ Range.mk address length := by
  rw [Range.mem_iff, Word.offset_distance address (Nat.lt_of_lt_of_le inside fits)]
  exact inside

theorem readWord_congr {left right : Memory} (same : ∀ byte ∈ Range.mk address 8, left byte = right byte) :
    left.readWord address = right.readWord address := by
  apply Word.ofBytes_congr
  intro lane bound
  exact same _ (lane_mem bound (by decide))

theorem readWord_writeLine_disjoint (apart : (Range.mk other 8).Disjoint (Range.mk address 64)) :
    (memory.writeLine address line).readWord other = memory.readWord other :=
  readWord_congr fun byte inside => writeLine_outside (apart byte inside)

section Bytes

variable {count : Nat} {bytes : Nat → Byte} {word : Word}

theorem writeBytes_inside {lane : Nat} (inside : lane < count) (fits : count ≤ 2 ^ 64) :
    memory.writeBytes address count bytes (address + BitVec.ofNat 64 lane) = bytes lane := by
  rw [writeBytes, Word.offset_distance address (Nat.lt_of_lt_of_le inside fits), if_pos inside]

theorem writeBytes_outside (outside : other ∉ Range.mk address count) :
    memory.writeBytes address count bytes other = memory other :=
  if_neg outside

theorem readWord_writeBytes_disjoint (apart : (Range.mk other 8).Disjoint (Range.mk address count)) :
    (memory.writeBytes address count bytes).readWord other = memory.readWord other :=
  readWord_congr fun byte inside => writeBytes_outside (apart byte inside)

theorem readWord_writeWord : (memory.writeWord address word).readWord address = word := by
  have same : (memory.writeWord address word).readWord address = Word.ofBytes word.byte := by
    apply Word.ofBytes_congr
    intro lane bound
    exact writeBytes_inside bound (by decide)
  rw [same, Word.ofBytes_byte]

end Bytes

theorem writeLine_of_mem (inside : other ∈ Range.mk address 64) :
    memory.writeLine address line other = line ⟨(other - address).toNat, inside⟩ :=
  dif_pos inside

@[simp] theorem readLine_writeLine : (memory.writeLine address line).readLine address = line :=
  funext fun _ => writeLine_inside

def writeLines (memory : Memory) (line : Line) (addresses : List Word) : Memory :=
  addresses.foldl (fun memory address => memory.writeLine address line) memory

/-- The address of the last of these lines that covers the byte. -/
def lastCovering (addresses : List Word) (byte : Word) : Option Word :=
  addresses.reverse.find? fun address => byte ∈ Range.mk address 64

variable {addresses earlier later : List Word}

@[simp] theorem writeLines_append : memory.writeLines line (earlier ++ later) =
    (memory.writeLines line earlier).writeLines line later :=
  List.foldl_append ..

theorem lastCovering_concat : lastCovering (addresses ++ [address]) other =
    if other ∈ Range.mk address 64 then some address else lastCovering addresses other := by
  simp only [lastCovering, List.reverse_append, List.reverse_singleton, List.singleton_append,
    List.find?_cons]
  split <;> rename_i covers <;> simp_all

theorem lastCovering_mem (last : lastCovering addresses other = some address) :
    other ∈ Range.mk address 64 := by
  simpa using List.find?_some last

theorem lastCovering_eq_none (outside : ∀ address ∈ addresses, other ∉ Range.mk address 64) :
    lastCovering addresses other = none := by
  rw [lastCovering, List.find?_eq_none]
  intro address member
  simpa using outside address (List.mem_reverse.mp member)

theorem writeLines_uncovered (uncovered : lastCovering addresses other = none) :
    memory.writeLines line addresses other = memory other := by
  induction addresses using List.reverseRecOn with
  | nil => rfl
  | append_singleton earlier last ih =>
      rw [lastCovering_concat] at uncovered
      split at uncovered
      · contradiction
      · rename_i outside
        rw [writeLines_append]
        exact (writeLine_outside outside).trans (ih uncovered)

theorem writeLines_covered (memory : Memory) (line : Line) (last : lastCovering addresses other = some address) :
    memory.writeLines line addresses other = line ⟨(other - address).toNat, lastCovering_mem last⟩ := by
  induction addresses using List.reverseRecOn with
  | nil => contradiction
  | append_singleton earlier newest ih =>
      rw [writeLines_append]
      change (memory.writeLines line earlier).writeLine newest line other = _
      have found := last
      rw [lastCovering_concat] at found
      split at found
      · rename_i inside
        cases found
        exact writeLine_of_mem inside
      · rename_i outside
        exact (writeLine_outside outside).trans (ih found)

theorem writeLines_eq_self_iff : memory.writeLines line addresses = memory ↔
    ∀ address (lane : Fin 64), lastCovering addresses (address + BitVec.ofNat 64 lane) = some address →
      memory (address + BitVec.ofNat 64 lane) = line lane := by
  apply Iff.intro
  · intro same address lane last
    have written := writeLines_covered memory line last
    rw [same] at written
    rw [written]
    exact congrArg line (Fin.ext (lane_distance address lane))
  · intro settled
    funext byte
    cases last : lastCovering addresses byte with
    | none => exact writeLines_uncovered last
    | some address =>
        have back : address + BitVec.ofNat 64 (byte - address).toNat = byte := by
          rw [BitVec.ofNat_toNat, BitVec.setWidth_eq, BitVec.add_comm, BitVec.sub_add_cancel]
        have held := settled address ⟨(byte - address).toNat, lastCovering_mem last⟩
        simp only [back] at held
        rw [writeLines_covered memory line last, held last]

/-- The same stores over again change nothing. -/
theorem writeLines_again (memory : Memory) (line : Line) (addresses : List Word) :
    (memory.writeLines line addresses).writeLines line addresses = memory.writeLines line addresses := by
  apply writeLines_eq_self_iff.mpr
  intro address lane last
  rw [writeLines_covered memory line last]
  exact congrArg line (Fin.ext (lane_distance address lane))

end Memory

namespace Line

/-- `movq` into an `xmm` register: the low 8 bytes, then 8 bytes of zeros; the
rest of the `zmm` register is kept. -/
def setLow (line : Line) (word : Word) : Line :=
  fun lane => if lane.val < 8 then word.byte lane else if lane.val < 16 then 0 else line lane

def low (line : Line) : Word :=
  Word.ofBytes fun lane => if bound : lane < 64 then line ⟨lane, bound⟩ else 0

@[simp] theorem setLow_setLow (line : Line) (word : Word) : (line.setLow word).setLow word = line.setLow word := by
  funext lane
  unfold setLow
  split
  · rfl
  · split <;> rfl

@[simp] theorem low_setLow (line : Line) (word : Word) : (line.setLow word).low = word := by
  have same : (line.setLow word).low = Word.ofBytes word.byte := by
    apply Word.ofBytes_congr
    intro lane bound
    have inside : lane < 64 := by omega
    simp only [setLow, inside, bound, dite_true, if_true]
  rw [same, Word.ofBytes_byte]

end Line

theorem Memory.low_readLine (memory : Memory) (address : Word) :
    (memory.readLine address).low = memory.readWord address := by
  apply Word.ofBytes_congr
  intro lane bound
  have inside : lane < 64 := by omega
  simp only [Memory.readLine, inside, dite_true]

theorem Memory.readWord_writeLine (memory : Memory) (address : Word) (line : Line) :
    (memory.writeLine address line).readWord address = line.low := by
  rw [← Memory.low_readLine, Memory.readLine_writeLine]

/-! # Traces -/

/-- The accesses before each fence. -/
def passes (events : List Event) : List (List Event) := (events.splitOnP (· == .mfence)).dropLast

theorem passes_fenced {blocks : List (List Event)} (unfenced : ∀ block ∈ blocks, .mfence ∉ block) :
    passes (blocks.flatMap (· ++ [.mfence])) = blocks := by
  induction blocks with
  | nil => rfl
  | cons block rest ih =>
      have here : ∀ event ∈ block, (event == Event.mfence) = false := by
        intro event member
        rw [beq_eq_false_iff_ne]
        intro fence
        rw [fence] at member
        exact unfenced block List.mem_cons_self member
      have tail := ih fun other member => unfenced other (List.mem_cons_of_mem _ member)
      rw [passes] at tail ⊢
      rw [List.flatMap_cons, List.append_assoc, List.singleton_append,
        List.splitOnP_append_cons_of_forall_mem here .mfence rfl, List.dropLast_cons_of_ne_nil, tail]
      exact List.splitOnP_ne_nil _ _

/-! # Registers -/

namespace State

variable {state : State} {reg other : Reg} {word : Word}

def set (state : State) (reg : Reg) (word : Word) : State :=
  { state with gpr := Function.update state.gpr reg word }

def blank : State := ⟨fun _ => 0, ⟨fun _ _ => 0, fun _ => 0, []⟩⟩

@[simp] theorem set_same : (state.set reg word).gpr reg = word := Function.update_self ..

theorem set_other (different : other ≠ reg) : (state.set reg word).gpr other = state.gpr other :=
  Function.update_of_ne different ..

@[simp] theorem set_data : (state.set reg word).data = state.data := rfl

end State

end RwSep.X86
