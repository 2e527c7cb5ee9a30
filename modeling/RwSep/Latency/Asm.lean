import RwSep.Execution.Script
import RwSep.X86.Persistency

namespace RwSep.Latency

open RwSep.Data RwSep.Execution
open RwSep.X86 (Reg Memory lineOf storeBytes)

/-! The instructions of the inline assembly in common.h.

All accesses are at a displacement from `%rsi`.  The stores are of `%ymm0` and
of `%rdx`, the outputs `%[t1]` and `%[t2]` are in registers of their own.  The
local that `vbroadcastsd` reads is not part of the memory area.
-/

abbrev Half := Fin 32 → Byte

def Half.lane (half : Half) (lane : Nat) : Byte := half ⟨lane % 32, Nat.mod_lt lane (by decide)⟩

def ymm0 : Fin 16 := 0

def ymm1 : Fin 16 := 1

inductive Event where
  | load (address : Word) (size : Nat)
  | ntLoad (address : Word)
  | store (address : Word) (size : Nat)
  | ntStore (address : Word)
  | clflush (address : Word)
  | clflushopt (address : Word)
  | clwb (address : Word)
  | mfence
  | rdtscp (stamp : Word)
deriving DecidableEq, Repr

inductive Access where
  | vmovdqa
  | vmovntpd
  | movq
  | vmovdqaLoad (dst : Fin 16)
  | vmovntdqaLoad (dst : Fin 16)
  | movqLoad
  | clflush
  | clflushopt
  | clwb
deriving DecidableEq, Repr

inductive Instr where
  | vbroadcastsd (value : Word)
  | mov (value : Word) (dst : Reg)
  | access (kind : Access) (disp : Nat)
  | mfence
  | lfence
  | nop
  | rdtscp
  /-- `mov` between the low halves, which clears the high half. -/
  | movLow (src dst : Reg)
  | shl (count : Nat) (dst : Reg)
  | or (src dst : Reg)
  | movT1 (src : Reg)
  | movT2 (src : Reg)
deriving DecidableEq, Repr

/-- `stamps` counts how often the time stamp counter has been read. -/
structure Core where
  gpr : Reg → Word
  ymm : Fin 16 → Half
  stamps : Nat
  t1 : Word
  t2 : Word

/-- What `rdtscp` reads: the time stamp, and the number of the processor. -/
structure Counter where
  stamp : Nat → Word
  processor : Nat → BitVec 32

def Core.set (core : Core) (reg : Reg) (word : Word) : Core := { core with gpr := Function.update core.gpr reg word }

def Core.setYmm (core : Core) (dst : Fin 16) (half : Half) : Core := { core with ymm := Function.update core.ymm dst half }

def low (word : Word) : Word := (word.extractLsb' 0 32).setWidth 64

def high (word : Word) : Word := (word.extractLsb' 32 32).setWidth 64

def broadcast (value : Word) : Half := fun lane => value.byte (lane % 8)

def readHalf (memory : Memory) (address : Word) : Half := fun lane => memory (address + BitVec.ofNat 64 lane)

def Access.event (address : Word) : Access → Event
  | .vmovdqa => .store address 32
  | .vmovntpd => .ntStore address
  | .movq => .store address 8
  | .vmovdqaLoad _ => .load address 32
  | .vmovntdqaLoad _ => .ntLoad address
  | .movqLoad => .load address 8
  | .clflush => .clflush address
  | .clflushopt => .clflushopt address
  | .clwb => .clwb address

def Access.writes (core : Core) (address : Word) : Access → Word → Option Byte
  | .vmovdqa => storeBytes address 32 fun lane => (core.ymm ymm0).lane lane
  | .vmovntpd => storeBytes address 32 fun lane => (core.ymm ymm0).lane lane
  | .movq => storeBytes address 8 (core.gpr .rdx).byte
  | _ => fun _ => none

def Access.loads (core : Core) (memory : Memory) (address : Word) : Access → Core
  | .vmovdqaLoad dst => core.setYmm dst (readHalf memory address)
  | .vmovntdqaLoad dst => core.setYmm dst (readHalf memory address)
  | .movqLoad => core.set .rdx (memory.readWord address)
  | _ => core

def Core.address (core : Core) (disp : Nat) : Word := core.gpr .rsi + BitVec.ofNat 64 disp

/-- `rdtscp` clears the high halves of the three registers it loads. -/
def Core.stamped (core : Core) (counter : Counter) : Core :=
  let stamp := counter.stamp core.stamps
  { ((core.set .rax (low stamp)).set .rdx (high stamp)).set .rcx ((counter.processor core.stamps).setWidth 64) with
    stamps := core.stamps + 1 }

def register (core : Core) : Action Core Word Byte Event := .idle core

def Instr.act (counter : Counter) : Actor Instr Core Word Byte Event
  | .vbroadcastsd value, core, _ => register (core.setYmm ymm0 (broadcast value))
  | .mov value dst, core, _ => register (core.set dst value)
  | .access kind disp, core, memory =>
      { own := kind.loads core memory (core.address disp)
        writes := kind.writes core (core.address disp)
        events := [kind.event (core.address disp)] }
  | .mfence, core, _ => ⟨core, fun _ => none, [.mfence]⟩
  | .lfence, core, _ => register core
  | .nop, core, _ => register core
  | .rdtscp, core, _ => ⟨core.stamped counter, fun _ => none, [.rdtscp (counter.stamp core.stamps)]⟩
  | .movLow src dst, core, _ => register (core.set dst (low (core.gpr src)))
  | .shl count dst, core, _ => register (core.set dst (core.gpr dst <<< count))
  | .or src dst, core, _ => register (core.set dst (core.gpr dst ||| core.gpr src))
  | .movT1 src, core, _ => register { core with t1 := core.gpr src }
  | .movT2 src, core, _ => register { core with t2 := core.gpr src }

abbrev run (counter : Counter) (code : List Instr) (core : Core) (memory : Memory) : Action Core Word Byte Event :=
  runScript (Instr.act counter) code core memory

/-! # Registers -/

section Registers

variable {core : Core} {reg other : Reg} {word : Word} {counter : Counter}

@[simp] theorem Core.set_same : (core.set reg word).gpr reg = word := Function.update_self ..

theorem Core.set_other (different : other ≠ reg) : (core.set reg word).gpr other = core.gpr other :=
  Function.update_of_ne different ..

@[simp] theorem Core.set_ymm : (core.set reg word).ymm = core.ymm := rfl

@[simp] theorem Core.setYmm_same {dst : Fin 16} {half : Half} : (core.setYmm dst half).ymm dst = half := by
  simp [Core.setYmm]

@[simp] theorem Core.setYmm_gpr {dst : Fin 16} {half : Half} : (core.setYmm dst half).gpr = core.gpr := rfl

@[simp] theorem Core.set_stamps : (core.set reg word).stamps = core.stamps := rfl

theorem low_low (word : Word) : low (low word) = low word := by
  ext i bound
  by_cases below : i < 32
  · simp [low, below, bound]
  · simp [low, below]

theorem low_high (word : Word) : low (high word) = high word := by
  ext i bound
  by_cases below : i < 32
  · simp [low, high, below, bound]
  · simp [low, high, below]

/-- The two halves of a stamp, put together. -/
theorem joined (word : Word) : high word <<< 32 ||| low word = word := by
  ext i bound
  by_cases below : i < 32
  · simp [high, low, below, BitVec.getLsbD_eq_getElem bound]
  · have back : 32 + (i - 32) = i := by omega
    have short : i - 32 < 32 := by omega
    simp [high, low, below, short, back, bound]

end Registers

/-! # Accesses, each with its displacement -/

def accessCode (accesses : List (Access × Nat)) : List Instr := accesses.map fun entry => .access entry.1 entry.2

def accessEvents (base : Word) (accesses : List (Access × Nat)) : List Event :=
  accesses.map fun entry => entry.1.event (base + BitVec.ofNat 64 entry.2)

def Access.Stores (address byte : Word) : Access → Prop
  | .vmovdqa => byte ∈ Range.mk address 32
  | .vmovntpd => byte ∈ Range.mk address 32
  | .movq => byte ∈ Range.mk address 8
  | _ => False

def Stored (base : Word) (accesses : List (Access × Nat)) (byte : Word) : Prop :=
  ∃ entry ∈ accesses, entry.1.Stores (base + BitVec.ofNat 64 entry.2) byte

/-- A store of nothing but copies of the word, or no store at all.  A load may change what later stores hold. -/
def Access.Repeats (core : Core) (word : Word) : Access → Prop
  | .vmovdqa => core.ymm ymm0 = broadcast word
  | .vmovntpd => core.ymm ymm0 = broadcast word
  | .movq => core.gpr .rdx = word
  | .vmovdqaLoad _ => False
  | .vmovntdqaLoad _ => False
  | .movqLoad => False
  | .clflush => True
  | .clflushopt => True
  | .clwb => True

/-- What the code between two readings of the time stamp counter leaves alone. -/
structure Steady (before after : Core) : Prop where
  rsi : after.gpr .rsi = before.gpr .rsi
  r8 : after.gpr .r8 = before.gpr .r8
  r9 : after.gpr .r9 = before.gpr .r9
  stamps : after.stamps = before.stamps

section Accesses

variable {core : Core} {memory : Memory} {counter : Counter} {accesses earlier later : List (Access × Nat)}
variable {base address byte word : Word} {kind : Access}

theorem Steady.trans {before middle after : Core} (first : Steady before middle) (second : Steady middle after) :
    Steady before after :=
  ⟨second.rsi.trans first.rsi, second.r8.trans first.r8, second.r9.trans first.r9, second.stamps.trans first.stamps⟩

theorem Access.loads_steady (kind : Access) (core : Core) (memory : Memory) (address : Word) :
    Steady core (kind.loads core memory address) := by
  cases kind with
  | movqLoad =>
      refine ⟨?_, ?_, ?_, rfl⟩ <;>
      · apply Core.set_other
        decide
  | _ => exact ⟨rfl, rfl, rfl, rfl⟩

theorem Access.writes_none (unstored : ¬ kind.Stores address byte) : kind.writes core address byte = none := by
  cases kind with
  | vmovdqa => exact if_neg unstored
  | vmovntpd => exact if_neg unstored
  | movq => exact if_neg unstored
  | _ => rfl

theorem accesses_run (counter : Counter) (accesses : List (Access × Nat)) (core : Core) (memory : Memory) :
    Steady core (run counter (accessCode accesses) core memory).own ∧
    (run counter (accessCode accesses) core memory).events = accessEvents (core.gpr .rsi) accesses ∧
    ∀ byte, ¬ Stored (core.gpr .rsi) accesses byte → (run counter (accessCode accesses) core memory).writes byte = none := by
  induction accesses generalizing core memory with
  | nil => exact ⟨⟨rfl, rfl, rfl, rfl⟩, rfl, fun _ _ => rfl⟩
  | cons entry rest ih =>
      obtain ⟨kind, disp⟩ := entry
      have first := kind.loads_steady core memory (core.address disp)
      obtain ⟨steady, events, unwritten⟩ := ih (kind.loads core memory (core.address disp))
        (overwrite memory (kind.writes core (core.address disp)))
      rw [first.rsi] at events unwritten
      refine ⟨first.trans steady, ?_, fun byte unstored => ?_⟩
      · exact congrArg (kind.event (core.address disp) :: ·) events
      · have here : ¬ kind.Stores (core.address disp) byte := fun stores =>
          unstored ⟨_, List.mem_cons_self, stores⟩
        have behind : ¬ Stored (core.gpr .rsi) rest byte := fun stored => by
          obtain ⟨entry, member, stores⟩ := stored
          exact unstored ⟨entry, List.mem_cons_of_mem _ member, stores⟩
        exact Option.or_eq_none_iff.mpr ⟨unwritten byte behind, Access.writes_none here⟩

theorem Access.repeats_loads (repeats : kind.Repeats core word) : kind.loads core memory address = core := by
  cases kind with
  | vmovdqaLoad dst => exact repeats.elim
  | vmovntdqaLoad dst => exact repeats.elim
  | movqLoad => exact repeats.elim
  | _ => rfl

/-- Displacements are multiples of the size of a word. -/
theorem displaced {disp : Nat} (eight : 8 ∣ disp) :
    (byte - (base + BitVec.ofNat 64 disp)).toNat % 8 = (byte - base).toNat % 8 := by
  obtain ⟨count, rfl⟩ := eight
  bv_omega

theorem storeBytes_repeat {count disp : Nat} {bytes : Nat → Byte} (eight : 8 ∣ disp)
    (same : ∀ lane < count, bytes lane = word.byte (lane % 8)) (inside : byte ∈ Range.mk (base + BitVec.ofNat 64 disp) count) :
    storeBytes (base + BitVec.ofNat 64 disp) count bytes byte = some (word.byte ((byte - base).toNat % 8)) := by
  rw [storeBytes, if_pos (show _ < count from inside), same _ inside, displaced eight]

theorem Access.writes_repeat {disp : Nat} (repeats : kind.Repeats core word) (eight : 8 ∣ disp)
    (stores : kind.Stores (core.address disp) byte) :
    kind.writes core (core.address disp) byte = some (word.byte ((byte - core.gpr .rsi).toNat % 8)) := by
  have half (same : core.ymm ymm0 = broadcast word) (lane : Nat) (bound : lane < 32) :
      (core.ymm ymm0).lane lane = word.byte (lane % 8) := by
    rw [Half.lane, same, broadcast]
    simp only [Nat.mod_eq_of_lt bound]
  cases kind with
  | vmovdqa => exact storeBytes_repeat eight (half repeats) stores
  | vmovntpd => exact storeBytes_repeat eight (half repeats) stores
  | movq =>
      apply storeBytes_repeat eight _ stores
      intro lane bound
      rw [show core.gpr .rdx = word from repeats, Nat.mod_eq_of_lt bound]
  | _ => exact stores.elim

/-- Stores of copies of one word leave the word wherever they store. -/
theorem accesses_repeat (counter : Counter) (memory : Memory) (repeats : ∀ entry ∈ accesses, entry.1.Repeats core word)
    (eight : ∀ entry ∈ accesses, 8 ∣ entry.2) :
    (run counter (accessCode accesses) core memory).own = core ∧
    ∀ byte, Stored (core.gpr .rsi) accesses byte →
      (run counter (accessCode accesses) core memory).writes byte = some (word.byte ((byte - core.gpr .rsi).toNat % 8)) := by
  induction accesses generalizing memory with
  | nil =>
      refine ⟨rfl, fun byte stored => ?_⟩
      obtain ⟨_, member, _⟩ := stored
      exact absurd member List.not_mem_nil
  | cons entry rest ih =>
      obtain ⟨kind, disp⟩ := entry
      have kept : kind.loads core memory (core.address disp) = core :=
        Access.repeats_loads (repeats _ List.mem_cons_self)
      obtain ⟨own, written⟩ := ih (overwrite memory (kind.writes core (core.address disp)))
        (fun entry member => repeats entry (List.mem_cons_of_mem _ member))
        fun entry member => eight entry (List.mem_cons_of_mem _ member)
      have split : run counter (accessCode ((kind, disp) :: rest)) core memory =
          (⟨core, kind.writes core (core.address disp), [kind.event (core.address disp)]⟩ : Action Core Word Byte Event).followed
            (run counter (accessCode rest) core (overwrite memory (kind.writes core (core.address disp)))) := by
        simp only [run, accessCode, List.map_cons, runScript, Instr.act, kept]
      rw [split]
      refine ⟨own, fun byte stored => ?_⟩
      rw [Action.followed_writes]
      by_cases behind : Stored (core.gpr .rsi) rest byte
      · rw [written byte behind, Option.some_or]
      · obtain ⟨_, _, unwritten⟩ := accesses_run counter rest core (overwrite memory (kind.writes core (core.address disp)))
        obtain ⟨entry, member, stores⟩ := stored
        rcases List.mem_cons.mp member with rfl | member
        · rw [unwritten byte behind, Option.none_or]
          exact Access.writes_repeat (repeats _ List.mem_cons_self) (eight _ List.mem_cons_self) stores
        · exact absurd ⟨entry, member, stores⟩ behind

end Accesses

/-! # Where accesses store -/

section Stores

variable {base byte : Word} {accesses more : List (Access × Nat)} {first second size count : Nat}

theorem stored_append : Stored base (accesses ++ more) byte ↔ Stored base accesses byte ∨ Stored base more byte := by
  simp only [Stored, List.mem_append, or_and_right, exists_or]

theorem stored_single {entry : Access × Nat} :
    Stored base [entry] byte ↔ entry.1.Stores (base + BitVec.ofNat 64 entry.2) byte := by
  simp [Stored]

theorem mem_parts (fits : first + second ≤ 2 ^ 64) : byte ∈ Range.mk base (first + second) ↔
    byte ∈ Range.mk base first ∨ byte ∈ Range.mk (base + BitVec.ofNat 64 first) second := by
  simp only [Range.mem_iff]
  bv_omega

/-- Consecutive pieces of one size. -/
theorem mem_pieces (fits : size * count ≤ 2 ^ 64) : byte ∈ Range.mk base (size * count) ↔
    ∃ piece < count, byte ∈ Range.mk (base + BitVec.ofNat 64 (size * piece)) size := by
  induction count with
  | zero => simp [Range.mem_iff]
  | succ count ih =>
      rw [Nat.mul_succ] at fits ⊢
      rw [mem_parts fits, ih (by omega)]
      simp only [Nat.lt_succ_iff_lt_or_eq, or_and_right, exists_or, exists_eq_left]

end Stores

end RwSep.Latency
