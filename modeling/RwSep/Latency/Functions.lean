import RwSep.Latency.Asm

namespace RwSep.Latency

open RwSep.Data RwSep.Execution
open RwSep.X86 (Reg Memory lineOf storeBytes)

/-! The latency functions of common.h and the tables that list them. -/

/-- The local `value` of the functions that store `%ymm0`. -/
def value : Word := 0xC0FFEEEEBABE0000

def LOAD_VALUE : List Instr := [.vbroadcastsd value]

def LOAD_ADDR (memarea : Word) : List Instr := [.mov memarea .rsi, .mfence]

def flushCacheLine : List (Access × Nat) := (List.range 4).map fun line => (.clflush, 64 * line)

def FLUSH_CACHE_LINE : List Instr := accessCode flushCacheLine ++ [.mfence]

def loadCacheLine : List (Access × Nat) := (List.range 32).map fun word => (.movqLoad, 8 * word)

def LOAD_CACHE_LINE : List Instr := accessCode loadCacheLine ++ [.mfence]

def CLEAR_PIPELINE : List Instr := List.replicate 42 .nop

def TIMING_BEG : List Instr := [.rdtscp, .lfence, .movLow .rdx .r9, .movLow .rax .r8]

def TIMING_END : List Instr :=
  [.mfence, .rdtscp, .lfence, .shl 32 .rdx, .or .rax .rdx, .movLow .r9 .rax, .shl 32 .rax, .or .r8 .rax, .movT1 .rax,
    .movT2 .rdx]

def measured (opening : List Instr) (accesses : List (Access × Nat)) : List Instr :=
  opening ++ TIMING_BEG ++ accessCode accesses ++ TIMING_END

/-- The functions for 64, 128 and 256 bytes differ in the number of lines only. -/
inductive Family where
  | load
  | ntLoad
  | store
  | storeClflush
  | storeClwb
  | storeClflushopt
  | nstore
  | storeMovq
  | storeClflushMovq
  | loadMovq
deriving DecidableEq, Repr

def Family.opening (addr : Word) : Family → List Instr
  | .load => LOAD_ADDR addr ++ FLUSH_CACHE_LINE ++ CLEAR_PIPELINE
  | .ntLoad => LOAD_ADDR addr ++ FLUSH_CACHE_LINE ++ CLEAR_PIPELINE
  | .store => LOAD_VALUE ++ LOAD_ADDR addr ++ LOAD_CACHE_LINE ++ CLEAR_PIPELINE
  | .storeClflush => LOAD_ADDR addr ++ LOAD_VALUE ++ LOAD_CACHE_LINE ++ CLEAR_PIPELINE
  | .storeClwb => LOAD_ADDR addr ++ LOAD_VALUE ++ LOAD_CACHE_LINE ++ CLEAR_PIPELINE
  | .storeClflushopt => LOAD_ADDR addr ++ LOAD_VALUE ++ LOAD_CACHE_LINE ++ CLEAR_PIPELINE
  | .nstore => LOAD_ADDR addr ++ LOAD_VALUE ++ FLUSH_CACHE_LINE ++ CLEAR_PIPELINE
  | .storeMovq => LOAD_ADDR addr ++ LOAD_CACHE_LINE ++ CLEAR_PIPELINE
  | .storeClflushMovq => LOAD_ADDR addr ++ LOAD_CACHE_LINE ++ CLEAR_PIPELINE
  | .loadMovq => LOAD_ADDR addr ++ FLUSH_CACHE_LINE ++ CLEAR_PIPELINE

/-- The register that a vector load of the line has as its destination: all but the first load `%ymm1`. -/
def loaded (line : Nat) : Fin 16 := if line = 0 then ymm0 else ymm1

def storeLine (line : Nat) : List (Access × Nat) := [(.vmovdqa, 64 * line), (.vmovdqa, 64 * line + 32)]

def storeWords (line : Nat) : List (Access × Nat) := (List.range 8).map fun word => (.movq, 64 * line + 8 * word)

def Family.line : Family → Nat → List (Access × Nat)
  | .load, line => [(.vmovdqaLoad (loaded line), 64 * line), (.vmovdqaLoad ymm1, 64 * line + 32)]
  | .ntLoad, line => [(.vmovntdqaLoad (loaded line), 64 * line), (.vmovntdqaLoad ymm1, 64 * line + 32)]
  | .store, line => storeLine line
  | .storeClflush, line => storeLine line ++ [(.clflush, 64 * line)]
  | .storeClwb, line => storeLine line ++ [(.clwb, 64 * line)]
  | .storeClflushopt, line => storeLine line ++ [(.clflushopt, 64 * line)]
  | .nstore, line => [(.vmovntpd, 64 * line), (.vmovntpd, 64 * line + 32)]
  | .storeMovq, line => storeWords line
  | .storeClflushMovq, line => storeWords line ++ [(.clflush, 64 * line)]
  | .loadMovq, line => (List.range 8).map fun word => (.movqLoad, 64 * line + 8 * word)

def Family.accesses (family : Family) (lines : Nat) : List (Access × Nat) := (List.range lines).flatMap family.line

def Family.code (family : Family) (lines : Nat) (addr : Word) : List Instr :=
  measured (family.opening addr) (family.accesses lines)

/-! # 64-byte benchmarks -/

def store64byteFence : Word → List Instr := Family.store.code 1

def store64byteClflush : Word → List Instr := Family.storeClflush.code 1

def store64byteClwb : Word → List Instr := Family.storeClwb.code 1

def store64byteClflushopt : Word → List Instr := Family.storeClflushopt.code 1

def nstore64byteFence : Word → List Instr := Family.nstore.code 1

def load64byteFence : Word → List Instr := Family.load.code 1

def load64byteFenceNt : Word → List Instr := Family.ntLoad.code 1

def baseline : Word → List Instr := fun _ => measured CLEAR_PIPELINE []

def store64byteFenceMovq : Word → List Instr := Family.storeMovq.code 1

def store64byteClflushMovq : Word → List Instr := Family.storeClflushMovq.code 1

def load64byteFenceMovq : Word → List Instr := Family.loadMovq.code 1

/-! # 128-byte benchmarks -/

def store128byteFence : Word → List Instr := Family.store.code 2

def store128byteClflush : Word → List Instr := Family.storeClflush.code 2

def store128byteClwb : Word → List Instr := Family.storeClwb.code 2

def store128byteClflushopt : Word → List Instr := Family.storeClflushopt.code 2

def nstore128byteFence : Word → List Instr := Family.nstore.code 2

def load128byteFence : Word → List Instr := Family.load.code 2

def load128byteFenceNt : Word → List Instr := Family.ntLoad.code 2

def store128byteFenceMovq : Word → List Instr := Family.storeMovq.code 2

def store128byteClflushMovq : Word → List Instr := Family.storeClflushMovq.code 2

def load128byteFenceMovq : Word → List Instr := Family.loadMovq.code 2

/-! # 256-byte benchmarks -/

def store256byteFence : Word → List Instr := Family.store.code 4

def store256byteClflush : Word → List Instr := Family.storeClflush.code 4

def store256byteClwb : Word → List Instr := Family.storeClwb.code 4

def store256byteClflushopt : Word → List Instr := Family.storeClflushopt.code 4

def nstore256byteFence : Word → List Instr := Family.nstore.code 4

def load256byteFence : Word → List Instr := Family.load.code 4

def load256byteFenceNt : Word → List Instr := Family.ntLoad.code 4

def store256byteFenceMovq : Word → List Instr := Family.storeMovq.code 4

def store256byteClflushMovq : Word → List Instr := Family.storeClflushMovq.code 4

def load256byteFenceMovq : Word → List Instr := Family.loadMovq.code 4

/-! # Task tables -/

/-- `#ifdef AEP_SUPPORTED` -/
def ifAep {α : Type} (aepSupported : Bool) (entries : List α) : List α := if aepSupported then entries else []

def benchFunc (aepSupported : Bool) : List (Word → List Instr) :=
  [load64byteFence, load64byteFenceNt, store64byteFence, store64byteClflush] ++
  ifAep aepSupported [store64byteClwb, store64byteClflushopt] ++
  [nstore64byteFence, store64byteFenceMovq, store64byteClflushMovq, load64byteFenceMovq] ++
  [load128byteFence, load128byteFenceNt, store128byteFence, store128byteClflush] ++
  ifAep aepSupported [store128byteClwb, store128byteClflushopt] ++
  [nstore128byteFence, store128byteFenceMovq, store128byteClflushMovq, load128byteFenceMovq] ++
  [load256byteFence, load256byteFenceNt, store256byteFence, store256byteClflush] ++
  ifAep aepSupported [store256byteClwb, store256byteClflushopt] ++
  [nstore256byteFence, store256byteFenceMovq, store256byteClflushMovq, load256byteFenceMovq, baseline]

def latencyTasksSkip (aepSupported : Bool) : List Nat :=
  [64, 64, 64, 64] ++ ifAep aepSupported [64, 64] ++ [64, 64, 64, 64] ++
  [128, 128, 128, 128] ++ ifAep aepSupported [128, 128] ++ [128, 128, 128, 128] ++
  [256, 256, 256, 256] ++ ifAep aepSupported [256, 256] ++ [256, 256, 256, 256, 0]

def latencyTasksStr (aepSupported : Bool) : List String :=
  ["load-fence-64", "ntload-fence-64", "store-fence-64", "store-clflush-64"] ++
  ifAep aepSupported ["store-clwb-64", "store-clflushopt-64"] ++
  ["nstore-fence-64", "store-fence-movq-64", "store-clflush-movq-64", "load-fence-movq-64"] ++
  ["load-fence-128", "ntload-fence-128", "store-fence-128", "store-clflush-128"] ++
  ifAep aepSupported ["store-clwb-128", "store-clflushopt-128"] ++
  ["nstore-fence-128", "store-fence-movq-128", "store-clflush-movq-128", "load-fence-movq-128"] ++
  ["load-fence-256", "ntload-fence-256", "store-fence-256", "store-clflush-256"] ++
  ifAep aepSupported ["store-clwb-256", "store-clflushopt-256"] ++
  ["nstore-fence-256", "store-fence-movq-256", "store-clflush-movq-256", "load-fence-movq-256", "baseline"]

/-- `latency_bench_map`, without its last entry. -/
def Family.benchName : Family → String
  | .load => "load-fence"
  | .ntLoad => "ntload-fence"
  | .store => "store-fence"
  | .storeClflush => "store-clflush"
  | .storeClwb => "store-clwb"
  | .storeClflushopt => "store-clflushopt"
  | .nstore => "nstore-fence"
  | .storeMovq => "store-fence-movq"
  | .storeClflushMovq => "store-clflush-movq"
  | .loadMovq => "load-fence-movq"

def families (aepSupported : Bool) : List Family :=
  [.load, .ntLoad, .store, .storeClflush] ++ ifAep aepSupported [.storeClwb, .storeClflushopt] ++
  [.nstore, .storeMovq, .storeClflushMovq, .loadMovq]

/-- The tables run through the families for one, two and four lines. -/
def tasks (aepSupported : Bool) : List (Family × Nat) :=
  [1, 2, 4].flatMap fun lines => (families aepSupported).map fun family => (family, lines)

theorem benchFunc_tasks (aepSupported : Bool) :
    benchFunc aepSupported = (tasks aepSupported).map (fun task => task.1.code task.2) ++ [baseline] := by
  cases aepSupported <;> rfl

theorem latencyTasksSkip_tasks (aepSupported : Bool) :
    latencyTasksSkip aepSupported = (tasks aepSupported).map (fun task => 64 * task.2) ++ [0] := by
  cases aepSupported <;> rfl

theorem latencyTasksStr_tasks (aepSupported : Bool) : latencyTasksStr aepSupported =
    (tasks aepSupported).map (fun task => task.1.benchName ++ "-" ++ toString (64 * task.2)) ++ ["baseline"] := by
  cases aepSupported <;> decide

end RwSep.Latency
