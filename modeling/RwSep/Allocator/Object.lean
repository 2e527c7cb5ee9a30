import RwSep.Allocator.System

namespace RwSep.Allocator

open RwSep.Data

/-! The `fastalloc` and `concurrency_fastalloc` objects of the three copies of
fastalloc.cpp (OptaneStudy/src, fastallocate, pm_study/src).

The copies share the class layout and `alloc`; they differ in the paths they
map and in whether `alloc` maps a file at all.
-/

def ALLOC_SIZE : Word := (4 : Word) <<< 30

def CONCURRENCY_ALLOC_SIZE : Word := (4 : Word) <<< 28

inductive Stop where
  /-- `exit(0)` on an invalid channel. -/
  | exit
  /-- A store or load outside `dram[100]` or `nvm[100]`, which C++ leaves undefined. -/
  | tableOverrun
deriving DecidableEq, Repr

abbrev Table := Vector Word 100

def Table.store (table : Table) (index pointer : Word) : Except Stop Table :=
  if bound : index.toNat < 100 then .ok (table.set index.toNat pointer bound)
  else .error .tableOverrun

def Table.load (table : Table) (index : Word) : Except Stop Word :=
  if bound : index.toNat < 100 then .ok table[index.toNat]
  else .error .tableOverrun

/-- The fields of `class fastalloc`.  `channel` is a field of OptaneStudy's
class only; the other two copies never look at it. -/
structure Fastalloc where
  dram : Table
  dramCurr : Word
  channel : Int
  dramLeft : Word
  dramCnt : Word
  nvm : Table
  nvmCurr : Word
  nvmLeft : Word
  nvmCnt : Word

/-- `new fastalloc`: the tables and the channel have no initialiser, so their
contents are whatever the memory held. -/
def Fastalloc.new (dram nvm : Table) (channel : Int) : Fastalloc :=
  { dram, dramCurr := 0, channel, dramLeft := 0, dramCnt := 0,
    nvm, nvmCurr := 0, nvmLeft := 0, nvmCnt := 0 }

def roundUp (size : Word) : Word :=
  size / 64 * 64 + (if size % 64 ≠ 0 then 1 else 0) * 64

namespace Fastalloc

/-- `dram[dram_cnt] = new char[length]; dram_curr = dram[dram_cnt];
dram_left = length; dram_cnt++;` -/
def openDram (a : Fastalloc) (os : Os) (length : Word) : Except Stop (Fastalloc × Os) := do
  let (pointer, os) := os.obtain (.newChar length)
  let dram ← a.dram.store a.dramCnt pointer
  let dramCurr ← dram.load a.dramCnt
  return ({ a with dram, dramCurr, dramLeft := length, dramCnt := a.dramCnt + 1 }, os)

def storeNvm (a : Fastalloc) (os : Os) : List Acquire → Except Stop (Fastalloc × Os)
  | [] => return (a, os)
  | acquire :: rest => do
      let (pointer, os) := os.obtain acquire
      let nvm ← a.nvm.store a.nvmCnt pointer
      { a with nvm }.storeNvm os rest

/-- The stores of `fill`, then `nvm_curr = nvm[nvm_cnt]; nvm_left = length; nvm_cnt++;` -/
def openNvm (a : Fastalloc) (os : Os) (length : Word) (fill : Fill) :
    Except Stop (Fastalloc × Os) := do
  let (a, os) ← a.storeNvm os (fill.overwritten ++ [fill.kept])
  let nvmCurr ← a.nvm.load a.nvmCnt
  return ({ a with nvmCurr, nvmLeft := length, nvmCnt := a.nvmCnt + 1 }, os)

/-- The body of every `init`: the first region of each pool, `length` bytes long. -/
def openPools (a : Fastalloc) (os : Os) (length : Word) (fill : Fastalloc → Fill) :
    Except Stop (Fastalloc × Os) := do
  let (a, os) ← a.openDram os length
  a.openNvm os length (fill a)

/-- `fastalloc::alloc`; `growth` is what the copy does to fill `nvm[nvm_cnt]`
when the current NVM region is exhausted. -/
def allocWith (growth : Fastalloc → Fill) (a : Fastalloc) (os : Os)
    (size : Word) (onNvm : Bool) : Except Stop (Word × Fastalloc × Os) :=
  let size := roundUp size
  if onNvm then
    if size > a.nvmLeft then do
      let (a, os) ← a.openNvm os ALLOC_SIZE (growth a)
      let a := { a with nvmLeft := a.nvmLeft - size }
      let tmp := a.nvmCurr
      return (tmp, { a with nvmCurr := a.nvmCurr + size }, os)
    else
      let a := { a with nvmLeft := a.nvmLeft - size }
      let tmp := a.nvmCurr
      return (tmp, { a with nvmCurr := a.nvmCurr + size }, os)
  else
    if size > a.dramLeft then do
      let (a, os) ← a.openDram os ALLOC_SIZE
      let a := { a with dramLeft := a.dramLeft - size }
      let tmp := a.dramCurr
      return (tmp, { a with dramCurr := a.dramCurr + size }, os)
    else
      let a := { a with dramLeft := a.dramLeft - size }
      let tmp := a.dramCurr
      return (tmp, { a with dramCurr := a.dramCurr + size }, os)

end Fastalloc

structure Request where
  size : Word
  onNvm : Bool
deriving DecidableEq, Repr

def step (growth : Fastalloc → Fill) (state : Fastalloc × Os) (request : Request) :
    Except Stop (Word × Fastalloc × Os) :=
  state.1.allocWith growth state.2 request.size request.onNvm

/-! # The three copies

`linux` tells whether `__linux__` is defined.
-/

/-- With `__linux__`: `nvm[nvm_cnt] = new char[ALLOC_SIZE]`, overwritten by
the mapping of `length` bytes of the file; without: `new char[length]`. -/
def mappedFill (linux : Bool) (path : String) (length : Word) : Fill :=
  if linux then ⟨[.newChar ALLOC_SIZE], .mapFile path length⟩
  else ⟨[], .newChar length⟩

namespace OptaneStudy

/-- `"/mnt/aep" + to_string(channel) + "/test" + thread + to_string(nvm_cnt)`;
`thread` is empty except in `concurrency_fastalloc::init`. -/
def nvmFilename (channel : Int) (thread : String) (nvmCnt : Word) : String :=
  "/mnt/aep" ++ toString channel ++ "/test" ++ thread ++ toString nvmCnt.toNat

def init (linux : Bool) (a : Fastalloc) (os : Os) (ch : Int) : Except Stop (Fastalloc × Os) :=
  let a := { a with channel := ch }
  if a.channel < 0 ∨ a.channel > 3 then .error .exit
  else a.openPools os ALLOC_SIZE fun a => mappedFill linux (nvmFilename ch "" a.nvmCnt) ALLOC_SIZE

/-- `concurrency_fastalloc::init(int channel)`: the parameter hides the member,
which keeps its old contents.  `t` is the low half of the thread id. -/
def concurrencyInit (linux : Bool) (a : Fastalloc) (os : Os) (channel : Int) (t : BitVec 32) :
    Except Stop (Fastalloc × Os) :=
  a.openPools os CONCURRENCY_ALLOC_SIZE fun a =>
    mappedFill linux (nvmFilename channel (toString t.toNat) a.nvmCnt) CONCURRENCY_ALLOC_SIZE

def growth (linux : Bool) (a : Fastalloc) : Fill :=
  mappedFill linux (nvmFilename a.channel "" a.nvmCnt) ALLOC_SIZE

def alloc (linux : Bool) := Fastalloc.allocWith (growth linux)

end OptaneStudy

namespace Fastallocate

/-- The global `mount`, assigned nowhere else. -/
def mount : Int := 3

def nvmFilename (thread : String) (nvmCnt : Word) : String :=
  "/mnt/aep" ++ toString mount ++ "/test" ++ thread ++ toString nvmCnt.toNat

def init (linux : Bool) (a : Fastalloc) (os : Os) : Except Stop (Fastalloc × Os) :=
  a.openPools os ALLOC_SIZE fun a => mappedFill linux (nvmFilename "" a.nvmCnt) ALLOC_SIZE

def concurrencyInit (linux : Bool) (a : Fastalloc) (os : Os) (t : BitVec 32) :
    Except Stop (Fastalloc × Os) :=
  a.openPools os CONCURRENCY_ALLOC_SIZE fun a =>
    mappedFill linux (nvmFilename (toString t.toNat) a.nvmCnt) CONCURRENCY_ALLOC_SIZE

/-- The mapping statements are commented out here, under `__linux__` too. -/
def growth (_ : Fastalloc) : Fill := ⟨[], .newChar ALLOC_SIZE⟩

def alloc := Fastalloc.allocWith growth

end Fastallocate

namespace PmStudy

def init (linux : Bool) (a : Fastalloc) (os : Os) : Except Stop (Fastalloc × Os) :=
  a.openPools os ALLOC_SIZE fun a =>
    mappedFill linux ("/mnt/aep1/test" ++ toString a.nvmCnt.toNat) ALLOC_SIZE

def concurrencyInit (linux : Bool) (a : Fastalloc) (os : Os) (t : BitVec 32) :
    Except Stop (Fastalloc × Os) :=
  a.openPools os CONCURRENCY_ALLOC_SIZE fun a =>
    mappedFill linux ("/mnt/aep/test" ++ toString t.toNat ++ toString a.nvmCnt.toNat)
      CONCURRENCY_ALLOC_SIZE

def growth (_ : Fastalloc) : Fill := ⟨[], .newChar ALLOC_SIZE⟩

def alloc := Fastalloc.allocWith growth

end PmStudy

inductive Copy where
  | optaneStudy
  | fastallocate
  | pmStudy
deriving DecidableEq, Repr

inductive Kind where
  | plain
  | concurrency
deriving DecidableEq, Repr

structure Setup where
  copy : Copy
  kind : Kind
  linux : Bool
  channel : Int
  thread : BitVec 32
deriving DecidableEq, Repr

namespace Setup

def init (setup : Setup) (a : Fastalloc) (os : Os) : Except Stop (Fastalloc × Os) :=
  match setup.copy, setup.kind with
  | .optaneStudy, .plain => OptaneStudy.init setup.linux a os setup.channel
  | .optaneStudy, .concurrency =>
      OptaneStudy.concurrencyInit setup.linux a os setup.channel setup.thread
  | .fastallocate, .plain => Fastallocate.init setup.linux a os
  | .fastallocate, .concurrency => Fastallocate.concurrencyInit setup.linux a os setup.thread
  | .pmStudy, .plain => PmStudy.init setup.linux a os
  | .pmStudy, .concurrency => PmStudy.concurrencyInit setup.linux a os setup.thread

def growth (setup : Setup) : Fastalloc → Fill :=
  match setup.copy with
  | .optaneStudy => OptaneStudy.growth setup.linux
  | .fastallocate => Fastallocate.growth
  | .pmStudy => PmStudy.growth

def alloc (setup : Setup) : Fastalloc → Os → Word → Bool → Except Stop (Word × Fastalloc × Os) :=
  match setup.copy with
  | .optaneStudy => OptaneStudy.alloc setup.linux
  | .fastallocate => Fastallocate.alloc
  | .pmStudy => PmStudy.alloc

def firstLength (setup : Setup) : Word :=
  match setup.kind with
  | .plain => ALLOC_SIZE
  | .concurrency => CONCURRENCY_ALLOC_SIZE

def step (setup : Setup) (state : Fastalloc × Os) (request : Request) :
    Except Stop (Word × Fastalloc × Os) :=
  setup.alloc state.1 state.2 request.size request.onNvm

def firstPath (setup : Setup) (nvmCnt : Word) : String :=
  match setup.copy, setup.kind with
  | .optaneStudy, .plain => OptaneStudy.nvmFilename setup.channel "" nvmCnt
  | .optaneStudy, .concurrency =>
      OptaneStudy.nvmFilename setup.channel (toString setup.thread.toNat) nvmCnt
  | .fastallocate, .plain => Fastallocate.nvmFilename "" nvmCnt
  | .fastallocate, .concurrency => Fastallocate.nvmFilename (toString setup.thread.toNat) nvmCnt
  | .pmStudy, .plain => "/mnt/aep1/test" ++ toString nvmCnt.toNat
  | .pmStudy, .concurrency => "/mnt/aep/test" ++ toString setup.thread.toNat ++ toString nvmCnt.toNat

def setsChannel (setup : Setup) : Prop := setup.copy = .optaneStudy ∧ setup.kind = .plain

instance (setup : Setup) : Decidable setup.setsChannel :=
  inferInstanceAs (Decidable (setup.copy = .optaneStudy ∧ setup.kind = .plain))

/-- The six `init` functions are one: a channel check and assignment in
OptaneStudy's plain class, then the first regions. -/
theorem init_eq (setup : Setup) (a : Fastalloc) (os : Os) :
    setup.init a os =
      if setup.setsChannel ∧ (setup.channel < 0 ∨ setup.channel > 3) then .error .exit
      else
        { a with channel := if setup.setsChannel then setup.channel else a.channel }.openPools os
          setup.firstLength fun a =>
            mappedFill setup.linux (setup.firstPath a.nvmCnt) setup.firstLength := by
  obtain ⟨copy, kind, linux, channel, thread⟩ := setup
  cases copy <;> cases kind <;>
    simp [init, setsChannel, OptaneStudy.init, OptaneStudy.concurrencyInit, Fastallocate.init,
      Fastallocate.concurrencyInit, PmStudy.init, PmStudy.concurrencyInit, firstPath, firstLength]

theorem step_eq (setup : Setup) : setup.step = Allocator.step setup.growth := by
  funext state request
  unfold step alloc growth
  cases setup.copy <;> rfl

end Setup

end RwSep.Allocator
