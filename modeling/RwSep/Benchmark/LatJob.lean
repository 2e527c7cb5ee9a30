import RwSep.Benchmark.LatRun
import Mathlib.Data.List.TakeWhile

namespace RwSep.Benchmark

open RwSep.Data RwSep.Execution RwSep.X86

/-! All runs of `access_lat` in lat.cpp, and the size that `main` gives it.

Each run has one thread.  A run whose working set is not below `max_size` exits
from the program: what the runs before it have printed stands.
-/

/-- `(1 < 30)`, with a comparison where a shift is meant. -/
def allocMax : Word := if 1 < 30 then 1 else 0

/-- `1ULL << wss` -/
def bytesOf (wss : Nat) : Word := (1 : Word) <<< wss

structure LatGroup where
  wrOps : WrMethod
  seq : Bool
  traversePattern : TraverseType
deriving DecidableEq, Repr

def latGroups : List LatGroup :=
  [⟨.wrClwbSfence, false, .chasingPtr⟩, ⟨.wrNtSfence, false, .chasingPtr⟩, ⟨.wrClwbSfence, true, .chasingPtr⟩,
   ⟨.wrNtSfence, true, .chasingPtr⟩, ⟨.wrClwb, false, .chasingPtr⟩, ⟨.wrNt, false, .chasingPtr⟩,
   ⟨.wrClwb, true, .chasingPtr⟩, ⟨.wrNt, true, .chasingPtr⟩, ⟨.rd, false, .chasingPtr⟩, ⟨.rd, true, .chasingPtr⟩,
   ⟨.wrNt, false, .calcOffset⟩, ⟨.wrNt, true, .calcOffset⟩]

/-- `for (int wss = 12; wss <= 30; wss++)` for each group. -/
def latRuns : List (LatGroup × Nat) := latGroups.flatMap fun group => (List.range' 12 19).map fun wss => (group, wss)

/-- What a run prints of its results. -/
structure LatReport where
  workType : String
  traverseType : String
  order : String
  threads : Nat
  wss : Word
  cycles : Word
deriving DecidableEq, Repr

def LatGroup.config (group : LatGroup) (maxSize : Word) (wss : Nat) : LatConfig where
  maxSize := maxSize
  wrMethod := group.wrOps
  seq := group.seq
  iter := bytesOf 30 / bytesOf wss
  travTp := group.traversePattern

/-- `run` with one thread: its report, and the memory it leaves. -/
def latRunOne (maxSize addr : Word) (group : LatGroup) (wss : Nat) (world : LatWorld) (heap : Heap) :
    Except LatFault (LatReport × Heap) := do
  let worked ← runWorker (group.config maxSize wss) addr (bytesOf wss) 1 0 world heap
  let lat := 0 + worked.ret.avgCycles
  return ({
    workType := worked.ret.workType
    traverseType := worked.ret.traverseType
    order := worked.ret.order
    threads := 1
    wss := worked.ret.wss * 1
    cycles := lat / 1 }, worked.traversal.heap)

/-- The reports of the runs that returned, the memory they left, and what ended the program early. -/
structure LatOutcome where
  reports : List LatReport
  heap : Heap
  fault : Option LatFault

def accessLat (maxSize addr : Word) : List ((LatGroup × Nat) × LatWorld) → Heap → LatOutcome
  | [], heap => ⟨[], heap, none⟩
  | ((group, wss), world) :: rest, heap =>
      match latRunOne maxSize addr group wss world heap with
      | .error fault => ⟨[], heap, some fault⟩
      | .ok (report, heap) =>
          let later := accessLat maxSize addr rest heap
          { later with reports := report :: later.reports }

section Runs

variable {maxSize addr : Word} {group : LatGroup} {wss : Nat} {world : LatWorld} {heap after : Heap} {report : LatReport}
variable {config : LatConfig} {size : Word} {worked : WorkerResult} {runs : List ((LatGroup × Nat) × LatWorld)}

theorem bytesOf_toNat (bound : wss ≤ 30) : (bytesOf wss).toNat = 2 ^ wss := by
  have less : 2 ^ wss ≤ 2 ^ 30 := Nat.pow_le_pow_right (by decide) bound
  rw [bytesOf, BitVec.toNat_shiftLeft, Nat.shiftLeft_eq, show (1 : Word).toNat = 1 from rfl]
  omega

theorem latRunOne_rejected (accepted : ¬ 2 ^ wss < maxSize.toNat) (bound : wss ≤ 30) :
    latRunOne maxSize addr group wss world heap = .error .tooLarge := by
  have large : maxSize ≤ bytesOf wss := by
    rw [BitVec.le_def, bytesOf_toNat bound]
    exact Nat.le_of_not_lt accepted
  rw [latRunOne, runWorker, LatGroup.config, if_pos large]
  rfl

end Runs

/-! # The job -/

/-- The runs of `access_lat`, each with what it does not determine. -/
def latJob (worlds : Nat → LatWorld) : List ((LatGroup × Nat) × LatWorld) :=
  latRuns.zipIdx.map fun run => (run.1, worlds run.2)

section Job

variable {worlds : Nat → LatWorld} {maxSize addr : Word} {heap : Heap}

/-- `main` gives one byte: whatever it has been allocated, the program exits before it has measured anything. -/
theorem accessLat_main (worlds : Nat → LatWorld) (addr : Word) (heap : Heap) :
    accessLat allocMax addr (latJob worlds) heap = ⟨[], heap, some .tooLarge⟩ := by
  obtain ⟨rest, first⟩ : ∃ rest, latJob worlds = ((⟨.wrClwbSfence, false, .chasingPtr⟩, 12), worlds 0) :: rest := ⟨_, rfl⟩
  have rejected : latRunOne allocMax addr ⟨.wrClwbSfence, false, .chasingPtr⟩ 12 (worlds 0) heap = .error .tooLarge :=
    latRunOne_rejected (by decide) (by decide)
  rw [first, accessLat, rejected]

end Job

end RwSep.Benchmark
