import RwSep.Benchmark.LatScript
import RwSep.Execution.Strict
import RwSep.X86.Persistency

namespace RwSep.Benchmark

open RwSep.Data RwSep.Execution RwSep.X86

/-! The workers of lat.cpp that chase pointers, in a crash.

What reaches persistent memory at once is an aligned word of eight bytes.  `clwb`
writes back the words of its line, a non-temporal store those that it covers, and
`sfence` waits for both.  So does `random()`, where it takes its lock with
instructions that order the stores before them.
-/

def LatEvent.Persists (word : Nat) : LatEvent → Prop
  | .access (.clwb address) => lineOf address = word / 8
  | .access (.stream range) => ∀ byte : Word, wordOf byte = word → byte ∈ range
  | _ => False

def LatEvent.Fences (ordered : Bool) : LatEvent → Prop
  | .access .sfence => True
  | .random => ordered
  | _ => False

def latPersistence (ordered : Bool) : Persistence Nat Word LatEvent := ⟨wordOf, LatEvent.Persists, LatEvent.Fences ordered⟩

def WrMethod.Strict : WrMethod → Prop
  | .wrClwbSfence => True
  | .wrNtSfence => True
  | _ => False

/-- Instructions that store nothing. -/
def LatInstr.Quiet : LatInstr → Prop
  | .setNext _ _ | .addTen _ | .stream _ => False
  | _ => True

/-- The bytes of the pointers that chain the units. -/
def LinkByte (workPtr : Word) (unitNum : Nat) (byte : Word) : Prop :=
  ∃ unit < unitNum, byte ∈ Range.mk (unitAt workPtr unit) 8

/-- What visits of the units leave, one after the other. -/
def afterVisits (wrMethod : WrMethod) (memory : Memory) (visits : List Word) : Memory :=
  visits.foldl (fun memory p => (wrMethod.call ⟨memory, []⟩ (padAt p 15)).memory) memory

/-! # Visits -/

section Visits

variable {wrMethod : WrMethod} {heap : Heap} {p addr byte : Word} {turns front behind : List Turn} {turn : Turn}
variable {part script : List LatInstr} {instr : LatInstr} {ordered : Bool}

theorem call_memory (wrMethod : WrMethod) (heap : Heap) (addr : Word) :
    (wrMethod.call heap addr).memory = (wrMethod.call ⟨heap.memory, []⟩ addr).memory := by
  cases wrMethod <;> rfl

theorem turns_memory (wrMethod : WrMethod) (turns : List Turn) (heap : Heap) :
    (heap.perform (turns.flatMap (Turn.code wrMethod))).memory =
      afterVisits wrMethod heap.memory (turns.filterMap Turn.visited) := by
  induction turns generalizing heap with
  | nil => rfl
  | cons turn rest ih =>
      rw [List.flatMap_cons, perform_append]
      cases turn with
      | start p =>
          rw [← start_perform, ih]
          rfl
      | visit p =>
          have stored : (visit wrMethod heap p).2.memory = (wrMethod.call ⟨heap.memory, []⟩ (padAt p 15)).memory :=
            call_memory wrMethod heap (padAt p 15)
          rw [← visit_perform, ih, stored]
          rfl

theorem events_count {event : LatEvent} {instr : LatInstr}
    (each : ∀ other memory, (LatInstr.act other () memory).events.count event = [other].count instr)
    (script : List LatInstr) (memory : Memory) : (latRun script memory).events.count event = script.count instr := by
  induction script generalizing memory with
  | nil => rfl
  | cons other rest ih =>
      rw [latRun, runScript]
      simp only [Action.followed, List.count_append]
      rw [each, ih, ← List.count_append]
      rfl

end Visits

/-! # Crashes -/

section Crashes

variable {wrMethod : WrMethod} {memory image : Memory} {p byte : Word} {turns front : List Turn} {turn : Turn}
variable {links part reached before rest : List LatInstr} {schedule : List Unit} {ordered : Bool}

end Crashes

/-! # Workers -/

/-- The script of a worker that chases: its laps behind its stores to the links. -/
def workerScript (config : LatConfig) (world : LatWorld) (baseAddr : Word) (unitNum : Nat) (links : List LatInstr)
    (laps : List (List Word)) : List LatInstr :=
  links ++ (chaseTurns world baseAddr unitNum laps).flatMap (Turn.code config.wrMethod)

section Workers

variable {config : LatConfig} {world : LatWorld} {baseAddr wss byte : Word} {unitNum : Nat} {heap : Heap}
variable {worked : WorkerResult} {links : List LatInstr} {laps : List (List Word)} {turn : Turn} {p : Word}

theorem numbered_visited (world : LatWorld) (baseAddr : Word) (unitNum : Nat) (lap : List Word × Nat) :
    (numberedTurns world baseAddr unitNum lap).filterMap Turn.visited = lap.1 := by
  have visits : (lap.1.map Turn.visit).filterMap Turn.visited = lap.1.filterMap some := by
    rw [List.filterMap_map]
    rfl
  rw [numberedTurns, lapTurns, List.filterMap_cons_none rfl, visits, List.filterMap_some]

theorem laps_visited (world : LatWorld) (baseAddr : Word) (unitNum : Nat) (laps : List (List Word × Nat)) :
    (laps.flatMap (numberedTurns world baseAddr unitNum)).filterMap Turn.visited = (laps.map Prod.fst).flatten := by
  rw [List.filterMap_flatMap]
  simp only [numbered_visited]
  rw [List.flatMap_def]

theorem SetsLinks.quiet (sets : SetsLinks baseAddr unitNum links) (elsewhere : ¬ LinkByte baseAddr unitNum byte) :
    ∀ instr ∈ links, ∀ own store, (LatInstr.act instr own store).writes byte = none := by
  intro instr member own store
  obtain ⟨unit, bound, next, rfl⟩ := sets instr member
  exact if_neg fun inside => elsewhere ⟨unit, bound, inside⟩

theorem SetsLinks.unfenced (sets : SetsLinks baseAddr unitNum links) : links.count .sfence = 0 := by
  apply List.count_eq_zero.mpr
  intro member
  obtain ⟨_, _, _, same⟩ := sets _ member
  contradiction

/-- A chase of two units at 4096. -/
def twoUnits (wrMethod : WrMethod) : LatConfig := ⟨4096, wrMethod, true, 3, .chasingPtr⟩

theorem twoUnits_returns (wrMethod : WrMethod) :
    ∃ worked, worker (twoUnits wrMethod) (unshuffled 2) 4096 512 ⟨fun _ => 7, []⟩ = .ok worked := by
  have few : (twoUnits wrMethod).iter.toNat < 2 ^ 31 := show (3 : Word).toNat < 2 ^ 31 by decide
  have some : 1 ≤ (twoUnits wrMethod).iter.toNat := show 1 ≤ (3 : Word).toNat by decide
  have accepted : (512 : Word) < (twoUnits wrMethod).maxSize := show (512 : Word) < 4096 by decide
  obtain ⟨worked, ran, _⟩ := worker_returns 4096 ⟨fun _ => 7, []⟩ accepted some few (by decide) (by decide)
    (show (512 : Word).toNat / sizeofUnit ≤ (unshuffled 2).tests by decide)
  exact ⟨worked, ran⟩

end Workers

end RwSep.Benchmark
