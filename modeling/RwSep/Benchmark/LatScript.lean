import RwSep.Benchmark.LatRun
import RwSep.Execution.Script

namespace RwSep.Benchmark

open RwSep.Data RwSep.Execution RwSep.X86

/-! What a worker of lat.cpp that chases pointers does, access by access.

The workers above act on a heap that records its accesses.  The same accesses in
the same order are a script, in which the calls of `random()` have their places
too.
-/

inductive LatInstr where
  | random
  | setNext (p next : Word)
  | load (p : Word)
  | addTen (addr : Word)
  | clwb (addr : Word)
  | stream (addr : Word)
  | sfence
deriving DecidableEq, Repr

inductive LatEvent where
  | random
  | access (kind : Access)
deriving DecidableEq, Repr

/-- What a heap records: not `random()`, which is no access to the units. -/
def LatEvent.recorded : LatEvent → Option Access
  | .random => none
  | .access kind => some kind

def LatInstr.act : Actor LatInstr Unit Word Byte LatEvent
  | .random, _, _ => ⟨(), fun _ => none, [.random]⟩
  | .setNext p next, _, _ => ⟨(), storeBytes p 8 next.byte, [.access (.write ⟨p, 8⟩)]⟩
  | .load p, _, _ => ⟨(), fun _ => none, [.access (.read ⟨p, 8⟩)]⟩
  | .addTen addr, _, memory => ⟨(), storeBytes addr 4 (intBytes (readInt memory addr + 10)),
      [.access (.read ⟨addr, 4⟩), .access (.write ⟨addr, 4⟩)]⟩
  | .clwb addr, _, _ => ⟨(), fun _ => none, [.access (.clwb addr)]⟩
  | .stream addr, _, _ => ⟨(), storeBytes addr 64 clBuffer, [.access (.stream ⟨addr, 64⟩)]⟩
  | .sfence, _, _ => ⟨(), fun _ => none, [.access .sfence]⟩

abbrev latRun (script : List LatInstr) (memory : Memory) : Action Unit Word Byte LatEvent :=
  runScript LatInstr.act script () memory

def Heap.perform (heap : Heap) (script : List LatInstr) : Heap :=
  ⟨overwrite heap.memory (latRun script heap.memory).writes,
    heap.trace ++ (latRun script heap.memory).events.filterMap LatEvent.recorded⟩

def WrMethod.code (addr : Word) : WrMethod → List LatInstr
  | .wrClwbSfence => [.addTen addr, .clwb addr, .sfence]
  | .wrNtSfence => [.stream addr, .sfence]
  | .wrClwb => [.addTen addr, .clwb addr]
  | .wrNt => [.stream addr]
  | .rd => []

/-- A lap draws the unit it starts from and loads its pointer, and then that of each unit it has visited. -/
inductive Turn where
  | start (p : Word)
  | visit (p : Word)
deriving DecidableEq, Repr

def Turn.code (wrMethod : WrMethod) : Turn → List LatInstr
  | .start p => [.random, .load p]
  | .visit p => wrMethod.code (padAt p 15) ++ [.load p]

def Turn.visited : Turn → Option Word
  | .start _ => none
  | .visit p => some p

def lapTurns (startingPoint : Word) (visited : List Word) : List Turn := .start startingPoint :: visited.map .visit

/-- The lap of an iteration, which `random()` gives its starting point. -/
def numberedTurns (world : LatWorld) (workPtr : Word) (unitNum : Nat) (lap : List Word × Nat) : List Turn :=
  lapTurns (unitAt workPtr (world.random lap.2 % unitNum)) lap.1

def chaseTurns (world : LatWorld) (workPtr : Word) (unitNum : Nat) (laps : List (List Word)) : List Turn :=
  laps.zipIdx.flatMap (numberedTurns world workPtr unitNum)

/-- Stores to the pointers of the units, as `linkUnits` makes them. -/
def SetsLinks (workPtr : Word) (unitNum : Nat) (links : List LatInstr) : Prop :=
  ∀ instr ∈ links, ∃ unit < unitNum, ∃ next, instr = .setNext (unitAt workPtr unit) next

section Perform

variable {heap before after : Heap} {wrMethod : WrMethod} {workPtr startingPoint p addr : Word} {visited : List Word}
variable {unitNum tests random : Nat} {first second : List LatInstr}

theorem perform_nil (heap : Heap) : heap.perform [] = heap := by
  simp only [Heap.perform, latRun, runScript_nil, Action.idle, List.filterMap_nil, List.append_nil]
  rfl

theorem perform_append (heap : Heap) (first second : List LatInstr) :
    heap.perform (first ++ second) = (heap.perform first).perform second := by
  simp only [Heap.perform, latRun]
  rw [runScript_append, overwrite_followed]
  simp only [Action.followed, List.filterMap_append, List.append_assoc]
  rfl

theorem overwrite_storeBytes (memory : Memory) (address : Word) (count : Nat) (bytes : Nat → Byte) :
    overwrite memory (storeBytes address count bytes) = memory.writeBytes address count bytes := by
  funext byte
  rw [overwrite, storeBytes, Memory.writeBytes]
  split <;> rfl

theorem perform_single (heap : Heap) (instr : LatInstr) : heap.perform [instr] =
    ⟨overwrite heap.memory (LatInstr.act instr () heap.memory).writes,
      heap.trace ++ (LatInstr.act instr () heap.memory).events.filterMap LatEvent.recorded⟩ := by
  rw [Heap.perform, latRun, runScript_single]

theorem perform_cons (heap : Heap) (instr : LatInstr) (rest : List LatInstr) :
    heap.perform (instr :: rest) = (heap.perform [instr]).perform rest := perform_append heap [instr] rest

theorem setNext_perform (heap : Heap) (p next : Word) : setNext heap p next = heap.perform [.setNext p next] := by
  rw [perform_single]
  simp only [LatInstr.act, overwrite_storeBytes]
  rfl

theorem random_perform (heap : Heap) : heap.perform [.random] = heap := by
  rw [perform_single]
  exact congrArg (Heap.mk heap.memory) (List.append_nil heap.trace)

theorem load_perform (heap : Heap) (p : Word) : (heap.load p).2 = heap.perform [.load p] := by
  rw [perform_single]
  rfl

theorem addTen_perform (heap : Heap) (addr : Word) : addTen heap addr = heap.perform [.addTen addr] := by
  rw [perform_single]
  simp only [LatInstr.act, overwrite_storeBytes]
  simp [addTen, Heap.loadInt, Heap.store, Heap.record, LatEvent.recorded]

theorem clwb_perform (heap : Heap) (addr : Word) : heap.record (.clwb addr) = heap.perform [.clwb addr] := by
  rw [perform_single]
  rfl

theorem sfence_perform (heap : Heap) : heap.record .sfence = heap.perform [.sfence] := by
  rw [perform_single]
  rfl

theorem stream_perform (heap : Heap) (addr : Word) : heap.stream addr 64 clBuffer = heap.perform [.stream addr] := by
  rw [perform_single]
  simp only [LatInstr.act, overwrite_storeBytes]
  rfl

theorem start_perform (wrMethod : WrMethod) (heap : Heap) (p : Word) :
    (heap.load p).2 = heap.perform ((Turn.start p).code wrMethod) := by
  rw [Turn.code, perform_cons, random_perform, load_perform]

theorem call_perform (wrMethod : WrMethod) (heap : Heap) (addr : Word) :
    wrMethod.call heap addr = heap.perform (wrMethod.code addr) := by
  cases wrMethod with
  | wrClwbSfence =>
      rw [WrMethod.code, perform_cons, perform_cons _ (.clwb addr), ← addTen_perform, ← clwb_perform, ← sfence_perform]
      rfl
  | wrNtSfence =>
      rw [WrMethod.code, perform_cons, ← stream_perform, ← sfence_perform]
      rfl
  | wrClwb =>
      rw [WrMethod.code, perform_cons, ← addTen_perform, ← clwb_perform]
      rfl
  | wrNt => exact stream_perform heap addr
  | rd => exact (perform_nil heap).symm

theorem visit_perform (wrMethod : WrMethod) (heap : Heap) (p : Word) :
    (visit wrMethod heap p).2 = heap.perform ((Turn.visit p).code wrMethod) := by
  rw [visit, load_perform, call_perform, ← perform_append]
  rfl

theorem chase_perform (ran : chase wrMethod startingPoint tests p heap = .ok (visited, after)) :
    after = heap.perform ((visited.map Turn.visit).flatMap (Turn.code wrMethod)) := by
  induction tests generalizing p heap visited with
  | zero => contradiction
  | succ tests ih =>
      rw [chase] at ran
      split at ran
      · cases ran
        exact (perform_nil _).symm
      · dsimp only at ran
        split at ran
        · contradiction
        · rename_i rest later chased
          cases ran
          rw [List.map_cons, List.flatMap_cons, perform_append, ← visit_perform]
          exact ih chased

theorem chaseLap_perform (ran : chaseLap wrMethod workPtr unitNum tests heap random = .ok (visited, after)) :
    after = heap.perform ((lapTurns (unitAt workPtr (random % unitNum)) visited).flatMap (Turn.code wrMethod)) := by
  rw [lapTurns, List.flatMap_cons, perform_append, ← start_perform]
  exact chase_perform ran

end Perform

/-! # The worker -/

section Worker

variable {config : LatConfig} {world : LatWorld} {workPtr baseAddr wss : Word} {unitNum : Nat} {order : List Nat}
variable {heap linked : Heap} {traversal : Traversal} {worked : WorkerResult}

theorem chasePtrLatTimed_perform (ran : chasePtrLatTimed config world workPtr unitNum heap = .ok traversal) :
    traversal.heap = heap.perform ((chaseTurns world workPtr unitNum traversal.laps).flatMap (Turn.code config.wrMethod)) := by
  let Inv : Nat → Traversal → Prop := fun i traversal => traversal.laps.length = i ∧ traversal.heap =
    heap.perform ((chaseTurns world workPtr unitNum traversal.laps).flatMap (Turn.code config.wrMethod))
  have final := (forInt_ok_iff.mp ran).preserves Inv ?_ (Nat.zero_le _) ⟨rfl, (perform_nil heap).symm⟩
  · exact final.2
  · intro i before after _ invariant turned
    obtain ⟨counted, performed⟩ := invariant
    rw [chaseTurn] at turned
    split at turned
    · contradiction
    · obtain ⟨lap, chased, rest⟩ := bind_ok.mp turned
      obtain ⟨visited, later⟩ := lap
      cases rest
      refine ⟨by simp [counted], ?_⟩
      have ran : chaseLap config.wrMethod workPtr unitNum world.tests before.heap (world.random i) = .ok (visited, later) := by
        cases same : chaseLap config.wrMethod workPtr unitNum world.tests before.heap (world.random i) with
        | ok value =>
            rw [same] at chased
            cases chased
            rfl
        | error reason =>
            rw [same] at chased
            contradiction
      have turns : chaseTurns world workPtr unitNum (before.laps ++ [visited]) =
          chaseTurns world workPtr unitNum before.laps ++ lapTurns (unitAt workPtr (world.random i % unitNum)) visited := by
        simp [chaseTurns, numberedTurns, List.zipIdx_append, counted]
      change later = _
      simp only
      rw [turns, List.flatMap_append, perform_append, ← performed]
      exact chaseLap_perform ran

theorem linkUnits_perform (within : ∀ unit ∈ order, unit < unitNum)
    (ran : linkUnits workPtr unitNum order heap = .ok linked) :
    ∃ links, SetsLinks workPtr unitNum links ∧ linked = heap.perform links := by
  have extend {before : Heap} {unit : Nat} (member : unit ∈ order) (next : Word)
      (performed : ∃ links, SetsLinks workPtr unitNum links ∧ before = heap.perform links) :
      ∃ links, SetsLinks workPtr unitNum links ∧ setNext before (unitAt workPtr unit) next = heap.perform links := by
    obtain ⟨links, sets, rfl⟩ := performed
    refine ⟨links ++ [.setNext (unitAt workPtr unit) next], fun instr inLinks => ?_, ?_⟩
    · rcases List.mem_append.mp inLinks with earlier | last
      · exact sets instr earlier
      · exact ⟨unit, within unit member, next, List.mem_singleton.mp last⟩
    · rw [perform_append, setNext_perform]
  obtain ⟨middle, looped, closed⟩ := bind_ok.mp ran
  obtain ⟨last, atLast, closed⟩ := bind_ok.mp closed
  obtain ⟨first, _, closed⟩ := bind_ok.mp closed
  cases closed
  apply extend (List.mem_of_getElem? (orOutOfRange_ok.mp atLast))
  apply (forInt_ok_iff.mp looped).preserves fun _ state => ∃ links, SetsLinks workPtr unitNum links ∧ state = heap.perform links
  · intro i before after _ performed ran
    have linked := orOutOfRange_ok.mp ran
    simp only [linkNext, Option.bind_eq_bind, Option.bind_eq_some_iff] at linked
    obtain ⟨unit, found, here, _, set⟩ := linked
    cases set
    exact extend (List.mem_of_getElem? found) _ performed
  · omega
  · exact ⟨[], fun _ member => absurd member List.not_mem_nil, (perform_nil heap).symm⟩

/-- A worker that chases sets the links, and then takes the turns of its laps. -/
theorem worker_perform (chases : config.travTp = .chasingPtr)
    (enough : wss.toNat / sizeofUnit ≤ world.tests) (ran : worker config world baseAddr wss heap = .ok worked) :
    (∃ links, SetsLinks baseAddr (wss.toNat / sizeofUnit) links ∧ worked.traversal.heap =
      heap.perform (links ++ (chaseTurns world baseAddr (wss.toNat / sizeofUnit) worked.traversal.laps).flatMap
        (Turn.code config.wrMethod))) ∧
    ∀ lap ∈ worked.traversal.laps, ∀ p ∈ lap, ∃ unit < wss.toNat / sizeofUnit, p = unitAt baseAddr unit := by
  obtain ⟨accepted, positive, below, iterates, counts⟩ := worker_needs ran
  obtain ⟨_, returned, visits, _⟩ := worker_returns baseAddr heap accepted iterates counts positive below enough
  cases returned.symm.trans ran
  refine ⟨?_, visits⟩
  rw [worker, if_neg (by simpa using accepted)] at ran
  simp only [fillOrder_ok below] at ran
  obtain ⟨filled, filling, ran⟩ := bind_ok.mp ran
  cases filling
  obtain ⟨linked, linking, ran⟩ := bind_ok.mp ran
  obtain ⟨traversal, traversing, ran⟩ := bind_ok.mp ran
  split at ran
  · contradiction
  · cases ran
    rw [traverse, chases] at traversing
    have within : ∀ unit ∈ (if config.seq then List.range (wss.toNat / sizeofUnit)
        else world.shuffle (List.range (wss.toNat / sizeofUnit))), unit < wss.toNat / sizeofUnit := by
      intro unit member
      split at member
      · exact List.mem_range.mp member
      · exact List.mem_range.mp ((world.permutes _).mem_iff.mp member)
    obtain ⟨links, sets, rfl⟩ := linkUnits_perform within linking
    refine ⟨links, sets, ?_⟩
    rw [perform_append]
    exact chasePtrLatTimed_perform traversing

end Worker

end RwSep.Benchmark
