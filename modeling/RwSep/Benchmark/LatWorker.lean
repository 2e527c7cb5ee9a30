import RwSep.Benchmark.Lat
import RwSep.Execution.ForInt

namespace RwSep.Benchmark

open RwSep.Data RwSep.Execution RwSep.X86

/-! The worker of `access_lat` in lat.cpp.

The sizes and the number of iterations are `uint64_t`, the loops over them
count with an `int`.  A worker may stop with one of the faults below; the
shuffle, the values of `random()` and of the time stamp counter are arbitrary.
-/

inductive TraverseType where
  | chasingPtr | calcOffset
deriving DecidableEq, Repr

inductive LatFault where
  /-- `exit(EXIT_FAILURE)` -/
  | tooLarge
  /-- thrown by `at()` -/
  | outOfRange
  | divideByZero
  | intOverflow
  /-- The bound on the tests of the `while` loop was too small. -/
  | unfinished
deriving DecidableEq, Repr

structure LatConfig where
  maxSize : Word
  wrMethod : WrMethod
  seq : Bool
  iter : Word
  travTp : TraverseType

/-- What a worker does not determine: the permutation that `std::random_shuffle` makes of the order, the values of
`random()` and `rdtsc()`, and a bound on the tests of each `while` loop. -/
structure LatWorld where
  shuffle : List Nat → List Nat
  permutes : ∀ order, (shuffle order).Perm order
  random : Nat → Nat
  rdtsc : Nat → Word
  tests : Nat

structure FeedBackUnit where
  workType : String
  order : String
  traverseType : String
  wss : Word
  avgCycles : Word
deriving DecidableEq, Repr

def WrMethod.workType : WrMethod → String
  | .rd => "[type]:[rd]"
  | .wrNt => "[type]:[nt store]"
  | .wrClwb => "[type]:[clwb]"
  | .wrClwbSfence => "[type]:[clwb sfence]"
  | .wrNtSfence => "[type]:[nt store sfence]"

def TraverseType.traverseType : TraverseType → String
  | .chasingPtr => "[Trav]:[Ptr]"
  | .calcOffset => "[Trav]:[Calc]"

/-- The units that each iteration visits, the cycles that it took, and the memory it leaves. -/
structure Traversal where
  laps : List (List Word)
  totalCycles : Word
  heap : Heap

structure WorkerResult where
  ret : FeedBackUnit
  traversal : Traversal

/-- `.at` -/
def orOutOfRange {α : Type} : Option α → Except LatFault α
  | some value => .ok value
  | none => .error .outOfRange

def orUnfinished {α : Type} : Except Unfinished α → Except LatFault α
  | .ok value => .ok value
  | .error .unfinished => .error .unfinished

/-- `traverse_order.at(i) = i` -/
def setOrder (i : Nat) (traverseOrder : List Nat) : Except LatFault (List Nat) :=
  if i < traverseOrder.length then .ok (traverseOrder.set i i) else .error .outOfRange

def fillOrder (unitNum : Nat) : Except LatFault (List Nat) :=
  forInt .intOverflow setOrder unitNum 0 (List.replicate unitNum 0)

def linkUnits (workPtr : Word) (unitNum : Nat) (traverseOrder : List Nat) (heap : Heap) : Except LatFault Heap := do
  let heap ← forInt .intOverflow (fun i heap => orOutOfRange (linkNext workPtr traverseOrder heap i)) (unitNum - 1) 1
    heap
  let last ← orOutOfRange traverseOrder[unitNum - 1]?
  let first ← orOutOfRange traverseOrder[0]?
  return setNext heap (unitAt workPtr last) (unitAt workPtr first)

/-- `wr_method(work_ptr + traverse_order[j])` for all `j`. -/
def calcLap (wrMethod : WrMethod) (workPtr : Word) : List Nat → Heap → List Word × Heap
  | [], heap => ([], heap)
  | unit :: rest, heap =>
      let (visited, heap) := calcLap wrMethod workPtr rest (wrMethod.call heap (unitAt workPtr unit))
      (unitAt workPtr unit :: visited, heap)

def calcTurn (config : LatConfig) (workPtr : Word) (traverseOrder : List Nat) (_ : Nat) (traversal : Traversal) :
    Except LatFault Traversal :=
  let (visited, heap) := calcLap config.wrMethod workPtr traverseOrder traversal.heap
  .ok { traversal with laps := traversal.laps ++ [visited], heap := heap }

def calcLat (config : LatConfig) (world : LatWorld) (workPtr : Word) (traverseOrder : List Nat) (heap : Heap) :
    Except LatFault Traversal := do
  let traversal ← forInt .intOverflow (calcTurn config workPtr traverseOrder) config.iter.toNat 0 ⟨[], 0, heap⟩
  return { traversal with totalCycles := world.rdtsc 1 - world.rdtsc 0 }

def chaseTurn (config : LatConfig) (world : LatWorld) (workPtr : Word) (unitNum i : Nat) (traversal : Traversal) :
    Except LatFault Traversal := do
  if unitNum = 0 then .error .divideByZero
  else
    let (visited, heap) ← orUnfinished
      (chaseLap config.wrMethod workPtr unitNum world.tests traversal.heap (world.random i))
    return ⟨traversal.laps ++ [visited], traversal.totalCycles + (world.rdtsc (2 * i + 1) - world.rdtsc (2 * i)), heap⟩

/-- `chase_ptr_lat` with its index and the cycles it adds up. -/
def chasePtrLatTimed (config : LatConfig) (world : LatWorld) (workPtr : Word) (unitNum : Nat) (heap : Heap) :
    Except LatFault Traversal :=
  forInt .intOverflow (chaseTurn config world workPtr unitNum) config.iter.toNat 0 ⟨[], 0, heap⟩

def traverse (config : LatConfig) (world : LatWorld) (workPtr : Word) (unitNum : Nat) (traverseOrder : List Nat)
    (heap : Heap) : Except LatFault Traversal :=
  match config.travTp with
  | .chasingPtr => chasePtrLatTimed config world workPtr unitNum heap
  | .calcOffset => calcLat config world workPtr traverseOrder heap

def worker (config : LatConfig) (world : LatWorld) (baseAddr wss : Word) (heap : Heap) : Except LatFault WorkerResult := do
  if config.maxSize ≤ wss then .error .tooLarge
  else
    let unitNum := wss.toNat / sizeofUnit
    let filled ← fillOrder unitNum
    let traverseOrder := if config.seq then filled else world.shuffle filled
    let heap ← linkUnits baseAddr unitNum traverseOrder heap
    let traversal ← traverse config world baseAddr unitNum traverseOrder heap
    if config.iter = 0 ∨ unitNum = 0 then .error .divideByZero
    else
      return {
        ret := {
          workType := config.wrMethod.workType
          order := if config.seq then "[order]:[seq]" else "[order]:[rand]"
          traverseType := config.travTp.traverseType
          wss := wss
          avgCycles := traversal.totalCycles / config.iter / BitVec.ofNat 64 unitNum }
        traversal := traversal }

/-! # Preparing the order -/

section Prepare

variable {unitNum : Nat} {order : List Nat} {workPtr : Word} {heap linked : Heap}

theorem setOrder_step {i : Nat} (bound : i < unitNum)
    (filled : order.length = unitNum ∧ ∀ k < i, order[k]? = some k) :
    ∃ after, setOrder i order = .ok after ∧ after.length = unitNum ∧ ∀ k < i + 1, after[k]? = some k := by
  obtain ⟨length, earlier⟩ := filled
  have inside : i < order.length := by omega
  refine ⟨order.set i i, if_pos inside, by rw [List.length_set, length], fun k below => ?_⟩
  by_cases same : k = i
  · rw [same, List.getElem?_set_self inside]
  · rw [List.getElem?_set_ne (Ne.symm same), earlier k (by omega)]

theorem fillOrder_ok (short : unitNum < 2 ^ 31) : fillOrder unitNum = .ok (List.range unitNum) := by
  let Inv : Nat → List Nat → Prop := fun i order => order.length = unitNum ∧ ∀ k < i, order[k]? = some k
  have start : Inv 0 (List.replicate unitNum 0) :=
    ⟨List.length_replicate, fun k below => absurd below (Nat.not_lt_zero k)⟩
  rw [← Nat.zero_add unitNum] at short
  obtain ⟨filled, ran, length, entries⟩ := forInt_counted .intOverflow Inv short
    (fun i bound before filled => setOrder_step (by omega) filled) start
  rw [fillOrder, ran]
  congr 1
  apply List.ext_getElem?
  intro k
  by_cases below : k < unitNum
  · rw [entries k (by omega), List.getElem?_range below]
  · rw [List.getElem?_eq_none (by omega), List.getElem?_eq_none (by simp; omega)]

theorem orOutOfRange_ok {α : Type} {found : Option α} {value : α} :
    orOutOfRange found = .ok value ↔ found = some value := by
  cases found <;> simp [orOutOfRange]

theorem foldlM_orOutOfRange {α β : Type} {step : β → α → Option β} {items : List α} {before after : β}
    (ran : items.foldlM step before = some after) :
    items.foldlM (fun state item => orOutOfRange (step state item)) before = .ok after := by
  induction items generalizing before with
  | nil =>
      cases ran
      rfl
  | cons item rest ih =>
      rw [List.foldlM_cons, Option.bind_eq_bind, Option.bind_eq_some_iff] at ran
      obtain ⟨middle, stepped, ran⟩ := ran
      rw [List.foldlM_cons, stepped]
      exact ih ran

theorem linkUnits_eq (length : order.length = unitNum) (short : unitNum < 2 ^ 31)
    (prepared : prepareOrder workPtr order heap = some linked) :
    linkUnits workPtr unitNum order heap = .ok linked := by
  simp only [prepareOrder, length, Option.bind_eq_bind, Option.bind_eq_some_iff] at prepared
  obtain ⟨after, folded, last, atLast, first, atFirst, closed⟩ := prepared
  have ran := foldlM_orOutOfRange folded
  rw [linkUnits, forInt_eq_foldlM (by omega), ran]
  simp only [bind, Except.bind, atLast, atFirst, orOutOfRange]
  exact congrArg Except.ok (Option.some.inj closed)

theorem linkUnits_ring (workPtr : Word) (heap : Heap) (positive : 1 ≤ unitNum) (short : unitNum < 2 ^ 31)
    (permuted : order.Perm (List.range unitNum)) : ∃ linked, linkUnits workPtr unitNum order heap = .ok linked ∧
      Ring linked.memory.readWord (order.map (unitAt workPtr)) := by
  obtain ⟨linked, prepared, ring⟩ := prepareOrder_ring workPtr heap positive short permuted
  exact ⟨linked, linkUnits_eq (order_length permuted) short prepared, ring⟩

end Prepare

/-! # Traversing -/

def allUnits (workPtr : Word) (unitNum : Nat) : Range := ⟨workPtr, sizeofUnit * unitNum⟩

/-- Where a worker accesses a unit: at its start, or where a chase writes it. -/
def UnitAddress (workPtr : Word) (unitNum : Nat) (address : Word) : Prop :=
  ∃ unit < unitNum, address = unitAt workPtr unit ∨ address = padAt (unitAt workPtr unit) 15

/-- Only the memory of the units is written, and only units are accessed. -/
structure Stays (workPtr : Word) (unitNum : Nat) (before after : Heap) : Prop where
  writes : Heap.WritesWithin (allUnits workPtr unitNum) before after
  touches : Heap.Touches (UnitAddress workPtr unitNum) before after

/-- What both traversals do: `iter` laps over the units, and nothing elsewhere. -/
structure Traversed (workPtr : Word) (unitNum iter : Nat) (before : Heap) (traversal : Traversal) : Prop where
  count : traversal.laps.length = iter
  units : ∀ lap ∈ traversal.laps, ∀ p ∈ lap, ∃ unit < unitNum, p = unitAt workPtr unit
  stays : Stays workPtr unitNum before traversal.heap

section Accesses

variable {wrMethod : WrMethod} {workPtr startingPoint p : Word} {unitNum unit tests i : Nat} {order : List Nat}
variable {heap before middle after : Heap} {visited : List Word}

theorem Stays.trans (first : Stays workPtr unitNum before middle) (second : Stays workPtr unitNum middle after) :
    Stays workPtr unitNum before after :=
  ⟨first.writes.trans second.writes, first.touches.trans second.touches⟩

theorem Stays.nothing (workPtr : Word) (unitNum : Nat) (heap : Heap) : Stays workPtr unitNum heap heap :=
  ⟨.nothing _ heap, .nothing _ heap⟩

theorem allUnits_fits (below : unitNum < 2 ^ 31) : (allUnits workPtr unitNum).length < 2 ^ 64 := by
  change 256 * unitNum < 2 ^ 64
  omega

theorem unit_inside (workPtr : Word) {length : Nat} (bound : unit < unitNum) (short : length ≤ sizeofUnit)
    (fits : (allUnits workPtr unitNum).length < 2 ^ 64) :
    (Range.mk (unitAt workPtr unit) length).Inside (allUnits workPtr unitNum) := by
  apply Range.inside_of_offset (allUnits workPtr unitNum) _ fits
  have room := Nat.mul_le_mul_left sizeofUnit (Nat.succ_le_of_lt bound)
  rw [Nat.mul_succ] at room
  exact Nat.le_trans (Nat.add_le_add_left short _) room

theorem setNext_stays (below : unitNum < 2 ^ 31) (bound : unit < unitNum) (heap : Heap) (next : Word) :
    Stays workPtr unitNum heap (setNext heap (unitAt workPtr unit) next) := by
  have eight : 8 ≤ sizeofUnit := by
    rw [sizeofUnit]
    omega
  constructor
  · exact .written heap rfl (unit_inside workPtr bound eight (allUnits_fits below)) (Nat.le_of_lt (allUnits_fits below))
  · exact .one (.write ⟨unitAt workPtr unit, 8⟩) rfl
      fun _ located => ⟨unit, bound, Or.inl (Option.some.inj located).symm⟩

theorem call_touches (wrMethod : WrMethod) (heap : Heap) (addr : Word) :
    Heap.Touches (· = addr) heap (wrMethod.call heap addr) := by
  have here : ∀ address : Word, some addr = some address → address = addr :=
    fun _ located => (Option.some.inj located).symm
  have reading (before : Heap) : Heap.Touches (· = addr) before (before.record (.read ⟨addr, 4⟩)) :=
    .one (.read ⟨addr, 4⟩) rfl here
  have adding : Heap.Touches (· = addr) heap (addTen heap addr) :=
    (reading heap).trans (.one (.write ⟨addr, 4⟩) rfl here)
  have streaming : Heap.Touches (· = addr) heap (heap.stream addr 64 clBuffer) := .one (.stream ⟨addr, 64⟩) rfl here
  have flush (before : Heap) : Heap.Touches (· = addr) before (before.record (.clwb addr)) := .one (.clwb addr) rfl here
  have fence (before : Heap) : Heap.Touches (· = addr) before (before.record .sfence) :=
    .one .sfence rfl fun _ located => nomatch located
  cases wrMethod with
  | wrClwbSfence => exact (adding.trans (flush _)).trans (fence _)
  | wrNtSfence => exact streaming.trans (fence _)
  | wrClwb => exact adding.trans (flush _)
  | wrNt => exact streaming
  | rd => exact .nothing _ heap

theorem call_stays (wrMethod : WrMethod) (below : unitNum < 2 ^ 31) (bound : unit < unitNum) (heap : Heap) :
    Stays workPtr unitNum heap (wrMethod.call heap (unitAt workPtr unit)) := by
  have line : 64 ≤ sizeofUnit := by
    rw [sizeofUnit, NPAD]
    omega
  have inside := unit_inside workPtr bound line (allUnits_fits below)
  constructor
  · exact (call_writes wrMethod heap _).widen inside (allUnits_fits below)
  · exact (call_touches wrMethod heap _).widen fun address place => ⟨unit, bound, Or.inl place⟩

theorem visit_touches (wrMethod : WrMethod) (heap : Heap) (p : Word) :
    Heap.Touches (fun address => address = p ∨ address = padAt p 15) heap (visit wrMethod heap p).2 := by
  have written : Heap.Touches (fun address => address = p ∨ address = padAt p 15) heap
      (wrMethod.call heap (padAt p 15)) :=
    (call_touches wrMethod heap (padAt p 15)).widen fun _ place => Or.inr place
  exact written.trans (.one (.read ⟨p, 8⟩) rfl fun _ located => Or.inl (Option.some.inj located).symm)

theorem chase_touches (ran : chase wrMethod startingPoint tests p heap = .ok (visited, after)) :
    Heap.Touches (fun address => ∃ q ∈ visited, address = q ∨ address = padAt q 15) heap after := by
  induction tests generalizing p heap visited with
  | zero => contradiction
  | succ tests ih =>
      rw [chase] at ran
      split at ran
      · cases ran
        exact .nothing _ _
      · dsimp only at ran
        split at ran
        · contradiction
        · rename_i rest later chased
          cases ran
          have visiting : Heap.Touches (fun address => ∃ q ∈ p :: rest, address = q ∨ address = padAt q 15) heap
              (visit wrMethod heap p).2 :=
            (visit_touches wrMethod heap p).widen fun address place => ⟨p, List.mem_cons_self, place⟩
          apply visiting.trans
          apply (ih chased).widen
          intro address touched
          obtain ⟨q, member, place⟩ := touched
          exact ⟨q, List.mem_cons_of_mem p member, place⟩

theorem Stepwise.writesWithin (below : unitNum < 2 ^ 31)
    (units : ∀ p ∈ visited, ∃ unit < unitNum, p = unitAt workPtr unit)
    (stepwise : Stepwise (fun p => Heap.WritesWithin ⟨p, sizeofUnit⟩) visited before after) :
    Heap.WritesWithin (allUnits workPtr unitNum) before after := by
  induction visited generalizing before with
  | nil =>
      cases stepwise
      exact .nothing _ _
  | cons p rest ih =>
      obtain ⟨middle, writes, stepwise⟩ := stepwise
      obtain ⟨unit, bound, rfl⟩ := units p List.mem_cons_self
      have inside := unit_inside workPtr bound (Nat.le_refl _) (allUnits_fits below)
      have here := writes.widen inside (allUnits_fits below)
      exact here.trans (ih (fun q member => units q (List.mem_cons_of_mem _ member)) stepwise)

theorem chaseLap_stays {random : Nat} (positive : 1 ≤ unitNum) (below : unitNum < 2 ^ 31)
    (ran : chaseLap wrMethod workPtr unitNum tests heap random = .ok (visited, after))
    (units : ∀ p ∈ visited, ∃ unit < unitNum, p = unitAt workPtr unit)
    (stepwise : Stepwise (fun p => Heap.WritesWithin ⟨p, sizeofUnit⟩) visited
      (heap.load (unitAt workPtr (random % unitNum))).2 after) :
    Stays workPtr unitNum heap after := by
  have chased : chase wrMethod (unitAt workPtr (random % unitNum)) tests
      (heap.load (unitAt workPtr (random % unitNum))).1 (heap.load (unitAt workPtr (random % unitNum))).2 =
        .ok (visited, after) := ran
  have loaded : Stays workPtr unitNum heap (heap.load (unitAt workPtr (random % unitNum))).2 := by
    constructor
    · exact .record _ heap rfl
    · exact .one (.read ⟨_, 8⟩) rfl
        fun _ located => ⟨_, Nat.mod_lt _ positive, Or.inl (Option.some.inj located).symm⟩
  apply loaded.trans
  constructor
  · exact Stepwise.writesWithin below units stepwise
  · apply (chase_touches chased).widen
    intro address touched
    obtain ⟨q, member, place⟩ := touched
    obtain ⟨unit, bound, rfl⟩ := units q member
    exact ⟨unit, bound, place⟩

theorem linkUnits_stays (below : unitNum < 2 ^ 31) (within : ∀ unit ∈ order, unit < unitNum)
    (linked : linkUnits workPtr unitNum order heap = .ok after) : Stays workPtr unitNum heap after := by
  obtain ⟨middle, looped, closed⟩ := bind_ok.mp linked
  obtain ⟨last, atLast, closed⟩ := bind_ok.mp closed
  obtain ⟨first, _, closed⟩ := bind_ok.mp closed
  cases closed
  have loop : Stays workPtr unitNum heap middle := by
    apply (forInt_ok_iff.mp looped).preserves fun _ state => Stays workPtr unitNum heap state
    · intro i before after _ stays ran
      have linked := orOutOfRange_ok.mp ran
      simp only [linkNext, Option.bind_eq_bind, Option.bind_eq_some_iff] at linked
      obtain ⟨unit, found, here, _, set⟩ := linked
      cases set
      exact stays.trans (setNext_stays below (within unit (List.mem_of_getElem? found)) before _)
    · omega
    · exact .nothing workPtr unitNum heap
  have member := within last (List.mem_of_getElem? (orOutOfRange_ok.mp atLast))
  exact loop.trans (setNext_stays below member middle _)

theorem calcLap_laps (wrMethod : WrMethod) (below : unitNum < 2 ^ 31) (within : ∀ unit ∈ order, unit < unitNum)
    (heap : Heap) : (calcLap wrMethod workPtr order heap).1 = order.map (unitAt workPtr) ∧
      Stays workPtr unitNum heap (calcLap wrMethod workPtr order heap).2 := by
  induction order generalizing heap with
  | nil => exact ⟨rfl, .nothing workPtr unitNum heap⟩
  | cons unit rest ih =>
      obtain ⟨listed, stays⟩ := ih (fun other member => within other (List.mem_cons_of_mem _ member))
        (wrMethod.call heap (unitAt workPtr unit))
      have here : Stays workPtr unitNum heap (wrMethod.call heap (unitAt workPtr unit)) :=
        call_stays wrMethod below (within unit List.mem_cons_self) heap
      exact ⟨congrArg (unitAt workPtr unit :: ·) listed, here.trans stays⟩

end Accesses

section Traverse

variable {config : LatConfig} {world : LatWorld} {workPtr : Word} {unitNum unit iter random : Nat} {order : List Nat}
variable {heap before after : Heap} {traversal : Traversal} {visited : List Word}

/-- Another lap over some of the units. -/
theorem Traversed.extend {cycles : Word} (traversed : Traversed workPtr unitNum iter heap traversal)
    (units : ∀ p ∈ visited, ∃ unit < unitNum, p = unitAt workPtr unit)
    (stays : Stays workPtr unitNum traversal.heap after) :
    Traversed workPtr unitNum (iter + 1) heap ⟨traversal.laps ++ [visited], cycles, after⟩ where
  count := by rw [List.length_append, traversed.count, List.length_singleton]
  units lap member := by
    rcases List.mem_append.mp member with earlier | last
    · exact traversed.units lap earlier
    · cases List.mem_singleton.mp last
      exact units
  stays := traversed.stays.trans stays

theorem Traversed.start {cycles : Word} : Traversed workPtr unitNum 0 heap ⟨[], cycles, heap⟩ where
  count := rfl
  units _ member := absurd member List.not_mem_nil
  stays := .nothing workPtr unitNum heap

/-- `calc_lat` calls the method on every unit, in the traversal order, in each iteration. -/
theorem calcLat_laps (config : LatConfig) (world : LatWorld) (workPtr : Word) (heap : Heap) (below : unitNum < 2 ^ 31)
    (permuted : order.Perm (List.range unitNum)) (counts : config.iter.toNat < 2 ^ 31) :
    ∃ traversal, calcLat config world workPtr order heap = .ok traversal ∧
      Traversed workPtr unitNum config.iter.toNat heap traversal ∧
      traversal.laps = List.replicate config.iter.toNat (order.map (unitAt workPtr)) := by
  have within : ∀ unit ∈ order, unit < unitNum := fun unit => (mem_order permuted).mp
  let Inv : Nat → Traversal → Prop := fun i traversal =>
    Traversed workPtr unitNum i heap traversal ∧ traversal.laps = List.replicate i (order.map (unitAt workPtr))
  have step : ∀ i < 0 + config.iter.toNat, ∀ before, Inv i before →
      ∃ after, calcTurn config workPtr order i before = .ok after ∧ Inv (i + 1) after := by
    intro i _ before invariant
    obtain ⟨traversed, laps⟩ := invariant
    obtain ⟨listed, stays⟩ := calcLap_laps config.wrMethod below within before.heap
    refine ⟨_, rfl, traversed.extend ?_ stays, ?_⟩
    · intro p member
      rw [listed] at member
      obtain ⟨unit, inOrder, rfl⟩ := List.mem_map.mp member
      exact ⟨unit, within unit inOrder, rfl⟩
    · rw [laps, listed, List.replicate_succ']
  obtain ⟨traversal, ran, traversed, laps⟩ :=
    forInt_counted .intOverflow Inv (by omega) step ⟨.start, rfl⟩
  rw [Nat.zero_add] at traversed laps
  refine ⟨{ traversal with totalCycles := world.rdtsc 1 - world.rdtsc 0 }, ?_, ?_, laps⟩
  · rw [calcLat, ran]
    rfl
  · exact ⟨traversed.count, traversed.units, traversed.stays⟩

/-- `chase_ptr_lat` leaves out the unit it starts from, in each iteration. -/
theorem chasePtrLatTimed_laps (config : LatConfig) (world : LatWorld) (heap : Heap) (positive : 1 ≤ unitNum)
    (below : unitNum < 2 ^ 31) (permuted : order.Perm (List.range unitNum)) (enough : unitNum ≤ world.tests)
    (ring : Ring heap.memory.readWord (order.map (unitAt workPtr))) (counts : config.iter.toNat < 2 ^ 31) :
    ∃ traversal, chasePtrLatTimed config world workPtr unitNum heap = .ok traversal ∧
      Traversed workPtr unitNum config.iter.toNat heap traversal ∧
      ∀ lap ∈ traversal.laps, ∃ random, lap = (roundFrom order (random % unitNum)).map (unitAt workPtr) := by
  let Inv : Nat → Traversal → Prop := fun i traversal =>
    Traversed workPtr unitNum i heap traversal ∧
      (∀ p ∈ order.map (unitAt workPtr), traversal.heap.memory.readWord p = heap.memory.readWord p) ∧
      ∀ lap ∈ traversal.laps, ∃ random, lap = (roundFrom order (random % unitNum)).map (unitAt workPtr)
  have length := order_length permuted
  have nonempty : unitNum ≠ 0 := by omega
  have step : ∀ i < 0 + config.iter.toNat, ∀ before, Inv i before →
      ∃ after, chaseTurn config world workPtr unitNum i before = .ok after ∧ Inv (i + 1) after := by
    intro i _ before invariant
    obtain ⟨traversed, linked, rounds⟩ := invariant
    obtain ⟨visited, after, ran, lap, kept⟩ :=
      chaseLap_laps config.wrMethod (world.random i) positive below permuted ring linked enough
    have round : visited = (roundFrom order (world.random i % unitNum)).map (unitAt workPtr) := by
      rw [lap.inOrder, length]
    have start : world.random i % unitNum ∈ order := (mem_order permuted).mpr (Nat.mod_lt _ positive)
    have units : ∀ p ∈ visited, ∃ unit < unitNum, p = unitAt workPtr unit := by
      intro p member
      rw [round] at member
      obtain ⟨unit, inRound, rfl⟩ := List.mem_map.mp member
      have inOrder := (roundFrom_perm start).mem_iff.mp (List.mem_cons_of_mem _ inRound)
      exact ⟨unit, (mem_order permuted).mp inOrder, rfl⟩
    have steps := lap.writes
    rw [length] at steps
    have stays := chaseLap_stays positive below ran units steps
    refine ⟨⟨before.laps ++ [visited], before.totalCycles + (world.rdtsc (2 * i + 1) - world.rdtsc (2 * i)), after⟩,
      ?_, traversed.extend units stays, kept, ?_⟩
    · rw [chaseTurn, if_neg nonempty, ran]
      rfl
    · intro other member
      rcases List.mem_append.mp member with earlier | last
      · exact rounds other earlier
      · exact ⟨world.random i, (List.mem_singleton.mp last).trans round⟩
  obtain ⟨traversal, ran, traversed, _, rounds⟩ := forInt_counted .intOverflow Inv (by omega) step
    ⟨.start, fun _ _ => rfl, fun _ member => absurd member List.not_mem_nil⟩
  rw [Nat.zero_add] at traversed
  exact ⟨traversal, ran, traversed, rounds⟩

theorem calcLat_short (ran : calcLat config world workPtr order heap = .ok traversal) :
    config.iter.toNat < 2 ^ 31 := by
  obtain ⟨looped, ran, _⟩ := bind_ok.mp ran
  have short := forInt_short ran (by omega)
  omega

theorem chasePtrLatTimed_short (ran : chasePtrLatTimed config world workPtr unitNum heap = .ok traversal) :
    config.iter.toNat < 2 ^ 31 := by
  have short := forInt_short ran (by omega)
  omega

theorem traverse_short (ran : traverse config world workPtr unitNum order heap = .ok traversal) :
    config.iter.toNat < 2 ^ 31 := by
  rw [traverse] at ran
  split at ran
  · exact chasePtrLatTimed_short ran
  · exact calcLat_short ran

theorem traverse_laps (config : LatConfig) (world : LatWorld) (heap : Heap) (positive : 1 ≤ unitNum)
    (below : unitNum < 2 ^ 31) (permuted : order.Perm (List.range unitNum)) (enough : unitNum ≤ world.tests)
    (ring : Ring heap.memory.readWord (order.map (unitAt workPtr))) (counts : config.iter.toNat < 2 ^ 31) :
    ∃ traversal, traverse config world workPtr unitNum order heap = .ok traversal ∧
      Traversed workPtr unitNum config.iter.toNat heap traversal := by
  rw [traverse]
  cases config.travTp with
  | chasingPtr =>
      obtain ⟨traversal, ran, traversed, _⟩ :=
        chasePtrLatTimed_laps config world heap positive below permuted enough ring counts
      exact ⟨traversal, ran, traversed⟩
  | calcOffset =>
      obtain ⟨traversal, ran, traversed, _⟩ := calcLat_laps config world workPtr heap below permuted counts
      exact ⟨traversal, ran, traversed⟩

end Traverse

/-! # The worker -/

section Worker

variable {config : LatConfig} {world : LatWorld} {baseAddr wss : Word} {heap : Heap}
variable {worked : WorkerResult}

/-- A worker that returns had units and iterations, of both no more than its indices count. -/
theorem worker_needs (ran : worker config world baseAddr wss heap = .ok worked) :
    wss < config.maxSize ∧ 1 ≤ wss.toNat / sizeofUnit ∧ wss.toNat / sizeofUnit < 2 ^ 31 ∧
      1 ≤ config.iter.toNat ∧ config.iter.toNat < 2 ^ 31 := by
  rw [worker] at ran
  split at ran
  · contradiction
  · rename_i accepted
    obtain ⟨filled, filling, ran⟩ := bind_ok.mp ran
    obtain ⟨linked, _, ran⟩ := bind_ok.mp ran
    obtain ⟨traversal, traversing, ran⟩ := bind_ok.mp ran
    split at ran
    · contradiction
    · rename_i divisors
      rw [not_or] at divisors
      have short := forInt_short filling (by omega)
      have iterates : 1 ≤ config.iter.toNat := by
        by_contra none
        exact divisors.1 (BitVec.eq_of_toNat_eq (by simpa using none))
      exact ⟨by simpa using accepted, Nat.pos_of_ne_zero divisors.2, by omega, iterates, traverse_short traversing⟩

theorem worker_returns (baseAddr : Word) (heap : Heap) (accepted : wss < config.maxSize) (iterates : 1 ≤ config.iter.toNat)
    (counts : config.iter.toNat < 2 ^ 31) (positive : 1 ≤ wss.toNat / sizeofUnit)
    (below : wss.toNat / sizeofUnit < 2 ^ 31) (enough : wss.toNat / sizeofUnit ≤ world.tests) :
    ∃ worked, worker config world baseAddr wss heap = .ok worked ∧
      (∀ lap ∈ worked.traversal.laps, ∀ p ∈ lap, ∃ unit < wss.toNat / sizeofUnit, p = unitAt baseAddr unit) ∧
      Stays baseAddr (wss.toNat / sizeofUnit) heap worked.traversal.heap := by
  generalize units : wss.toNat / sizeofUnit = unitNum at positive below enough ⊢
  let order := if config.seq then List.range unitNum else world.shuffle (List.range unitNum)
  have permuted : order.Perm (List.range unitNum) := by
    cases mode : config.seq with
    | false => simpa [order, mode] using world.permutes (List.range unitNum)
    | true => simp [order, mode]
  obtain ⟨linked, linking, ring⟩ := linkUnits_ring baseAddr heap positive below permuted
  obtain ⟨traversal, traversing, traversed⟩ :=
    traverse_laps config world linked positive below permuted enough ring counts
  have within : ∀ unit ∈ order, unit < unitNum := fun unit => (mem_order permuted).mp
  have divisors : ¬ (config.iter = 0 ∨ unitNum = 0) := by
    rw [not_or]
    refine ⟨fun zero => ?_, by omega⟩
    rw [zero] at iterates
    contradiction
  have ran : ∃ ret, worker config world baseAddr wss heap = .ok ⟨ret, traversal⟩ := by
    rw [worker, if_neg (by simpa using accepted)]
    simp only [units, fillOrder_ok below, bind, Except.bind]
    rw [linking]
    dsimp only
    rw [traversing]
    dsimp only
    rw [if_neg divisors]
    exact ⟨_, rfl⟩
  obtain ⟨ret, ran⟩ := ran
  exact ⟨⟨ret, traversal⟩, ran, traversed.units, (linkUnits_stays below within linking).trans traversed.stays⟩

end Worker

end RwSep.Benchmark
