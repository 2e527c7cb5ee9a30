import RwSep.Benchmark.Heap
import RwSep.Data.Ring
import RwSep.Execution.Run
import Mathlib.Data.List.Count

namespace RwSep.Benchmark

open RwSep.Data RwSep.Execution RwSep.X86

/-! The pointer chase of lat.cpp: linking the units in traversal order, and the laps over them. -/

def NPAD : Nat := 31

/-- `sizeof(access_unit_t)`: `next`, then `pad`. -/
def sizeofUnit : Nat := 8 + 8 * NPAD

/-- `work_ptr + unit` -/
def unitAt (workPtr : Word) (unit : Nat) : Word := workPtr + BitVec.ofNat 64 (sizeofUnit * unit)

/-- `&p->pad[index]` -/
def padAt (p : Word) (index : Nat) : Word := p + BitVec.ofNat 64 (8 + 8 * index)

/-- `access_lat` clears it before the first worker starts. -/
def clBuffer : Nat → Byte := fun _ => 0

/-- `*((int *)addr) += 10;`, wrapping as the compiled addition does. -/
def addTen (heap : Heap) (addr : Word) : Heap :=
  let (value, heap) := heap.loadInt addr
  heap.store addr 4 (intBytes (value + 10))

def wrClwbSfence (heap : Heap) (addr : Word) : Heap :=
  ((addTen heap addr).record (.clwb addr)).record .sfence

def wrNtSfence (heap : Heap) (addr : Word) : Heap := (heap.stream addr 64 clBuffer).record .sfence

def wrClwb (heap : Heap) (addr : Word) : Heap := (addTen heap addr).record (.clwb addr)

def wrNt (heap : Heap) (addr : Word) : Heap := heap.stream addr 64 clBuffer

def rd (heap : Heap) (_ : Word) : Heap := heap

inductive WrMethod where
  | wrClwbSfence | wrNtSfence | wrClwb | wrNt | rd
deriving DecidableEq, Repr

def WrMethod.call : WrMethod → Heap → Word → Heap
  | .wrClwbSfence => Benchmark.wrClwbSfence
  | .wrNtSfence => Benchmark.wrNtSfence
  | .wrClwb => Benchmark.wrClwb
  | .wrNt => Benchmark.wrNt
  | .rd => Benchmark.rd

def setNext (heap : Heap) (p next : Word) : Heap := heap.store p 8 next.byte

/-- One turn of the `for` loop; `.at` throws outside the vector. -/
def linkNext (workPtr : Word) (traverseOrder : List Nat) (heap : Heap) (i : Nat) : Option Heap := do
  let before ← traverseOrder[i - 1]?
  let here ← traverseOrder[i]?
  return setNext heap (unitAt workPtr before) (unitAt workPtr here)

def prepareOrder (workPtr : Word) (traverseOrder : List Nat) (heap : Heap) : Option Heap := do
  let unitNum := traverseOrder.length
  let heap ← (List.range' 1 (unitNum - 1)).foldlM (linkNext workPtr traverseOrder) heap
  let last ← traverseOrder[unitNum - 1]?
  let first ← traverseOrder[0]?
  return setNext heap (unitAt workPtr last) (unitAt workPtr first)

/-- The `while` loop has not ended within the given number of tests. -/
inductive Unfinished where
  | unfinished
deriving DecidableEq, Repr

/-- `wr_method(&p->pad[15]); p = p->next;` -/
def visit (wrMethod : WrMethod) (heap : Heap) (p : Word) : Word × Heap :=
  (wrMethod.call heap (padAt p 15)).load p

/-- `while (p != starting_point)`, with the units it visits. -/
def chase (wrMethod : WrMethod) (startingPoint : Word) :
    Nat → Word → Heap → Except Unfinished (List Word × Heap)
  | 0, _, _ => .error .unfinished
  | tests + 1, p, heap =>
      if p = startingPoint then .ok ([], heap)
      else
        let (next, heap) := visit wrMethod heap p
        match chase wrMethod startingPoint tests next heap with
        | .error reason => .error reason
        | .ok (visited, heap) => .ok (p :: visited, heap)

/-- One iteration of `chase_ptr_lat`, with the value that `random()` returns. -/
def chaseLap (wrMethod : WrMethod) (workPtr : Word) (unitNum tests : Nat) (heap : Heap) (random : Nat) :
    Except Unfinished (List Word × Heap) :=
  let startingPoint := unitAt workPtr (random % unitNum)
  let (p, heap) := heap.load startingPoint
  chase wrMethod startingPoint tests p heap

def chasePtrLat (wrMethod : WrMethod) (workPtr : Word) (unitNum tests : Nat) :
    Heap → List Nat → Except Unfinished (List (List Word) × Heap) :=
  run (chaseLap wrMethod workPtr unitNum tests)

/-! # Layout -/

section Layout

variable {workPtr addr : Word} {unit other unitNum : Nat} {heap : Heap}

theorem unitAt_injective (bound : unit < 2 ^ 31) (bound' : other < 2 ^ 31)
    (same : unitAt workPtr unit = unitAt workPtr other) : unit = other := by
  have distance := congrArg (fun address => (address - workPtr).toNat) same
  simp only [unitAt, sizeofUnit, NPAD] at distance
  rw [Word.offset_distance workPtr (by omega), Word.offset_distance workPtr (by omega)] at distance
  omega

theorem part_inside (workPtr : Word) (offset length : Nat) (bound : unit < 2 ^ 31) (within : offset + length ≤ 256) :
    (Range.mk (unitAt workPtr unit + BitVec.ofNat 64 offset) length).Inside ⟨workPtr, 2 ^ 39⟩ ∧
      (Range.mk (unitAt workPtr unit + BitVec.ofNat 64 offset) length).offsetIn ⟨workPtr, 2 ^ 39⟩ =
        256 * unit + offset := by
  have located : unitAt workPtr unit + BitVec.ofNat 64 offset =
      workPtr + BitVec.ofNat 64 (256 * unit + offset) := by
    rw [unitAt, BitVec.ofNat_add, BitVec.add_assoc]
    rfl
  rw [located]
  have room : 256 * unit + offset + length ≤ 2 ^ 39 := by omega
  have short : 2 ^ 39 < 2 ^ 64 := by omega
  exact ⟨Range.inside_of_offset ⟨workPtr, 2 ^ 39⟩ room short, Word.offset_distance workPtr (by omega)⟩

theorem parts_apart (workPtr : Word) {offset length offset' length' : Nat} (bound : unit < 2 ^ 31)
    (bound' : other < 2 ^ 31) (within : offset + length ≤ 256) (within' : offset' + length' ≤ 256)
    (ordered : 256 * unit + offset + length ≤ 256 * other + offset' ∨
      256 * other + offset' + length' ≤ 256 * unit + offset) :
    (Range.mk (unitAt workPtr unit + BitVec.ofNat 64 offset) length).Disjoint
      ⟨unitAt workPtr other + BitVec.ofNat 64 offset', length'⟩ := by
  obtain ⟨inside, located⟩ := part_inside workPtr offset length bound within
  obtain ⟨inside', located'⟩ := part_inside workPtr offset' length' bound' within'
  have short : 2 ^ 39 ≤ 2 ^ 64 := by omega
  rcases ordered with before | behind
  · exact Range.disjoint_of_offsets inside inside' short (by rw [located, located']; exact before)
  · exact (Range.disjoint_of_offsets inside' inside short (by rw [located, located']; exact behind)).symm

theorem next_apart_next (bound : unit < 2 ^ 31) (bound' : other < 2 ^ 31) (different : unit ≠ other) :
    (Range.mk (unitAt workPtr unit) 8).Disjoint ⟨unitAt workPtr other, 8⟩ := by
  have pointer : 0 + 8 ≤ 256 := by omega
  have apart := parts_apart workPtr bound bound' pointer pointer (by omega)
  rwa [BitVec.add_zero, BitVec.add_zero] at apart

theorem next_apart_pad (bound : unit < 2 ^ 31) (bound' : other < 2 ^ 31) :
    (Range.mk (unitAt workPtr unit) 8).Disjoint ⟨padAt (unitAt workPtr other) 15, 64⟩ := by
  have pointer : 0 + 8 ≤ 256 := by omega
  have pad : 128 + 64 ≤ 256 := by omega
  have apart := parts_apart workPtr bound bound' pointer pad (by omega)
  rwa [BitVec.add_zero] at apart

theorem line_fits : (Range.mk addr 64).length ≤ 2 ^ 64 := by
  simp

theorem unit_fits : (Range.mk addr sizeofUnit).length < 2 ^ 64 := by
  simp [sizeofUnit, NPAD]

theorem pad_inside (p : Word) : (Range.mk (padAt p 15) 64).Inside ⟨p, sizeofUnit⟩ :=
  Range.inside_of_offset ⟨p, sizeofUnit⟩ (by simp [sizeofUnit, NPAD]) unit_fits

end Layout

/-! # Orders -/

section Order

variable {order : List Nat} {unitNum unit : Nat} (permuted : order.Perm (List.range unitNum))

include permuted

theorem order_length : order.length = unitNum := by
  simpa using permuted.length_eq

theorem mem_order : unit ∈ order ↔ unit < unitNum := by
  rw [permuted.mem_iff, List.mem_range]

variable (below : unitNum < 2 ^ 31)

include below

theorem order_short (member : unit ∈ order) : unit < 2 ^ 31 :=
  Nat.lt_trans ((mem_order permuted).mp member) below

theorem addresses_nodup (workPtr : Word) : (order.map (unitAt workPtr)).Nodup := by
  apply (permuted.nodup_iff.mpr List.nodup_range).map_on
  intro unit member other member' same
  exact unitAt_injective (order_short permuted below member) (order_short permuted below member') same

theorem addresses_apart {workPtr p q : Word} (inOrder : p ∈ order.map (unitAt workPtr))
    (inOrder' : q ∈ order.map (unitAt workPtr)) : (Range.mk p 8).Disjoint ⟨padAt q 15, 64⟩ := by
  obtain ⟨unit, member, rfl⟩ := List.mem_map.mp inOrder
  obtain ⟨other, member', rfl⟩ := List.mem_map.mp inOrder'
  exact next_apart_pad (order_short permuted below member) (order_short permuted below member')

end Order

/-! # The list -/

section List

variable {workPtr p q next : Word} {order : List Nat} {unitNum : Nat} {heap : Heap}

theorem setNext_self : (setNext heap p next).memory.readWord p = next := Memory.readWord_writeWord

theorem setNext_other (apart : (Range.mk q 8).Disjoint ⟨p, 8⟩) :
    (setNext heap p next).memory.readWord q = heap.memory.readWord q :=
  Memory.readWord_writeBytes_disjoint apart

theorem linkNext_steps (workPtr : Word) (heap : Heap) (distinct : order.Nodup)
    (short : ∀ unit ∈ order, unit < 2 ^ 31) (count : Nat) (bound : count < order.length) :
    ∃ after, (List.range' 1 count).foldlM (linkNext workPtr order) heap = some after ∧
      ∀ position < count, ∀ here there, order[position]? = some here → order[position + 1]? = some there →
        after.memory.readWord (unitAt workPtr here) = unitAt workPtr there := by
  induction count with
  | zero => exact ⟨heap, rfl, fun _ below => absurd below (by omega)⟩
  | succ count ih =>
      obtain ⟨after, linked, steps⟩ := ih (by omega)
      have last : order[count]? = some order[count] := List.getElem?_eq_getElem (by omega)
      have new : order[count + 1]? = some order[count + 1] := List.getElem?_eq_getElem bound
      refine ⟨setNext after (unitAt workPtr order[count]) (unitAt workPtr order[count + 1]), ?_,
        fun position below here there atHere atThere => ?_⟩
      · rw [List.range'_1_concat, List.foldlM_append, linked]
        simp only [Option.bind_eq_bind, Option.bind_some, List.foldlM_cons, List.foldlM_nil, linkNext,
          Nat.add_comm 1 count, Nat.add_sub_cancel, last, new]
        rfl
      · by_cases newest : position = count
        · subst newest
          cases last.symm.trans atHere
          cases new.symm.trans atThere
          exact setNext_self
        · have different : here ≠ order[count] := by
            intro same
            rw [same, ← last] at atHere
            exact newest ((List.getElem?_inj (by omega) distinct).mp atHere)
          rw [setNext_other (next_apart_next (short here (List.mem_of_getElem? atHere))
            (short _ (List.mem_of_getElem? last)) different)]
          exact steps position (by omega) here there atHere atThere

theorem prepareOrder_ring (workPtr : Word) (heap : Heap) (positive : 1 ≤ unitNum) (below : unitNum < 2 ^ 31)
    (permuted : order.Perm (List.range unitNum)) :
    ∃ linked, prepareOrder workPtr order heap = some linked ∧
      Ring linked.memory.readWord (order.map (unitAt workPtr)) := by
  have length := order_length permuted
  have distinct : order.Nodup := permuted.nodup_iff.mpr List.nodup_range
  have short : ∀ unit ∈ order, unit < 2 ^ 31 := fun unit => order_short permuted below
  obtain ⟨after, linked, steps⟩ :=
    linkNext_steps workPtr heap distinct short (order.length - 1) (by omega)
  have first : order[0]? = some order[0] := List.getElem?_eq_getElem (by omega)
  have last : order[order.length - 1]? = some order[order.length - 1] := List.getElem?_eq_getElem (by omega)
  refine ⟨setNext after (unitAt workPtr order[order.length - 1]) (unitAt workPtr order[0]), ?_, ?_⟩
  · simp only [prepareOrder, linked, first, last]
    rfl
  · refine Ring.of_steps ?_ ?_ ?_ setNext_self
    · intro position here there atHere atThere
      rw [List.getElem?_map, Option.map_eq_some_iff] at atHere atThere
      obtain ⟨unit, atHere, rfl⟩ := atHere
      obtain ⟨other, atThere, rfl⟩ := atThere
      have inner : position + 1 < order.length := (List.getElem?_eq_some_iff.mp atThere).1
      have different : unit ≠ order[order.length - 1] := by
        intro same
        rw [same, ← last] at atHere
        have equal := (List.getElem?_inj (by omega) distinct).mp atHere
        omega
      rw [setNext_other (next_apart_next (short unit (List.mem_of_getElem? atHere))
        (short _ (List.mem_of_getElem? last)) different)]
      exact steps position (by omega) unit other atHere atThere
    · rw [List.getElem?_map, first]
      rfl
    · rw [List.length_map, List.getElem?_map, last]
      rfl

end List

/-! # Laps -/

section Laps

variable {workPtr startingPoint p addr : Word} {order : List Nat} {unitNum tests random : Nat}
variable {heap before after : Heap} {wrMethod : WrMethod} {units visited : List Word} {next : Word → Word}

theorem addTen_writes (heap : Heap) (addr : Word) : Heap.WritesWithin ⟨addr, 64⟩ heap (addTen heap addr) := by
  have inside : (Range.mk addr 4).Inside ⟨addr, 64⟩ := Range.inside_start addr (by omega)
  exact (Heap.WritesWithin.record _ heap rfl).trans (.written _ rfl inside line_fits)

theorem stream_writes (heap : Heap) (addr : Word) :
    Heap.WritesWithin ⟨addr, 64⟩ heap (heap.stream addr 64 clBuffer) :=
  .written _ rfl (Range.inside_start addr (Nat.le_refl 64)) line_fits

theorem call_writes (wrMethod : WrMethod) (heap : Heap) (addr : Word) :
    Heap.WritesWithin ⟨addr, 64⟩ heap (wrMethod.call heap addr) := by
  cases wrMethod with
  | wrClwbSfence => exact ((addTen_writes heap addr).trans (.record _ _ rfl)).trans (.record _ _ rfl)
  | wrNtSfence => exact (stream_writes heap addr).trans (.record _ _ rfl)
  | wrClwb => exact (addTen_writes heap addr).trans (.record _ _ rfl)
  | wrNt => exact stream_writes heap addr
  | rd => exact .nothing _ heap

theorem visit_writes (wrMethod : WrMethod) (heap : Heap) (p : Word) :
    Heap.WritesWithin ⟨padAt p 15, 64⟩ heap (visit wrMethod heap p).2 :=
  (call_writes wrMethod heap _).trans (.record _ _ rfl)

/-- Along a path that does not write its own pointers the loop ends at the starting point. -/
theorem chase_path (wrMethod : WrMethod) (heap : Heap)
    (apart : ∀ p ∈ units, ∀ q ∈ units, (Range.mk p 8).Disjoint ⟨padAt q 15, 64⟩)
    (within : ∀ p ∈ visited, p ∈ units) (others : startingPoint ∉ visited)
    (path : (visited ++ [startingPoint]).IsChain fun here there => next here = there)
    (first : (visited ++ [startingPoint]).head? = some p)
    (linked : ∀ p ∈ units, heap.memory.readWord p = next p) (enough : visited.length < tests) :
    ∃ after, chase wrMethod startingPoint tests p heap = .ok (visited, after) ∧
      (∀ p ∈ units, after.memory.readWord p = next p) ∧
      Stepwise (fun p => Heap.WritesWithin ⟨p, sizeofUnit⟩) visited heap after := by
  induction visited generalizing p heap tests with
  | nil =>
      obtain ⟨tests, rfl⟩ := Nat.exists_eq_succ_of_ne_zero (Nat.ne_of_gt enough)
      cases first
      exact ⟨heap, if_pos rfl, linked, rfl⟩
  | cons here rest ih =>
      obtain ⟨tests, rfl⟩ := Nat.exists_eq_succ_of_ne_zero (Nat.ne_of_gt (Nat.zero_lt_of_lt enough))
      cases first
      have inUnits := within here List.mem_cons_self
      have elsewhere : here ≠ startingPoint := fun same => others (same ▸ List.mem_cons_self)
      have writes := visit_writes wrMethod heap here
      have linked' : ∀ q ∈ units, (visit wrMethod heap here).2.memory.readWord q = next q := by
        intro q member
        rw [writes.readWord (apart q member here inUnits)]
        exact linked q member
      obtain ⟨leads, path⟩ := path_tail path
      have loaded : (visit wrMethod heap here).1 = next here := linked' here inUnits
      rw [← loaded] at leads
      obtain ⟨after, chased, kept, stepwise⟩ := ih (visit wrMethod heap here).2
        (fun q member => within q (List.mem_cons_of_mem _ member))
        (fun member => others (List.mem_cons_of_mem _ member)) path leads linked' (Nat.lt_of_succ_lt_succ enough)
      refine ⟨after, ?_, kept, (visit wrMethod heap here).2, ?_, stepwise⟩
      · simp only [chase, if_neg elsewhere, chased]
      · exact writes.widen (pad_inside here) unit_fits

/-- What one lap over the units in `order` does. -/
structure Lap (workPtr : Word) (order : List Nat) (before : Heap) (random : Nat) (visited : List Word) (after : Heap) :
    Prop where
  inOrder : visited = (roundFrom order (random % order.length)).map (unitAt workPtr)
  once : ∀ unit < order.length,
    visited.count (unitAt workPtr unit) = if unit = random % order.length then 0 else 1
  links : ∀ unit < order.length,
    after.memory.readWord (unitAt workPtr unit) = before.memory.readWord (unitAt workPtr unit)
  writes : Stepwise (fun p => Heap.WritesWithin ⟨p, sizeofUnit⟩) visited
    (before.load (unitAt workPtr (random % order.length))).2 after

theorem chaseLap_laps (wrMethod : WrMethod) (random : Nat) (positive : 1 ≤ unitNum) (below : unitNum < 2 ^ 31)
    (permuted : order.Perm (List.range unitNum)) (ring : Ring next (order.map (unitAt workPtr)))
    (linked : ∀ p ∈ order.map (unitAt workPtr), before.memory.readWord p = next p) (enough : unitNum ≤ tests) :
    ∃ visited after, chaseLap wrMethod workPtr unitNum tests before random = .ok (visited, after) ∧
      Lap workPtr order before random visited after ∧
      ∀ p ∈ order.map (unitAt workPtr), after.memory.readWord p = next p := by
  have length := order_length permuted
  have distinct := addresses_nodup permuted below workPtr
  have startUnit : random % unitNum ∈ order := (mem_order permuted).mpr (Nat.mod_lt _ positive)
  obtain ⟨left, right, split, round⟩ := exists_roundFrom startUnit
  let visited := (right ++ left).map (unitAt workPtr)
  have listed : (unitAt workPtr (random % unitNum) :: visited).Perm (order.map (unitAt workPtr)) := by
    have permuted := (roundFrom_perm startUnit).map (unitAt workPtr)
    rwa [round] at permuted
  have distinct' := listed.nodup_iff.mpr distinct
  rw [split, List.map_append, List.map_cons] at ring
  obtain ⟨leads, path⟩ := ring.round
  rw [← List.map_append] at leads path
  have first : (visited ++ [unitAt workPtr (random % unitNum)]).head? =
      some (before.memory.readWord (unitAt workPtr (random % unitNum))) := by
    rw [leads, linked _ (List.mem_map_of_mem startUnit)]
  have fewer : visited.length < tests := by
    have count := listed.length_eq
    simp only [List.length_cons, List.length_map, length] at count
    omega
  obtain ⟨after, chased, kept, stepwise⟩ := chase_path wrMethod (before.load (unitAt workPtr (random % unitNum))).2
    (fun p inOrder q inOrder' => addresses_apart permuted below inOrder inOrder')
    (fun p member => listed.mem_iff.mp (List.mem_cons_of_mem _ member)) (List.nodup_cons.mp distinct').1 path first
    linked fewer
  refine ⟨visited, after, chased, ⟨?_, ?_, ?_, ?_⟩, kept⟩
  · rw [length, round]
  · intro unit bound
    rw [length] at bound ⊢
    have member : unit ∈ order := (mem_order permuted).mpr bound
    rw [count_others listed distinct (List.mem_map_of_mem member)]
    apply if_congr _ rfl rfl
    exact ⟨unitAt_injective (order_short permuted below member) (order_short permuted below startUnit),
      congrArg (unitAt workPtr)⟩
  · intro unit bound
    rw [length] at bound
    have member := List.mem_map_of_mem (f := unitAt workPtr) ((mem_order permuted).mpr bound)
    rw [kept _ member, linked _ member]
  · rw [length]
    exact stepwise

end Laps

/-- For every order of the units, method and sequence of `random()` values
every lap ends, having visited the other units in the order of the list. -/
theorem chasePtrLat_laps (wrMethod : WrMethod) (workPtr : Word) (heap : Heap) {unitNum tests : Nat} {order : List Nat}
    (positive : 1 ≤ unitNum) (below : unitNum < 2 ^ 31) (permuted : order.Perm (List.range unitNum))
    (enough : unitNum ≤ tests) (randoms : List Nat) :
    ∃ linked, prepareOrder workPtr order heap = some linked ∧
      (∃ laps after, chasePtrLat wrMethod workPtr unitNum tests linked randoms = .ok (laps, after)) ∧
      Every (chaseLap wrMethod workPtr unitNum tests) (Lap workPtr order) linked randoms := by
  obtain ⟨linked, prepared, ring⟩ := prepareOrder_ring workPtr heap positive below permuted
  have every : Every (chaseLap wrMethod workPtr unitNum tests) (Lap workPtr order) linked randoms := by
    apply every_of_keeps fun state => ∀ p ∈ order.map (unitAt workPtr),
      state.memory.readWord p = linked.memory.readWord p
    · intro before random kept
      exact chaseLap_laps wrMethod random positive below permuted ring kept enough
    · exact fun _ _ => rfl
  exact ⟨linked, prepared, every.exists_run, every⟩

/-- Three units at 4096 in the order 1, 2, 0. -/
theorem chasePtrLat_laps_three : ∃ linked, prepareOrder 4096 [1, 2, 0] ⟨fun _ => 7, []⟩ = some linked ∧
    (∃ laps after, chasePtrLat .wrNt 4096 3 3 linked [5, 7] = .ok (laps, after)) ∧
    Every (chaseLap .wrNt 4096 3 3) (Lap 4096 [1, 2, 0]) linked [5, 7] :=
  chasePtrLat_laps .wrNt 4096 ⟨fun _ => 7, []⟩ (by decide) (by decide) (by decide) (by decide) [5, 7]

end RwSep.Benchmark
