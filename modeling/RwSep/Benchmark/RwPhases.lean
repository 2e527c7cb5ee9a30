import RwSep.Benchmark.Heap
import Mathlib.Data.List.Count
import Mathlib.Data.List.Nodup
import Mathlib.Logic.Function.Iterate

namespace RwSep.Benchmark

open RwSep.Data RwSep.X86

/-! The mixed and the separated phase of rw_sep.cpp over the objects `a[0]`, `a[4]`, `a[8]`, ... -/

/-- `sizeof(foo_t)`: eight `int64_t`. -/
def sizeofFoo : Nat := 64

/-- `&p->data[k]` -/
def dataAt (p : Word) (k : Nat) : Word := p + BitVec.ofNat 64 (8 * k)

/-- `if (p->data[0]);` -/
def readData (heap : Heap) (p : Word) : Heap := (heap.load (dataAt p 0)).2

/-- `_mm_stream_si32((int *)&p->data[0], p->data[0] + 1);`, the sum cut down to an `int`. -/
def streamData (heap : Heap) (p : Word) : Heap :=
  let (value, heap) := heap.load (dataAt p 0)
  heap.stream (dataAt p 0) 4 (intBytes ((value + 1).setWidth 32))

def wrMixTurn (a : Nat → Word) (sepGrn : Nat) (heap : Heap) : Heap :=
  (List.range sepGrn).foldl (fun heap j => streamData (readData heap (a (4 * (j + 0)))) (a (4 * j))) heap

def wrMix (a : Nat → Word) (nRw sepGrn : Nat) (heap : Heap) : Heap := (wrMixTurn a sepGrn)^[nRw / sepGrn] heap

/-- `for (int j = 0; j < sep_grn; j+=2)` -/
def everySecond (sepGrn : Nat) : List Nat := List.range' 0 ((sepGrn + 1) / 2) 2

def wrSepTurn (a : Nat → Word) (sepGrn : Nat) (heap : Heap) : Heap :=
  let heap := (everySecond sepGrn).foldl
    (fun heap j => readData (readData heap (a (4 * j))) (a (4 * (j + 1)))) heap
  (everySecond sepGrn).foldl (fun heap j => streamData (streamData heap (a (4 * j))) (a (4 * (j + 1)))) heap

def wrSep (a : Nat → Word) (nRw sepGrn : Nat) (heap : Heap) : Heap := (wrSepTurn a sepGrn)^[nRw / sepGrn] heap

/-! # Stores of both phases -/

def Access.streamed : Access → Option Range
  | .stream range => some range
  | _ => none

/-- What reads leave alone: the memory, and the non-temporal stores so far. -/
structure Effect where
  memory : Memory
  streams : List Range

def Heap.effect (heap : Heap) : Effect := ⟨heap.memory, heap.trace.filterMap Access.streamed⟩

def Effect.increment (effect : Effect) (p : Word) : Effect where
  memory := effect.memory.writeBytes p 4 (intBytes ((effect.memory.readWord p + 1).setWidth 32))
  streams := effect.streams ++ [⟨p, 4⟩]

/-- The objects that the phases work on. -/
def objects (a : Nat → Word) (sepGrn : Nat) : List Word := (List.range sepGrn).map fun j => a (4 * j)

variable {a : Nat → Word} {sepGrn nRw : Nat} {heap : Heap} {p : Word}

theorem effect_readData (heap : Heap) (p : Word) : (readData heap p).effect = heap.effect := by
  simp [readData, Heap.load, Heap.record, Heap.effect, Access.streamed]

theorem effect_streamData (heap : Heap) (p : Word) : (streamData heap p).effect = heap.effect.increment p := by
  simp only [streamData, dataAt, Heap.load, Heap.stream, Heap.record, Heap.effect, Effect.increment,
    List.filterMap_append, List.append_assoc, Nat.mul_zero, BitVec.add_zero]
  rfl

theorem effect_wrMixTurn (heap : Heap) : (wrMixTurn a sepGrn heap).effect =
    (objects a sepGrn).foldl Effect.increment heap.effect := by
  rw [wrMixTurn, objects, List.foldl_map]
  apply (List.foldl_hom Heap.effect _).symm
  intro heap j
  rw [effect_streamData, effect_readData]

theorem everySecond_pairs (even : sepGrn % 2 = 0) :
    ((everySecond sepGrn).flatMap fun j => [j, j + 1]) = List.range sepGrn := by
  obtain ⟨half, rfl⟩ : ∃ half, sepGrn = 2 * half := ⟨sepGrn / 2, by omega⟩
  rw [everySecond, show (2 * half + 1) / 2 = half by omega]
  induction half with
  | zero => rfl
  | succ half ih =>
      rw [List.range'_concat, List.flatMap_append, ih (by omega), show 2 * (half + 1) = 2 * half + 1 + 1 by omega,
        List.range_succ, List.range_succ]
      simp

theorem effect_wrSepTurn (even : sepGrn % 2 = 0) (heap : Heap) : (wrSepTurn a sepGrn heap).effect =
    (objects a sepGrn).foldl Effect.increment heap.effect := by
  have reads : ∀ (turns : List Nat) (heap : Heap), (turns.foldl
      (fun heap j => readData (readData heap (a (4 * j))) (a (4 * (j + 1)))) heap).effect = heap.effect := by
    intro turns
    induction turns with
    | nil => exact fun _ => rfl
    | cons j rest ih =>
        intro heap
        rw [List.foldl_cons, ih, effect_readData, effect_readData]
  have pairs : ∀ heap, ((everySecond sepGrn).foldl
      (fun heap j => streamData (streamData heap (a (4 * j))) (a (4 * (j + 1)))) heap).effect =
      (List.range sepGrn).foldl (fun effect j => effect.increment (a (4 * j))) heap.effect := by
    intro heap
    rw [← everySecond_pairs even, List.foldl_flatMap]
    apply (List.foldl_hom Heap.effect _).symm
    intro heap j
    simp only [List.foldl_cons, List.foldl_nil, effect_streamData]
  rw [wrSepTurn, pairs, reads, objects, List.foldl_map]

/-- Both phases stream to the objects one after the other, and start over. -/
def stores (a : Nat → Word) (nRw sepGrn : Nat) : List Word :=
  (List.replicate (nRw / sepGrn) (objects a sepGrn)).flatten

theorem effect_turns {turn : Heap → Heap} {ps : List Word}
    (effect : ∀ heap, (turn heap).effect = ps.foldl Effect.increment heap.effect) (count : Nat) (heap : Heap) :
    (turn^[count] heap).effect = (List.replicate count ps).flatten.foldl Effect.increment heap.effect := by
  induction count with
  | zero => rfl
  | succ count ih =>
      rw [Function.iterate_succ_apply', effect, ih, List.replicate_succ', List.flatten_concat, List.foldl_append]

theorem effect_wrMix (heap : Heap) : (wrMix a nRw sepGrn heap).effect =
    (stores a nRw sepGrn).foldl Effect.increment heap.effect :=
  effect_turns effect_wrMixTurn (nRw / sepGrn) heap

theorem effect_wrSep (even : sepGrn % 2 = 0) (heap : Heap) : (wrSep a nRw sepGrn heap).effect =
    (stores a nRw sepGrn).foldl Effect.increment heap.effect :=
  effect_turns (effect_wrSepTurn even) (nRw / sepGrn) heap

/-! # What the stores do -/

section Stores

variable {effect : Effect} {ps : List Word} {byte : Word}

theorem increment_low : readInt (effect.increment p).memory p = readInt effect.memory p + 1 := by
  rw [Effect.increment, readInt_writeBytes, BitVec.setWidth_add _ _ (by decide)]
  rfl

theorem stores_ints (ps : List Word) (effect : Effect)
    (apart : ∀ q ∈ ps, q = p ∨ (Range.mk p 8).Disjoint ⟨q, 4⟩) :
    readInt (ps.foldl Effect.increment effect).memory p = readInt effect.memory p + BitVec.ofNat 32 (ps.count p) ∧
    ((ps.foldl Effect.increment effect).memory.readWord p).extractLsb' 32 32 =
      (effect.memory.readWord p).extractLsb' 32 32 := by
  induction ps generalizing effect with
  | nil => simp
  | cons q rest ih =>
      obtain ⟨low, high⟩ := ih (effect.increment q) fun other member => apart other (List.mem_cons_of_mem _ member)
      rw [List.foldl_cons, low, high]
      rcases apart q List.mem_cons_self with rfl | elsewhere
      · rw [increment_low, List.count_cons_self, BitVec.ofNat_add, BitVec.add_assoc, BitVec.add_comm 1]
        exact ⟨rfl, high_writeBytes⟩
      · have kept : (effect.increment q).memory.readWord p = effect.memory.readWord p :=
          Memory.readWord_writeBytes_disjoint elsewhere
        have different : q ≠ p := by
          intro same
          rw [same] at elsewhere
          exact elsewhere p (by simp [Range.mem_iff]) (by simp [Range.mem_iff])
        rw [readInt, kept, List.count_cons_of_ne different]
        exact ⟨rfl, rfl⟩

theorem stores_outside (ps : List Word) (effect : Effect) (outside : ∀ q ∈ ps, byte ∉ Range.mk q 4) :
    (ps.foldl Effect.increment effect).memory byte = effect.memory byte := by
  induction ps generalizing effect with
  | nil => rfl
  | cons q rest ih =>
      rw [List.foldl_cons, ih _ fun other member => outside other (List.mem_cons_of_mem _ member)]
      exact Memory.writeBytes_outside (outside q List.mem_cons_self)

theorem stores_streams (ps : List Word) (effect : Effect) :
    (ps.foldl Effect.increment effect).streams = effect.streams ++ ps.map fun p => ⟨p, 4⟩ := by
  induction ps generalizing effect with
  | nil => simp
  | cons q rest ih => rw [List.foldl_cons, ih, Effect.increment, List.append_assoc, List.map_cons, List.singleton_append]

end Stores

/-- Non-temporal stores into an object so far. -/
def streamsTo (heap : Heap) (p : Word) : Nat :=
  heap.effect.streams.countP fun range => range.Inside ⟨p, sizeofFoo⟩

/-- Each object has got `count` increments of the `int` at its start, by as
many stores, and nothing else has changed. -/
structure Worked (a : Nat → Word) (sepGrn count : Nat) (before after : Heap) : Prop where
  streams : ∀ j < sepGrn, streamsTo after (a (4 * j)) = streamsTo before (a (4 * j)) + count
  low : ∀ j < sepGrn, readInt after.memory (dataAt (a (4 * j)) 0) =
    readInt before.memory (dataAt (a (4 * j)) 0) + BitVec.ofNat 32 count
  high : ∀ j < sepGrn, (after.memory.readWord (dataAt (a (4 * j)) 0)).extractLsb' 32 32 =
    (before.memory.readWord (dataAt (a (4 * j)) 0)).extractLsb' 32 32
  rest : ∀ j < sepGrn, ∀ k, 0 < k → k < 8 →
    after.memory.readWord (dataAt (a (4 * j)) k) = before.memory.readWord (dataAt (a (4 * j)) k)
  others : ∀ byte, (∀ j < sepGrn, byte ∉ Range.mk (a (4 * j)) sizeofFoo) →
    after.memory byte = before.memory byte

section Objects

theorem foo_fits : (Range.mk p sizeofFoo).length ≤ 2 ^ 64 := by
  simp [sizeofFoo]

theorem int_inside (p : Word) : (Range.mk p 4).Inside ⟨p, sizeofFoo⟩ := Range.inside_start p (by rw [sizeofFoo]; omega)

theorem mem_stores (stored : p ∈ stores a nRw sepGrn) : p ∈ objects a sepGrn := by
  obtain ⟨turn, replicated, inTurn⟩ := List.mem_flatten.mp stored
  rwa [List.eq_of_mem_replicate replicated] at inTurn

variable (apart : ∀ i < sepGrn, ∀ j < sepGrn, i ≠ j →
  (Range.mk (a (4 * i)) sizeofFoo).Disjoint ⟨a (4 * j), sizeofFoo⟩)

include apart

theorem objects_apart {p q : Word} (left : p ∈ objects a sepGrn) (right : q ∈ objects a sepGrn) :
    q = p ∨ (Range.mk p sizeofFoo).Disjoint ⟨q, sizeofFoo⟩ := by
  obtain ⟨i, inRange, rfl⟩ := List.mem_map.mp left
  obtain ⟨j, inRange', rfl⟩ := List.mem_map.mp right
  by_cases same : i = j
  · exact .inl (by rw [same])
  · exact .inr (apart i (List.mem_range.mp inRange) j (List.mem_range.mp inRange') same)

theorem objects_nodup : (objects a sepGrn).Nodup := by
  apply List.nodup_range.map_on
  intro i inRange j inRange' same
  by_contra different
  have disjoint := apart i (List.mem_range.mp inRange) j (List.mem_range.mp inRange') different
  rw [same] at disjoint
  exact disjoint (a (4 * j)) (by simp [Range.mem_iff, sizeofFoo]) (by simp [Range.mem_iff, sizeofFoo])

theorem count_stores (member : p ∈ objects a sepGrn) : (stores a nRw sepGrn).count p = nRw / sepGrn := by
  rw [stores, List.count_flatten, List.map_replicate, List.sum_replicate_nat,
    List.count_eq_one_of_mem (objects_nodup apart) member]
  simp

theorem streams_inside {p q : Word} (left : p ∈ objects a sepGrn) (right : q ∈ objects a sepGrn) :
    (Range.mk q 4).Inside ⟨p, sizeofFoo⟩ ↔ q = p := by
  apply Iff.intro
  · intro inside
    rcases objects_apart apart left right with same | disjoint
    · exact same
    · exact absurd (by simp [Range.mem_iff, sizeofFoo]) (disjoint q (inside.base_mem (Nat.succ_pos 3)))
  · intro same
    rw [same]
    exact int_inside p

theorem object_ints (member : p ∈ objects a sepGrn) (effect : Effect) :
    readInt ((stores a nRw sepGrn).foldl Effect.increment effect).memory p =
      readInt effect.memory p + BitVec.ofNat 32 (nRw / sepGrn) ∧
    (((stores a nRw sepGrn).foldl Effect.increment effect).memory.readWord p).extractLsb' 32 32 =
      (effect.memory.readWord p).extractLsb' 32 32 := by
  rw [← count_stores apart member]
  apply stores_ints
  intro q stored
  rcases objects_apart apart member (mem_stores stored) with same | disjoint
  · exact .inl same
  · have word : (Range.mk p 8).Inside ⟨p, sizeofFoo⟩ := Range.inside_start p (by rw [sizeofFoo]; omega)
    exact .inr (disjoint.of_inside word (int_inside q) foo_fits foo_fits)

theorem object_rest (member : p ∈ objects a sepGrn) (effect : Effect) {k : Nat} (positive : 0 < k) (below : k < 8) :
    ((stores a nRw sepGrn).foldl Effect.increment effect).memory.readWord (dataAt p k) =
      effect.memory.readWord (dataAt p k) := by
  have room : 8 * k + 8 ≤ sizeofFoo := by
    rw [sizeofFoo]
    omega
  have short : sizeofFoo < 2 ^ 64 := by
    rw [sizeofFoo]
    omega
  have field : (Range.mk (dataAt p k) 8).Inside ⟨p, sizeofFoo⟩ :=
    Range.inside_of_offset ⟨p, sizeofFoo⟩ room short
  have offset : (Range.mk (dataAt p k) 8).offsetIn ⟨p, sizeofFoo⟩ = 8 * k := Word.offset_distance p (by omega)
  have behind : (Range.mk p 4).offsetIn ⟨p, sizeofFoo⟩ + 4 ≤ (Range.mk (dataAt p k) 8).offsetIn ⟨p, sizeofFoo⟩ := by
    rw [offset, Range.offsetIn, BitVec.sub_self]
    change 0 + 4 ≤ 8 * k
    omega
  apply Memory.readWord_congr
  intro byte inField
  apply stores_outside
  intro q stored
  rcases objects_apart apart member (mem_stores stored) with rfl | disjoint
  · exact (Range.disjoint_of_offsets (int_inside q) field foo_fits behind).symm byte inField
  · exact disjoint.of_inside field (int_inside q) foo_fits foo_fits byte inField

theorem object_streams {before after : Heap} (member : p ∈ objects a sepGrn)
    (effect : after.effect = (stores a nRw sepGrn).foldl Effect.increment before.effect) :
    streamsTo after p = streamsTo before p + nRw / sepGrn := by
  rw [streamsTo, effect, stores_streams, List.countP_append, List.countP_map, ← count_stores apart member]
  apply congrArg (streamsTo before p + ·)
  apply List.countP_congr
  intro q stored
  simpa using streams_inside apart member (mem_stores stored)

theorem worked_of_effect {before after : Heap}
    (effect : after.effect = (stores a nRw sepGrn).foldl Effect.increment before.effect) :
    Worked a sepGrn (nRw / sepGrn) before after := by
  have memory : after.memory = ((stores a nRw sepGrn).foldl Effect.increment before.effect).memory :=
    congrArg Effect.memory effect
  have start : ∀ p, dataAt p 0 = p := fun p => BitVec.add_zero p
  have object : ∀ j < sepGrn, a (4 * j) ∈ objects a sepGrn := fun j bound =>
    List.mem_map.mpr ⟨j, List.mem_range.mpr bound, rfl⟩
  constructor
  · intro j bound
    exact object_streams apart (object j bound) effect
  · intro j bound
    rw [start, memory]
    exact (object_ints apart (object j bound) before.effect).1
  · intro j bound
    rw [start, memory]
    exact (object_ints apart (object j bound) before.effect).2
  · intro j bound k positive below
    rw [memory]
    exact object_rest apart (object j bound) before.effect positive below
  · intro byte outside
    rw [memory]
    apply stores_outside
    intro q stored inside
    obtain ⟨j, inRange, rfl⟩ := List.mem_map.mp (mem_stores stored)
    exact outside j (List.mem_range.mp inRange) ((int_inside _).mem foo_fits inside)

end Objects

/-- For an even granularity the mixed and the separated phase leave the same
heap, by the same non-temporal stores. -/
theorem phases_agree (a : Nat → Word) (nRw : Nat) (heap : Heap) {sepGrn : Nat}
    (even : sepGrn % 2 = 0)
    (apart : ∀ i < sepGrn, ∀ j < sepGrn, i ≠ j →
      (Range.mk (a (4 * i)) sizeofFoo).Disjoint ⟨a (4 * j), sizeofFoo⟩) :
    (wrMix a nRw sepGrn heap).memory = (wrSep a nRw sepGrn heap).memory ∧
    (∀ p, streamsTo (wrMix a nRw sepGrn heap) p = streamsTo (wrSep a nRw sepGrn heap) p) ∧
    Worked a sepGrn (nRw / sepGrn) heap (wrMix a nRw sepGrn heap) ∧
    Worked a sepGrn (nRw / sepGrn) heap (wrSep a nRw sepGrn heap) := by
  have same : (wrMix a nRw sepGrn heap).effect = (wrSep a nRw sepGrn heap).effect :=
    (effect_wrMix heap).trans (effect_wrSep even heap).symm
  refine ⟨congrArg Effect.memory same, fun p => ?_, worked_of_effect apart (effect_wrMix heap),
    worked_of_effect apart (effect_wrSep even heap)⟩
  rw [streamsTo, streamsTo, same]

/-- Every fourth of objects 16 bytes apart. -/
def spaced (i : Nat) : Word := 4096 + BitVec.ofNat 64 (16 * i)

theorem phases_agree_pair :
    (wrMix spaced 7 2 ⟨fun _ => 255, []⟩).memory = (wrSep spaced 7 2 ⟨fun _ => 255, []⟩).memory ∧
    (∀ p, streamsTo (wrMix spaced 7 2 ⟨fun _ => 255, []⟩) p = streamsTo (wrSep spaced 7 2 ⟨fun _ => 255, []⟩) p) ∧
    Worked spaced 2 3 ⟨fun _ => 255, []⟩ (wrMix spaced 7 2 ⟨fun _ => 255, []⟩) ∧
    Worked spaced 2 3 ⟨fun _ => 255, []⟩ (wrSep spaced 7 2 ⟨fun _ => 255, []⟩) := by
  have separate : ∀ i < 2, ∀ j < 2, i ≠ j →
      (Range.mk (spaced (4 * i)) sizeofFoo).Separate ⟨spaced (4 * j), sizeofFoo⟩ := by decide
  exact phases_agree spaced 7 ⟨fun _ => 255, []⟩ (by decide) fun i bound j bound' different =>
    (separate i bound j bound' different).disjoint

end RwSep.Benchmark
