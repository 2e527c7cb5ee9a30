import RwSep.Benchmark.LatWorker

namespace RwSep.Benchmark

open RwSep.Data RwSep.Execution RwSep.X86

/-! The units that the two traversals of lat.cpp visit, against the number by which the worker divides. -/

/-- The divisor of `avg_cycles_` counts the visits of a traversal: each iteration visits every unit once. -/
structure EveryUnitOnce (config : LatConfig) (workPtr : Word) (unitNum : Nat) (traversal : Traversal) : Prop where
  iterations : traversal.laps.length = config.iter.toNat
  once : ∀ lap ∈ traversal.laps, lap.Perm ((List.range unitNum).map (unitAt workPtr))
  divisor : traversal.laps.flatten.length = config.iter.toNat * unitNum

/-- The prepared list, traversed, visits every unit once per iteration. -/
def MeasuresEveryUnit (config : LatConfig) (world : LatWorld) (workPtr : Word) (unitNum : Nat) (order : List Nat)
    (heap : Heap) : Prop :=
  ∃ linked traversal, linkUnits workPtr unitNum order heap = .ok linked ∧
    traverse config world workPtr unitNum order linked = .ok traversal ∧
    EveryUnitOnce config workPtr unitNum traversal

section Modes

variable {config : LatConfig} {world : LatWorld} {workPtr : Word} {unitNum random : Nat} {order : List Nat}
variable {heap linked : Heap} {traversal : Traversal}

theorem sum_const {lists : List (List Word)} {count : Nat} (each : ∀ list ∈ lists, list.length = count) :
    lists.flatten.length = lists.length * count := by
  have constant : lists.map List.length = List.replicate lists.length count :=
    List.eq_replicate_iff.mpr ⟨List.length_map _, fun length member => by
      obtain ⟨list, inLists, rfl⟩ := List.mem_map.mp member
      exact each list inLists⟩
  rw [List.length_flatten, constant, List.sum_replicate_nat]

theorem everyUnitOnce_of_perm (iterations : traversal.laps.length = config.iter.toNat)
    (once : ∀ lap ∈ traversal.laps, lap.Perm ((List.range unitNum).map (unitAt workPtr))) :
    EveryUnitOnce config workPtr unitNum traversal where
  iterations := iterations
  once := once
  divisor := by
    rw [← iterations]
    apply sum_const
    intro lap member
    rw [(once lap member).length_eq, List.length_map, List.length_range]

theorem linkUnits_short (ran : linkUnits workPtr unitNum order heap = .ok linked) : unitNum < 2 ^ 31 := by
  obtain ⟨_, looped, _⟩ := bind_ok.mp ran
  have short := forInt_short looped (by omega)
  omega

theorem calcOffset_measures (mode : config.travTp = .calcOffset) (positive : 1 ≤ unitNum)
    (permuted : order.Perm (List.range unitNum)) :
    MeasuresEveryUnit config world workPtr unitNum order heap ↔ unitNum < 2 ^ 31 ∧ config.iter.toNat < 2 ^ 31 := by
  constructor
  · intro measures
    obtain ⟨linked, traversal, linking, traversing, _⟩ := measures
    exact ⟨linkUnits_short linking, traverse_short traversing⟩
  · intro condition
    obtain ⟨below, counts⟩ := condition
    obtain ⟨linked, linking, _⟩ := linkUnits_ring workPtr heap positive below permuted
    obtain ⟨traversal, ran, traversed, laps⟩ := calcLat_laps config world workPtr linked below permuted counts
    refine ⟨linked, traversal, linking, ?_, everyUnitOnce_of_perm traversed.count ?_⟩
    · rw [traverse, mode]
      exact ran
    · intro lap member
      rw [laps] at member
      rw [List.eq_of_mem_replicate member]
      exact permuted.map _

/-- The units that a chase visits from a start are one fewer than all. -/
theorem round_length (workPtr : Word) (positive : 1 ≤ unitNum) (permuted : order.Perm (List.range unitNum)) (random : Nat) :
    ((roundFrom order (random % unitNum)).map (unitAt workPtr)).length + 1 = unitNum := by
  have start : random % unitNum ∈ order := (mem_order permuted).mpr (Nat.mod_lt _ positive)
  have round := (roundFrom_perm start).length_eq
  rw [List.length_cons, order_length permuted] at round
  rw [List.length_map, round]

theorem chasingPtr_calls (workPtr : Word) (heap : Heap) (mode : config.travTp = .chasingPtr) (positive : 1 ≤ unitNum) (below : unitNum < 2 ^ 31)
    (counts : config.iter.toNat < 2 ^ 31) (permuted : order.Perm (List.range unitNum))
    (enough : unitNum ≤ world.tests) :
    ∃ linked traversal, linkUnits workPtr unitNum order heap = .ok linked ∧
      traverse config world workPtr unitNum order linked = .ok traversal ∧
      traversal.laps.length = config.iter.toNat ∧
      traversal.laps.flatten.length = config.iter.toNat * (unitNum - 1) := by
  obtain ⟨linked, linking, ring⟩ := linkUnits_ring workPtr heap positive below permuted
  obtain ⟨traversal, ran, traversed, rounds⟩ :=
    chasePtrLatTimed_laps config world linked positive below permuted enough ring counts
  refine ⟨linked, traversal, linking, ?_, traversed.count, ?_⟩
  · rw [traverse, mode]
    exact ran
  · rw [← traversed.count]
    apply sum_const
    intro lap member
    obtain ⟨random, rfl⟩ := rounds lap member
    have length := round_length workPtr positive permuted random
    omega

theorem chasingPtr_measures (mode : config.travTp = .chasingPtr) (positive : 1 ≤ unitNum)
    (permuted : order.Perm (List.range unitNum)) (enough : unitNum ≤ world.tests) :
    MeasuresEveryUnit config world workPtr unitNum order heap ↔ unitNum < 2 ^ 31 ∧ config.iter = 0 := by
  constructor
  · intro measures
    obtain ⟨linked, traversal, linking, traversing, measured⟩ := measures
    have below := linkUnits_short linking
    have counts := traverse_short traversing
    obtain ⟨_, _, linking', traversing', _, calls⟩ :=
      chasingPtr_calls workPtr heap mode positive below counts permuted enough
    cases linking'.symm.trans linking
    cases traversing'.symm.trans traversing
    have divisor := measured.divisor
    rw [calls] at divisor
    have none : config.iter.toNat = 0 := by
      by_contra some
      have equal := Nat.eq_of_mul_eq_mul_left (Nat.pos_of_ne_zero some) divisor
      omega
    exact ⟨below, BitVec.eq_of_toNat_eq none⟩
  · intro condition
    obtain ⟨below, none⟩ := condition
    have counts : config.iter.toNat = 0 := by rw [none]; rfl
    obtain ⟨linked, traversal, linking, traversing, iterations, _⟩ :=
      chasingPtr_calls workPtr heap mode positive below (by omega) permuted enough
    refine ⟨linked, traversal, linking, traversing, everyUnitOnce_of_perm iterations ?_⟩
    rw [List.eq_nil_of_length_eq_zero (iterations.trans counts)]
    exact fun _ member => absurd member List.not_mem_nil

end Modes

/-- Both traversals of an order make the number of calls that the worker divides by exactly when there are no
iterations: a chase leaves out the unit it starts from. -/
theorem both_measure_iff (config : LatConfig) (world : LatWorld) (workPtr : Word) (heap : Heap) {unitNum : Nat}
    {order : List Nat} (positive : 1 ≤ unitNum) (permuted : order.Perm (List.range unitNum))
    (enough : unitNum ≤ world.tests) :
    (∀ travTp, MeasuresEveryUnit { config with travTp := travTp } world workPtr unitNum order heap) ↔
      unitNum < 2 ^ 31 ∧ config.iter = 0 := by
  let chase : LatConfig := { config with travTp := .chasingPtr }
  let calculate : LatConfig := { config with travTp := .calcOffset }
  have chasing : MeasuresEveryUnit chase world workPtr unitNum order heap ↔ unitNum < 2 ^ 31 ∧ config.iter = 0 :=
    chasingPtr_measures rfl positive permuted enough
  have calculating : MeasuresEveryUnit calculate world workPtr unitNum order heap ↔
      unitNum < 2 ^ 31 ∧ config.iter.toNat < 2 ^ 31 :=
    calcOffset_measures rfl positive permuted
  constructor
  · intro measures
    exact chasing.mp (measures .chasingPtr)
  · intro condition travTp
    cases travTp with
    | chasingPtr => exact chasing.mpr condition
    | calcOffset =>
        obtain ⟨below, none⟩ := condition
        apply calculating.mpr
        rw [none]
        exact ⟨below, by decide⟩

/-- Three units at 4096 and no iterations. -/
theorem both_measure_iff_three : (∀ travTp, MeasuresEveryUnit ⟨4096, .wrNt, true, 0, travTp⟩
      ⟨id, fun _ => .refl _, fun _ => 2, fun _ => 0, 3⟩ 4096 3 [1, 2, 0] ⟨fun _ => 7, []⟩) ↔
    3 < 2 ^ 31 ∧ (0 : Word) = 0 :=
  both_measure_iff ⟨4096, .wrNt, true, 0, .chasingPtr⟩ ⟨id, fun _ => .refl _, fun _ => 2, fun _ => 0, 3⟩ 4096
    ⟨fun _ => 7, []⟩ (by decide) (by decide) (by decide)

/-- Of two units at 4096 a chase from the first calls the method on the second only. -/
theorem chase_misses_start : ∃ linked chased calculated,
    linkUnits 4096 2 [0, 1] ⟨fun _ => 7, []⟩ = .ok linked ∧
    traverse ⟨4096, .wrNt, true, 1, .chasingPtr⟩ ⟨id, fun _ => .refl _, fun _ => 0, fun _ => 0, 2⟩ 4096 2 [0, 1]
      linked = .ok chased ∧
    traverse ⟨4096, .wrNt, true, 1, .calcOffset⟩ ⟨id, fun _ => .refl _, fun _ => 0, fun _ => 0, 2⟩ 4096 2 [0, 1]
      linked = .ok calculated ∧
    chased.laps = [[4352]] ∧ calculated.laps = [[4096, 4352]] ∧
    ¬ EveryUnitOnce ⟨4096, .wrNt, true, 1, .chasingPtr⟩ 4096 2 chased := by
  refine ⟨_, _, _, rfl, rfl, rfl, rfl, rfl, fun measured => ?_⟩
  have divisor := measured.divisor
  change 1 = 1 * 2 at divisor
  contradiction

end RwSep.Benchmark
