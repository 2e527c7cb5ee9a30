import RwSep.Benchmark.LatWorker

namespace RwSep.Benchmark

open RwSep.Data RwSep.Execution RwSep.X86

/-! `run` of lat.cpp: a window of the working set for each thread. -/

/-- `ROUND_DOWN(x, y)` -/
def ROUND_DOWN (x y : Word) : Word := x &&& ~~~(y - 1)

/-- `ROUND_DOWN(wss / threads, 256ULL)` -/
def threadWss (wss : Word) (threads : Nat) : Word := ROUND_DOWN (wss / BitVec.ofNat 64 threads) 256

/-- `addr + tid * thread_wss` -/
def threadAddr (addr wss : Word) (threads tid : Nat) : Word := addr + BitVec.ofNat 64 tid * threadWss wss threads

def window (addr wss : Word) (threads tid : Nat) : Range :=
  ⟨threadAddr addr wss threads tid, (threadWss wss threads).toNat⟩

/-- The worker that `run` starts for a thread, on the memory that this thread finds. -/
def runWorker (config : LatConfig) (addr wss : Word) (threads tid : Nat) (world : LatWorld) (heap : Heap) :
    Except LatFault WorkerResult :=
  if config.maxSize ≤ wss then .error .tooLarge
  else worker config world (threadAddr addr wss threads tid) (threadWss wss threads) heap

/-- The address that a traversal gives to `wr_method` for a unit. -/
def TraverseType.target : TraverseType → Word → Word
  | .chasingPtr, p => padAt p 15
  | .calcOffset, p => p

/-! # Rounding -/

section Rounding

variable {addr wss : Word} {threads tid other unit : Nat}

theorem roundDown_toNat (x : Word) : (ROUND_DOWN x 256).toNat = x.toNat / 256 * 256 := by
  have shifted : ROUND_DOWN x 256 = (x >>> 8) <<< 8 := by
    have mask : (256 : Word) - 1 = BitVec.ofNat 64 (2 ^ 8 - 1) := rfl
    apply BitVec.eq_of_getLsbD_eq
    intro i bound
    rw [ROUND_DOWN, mask, BitVec.getLsbD_and, BitVec.getLsbD_not, BitVec.getLsbD_ofNat, Nat.testBit_two_pow_sub_one,
      BitVec.getLsbD_shiftLeft, BitVec.getLsbD_ushiftRight]
    by_cases low : i < 8
    · simp [low, bound]
    · have back : 8 + (i - 8) = i := by omega
      simp [low, bound, back]
  have bound := x.isLt
  rw [shifted, BitVec.toNat_shiftLeft, BitVec.toNat_ushiftRight, Nat.shiftLeft_eq, Nat.shiftRight_eq_div_pow]
  omega

theorem threadWss_toNat (wss : Word) (counted : threads < 2 ^ 31) :
    (threadWss wss threads).toNat = 256 * (wss.toNat / threads / 256) := by
  have value : (BitVec.ofNat 64 threads).toNat = threads := by
    rw [BitVec.toNat_ofNat, Nat.mod_eq_of_lt (by omega)]
  rw [threadWss, roundDown_toNat, BitVec.toNat_udiv, value, Nat.mul_comm]

/-- All windows together are no larger than the working set. -/
theorem windows_fit (wss : Word) (counted : threads < 2 ^ 31) (inRange : tid < threads) :
    tid * (threadWss wss threads).toNat + (threadWss wss threads).toNat ≤ wss.toNat := by
  have rounded : (threadWss wss threads).toNat ≤ wss.toNat / threads := by
    rw [threadWss_toNat wss counted]
    exact Nat.mul_div_le _ _
  have all : threads * (wss.toNat / threads) ≤ wss.toNat := Nat.mul_div_le _ _
  have these : (tid + 1) * (threadWss wss threads).toNat ≤ threads * (wss.toNat / threads) :=
    Nat.mul_le_mul inRange rounded
  rw [Nat.succ_mul] at these
  omega

theorem threadAddr_offset (addr wss : Word) (threads tid : Nat) :
    threadAddr addr wss threads tid = addr + BitVec.ofNat 64 (tid * (threadWss wss threads).toNat) := by
  rw [threadAddr, BitVec.ofNat_mul, BitVec.ofNat_toNat, BitVec.setWidth_eq]

theorem window_located (addr wss : Word) (counted : threads < 2 ^ 31) (inRange : tid < threads) :
    (window addr wss threads tid).Inside ⟨addr, wss.toNat⟩ ∧
      (window addr wss threads tid).offsetIn ⟨addr, wss.toNat⟩ = tid * (threadWss wss threads).toNat := by
  have fit := windows_fit wss counted inRange
  have short := wss.isLt
  rw [window, threadAddr_offset]
  exact ⟨Range.inside_of_offset ⟨addr, wss.toNat⟩ fit short, Word.offset_distance addr (by omega)⟩

theorem windows_apart (addr wss : Word) (counted : threads < 2 ^ 31) (inRange : tid < threads)
    (inRange' : other < threads) (before : tid < other) :
    (window addr wss threads tid).Disjoint (window addr wss threads other) := by
  obtain ⟨inside, located⟩ := window_located addr wss counted inRange
  obtain ⟨inside', located'⟩ := window_located addr wss counted inRange'
  apply Range.disjoint_of_offsets inside inside' (Nat.le_of_lt wss.isLt)
  have ordered := Nat.mul_le_mul_right (threadWss wss threads).toNat (Nat.succ_le_of_lt before)
  rw [Nat.succ_mul] at ordered
  rw [located, located']
  exact ordered

theorem window_units (addr wss : Word) (counted : threads < 2 ^ 31) (tid : Nat) :
    window addr wss threads tid =
      allUnits (threadAddr addr wss threads tid) ((threadWss wss threads).toNat / sizeofUnit) := by
  have whole : (threadWss wss threads).toNat = 256 * ((threadWss wss threads).toNat / 256) := by
    rw [threadWss_toNat wss counted]
    omega
  rw [window, allUnits]
  congr 1

theorem aligned_offset {offset : Nat} (aligned : 64 ∣ addr.toNat) (multiple : 64 ∣ offset) :
    64 ∣ (addr + BitVec.ofNat 64 offset).toNat := by
  rw [BitVec.toNat_add, BitVec.toNat_ofNat]
  omega

theorem target_aligned (travTp : TraverseType) (aligned : 64 ∣ addr.toNat) (counted : threads < 2 ^ 31) (tid unit : Nat) :
    64 ∣ (travTp.target (unitAt (threadAddr addr wss threads tid) unit)).toNat := by
  have start : 64 ∣ (threadAddr addr wss threads tid).toNat := by
    rw [threadAddr_offset]
    apply aligned_offset aligned
    rw [threadWss_toNat wss counted]
    exact Nat.dvd_mul_left_of_dvd (Nat.dvd_mul_right_of_dvd (by decide) _) tid
  have here : 64 ∣ (unitAt (threadAddr addr wss threads tid) unit).toNat :=
    aligned_offset start (Nat.dvd_mul_right_of_dvd (by decide) unit)
  cases travTp with
  | chasingPtr => exact aligned_offset here (by decide)
  | calcOffset => exact here

end Rounding

/-! # The workers in their windows -/

/-- The windows share nothing, and the units of each are inside it. -/
structure Partitioned (addr wss : Word) (threads : Nat) : Prop where
  inside : ∀ tid < threads, (window addr wss threads tid).Inside ⟨addr, wss.toNat⟩
  apart : ∀ tid < threads, ∀ other < threads, tid ≠ other →
    (window addr wss threads tid).Disjoint (window addr wss threads other)
  units : ∀ tid < threads, ∀ unit < (threadWss wss threads).toNat / sizeofUnit,
    (Range.mk (unitAt (threadAddr addr wss threads tid) unit) sizeofUnit).Inside (window addr wss threads tid)
  aligned : 64 ∣ addr.toNat → ∀ travTp : TraverseType, ∀ tid < threads,
    ∀ unit < (threadWss wss threads).toNat / sizeofUnit,
      64 ∣ (travTp.target (unitAt (threadAddr addr wss threads tid) unit)).toNat

section Workers

variable {config : LatConfig} {world : LatWorld} {addr wss : Word} {threads tid : Nat} {heap : Heap}

theorem partitioned (addr wss : Word) (counted : threads < 2 ^ 31) : Partitioned addr wss threads where
  inside tid inRange := (window_located addr wss counted inRange).1
  apart tid inRange other inRange' different := by
    rcases Nat.lt_or_gt_of_ne different with before | after
    · exact windows_apart addr wss counted inRange inRange' before
    · exact (windows_apart addr wss counted inRange' inRange after).symm
  units tid _ unit bound := by
    have same := window_units addr wss counted tid
    rw [same]
    apply unit_inside _ bound (Nat.le_refl _)
    rw [← same]
    exact (threadWss wss threads).isLt
  aligned divides travTp tid _ unit _ := target_aligned travTp divides counted tid unit

/-- A worker stays in its window, and from an aligned start every address it uses is aligned. -/
structure Confined (addr wss : Word) (threads tid : Nat) (heap : Heap) (worked : WorkerResult) : Prop where
  visits : ∀ lap ∈ worked.traversal.laps, ∀ p ∈ lap, ∃ unit < (threadWss wss threads).toNat / sizeofUnit,
    p = unitAt (threadAddr addr wss threads tid) unit
  writes : Heap.WritesWithin (window addr wss threads tid) heap worked.traversal.heap
  aligned : 64 ∣ addr.toNat → Heap.Touches (fun address => 64 ∣ address.toNat) heap worked.traversal.heap

theorem runWorker_confined {worked : WorkerResult} (counted : threads < 2 ^ 31)
    (enough : (threadWss wss threads).toNat / sizeofUnit ≤ world.tests)
    (ran : runWorker config addr wss threads tid world heap = .ok worked) :
    Confined addr wss threads tid heap worked := by
  rw [runWorker] at ran
  split at ran
  · contradiction
  · obtain ⟨accepted, positive, below, iterates, counts⟩ := worker_needs ran
    obtain ⟨_, returned, visits, stays⟩ := worker_returns (threadAddr addr wss threads tid) heap
      accepted iterates counts positive below enough
    cases returned.symm.trans ran
    refine ⟨visits, ?_, fun aligned => stays.touches.widen fun address touched => ?_⟩
    · rw [window_units addr wss counted]
      exact stays.writes
    · obtain ⟨unit, _, atStart | atPad⟩ := touched
      · rw [atStart]
        exact target_aligned .calcOffset aligned counted tid unit
      · rw [atPad]
        exact target_aligned .chasingPtr aligned counted tid unit

theorem unitNum_eq (wss : Word) (counted : threads < 2 ^ 31) :
    (threadWss wss threads).toNat / sizeofUnit = wss.toNat / threads / 256 := by
  rw [threadWss_toNat wss counted]
  exact Nat.mul_div_cancel_left _ (by decide)

theorem threadWss_le (wss : Word) (counted : threads < 2 ^ 31) : (threadWss wss threads).toNat ≤ wss.toNat := by
  rw [threadWss_toNat wss counted]
  exact Nat.le_trans (Nat.mul_div_le _ _) (Nat.div_le_self _ _)

/-- An accepted worker returns exactly when its share holds a unit, and no index has to pass the largest `int`. -/
theorem runWorker_returns_iff (counted : threads < 2 ^ 31) (accepted : wss < config.maxSize)
    (iterates : 1 ≤ config.iter.toNat) (enough : (threadWss wss threads).toNat / sizeofUnit ≤ world.tests) :
    (∃ worked, runWorker config addr wss threads tid world heap = .ok worked) ↔
      256 ≤ wss.toNat / threads ∧ wss.toNat / threads < 2 ^ 39 ∧ config.iter.toNat < 2 ^ 31 := by
  have units := unitNum_eq wss counted
  have smaller := threadWss_le wss counted
  rw [BitVec.lt_def] at accepted
  rw [runWorker, if_neg (by simpa [BitVec.le_def] using accepted)]
  constructor
  · intro returns
    obtain ⟨worked, ran⟩ := returns
    obtain ⟨_, positive, below, _, counts⟩ := worker_needs ran
    rw [units] at positive below
    exact ⟨by omega, by omega, counts⟩
  · intro condition
    obtain ⟨positive, below, counts⟩ := condition
    have accepted' : threadWss wss threads < config.maxSize := Nat.lt_of_le_of_lt smaller accepted
    obtain ⟨worked, ran, _⟩ := worker_returns (threadAddr addr wss threads tid) heap accepted' iterates counts
      (by omega) (by omega) enough
    exact ⟨worked, ran⟩

end Workers

/-- For every base address, size and number of threads the workers' windows and units do not meet, and a worker
that returns has kept to its own. -/
theorem run_partitioned (config : LatConfig) (addr wss : Word) {threads : Nat} (counted : threads < 2 ^ 31) :
    Partitioned addr wss threads ∧ ∀ tid < threads, ∀ world heap worked,
      (threadWss wss threads).toNat / sizeofUnit ≤ world.tests →
        runWorker config addr wss threads tid world heap = .ok worked →
          Confined addr wss threads tid heap worked :=
  ⟨partitioned addr wss counted, fun _ _ _ _ _ enough ran => runWorker_confined counted enough ran⟩

/-- Three threads in a thousand bytes at 4096. -/
theorem run_partitioned_three : Partitioned 4096 1000 3 ∧ ∀ tid < 3, ∀ world heap worked,
    (threadWss 1000 3).toNat / sizeofUnit ≤ world.tests →
      runWorker ⟨4096, .wrNt, true, 2, .chasingPtr⟩ 4096 1000 3 tid world heap = .ok worked →
        Confined 4096 1000 3 tid heap worked :=
  run_partitioned ⟨4096, .wrNt, true, 2, .chasingPtr⟩ 4096 1000 (by decide)

/-- Of the accepted configurations, those run without a fault that give every thread from 256 to 2^39 − 1 bytes and
take fewer than 2^31 iterations. -/
theorem run_faultless_iff (config : LatConfig) (addr wss : Word) {threads : Nat} (worlds : Nat → LatWorld)
    (heaps : Nat → Heap) (accepted : wss < config.maxSize) (positive : 1 ≤ threads) (counted : threads < 2 ^ 31)
    (iterates : 1 ≤ config.iter.toNat)
    (enough : ∀ tid < threads, (threadWss wss threads).toNat / sizeofUnit ≤ (worlds tid).tests) :
    (∀ tid < threads, ∃ worked, runWorker config addr wss threads tid (worlds tid) (heaps tid) = .ok worked) ↔
      256 ≤ wss.toNat / threads ∧ wss.toNat / threads < 2 ^ 39 ∧ config.iter.toNat < 2 ^ 31 := by
  constructor
  · intro returns
    exact (runWorker_returns_iff counted accepted iterates (enough 0 positive)).mp (returns 0 positive)
  · intro condition tid inRange
    exact (runWorker_returns_iff counted accepted iterates (enough tid inRange)).mpr condition

/-- `std::random_shuffle` may leave the order as it is. -/
def unshuffled (tests : Nat) : LatWorld where
  shuffle := id
  permutes _ := .refl _
  random _ := 0
  rdtsc _ := 0
  tests := tests

theorem run_faultless_iff_two : (∀ tid < 2, ∃ worked,
      runWorker ⟨4096, .wrClwb, true, 3, .calcOffset⟩ 8192 1024 2 tid (unshuffled 2) ⟨fun _ => 0, []⟩ = .ok worked) ↔
    256 ≤ (1024 : Word).toNat / 2 ∧ (1024 : Word).toNat / 2 < 2 ^ 39 ∧ (3 : Word).toNat < 2 ^ 31 :=
  run_faultless_iff ⟨4096, .wrClwb, true, 3, .calcOffset⟩ 8192 1024 (fun _ => unshuffled 2)
    (fun _ => ⟨fun _ => 0, []⟩) (by decide) (by decide) (by decide) (by decide) (by decide)

/-- A working set of 255 bytes is accepted and holds no unit. -/
theorem run_out_of_range : (255 : Word) < 1073741824 ∧
    runWorker ⟨1073741824, .wrClwbSfence, false, 1, .chasingPtr⟩ 4096 255 1 0 (unshuffled 1)
      ⟨fun _ => 0, []⟩ = .error .outOfRange := by
  constructor
  · decide
  · rfl

end RwSep.Benchmark
