import RwSep.Benchmark.Sweep

namespace RwSep.Benchmark

open RwSep.Data RwSep.Execution RwSep.X86

/-! What fastallocate/rw_sep.cpp reports: an aggregate speedup, and a number of positive runs.

The quotients that it prints are `float`s; they are exact fractions here.
-/

/-- The counters after all runs of a measurement. -/
def measureRuns (pairs : List (Word × Word)) : Counters := pairs.foldl Counters.add ⟨0, 0, 0⟩

/-- `(diff1 - diff2) / diff1` of one run. -/
def runSpeedup (diffs : Word × Word) : Rat := ((diffs.1.toNat : Rat) - diffs.2.toNat) / diffs.1.toNat

/-- `((float)sum_diff1 - (float)sum_diff2)/(float)sum_diff1` -/
def Counters.speedup (counters : Counters) : Rat := runSpeedup (counters.sumDiff1, counters.sumDiff2)

/-- The number of positive runs has the sign convention of the speedup. -/
structure Agrees (pairs : List (Word × Word)) (counters : Counters) : Prop where
  counted : counters.n = pairs.countP fun diffs => decide (0 < runSpeedup diffs)
  none : counters.n = 0 → counters.speedup ≤ 0
  all : counters.n = pairs.length → 0 < counters.speedup

def faster (pairs : List (Word × Word)) : Nat := pairs.countP fun diffs => decide (diffs.2 < diffs.1)

def slower (pairs : List (Word × Word)) : Nat := pairs.countP fun diffs => decide (diffs.1 < diffs.2)

section Measure

variable {pairs : List (Word × Word)} {diffs : Word × Word} {world : SweepWorld} {a : List Word} {sepGrn : Nat}
variable {testLoop : Int}

theorem measure_append (pairs : List (Word × Word)) (diffs : Word × Word) :
    measureRuns (pairs ++ [diffs]) = (measureRuns pairs).add diffs := by
  rw [measureRuns, List.foldl_append]
  rfl

theorem measure_n (pairs : List (Word × Word)) : (measureRuns pairs).n = slower pairs := by
  induction pairs using List.reverseRecOn with
  | nil => rfl
  | append_singleton earlier diffs ih =>
      rw [measure_append, slower, List.countP_append, List.countP_singleton]
      change (if diffs.1 < diffs.2 then (measureRuns earlier).n + 1 else (measureRuns earlier).n) = _
      rw [ih, slower]
      by_cases less : diffs.1 < diffs.2
      · simp [less]
      · simp [less]

/-- Runs whose two times are equal add the same to both sums. -/
theorem measure_sums (equal : ∀ diffs ∈ pairs, diffs.1 = diffs.2) :
    (measureRuns pairs).sumDiff1 = (measureRuns pairs).sumDiff2 := by
  induction pairs using List.reverseRecOn with
  | nil => rfl
  | append_singleton earlier diffs ih =>
      have before := ih fun other member => equal other (List.mem_append_left _ member)
      have here := equal diffs (List.mem_append_right _ List.mem_cons_self)
      rw [measure_append]
      change (measureRuns earlier).sumDiff1 + diffs.1 = (measureRuns earlier).sumDiff2 + diffs.2
      rw [before, here]

theorem runSpeedup_pos (measured : 0 < diffs.1) : 0 < runSpeedup diffs ↔ diffs.2 < diffs.1 := by
  have positive : (0 : Rat) < diffs.1.toNat := Nat.cast_pos.mpr measured
  rw [runSpeedup, div_pos_iff_of_pos_right positive, sub_pos, Nat.cast_lt]
  exact BitVec.lt_def.symm

theorem positive_count (measured : ∀ diffs ∈ pairs, 0 < diffs.1) :
    (pairs.countP fun diffs => decide (0 < runSpeedup diffs)) = faster pairs := by
  apply List.countP_congr
  intro diffs member
  simpa using runSpeedup_pos (measured diffs member)

/-- The times of the runs with one value of `sep_grn`. -/
def measuredPairs (world : SweepWorld) (testLoop : Int) (sepGrn : Nat) : List (Word × Word) :=
  (List.range testLoop.toNat).map fun t => (world.clock sepGrn t).diffs

theorem testLoop_counters {heap : Heap} {after : Counters × Heap}
    (ran : forInt .intOverflow (testTurn world a sepGrn) testLoop.toNat 0 (⟨0, 0, 0⟩, heap) = .ok after) :
    after.1 = measureRuns (measuredPairs world testLoop sepGrn) := by
  have looped := forInt_ok_iff.mp ran
  rw [Nat.zero_add] at looped
  apply looped.preserves fun t state => state.1 = measureRuns ((List.range t).map fun t => (world.clock sepGrn t).diffs)
  · intro t before after _ counted turned
    obtain ⟨_, _, turned⟩ := bind_ok.mp turned
    obtain ⟨_, _, turned⟩ := bind_ok.mp turned
    cases turned
    rw [List.range_succ, List.map_append, List.map_singleton, measure_append, ← counted]
  · exact Nat.zero_le _
  · rfl

theorem sweep_lines {grns : List Nat} {state after : List Line × Heap}
    (ran : grns.foldlM (sweepTurn world a testLoop) state = .ok after) :
    after.1 = state.1 ++ grns.map fun sepGrn => ⟨sepGrn, measureRuns (measuredPairs world testLoop sepGrn), testLoop⟩ := by
  induction grns generalizing state with
  | nil =>
      cases ran
      exact (List.append_nil _).symm
  | cons sepGrn rest ih =>
      obtain ⟨middle, turned, others⟩ := bind_ok.mp ran
      obtain ⟨measured, looped, written⟩ := bind_ok.mp turned
      cases written
      rw [ih others, testLoop_counters looped, List.map_cons, List.append_assoc]
      rfl

/-- Each line that the program writes counts the runs of its own measurement. -/
theorem main_lines {arguments : Arguments} {heap : Heap} {report : List Line × Heap}
    (ran : main arguments world heap = .ok report) :
    report.1 = sepGrns.map fun sepGrn =>
      ⟨sepGrn, measureRuns (measuredPairs world arguments.testLoop sepGrn), arguments.testLoop⟩ := by
  obtain ⟨_, _, sweep⟩ := main_ok.mp ran
  rw [sweep_lines sweep, List.nil_append]

end Measure

/-- For every measurement the number of positive runs agrees with the speedup exactly when as many runs were slower
when separated as were faster. -/
theorem measure_agrees_iff {pairs : List (Word × Word)} (runs : 1 ≤ pairs.length)
    (measured : ∀ diffs ∈ pairs, 0 < diffs.1) : Agrees pairs (measureRuns pairs) ↔ slower pairs = faster pairs := by
  constructor
  · intro agrees
    rw [← measure_n, agrees.counted, positive_count measured]
  · intro same
    refine ⟨?_, ?_, ?_⟩
    · rw [measure_n, positive_count measured, same]
    · intro noneSlower
      rw [measure_n] at noneSlower
      rw [noneSlower] at same
      have equal : ∀ diffs ∈ pairs, diffs.1 = diffs.2 := by
        intro diffs member
        have notSlower := List.countP_eq_zero.mp noneSlower diffs member
        have notFaster := List.countP_eq_zero.mp same.symm diffs member
        rw [decide_eq_true_eq, BitVec.lt_def] at notSlower notFaster
        exact BitVec.eq_of_toNat_eq (by omega)
      rw [Counters.speedup, runSpeedup, measure_sums equal]
      simp
    · intro allSlower
      rw [measure_n] at allSlower
      obtain ⟨diffs, member⟩ := List.exists_mem_of_length_pos runs
      have isSlower := List.countP_eq_length.mp allSlower diffs member
      have isFaster := List.countP_eq_length.mp (same.symm.trans allSlower) diffs member
      rw [decide_eq_true_eq, BitVec.lt_def] at isSlower isFaster
      omega

theorem measure_agrees_iff_three : Agrees [(5, 3), (4, 4), (3, 5)] (measureRuns [(5, 3), (4, 4), (3, 5)]) ↔
    slower [(5, 3), (4, 4), (3, 5)] = faster [(5, 3), (4, 4), (3, 5)] :=
  measure_agrees_iff (by simp) (by simp)

/-- One run that takes 100 us mixed and 50 us separated is half as long, and is not counted. -/
theorem positive_run_uncounted : (measureRuns [(100, 50)]).n = 0 ∧ (measureRuns [(100, 50)]).speedup = 1 / 2 ∧
    ¬ Agrees [(100, 50)] (measureRuns [(100, 50)]) := by
  have half : (measureRuns [(100, 50)]).speedup = 1 / 2 := by
    rw [Counters.speedup, runSpeedup]
    change ((100 : Nat) - (50 : Nat) : Rat) / (100 : Nat) = 1 / 2
    norm_num
  refine ⟨rfl, half, fun agrees => ?_⟩
  have notPositive := agrees.none rfl
  rw [half] at notPositive
  norm_num at notPositive

end RwSep.Benchmark
