import RwSep.MemAccess.ChasingOrders

namespace RwSep.MemAccess

open RwSep.Data RwSep.Execution

/-! When `init_chasing_index` comes to an end.

A position may be rejected any number of times.  There is always one left to
accept, so a source that never fails 32 times in a row and that brings back
every residue lets each turn end.
-/

/-- The `do ... while` of some turn is entered in this state. -/
def Enters (rdrand : Rdrand) (bound : Nat) (cindex : Cindex) (csize : Word) (progress : Progress) : Prop :=
  ∃ cleared, cindex.memset (8 * csize) = .ok cleared ∧ ∃ turns < (csize - 1).toNat,
    linkPositions rdrand bound csize turns ⟨cleared, 0, 0, 0⟩ = .ok (0, progress)

/-- The condition of the `do ... while` is false for this position. -/
def Progress.Accepts (progress : Progress) (position : Word) : Prop :=
  progress.cindex.load position = .ok 0 ∧ position ≠ progress.currPos

namespace Rdrand

/-- No 32 failures in a row. -/
def Reliable (rdrand : Rdrand) : Prop := ∀ used, ∃ retry < RDRAND_MAX_RETRY, (rdrand (used + retry)).ok = true

/-- Every residue comes back among the successful values. -/
def Recurs (rdrand : Rdrand) (csize : Word) : Prop :=
  ∀ residue < csize.toNat, ∀ used, ∃ later, used ≤ later ∧ (rdrand later).ok = true ∧
    ((rdrand later).value % csize).toNat = residue

end Rdrand

variable {rdrand : Rdrand} {cindex after : Cindex} {csize range rd currPos nextPos position : Word}
variable {bound larger retries used later turns : Nat} {draw : Draw} {progress final : Progress} {path : List Nat}
variable {ret : Int}

/-! # One draw -/

/-- `get_rand` takes the first success among its attempts, and divides by the range. -/
theorem getRandLoop_first (range rd : Word) (succeeds : ∃ retry < retries, (rdrand (used + retry)).ok = true) :
    ∃ first, used ≤ first ∧ (∀ later, used ≤ later → (rdrand later).ok = true → first ≤ later) ∧
      getRandLoop rdrand range retries rd used =
        if range = 0 then .error .divideByZero else .ok ⟨0, (rdrand first).value % range, first + 1⟩ := by
  induction retries generalizing rd used with
  | zero =>
      obtain ⟨retry, bound, _⟩ := succeeds
      exact absurd bound (Nat.not_lt_zero retry)
  | succ retries ih =>
      rw [getRandLoop]
      by_cases here : (rdrand used).ok = true
      · refine ⟨used, Nat.le_refl used, fun later after _ => after, ?_⟩
        rw [if_pos here]
      · rw [if_neg here]
        obtain ⟨retry, bound, success⟩ := succeeds
        have later : retry ≠ 0 := by
          rintro rfl
          exact here success
        obtain ⟨retry, rfl⟩ := Nat.exists_eq_succ_of_ne_zero later
        rw [Nat.add_succ, ← Nat.succ_add] at success
        obtain ⟨first, reach, least, drawn⟩ := ih (rdrand used).value ⟨retry, Nat.lt_of_succ_lt_succ bound, success⟩
        refine ⟨first, Nat.le_of_succ_le reach, fun later after success => least later ?_ success, drawn⟩
        refine Nat.lt_of_le_of_ne after ?_
        rintro rfl
        exact here success

/-- A stream that goes on until an acceptable residue ends the loop. -/
theorem drawNext_returns (nextPos : Word) (nonzero : csize ≠ 0) (length : cindex.entries.length = csize.toNat)
    (reliable : rdrand.Reliable) (success : (rdrand later).ok = true)
    (zero : cindex.load ((rdrand later).value % csize) = .ok 0) (different : (rdrand later).value % csize ≠ currPos)
    (reach : used ≤ later) (enough : later < used + bound) :
    ∃ draw, drawNext rdrand cindex csize currPos bound nextPos used = .ok draw ∧ draw.ret = 0 := by
  induction bound generalizing nextPos used with
  | zero => omega
  | succ bound ih =>
      obtain ⟨first, atLeast, least, drawn⟩ := getRandLoop_first csize nextPos (reliable used)
      rw [if_neg nonzero] at drawn
      have within := least later reach success
      have inRange := getRandLoop_range drawn rfl
      have found : cindex.load ((rdrand first).value % csize) =
          .ok cindex.entries[((rdrand first).value % csize).toNat] := by
        rw [Cindex.load, List.getElem?_eq_getElem]
      rw [drawNext, getRand, drawn]
      simp only [bind, Except.bind, ne_eq, not_true_eq_false, if_false, found]
      split
      · rename_i rejected
        have notLater : first ≠ later := by
          rintro rfl
          rw [found, Except.ok.injEq] at zero
          exact rejected.elim (fun nonzero => nonzero zero) different
        exact ih _ (by omega) (by omega)
      · exact ⟨_, rfl, rfl⟩

theorem drawNext_mono (drawn : drawNext rdrand cindex csize currPos bound nextPos used = .ok draw)
    (le : bound ≤ larger) : drawNext rdrand cindex csize currPos larger nextPos used = .ok draw := by
  induction bound generalizing nextPos used larger with
  | zero => contradiction
  | succ bound ih =>
      obtain ⟨larger, rfl⟩ := Nat.exists_eq_succ_of_ne_zero (by omega : larger ≠ 0)
      obtain ⟨attempt, random, drawn⟩ := bind_ok.mp drawn
      rw [drawNext, random]
      refine bind_ok.mpr ⟨attempt, rfl, ?_⟩
      split at drawn
      · rename_i failed
        rw [if_pos failed]
        exact drawn
      · rename_i success
        rw [if_neg success]
        obtain ⟨entry, loaded, drawn⟩ := bind_ok.mp drawn
        refine bind_ok.mpr ⟨entry, loaded, ?_⟩
        split at drawn
        · rename_i rejected
          rw [if_pos rejected]
          exact ih drawn (Nat.le_of_succ_le_succ le)
        · rename_i accepted
          rw [if_neg accepted]
          exact drawn

/-! # All turns -/

theorem linkPositions_error (progress : Progress) {reason : Fault}
    (drawn : drawNext rdrand progress.cindex csize progress.currPos bound progress.nextPos progress.used = .error reason) :
    linkPositions rdrand bound csize (turns + 1) progress = .error reason ∧
      acceptedPositions rdrand bound csize (turns + 1) progress = [] := by
  rw [linkPositions, acceptedPositions]
  simp only [drawn, bind, Except.bind, and_self]

theorem linkPositions_failed (progress : Progress)
    (drawn : drawNext rdrand progress.cindex csize progress.currPos bound progress.nextPos progress.used = .ok draw)
    (failed : draw.ret ≠ 0) :
    linkPositions rdrand bound csize (turns + 1) progress =
        .ok (1, { progress with nextPos := draw.rd, used := draw.used }) ∧
      acceptedPositions rdrand bound csize (turns + 1) progress = [] := by
  rw [linkPositions, acceptedPositions]
  simp only [drawn, bind, Except.bind, if_pos failed, pure, Except.pure, and_self]

theorem linkPositions_mono (returned : linkPositions rdrand bound csize turns progress = .ok (0, final))
    (le : bound ≤ larger) : linkPositions rdrand larger csize turns progress = .ok (0, final) := by
  induction turns generalizing progress with
  | zero => exact returned
  | succ turns ih =>
      obtain ⟨draw, after, drawn, success, stored, returned⟩ := linkPositions_succ returned
      rw [linkPositions_turn (drawNext_mono drawn le) success stored]
      exact ih returned

/-- The path does not hold all positions yet. -/
theorem Linked.acceptable (linked : Linked csize progress path) (left : path.length + 1 < csize.toNat) :
    ∃ position : Word, position.toNat < csize.toNat ∧ progress.Accepts position := by
  obtain ⟨new, inRange, fresh⟩ : ∃ new < csize.toNat, new ∉ progress.currPos.toNat :: path := by
    by_contra none
    have all : List.range csize.toNat ⊆ progress.currPos.toNat :: path := by
      intro new member
      by_contra fresh
      exact none ⟨new, List.mem_range.mp member, fresh⟩
    have size := (List.subperm_of_subset List.nodup_range all).length_le
    rw [List.length_range, List.length_cons] at size
    omega
  rw [linked.chain.mem_iff, not_or, not_not] at fresh
  have value : (BitVec.ofNat 64 new).toNat = new := by
    rw [BitVec.toNat_ofNat]
    exact Nat.mod_eq_of_lt (Nat.lt_trans inRange csize.isLt)
  have inArray : new < progress.cindex.entries.length := by
    rw [linked.length]
    exact inRange
  have found : progress.cindex.entries[new]? = some progress.cindex.entries[new] := List.getElem?_eq_getElem inArray
  have zero : progress.cindex.entries[new] = 0 := by
    have unlinked := fresh.1
    rw [Cindex.next, found] at unlinked
    exact BitVec.eq_of_toNat_eq unlinked
  refine ⟨BitVec.ofNat 64 new, by rwa [value], ?_, ?_⟩
  · rw [Cindex.load, value, found, zero]
  · intro same
    rw [← same, value] at fresh
    exact fresh.2 rfl

theorem linkPositions_returns (reliable : rdrand.Reliable) (recurs : rdrand.Recurs csize)
    (linked : Linked csize progress path) (turns : Nat) (left : path.length + 1 + turns ≤ csize.toNat) :
    ∃ bound final, linkPositions rdrand bound csize turns progress = .ok (0, final) := by
  induction turns generalizing progress path with
  | zero => exact ⟨0, progress, rfl⟩
  | succ turns ih =>
      have nonzero : csize ≠ 0 := by
        rintro rfl
        exact absurd left (by simp)
      obtain ⟨position, inRange, zero, different⟩ := linked.acceptable (by omega)
      obtain ⟨later, reach, success, residue⟩ := recurs position.toNat inRange progress.used
      obtain rfl : (rdrand later).value % csize = position := BitVec.eq_of_toNat_eq residue
      have enough : later < progress.used + (later - progress.used + 1) := by omega
      obtain ⟨draw, drawn, accepted⟩ :=
        drawNext_returns progress.nextPos nonzero linked.length reliable success zero different reach enough
      obtain ⟨after, stored⟩ := linked.stores draw.rd
      have linked' := linked.extend drawn accepted stored
      obtain ⟨bound, final, returned⟩ := ih linked' (by rw [List.length_cons]; omega)
      let largest := max (later - progress.used + 1) bound
      refine ⟨largest, final, ?_⟩
      rw [linkPositions_turn (drawNext_mono drawn (Nat.le_max_left ..)) accepted stored]
      exact linkPositions_mono returned (Nat.le_max_right ..)

/-- The rejection loop never gets stuck, and with a source that brings back every
residue `init_chasing_index` returns 0. -/
theorem chasingIndex_terminates (cindex : Cindex) (csize : Word) (positive : 1 ≤ csize.toNat)
    (length : cindex.entries.length = csize.toNat) :
    (∀ rdrand bound progress, Enters rdrand bound cindex csize progress →
      ∃ position : Word, position.toNat < csize.toNat ∧ progress.Accepts position) ∧
    ∀ rdrand : Rdrand, rdrand.Reliable → rdrand.Recurs csize →
      ∃ bound final, initChasingIndex rdrand bound cindex csize = .ok (0, final) := by
  constructor
  · intro rdrand bound progress entered
    obtain ⟨cleared, set, turns, before, reached⟩ := entered
    obtain ⟨path, size, linked⟩ := linkPositions_linked (linked_start positive length set) reached
    rw [turns_left positive] at before
    rw [List.length_nil] at size
    exact linked.acceptable (by omega)
  · intro rdrand reliable recurs
    obtain ⟨cleared, set⟩ := memset_whole length
    have size := turns_left positive
    have left : ([] : List Nat).length + 1 + (csize - 1).toNat ≤ csize.toNat := by
      rw [List.length_nil]
      omega
    obtain ⟨bound, final, returned⟩ :=
      linkPositions_returns reliable recurs (linked_start positive length set) _ left
    exact ⟨bound, final, bind_ok.mpr ⟨cleared, set, returned⟩⟩

/-- A source that counts. -/
def counting : Rdrand := fun k => ⟨true, BitVec.ofNat 64 k⟩

theorem chasingIndex_terminates_four :
    ∃ bound final, initChasingIndex counting bound ⟨[7, 7, 7, 7], by decide⟩ 4 = .ok (0, final) := by
  have reliable : counting.Reliable := fun _ => ⟨0, by decide, rfl⟩
  have recurs : counting.Recurs 4 := by
    intro residue inRange used
    have four : (4 : Word).toNat = 4 := rfl
    rw [four] at inRange
    refine ⟨4 * used + residue, by omega, rfl, ?_⟩
    rw [counting, BitVec.toNat_umod, BitVec.toNat_ofNat, four]
    omega
  exact (chasingIndex_terminates ⟨[7, 7, 7, 7], by decide⟩ 4 (by decide) rfl).2 counting reliable recurs

/-! # Faults -/

/-- Within any bound on the rejections: no remainder by zero, no access outside
the array, and at most `csize` assignments. -/
def Faultless (rdrand : Rdrand) (cindex : Cindex) (csize : Word) : Prop :=
  ∀ bound, initChasingIndex rdrand bound cindex csize ≠ .error .divideByZero ∧
    initChasingIndex rdrand bound cindex csize ≠ .error .outOfBounds ∧
    (accepted rdrand bound cindex csize).length ≤ csize.toNat

theorem getRandLoop_ok (nonzero : range ≠ 0) : ∃ draw, getRandLoop rdrand range retries rd used = .ok draw := by
  induction retries generalizing rd used with
  | zero => exact ⟨_, rfl⟩
  | succ retries ih =>
      rw [getRandLoop]
      by_cases success : (rdrand used).ok = true
      · rw [if_pos success, if_neg nonzero]
        exact ⟨_, rfl⟩
      · rw [if_neg success]
        exact ih

theorem getRandLoop_failed (range rd : Word) (fails : ∀ retry < retries, (rdrand (used + retry)).ok = false) :
    ∃ draw, getRandLoop rdrand range retries rd used = .ok draw ∧ draw.ret = 1 := by
  induction retries generalizing rd used with
  | zero => exact ⟨_, rfl, rfl⟩
  | succ retries ih =>
      have first := fails 0 (Nat.succ_pos retries)
      rw [Nat.add_zero] at first
      rw [getRandLoop, first]
      refine ih _ fun retry bound => ?_
      rw [Nat.add_assoc, Nat.add_comm 1]
      exact fails (retry + 1) (Nat.succ_lt_succ bound)

theorem getRandLoop_zero (succeeds : ∃ retry < retries, (rdrand (used + retry)).ok = true) :
    getRandLoop rdrand 0 retries rd used = .error .divideByZero := by
  obtain ⟨first, _, _, drawn⟩ := getRandLoop_first 0 rd succeeds
  rwa [if_pos rfl] at drawn

theorem drawNext_fault {reason : Fault} (nonzero : csize ≠ 0) (length : cindex.entries.length = csize.toNat)
    (faulted : drawNext rdrand cindex csize currPos bound nextPos used = .error reason) : reason = .unfinished := by
  induction bound generalizing nextPos used with
  | zero => exact (Except.error.inj faulted).symm
  | succ bound ih =>
      obtain ⟨attempt, random⟩ : ∃ draw, getRand rdrand nextPos csize used = .ok draw := getRandLoop_ok nonzero
      rw [drawNext, random] at faulted
      simp only [bind, Except.bind] at faulted
      split at faulted
      · contradiction
      · rename_i success
        have inRange := getRandLoop_range random (not_not.mp success)
        have found : cindex.load attempt.rd = .ok cindex.entries[attempt.rd.toNat] := by
          rw [Cindex.load, List.getElem?_eq_getElem]
        simp only [found] at faulted
        split at faulted
        · exact ih faulted
        · contradiction

theorem linkPositions_fault {reason : Fault} (nonzero : csize ≠ 0) (linked : Linked csize progress path)
    (faulted : linkPositions rdrand bound csize turns progress = .error reason) : reason = .unfinished := by
  induction turns generalizing progress path with
  | zero => contradiction
  | succ turns ih =>
      cases drawn : drawNext rdrand progress.cindex csize progress.currPos bound progress.nextPos progress.used with
      | error reason' =>
          rw [(linkPositions_error progress drawn).1] at faulted
          cases faulted
          exact drawNext_fault nonzero linked.length drawn
      | ok draw =>
          by_cases success : draw.ret = 0
          · obtain ⟨after, stored⟩ := linked.stores draw.rd
            rw [linkPositions_turn drawn success stored] at faulted
            exact ih (linked.extend drawn success stored) faulted
          · rw [(linkPositions_failed progress drawn success).1] at faulted
            contradiction

theorem acceptedPositions_length (rdrand : Rdrand) (bound : Nat) (csize : Word) (turns : Nat) (progress : Progress) :
    (acceptedPositions rdrand bound csize turns progress).length ≤ turns := by
  induction turns generalizing progress with
  | zero => exact Nat.le_refl 0
  | succ turns ih =>
      rw [acceptedPositions]
      split
      · exact Nat.zero_le _
      · split
        · exact Nat.zero_le _
        · split
          · exact Nat.zero_le _
          · exact Nat.succ_le_succ (ih _)

/-- The bound `csize - 1` wraps for an empty array: the loop starts, and what happens depends on its first draw. -/
theorem drawNext_empty (cindex : Cindex) (csize currPos : Word) (bound : Nat) (nextPos : Word)
    (fails : ∀ retry < RDRAND_MAX_RETRY, (rdrand retry).ok = false) :
    drawNext rdrand cindex csize currPos bound nextPos 0 = .error .unfinished ∨
      ∃ draw, drawNext rdrand cindex csize currPos bound nextPos 0 = .ok draw ∧ draw.ret ≠ 0 := by
  cases bound with
  | zero => exact .inl rfl
  | succ bound =>
      have fails' : ∀ retry < RDRAND_MAX_RETRY, (rdrand (0 + retry)).ok = false := by simpa using fails
      obtain ⟨draw, random, failed⟩ := getRandLoop_failed csize nextPos fails'
      have notZero : draw.ret ≠ 0 := by
        rw [failed]
        exact Int.one_ne_zero
      refine .inr ⟨draw, bind_ok.mpr ⟨draw, random, ?_⟩, notZero⟩
      rw [if_pos notZero]
      rfl

/-- After the `memset` both are about the loop from position 0. -/
theorem chasingIndex_cleared {cleared : Cindex} (set : cindex.memset (8 * csize) = .ok cleared) (rdrand : Rdrand)
    (bound : Nat) :
    initChasingIndex rdrand bound cindex csize =
        linkPositions rdrand bound csize (csize - 1).toNat ⟨cleared, 0, 0, 0⟩ ∧
      accepted rdrand bound cindex csize =
        acceptedPositions rdrand bound csize (csize - 1).toNat ⟨cleared, 0, 0, 0⟩ := by
  apply And.intro
  · rw [initChasingIndex, set]
    rfl
  · rw [accepted, set]

theorem empty_turns : ∃ turns, ((0 : Word) - 1).toNat = turns + 1 := ⟨2 ^ 64 - 2, rfl⟩

theorem faultless_of_nonzero (rdrand : Rdrand) (length : cindex.entries.length = csize.toNat) (nonzero : csize ≠ 0) :
    Faultless rdrand cindex csize := by
  obtain ⟨cleared, set⟩ := memset_whole length
  have positive : 1 ≤ csize.toNat := by
    have some_entry : csize.toNat ≠ 0 := fun zero => nonzero (BitVec.eq_of_toNat_eq zero)
    omega
  have linked := linked_start positive length set
  intro bound
  obtain ⟨called, drawnFrom⟩ := chasingIndex_cleared set rdrand bound
  have fault {reason : Fault} (faulted : initChasingIndex rdrand bound cindex csize = .error reason) :
      reason = .unfinished := by
    rw [called] at faulted
    exact linkPositions_fault nonzero linked faulted
  refine ⟨fun faulted => ?_, fun faulted => ?_, ?_⟩
  · exact absurd (fault faulted) (by simp)
  · exact absurd (fault faulted) (by simp)
  · rw [drawnFrom]
    have size := turns_left positive
    have short := acceptedPositions_length rdrand bound csize (csize - 1).toNat ⟨cleared, 0, 0, 0⟩
    omega

/-- Then the function returns 1, or is still in its first `do ... while`. -/
theorem faultless_of_fails (length : cindex.entries.length = (0 : Word).toNat)
    (fails : ∀ retry < RDRAND_MAX_RETRY, (rdrand retry).ok = false) : Faultless rdrand cindex 0 := by
  obtain ⟨cleared, set⟩ := memset_whole length
  obtain ⟨turns, size⟩ := empty_turns
  intro bound
  obtain ⟨called, drawnFrom⟩ := chasingIndex_cleared set rdrand bound
  rw [called, drawnFrom, size]
  rcases drawNext_empty cleared 0 0 bound 0 fails with unfinished | ⟨draw, drawn, failed⟩
  · obtain ⟨stopped, none⟩ := linkPositions_error ⟨cleared, 0, 0, 0⟩ unfinished
    rw [stopped, none]
    simp
  · obtain ⟨stopped, none⟩ := linkPositions_failed ⟨cleared, 0, 0, 0⟩ drawn failed
    rw [stopped, none]
    simp

/-- Any success among the first attempts is divided by zero. -/
theorem fails_of_faultless (length : cindex.entries.length = (0 : Word).toNat) (faultless : Faultless rdrand cindex 0) :
    ∀ retry < RDRAND_MAX_RETRY, (rdrand retry).ok = false := by
  obtain ⟨cleared, set⟩ := memset_whole length
  obtain ⟨turns, size⟩ := empty_turns
  by_contra notAll
  have succeeds : ∃ retry < RDRAND_MAX_RETRY, (rdrand (0 + retry)).ok = true := by simpa using notAll
  have divided : getRand rdrand 0 0 0 = .error .divideByZero := getRandLoop_zero succeeds
  have drawn : drawNext rdrand cleared 0 0 1 0 0 = .error .divideByZero := by
    rw [drawNext, divided]
    rfl
  apply (faultless 1).1
  rw [(chasingIndex_cleared set rdrand 1).1, size]
  exact (linkPositions_error _ drawn).1

/-- Exactly when the array has an entry, or the first call of `get_rand` fails,
there is no fault. -/
theorem chasingIndex_faultless_iff (rdrand : Rdrand) (cindex : Cindex) (csize : Word)
    (length : cindex.entries.length = csize.toNat) :
    Faultless rdrand cindex csize ↔ csize ≠ 0 ∨ ∀ retry < RDRAND_MAX_RETRY, (rdrand retry).ok = false := by
  by_cases empty : csize = 0
  · subst empty
    apply Iff.intro
    · intro faultless
      exact .inr (fails_of_faultless length faultless)
    · intro condition
      exact faultless_of_fails length (condition.resolve_left (not_not.mpr rfl))
  · exact iff_of_true (faultless_of_nonzero rdrand length empty) (.inl empty)

theorem chasingIndex_faultless_iff_four : Faultless counting ⟨[7, 7, 7, 7], by decide⟩ 4 ↔
    (4 : Word) ≠ 0 ∨ ∀ retry < RDRAND_MAX_RETRY, (counting retry).ok = false :=
  chasingIndex_faultless_iff counting ⟨[7, 7, 7, 7], by decide⟩ 4 rfl

/-- An empty array, and a source that works: the first remainder is by zero. -/
theorem chasingIndex_faults : initChasingIndex counting 1 ⟨[], by decide⟩ 0 = .error .divideByZero ∧
    ¬ Faultless counting ⟨[], by decide⟩ 0 := by
  have faults : initChasingIndex counting 1 ⟨[], by decide⟩ 0 = .error .divideByZero := by
    have size : ((0 : Word) - 1).toNat = (2 ^ 64 - 2) + 1 := rfl
    rw [initChasingIndex, size]
    rfl
  exact ⟨faults, fun faultless => (faultless 1).1 faults⟩

end RwSep.MemAccess
