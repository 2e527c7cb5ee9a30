import RwSep.Data.Chain
import RwSep.Data.Word
import RwSep.Execution.Run

namespace RwSep.MemAccess

open RwSep.Data RwSep.Execution

/-! `get_rand` and `init_chasing_index` of memaccess.c.

The outcomes of `rdrand` are an arbitrary stream; a call consumes it from the
attempt numbered `used`.  The `do ... while` that rejects positions has no
bound in the source, so it gets one here: `unfinished` says that the bound was
too small, not that the source stops.
-/

structure Attempt where
  ok : Bool
  value : Word

abbrev Rdrand := Nat → Attempt

inductive Fault where
  | divideByZero
  | outOfBounds
  | unfinished
deriving DecidableEq, Repr

/-- `uint64_t cindex[]`; its bytes fit the address space. -/
structure Cindex where
  entries : List Word
  fits : 8 * entries.length < 2 ^ 64

namespace Cindex

def load (cindex : Cindex) (index : Word) : Except Fault Word :=
  match cindex.entries[index.toNat]? with
  | some entry => .ok entry
  | none => .error .outOfBounds

def store (cindex : Cindex) (index entry : Word) : Except Fault Cindex :=
  if index.toNat < cindex.entries.length then
    .ok ⟨cindex.entries.set index.toNat entry, by rw [List.length_set]; exact cindex.fits⟩
  else .error .outOfBounds

/-- `memset(cindex, 0, bytes)`, for a whole number of entries. -/
def memset (cindex : Cindex) (bytes : Word) : Except Fault Cindex :=
  if bound : bytes.toNat / 8 ≤ cindex.entries.length then
    .ok ⟨List.replicate (bytes.toNat / 8) 0 ++ cindex.entries.drop (bytes.toNat / 8), by
      have fits := cindex.fits
      rw [List.length_append, List.length_replicate, List.length_drop]
      omega⟩
  else .error .outOfBounds

def next (cindex : Cindex) (position : Nat) : Nat := (cindex.entries[position]?.getD 0).toNat

end Cindex

def RDRAND_MAX_RETRY : Nat := 32

structure Draw where
  ret : Int
  rd : Word
  used : Nat

def getRandLoop (rdrand : Rdrand) (range : Word) : Nat → Word → Nat → Except Fault Draw
  | 0, rd, used => .ok ⟨1, rd, used⟩
  | retries + 1, _, used =>
      if (rdrand used).ok then
        if range = 0 then .error .divideByZero
        else .ok ⟨0, (rdrand used).value % range, used + 1⟩
      else getRandLoop rdrand range retries (rdrand used).value (used + 1)

def getRand (rdrand : Rdrand) (rd range : Word) (used : Nat) : Except Fault Draw :=
  getRandLoop rdrand range RDRAND_MAX_RETRY rd used

/-- The `do ... while` of `init_chasing_index`: the first draw that failed or was accepted. -/
def drawNext (rdrand : Rdrand) (cindex : Cindex) (csize currPos : Word) :
    Nat → Word → Nat → Except Fault Draw
  | 0, _, _ => .error .unfinished
  | bound + 1, nextPos, used => do
      let draw ← getRand rdrand nextPos csize used
      if draw.ret ≠ 0 then return draw
      let entry ← cindex.load draw.rd
      if entry ≠ 0 ∨ draw.rd = currPos then drawNext rdrand cindex csize currPos bound draw.rd draw.used
      else return draw

structure Progress where
  cindex : Cindex
  currPos : Word
  nextPos : Word
  used : Nat

def linkPositions (rdrand : Rdrand) (bound : Nat) (csize : Word) :
    Nat → Progress → Except Fault (Int × Progress)
  | 0, progress => .ok (0, progress)
  | turns + 1, progress => do
      let draw ← drawNext rdrand progress.cindex csize progress.currPos bound progress.nextPos progress.used
      if draw.ret ≠ 0 then return (1, { progress with nextPos := draw.rd, used := draw.used })
      let cindex ← progress.cindex.store progress.currPos draw.rd
      linkPositions rdrand bound csize turns ⟨cindex, draw.rd, draw.rd, draw.used⟩

def initChasingIndex (rdrand : Rdrand) (bound : Nat) (cindex : Cindex) (csize : Word) :
    Except Fault (Int × Progress) := do
  let cindex ← cindex.memset (8 * csize)
  linkPositions rdrand bound csize (csize - 1).toNat ⟨cindex, 0, 0, 0⟩

/-! # One call each -/

variable {rdrand : Rdrand} {cindex after : Cindex} {csize range rd currPos nextPos index entry : Word}
variable {bound retries used turns : Nat} {draw : Draw} {progress final : Progress}

theorem getRandLoop_range (drawn : getRandLoop rdrand range retries rd used = .ok draw) (success : draw.ret = 0) :
    draw.rd.toNat < range.toNat := by
  induction retries generalizing rd used with
  | zero =>
      cases drawn
      exact absurd success Int.one_ne_zero
  | succ retries ih =>
      rw [getRandLoop] at drawn
      split at drawn
      · split at drawn
        · contradiction
        · rename_i nonzero
          cases drawn
          have positive : range.toNat ≠ 0 := fun zero => nonzero (BitVec.eq_of_toNat_eq zero)
          rw [BitVec.toNat_umod]
          exact Nat.mod_lt _ (by omega)
      · exact ih drawn

theorem Cindex.load_next (loaded : cindex.load index = .ok entry) : cindex.next index.toNat = entry.toNat := by
  rw [Cindex.load] at loaded
  split at loaded
  · rename_i found
    cases loaded
    rw [Cindex.next, found]
    rfl
  · contradiction

theorem drawNext_accepted (drawn : drawNext rdrand cindex csize currPos bound nextPos used = .ok draw)
    (success : draw.ret = 0) :
    draw.rd.toNat < csize.toNat ∧ cindex.next draw.rd.toNat = 0 ∧ draw.rd ≠ currPos := by
  induction bound generalizing nextPos used with
  | zero => contradiction
  | succ bound ih =>
      obtain ⟨attempt, random, drawn⟩ := bind_ok.mp drawn
      split at drawn
      · rename_i failed
        cases drawn
        exact absurd success failed
      · obtain ⟨entry, loaded, drawn⟩ := bind_ok.mp drawn
        split at drawn
        · exact ih drawn
        · rename_i accepted
          cases drawn
          rw [not_or, not_not] at accepted
          refine ⟨getRandLoop_range random success, ?_, accepted.2⟩
          rw [Cindex.load_next loaded, accepted.1]
          rfl

theorem Cindex.store_next (stored : cindex.store index entry = .ok after) :
    after.next = Function.update cindex.next index.toNat entry.toNat ∧
      after.entries.length = cindex.entries.length := by
  rw [Cindex.store] at stored
  split at stored
  · rename_i inside
    cases stored
    refine ⟨funext fun position => ?_, by simp⟩
    by_cases same : position = index.toNat
    · subst same
      simp [Cindex.next, inside]
    · rw [Function.update_of_ne same]
      simp [Cindex.next, List.getElem?_set_ne (Ne.symm same)]
  · contradiction

theorem Cindex.memset_next (length : cindex.entries.length = csize.toNat)
    (cleared : cindex.memset (8 * csize) = .ok after) :
    after.next = (fun _ => 0) ∧ after.entries.length = csize.toNat := by
  have fits := cindex.fits
  have whole : (8 * csize : Word).toNat / 8 = csize.toNat := by
    have eight : (8 : Word).toNat = 8 := rfl
    rw [BitVec.toNat_mul, eight, Nat.mod_eq_of_lt (by omega)]
    omega
  rw [Cindex.memset] at cleared
  split at cleared
  · cases cleared
    apply And.intro
    · funext position
      simp only [Cindex.next, whole, ← length, List.drop_length, List.append_nil, List.getElem?_replicate]
      split <;> rfl
    · simp only [whole, List.length_append, List.length_replicate, List.length_drop]
      omega
  · contradiction

/-! # The path through the array -/

/-- Between two turns: the positions linked so far form a path that ends at `curr_pos`. -/
structure Linked (csize : Word) (progress : Progress) (path : List Nat) : Prop where
  length : progress.cindex.entries.length = csize.toNat
  chain : Chain progress.cindex.next progress.currPos.toNat path
  below : ∀ position ∈ progress.currPos.toNat :: path, position < csize.toNat

theorem Linked.extend {path : List Nat} (linked : Linked csize progress path)
    (drawn : drawNext rdrand progress.cindex csize progress.currPos bound progress.nextPos progress.used = .ok draw)
    (success : draw.ret = 0) (stored : progress.cindex.store progress.currPos draw.rd = .ok after) :
    Linked csize ⟨after, draw.rd, draw.rd, draw.used⟩ (progress.currPos.toNat :: path) := by
  obtain ⟨inRange, unlinked, different⟩ := drawNext_accepted drawn success
  obtain ⟨updated, sameLength⟩ := Cindex.store_next stored
  constructor
  · exact sameLength.trans linked.length
  · rw [updated]
    apply linked.chain.extend
    rw [linked.chain.mem_iff, not_or, not_not]
    exact ⟨unlinked, fun same => different (BitVec.eq_of_toNat_eq same)⟩
  · intro position member
    rcases List.mem_cons.mp member with rfl | earlier
    · exact inRange
    · exact linked.below position earlier

/-- A turn of the loop that goes on: a draw that succeeds, and its store. -/
theorem linkPositions_succ (returned : linkPositions rdrand bound csize (turns + 1) progress = .ok (0, final)) :
    ∃ draw after,
      drawNext rdrand progress.cindex csize progress.currPos bound progress.nextPos progress.used = .ok draw ∧
      draw.ret = 0 ∧ progress.cindex.store progress.currPos draw.rd = .ok after ∧
      linkPositions rdrand bound csize turns ⟨after, draw.rd, draw.rd, draw.used⟩ = .ok (0, final) := by
  obtain ⟨draw, drawn, returned⟩ := bind_ok.mp returned
  split at returned
  · cases returned
  · rename_i success
    obtain ⟨after, stored, returned⟩ := bind_ok.mp returned
    exact ⟨draw, after, drawn, not_not.mp success, stored, returned⟩

theorem linkPositions_linked {path : List Nat} (linked : Linked csize progress path)
    (returned : linkPositions rdrand bound csize turns progress = .ok (0, final)) :
    ∃ path', path'.length = path.length + turns ∧ Linked csize final path' := by
  induction turns generalizing progress path with
  | zero =>
      cases returned
      exact ⟨path, rfl, linked⟩
  | succ turns ih =>
      obtain ⟨draw, after, drawn, success, stored, returned⟩ := linkPositions_succ returned
      obtain ⟨path', length, linked'⟩ := ih (linked.extend drawn success stored) returned
      refine ⟨path', ?_, linked'⟩
      rw [length, List.length_cons]
      omega

theorem linked_start (positive : 1 ≤ csize.toNat) (length : cindex.entries.length = csize.toNat)
    (cleared : cindex.memset (8 * csize) = .ok after) : Linked csize ⟨after, 0, 0, 0⟩ [] := by
  obtain ⟨zero, sameLength⟩ := Cindex.memset_next length cleared
  constructor
  · exact sameLength
  · rw [zero]
    exact Chain.start
  · intro position member
    obtain rfl : position = 0 := by simpa using member
    exact positive

theorem turns_left (positive : 1 ≤ csize.toNat) : (csize - 1).toNat = csize.toNat - 1 :=
  BitVec.toNat_sub_of_le (BitVec.le_def.mpr positive)

/-- Whenever `init_chasing_index` returns 0, the array is one cycle through all positions. -/
theorem chasingIndex_singleCycle (positive : 1 ≤ csize.toNat) (length : cindex.entries.length = csize.toNat)
    (returned : initChasingIndex rdrand bound cindex csize = .ok (0, final)) :
    SingleCycle final.cindex.next csize.toNat := by
  obtain ⟨empty, cleared, returned⟩ := bind_ok.mp returned
  obtain ⟨path, turns, linked⟩ := linkPositions_linked (linked_start positive length cleared) returned
  apply linked.chain.singleCycle linked.below
  rw [turns, turns_left positive, List.length_nil]
  omega

def fourDraws : Rdrand := fun k =>
  ([⟨false, 0⟩, ⟨true, 2⟩, ⟨true, 6⟩, ⟨true, 8⟩, ⟨false, 9⟩, ⟨true, 3⟩, ⟨true, 1⟩] : List Attempt).getD k
    ⟨false, 0⟩

theorem chasingIndex_singleCycle_four : ∃ final,
    initChasingIndex fourDraws 3 ⟨[7, 7, 7, 7], by decide⟩ 4 = .ok (0, final) ∧
    final.cindex.entries = [2, 0, 3, 1] ∧ SingleCycle final.cindex.next 4 := by
  have returned : initChasingIndex fourDraws 3 ⟨[7, 7, 7, 7], by decide⟩ 4 = .ok (0, _) := rfl
  exact ⟨_, returned, rfl, chasingIndex_singleCycle (by decide) rfl returned⟩

end RwSep.MemAccess
