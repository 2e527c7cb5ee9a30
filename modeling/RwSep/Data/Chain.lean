import Mathlib.Data.List.Nodup
import Mathlib.Data.List.Perm.Subperm
import Mathlib.Data.Set.Card
import Mathlib.Dynamics.PeriodicPts.Defs

namespace RwSep.Data

/-! Paths grown one position at a time, and the cycles they close.

A successor function maps every position to 0 at first.  Each extension points
the end of the path at a position that is not on it yet, so that the function
always leads along the path and from its end back to 0.
-/

/-- The path from 0 to `last`; the positions before `last` are listed from its end back to 0. -/
inductive Chain : (Nat → Nat) → Nat → List Nat → Prop where
  | start : Chain (fun _ => 0) 0 []
  | extend {next : Nat → Nat} {last new : Nat} {path : List Nat}
      (chain : Chain next last path) (fresh : new ∉ last :: path) :
      Chain (Function.update next last new) new (last :: path)

/-- From 0 the function visits all of `0, ..., length - 1`, each once, and is
back at 0 after `length` steps, not earlier. -/
structure SingleCycle (next : Nat → Nat) (length : Nat) : Prop where
  visits : ((List.range length).map fun steps => next^[steps] 0).Perm (List.range length)
  returns : next^[length] 0 = 0
  first : ∀ steps, 0 < steps → steps < length → next^[steps] 0 ≠ 0

/-- From 0 the function visits `length` positions and is back at 0; from any
other position it leads to 0. -/
structure ShortCycle (next : Nat → Nat) (length : Nat) : Prop where
  distinct : ((List.range length).map fun steps => next^[steps] 0).Nodup
  returns : next^[length] 0 = 0
  others : ∀ position, position ∉ (List.range length).map (fun steps => next^[steps] 0) → next position = 0

namespace Chain

variable {next : Nat → Nat} {last position steps length : Nat} {path : List Nat}

theorem nodup (chain : Chain next last path) : (last :: path).Nodup := by
  induction chain with
  | start => simp
  | extend chain fresh ih => exact List.nodup_cons.mpr ⟨fresh, ih⟩

theorem zero_mem (chain : Chain next last path) : 0 ∈ last :: path := by
  induction chain with
  | start => simp
  | extend chain fresh ih => exact List.mem_cons_of_mem _ ih

theorem mem_iff (chain : Chain next last path) :
    position ∈ last :: path ↔ next position ≠ 0 ∨ position = last := by
  induction chain with
  | start => simp
  | @extend next last new path chain fresh ih =>
      have nonzero : new ≠ 0 := by
        intro zero
        rw [zero] at fresh
        exact fresh chain.zero_mem
      by_cases pointed : position = last
      · subst pointed
        simp [nonzero]
      · rw [Function.update_of_ne pointed, List.mem_cons, ih]
        simp only [pointed, or_false]
        exact or_comm

theorem next_last (chain : Chain next last path) : next last = 0 := by
  cases chain with
  | start => rfl
  | @extend next before new path chain fresh =>
      have apart : last ≠ before := by
        intro same
        rw [same] at fresh
        exact fresh List.mem_cons_self
      have unpointed := mt chain.mem_iff.mpr fresh
      rw [not_or, not_not] at unpointed
      rw [Function.update_of_ne apart, unpointed.1]

theorem index_unique (chain : Chain next last path) {left right : Nat} (bound : left ≤ path.length)
    (same : (last :: path).reverse[left]? = (last :: path).reverse[right]?) : left = right := by
  have distinct : (last :: path).reverse.Nodup := List.nodup_reverse.mpr chain.nodup
  exact (List.getElem?_inj (by simp; omega) distinct).mp same

theorem iterate (chain : Chain next last path) (bound : steps ≤ path.length) :
    (last :: path).reverse[steps]? = some (next^[steps] 0) := by
  induction chain generalizing steps with
  | start =>
      obtain rfl : steps = 0 := by simpa using bound
      rfl
  | @extend next last new path chain fresh ih =>
      have along : ∀ steps ≤ path.length, (Function.update next last new)^[steps] 0 = next^[steps] 0 := by
        intro steps
        induction steps with
        | zero => intro _; rfl
        | succ steps before =>
            intro within
            have inner : next^[steps] 0 ≠ last := by
              intro same
              have inPath : steps ≤ path.length := by omega
              have here := ih inPath
              have there : (last :: path).reverse[path.length]? = some last := by simp
              rw [same, ← there] at here
              have equal := chain.index_unique (by omega) here
              omega
            rw [Function.iterate_succ_apply', Function.iterate_succ_apply', before (by omega),
              Function.update_of_ne inner]
      rw [List.reverse_cons]
      by_cases within : steps ≤ path.length
      · rw [List.getElem?_append_left (by simp; omega), ih within, along steps within]
      · have final : steps = path.length + 1 := by
          simp only [List.length_cons] at bound
          omega
        subst final
        have atEnd : next^[path.length] 0 = last := by
          have here := ih (Nat.le_refl path.length)
          simpa using here.symm
        rw [List.getElem?_append_right (by simp), Function.iterate_succ_apply', along _ (Nat.le_refl _), atEnd]
        simp

theorem iterate_length (chain : Chain next last path) : next^[path.length + 1] 0 = 0 := by
  have atEnd : next^[path.length] 0 = last := by
    have here := chain.iterate (Nat.le_refl path.length)
    simpa using here.symm
  rw [Function.iterate_succ_apply', atEnd, chain.next_last]

theorem visited (chain : Chain next last path) :
    (List.range (path.length + 1)).map (fun steps => next^[steps] 0) = (last :: path).reverse := by
  apply List.ext_getElem?
  intro steps
  by_cases within : steps ≤ path.length
  · rw [chain.iterate within, List.getElem?_map, List.getElem?_range (by omega)]
    rfl
  · rw [List.getElem?_eq_none (by simp; omega), List.getElem?_eq_none (by simp; omega)]

/-- The function leads to positions of the path only. -/
theorem next_mem (chain : Chain next last path) (position : Nat) : next position ∈ last :: path := by
  induction chain with
  | start => exact List.mem_cons_self
  | @extend next last new path chain fresh ih =>
      by_cases pointed : position = last
      · subst pointed
        rw [Function.update_self]
        exact List.mem_cons_self
      · rw [Function.update_of_ne pointed]
        exact List.mem_cons_of_mem new ih

theorem shortCycle (chain : Chain next last path) : ShortCycle next (path.length + 1) := by
  constructor
  · rw [chain.visited]
    exact List.nodup_reverse.mpr chain.nodup
  · exact chain.iterate_length
  · intro position outside
    rw [chain.visited, List.mem_reverse, chain.mem_iff, not_or, not_not] at outside
    exact outside.1

theorem singleCycle (chain : Chain next last path) (below : ∀ position ∈ last :: path, position < length)
    (complete : path.length + 1 = length) : SingleCycle next length := by
  subst complete
  constructor
  · rw [chain.visited]
    apply (List.reverse_perm _).trans
    apply (List.subperm_of_subset chain.nodup _).perm_of_length_le (by simp)
    intro position member
    exact List.mem_range.mpr (below position member)
  · exact chain.iterate_length
  · intro steps positive within zero
    have inPath : steps ≤ path.length := by omega
    have here := chain.iterate inPath
    have start := chain.iterate (Nat.zero_le path.length)
    rw [zero] at here
    have equal := chain.index_unique (by omega) (here.trans start.symm)
    omega

/-- The positions of the path after 0, from the first on, are the values of the iterates. -/
theorem order (chain : Chain next last path) {positions : List Nat} (listed : last :: path = positions.reverse ++ [0]) :
    positions = (List.range positions.length).map fun steps => next^[steps + 1] 0 := by
  have size : path.length = positions.length := by
    have length := congrArg List.length listed
    simp only [List.length_cons, List.length_append, List.length_reverse, List.length_nil] at length
    omega
  apply List.ext_getElem?
  intro steps
  by_cases within : steps < positions.length
  · have inPath : steps + 1 ≤ path.length := by omega
    have here := chain.iterate inPath
    rw [listed, List.reverse_append, List.reverse_reverse] at here
    rw [List.getElem?_map, List.getElem?_range within]
    exact here
  · rw [List.getElem?_eq_none (by omega), List.getElem?_eq_none (by simp; omega)]

end Chain

/-! # Orders of a cycle -/

/-- The positions that a cycle visits after 0, in its order. -/
def cycleOrder (next : Nat → Nat) (length : Nat) : List Nat :=
  (List.range (length - 1)).map fun steps => next^[steps + 1] 0

namespace SingleCycle

variable {next other : Nat → Nat} {position length : Nat}

theorem order_perm (cycle : SingleCycle next length) (positive : 0 < length) :
    (cycleOrder next length).Perm (List.range' 1 (length - 1)) := by
  obtain ⟨rest, rfl⟩ := Nat.exists_eq_succ_of_ne_zero (Nat.ne_of_gt positive)
  have visits := cycle.visits
  rw [List.range_succ_eq_map, List.map_cons, List.map_map] at visits
  have later : ((List.range rest).map fun steps => next^[steps + 1] 0).Perm ((List.range rest).map Nat.succ) :=
    (List.perm_cons 0).mp visits
  rw [cycleOrder, List.range'_eq_map_range, Nat.succ_sub_one]
  simpa only [Nat.add_comm 1, Nat.succ_eq_add_one] using later

/-- Two cycles in the same order are the same. -/
theorem unique (cycle : SingleCycle next length) (cycle' : SingleCycle other length)
    (same : cycleOrder next length = cycleOrder other length) (bound : position < length) :
    next position = other position := by
  have along : ∀ steps < length, next^[steps] 0 = other^[steps] 0 := by
    intro steps within
    cases steps with
    | zero => rfl
    | succ steps =>
        have here := congrArg (·[steps]?) same
        have inOrder : steps < length - 1 := by omega
        simp only [cycleOrder, List.getElem?_map, List.getElem?_range inOrder] at here
        exact Option.some.inj here
  obtain ⟨steps, inRange, rfl⟩ := List.mem_map.mp (cycle.visits.mem_iff.mpr (List.mem_range.mpr bound))
  have within := List.mem_range.mp inRange
  have left : next (next^[steps] 0) = next^[steps + 1] 0 := (Function.iterate_succ_apply' next steps 0).symm
  have right : other (next^[steps] 0) = other^[steps + 1] 0 := by
    rw [along steps within, Function.iterate_succ_apply']
  rw [left, right]
  by_cases final : steps + 1 = length
  · rw [final, cycle.returns, cycle'.returns]
  · exact along (steps + 1) (by omega)

end SingleCycle

namespace ShortCycle

variable {next : Nat → Nat} {length : Nat}

/-- However far the function is followed, it visits these positions and no others. -/
theorem visits_card (cycle : ShortCycle next length) (positive : 0 < length) :
    (Set.range fun steps => next^[steps] 0).ncard = length := by
  have periodic : Function.IsPeriodicPt next length 0 := cycle.returns
  have listed : (Set.range fun steps => next^[steps] 0) =
      (((List.range length).map fun steps => next^[steps] 0).toFinset : Set Nat) := by
    ext position
    simp only [Set.mem_range, Finset.mem_coe, List.mem_toFinset, List.mem_map, List.mem_range]
    apply Iff.intro
    · intro found
      obtain ⟨steps, rfl⟩ := found
      exact ⟨steps % length, Nat.mod_lt _ positive, periodic.iterate_mod_apply steps⟩
    · intro found
      obtain ⟨steps, _, same⟩ := found
      exact ⟨steps, same⟩
  rw [listed, Set.ncard_coe_finset, List.toFinset_card_of_nodup cycle.distinct, List.length_map, List.length_range]

end ShortCycle

end RwSep.Data
