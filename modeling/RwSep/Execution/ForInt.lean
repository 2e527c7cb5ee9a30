import RwSep.Execution.Run
import Mathlib.Algebra.Group.Nat.Defs
import Mathlib.Data.List.Basic
import Mathlib.Logic.Function.Iterate

namespace RwSep.Execution

/-! `for (int i = first; i < limit; i++)` over an arbitrary state.

The index is a 32-bit `int` that starts at a nonnegative value.  An increment
past its largest value is undefined in the source language: no run goes on
from there.
-/

variable {σ ε : Type} {body : Nat → σ → σ → Prop} {limit index turns : Nat} {before after : σ}

inductive ForInt (body : Nat → σ → σ → Prop) (limit : Nat) : Nat → σ → σ → Prop where
  | stop {index : Nat} {state : σ} (done : limit ≤ index) : ForInt body limit index state state
  | turn {index : Nat} {before middle after : σ} (more : index < limit) (ran : body index before middle)
      (inRange : index + 1 < 2 ^ 31) (rest : ForInt body limit (index + 1) middle after) :
      ForInt body limit index before after

namespace ForInt

theorem counted (Inv : Nat → σ → Prop) (short : limit < 2 ^ 31)
    (step : ∀ index < limit, ∀ before, Inv index before → ∃ after, body index before after ∧ Inv (index + 1) after)
    (first : index ≤ limit) (start : Inv index before) :
    ∃ after, ForInt body limit index before after ∧ Inv limit after := by
  obtain ⟨turns, rfl⟩ := Nat.exists_eq_add_of_le first
  induction turns generalizing index before with
  | zero => exact ⟨before, .stop (Nat.le_refl _), start⟩
  | succ turns ih =>
      obtain ⟨middle, ran, invariant⟩ := step index (by omega) before start
      have same : index + (turns + 1) = index + 1 + turns := by omega
      rw [same] at short step ⊢
      obtain ⟨after, rest, final⟩ := ih invariant short step (by omega)
      exact ⟨after, .turn (by omega) ran (by omega) rest, final⟩

/-- A loop that ends has kept its index in range. -/
theorem short (ran : ForInt body limit index before after) (inRange : index < 2 ^ 31) : limit < 2 ^ 31 := by
  induction ran with
  | stop done => omega
  | turn more ran inRange' rest ih => exact ih inRange'

theorem preserves (Inv : Nat → σ → Prop)
    (keeps : ∀ {index before after}, index < limit → Inv index before → body index before after → Inv (index + 1) after)
    (ran : ForInt body limit index before after) (first : index ≤ limit) (start : Inv index before) : Inv limit after := by
  induction ran with
  | stop done =>
      obtain rfl := Nat.le_antisymm first done
      exact start
  | turn more ran inRange rest ih => exact ih more (keeps more start ran)

theorem each (ran : ForInt body limit index before after) {turn : Nat} (first : index ≤ turn) (last : turn < limit) :
    ∃ before after, body turn before after := by
  induction ran with
  | stop done => omega
  | turn more ran inRange rest ih =>
      rename_i index _ _ _
      by_cases here : turn = index
      · rw [here]
        exact ⟨_, _, ran⟩
      · exact ih (by omega)

end ForInt

/-- The loop over a body that may stop with an error, for a number of turns. -/
def forInt (overflow : ε) (body : Nat → σ → Except ε σ) : Nat → Nat → σ → Except ε σ
  | 0, _, state => .ok state
  | turns + 1, index, state => do
      let state ← body index state
      if index + 1 < 2 ^ 31 then forInt overflow body turns (index + 1) state else .error overflow

theorem forInt_ok_iff {overflow : ε} {execute : Nat → σ → Except ε σ} :
    forInt overflow execute turns index before = .ok after ↔
      ForInt (fun index before after => execute index before = .ok after) (index + turns) index before after := by
  induction turns generalizing index before with
  | zero =>
      apply Iff.intro
      · intro ran
        cases ran
        exact .stop (Nat.le_refl _)
      · intro ran
        cases ran with
        | stop done => rfl
        | turn more ran inRange rest => exact absurd more (Nat.lt_irrefl index)
  | succ turns ih =>
      have same : index + (turns + 1) = index + 1 + turns := by omega
      rw [forInt, bind_ok, same]
      apply Iff.intro
      · intro found
        obtain ⟨middle, ran, rest⟩ := found
        split at rest
        · rename_i inRange
          exact .turn (by omega) ran inRange (ih.mp rest)
        · contradiction
      · intro ran
        cases ran with
        | stop done => omega
        | turn more ran inRange rest => exact ⟨_, ran, by rw [if_pos inRange]; exact ih.mpr rest⟩

theorem forInt_counted (overflow : ε) {execute : Nat → σ → Except ε σ} (Inv : Nat → σ → Prop)
    (short : index + turns < 2 ^ 31)
    (step : ∀ i < index + turns, ∀ before, Inv i before → ∃ after, execute i before = .ok after ∧ Inv (i + 1) after)
    (start : Inv index before) :
    ∃ after, forInt overflow execute turns index before = .ok after ∧ Inv (index + turns) after := by
  obtain ⟨after, ran, final⟩ := ForInt.counted Inv short step (Nat.le_add_right index turns) start
  exact ⟨after, forInt_ok_iff.mpr ran, final⟩

theorem forInt_short {overflow : ε} {execute : Nat → σ → Except ε σ}
    (ran : forInt overflow execute turns index before = .ok after) (inRange : index < 2 ^ 31) :
    index + turns < 2 ^ 31 :=
  (forInt_ok_iff.mp ran).short inRange

theorem forInt_returns {overflow : ε} {execute : Nat → σ → Except ε σ} (short : turns < 2 ^ 31)
    (step : ∀ turn < turns, ∀ before, ∃ after, execute turn before = .ok after) (before : σ) :
    ∃ after, forInt overflow execute turns 0 before = .ok after := by
  have never : ∀ turn < 0 + turns, ∀ before, True → ∃ after, execute turn before = .ok after ∧ True := by
    intro turn bound before _
    obtain ⟨after, ran⟩ := step turn (by omega) before
    exact ⟨after, ran, trivial⟩
  obtain ⟨after, ran, _⟩ := forInt_counted overflow (fun _ _ => True) (by omega) never trivial
  exact ⟨after, ran⟩

/-- Every turn of a loop that ends has run. -/
theorem forInt_each {overflow : ε} {execute : Nat → σ → Except ε σ}
    (ran : forInt overflow execute turns 0 before = .ok after) (turn : Nat) (inTurns : turn < turns) :
    ∃ before after, execute turn before = .ok after :=
  (forInt_ok_iff.mp ran).each (Nat.zero_le turn) (by omega)

/-- Within the range of the index the loop is a fold over its values. -/
theorem forInt_eq_foldlM {overflow : ε} {execute : Nat → σ → Except ε σ} (short : index + turns < 2 ^ 31) :
    forInt overflow execute turns index before =
      (List.range' index turns).foldlM (fun state index => execute index state) before := by
  induction turns generalizing index before with
  | zero => rfl
  | succ turns ih =>
      rw [forInt, List.range'_succ, List.foldlM_cons]
      apply congrArg
      funext state
      rw [if_pos (by omega)]
      exact ih (by omega)

/-- A loop whose turns never stop is a fold. -/
theorem forInt_eq_foldl {overflow : ε} {execute : Nat → σ → Except ε σ} {step : σ → Nat → σ} (short : turns < 2 ^ 31)
    (each : ∀ turn < turns, ∀ state, execute turn state = .ok (step state turn)) (before : σ) :
    forInt overflow execute turns 0 before = .ok ((List.range turns).foldl step before) := by
  let Inv : Nat → σ → Prop := fun turn state => state = (List.range turn).foldl step before
  have turned : ∀ turn < 0 + turns, ∀ state, Inv turn state →
      ∃ after, execute turn state = .ok after ∧ Inv (turn + 1) after := by
    intro turn bound state same
    refine ⟨step state turn, each turn (by omega) state, ?_⟩
    change step state turn = (List.range (turn + 1)).foldl step before
    rw [List.range_succ, List.foldl_append, ← same]
    rfl
  have start : Inv 0 before := rfl
  obtain ⟨after, ran, same⟩ := forInt_counted overflow Inv (by omega) turned start
  rw [Nat.zero_add] at same
  rw [ran]
  exact congrArg Except.ok same

theorem forInt_eq_iterate {overflow : ε} {execute : Nat → σ → Except ε σ} {step : σ → σ} (short : turns < 2 ^ 31)
    (each : ∀ turn < turns, ∀ state, execute turn state = .ok (step state)) (before : σ) :
    forInt overflow execute turns 0 before = .ok (step^[turns] before) := by
  rw [forInt_eq_foldl short each, List.foldl_const, List.length_range]

section Items

variable {α : Type} {items : List α} {step : σ → α → Except ε σ}

theorem foldlM_returns (each : ∀ item ∈ items, ∀ before, ∃ after, step before item = .ok after) (before : σ) :
    ∃ after, items.foldlM step before = .ok after := by
  induction items generalizing before with
  | nil => exact ⟨before, rfl⟩
  | cons item rest ih =>
      obtain ⟨middle, ran⟩ := each item List.mem_cons_self before
      obtain ⟨after, others⟩ := ih (fun other member => each other (List.mem_cons_of_mem _ member)) middle
      exact ⟨after, by rw [List.foldlM_cons, ran]; exact others⟩

theorem foldlM_each (ran : items.foldlM step before = .ok after) (item : α) (member : item ∈ items) :
    ∃ before after, step before item = .ok after := by
  induction items generalizing before with
  | nil => exact absurd member List.not_mem_nil
  | cons first rest ih =>
      obtain ⟨middle, stepped, others⟩ := bind_ok.mp ran
      rcases List.mem_cons.mp member with rfl | later
      · exact ⟨before, middle, stepped⟩
      · exact ih others later

end Items

end RwSep.Execution
