import Mathlib.Logic.Function.Iterate

namespace RwSep.Execution

/-! `do ... while` loops over an arbitrary state.

The body runs at least once; the loop goes on while `again` holds after it.
-/

variable {σ : Type} {body : σ → σ → Prop} {again : σ → Prop} {before middle after : σ}

inductive DoWhile (body : σ → σ → Prop) (again : σ → Prop) : σ → σ → Prop where
  | leave {before after : σ} (ran : body before after) (done : ¬ again after) :
      DoWhile body again before after
  | turn {before middle after : σ} (ran : body before middle) (more : again middle)
      (rest : DoWhile body again middle after) : DoWhile body again before after

namespace DoWhile

theorem unique (functional : ∀ before left right, body before left → body before right → left = right)
    {other : σ} (left : DoWhile body again before after) (right : DoWhile body again before other) :
    after = other := by
  induction left with
  | leave ran done =>
      cases right with
      | leave ran' done' => exact functional _ _ _ ran ran'
      | turn ran' more' rest' => exact absurd (functional _ _ _ ran ran' ▸ more') done
  | turn ran more rest ih =>
      cases right with
      | leave ran' done' => exact absurd (functional _ _ _ ran ran' ▸ more) done'
      | turn ran' more' rest' =>
          cases functional _ _ _ ran ran'
          exact ih rest'

theorem enters (loop : DoWhile body again before after) : ∃ middle, body before middle := by
  cases loop with
  | leave ran done => exact ⟨_, ran⟩
  | turn ran more rest => exact ⟨_, ran⟩

theorem keeps {α : Type} (read : σ → α) (body_keeps : ∀ {before after}, body before after → read after = read before)
    (loop : DoWhile body again before after) : read after = read before := by
  induction loop with
  | leave ran done => exact body_keeps ran
  | turn ran more rest ih => rw [ih, body_keeps ran]

theorem counted {turns : Nat} (Inv : Nat → σ → Prop) (positive : 0 < turns)
    (step : ∀ turn < turns, ∀ before, Inv turn before →
      ∃ after, body before after ∧ Inv (turn + 1) after ∧ (again after ↔ turn + 1 < turns))
    (start : Inv 0 before) : ∃ after, DoWhile body again before after ∧ Inv turns after := by
  suffices fromTurn : ∀ left turn, turn + left + 1 = turns → ∀ before, Inv turn before →
      ∃ after, DoWhile body again before after ∧ Inv turns after from
    fromTurn (turns - 1) 0 (by omega) before start
  intro left
  induction left with
  | zero =>
      intro turn last before invariant
      obtain ⟨after, ran, invariant', more⟩ := step turn (by omega) before invariant
      refine ⟨after, .leave ran fun goesOn => ?_, ?_⟩
      · have := more.mp goesOn
        omega
      · rwa [show turn + 1 = turns by omega] at invariant'
  | succ left ih =>
      intro turn position before invariant
      obtain ⟨middle, ran, invariant', more⟩ := step turn (by omega) before invariant
      obtain ⟨after, rest, final⟩ := ih (turn + 1) (by omega) middle invariant'
      exact ⟨after, .turn ran (more.mpr (by omega)) rest, final⟩

/-- The turns of a loop over a function, and what its condition said after each. -/
theorem iterates {step : σ → σ} (functional : ∀ {before after}, body before after → after = step before)
    (loop : DoWhile body again before after) :
    ∃ count, 0 < count ∧ after = step^[count] before ∧ ¬ again after ∧
      ∀ turn, 0 < turn → turn < count → again (step^[turn] before) := by
  induction loop with
  | leave ran done =>
      cases functional ran
      exact ⟨1, Nat.one_pos, rfl, done, fun turn positive below => absurd positive (by omega)⟩
  | turn ran more rest ih =>
      cases functional ran
      obtain ⟨count, positive, reached, done, goesOn⟩ := ih
      refine ⟨count + 1, Nat.succ_pos count, reached, done, fun turn _ below => ?_⟩
      cases turn with
      | zero => contradiction
      | succ turn =>
          rw [Function.iterate_succ_apply]
          rcases Nat.eq_zero_or_pos turn with rfl | later
          · exact more
          · exact goesOn turn later (Nat.lt_of_succ_lt_succ below)

theorem diverges (Inv : σ → Prop)
    (step : ∀ {before after}, Inv before → body before after → Inv after ∧ again after)
    (start : Inv before) : ¬ DoWhile body again before after := by
  intro loop
  induction loop with
  | leave ran done => exact done (step start ran).2
  | turn ran more rest ih => exact ih (step start ran).1

end DoWhile

/-- `do body while (again)` with at most `bound` turns. -/
def doWhile (body : σ → Option σ) (again : σ → Bool) : Nat → σ → Option σ
  | 0, _ => none
  | bound + 1, before =>
      match body before with
      | none => none
      | some middle => if again middle then doWhile body again bound middle else some middle

theorem doWhile_sound {execute : σ → Option σ} {more : σ → Bool} {bound : Nat}
    (sound : ∀ {before after}, execute before = some after → body before after)
    (ran : doWhile execute more bound before = some after) :
    DoWhile body (fun state => more state = true) before after := by
  induction bound generalizing before with
  | zero => contradiction
  | succ bound ih =>
      rw [doWhile] at ran
      split at ran
      · contradiction
      · rename_i middle executed
        split at ran
        · rename_i goesOn
          exact .turn (sound executed) goesOn (ih ran)
        · rename_i stops
          cases ran
          exact .leave (sound executed) stops

end RwSep.Execution
