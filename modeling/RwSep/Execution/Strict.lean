import RwSep.Data.Lists
import RwSep.Execution.Script

namespace RwSep.Execution

open RwSep.Data

/-! Scripts that settle what they write before they go on.

Of a script that is made of settling pieces, a crash can undo what the current
piece has written, and nothing else.
-/

variable {π κ σ α β ε : Type} {act : Actor κ σ α β ε} {model : Persistence π α ε} {place : π} {spot : α}

/-- A goal that more events, before it or behind it, do not undo. -/
class Lasting (goal : List ε → Prop) : Prop where
  before : ∀ events more, goal more → goal (events ++ more)
  behind : ∀ events more, goal events → goal (events ++ more)

/-- Whenever the end of a piece, however short, writes to the spot, it reaches the goal. -/
def Ensures (act : Actor κ σ α β ε) (spot : α) (goal : List ε → Prop) (piece : List κ) : Prop :=
  ∀ ending, ending <:+ piece → ∀ own store, (runScript act ending own store).writes spot = none ∨
    goal (runScript act ending own store).events

def Persistence.Flushed (model : Persistence π α ε) (place : π) (events : List ε) : Prop :=
  ∃ flush ∈ events, model.Flushes place flush

abbrev Flushing (act : Actor κ σ α β ε) (model : Persistence π α ε) (spot : α) : List κ → Prop :=
  Ensures act spot (model.Flushed (model.place spot))

abbrev Settling (act : Actor κ σ α β ε) (model : Persistence π α ε) (spot : α) : List κ → Prop :=
  Ensures act spot (model.Settled (model.place spot))

instance : Lasting (model.Flushed place) where
  before := fun events _ ⟨flush, member, flushes⟩ => ⟨flush, List.mem_append_right events member, flushes⟩
  behind := fun _ more ⟨flush, member, flushes⟩ => ⟨flush, List.mem_append_left more member, flushes⟩

instance : Lasting (model.Settled place) where
  before := by
    intro events more settled
    obtain ⟨before, flush, middle, fence, after, rfl, flushes, fences⟩ := settled
    exact ⟨events ++ before, flush, middle, fence, after, by simp, flushes, fences⟩
  behind := by
    intro events more settled
    obtain ⟨before, flush, middle, fence, after, rfl, flushes, fences⟩ := settled
    exact ⟨before, flush, middle, fence, after ++ more, by simp, flushes, fences⟩

section Ensuring

variable {goal : List ε → Prop} {first second rest : List κ} {own : σ} {store : α → β}

theorem Ensures.append [Lasting goal] (ensures : Ensures act spot goal first) (ensures' : Ensures act spot goal second) :
    Ensures act spot goal (first ++ second) := by
  intro ending shorter own store
  rcases suffix_within_or_past shorter with within | ⟨more, rfl, within⟩
  · exact ensures' ending within own store
  · rw [runScript_append]
    rcases ensures' second List.suffix_rfl (runScript act more own store).own
      (overwrite store (runScript act more own store).writes) with unwritten | reached
    · rcases ensures more within own store with untouched | reached
      · exact .inl (Option.or_eq_none_iff.mpr ⟨unwritten, untouched⟩)
      · exact .inr (Lasting.behind _ _ reached)
    · exact .inr (Lasting.before _ _ reached)

/-- Behind its first instruction too a piece has to reach the goal. -/
theorem Ensures.cons {instr : κ} (ensures : Ensures act spot goal rest)
    (whole : ∀ own store, (runScript act (instr :: rest) own store).writes spot = none ∨
      goal (runScript act (instr :: rest) own store).events) : Ensures act spot goal (instr :: rest) := by
  intro ending shorter own store
  rcases List.suffix_cons_iff.mp shorter with rfl | within
  · exact whole own store
  · exact ensures ending within own store

/-- One fence settles all that has been flushed before it. -/
theorem Ensures.fenced {fence : κ} (flushing : Flushing act model spot first)
    (quiet : ∀ own store, (act fence own store).writes spot = none)
    (fences : ∀ own store, ∃ event ∈ (act fence own store).events, model.Fences event) :
    Settling act model spot (first ++ [fence]) := by
  intro ending shorter own store
  rcases List.suffix_concat_iff.mp shorter with rfl | ⟨more, rfl, within⟩
  · exact .inl rfl
  · rw [runScript_append, resume, runScript_single]
    rcases flushing more within own store with untouched | ⟨flush, member, flushes⟩
    · exact .inl (Option.or_eq_none_iff.mpr ⟨quiet _ _, untouched⟩)
    · obtain ⟨event, member', fenced⟩ := fences (runScript act more own store).own
        (overwrite store (runScript act more own store).writes)
      obtain ⟨before, middle, split⟩ := List.append_of_mem member
      obtain ⟨middle', after, split'⟩ := List.append_of_mem member'
      refine .inr ⟨before, flush, middle ++ middle', event, after, ?_, flushes, fenced⟩
      simp only [Action.followed]
      rw [split, split']
      simp

end Ensuring

end RwSep.Execution
