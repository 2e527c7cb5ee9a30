import RwSep.Execution.Interleaving

namespace RwSep.Execution

/-! What persistent memory may hold after a crash of threads that share a store.

A write reaches persistent memory at some moment of its own, place by place.  It
has done so when a thread has flushed the place after the write, and has then
passed a fence.
-/

structure Persistence (π α ε : Type) where
  place : α → π
  Flushes : π → ε → Prop
  Fences : ε → Prop

variable {ι π σ α β ε : Type} {model : Persistence π α ε} {place : π} {events more : List ε}

/-- A flush of the place, and a fence behind it. -/
def Persistence.Settled (model : Persistence π α ε) (place : π) (events : List ε) : Prop :=
  ∃ before flush middle fence after, events = before ++ flush :: (middle ++ fence :: after) ∧
    model.Flushes place flush ∧ model.Fences fence

theorem Persistence.not_settled (unfenced : ∀ event ∈ events, ¬ model.Fences event) : ¬ model.Settled place events := by
  intro settled
  obtain ⟨before, flush, middle, fence, after, rfl, _, fences⟩ := settled
  exact unfenced fence (by simp) fences

/-- A flush with a fence behind it has come before all that leaves the place unsettled. -/
theorem Persistence.flushed_before {before middle after : List ε} {flush fence : ε}
    (split : events ++ more = before ++ flush :: (middle ++ fence :: after)) (flushes : model.Flushes place flush)
    (fences : model.Fences fence) (unsettled : ¬ model.Settled place more) : (before ++ [flush]) <+: events := by
  rcases List.append_eq_append_iff.mp split with late | early
  · obtain ⟨between, _, same⟩ := late
    exact absurd ⟨between, flush, middle, fence, after, same, flushes, fences⟩ unsettled
  · obtain ⟨between, rfl, same⟩ := early
    cases between with
    | nil => exact absurd ⟨[], flush, middle, fence, after, same.symm, flushes, fences⟩ unsettled
    | cons first rest =>
        obtain ⟨rfl, _⟩ := List.cons.inj same
        exact ⟨rest, by simp⟩

namespace Pool

variable [DecidableEq ι] {steps : ι → Stepper σ α β ε} {pool middle now : Pool ι σ α β ε} {schedule : List ι}
variable {image : α → β}

/-- Each place has what it held at some moment after which no thread has settled it. -/
def Image (model : Persistence π α ε) (steps : ι → Stepper σ α β ε) (pool : Pool ι σ α β ε) (schedule : List ι)
    (image : α → β) : Prop :=
  ∀ place, ∃ earlier later middle now log, schedule = earlier ++ later ∧
    interleave steps pool earlier = some middle ∧ interleave steps middle later = some now ∧
    now.log = middle.log ++ log ∧ (∀ thread, ¬ model.Settled place (eventsOf thread log)) ∧
    ∀ spot, model.place spot = place → image spot = middle.store spot

/-- All may have been persistent already. -/
theorem image_now (model : Persistence π α ε) (ran : interleave steps pool schedule = some now) :
    Image model steps pool schedule now.store := by
  intro place
  refine ⟨schedule, [], now, now, [], (List.append_nil _).symm, ran, rfl, (List.append_nil _).symm, ?_, fun _ _ => rfl⟩
  intro thread
  exact Persistence.not_settled fun _ member => absurd member List.not_mem_nil

/-- Nothing need be persistent that no thread has settled. -/
theorem image_start (ran : interleave steps pool schedule = some now) (fresh : pool.log = [])
    (unsettled : ∀ thread place, ¬ model.Settled place (eventsOf thread now.log)) :
    Image model steps pool schedule pool.store := by
  intro place
  refine ⟨[], schedule, pool, now, now.log, rfl, rfl, ran, ?_, fun thread => unsettled thread place, fun _ _ => rfl⟩
  rw [fresh, List.nil_append]

/-- The moment whose value a place has, and what each thread had done by then. -/
theorem Image.moment (crashed : Image model steps pool schedule image) (ran : interleave steps pool schedule = some now)
    (place : π) :
    ∃ earlier middle, interleave steps pool earlier = some middle ∧
      (∀ thread, ∃ rest, eventsOf thread now.log = eventsOf thread middle.log ++ rest ∧ ¬ model.Settled place rest) ∧
      ∀ spot, model.place spot = place → image spot = middle.store spot := by
  obtain ⟨earlier, later, middle, last, log, rfl, ranEarlier, ranLater, grown, unsettled, same⟩ := crashed place
  rw [interleave_append, ranEarlier, Option.bind_some, ranLater] at ran
  cases ran
  refine ⟨earlier, middle, ranEarlier, fun thread => ⟨eventsOf thread log, ?_, unsettled thread⟩, same⟩
  rw [grown, eventsOf_append]

end Pool

end RwSep.Execution
