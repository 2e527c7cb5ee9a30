import RwSep.Execution.Crash

namespace RwSep.Execution

/-! One thread that runs a list of instructions, and what a crash leaves of it.

The instructions are executed from the first to the last.  What one does depends
on the thread's own state and on the store.
-/

abbrev Actor (κ σ α β ε : Type) := κ → σ → (α → β) → Action σ α β ε

variable {π κ σ α β ε : Type}

def Action.idle (own : σ) : Action σ α β ε := ⟨own, fun _ => none, []⟩

def runScript (act : Actor κ σ α β ε) : List κ → σ → (α → β) → Action σ α β ε
  | [], own, _ => .idle own
  | instr :: rest, own, store =>
      let done := act instr own store
      done.followed (runScript act rest done.own (overwrite store done.writes))

/-- What more instructions do behind what has been done. -/
def resume (act : Actor κ σ α β ε) (script : List κ) (done : Action σ α β ε) (store : α → β) : Action σ α β ε :=
  runScript act script done.own (overwrite store done.writes)

def scriptStep (act : Actor κ σ α β ε) : Stepper (List κ × σ) α β ε
  | ([], _), _ => none
  | (instr :: rest, own), store =>
      let done := act instr own store
      some ⟨(rest, done.own), done.writes, done.events⟩

abbrev scriptSteps (act : Actor κ σ α β ε) : Unit → Stepper (List κ × σ) α β ε := fun _ => scriptStep act

def startScript (script : List κ) (own : σ) (store : α → β) : Pool Unit (List κ × σ) α β ε :=
  ⟨fun _ => (script, own), store, []⟩

/-- The pool when the instructions of `before` have been executed. -/
def underway (act : Actor κ σ α β ε) (before rest : List κ) (own : σ) (store : α → β) : Pool Unit (List κ × σ) α β ε :=
  let done := runScript act before own store
  ⟨fun _ => (rest, done.own), overwrite store done.writes, done.events.map fun event => ((), event)⟩

/-! # Runs -/

section Runs

variable {act : Actor κ σ α β ε} {script before rest first second : List κ} {own : σ} {store : α → β} {instr : κ}

theorem Action.followed_assoc (first second third : Action σ α β ε) :
    (first.followed second).followed third = first.followed (second.followed third) := by
  simp only [Action.followed, List.append_assoc, Option.or_assoc]

@[simp] theorem Action.idle_followed (own : σ) (action : Action σ α β ε) : (Action.idle own).followed action = action := by
  simp [Action.followed, Action.idle]

theorem Action.followed_idle (action : Action σ α β ε) : action.followed (.idle action.own) = action := by
  simp [Action.followed, Action.idle]

@[simp] theorem runScript_nil : runScript act [] own store = .idle own := rfl

theorem runScript_single : runScript act [instr] own store = act instr own store := Action.followed_idle _

theorem runScript_append (first second : List κ) (own : σ) (store : α → β) :
    runScript act (first ++ second) own store =
      (runScript act first own store).followed (resume act second (runScript act first own store) store) := by
  induction first generalizing own store with
  | nil => rw [List.nil_append, runScript_nil, Action.idle_followed, resume]; rfl
  | cons instr rest ih =>
      rw [List.cons_append]
      simp only [runScript]
      rw [ih, Action.followed_assoc, resume, resume, overwrite_followed]
      rfl

theorem resume_append (first second : List κ) (done : Action σ α β ε) (store : α → β) :
    resume act (first ++ second) done store =
      (resume act first done store).followed (resume act second (done.followed (resume act first done store)) store) := by
  rw [resume, runScript_append]
  simp only [resume, overwrite_followed]
  rfl

/-- Every event of a script is one of its instructions'. -/
theorem runScript_event {event : ε} (member : event ∈ (runScript act script own store).events) :
    ∃ instr ∈ script, ∃ own store, event ∈ (act instr own store).events := by
  induction script generalizing own store with
  | nil => exact absurd member List.not_mem_nil
  | cons instr rest ih =>
      rcases List.mem_append.mp member with here | behind
      · exact ⟨instr, List.mem_cons_self, own, store, here⟩
      · obtain ⟨other, inRest, found⟩ := ih behind
        exact ⟨other, List.mem_cons_of_mem _ inRest, found⟩

theorem eventsOf_unit (events : List ε) : eventsOf () (events.map fun event => ((), event)) = events := by
  simp [eventsOf, List.filterMap_map]

@[simp] theorem underway_events :
    eventsOf () (underway act before rest own store).log = (runScript act before own store).events :=
  eventsOf_unit _

theorem underway_store : (underway act before rest own store).store =
    overwrite store (runScript act before own store).writes := rfl

theorem step_underway {next : Pool Unit (List κ × σ) α β ε} :
    Pool.step (scriptSteps act) (underway act before rest own store) () = some next ↔
      ∃ instr later, rest = instr :: later ∧ next = underway act (before ++ [instr]) later own store := by
  cases rest with
  | nil => simp [Pool.step, underway, scriptStep]
  | cons instr later =>
      have stepped : Pool.step (scriptSteps act) (underway act before (instr :: later) own store) () =
          some (underway act (before ++ [instr]) later own store) := by
        have run : runScript act (before ++ [instr]) own store = (runScript act before own store).followed _ :=
          runScript_append before [instr] own store
        rw [resume, runScript_single] at run
        simp only [Pool.step, underway, scriptStep, Option.map_some, Pool.acted, run, Action.followed, List.map_append,
          Option.some.injEq, Pool.mk.injEq, and_true]
        exact ⟨funext fun _ => rfl, (overwrite_followed ..).symm⟩
      rw [stepped]
      apply Iff.intro
      · intro same
        exact ⟨instr, later, rfl, (Option.some.inj same).symm⟩
      · intro found
        obtain ⟨_, _, same, rfl⟩ := found
        cases same
        rfl

/-- A schedule of a script says only how many instructions have been executed. -/
theorem interleave_script {schedule : List Unit} {now : Pool Unit (List κ × σ) α β ε} :
    Pool.interleave (scriptSteps act) (startScript script own store) schedule = some now ↔
      ∃ before rest, script = before ++ rest ∧ before.length = schedule.length ∧
        now = underway act before rest own store := by
  induction schedule using List.reverseRecOn generalizing now with
  | nil =>
      apply Iff.intro
      · intro ran
        cases ran
        exact ⟨[], script, rfl, rfl, rfl⟩
      · intro found
        obtain ⟨before, rest, rfl, short, rfl⟩ := found
        cases List.eq_nil_of_length_eq_zero short
        rfl
  | append_singleton schedule thread ih =>
      rw [Pool.interleave_concat]
      apply Iff.intro
      · intro ran
        obtain ⟨middle, ran, stepped⟩ := ran
        obtain ⟨before, rest, rfl, length, rfl⟩ := ih.mp ran
        obtain ⟨instr, later, rfl, rfl⟩ := step_underway.mp stepped
        exact ⟨before ++ [instr], later, by simp, by simp [length], rfl⟩
      · intro found
        obtain ⟨before, rest, same, length, rfl⟩ := found
        rw [List.length_append, List.length_singleton] at length
        obtain rfl | ⟨earlier, instr, rfl⟩ := List.eq_nil_or_concat' before
        · simp at length
        refine ⟨underway act earlier (instr :: rest) own store, ih.mpr ⟨earlier, instr :: rest, ?_, ?_, rfl⟩, ?_⟩
        · rw [same, List.append_assoc]
          rfl
        · simpa using length
        · exact step_underway.mpr ⟨instr, rest, rfl, rfl⟩

/-- All schedules of a script are parts of the one that ends it. -/
theorem script_everyOrderEnds (act : Actor κ σ α β ε) (script : List κ) (own : σ) (store : α → β) :
    (startScript script own store).EveryOrderEnds (scriptSteps act) := by
  refine ⟨script.length, fun schedule now ran => ?_, fun schedule done complete => ?_⟩
  · obtain ⟨before, rest, rfl, length, rfl⟩ := interleave_script.mp ran
    refine ⟨List.replicate rest.length (), underway act (before ++ rest) [] own store, ?_, fun _ => rfl⟩
    apply interleave_script.mpr
    exact ⟨before ++ rest, [], (List.append_nil _).symm, by simp [length], rfl⟩
  · obtain ⟨before, rest, rfl, length, rfl⟩ := interleave_script.mp complete.ran
    cases rest with
    | nil => rw [← length, List.append_nil]
    | cons instr rest => exact absurd (complete.ended ()) (Option.some_ne_none _)

end Runs

/-! # Crashes -/

section Crashes

variable {act : Actor κ σ α β ε} {script before rest : List κ} {own : σ} {store image : α → β}
variable {model : Persistence π α ε} {schedule : List Unit} {spot : α}

/-- How far the script had come when a place got the value it has after the crash. -/
theorem script_image (length : before.length = schedule.length)
    (crashed : (startScript (before ++ rest) own store).Image model (scriptSteps act) schedule image) (place : π) :
    ∃ reached later, before = reached ++ later ∧
      ¬ model.Settled place (resume act later (runScript act reached own store) store).events ∧
      ∀ spot, model.place spot = place → image spot = overwrite store (runScript act reached own store).writes spot := by
  obtain ⟨earlier, later, middle, now, log, rfl, ranEarlier, ranLater, grown, unsettled, same⟩ := crashed place
  obtain ⟨reached, after, split, lengthEarlier, rfl⟩ := interleave_script.mp ranEarlier
  have shorter : reached <+: before := by
    apply List.prefix_of_prefix_length_le (split ▸ List.prefix_append reached after) (List.prefix_append before rest)
    rw [lengthEarlier, length, List.length_append]
    exact Nat.le_add_right _ _
  obtain ⟨between, rfl⟩ := shorter
  have ran : Pool.interleave (scriptSteps act) (startScript (reached ++ between ++ rest) own store) (earlier ++ later) =
      some (underway act (reached ++ between) rest own store) := interleave_script.mpr ⟨_, rest, rfl, length, rfl⟩
  rw [Pool.interleave_append, ranEarlier, Option.bind_some, ranLater] at ran
  cases ran
  refine ⟨reached, between, rfl, ?_, same⟩
  have events := congrArg (eventsOf ()) grown
  rw [eventsOf_append, underway_events, underway_events, runScript_append] at events
  have unsettledHere := unsettled ()
  rwa [← List.append_cancel_left events] at unsettledHere

/-- All may be as it was at a moment since which the script has settled nothing. -/
theorem script_image_at {done part : List κ} (length : (done ++ part).length = schedule.length)
    (unsettled : ∀ place, ¬ model.Settled place (resume act part (runScript act done own store) store).events) :
    (startScript (done ++ part ++ rest) own store).Image model (scriptSteps act) schedule
      (overwrite store (runScript act done own store).writes) := by
  intro place
  have short : (schedule.take done.length).length = done.length := by
    rw [List.length_take, ← length, List.length_append]
    omega
  have reached : Pool.interleave (scriptSteps act) (startScript (done ++ part ++ rest) own store) (schedule.take done.length) =
      some (underway act done (part ++ rest) own store) :=
    interleave_script.mpr ⟨done, part ++ rest, List.append_assoc .., short.symm, rfl⟩
  have ran : Pool.interleave (scriptSteps act) (startScript (done ++ part ++ rest) own store) schedule =
      some (underway act (done ++ part) rest own store) := interleave_script.mpr ⟨_, rest, rfl, length, rfl⟩
  have split := (List.take_append_drop done.length schedule).symm
  rw [split, Pool.interleave_append, reached, Option.bind_some] at ran
  refine ⟨_, _, _, _, (resume act part (runScript act done own store) store).events.map fun event => ((), event),
    split, reached, ran, ?_, fun thread => ?_, fun _ _ => rfl⟩
  · simp only [underway, runScript_append, Action.followed, List.map_append]
  · rw [eventsOf_unit]
    exact unsettled place

/-- Nothing need be persistent that the script has not settled. -/
theorem script_image_start (length : before.length = schedule.length)
    (unsettled : ∀ place, ¬ model.Settled place (runScript act before own store).events) :
    (startScript (before ++ rest) own store).Image model (scriptSteps act) schedule store :=
  script_image_at (show ([] ++ before).length = schedule.length from length) unsettled

theorem settled_behind {first after : List κ} {flush : κ} {place : π} (ahead : List κ)
    (flushes : ∃ event ∈ (resume act [flush] (runScript act (first ++ ahead) own store) store).events,
      model.Flushes place event)
    (fenced : ∃ event ∈ (resume act after (runScript act (first ++ ahead ++ [flush]) own store) store).events,
      model.Fences event) :
    model.Settled place (resume act (ahead ++ flush :: after) (runScript act first own store) store).events := by
  obtain ⟨event, member, flushes⟩ := flushes
  obtain ⟨fence, member', fences⟩ := fenced
  obtain ⟨before, middle, split⟩ := List.append_of_mem member
  obtain ⟨middle', last, split'⟩ := List.append_of_mem member'
  have events : (resume act (ahead ++ flush :: after) (runScript act first own store) store).events =
      (resume act ahead (runScript act first own store) store).events ++
        ((resume act [flush] (runScript act (first ++ ahead) own store) store).events ++
          (resume act after (runScript act (first ++ ahead ++ [flush]) own store) store).events) := by
    rw [resume_append, ← runScript_append, ← List.singleton_append, resume_append, ← runScript_append]
    rfl
  refine ⟨(resume act ahead (runScript act first own store) store).events ++ before, event, middle ++ middle', fence,
    last, ?_, flushes, fences⟩
  rw [events, split, split']
  simp

/-- A spot that an instruction has flushed, with a fence behind it and no write
behind it, has its last value. -/
theorem script_settled {first after : List κ} {flush : κ} (length : (first ++ flush :: after).length = schedule.length)
    (crashed : (startScript (first ++ flush :: after ++ rest) own store).Image model (scriptSteps act) schedule image)
    (flushes : ∃ event ∈ (resume act [flush] (runScript act first own store) store).events,
      model.Flushes (model.place spot) event)
    (fenced : ∃ event ∈ (resume act after (runScript act (first ++ [flush]) own store) store).events, model.Fences event)
    (unwritten : (resume act after (runScript act (first ++ [flush]) own store) store).writes spot = none) :
    image spot = overwrite store (runScript act (first ++ flush :: after) own store).writes spot := by
  obtain ⟨reached, later, split, unsettled, same⟩ := script_image length crashed (model.place spot)
  rcases List.append_eq_append_iff.mp split with behind | ahead
  · obtain ⟨passed, rfl, behind⟩ := behind
    cases passed with
    | nil =>
        cases behind
        rw [List.append_nil] at unsettled
        exact absurd (settled_behind [] (by simpa using flushes) (by simpa using fenced)) unsettled
    | cons other passed =>
        obtain ⟨rfl, tail⟩ := List.cons.inj behind
        have whole : first ++ flush :: after = first ++ flush :: passed ++ later := by simp [tail]
        have here : first ++ [flush] ++ passed = first ++ flush :: passed := by simp
        rw [tail, List.append_eq, resume_append, ← runScript_append, here] at unwritten
        rw [same spot rfl, whole, runScript_append (first ++ flush :: passed), overwrite_followed,
          overwrite_untouched (Option.or_eq_none_iff.mp unwritten).1]
  · obtain ⟨ahead, rfl, rfl⟩ := ahead
    exact absurd (settled_behind ahead flushes fenced) unsettled

end Crashes

end RwSep.Execution
