namespace RwSep.Execution

/-! Runs of a step function that may stop with an error.

A run feeds a list of inputs to the step function and collects its outputs.
`Every` and `Guarded` state properties of all steps of a run: the first asks
each step to succeed with a property of its result, the second asks a
condition of each state before its step.
-/

variable {ε σ α β : Type} {step : σ → α → Except ε (β × σ)}
variable {state next final : σ} {input : α} {inputs rest : List α} {output : β} {outputs : List β}

def run (step : σ → α → Except ε (β × σ)) : σ → List α → Except ε (List β × σ)
  | state, [] => .ok ([], state)
  | state, input :: rest =>
      match step state input with
      | .error reason => .error reason
      | .ok (output, next) =>
          match run step next rest with
          | .error reason => .error reason
          | .ok (outputs, final) => .ok (output :: outputs, final)

theorem bind_ok {value : Except ε α} {rest : α → Except ε β} {result : β} :
    value >>= rest = .ok result ↔ ∃ produced, value = .ok produced ∧ rest produced = .ok result := by
  cases value with
  | error reason => simp [bind, Except.bind]
  | ok produced => simp [bind, Except.bind]

theorem run_nil : run step state [] = .ok (outputs, final) ↔ outputs = [] ∧ final = state := by
  simp [run, eq_comm]

theorem run_cons : run step state (input :: rest) = .ok (outputs, final) ↔
    ∃ output next tail, step state input = .ok (output, next) ∧
      run step next rest = .ok (tail, final) ∧ outputs = output :: tail := by
  apply Iff.intro
  · intro ran
    cases stepped : step state input with
    | error reason => simp [run, stepped] at ran
    | ok result =>
        obtain ⟨output, next⟩ := result
        cases remaining : run step next rest with
        | error reason => simp [run, stepped, remaining] at ran
        | ok result =>
            obtain ⟨tail, last⟩ := result
            simp only [run, stepped, remaining, Except.ok.injEq, Prod.mk.injEq] at ran
            obtain ⟨rfl, rfl⟩ := ran
            exact ⟨output, next, tail, rfl, remaining, rfl⟩
  · intro found
    obtain ⟨output, next, tail, stepped, remaining, rfl⟩ := found
    simp only [run, stepped, remaining]

theorem run_preserves (Inv : σ → Prop)
    (keeps : ∀ {state input output next}, Inv state → step state input = .ok (output, next) → Inv next)
    (invariant : Inv state) (ran : run step state inputs = .ok (outputs, final)) : Inv final := by
  induction inputs generalizing state outputs with
  | nil => rw [(run_nil.mp ran).2]; exact invariant
  | cons input rest ih =>
      obtain ⟨output, next, tail, stepped, remaining, rfl⟩ := run_cons.mp ran
      exact ih (keeps invariant stepped) remaining

/-- What holds after a run and is passed back by every step held before the run. -/
theorem run_reflects (Inv Good : σ → Prop)
    (keeps : ∀ {state input output next}, Inv state → step state input = .ok (output, next) → Inv next)
    (back : ∀ {state input output next}, Inv state → step state input = .ok (output, next) →
      Good next → Good state)
    (invariant : Inv state) (ran : run step state inputs = .ok (outputs, final))
    (good : Good final) : Good state := by
  induction inputs generalizing state outputs with
  | nil =>
      rw [(run_nil.mp ran).2] at good
      exact good
  | cons input rest ih =>
      obtain ⟨output, next, tail, stepped, remaining, rfl⟩ := run_cons.mp ran
      exact back invariant stepped (ih (keeps invariant stepped) remaining)

def Every (step : σ → α → Except ε (β × σ)) (Post : σ → α → β → σ → Prop) : σ → List α → Prop
  | _, [] => True
  | state, input :: rest =>
      ∃ output next, step state input = .ok (output, next) ∧ Post state input output next ∧
        Every step Post next rest

def Guarded (step : σ → α → Except ε (β × σ)) (Guard : σ → α → Prop) : σ → List α → Prop
  | _, [] => True
  | state, input :: rest =>
      Guard state input ∧
        ∀ output next, step state input = .ok (output, next) → Guarded step Guard next rest

/-- When, from the invariant, a step succeeds with `Post` exactly under
`Guard`, all steps of a run do so exactly when all of them are guarded. -/
theorem every_iff_guarded (Inv : σ → Prop) {Post : σ → α → β → σ → Prop} {Guard : σ → α → Prop}
    (enough : ∀ {state input}, Inv state → Guard state input →
      ∃ output next, step state input = .ok (output, next) ∧ Post state input output next ∧ Inv next)
    (needed : ∀ {state input output next}, Inv state →
      step state input = .ok (output, next) → Post state input output next → Guard state input)
    (invariant : Inv state) :
    Every step Post state inputs ↔ Guarded step Guard state inputs := by
  induction inputs generalizing state with
  | nil => simp [Every, Guarded]
  | cons input rest ih =>
      apply Iff.intro
      · intro found
        obtain ⟨output, next, stepped, post, remaining⟩ := found
        have guard := needed invariant stepped post
        obtain ⟨output', next', stepped', _, invariant'⟩ := enough invariant guard
        refine ⟨guard, fun output'' next'' stepped'' => ?_⟩
        rw [stepped] at stepped' stepped''
        cases stepped'
        cases stepped''
        exact (ih invariant').mp remaining
      · intro found
        obtain ⟨guard, remaining⟩ := found
        obtain ⟨output, next, stepped, post, invariant'⟩ := enough invariant guard
        exact ⟨output, next, stepped, post, (ih invariant').mpr (remaining output next stepped)⟩

/-- A property that later states pass on to earlier ones holds at the end of a
run exactly when every step keeps it, that is, when every step is guarded. -/
theorem good_iff_guarded (Inv Good : σ → Prop) {Guard : σ → α → Prop}
    (keeps : ∀ {state input output next}, Inv state → step state input = .ok (output, next) → Inv next)
    (back : ∀ {state input output next}, Inv state → step state input = .ok (output, next) →
      Good next → Good state)
    (decides : ∀ {state input output next}, Inv state → Good state →
      step state input = .ok (output, next) → (Good next ↔ Guard state input))
    (invariant : Inv state) (good : Good state)
    (ran : run step state inputs = .ok (outputs, final)) :
    Good final ↔ Guarded step Guard state inputs := by
  induction inputs generalizing state outputs with
  | nil =>
      rw [(run_nil.mp ran).2]
      simp [Guarded, good]
  | cons input rest ih =>
      obtain ⟨output, next, tail, stepped, remaining, rfl⟩ := run_cons.mp ran
      have here := decides invariant good stepped
      have invariant' := keeps invariant stepped
      apply Iff.intro
      · intro goodFinal
        have goodNext : Good next :=
          run_reflects Inv Good keeps back invariant' remaining goodFinal
        refine ⟨here.mp goodNext, fun output' next' stepped' => ?_⟩
        cases stepped.symm.trans stepped'
        exact (ih invariant' goodNext remaining).mp goodFinal
      · intro found
        obtain ⟨guard, guarded⟩ := found
        exact (ih invariant' (here.mpr guard) remaining).mpr (guarded output next stepped)

theorem every_of_keeps (Inv : σ → Prop) {Post : σ → α → β → σ → Prop}
    (keeps : ∀ {state} input, Inv state →
      ∃ output next, step state input = .ok (output, next) ∧ Post state input output next ∧ Inv next)
    (invariant : Inv state) : Every step Post state inputs := by
  induction inputs generalizing state with
  | nil => trivial
  | cons input rest ih =>
      obtain ⟨output, next, stepped, post, invariant'⟩ := keeps input invariant
      exact ⟨output, next, stepped, post, ih invariant'⟩

theorem Every.exists_run {Post : σ → α → β → σ → Prop} (every : Every step Post state inputs) :
    ∃ outputs final, run step state inputs = .ok (outputs, final) := by
  induction inputs generalizing state with
  | nil => exact ⟨[], state, rfl⟩
  | cons input rest ih =>
      obtain ⟨output, next, stepped, _, remaining⟩ := every
      obtain ⟨outputs, final, ran⟩ := ih remaining
      exact ⟨output :: outputs, final, run_cons.mpr ⟨output, next, outputs, stepped, ran, rfl⟩⟩

theorem Every.last {Post : σ → α → β → σ → Prop} (every : Every step Post state (inputs ++ [input]))
    (ran : run step state inputs = .ok (outputs, final)) (stepped : step final input = .ok (output, next)) :
    Post final input output next := by
  induction inputs generalizing state outputs with
  | nil =>
      obtain ⟨output', next', stepped', post, _⟩ := every
      rw [(run_nil.mp ran).2] at stepped ⊢
      cases stepped.symm.trans stepped'
      exact post
  | cons first rest ih =>
      obtain ⟨output', next', stepped', _, remaining⟩ := every
      obtain ⟨given, middle, tail, called, ran, _⟩ := run_cons.mp ran
      cases called.symm.trans stepped'
      exact ih remaining ran

/-- Some states lead from the first to the last, with `R` of each item between two neighbours. -/
def Stepwise (R : α → σ → σ → Prop) : List α → σ → σ → Prop
  | [], before, after => after = before
  | item :: rest, before, after => ∃ middle, R item before middle ∧ Stepwise R rest middle after

end RwSep.Execution
