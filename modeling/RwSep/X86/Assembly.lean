import RwSep.X86.Code

namespace RwSep.X86

open RwSep.Execution

/-! The text of code: its instructions in a row, the `cmp` and `jl` of each loop
behind its body.  A machine that moves from line to line of the text does
exactly what the code does.
-/

inductive Asm where
  | instr (instr : Instr)
  /-- `cmp bound, counter`, and a `jl` to the line so many lines before it. -/
  | jl (back : Nat) (bound : Operand) (counter : Reg)
deriving DecidableEq, Repr

def Code.text : Code → List Asm
  | .block instrs => instrs.map .instr
  | .seq first second => first.text ++ second.text
  | .loop body bound counter => body.text ++ [.jl body.text.length bound counter]

structure Machine where
  pc : Nat
  state : State

def Asm.step (machine : Machine) : Asm → Machine
  | .instr single => ⟨machine.pc + 1, single.step machine.state⟩
  | .jl back bound counter =>
      ⟨if machine.state.below bound counter then machine.pc - back else machine.pc + 1, machine.state⟩

namespace Machine

/-- It has ended when it is at no line of the text. -/
def step (text : List Asm) (machine : Machine) : Option Machine := text[machine.pc]?.map (Asm.step machine)

def steps (text : List Asm) : Nat → Machine → Option Machine
  | 0, machine => some machine
  | count + 1, machine => (machine.step text).bind (steps text count)

end Machine

/-- The text has this part from the line `base` on. -/
def Placed (text : List Asm) (base : Nat) (part : List Asm) : Prop :=
  ∀ line < part.length, text[base + line]? = part[line]?

variable {text part more : List Asm} {base count later : Nat} {machine middle : Machine} {asm : Asm}
variable {code body : Code} {before after : State} {bound : Operand} {counter : Reg}

theorem placed_self (text : List Asm) : Placed text 0 text := by
  intro line _
  rw [Nat.zero_add]

theorem Placed.append (placed : Placed text base (part ++ more)) :
    Placed text base part ∧ Placed text (base + part.length) more := by
  apply And.intro
  · intro line inside
    rw [placed line (by rw [List.length_append]; omega), List.getElem?_append_left inside]
  · intro line inside
    rw [Nat.add_assoc, placed _ (by rw [List.length_append]; omega), List.getElem?_append_right (by omega),
      Nat.add_sub_cancel_left]

theorem Placed.head (placed : Placed text base (asm :: part)) : text[base]? = some asm :=
  placed 0 (Nat.succ_pos _)

theorem Placed.tail (placed : Placed text base (asm :: part)) : Placed text (base + 1) part := by
  have parts : Placed text base ([asm] ++ part) := placed
  exact parts.append.2

namespace Machine

theorem steps_succ (found : text[machine.pc]? = some asm) :
    steps text (count + 1) machine = steps text count (asm.step machine) := by
  rw [steps, step, found, Option.map_some, Option.bind_some]

theorem steps_add : steps text (count + later) machine = (steps text count machine).bind (steps text later) := by
  induction count generalizing machine with
  | zero => rw [Nat.zero_add, steps, Option.bind_some]
  | succ count ih =>
      rw [Nat.add_right_comm, steps, steps, Option.bind_assoc]
      apply congrArg
      funext next
      exact ih

theorem steps_trans {last : Machine} (first : steps text count machine = some middle)
    (second : steps text later middle = some last) : steps text (count + later) machine = some last := by
  rw [steps_add, first, Option.bind_some, second]

theorem steps_ended (ended : text[machine.pc]? = none) (ran : steps text count machine = some middle) :
    count = 0 ∧ middle = machine := by
  cases count with
  | zero => exact ⟨rfl, (Option.some.inj ran).symm⟩
  | succ count =>
      rw [steps, step, ended] at ran
      contradiction

end Machine

/-! # From code to text -/

theorem block_steps (instrs : List Instr) (before : State) (placed : Placed text base (Code.block instrs).text) :
    Machine.steps text instrs.length ⟨base, before⟩ = some ⟨base + instrs.length, runBlock instrs before⟩ := by
  induction instrs generalizing base before with
  | nil => rfl
  | cons instr rest ih =>
      rw [List.length_cons, Machine.steps_succ placed.head, runBlock_cons, Nat.add_comm rest.length 1, ← Nat.add_assoc]
      exact ih (instr.step before) placed.tail

theorem loop_jump (placed : Placed text base (Code.loop body bound counter).text) :
    text[base + body.text.length]? = some (.jl body.text.length bound counter) :=
  placed.append.2.head

/-- What the code does, the machine does on its text, wherever the text has it. -/
theorem Exec.steps (ran : Exec code before after) (placed : Placed text base code.text) :
    ∃ count, Machine.steps text count ⟨base, before⟩ = some ⟨base + code.text.length, after⟩ := by
  induction code generalizing base before after with
  | block instrs =>
      cases ran
      refine ⟨instrs.length, ?_⟩
      rw [block_steps instrs before placed, Code.text, List.length_map]
  | seq first second firstSteps secondSteps =>
      obtain ⟨middle, ranFirst, ranSecond⟩ := ran
      obtain ⟨count, there⟩ := firstSteps ranFirst placed.append.1
      obtain ⟨later, back⟩ := secondSteps ranSecond placed.append.2
      refine ⟨count + later, ?_⟩
      rw [Machine.steps_trans there back, Code.text, List.length_append, Nat.add_assoc]
  | loop body bound counter bodySteps =>
      have jump := loop_jump placed
      rw [Code.text, List.length_append, List.length_singleton, ← Nat.add_assoc]
      induction ran with
      | leave ran done =>
          obtain ⟨count, there⟩ := bodySteps ran placed.append.1
          refine ⟨count + 1, Machine.steps_trans there ?_⟩
          rw [Machine.steps_succ jump, Asm.step, if_neg done]
          rfl
      | turn ran again rest ih =>
          obtain ⟨count, there⟩ := bodySteps ran placed.append.1
          obtain ⟨later, onwards⟩ := ih
          refine ⟨count + (later + 1), Machine.steps_trans there ?_⟩
          rw [Machine.steps_succ jump, Asm.step, if_pos again, Nat.add_sub_cancel, onwards]

/-! # From text to code -/

/-- How a machine has left a part of the text: it did what the code does, came
to the line behind the part, and went on from there. -/
def Passed (text : List Asm) (code : Code) (base count : Nat) (before : State) (machine : Machine) : Prop :=
  ∃ first later after, count = first + later ∧ Exec code before after ∧
    Machine.steps text first ⟨base, before⟩ = some ⟨base + code.text.length, after⟩ ∧
    Machine.steps text later ⟨base + code.text.length, after⟩ = some machine

def Outside (machine : Machine) (base length : Nat) : Prop := machine.pc < base ∨ base + length ≤ machine.pc

theorem steps_pos {length : Nat} (outside : Outside machine base length) (long : 0 < length)
    (ran : Machine.steps text count ⟨base, before⟩ = some machine) : ∃ later, count = later + 1 := by
  cases count with
  | zero =>
      cases ran
      simp only [Outside] at outside
      omega
  | succ later => exact ⟨later, rfl⟩

theorem block_passed {instrs : List Instr} (placed : Placed text base (Code.block instrs).text)
    (ran : Machine.steps text count ⟨base, before⟩ = some machine) (outside : Outside machine base instrs.length) :
    Passed text (.block instrs) base count before machine := by
  have there := block_steps instrs before placed
  have length : (Code.block instrs).text.length = instrs.length := List.length_map ..
  have enough : instrs.length ≤ count := by
    clear there length
    induction instrs generalizing base count before with
    | nil => exact Nat.zero_le count
    | cons instr rest ih =>
        obtain ⟨later, rfl⟩ := steps_pos outside (Nat.succ_pos _) ran
        rw [Machine.steps_succ placed.head] at ran
        apply Nat.succ_le_succ
        apply ih placed.tail ran
        unfold Outside at outside ⊢
        rw [List.length_cons] at outside
        omega
  obtain ⟨later, rfl⟩ := Nat.exists_eq_add_of_le enough
  rw [Machine.steps_add, there, Option.bind_some] at ran
  exact ⟨instrs.length, later, _, rfl, exec_block, by rw [length]; exact there, by rw [length]; exact ran⟩

theorem loop_passed (placed : Placed text base (Code.loop body bound counter).text)
    (passes : ∀ {count before machine}, Machine.steps text count ⟨base, before⟩ = some machine →
      Outside machine base body.text.length → Passed text body base count before machine)
    (ran : Machine.steps text count ⟨base, before⟩ = some machine)
    (outside : Outside machine base (Code.loop body bound counter).text.length) :
    Passed text (.loop body bound counter) base count before machine := by
  have jump := loop_jump placed
  have length : (Code.loop body bound counter).text.length = body.text.length + 1 := List.length_append
  induction count using Nat.strongRecOn generalizing before with
  | _ count ih =>
      have outsideBody : Outside machine base body.text.length := by
        unfold Outside at outside ⊢
        omega
      obtain ⟨first, later, middle, rfl, ranBody, there, onwards⟩ := passes ran outsideBody
      have behind : Outside machine (base + body.text.length) 1 := by
        unfold Outside at outside ⊢
        rw [length] at outside
        omega
      obtain ⟨last, rfl⟩ := steps_pos behind Nat.one_pos onwards
      rw [Machine.steps_succ jump, Asm.step] at onwards
      by_cases again : middle.below bound counter = true
      · rw [if_pos again, Nat.add_sub_cancel] at onwards
        obtain ⟨first', later', after, same, ranLoop, there', onwards'⟩ := ih last (by omega) onwards
        refine ⟨first + (first' + 1), later', after, by omega, .turn ranBody again ranLoop, ?_, onwards'⟩
        apply Machine.steps_trans there
        rw [Machine.steps_succ jump, Asm.step, if_pos again, Nat.add_sub_cancel]
        exact there'
      · rw [if_neg again] at onwards
        refine ⟨first + 1, last, middle, by omega, .leave ranBody again, ?_, ?_⟩
        · apply Machine.steps_trans there
          rw [Machine.steps_succ jump, Asm.step, if_neg again, length]
          rfl
        · rw [length]
          exact onwards

theorem passed (placed : Placed text base code.text) (ran : Machine.steps text count ⟨base, before⟩ = some machine)
    (outside : Outside machine base code.text.length) : Passed text code base count before machine := by
  induction code generalizing base count before machine with
  | block instrs =>
      rw [Code.text, List.length_map] at outside
      exact block_passed placed ran outside
  | seq first second firstPassed secondPassed =>
      have length : (Code.seq first second).text.length = first.text.length + second.text.length := List.length_append
      rw [length] at outside
      have outsideFirst : Outside machine base first.text.length := by
        unfold Outside at outside ⊢
        omega
      obtain ⟨count, later, middle, rfl, ranFirst, there, onwards⟩ := firstPassed placed.append.1 ran outsideFirst
      have outsideSecond : Outside machine (base + first.text.length) second.text.length := by
        unfold Outside at outside ⊢
        omega
      obtain ⟨count', later', after, rfl, ranSecond, there', onwards'⟩ :=
        secondPassed placed.append.2 onwards outsideSecond
      rw [Nat.add_assoc] at there' onwards'
      refine ⟨count + count', later', after, by omega, ⟨middle, ranFirst, ranSecond⟩, ?_, ?_⟩
      · rw [length]
        exact Machine.steps_trans there there'
      · rw [length]
        exact onwards'
  | loop body bound counter bodyPassed =>
      exact loop_passed placed (fun ran outside => bodyPassed placed.append.1 ran outside) ran outside

/-- Code and its text do the same. -/
theorem exec_iff_text : Exec code before after ↔
    ∃ count, Machine.steps code.text count ⟨0, before⟩ = some ⟨code.text.length, after⟩ := by
  apply Iff.intro
  · intro ran
    obtain ⟨count, there⟩ := ran.steps (placed_self code.text)
    rw [Nat.zero_add] at there
    exact ⟨count, there⟩
  · intro found
    obtain ⟨count, ran⟩ := found
    have outside : Outside ⟨code.text.length, after⟩ 0 code.text.length := .inr (by simp)
    obtain ⟨first, later, other, _, ranCode, _, onwards⟩ := passed (placed_self code.text) ran outside
    rw [Nat.zero_add] at onwards
    obtain ⟨_, same⟩ := Machine.steps_ended (by simp) onwards
    cases same
    exact ranCode

end RwSep.X86
