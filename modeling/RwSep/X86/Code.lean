import RwSep.Execution.Loop
import RwSep.X86.State
import Mathlib.Tactic.NormNum

namespace RwSep.X86

open RwSep.Data RwSep.Execution

/-! Straight-line blocks and the loops that a backward `jl` closes.

Operands are in the order of the source, destination last.  An input operand
`%[...]` of an inline assembly statement is a value: it sits in a register
that the statement does not write.  A step is what an instruction does that
does not fault: the trace keeps the addresses, and `Runs` picks the executions
in which no access faults.
-/

inductive Operand where
  | reg (reg : Reg)
  | value (word : Word)
deriving DecidableEq, Repr

structure Address where
  disp : Word
  base : Operand
  index : Operand
  scale : Word
deriving DecidableEq, Repr

inductive Instr where
  | mov (src : Operand) (dst : Reg)
  | movLoad (src : Address) (dst : Reg)
  | movStore (src : Reg) (dst : Address)
  | xor (src dst : Reg)
  | and (src : Operand) (dst : Reg)
  /-- `and` on the low half of the register, which clears the high half. -/
  | andLow (mask : BitVec 32) (dst : Reg)
  | neg (dst : Reg)
  | add (src : Operand) (dst : Reg)
  | inc (dst : Reg)
  | shl (count : Nat) (dst : Reg)
  | shr (count : Nat) (dst : Reg)
  | lea (src : Address) (dst : Reg)
  /-- `movq` to an `xmm` register, from a general register or from memory. -/
  | movqXmm (src : Operand) (dst : Fin 32)
  | movqLoad (src : Address) (dst : Fin 32)
  | movqGpr (src : Fin 32) (dst : Reg)
  | vmovdqa64 (src : Fin 32) (dst : Address)
  | vmovntdq (src : Fin 32) (dst : Address)
  | vmovntdqa (src : Address) (dst : Fin 32)
  | clwb (line : Address)
  | clflush (line : Address)
  | mfence
  | sfence
deriving DecidableEq, Repr

/-- `loop body bound counter` is `label: body; cmp bound, counter; jl label`. -/
inductive Code where
  | block (instrs : List Instr)
  | seq (first second : Code)
  | loop (body : Code) (bound : Operand) (counter : Reg)

def Code.sequence : List Code → Code
  | [] => .block []
  | first :: rest => .seq first (sequence rest)

/-- The aligned vector moves fault on addresses that are not multiples of 64. -/
def Event.Aligned : Event → Prop
  | .load address size => size = 64 → 64 ∣ address.toNat
  | .store address size => size = 64 → 64 ∣ address.toNat
  | .ntLoad address => 64 ∣ address.toNat
  | .ntStore address => 64 ∣ address.toNat
  | .clwb _ => True
  | .clflush _ => True
  | .mfence => True
  | .sfence => True

instance (event : Event) : Decidable event.Aligned :=
  match event with
  | .load address size => inferInstanceAs (Decidable (size = 64 → 64 ∣ address.toNat))
  | .store address size => inferInstanceAs (Decidable (size = 64 → 64 ∣ address.toNat))
  | .ntLoad address => inferInstanceAs (Decidable (64 ∣ address.toNat))
  | .ntStore address => inferInstanceAs (Decidable (64 ∣ address.toNat))
  | .clwb _ => isTrue trivial
  | .clflush _ => isTrue trivial
  | .mfence => isTrue trivial
  | .sfence => isTrue trivial

def Operand.eval (gpr : Reg → Word) : Operand → Word
  | .reg which => gpr which
  | .value word => word

def Address.eval (gpr : Reg → Word) (address : Address) : Word :=
  address.disp + address.base.eval gpr + address.index.eval gpr * address.scale

def State.setZmm (state : State) (reg : Fin 32) (line : Line) : State :=
  { state with data := { state.data with zmm := Function.update state.data.zmm reg line } }

@[simp] theorem State.setZmm_same {state : State} {reg : Fin 32} {line : Line} :
    (state.setZmm reg line).data.zmm reg = line :=
  Function.update_self ..

def State.record (state : State) (event : Event) : State :=
  { state with data := { state.data with trace := state.data.trace ++ [event] } }

def State.writeWord (state : State) (address word : Word) : State :=
  { state with data := { state.data with memory := state.data.memory.writeWord address word } }

def State.writeLine (state : State) (address : Word) (line : Line) : State :=
  { state with data := { state.data with memory := state.data.memory.writeLine address line } }

def Instr.step (state : State) : Instr → State
  | .mov src dst => state.set dst (src.eval state.gpr)
  | .movLoad src dst =>
      (state.set dst (state.data.memory.readWord (src.eval state.gpr))).record (.load (src.eval state.gpr) 8)
  | .movStore src dst =>
      (state.writeWord (dst.eval state.gpr) (state.gpr src)).record (.store (dst.eval state.gpr) 8)
  | .xor src dst => state.set dst (state.gpr dst ^^^ state.gpr src)
  | .and src dst => state.set dst (state.gpr dst &&& src.eval state.gpr)
  | .andLow mask dst => state.set dst (((state.gpr dst).truncate 32 &&& mask).zeroExtend 64)
  | .neg dst => state.set dst (-state.gpr dst)
  | .add src dst => state.set dst (state.gpr dst + src.eval state.gpr)
  | .inc dst => state.set dst (state.gpr dst + 1)
  | .shl count dst => state.set dst (state.gpr dst <<< count)
  | .shr count dst => state.set dst (state.gpr dst >>> count)
  | .lea src dst => state.set dst (src.eval state.gpr)
  | .movqXmm src dst => state.setZmm dst ((state.data.zmm dst).setLow (src.eval state.gpr))
  | .movqLoad src dst =>
      (state.setZmm dst ((state.data.zmm dst).setLow (state.data.memory.readWord (src.eval state.gpr)))).record
        (.load (src.eval state.gpr) 8)
  | .movqGpr src dst => state.set dst (state.data.zmm src).low
  | .vmovdqa64 src dst =>
      (state.writeLine (dst.eval state.gpr) (state.data.zmm src)).record (.store (dst.eval state.gpr) 64)
  | .vmovntdq src dst =>
      (state.writeLine (dst.eval state.gpr) (state.data.zmm src)).record (.ntStore (dst.eval state.gpr))
  | .vmovntdqa src dst =>
      (state.setZmm dst (state.data.memory.readLine (src.eval state.gpr))).record (.ntLoad (src.eval state.gpr))
  | .clwb line => state.record (.clwb (line.eval state.gpr))
  | .clflush line => state.record (.clflush (line.eval state.gpr))
  | .mfence => state.record .mfence
  | .sfence => state.record .sfence

def runBlock (instrs : List Instr) (state : State) : State := instrs.foldl Instr.step state

/-- The signed comparison that `jl` after `cmp bound, counter` decides on. -/
def State.below (bound : Operand) (counter : Reg) (state : State) : Bool :=
  (state.gpr counter).slt (bound.eval state.gpr)

def Exec : Code → State → State → Prop
  | .block instrs, before, after => runBlock instrs before = after
  | .seq first second, before, after => ∃ middle, Exec first before middle ∧ Exec second middle after
  | .loop body bound counter, before, after =>
      DoWhile (Exec body) (fun state => state.below bound counter = true) before after

/-- Execution with at most `fuel` turns of each loop. -/
def Code.run (fuel : Nat) : Code → State → Option State
  | .block instrs, before => some (runBlock instrs before)
  | .seq first second, before => (first.run fuel before).bind (second.run fuel)
  | .loop body bound counter, before => doWhile (body.run fuel) (State.below bound counter) fuel before

variable {code body : Code} {before after other : State}
variable {limit : Word} {stride : Nat} {counter : Reg}

theorem Code.run_sound {fuel : Nat} (ran : code.run fuel before = some after) : Exec code before after := by
  induction code generalizing before after with
  | block instrs => exact Option.some.inj ran
  | seq first second firstSound secondSound =>
      obtain ⟨middle, ranFirst, ranSecond⟩ := Option.bind_eq_some_iff.mp ran
      exact ⟨middle, firstSound ranFirst, secondSound ranSecond⟩
  | loop body bound counter bodySound => exact doWhile_sound bodySound ran

/-- An execution from the blank state whose accesses are known by computing them. -/
theorem Code.run_blank {fuel : Nat} {events : List Event}
    (ran : (code.run fuel .blank).map (·.data.trace) = some events) :
    ∃ after, Exec code .blank after ∧ after.data.trace = events := by
  obtain ⟨after, ran, traced⟩ := Option.map_eq_some_iff.mp ran
  exact ⟨after, Code.run_sound ran, traced⟩

theorem Exec.unique (left : Exec code before after) (right : Exec code before other) : after = other := by
  induction code generalizing before after other with
  | block instrs => exact left.symm.trans right
  | seq first second firstUnique secondUnique =>
      obtain ⟨middle, leftFirst, leftSecond⟩ := left
      obtain ⟨middle', rightFirst, rightSecond⟩ := right
      cases firstUnique leftFirst rightFirst
      exact secondUnique leftSecond rightSecond
  | loop body bound counter bodyUnique =>
      have functional : ∀ before left right, Exec body before left → Exec body before right → left = right :=
        fun _ _ _ => bodyUnique
      exact DoWhile.unique functional left right

/-- Code that ends exactly under a condition, and what it then leaves. -/
structure EndsIff (code : Code) (before : State) (condition : Prop) (post : State → Prop) : Prop where
  needs : ∀ {after}, Exec code before after → condition
  ends : condition → ∃ after, Exec code before after ∧ post after

namespace EndsIff

variable {condition : Prop} {post weaker : State → Prop}

theorem ends_iff (spec : EndsIff code before condition post) : (∃ after, Exec code before after) ↔ condition := by
  apply Iff.intro
  · intro ended
    obtain ⟨after, ran⟩ := ended
    exact spec.needs ran
  · intro holds
    obtain ⟨after, ran, _⟩ := spec.ends holds
    exact ⟨after, ran⟩

theorem result (spec : EndsIff code before condition post) (ran : Exec code before after) : post after := by
  obtain ⟨other, ran', reached⟩ := spec.ends (spec.needs ran)
  rwa [ran.unique ran']

theorem imp (spec : EndsIff code before condition post) (implied : ∀ after, post after → weaker after) :
    EndsIff code before condition weaker where
  needs := spec.needs
  ends holds := by
    obtain ⟨after, ran, reached⟩ := spec.ends holds
    exact ⟨after, ran, implied after reached⟩

end EndsIff

@[simp] theorem runBlock_nil : runBlock [] before = before := rfl

@[simp] theorem runBlock_cons {instr : Instr} {instrs : List Instr} :
    runBlock (instr :: instrs) before = runBlock instrs (instr.step before) := rfl

theorem exec_block {instrs : List Instr} : Exec (.block instrs) before (runBlock instrs before) := rfl

/-! # Counting loops -/

/-- How often a body runs that adds `stride` to a counter from 0, until the
counter is no longer below `limit`. -/
def turns (limit : Word) (stride : Nat) : Nat := max 1 ((limit.toInt.toNat + stride - 1) / stride)

theorem turns_pos : 0 < turns limit stride := Nat.lt_of_lt_of_le Nat.zero_lt_one (Nat.le_max_left ..)

theorem turns_one (limit : Word) : (turns limit 1 : Int) = max 1 limit.toInt := by
  unfold turns
  omega

theorem turns_positive (positive : 1 ≤ limit.toInt) (wide : 0 < stride) :
    turns limit stride = (limit.toNat + (stride - 1)) / stride := by
  have value : limit.toInt.toNat = limit.toNat := by
    have := Word.toNat_eq_toInt (Int.le_trans Int.one_nonneg positive)
    omega
  have some_turn : 1 ≤ (limit.toNat + (stride - 1)) / stride := (Nat.one_le_div_iff wide).mpr (by omega)
  rw [turns, value, Nat.add_sub_assoc wide, Nat.max_eq_right some_turn]

theorem turns_short (positive : 0 < stride) (small : stride < 2 ^ 63) (room : limit.toInt + stride ≤ 2 ^ 63) :
    stride * turns limit stride < 2 ^ 63 := by
  by_cases single : turns limit stride = 1
  · rw [single]
    omega
  · have several : turns limit stride = (limit.toInt.toNat + stride - 1) / stride := by
      unfold turns at single ⊢
      omega
    have reach := Nat.mul_div_le (limit.toInt.toNat + stride - 1) stride
    rw [several]
    omega

theorem slt_iff_turn_lt {turn : Nat} (positive : 0 < stride) (short : stride * turns limit stride < 2 ^ 63)
    (some_turn : 0 < turn) (bound : turn ≤ turns limit stride) :
    (BitVec.ofNat 64 (stride * turn)).slt limit = true ↔ turn < turns limit stride := by
  have whole : turn < (limit.toInt.toNat + stride - 1) / stride ↔ stride * turn < limit.toInt.toNat := by
    rw [← Nat.succ_le_iff, Nat.le_div_iff_mul_le positive, Nat.succ_mul, Nat.mul_comm stride]
    omega
  have inRange : stride * turn < 2 ^ 63 := Nat.lt_of_le_of_lt (Nat.mul_le_mul_left stride bound) short
  have unsigned : (BitVec.ofNat 64 (stride * turn)).toNat = stride * turn := by
    rw [BitVec.toNat_ofNat, Nat.mod_eq_of_lt (by omega)]
  have value : (BitVec.ofNat 64 (stride * turn)).toInt = (stride * turn : Nat) := by
    rw [BitVec.toInt_eq_toNat_of_lt (by omega), unsigned]
  have long : 0 < stride * turn := Nat.mul_pos positive some_turn
  rw [BitVec.slt_iff_toInt_lt, value]
  unfold turns
  generalize (limit.toInt.toNat + stride - 1) / stride = quotient at whole
  generalize stride * turn = product at *
  omega

theorem exec_counting_short (positive : 0 < stride) (short : stride * turns limit stride < 2 ^ 63)
    (Inv : Nat → State → Prop)
    (counts : ∀ {turn state}, Inv turn state → state.gpr counter = BitVec.ofNat 64 (stride * turn))
    (step : ∀ turn < turns limit stride, ∀ before, Inv turn before →
      ∃ after, Exec body before after ∧ Inv (turn + 1) after)
    (start : Inv 0 before) :
    ∃ after, Exec (.loop body (.value limit) counter) before after ∧ Inv (turns limit stride) after := by
  refine DoWhile.counted Inv turns_pos ?_ start
  intro turn bound before invariant
  obtain ⟨after, ran, invariant'⟩ := step turn bound before invariant
  refine ⟨after, ran, invariant', ?_⟩
  rw [State.below, Operand.eval, counts invariant']
  exact slt_iff_turn_lt positive short (Nat.succ_pos turn) bound

theorem exec_counting (positive : 0 < stride) (small : stride < 2 ^ 63)
    (room : limit.toInt + stride ≤ 2 ^ 63) (Inv : Nat → State → Prop)
    (counts : ∀ {turn state}, Inv turn state → state.gpr counter = BitVec.ofNat 64 (stride * turn))
    (step : ∀ turn < turns limit stride, ∀ before, Inv turn before →
      ∃ after, Exec body before after ∧ Inv (turn + 1) after)
    (start : Inv 0 before) :
    ∃ after, Exec (.loop body (.value limit) counter) before after ∧ Inv (turns limit stride) after :=
  exec_counting_short positive (turns_short positive small room) Inv counts step start

/-- A loop over one block, which steps the counter and leaves all other registers. -/
theorem exec_block_loop {access : List Instr} {effect : Nat → Data → Data} (positive : 0 < stride)
    (small : stride < 2 ^ 63) (room : limit.toInt + stride ≤ 2 ^ 63)
    (counts : ∀ state, (runBlock access state).gpr counter = state.gpr counter + BitVec.ofNat 64 stride)
    (keeps : ∀ state reg, reg ≠ counter → (runBlock access state).gpr reg = state.gpr reg)
    (touches : ∀ turn state, state.gpr counter = BitVec.ofNat 64 (stride * turn) →
      (∀ reg, reg ≠ counter → state.gpr reg = before.gpr reg) →
      (runBlock access state).data = effect turn state.data)
    (zero : before.gpr counter = 0) :
    ∃ after, Exec (.loop (.block access) (.value limit) counter) before after ∧
      (∀ reg, reg ≠ counter → after.gpr reg = before.gpr reg) ∧
      after.data = (List.range (turns limit stride)).foldl (fun data turn => effect turn data) before.data := by
  let Inv : Nat → State → Prop := fun turn after =>
    after.gpr counter = BitVec.ofNat 64 (stride * turn) ∧
    (∀ reg, reg ≠ counter → after.gpr reg = before.gpr reg) ∧
    after.data = (List.range turn).foldl (fun data turn => effect turn data) before.data
  have step : ∀ turn < turns limit stride, ∀ before, Inv turn before →
      ∃ after, Exec (.block access) before after ∧ Inv (turn + 1) after := by
    intro turn _ before invariant
    obtain ⟨counted, kept, touched⟩ := invariant
    refine ⟨runBlock access before, rfl, ?_, fun reg different => ?_, ?_⟩
    · rw [counts, counted, Nat.mul_succ, BitVec.ofNat_add]
    · rw [keeps before reg different, kept reg different]
    · rw [touches turn before counted kept, touched, List.range_succ, List.foldl_append]
      rfl
  obtain ⟨after, ran, invariant⟩ := exec_counting positive small room Inv
    (fun invariant => invariant.1) step ⟨zero, fun _ _ => rfl, rfl⟩
  exact ⟨after, ran, invariant.2.1, invariant.2.2⟩

/-- One whose sums skip all values from `limit` up to 2^63 never ends. -/
theorem exec_counting_diverges (divides : stride ∣ 2 ^ 63) (far : 2 ^ 63 < limit.toInt + stride)
    (Inv : State → Prop) (counts : ∀ {state}, Inv state → stride ∣ (state.gpr counter).toNat)
    (step : ∀ {before after}, Inv before → Exec body before after → Inv after)
    (start : Inv before) : ¬ Exec (.loop body (.value limit) counter) before after := by
  refine DoWhile.diverges Inv ?_ start
  intro before after invariant ran
  have invariant' := step invariant ran
  refine ⟨invariant', ?_⟩
  have unsigned : (stride : Int) ∣ (after.gpr counter).toNat := Int.natCast_dvd_natCast.mpr (counts invariant')
  have half : (stride : Int) ∣ 2 ^ 63 := by exact_mod_cast Int.natCast_dvd_natCast.mpr divides
  have signed : (stride : Int) ∣ (after.gpr counter).toInt := by
    rw [BitVec.toInt_eq_toNat_cond]
    split
    · exact unsigned
    · have double : ((2 ^ 64 : Nat) : Int) = 2 * 2 ^ 63 := by norm_num
      rw [double]
      exact Int.dvd_sub unsigned (Dvd.dvd.mul_left half 2)
  have upper := BitVec.toInt_lt (x := after.gpr counter)
  -- Both the counter and 2^63 are multiples, so there is room for one more stride between them.
  have gap : (after.gpr counter).toInt + stride ≤ 2 ^ 63 := by
    have apart : (stride : Int) ∣ 2 ^ 63 - (after.gpr counter).toInt := Int.dvd_sub half signed
    have reach := Int.le_of_dvd (by omega) apart
    omega
  rw [State.below, Operand.eval, BitVec.slt_iff_toInt_lt]
  omega

end RwSep.X86
