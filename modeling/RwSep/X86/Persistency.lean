import RwSep.X86.Faults

namespace RwSep.X86

open RwSep.Data RwSep.Execution

/-! Which lines a trace of accesses leaves in persistent memory.

A line is durable once a `clwb` or `clflush` of it follows its last store and a
fence follows that.  Rules for the traces of blocks, sequences and loops lead
from what each block leaves to what a whole kernel leaves.
-/

/-- The number of the 64-byte line that holds the byte. -/
def lineOf (address : Word) : Nat := address.toNat / 64

/-- The number of the aligned eight bytes that hold the byte. -/
def wordOf (address : Word) : Nat := address.toNat / 8

namespace Event

def Writes (line : Nat) : Event → Prop
  | .store address size => ∃ byte ∈ Range.mk address size, lineOf byte = line
  | .ntStore address => ∃ byte ∈ Range.mk address 64, lineOf byte = line
  | _ => False

def WritesBack (line : Nat) : Event → Prop
  | .clwb address => lineOf address = line
  | .clflush address => lineOf address = line
  | _ => False

def Fences : Event → Prop
  | .mfence => True
  | .sfence => True
  | _ => False

instance (line : Nat) (event : Event) : Decidable (event.WritesBack line) :=
  match event with
  | .clwb address => inferInstanceAs (Decidable (lineOf address = line))
  | .clflush address => inferInstanceAs (Decidable (lineOf address = line))
  | .load _ _ => isFalse id
  | .ntLoad _ => isFalse id
  | .store _ _ => isFalse id
  | .ntStore _ => isFalse id
  | .mfence => isFalse id
  | .sfence => isFalse id

instance (event : Event) : Decidable event.Fences :=
  match event with
  | .mfence => isTrue trivial
  | .sfence => isTrue trivial
  | .load _ _ => isFalse id
  | .ntLoad _ => isFalse id
  | .store _ _ => isFalse id
  | .ntStore _ => isFalse id
  | .clwb _ => isFalse id
  | .clflush _ => isFalse id

/-- An access elsewhere faults. -/
def Canonical (event : Event) : Prop := X86.Canonical event.footprint.base

instance (event : Event) : Decidable event.Canonical :=
  inferInstanceAs (Decidable (X86.Canonical event.footprint.base))

end Event

def AllAligned (events : List Event) : Prop := ∀ event ∈ events, event.Aligned

def AllCanonical (events : List Event) : Prop := ∀ event ∈ events, event.Canonical

instance (events : List Event) : Decidable (AllAligned events) :=
  inferInstanceAs (Decidable (∀ event ∈ events, event.Aligned))

instance (events : List Event) : Decidable (AllCanonical events) :=
  inferInstanceAs (Decidable (∀ event ∈ events, event.Canonical))

def Written (line : Nat) (events : List Event) : Prop := ∃ event ∈ events, event.Writes line

def Flushed (line : Nat) (events : List Event) : Prop :=
  ∃ before flush after, events = before ++ flush :: after ∧ flush.WritesBack line ∧
    ∀ event ∈ after, ¬ event.Writes line

def Durable (line : Nat) (events : List Event) : Prop :=
  ∃ before fence after, events = before ++ fence :: after ∧ Flushed line before ∧ fence.Fences ∧
    ∀ event ∈ after, ¬ event.Writes line

/-- `Holds` of every written line that is not exempt. -/
def AllWritten (Holds : Nat → List Event → Prop) (exempt : Nat → Prop) (events : List Event) : Prop :=
  ∀ line, ¬ exempt line → Written line events → Holds line events

def Quiet (events : List Event) : Prop := ∀ event ∈ events, ∀ line, ¬ event.Writes line

/-- What was flushed before stays so, and what the events write is flushed by them. -/
def Steady (exempt : Nat → Prop) (events : List Event) : Prop :=
  AllAligned events → ∀ earlier, AllWritten Flushed exempt earlier → AllWritten Flushed exempt (earlier ++ events)

/-- After the events all lines written are durable if those written before were flushed. -/
def Settling (exempt : Nat → Prop) (events : List Event) : Prop :=
  AllAligned events → ∀ earlier, AllWritten Flushed exempt earlier → AllWritten Durable exempt (earlier ++ events)

section Lines

variable {line : Nat} {address : Word} {events more : List Event} {exempt : Nat → Prop}

theorem lineOf_aligned {lane : Nat} (aligned : 64 ∣ address.toNat) (inside : lane < 64) :
    lineOf (address + BitVec.ofNat 64 lane) = lineOf address := by
  rw [lineOf, lineOf, BitVec.toNat_add, BitVec.toNat_ofNat]
  have bound := address.isLt
  omega

theorem wordOf_aligned {lane : Nat} (aligned : 64 ∣ address.toNat) (inside : lane < 64) :
    wordOf (address + BitVec.ofNat 64 lane) = 8 * lineOf address + lane / 8 := by
  rw [wordOf, lineOf, BitVec.toNat_add, BitVec.toNat_ofNat]
  have bound := address.isLt
  omega

theorem writes_aligned (aligned : 64 ∣ address.toNat) :
    (Event.store address 64).Writes line ↔ lineOf address = line := by
  apply Iff.intro
  · intro found
    obtain ⟨byte, inside, same⟩ := found
    have split : byte = address + BitVec.ofNat 64 (byte - address).toNat := by
      rw [BitVec.ofNat_toNat, BitVec.setWidth_eq, BitVec.add_comm, BitVec.sub_add_cancel]
    rw [← same, split, lineOf_aligned aligned inside]
  · intro same
    refine ⟨address, ?_, same⟩
    rw [Range.mem_iff, BitVec.sub_self]
    exact Nat.zero_lt_succ 63

theorem AllAligned.of_append (aligned : AllAligned (events ++ more)) : AllAligned events ∧ AllAligned more :=
  List.forall_mem_append.mp aligned

theorem written_append : Written line (events ++ more) ↔ Written line events ∨ Written line more := by
  simp only [Written, List.mem_append, or_and_right, exists_or]

theorem Quiet.not_written (quiet : Quiet events) : ¬ Written line events := by
  intro found
  obtain ⟨event, member, writes⟩ := found
  exact quiet event member line writes

theorem Flushed.keep (flushed : Flushed line events) (unwritten : ¬ Written line more) :
    Flushed line (events ++ more) := by
  obtain ⟨before, flush, after, rfl, writesBack, unwrittenAfter⟩ := flushed
  refine ⟨before, flush, after ++ more, by simp, writesBack, fun event member writes => ?_⟩
  rcases List.mem_append.mp member with inAfter | inMore
  · exact unwrittenAfter event inAfter writes
  · exact unwritten ⟨event, inMore, writes⟩

theorem Durable.keep (durable : Durable line events) (unwritten : ¬ Written line more) :
    Durable line (events ++ more) := by
  obtain ⟨before, fence, after, rfl, flushed, fences, unwrittenAfter⟩ := durable
  refine ⟨before, fence, after ++ more, by simp, flushed, fences, fun event member writes => ?_⟩
  rcases List.mem_append.mp member with inAfter | inMore
  · exact unwrittenAfter event inAfter writes
  · exact unwritten ⟨event, inMore, writes⟩

theorem Durable.flushed (durable : Durable line events) : Flushed line events := by
  obtain ⟨before, fence, after, rfl, flushed, fences, unwritten⟩ := durable
  apply flushed.keep
  intro found
  obtain ⟨event, member, writes⟩ := found
  rcases List.mem_cons.mp member with rfl | later
  · cases event <;> first | exact fences | exact writes
  · exact unwritten event later writes

theorem Flushed.writesBack (flushed : Flushed line events) : ∃ event ∈ events, event.WritesBack line := by
  obtain ⟨before, flush, after, rfl, writesBack, _⟩ := flushed
  exact ⟨flush, by simp, writesBack⟩

theorem Durable.fences (durable : Durable line events) : ∃ event ∈ events, event.Fences := by
  obtain ⟨before, fence, after, rfl, _, fences, _⟩ := durable
  exact ⟨fence, by simp, fences⟩

theorem AllWritten.flushed (all : AllWritten Durable exempt events) : AllWritten Flushed exempt events :=
  fun line counted written => (all line counted written).flushed

theorem allWritten_nil {Holds : Nat → List Event → Prop} : AllWritten Holds exempt [] := by
  intro line _ written
  obtain ⟨event, member, _⟩ := written
  contradiction

end Lines

/-! # Kinds of traces -/

section Kinds

variable {exempt : Nat → Prop} {events more : List Event} {address : Word} {fence : Event}

theorem Steady.append (first : Steady exempt events) (second : Steady exempt more) :
    Steady exempt (events ++ more) := by
  intro aligned earlier flushed
  rw [← List.append_assoc]
  exact second aligned.of_append.2 _ (first aligned.of_append.1 earlier flushed)

theorem Quiet.steady (quiet : Quiet events) : Steady exempt events := by
  intro _ earlier flushed line counted written
  rcases written_append.mp written with before | now
  · exact (flushed line counted before).keep quiet.not_written
  · exact absurd now quiet.not_written

theorem Steady.settling (steady : Steady exempt events) (settling : Settling exempt more) :
    Settling exempt (events ++ more) := by
  intro aligned earlier flushed
  rw [← List.append_assoc]
  exact settling aligned.of_append.2 _ (steady aligned.of_append.1 earlier flushed)

theorem Settling.steady (settling : Settling exempt events) : Steady exempt events :=
  fun aligned earlier flushed => (settling aligned earlier flushed).flushed

theorem Settling.quiet (settling : Settling exempt events) (quiet : Quiet more) :
    Settling exempt (events ++ more) := by
  intro aligned earlier flushed line counted written
  rw [← List.append_assoc] at written ⊢
  rcases written_append.mp written with before | now
  · exact (settling aligned.of_append.1 earlier flushed line counted before).keep quiet.not_written
  · exact absurd now quiet.not_written

theorem AllWritten.settle (flushed : AllWritten Flushed exempt events) (fences : fence.Fences) :
    AllWritten Durable exempt (events ++ [fence]) := by
  intro line counted written
  rcases written_append.mp written with before | now
  · exact ⟨events, fence, [], rfl, flushed line counted before, fences, by simp⟩
  · obtain ⟨event, member, writes⟩ := now
    rw [List.mem_singleton.mp member] at writes
    cases fence <;> first | exact fences.elim | exact writes.elim

theorem settling_fence (fences : fence.Fences) : Settling exempt [fence] :=
  fun _ _ flushed => flushed.settle fences

/-- Stores of lines, then write-backs of at least these lines. -/
theorem steady_batch {stores flushes : List Word} (covered : ∀ address ∈ stores, address ∈ flushes) :
    Steady exempt (stores.map (.store · 64) ++ flushes.map .clwb) := by
  intro aligned earlier flushed line counted written
  by_cases here : ∃ address ∈ stores, lineOf address = line
  · obtain ⟨address, member, same⟩ := here
    obtain ⟨first, last, split⟩ := List.append_of_mem (covered address member)
    refine ⟨earlier ++ stores.map (.store · 64) ++ first.map .clwb, .clwb address, last.map .clwb, ?_, same, ?_⟩
    · simp [split]
    · intro event member
      obtain ⟨address, _, rfl⟩ := List.mem_map.mp member
      exact id
  · have unwritten : ¬ Written line (stores.map (.store · 64) ++ flushes.map .clwb) := by
      intro found
      obtain ⟨event, member, writes⟩ := found
      rcases List.mem_append.mp member with stored | flush
      · obtain ⟨address, inStores, rfl⟩ := List.mem_map.mp stored
        exact here ⟨address, inStores, (writes_aligned (aligned _ member rfl)).mp writes⟩
      · obtain ⟨address, _, rfl⟩ := List.mem_map.mp flush
        exact writes
    exact (flushed line counted ((written_append.mp written).resolve_right unwritten)).keep unwritten

theorem steady_storeclwb : Steady exempt [.store address 64, .clwb address] := by
  have covered : ∀ other ∈ [address], other ∈ [address] := fun _ member => member
  exact steady_batch covered

/-- Stores to exempt lines only. -/
theorem steady_exempt (inside : ∀ line, Written line events → exempt line) : Steady exempt events := by
  intro _ earlier flushed line counted written
  have unwritten : ¬ Written line events := fun found => counted (inside line found)
  exact (flushed line counted ((written_append.mp written).resolve_right unwritten)).keep unwritten

end Kinds

/-! # Traces of code -/

/-- Every execution appends events of the given kind. -/
def Emits (code : Code) (Kind : List Event → Prop) : Prop :=
  ∀ before after, Exec code before after →
    ∃ events, after.data.trace = before.data.trace ++ events ∧ Kind events

section Emits

variable {code first second body : Code} {Kind Kind' Kind'' : List Event → Prop} {instrs : List Instr}
variable {bound : Operand} {counter : Reg} {exempt : Nat → Prop}

theorem emits_block
    (leaves : ∀ state, ∃ events, (runBlock instrs state).data.trace = state.data.trace ++ events ∧ Kind events) :
    Emits (.block instrs) Kind := by
  intro before after ran
  cases ran
  exact leaves before

theorem Emits.block_append {instrs' : List Instr} (emits : Emits (.block instrs) Kind)
    (emits' : Emits (.block instrs') Kind')
    (join : ∀ {events more}, Kind events → Kind' more → Kind'' (events ++ more)) :
    Emits (.block (instrs ++ instrs')) Kind'' := by
  apply emits_block
  intro state
  obtain ⟨events, traced, kind⟩ := emits state _ exec_block
  obtain ⟨more, traced', kind'⟩ := emits' (runBlock instrs state) _ exec_block
  refine ⟨events ++ more, ?_, join kind kind'⟩
  rw [runBlock, List.foldl_append]
  exact traced'.trans (by rw [traced, List.append_assoc])

theorem Emits.seq (emits : Emits first Kind) (emits' : Emits second Kind')
    (join : ∀ {events more}, Kind events → Kind' more → Kind'' (events ++ more)) :
    Emits (.seq first second) Kind'' := by
  intro before after ran
  obtain ⟨middle, ranFirst, ranSecond⟩ := ran
  obtain ⟨events, traced, kind⟩ := emits _ _ ranFirst
  obtain ⟨more, traced', kind'⟩ := emits' _ _ ranSecond
  exact ⟨events ++ more, by rw [traced', traced, List.append_assoc], join kind kind'⟩

theorem Emits.loop (emits : Emits body Kind)
    (join : ∀ {events more}, Kind events → Kind more → Kind (events ++ more)) :
    Emits (.loop body bound counter) Kind := by
  intro before after ran
  induction ran with
  | leave ran done => exact emits _ _ ran
  | turn ran more rest ih =>
      obtain ⟨events, traced, kind⟩ := emits _ _ ran
      obtain ⟨later, traced', kind'⟩ := ih
      exact ⟨events ++ later, by rw [traced', traced, List.append_assoc], join kind kind'⟩

theorem Emits.imp (emits : Emits code Kind) (weaken : ∀ {events}, Kind events → Kind' events) : Emits code Kind' := by
  intro before after ran
  obtain ⟨events, traced, kind⟩ := emits _ _ ran
  exact ⟨events, traced, weaken kind⟩

theorem Emits.events {before after : State} {events : List Event} (emits : Emits code Kind)
    (ran : Exec code before after) (traced : after.data.trace = before.data.trace ++ events) : Kind events := by
  obtain ⟨events', traced', kind⟩ := emits before after ran
  rwa [List.append_cancel_left (traced.symm.trans traced')]

theorem Emits.steady_loop (emits : Emits body (Steady exempt)) :
    Emits (.loop body bound counter) (Steady exempt) := emits.loop Steady.append

/-- Each turn settles what the turns before it have flushed. -/
theorem Emits.settling_loop (emits : Emits body (Settling exempt)) :
    Emits (.loop body bound counter) (Settling exempt) :=
  emits.loop fun first second => first.steady.settling second

theorem quiet_append {events more : List Event} (first : Quiet events) (second : Quiet more) :
    Quiet (events ++ more) := List.forall_mem_append.mpr ⟨first, second⟩

theorem Emits.quiet_loop (emits : Emits body Quiet) : Emits (.loop body bound counter) Quiet :=
  emits.loop quiet_append

/-- Write-backs, the fence after them, and no stores after that. -/
theorem Emits.settled (emits : Emits first (Steady exempt)) (settles : Emits second (Settling exempt)) :
    Emits (.seq first second) (Settling exempt) := emits.seq settles Steady.settling

theorem Emits.settled_quiet (settles : Emits first (Settling exempt)) (quiet : Emits second Quiet) :
    Emits (.seq first second) (Settling exempt) := settles.seq quiet Settling.quiet

theorem Emits.quiet_seq (emits : Emits first Quiet) (emits' : Emits second Quiet) : Emits (.seq first second) Quiet :=
  emits.seq emits' quiet_append

theorem Emits.quiet_steady (emits : Emits code Quiet) : Emits code (Steady exempt) := emits.imp Quiet.steady

theorem emits_nothing : Emits (.block []) Quiet := emits_block fun _ =>
  ⟨[], (List.append_nil _).symm, fun _ member => absurd member List.not_mem_nil⟩

theorem emits_quiet (untraced : ∀ state, (runBlock instrs state).data.trace = state.data.trace) :
    Emits (.block instrs) Quiet :=
  emits_block fun state => ⟨[], by simp [untraced], fun _ member => absurd member List.not_mem_nil⟩

end Emits

end RwSep.X86
