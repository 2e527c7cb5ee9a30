import RwSep.X86.Code

namespace RwSep.X86

open RwSep.Data RwSep.Execution

/-! Runs in which no access faults.

`Instr.step` says what an instruction does that does not fault.  The machine
stops at an access that is not to sign-extended 57-bit addresses, and at an
aligned vector move to an address that is no multiple of 64.
-/

/-- The sign extension of a 57-bit address. -/
def Canonical (address : Word) : Prop := -2 ^ 56 ≤ address.toInt ∧ address.toInt < 2 ^ 56

instance (address : Word) : Decidable (Canonical address) := inferInstanceAs (Decidable (_ ∧ _))

structure Event.Faultless (event : Event) : Prop where
  aligned : event.Aligned
  canonical : ∀ byte ∈ event.footprint, Canonical byte

def AllFaultless (events : List Event) : Prop := ∀ event ∈ events, event.Faultless

/-- An execution to the end, and all its accesses. -/
structure Runs (code : Code) (before after : State) (events : List Event) : Prop where
  exec : Exec code before after
  traced : after.data.trace = before.data.trace ++ events
  faultless : AllFaultless events

/-- A line that the aligned moves can access. -/
structure Accessible (line : Word) : Prop where
  aligned : 64 ∣ line.toNat
  canonical : Canonical line

instance (line : Word) : Decidable (Accessible line) :=
  decidable_of_iff (64 ∣ line.toNat ∧ Canonical line)
    ⟨fun both => ⟨both.1, both.2⟩, fun accessible => ⟨accessible.aligned, accessible.canonical⟩⟩

variable {code : Code} {before after : State} {events more trace : List Event} {line byte : Word}

theorem Runs.events_eq (runs : Runs code before after events)
    (traced : after.data.trace = before.data.trace ++ trace) : events = trace :=
  List.append_cancel_left (runs.traced.symm.trans traced)

/-- Code that accesses the same memory in every execution runs where it ends and none of that faults. -/
theorem runs_iff (traced : ∀ after, Exec code before after → after.data.trace = before.data.trace ++ trace) :
    (∃ after events, Runs code before after events) ↔ (∃ after, Exec code before after) ∧ AllFaultless trace := by
  apply Iff.intro
  · intro found
    obtain ⟨after, events, runs⟩ := found
    refine ⟨⟨after, runs.exec⟩, ?_⟩
    exact runs.events_eq (traced after runs.exec) ▸ runs.faultless
  · intro both
    obtain ⟨⟨after, ran⟩, faultless⟩ := both
    exact ⟨after, trace, ran, traced after ran, faultless⟩

theorem faultless_append : AllFaultless (events ++ more) ↔ AllFaultless events ∧ AllFaultless more :=
  List.forall_mem_append

theorem faultless_flatMap {α : Type} {items : List α} {events : α → List Event} :
    AllFaultless (items.flatMap events) ↔ ∀ item ∈ items, AllFaultless (events item) := by
  simp only [AllFaultless, List.mem_flatMap, forall_exists_index, and_imp]
  exact ⟨fun all item member event access => all event item member access,
    fun all event item member access => all item member event access⟩

theorem faultless_mfence : AllFaultless [.mfence] := by
  intro event member
  cases List.mem_singleton.mp member
  exact ⟨trivial, fun byte inside => absurd inside (Nat.not_lt_zero _)⟩

/-- Accesses below 2^56. -/
theorem canonical_low {range : Range} (low : range.base.toNat + range.length ≤ 2 ^ 56) :
    ∀ byte ∈ range, Canonical byte := by
  intro byte inside
  have between := (Range.mem_between (by omega)).mp inside
  unfold Canonical
  rw [BitVec.toInt_eq_toNat_of_lt (by omega)]
  omega

/-- Steps forward from one canonical address to the next do not wrap around the address space. -/
theorem canonical_steps {start stride : Word} {count turn : Nat} (forward : 0 ≤ stride.toInt)
    (canonical : ∀ turn < count, Canonical (start + BitVec.ofNat 64 turn * stride)) (bound : turn < count) :
    (start + BitVec.ofNat 64 turn * stride).toInt = start.toInt + turn * stride.toInt := by
  induction turn with
  | zero => simp
  | succ turn ih =>
      have here := ih (Nat.lt_of_succ_lt bound)
      obtain ⟨lower, upper⟩ := canonical turn (Nat.lt_of_succ_lt bound)
      obtain ⟨lower', upper'⟩ := canonical (turn + 1) bound
      have next : start + BitVec.ofNat 64 (turn + 1) * stride = start + BitVec.ofNat 64 turn * stride + stride := by
        rw [BitVec.ofNat_add, BitVec.add_mul, BitVec.one_mul, BitVec.add_assoc]
      have short := BitVec.toInt_lt (x := stride)
      have product : ((turn + 1 : Nat) : Int) * stride.toInt = turn * stride.toInt + stride.toInt := by
        rw [Int.natCast_succ, Int.add_mul, Int.one_mul]
      rw [next] at lower' upper' ⊢
      rw [product, ← Int.add_assoc, ← here]
      generalize start + BitVec.ofNat 64 turn * stride = address at *
      rw [BitVec.toInt_add] at lower' upper' ⊢
      -- A sum that wraps is far below all canonical addresses.
      rw [Int.bmod_def] at lower' upper' ⊢
      omega

theorem canonical_span {start stride : Word} {count turn : Nat} (forward : 0 ≤ stride.toInt)
    (canonical : ∀ turn < count, Canonical (start + BitVec.ofNat 64 turn * stride)) (bound : turn < count) :
    turn * stride.toNat < 2 ^ 57 := by
  have reach := canonical_steps forward canonical bound
  have upper := (canonical turn bound).2
  have lower := (canonical 0 (Nat.zero_lt_of_lt bound)).1
  rw [canonical_steps forward canonical (Nat.zero_lt_of_lt bound)] at lower
  have value := Word.toNat_eq_toInt forward
  have span : (turn : Int) * stride.toInt < 2 ^ 57 := by omega
  rw [← value] at span
  exact_mod_cast span

/-! # Accesses to one line -/

theorem Accessible.covers (accessible : Accessible line) (inside : byte ∈ Range.mk line 64) : Canonical byte := by
  obtain ⟨aligned, lower, upper⟩ := accessible
  have fits : line.toNat + 64 ≤ 2 ^ 64 := by
    have bound := line.isLt
    omega
  have between := (Range.mem_between fits).mp inside
  rw [BitVec.toInt_eq_toNat_cond] at lower upper
  unfold Canonical
  rw [BitVec.toInt_eq_toNat_cond]
  split at lower <;> split <;> omega

/-- Aligned moves to and from a line, and write-backs of it. -/
def AccessesLine (events : Word → List Event) : Prop := ∀ line, AllFaultless (events line) ↔ Accessible line

theorem accessesLine_single {access : Word → Event} (footprint : ∀ line, (access line).footprint = ⟨line, 64⟩)
    (aligned : ∀ line : Word, (access line).Aligned ↔ 64 ∣ line.toNat) : AccessesLine fun line => [access line] := by
  intro line
  apply Iff.intro
  · intro faultless
    have single := faultless _ List.mem_cons_self
    have first : line ∈ (access line).footprint := by
      rw [footprint, Range.mem_iff, BitVec.sub_self]
      exact Nat.succ_pos 63
    exact ⟨(aligned line).mp single.aligned, single.canonical line first⟩
  · intro accessible event member
    cases List.mem_singleton.mp member
    refine ⟨(aligned line).mpr accessible.aligned, fun byte inside => accessible.covers ?_⟩
    rwa [footprint] at inside

theorem accessesLine_ntLoad : AccessesLine fun line => [.ntLoad line] :=
  accessesLine_single (fun _ => rfl) fun _ => Iff.rfl

theorem accessesLine_ntStore : AccessesLine fun line => [.ntStore line] :=
  accessesLine_single (fun _ => rfl) fun _ => Iff.rfl

theorem accessesLine_store : AccessesLine fun line => [.store line 64] :=
  accessesLine_single (fun _ => rfl) fun _ => ⟨fun aligned => aligned rfl, fun whole _ => whole⟩

theorem accessesLine_storeclwb : AccessesLine fun line => [.store line 64, .clwb line] := by
  intro line
  have split : AllFaultless [.store line 64, .clwb line] ↔ Accessible line ∧ AllFaultless [.clwb line] :=
    (show AllFaultless ([.store line 64] ++ [.clwb line]) ↔ _ from faultless_append).trans
      (and_congr_left' (accessesLine_store line))
  rw [split]
  apply Iff.intro
  · exact fun both => both.1
  · intro accessible
    refine ⟨accessible, fun event member => ?_⟩
    cases List.mem_singleton.mp member
    exact ⟨trivial, fun byte inside => accessible.covers (Nat.lt_of_lt_of_le inside (Nat.succ_pos 63))⟩

theorem AccessesLine.lines {events : Word → List Event} (accesses : AccessesLine events) {lines : List Word} :
    AllFaultless (lines.flatMap events) ↔ ∀ line ∈ lines, Accessible line := by
  rw [faultless_flatMap]
  exact forall₂_congr fun line _ => accesses line

end RwSep.X86
