import RwSep.MemAccess.Chasing
import RwSep.X86.Faults

namespace RwSep.MemAccess

open RwSep.Data RwSep.Execution RwSep.X86

/-! `chasing_loadnt` after `chasing_storeclwb`.

The store kernel leaves in each line it touches the position of the next one.
While no pass writes over the lines of another one with other positions, the
load kernel finds the same walk in memory, pass by pass, without the index.
-/

namespace ChaseArgs

def link (args : ChaseArgs) (memory : Memory) (position : Nat) : Nat :=
  (memory.readWord (args.cindex + BitVec.ofNat 64 (8 * position))).toNat

def walk (args : ChaseArgs) (memory : Memory) (turn : Nat) : Nat := (args.link memory)^[turn] 0

def lineAt (args : ChaseArgs) (pass position : Nat) : Word := args.base pass + BitVec.ofNat 64 (64 * position)

def line (args : ChaseArgs) (memory : Memory) (pass turn : Nat) : Word :=
  args.lineAt pass (args.walk memory turn)

def area (args : ChaseArgs) (n pass : Nat) : Range := ⟨args.base pass, 64 * n⟩

/-- An index array of `n` entries below `n`, outside the data. -/
structure Walkable (args : ChaseArgs) (n : Nat) (memory : Memory) : Prop where
  positive : 1 ≤ n
  fits : 64 * n < 2 ^ 64
  below : ∀ position < n, args.link memory position < n
  outside : ∀ pass < turns args.count 1, (Range.mk args.cindex (8 * n)).Disjoint (args.area n pass)

/-- An index array of `n` entries below `n`, outside the data, and passes over
areas that do not run into each other. -/
structure Chaseable (args : ChaseArgs) (n : Nat) (memory : Memory) : Prop where
  positive : 1 ≤ n
  fits : 64 * n < 2 ^ 64
  below : ∀ position < n, args.link memory position < n
  outside : ∀ pass < turns args.count 1, (Range.mk args.cindex (8 * n)).Disjoint (args.area n pass)
  apart : ∀ left < turns args.count 1, ∀ right < turns args.count 1,
    args.area n left = args.area n right ∨ (args.area n left).Disjoint (args.area n right)

end ChaseArgs

/-- The events of the first `turn` accesses of pass `pass`, after all earlier passes. -/
def chaseTrace (accesses : Nat → Nat → List Event) (turns pass turn : Nat) : List Event :=
  ((List.range pass).map fun earlier => (List.range turns).flatMap (accesses earlier)).flatMap (· ++ [.mfence]) ++
    (List.range turn).flatMap (accesses pass)

variable {args : ChaseArgs} {n pass turn position : Nat} {memory : Memory} {accesses : Nat → Nat → List Event}
variable {turns' : Nat}

theorem chaseTrace_turn : chaseTrace accesses turns' pass (turn + 1) =
    chaseTrace accesses turns' pass turn ++ accesses pass turn := by
  simp [chaseTrace, List.range_succ]

theorem chaseTrace_pass : chaseTrace accesses turns' (pass + 1) 0 =
    chaseTrace accesses turns' pass turns' ++ [.mfence] := by
  simp [chaseTrace, List.range_succ]

theorem passes_chaseTrace (accesses : Nat → Nat → List Event) (turns' pass : Nat)
    (unfenced : ∀ pass turn, .mfence ∉ accesses pass turn) :
    passes (chaseTrace accesses turns' pass 0) =
      (List.range pass).map fun earlier => (List.range turns').flatMap (accesses earlier) := by
  rw [chaseTrace, List.range_zero, List.flatMap_nil, List.append_nil]
  apply passes_fenced
  intro block member fence
  obtain ⟨earlier, _, rfl⟩ := List.mem_map.mp member
  obtain ⟨turn, _, inside⟩ := List.mem_flatMap.mp fence
  exact unfenced earlier turn inside

/-! # Where the walk leads -/

namespace ChaseArgs

/-- The areas do not run into each other if all passes use the same one, or
none of them wraps around the address space. -/
theorem areas_apart
    (spaced : args.skip = 0 ∨ 64 * n ≤ args.skip.toNat ∧
      (turns args.count 1 - 1) * args.skip.toNat + 64 * n ≤ 2 ^ 64) :
    ∀ left < turns args.count 1, ∀ right < turns args.count 1,
      args.area n left = args.area n right ∨ (args.area n left).Disjoint (args.area n right) := by
  intro left leftBound right rightBound
  cases spaced with
  | inl still => simp [area, base, still]
  | inr spaced =>
      obtain ⟨wide, room⟩ := spaced
      have ordered : ∀ early late, early < late → late < turns args.count 1 →
          (args.area n early).Disjoint (args.area n late) := by
        intro early late before bound
        have reach : (late - early) * args.skip.toNat ≤ (turns args.count 1 - 1) * args.skip.toNat :=
          Nat.mul_le_mul_right _ (by omega)
        have step : args.skip.toNat ≤ (late - early) * args.skip.toNat :=
          Nat.le_mul_of_pos_left _ (by omega)
        have ahead : args.base late = args.base early + BitVec.ofNat 64 ((late - early) * args.skip.toNat) := by
          have split : late = early + (late - early) := by omega
          rw [base, base]
          nth_rewrite 1 [split]
          rw [BitVec.ofNat_add, BitVec.add_mul, BitVec.ofNat_mul, BitVec.ofNat_toNat, BitVec.setWidth_eq,
            BitVec.add_assoc]
        apply Range.Separate.disjoint
        change 64 * n ≤ (args.base late - args.base early).toNat ∧ 64 * n ≤ (args.base early - args.base late).toNat
        rw [ahead]
        generalize (late - early) * args.skip.toNat = distance at *
        bv_omega
      rcases Nat.lt_trichotomy left right with before | same | after
      · exact .inr (ordered left right before rightBound)
      · exact .inl (by rw [same])
      · exact .inr (ordered right left after leftBound).symm

/-- Passes over canonical areas do not wrap around. -/
theorem areas_apart_canonical (fits : 64 * n < 2 ^ 64) (spaced : args.skip = 0 ∨ 64 * n ≤ args.skip.toInt)
    (canonical : ∀ pass < turns args.count 1, Canonical (args.base pass)) :
    ∀ left < turns args.count 1, ∀ right < turns args.count 1,
      args.area n left = args.area n right ∨ (args.area n left).Disjoint (args.area n right) := by
  apply areas_apart
  cases spaced with
  | inl still => exact .inl still
  | inr wide =>
      right
      have forward : 0 ≤ args.skip.toInt := by omega
      have value := Word.toNat_eq_toInt forward
      have some_turn : 0 < turns args.count 1 := turns_pos
      have last : turns args.count 1 - 1 < turns args.count 1 := Nat.sub_lt some_turn Nat.one_pos
      have span := canonical_span forward canonical last
      refine ⟨by omega, ?_⟩
      rcases Nat.eq_zero_or_pos (turns args.count 1 - 1) with single | several
      · rw [single, Nat.zero_mul]
        omega
      · have step := Nat.le_mul_of_pos_left args.skip.toNat several
        omega

theorem Chaseable.walkable (chaseable : args.Chaseable n memory) : args.Walkable n memory :=
  ⟨chaseable.positive, chaseable.fits, chaseable.below, chaseable.outside⟩

theorem Walkable.walk_lt (walkable : args.Walkable n memory) (turn : Nat) : args.walk memory turn < n := by
  cases turn with
  | zero => exact walkable.positive
  | succ turn =>
      rw [walk, Function.iterate_succ_apply']
      exact walkable.below _ (walkable.walk_lt turn)

theorem walk_succ (turn : Nat) : args.walk memory (turn + 1) = args.link memory (args.walk memory turn) :=
  Function.iterate_succ_apply' ..

/-- An array that holds a successor function leads along its iterates. -/
theorem Walkable.walk_eq {next : Nat → Nat} (walkable : args.Walkable n memory)
    (linked : ∀ position < n, args.link memory position = next position) (turn : Nat) :
    args.walk memory turn = next^[turn] 0 := by
  induction turn with
  -- `rfl` would compare the two successor functions first.
  | zero => rw [walk, Function.iterate_zero_apply, Function.iterate_zero_apply]
  | succ turn ih => rw [walk_succ, linked _ (walkable.walk_lt turn), ih, Function.iterate_succ_apply']

theorem Walkable.line_inside (walkable : args.Walkable n memory) (pass turn : Nat) :
    (Range.mk (args.line memory pass turn) 64).Inside (args.area n pass) := by
  have bound := walkable.walk_lt turn
  exact Range.inside_of_offset (args.area n pass) (by change _ ≤ 64 * n; omega) walkable.fits

theorem Walkable.line_offset (walkable : args.Walkable n memory) (pass turn : Nat) :
    (Range.mk (args.line memory pass turn) 64).offsetIn (args.area n pass) = 64 * args.walk memory turn := by
  have bound := walkable.walk_lt turn
  have fits := walkable.fits
  change (args.base pass + BitVec.ofNat 64 (64 * args.walk memory turn) - args.base pass).toNat = _
  rw [Word.offset_distance _ (by omega)]

/-- Two accesses touch the same line at the same position, or disjoint lines. -/
theorem Chaseable.lines_apart (chaseable : args.Chaseable n memory) {pass' : Nat}
    (bound : pass < turns args.count 1) (bound' : pass' < turns args.count 1) (turn' turn : Nat) :
    args.line memory pass' turn' = args.line memory pass turn ∧ args.walk memory turn' = args.walk memory turn ∨
    (Range.mk (args.line memory pass' turn') 64).Disjoint (Range.mk (args.line memory pass turn) 64) := by
  have inside := chaseable.walkable.line_inside pass turn
  have inside' := chaseable.walkable.line_inside pass' turn'
  have fits : 64 * n ≤ 2 ^ 64 := Nat.le_of_lt chaseable.fits
  cases chaseable.apart pass' bound' pass bound with
  | inl same =>
      have sameBase : args.base pass' = args.base pass := congrArg Range.base same
      by_cases position : args.walk memory turn' = args.walk memory turn
      · rw [line, line, lineAt, lineAt, sameBase, position]
        exact .inl ⟨rfl, rfl⟩
      · right
        have offset := chaseable.walkable.line_offset pass turn
        have offset' := chaseable.walkable.line_offset pass' turn'
        rw [same] at inside' offset'
        rcases Nat.lt_or_gt_of_ne position with lower | higher
        · apply Range.disjoint_of_offsets inside' inside fits
          rw [offset', offset]
          change _ + 64 ≤ _
          omega
        · apply Range.Disjoint.symm
          apply Range.disjoint_of_offsets inside inside' fits
          rw [offset', offset]
          change _ + 64 ≤ _
          omega
  | inr apart => exact .inr (apart.of_inside inside' inside fits fits)

theorem Walkable.entry_inside (walkable : args.Walkable n memory) (bound : position < n) :
    (Range.mk (args.cindex + BitVec.ofNat 64 (8 * position)) 8).Inside ⟨args.cindex, 8 * n⟩ := by
  have fits := walkable.fits
  exact Range.inside_of_offset ⟨args.cindex, 8 * n⟩ (by change _ ≤ 8 * n; omega)
    (by change 8 * n < _; omega)

end ChaseArgs

/-! # The store kernel -/

variable {state : State} {entry line : Word} {trace : List Event} {data : Data}

theorem chased_eval (gpr : Reg → Word) : chased.eval gpr = gpr .r9 + gpr .r12 := by
  simp [chased, Address.eval, Operand.eval]

theorem storeclwb_access (atEntry : args.cindex + state.gpr .r12 * 8 = entry)
    (atLine : state.gpr .r9 + state.gpr .r12 <<< 6 = line) :
    (runBlock (storeclwbAccess args) state).gpr .r12 = state.data.memory.readWord entry ∧
    ∃ stored : Line, stored.low = state.data.memory.readWord entry ∧
      (runBlock (storeclwbAccess args) state).data.memory = state.data.memory.writeLine line stored ∧
      (runBlock (storeclwbAccess args) state).data.trace =
        state.data.trace ++ [.load entry 8, .store line 64, .clwb line] := by
  have loaded : (⟨0, .value args.cindex, .reg .r12, 8⟩ : Address).eval state.gpr = entry := by
    rw [← atEntry]
    simp [Address.eval, Operand.eval]
  let fetched := runBlock [.movqLoad ⟨0, .value args.cindex, .reg .r12, 8⟩ zmm0, .shl 6 .r12] state
  have held : fetched.data.zmm zmm0 = (state.data.zmm zmm0).setLow (state.data.memory.readWord entry) := by
    rw [← loaded]
    simp only [fetched, runBlock_cons, runBlock_nil, Instr.step, State.set_data, State.record, State.setZmm,
      Function.update_self]
  have located : chased.eval fetched.gpr = line := by
    rw [chased_eval, ← atLine]
    rfl
  refine ⟨?_, fetched.data.zmm zmm0, ?_, ?_, ?_⟩
  · change (fetched.data.zmm zmm0).low = _
    rw [held, Line.low_setLow]
  · rw [held, Line.low_setLow]
  · rw [← located]
    rfl
  · rw [← located, ← loaded]
    change (state.data.trace ++ [_] ++ [_]) ++ [_] = _
    rw [List.append_assoc, List.append_assoc]
    rfl

namespace ChaseArgs

def storeEvents (args : ChaseArgs) (memory : Memory) (pass turn : Nat) : List Event :=
  [.load (args.cindex + BitVec.ofNat 64 (8 * args.walk memory turn)) 8, .store (args.line memory pass turn) 64,
    .clwb (args.line memory pass turn)]

end ChaseArgs

theorem shl_position (position : Nat) : BitVec.ofNat 64 position <<< 6 = BitVec.ofNat 64 (64 * position) := by
  apply BitVec.eq_of_toNat_eq
  rw [BitVec.toNat_shiftLeft, Nat.shiftLeft_eq, BitVec.toNat_ofNat, BitVec.toNat_ofNat]
  omega

theorem scale_position (position : Nat) : BitVec.ofNat 64 position * 8 = BitVec.ofNat 64 (8 * position) := by
  rw [Nat.mul_comm, BitVec.ofNat_mul]
  rfl

/-- Before access `turn` of pass `pass`: the index is as it was, and the accesses follow it. -/
structure Visiting (args : ChaseArgs) (n : Nat) (memory : Memory) (trace : List Event) (pass turn : Nat)
    (data : Data) : Prop where
  index : ∀ position < n, args.link data.memory position = args.link memory position
  trace : data.trace = trace ++ chaseTrace (args.storeEvents memory) (turns args.size 64) pass turn

theorem Visiting.access (walkable : args.Walkable n memory) (bound : pass < turns args.count 1)
    (visiting : Visiting args n memory trace pass turn state.data)
    (base : state.gpr .r9 = args.base pass) (position : state.gpr .r12 = BitVec.ofNat 64 (args.walk memory turn)) :
    (runBlock (storeclwbAccess args) state).gpr .r12 = BitVec.ofNat 64 (args.walk memory (turn + 1)) ∧
    Visiting args n memory trace pass (turn + 1) (runBlock (storeclwbAccess args) state).data ∧
    ∃ stored : Line, stored.low.toNat = args.walk memory (turn + 1) ∧
      (runBlock (storeclwbAccess args) state).data.memory =
        state.data.memory.writeLine (args.line memory pass turn) stored := by
  have atEntry : args.cindex + state.gpr .r12 * 8 =
      args.cindex + BitVec.ofNat 64 (8 * args.walk memory turn) := by
    rw [position, scale_position]
  have atLine : state.gpr .r9 + state.gpr .r12 <<< 6 = args.line memory pass turn := by
    rw [base, position, shl_position, ChaseArgs.line, ChaseArgs.lineAt]
  obtain ⟨moved, stored, low, written, traced⟩ := storeclwb_access atEntry atLine
  have next : (state.data.memory.readWord (args.cindex + BitVec.ofNat 64 (8 * args.walk memory turn))).toNat =
      args.walk memory (turn + 1) := by
    rw [ChaseArgs.walk_succ]
    exact visiting.index _ (walkable.walk_lt turn)
  refine ⟨?_, ⟨?_, ?_⟩, stored, ?_, written⟩
  · rw [moved, ← next, BitVec.ofNat_toNat, BitVec.setWidth_eq]
  · intro position bound'
    rw [ChaseArgs.link, written, Memory.readWord_writeLine_disjoint]
    · exact visiting.index position bound'
    · exact (walkable.outside pass bound).of_inside (walkable.entry_inside bound') (walkable.line_inside pass turn)
        (by have := walkable.fits; change 8 * n ≤ _; omega) (Nat.le_of_lt walkable.fits)
  · rw [traced, visiting.trace, chaseTrace_turn, List.append_assoc]
    rfl
  · rw [low, next]

theorem Visiting.fence (visiting : Visiting args n memory trace pass (turns args.size 64) data) :
    Visiting args n memory trace (pass + 1) 0 (fenced data) := by
  refine ⟨visiting.index, ?_⟩
  rw [chaseTrace_pass, ← List.append_assoc, ← visiting.trace]
  rfl

theorem walkable_ends {before : State} (walkable : args.Walkable n before.data.memory) :
    EndsIff (chasingStoreclwb args) before (args.size.toInt + 64 ≤ 2 ^ 63) fun written =>
      Visiting args n before.data.memory before.data.trace (turns args.count 1) 0 written.data := by
  let walk : Nat → Nat → Word := fun _ turn => BitVec.ofNat 64 (args.walk before.data.memory turn)
  refine (chasing_ends walk (chases_storeclwb args) closes_storeclwb (fun _ => rfl)
    (Visiting args n before.data.memory before.data.trace) ?_ (fun _ _ _ visiting => visiting.fence)
    ⟨fun _ _ => rfl, (List.append_nil _).symm⟩).imp fun _ reached => reached.2
  intro pass bound turn _ state base position visiting
  obtain ⟨moved, visiting', _⟩ := visiting.access walkable bound base position
  exact ⟨moved, visiting'⟩

/-- Before access `turn` of pass `pass`, from an initial memory and trace:
every line stored so far leads to the next one. -/
structure Storing (args : ChaseArgs) (n : Nat) (memory : Memory) (trace : List Event) (pass turn : Nat)
    (data : Data) : Prop where
  index : ∀ position < n, args.link data.memory position = args.link memory position
  links : ∀ pass' turn', pass' < pass ∧ turn' < turns args.size 64 ∨ pass' = pass ∧ turn' < turn →
    (data.memory.readWord (args.line memory pass' turn')).toNat = args.walk memory (turn' + 1)
  trace : data.trace = trace ++ chaseTrace (args.storeEvents memory) (turns args.size 64) pass turn

theorem Storing.visiting (storing : Storing args n memory trace pass turn data) :
    Visiting args n memory trace pass turn data :=
  ⟨storing.index, storing.trace⟩

theorem Storing.access (chaseable : args.Chaseable n memory) (bound : pass < turns args.count 1)
    (within : turn < turns args.size 64) (storing : Storing args n memory trace pass turn state.data)
    (base : state.gpr .r9 = args.base pass) (position : state.gpr .r12 = BitVec.ofNat 64 (args.walk memory turn)) :
    (runBlock (storeclwbAccess args) state).gpr .r12 = BitVec.ofNat 64 (args.walk memory (turn + 1)) ∧
    Storing args n memory trace pass (turn + 1) (runBlock (storeclwbAccess args) state).data := by
  obtain ⟨moved, visited, stored, low, written⟩ := storing.visiting.access chaseable.walkable bound base position
  refine ⟨moved, visited.index, ?_, visited.trace⟩
  intro pass' turn' earlier
  have bound' : pass' < turns args.count 1 := by omega
  have before : (pass' < pass ∧ turn' < turns args.size 64 ∨ pass' = pass ∧ turn' < turn) ∨
      pass' = pass ∧ turn' = turn := by omega
  rw [written]
  rcases before with before | now
  · rcases chaseable.lines_apart bound bound' turn' turn with same | apart
    · rw [same.1, Memory.readWord_writeLine, low, ChaseArgs.walk_succ, ChaseArgs.walk_succ, same.2]
    · have shorter : 8 ≤ (Range.mk (args.line memory pass' turn') 64).length := Nat.le_of_ble_eq_true rfl
      rw [Memory.readWord_writeLine_disjoint (apart.shorten shorter)]
      exact storing.links pass' turn' before
  · rw [now.1, now.2, Memory.readWord_writeLine, low]

theorem Storing.fence (storing : Storing args n memory trace pass (turns args.size 64) data) :
    Storing args n memory trace (pass + 1) 0 (fenced data) := by
  have visiting := storing.visiting.fence
  constructor
  · exact visiting.index
  · intro pass' turn' earlier
    exact storing.links pass' turn' (by omega)
  · exact visiting.trace

theorem storeclwb_ends {before : State} (chaseable : args.Chaseable n before.data.memory) :
    EndsIff (chasingStoreclwb args) before (args.size.toInt + 64 ≤ 2 ^ 63) fun written =>
      Storing args n before.data.memory before.data.trace (turns args.count 1) 0 written.data := by
  have fresh : Storing args n before.data.memory before.data.trace 0 0 before.data := by
    constructor
    · exact fun _ _ => rfl
    · intro pass' turn' earlier
      omega
    · exact (List.append_nil _).symm
  let walk : Nat → Nat → Word := fun _ turn => BitVec.ofNat 64 (args.walk before.data.memory turn)
  refine (chasing_ends walk (chases_storeclwb args) closes_storeclwb (fun _ => rfl)
    (Storing args n before.data.memory before.data.trace) ?_ (fun _ _ _ storing => storing.fence)
    fresh).imp fun _ reached => reached.2
  intro pass bound turn within state base position storing
  exact storing.access chaseable bound within base position

/-! # The load kernel -/

namespace ChaseArgs

def loadEvents (args : ChaseArgs) (memory : Memory) (pass turn : Nat) : List Event :=
  [.ntLoad (args.line memory pass turn)]

def Threaded (args : ChaseArgs) (memory threaded : Memory) : Prop :=
  ∀ pass < turns args.count 1, ∀ turn < turns args.size 64,
    (threaded.readWord (args.line memory pass turn)).toNat = args.walk memory (turn + 1)

end ChaseArgs

theorem loadnt_access (atLine : state.gpr .r9 + state.gpr .r12 <<< 6 = line) :
    (runBlock loadntAccess state).gpr .r12 = state.data.memory.readWord line ∧
    (runBlock loadntAccess state).data.memory = state.data.memory ∧
    (runBlock loadntAccess state).data.trace = state.data.trace ++ [.ntLoad line] := by
  let shifted := runBlock [.shl 6 .r12] state
  have located : chased.eval shifted.gpr = line := by
    rw [chased_eval, ← atLine]
    rfl
  refine ⟨?_, rfl, ?_⟩
  · rw [← Memory.low_readLine, ← located]
    change ((shifted.setZmm zmm0 _).data.zmm zmm0).low = _
    rw [State.setZmm_same]
    rfl
  · rw [← located]
    rfl

theorem loadnt_ends {fresh : State} (threaded : args.Threaded memory fresh.data.memory) :
    EndsIff (chasingLoadnt args) fresh (args.size.toInt + 64 ≤ 2 ^ 63) fun read =>
      read.data.trace = fresh.data.trace ++
        chaseTrace (args.loadEvents memory) (turns args.size 64) (turns args.count 1) 0 := by
  let Loading : Nat → Nat → Data → Prop := fun pass turn data =>
    data.memory = fresh.data.memory ∧
    data.trace = fresh.data.trace ++ chaseTrace (args.loadEvents memory) (turns args.size 64) pass turn
  have step : ∀ pass < turns args.count 1, ∀ turn < turns args.size 64, ∀ state : State,
      state.gpr .r9 = args.base pass → state.gpr .r12 = BitVec.ofNat 64 (args.walk memory turn) →
      Loading pass turn state.data →
      (runBlock loadntAccess state).gpr .r12 = BitVec.ofNat 64 (args.walk memory (turn + 1)) ∧
        Loading pass (turn + 1) (runBlock loadntAccess state).data := by
    intro pass bound turn within state base position loading
    obtain ⟨unchanged, traced⟩ := loading
    have atLine : state.gpr .r9 + state.gpr .r12 <<< 6 = args.line memory pass turn := by
      rw [base, position, shl_position, ChaseArgs.line, ChaseArgs.lineAt]
    obtain ⟨moved, unchanged', traced'⟩ := loadnt_access atLine
    refine ⟨?_, unchanged'.trans unchanged, ?_⟩
    · rw [moved, unchanged, ← threaded pass bound turn within, BitVec.ofNat_toNat, BitVec.setWidth_eq]
    · rw [traced', traced, chaseTrace_turn, List.append_assoc]
      rfl
  have close : ∀ pass < turns args.count 1, ∀ data, Loading pass (turns args.size 64) data →
      Loading (pass + 1) 0 (fenced data) := by
    intro pass _ data loading
    refine ⟨loading.1, ?_⟩
    rw [chaseTrace_pass, ← List.append_assoc, ← loading.2]
    rfl
  exact (chasing_ends (fun _ turn => BitVec.ofNat 64 (args.walk memory turn)) chases_loadnt closes_loadnt
    (fun _ => rfl) Loading step close ⟨rfl, (List.append_nil _).symm⟩).imp fun _ reached => reached.2.2

/-- A memory that agrees on the data is threaded too, whatever it holds for the index. -/
theorem Storing.threaded {threaded : Memory} (chaseable : args.Chaseable n memory)
    (storing : Storing args n memory trace (turns args.count 1) 0 data)
    (agrees : ∀ pass < turns args.count 1, ∀ byte ∈ args.area n pass, threaded byte = data.memory byte) :
    args.Threaded memory threaded := by
  intro pass bound turn within
  rw [← storing.links pass turn (.inl ⟨bound, within⟩)]
  congr 1
  apply Memory.readWord_congr
  intro byte inside
  apply agrees pass bound
  apply (chaseable.walkable.line_inside pass turn).mem (Nat.le_of_lt chaseable.fits)
  exact Nat.lt_of_lt_of_le inside (Nat.le_add_right 8 56)

/-! # Both kernels -/

theorem faultless_chaseTrace {count : Nat} : AllFaultless (chaseTrace accesses turns' count 0) ↔
    ∀ pass < count, ∀ turn < turns', AllFaultless (accesses pass turn) := by
  rw [chaseTrace, List.range_zero, List.flatMap_nil, List.append_nil, List.flatMap_map, faultless_flatMap]
  simp only [faultless_append, faultless_flatMap, List.mem_range, and_iff_left faultless_mfence]

theorem faultless_storeEvents : AllFaultless (args.storeEvents memory pass turn) ↔
    (∀ byte ∈ Range.mk (args.cindex + BitVec.ofNat 64 (8 * args.walk memory turn)) 8, Canonical byte) ∧
      Accessible (args.line memory pass turn) := by
  have entry {address : Word} : AllFaultless [.load address 8] ↔ ∀ byte ∈ Range.mk address 8, Canonical byte := by
    apply Iff.intro
    · intro faultless
      exact (faultless _ List.mem_cons_self).canonical
    · intro canonical event member
      cases List.mem_singleton.mp member
      exact ⟨fun whole => absurd whole (by decide), canonical⟩
  have split : AllFaultless ([.load (args.cindex + BitVec.ofNat 64 (8 * args.walk memory turn)) 8] ++
      [.store (args.line memory pass turn) 64, .clwb (args.line memory pass turn)]) ↔ _ := faultless_append
  rw [entry, accessesLine_storeclwb (args.line memory pass turn)] at split
  exact split

/-- The store kernel runs to its end iff there is room above the access size
and no index entry or line on its way faults. -/
theorem storeclwb_runs_iff {before : State} (walkable : args.Walkable n before.data.memory) :
    (∃ written stores, Runs (chasingStoreclwb args) before written stores) ↔ args.size.toInt + 64 ≤ 2 ^ 63 ∧
      ∀ pass < turns args.count 1, ∀ turn < turns args.size 64,
        (∀ byte ∈ Range.mk (args.cindex + BitVec.ofNat 64 (8 * args.walk before.data.memory turn)) 8, Canonical byte) ∧
          Accessible (args.line before.data.memory pass turn) := by
  have ends := walkable_ends walkable
  rw [runs_iff fun written ran => (ends.result ran).trace, ends.ends_iff, faultless_chaseTrace]
  simp only [faultless_storeEvents]

/-- A run that does not fault does not wrap around the address space. -/
theorem ChaseArgs.Walkable.chaseable {before written : State} {stores : List Event} (walkable : args.Walkable n before.data.memory)
    (spaced : args.skip = 0 ∨ 64 * n ≤ args.skip.toInt) (runs : Runs (chasingStoreclwb args) before written stores) :
    args.Chaseable n before.data.memory where
  positive := walkable.positive
  fits := walkable.fits
  below := walkable.below
  outside := walkable.outside
  apart := by
    obtain ⟨_, accessible⟩ := (storeclwb_runs_iff walkable).mp ⟨written, stores, runs⟩
    apply ChaseArgs.areas_apart_canonical walkable.fits spaced
    intro pass bound
    have first := (accessible pass bound 0 turns_pos).2.canonical
    simpa [ChaseArgs.line, ChaseArgs.lineAt, ChaseArgs.walk] using first

theorem storedLines_pass (pass count : Nat) :
    storedLines ((List.range count).flatMap (args.storeEvents memory pass)) =
      (List.range count).map (args.line memory pass) := by
  induction count with
  | zero => rfl
  | succ count ih =>
      rw [List.range_succ, List.flatMap_append, List.map_append, ← ih]
      simp [storedLines, ChaseArgs.storeEvents]

theorem loads_pass (pass count : Nat) : (List.range count).flatMap (args.loadEvents memory pass) =
    ((List.range count).map (args.line memory pass)).map .ntLoad := by
  induction count with
  | zero => rfl
  | succ count ih =>
      rw [List.range_succ, List.flatMap_append, List.map_append, List.map_append, ih]
      rfl

theorem lines_cover {next : Nat → Nat} (chaseable : args.Chaseable n memory) (cycle : SingleCycle next n)
    (linked : ∀ position < n, args.link memory position = next position) (pass : Nat) :
    ((List.range n).map (args.line memory pass)).Perm ((List.range n).map (args.lineAt pass)) := by
  have located : (List.range n).map (args.line memory pass) =
      ((List.range n).map fun turn => next^[turn] 0).map (args.lineAt pass) := by
    rw [List.map_map]
    apply List.map_congr_left
    intro turn _
    rw [ChaseArgs.line, chaseable.walkable.walk_eq linked]
    rfl
  rw [located]
  exact cycle.visits.map _

/-- The load kernel, from any state that agrees with a run of the store kernel on
the data, runs to its end as well, and each of its passes loads the lines that
the same pass stored, in that order.  With an index from `init_chasing_index`
and `n` accesses a pass, these are all `n` lines of its area. -/
theorem chasing_agree {before : State} (walkable : args.Walkable n before.data.memory)
    (spaced : args.skip = 0 ∨ 64 * n ≤ args.skip.toInt) :
    ((∃ written stores, Runs (chasingStoreclwb args) before written stores) ↔ args.size.toInt + 64 ≤ 2 ^ 63 ∧
      ∀ pass < turns args.count 1, ∀ turn < turns args.size 64,
        (∀ byte ∈ Range.mk (args.cindex + BitVec.ofNat 64 (8 * args.walk before.data.memory turn)) 8, Canonical byte) ∧
          Accessible (args.line before.data.memory pass turn)) ∧
    ∀ written stores fresh, Runs (chasingStoreclwb args) before written stores →
      (∀ pass < turns args.count 1, ∀ byte ∈ args.area n pass,
        fresh.data.memory byte = written.data.memory byte) →
      ∃ read loads, Runs (chasingLoadnt args) fresh read loads ∧
        ((passes stores).length : Int) = max 1 args.count.toInt ∧
        passes loads = (passes stores).map (fun pass => (storedLines pass).map .ntLoad) ∧
        ∀ rdrand bound cindex final, cindex.entries.length = n →
          initChasingIndex rdrand bound cindex (BitVec.ofNat 64 n) = .ok (0, final) →
          (∀ position < n, args.link before.data.memory position = final.cindex.next position) →
          args.size.toInt = 64 * n → ∀ pass events, (passes stores)[pass]? = some events →
            (storedLines events).Perm ((List.range n).map (args.lineAt pass)) := by
  refine ⟨storeclwb_runs_iff walkable, fun written stores fresh runs agrees => ?_⟩
  obtain ⟨room, accessible⟩ := (storeclwb_runs_iff walkable).mp ⟨written, stores, runs⟩
  have chaseable := walkable.chaseable spaced runs
  have storing := (storeclwb_ends chaseable).result runs.exec
  obtain ⟨read, ranLoads, traced⟩ := (loadnt_ends (storing.threaded chaseable agrees)).ends room
  have runsLoads : Runs (chasingLoadnt args) fresh read
      (chaseTrace (args.loadEvents before.data.memory) (turns args.size 64) (turns args.count 1) 0) := by
    refine ⟨ranLoads, traced, faultless_chaseTrace.mpr fun pass bound turn within => ?_⟩
    exact (accessesLine_ntLoad _).mpr (accessible pass bound turn within).2
  have storePasses := passes_chaseTrace (args.storeEvents before.data.memory) (turns args.size 64)
    (turns args.count 1) (by simp [ChaseArgs.storeEvents])
  have loadPasses := passes_chaseTrace (args.loadEvents before.data.memory) (turns args.size 64)
    (turns args.count 1) (by simp [ChaseArgs.loadEvents])
  rw [runs.events_eq storing.trace]
  refine ⟨read, _, runsLoads, ?_, ?_, ?_⟩
  · rw [storePasses, List.length_map, List.length_range, turns_one]
  · rw [storePasses, loadPasses, List.map_map]
    apply List.map_congr_left
    intro pass _
    change _ = (storedLines _).map _
    rw [storedLines_pass, loads_pass]
  · intro rdrand bound cindex final length returned linked size pass events here
    have positive := chaseable.positive
    have fits := chaseable.fits
    have value : (BitVec.ofNat 64 n).toNat = n := by
      rw [BitVec.toNat_ofNat, Nat.mod_eq_of_lt (by omega)]
    have cycle := chasingIndex_singleCycle (by rw [value]; exact positive) (by rw [value]; exact length) returned
    have whole : turns args.size 64 = n := by
      rw [turns, size]
      omega
    rw [storePasses, whole, List.getElem?_map] at here
    obtain ⟨index, inRange, rfl⟩ := Option.map_eq_some_iff.mp here
    obtain ⟨bound', at'⟩ := List.getElem?_eq_some_iff.mp inRange
    rw [List.getElem_range] at at'
    rw [← at', storedLines_pass]
    rw [value] at cycle
    exact lines_cover chaseable cycle linked pass

/-- Index 0 → 2 → 1 → 0 in the words at 4096. -/
def indexed : State :=
  { State.blank with
    data := { State.blank.data with memory := fun byte => if byte = 4096 then 2 else if byte = 4112 then 1 else 0 } }

theorem chasing_agree_cycle : ∃ written read stores loads,
    Runs (chasingStoreclwb ⟨65536, 192, 192, 2, 4096⟩) indexed written stores ∧
    Runs (chasingLoadnt ⟨65536, 192, 192, 2, 4096⟩) written read loads ∧
    passes loads = (passes stores).map (fun pass => (storedLines pass).map .ntLoad) ∧
    ∀ pass events, (passes stores)[pass]? = some events → (storedLines events).Perm
      ((List.range 3).map (ChaseArgs.lineAt ⟨65536, 192, 192, 2, 4096⟩ pass)) := by
  have walkable : ChaseArgs.Walkable ⟨65536, 192, 192, 2, 4096⟩ 3 indexed.data.memory := by
    constructor
    · decide
    · decide
    · decide
    · have separate : ∀ pass < 2, (Range.mk 4096 24).Separate
          (ChaseArgs.area ⟨65536, 192, 192, 2, 4096⟩ 3 pass) := by decide
      exact fun pass bound => (separate pass bound).disjoint
  have entries : ∀ turn < 3, (4096 + BitVec.ofNat 64
      (8 * ChaseArgs.walk ⟨65536, 192, 192, 2, 4096⟩ indexed.data.memory turn)).toNat + 8 ≤ 2 ^ 56 := by decide
  have lines : ∀ pass < 2, ∀ turn < 3,
      Accessible (ChaseArgs.line ⟨65536, 192, 192, 2, 4096⟩ indexed.data.memory pass turn) := by decide
  obtain ⟨runsIff, agree⟩ := chasing_agree walkable (.inr (by decide))
  obtain ⟨written, stores, runs⟩ := runsIff.mpr ⟨by decide, fun pass bound turn within =>
    ⟨canonical_low (entries turn within), lines pass bound turn within⟩⟩
  obtain ⟨read, loads, runsLoads, _, same, cover⟩ := agree written stores written runs fun _ _ _ _ => rfl
  have returned : initChasingIndex (fun k => ([⟨true, 2⟩, ⟨true, 1⟩] : List Attempt).getD k ⟨false, 0⟩) 1
      ⟨[7, 7, 7], by decide⟩ 3 = .ok (0, _) := rfl
  exact ⟨written, read, stores, loads, runs, runsLoads, same,
    cover _ _ _ _ rfl returned (by decide) (by decide)⟩

end RwSep.MemAccess
