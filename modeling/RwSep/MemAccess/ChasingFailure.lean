import RwSep.MemAccess.ChaseAgreement
import RwSep.MemAccess.ChasingTermination

namespace RwSep.MemAccess

open RwSep.Data RwSep.Execution RwSep.X86

/-! What `init_chasing_index` leaves in the array when the random source fails. -/

/-- After some assignments: a cycle through one position more, and 0 everywhere else. -/
structure HalfBuilt (csize : Word) (cindex : Cindex) (assigned : Nat) : Prop where
  cycle : ShortCycle cindex.next (assigned + 1)
  length : cindex.entries.length = csize.toNat
  below : ∀ entry ∈ cindex.entries, entry.toNat < csize.toNat

/-- A kernel's memory holds this array at `cindex`, apart from the lines that its entries number. -/
structure ChaseArgs.Indexes (args : ChaseArgs) (cindex : Cindex) (memory : Memory) : Prop where
  fits : 64 * cindex.entries.length < 2 ^ 64
  holds : ∀ position entry, cindex.entries[position]? = some entry →
    memory.readWord (args.cindex + BitVec.ofNat 64 (8 * position)) = entry
  outside : ∀ pass < turns args.count 1,
    (Range.mk args.cindex (8 * cindex.entries.length)).Disjoint (args.area cindex.entries.length pass)

variable {rdrand : Rdrand} {bound turns' assigned : Nat} {cindex : Cindex} {csize : Word} {progress final : Progress}
variable {path : List Nat} {args : ChaseArgs} {memory : Memory}

/-- A run that fails has kept the path of the assignments made before. -/
theorem linkPositions_halted (linked : Linked csize progress path)
    (returned : linkPositions rdrand bound csize turns' progress = .ok (1, final)) :
    (acceptedPositions rdrand bound csize turns' progress).length < turns' ∧
      ∃ path', path'.length = path.length + (acceptedPositions rdrand bound csize turns' progress).length ∧
        Linked csize final path' := by
  induction turns' generalizing progress path with
  | zero => cases returned
  | succ turns' ih =>
      cases drawn : drawNext rdrand progress.cindex csize progress.currPos bound progress.nextPos progress.used with
      | error reason =>
          rw [(linkPositions_error progress drawn).1] at returned
          contradiction
      | ok draw =>
          by_cases success : draw.ret = 0
          · obtain ⟨after, stored⟩ := linked.stores draw.rd
            rw [linkPositions_turn drawn success stored] at returned
            obtain ⟨early, path', length, linked'⟩ := ih (linked.extend drawn success stored) returned
            rw [acceptedPositions_turn drawn success stored, List.length_cons]
            refine ⟨Nat.succ_lt_succ early, path', ?_, linked'⟩
            rw [length, List.length_cons]
            omega
          · rw [(linkPositions_failed progress drawn success).1] at returned
            cases returned
            rw [(linkPositions_failed progress drawn success).2]
            exact ⟨Nat.succ_pos turns', path, rfl, linked.length, linked.chain, linked.below⟩

theorem Linked.halfBuilt (linked : Linked csize progress path) : HalfBuilt csize progress.cindex path.length := by
  refine ⟨linked.chain.shortCycle, linked.length, fun entry member => ?_⟩
  obtain ⟨position, found⟩ := List.mem_iff_getElem?.mp member
  have here : progress.cindex.next position = entry.toNat := by
    rw [Cindex.next, found]
    rfl
  rw [← here]
  exact linked.below _ (linked.chain.next_mem position)

/-! # A chase over the array -/

theorem ChaseArgs.Indexes.linked (indexes : args.Indexes cindex memory) {position : Nat}
    (bound : position < cindex.entries.length) : args.link memory position = cindex.next position := by
  have found := List.getElem?_eq_getElem bound
  rw [ChaseArgs.link, indexes.holds position _ found, Cindex.next, found]
  rfl

theorem HalfBuilt.walkable (halfBuilt : HalfBuilt csize cindex assigned) (indexes : args.Indexes cindex memory)
    (positive : 1 ≤ csize.toNat) : args.Walkable csize.toNat memory := by
  have fits := indexes.fits
  have outside := indexes.outside
  rw [halfBuilt.length] at fits outside
  refine ⟨positive, fits, fun position bound => ?_, outside⟩
  rw [← halfBuilt.length] at bound
  rw [indexes.linked bound, Cindex.next, List.getElem?_eq_getElem bound]
  exact halfBuilt.below _ (List.getElem_mem bound)

/-- A pass over the array visits the lines of its cycle only. -/
theorem HalfBuilt.lines_card (halfBuilt : HalfBuilt csize cindex assigned) (indexes : args.Indexes cindex memory)
    (positive : 1 ≤ csize.toNat) (pass : Nat) : (Set.range (args.line memory pass)).ncard = assigned + 1 := by
  have walkable := halfBuilt.walkable indexes positive
  have linked : ∀ position < csize.toNat, args.link memory position = cindex.next position := by
    intro position bound
    rw [← halfBuilt.length] at bound
    exact indexes.linked bound
  have walked : args.walk memory = fun turn => cindex.next^[turn] 0 := funext (walkable.walk_eq linked)
  have image : Set.range (args.line memory pass) = args.lineAt pass '' Set.range (args.walk memory) :=
    Set.range_comp (args.lineAt pass) (args.walk memory)
  have injective : Set.InjOn (args.lineAt pass) (Set.range (args.walk memory)) := by
    intro left inLeft right inRight same
    obtain ⟨turn, rfl⟩ := inLeft
    obtain ⟨turn', rfl⟩ := inRight
    have fits := walkable.fits
    have bound := walkable.walk_lt turn
    have bound' := walkable.walk_lt turn'
    have distance := congrArg (fun line : Word => (line - args.base pass).toNat) same
    simp only [ChaseArgs.lineAt] at distance
    rw [Word.offset_distance _ (by omega), Word.offset_distance _ (by omega)] at distance
    omega
  rw [image, injective.ncard_image, walked]
  exact halfBuilt.cycle.visits_card (Nat.succ_pos assigned)

/-- When `init_chasing_index` returns 1 after some assignments, the array holds one
cycle through as many positions and one more, and 0 everywhere else.  The chase
ends on the machine where what it accesses is `AllFaultless`. -/
theorem chasingIndex_failed (positive : 1 ≤ csize.toNat) (length : cindex.entries.length = csize.toNat)
    (returned : initChasingIndex rdrand bound cindex csize = .ok (1, final)) :
    ∃ assigned < csize.toNat - 1, (accepted rdrand bound cindex csize).length = assigned ∧
      HalfBuilt csize final.cindex assigned ∧
      ∀ (args : ChaseArgs) (before : State), args.Indexes final.cindex before.data.memory →
        args.size.toInt + 64 ≤ 2 ^ 63 → ∃ after, Exec (chasingStoreclwb args) before after ∧
          after.data.trace = before.data.trace ++
            chaseTrace (args.storeEvents before.data.memory) (turns args.size 64) (turns args.count 1) 0 ∧
          ∀ pass,
            (∀ turn, (Range.mk (args.line before.data.memory pass turn) 64).Inside (args.area csize.toNat pass)) ∧
            (Set.range (args.line before.data.memory pass)).ncard = assigned + 1 := by
  obtain ⟨cleared, set, returned⟩ := bind_ok.mp returned
  obtain ⟨early, path, assigned, linked⟩ := linkPositions_halted (linked_start positive length set) returned
  have drawn := (chasingIndex_cleared set rdrand bound).2
  rw [← drawn, turns_left positive] at early
  rw [← drawn, List.length_nil, Nat.zero_add] at assigned
  have halfBuilt := linked.halfBuilt
  rw [assigned] at halfBuilt
  refine ⟨_, early, rfl, halfBuilt, fun args before indexes room => ?_⟩
  have walkable := halfBuilt.walkable indexes positive
  obtain ⟨after, ran, visiting⟩ := (walkable_ends walkable).ends room
  exact ⟨after, ran, visiting.trace, fun pass =>
    ⟨fun turn => walkable.line_inside pass turn, halfBuilt.lines_card indexes positive pass⟩⟩

/-- One success, then none. -/
def oneDraw : Rdrand := fun k => ([⟨true, 2⟩] : List Attempt).getD k ⟨false, 0⟩

theorem chasingIndex_failed_four : ∃ final,
    initChasingIndex oneDraw 1 ⟨[7, 7, 7, 7], by decide⟩ 4 = .ok (1, final) ∧
      final.cindex.entries = [2, 0, 0, 0] ∧ HalfBuilt 4 final.cindex 1 := by
  have returned : initChasingIndex oneDraw 1 ⟨[7, 7, 7, 7], by decide⟩ 4 = .ok (1, _) := rfl
  have drawn : (accepted oneDraw 1 ⟨[7, 7, 7, 7], by decide⟩ 4).length = 1 := rfl
  obtain ⟨assigned, _, counted, halfBuilt, _⟩ := chasingIndex_failed (by decide) rfl returned
  obtain rfl : 1 = assigned := drawn.symm.trans counted
  exact ⟨_, returned, rfl, halfBuilt⟩

end RwSep.MemAccess
