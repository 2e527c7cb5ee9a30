import RwSep.Allocator.Session
import RwSep.Data.Lists

namespace RwSep.Allocator

open RwSep.Data RwSep.Execution RwSep.Packing

/-! Where the blocks of a run lie. -/

/-- The bytes a caller may use: the size it asked for, at the pointer it got. -/
structure Block where
  onNvm : Bool
  range : Range

def Request.block (request : Request) (pointer : Word) : Block :=
  ⟨request.onNvm, ⟨pointer, request.size.toNat⟩⟩

def blocks (requests : List Request) (pointers : List Word) : List Block :=
  List.zipWith Request.block requests pointers

def items (requests : List Request) : List (Bool × Nat) :=
  requests.map fun request => (request.onNvm, (roundUp request.size).toNat)

/-- The block starts where the slot lies, and the slot is the block in whole lines. -/
structure Placed (first : Word) (a : Fastalloc) (block : Block) (slot : Bool × Slot) : Prop where
  pool : slot.1 = block.onNvm
  located : Locates first a block.onNvm block.range.base slot.2
  rounded : slot.2.length = (block.range.length + 63) / 64 * 64

theorem Placed.enough {first : Word} {a : Fastalloc} {block : Block} {slot : Bool × Slot}
    (placed : Placed first a block slot) : block.range.length ≤ slot.2.length := by
  have := placed.rounded
  omega

section Run

variable {growth : Fastalloc → Fill} {a b : Fastalloc} {os os' : Os} {first : Word}
variable {requests : List Request} {pointers : List Word} {depot : Depot Bool}

theorem Locates.run {onNvm : Bool} {pointer : Word} {slot : Slot}
    (located : Locates first a onNvm pointer slot)
    (ran : run (step growth) (a, os) requests = .ok (pointers, (b, os'))) :
    Locates first b onNvm pointer slot :=
  run_preserves (fun state => Locates first state.1 onNvm pointer slot)
    (fun located stepped => located.served (Fastalloc.allocWith_served stepped)) located ran

theorem Request.Small.placed {request : Request} (small : request.Small) {pointer : Word} {slot : Slot}
    (located : Locates first a request.onNvm pointer slot)
    (length : slot.length = (roundUp request.size).toNat) :
    Placed first a (request.block pointer) (request.onNvm, slot) :=
  ⟨rfl, located, by rw [length, small.roundUp_toNat]; rfl⟩

theorem run_placed (related : ∀ pool, Represents first (a.pool pool) (depot pool))
    (small : ∀ request ∈ requests, request.Small)
    (ran : run (step growth) (a, os) requests = .ok (pointers, (b, os'))) :
    List.Forall₂ (Placed first b) (blocks requests pointers)
        (depot.pack ALLOC_SIZE.toNat (items requests)).1 ∧
      ∀ pool, Represents first (b.pool pool)
        ((depot.pack ALLOC_SIZE.toNat (items requests)).2 pool) := by
  induction requests generalizing a os depot pointers with
  | nil =>
      cases (run_nil.mp ran).2
      exact ⟨by simp [blocks, items, Depot.pack], related⟩
  | cons request rest ih =>
      obtain ⟨pointer, ⟨after, osAfter⟩, tail, called, remaining, rfl⟩ := run_cons.mp ran
      have requestSmall := small request (by simp)
      have outcome := Fastalloc.allocWith_served called
      obtain ⟨relatedAfter, located⟩ := outcome.simulates related
        (by rw [requestSmall.roundUp_toNat]; exact requestSmall)
      obtain ⟨placed, relatedFinal⟩ :=
        ih relatedAfter (fun request member => small request (by simp [member])) remaining
      refine ⟨.cons (requestSmall.placed (located.run remaining) ?_) placed, relatedFinal⟩
      rw [Depot.place_slot, Packer.place_length]

theorem run_log (ran : run (step growth) (a, os) requests = .ok (pointers, (b, os'))) :
    ∃ events, os'.log = os.log ++ events := by
  refine run_preserves (fun state => ∃ events, state.2.log = os.log ++ events) ?_ ⟨[], by simp⟩ ran
  intro found request pointer given pair called
  obtain ⟨before, osBefore⟩ := found
  obtain ⟨after, osAfter⟩ := given
  obtain ⟨events, grown⟩ := pair
  obtain ⟨more, appended⟩ := (Fastalloc.allocWith_served called).log
  exact ⟨events ++ more, by rw [appended, grown, List.append_assoc]⟩

theorem run_cnt_le (ran : run (step growth) (a, os) requests = .ok (pointers, (b, os'))) (pool : Bool) :
    (a.pool pool).cnt.toNat ≤ (b.pool pool).cnt.toNat :=
  run_preserves (fun state => (a.pool pool).cnt.toNat ≤ (state.1.pool pool).cnt.toNat)
    (fun more called => Nat.le_trans more ((Fastalloc.allocWith_served called).entries pool).1)
    (Nat.le_refl _) ran

/-- What every granted call keeps holds at the end of a run whose requests were all granted. -/
theorem run_granted (Inv : Fastalloc × Os → Prop)
    (keeps : ∀ {state request pointer next}, Inv state → step growth state request = .ok (pointer, next) →
      Granted next.2.log → Inv next)
    (invariant : Inv (a, os)) (ran : run (step growth) (a, os) requests = .ok (pointers, (b, os')))
    (granted : Granted os'.log) : Inv (b, os') := by
  induction requests generalizing a os pointers with
  | nil =>
      cases (run_nil.mp ran).2
      exact invariant
  | cons request rest ih =>
      obtain ⟨pointer, ⟨after, osAfter⟩, tail, called, remaining, rfl⟩ := run_cons.mp ran
      obtain ⟨events, grown⟩ := run_log remaining
      exact ih (keeps invariant called (Granted.of_append (grown ▸ granted))) remaining

end Run

theorem Placed.inside {first : Word} {a : Fastalloc} {block : Block} {slot : Bool × Slot}
    (placed : Placed first a block slot) (fits : first.toNat ≤ ALLOC_SIZE.toNat) :
    block.range.Inside ((a.pool block.onNvm).region first slot.2.bin) ∧
      block.range.offsetIn ((a.pool block.onNvm).region first slot.2.bin) = slot.2.offset := by
  have inside := slot.2.inside
  have enough := placed.enough
  have limit : ALLOC_SIZE.toNat = 4294967296 := rfl
  have capacity := placed.located.capacity
  have short := regionLength_le fits slot.2.bin
  have offset : block.range.offsetIn ((a.pool block.onNvm).region first slot.2.bin) = slot.2.offset := by
    simp only [Range.offsetIn, Pool.region, placed.located.pointer]
    rw [Word.offset_distance _ (by omega)]
  refine ⟨?_, offset⟩
  unfold Range.Inside
  rw [offset]
  simp only [Pool.region, ← capacity]
  omega

end RwSep.Allocator
