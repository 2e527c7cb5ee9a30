import RwSep.Allocator.Placement

namespace RwSep.Allocator

open RwSep.Data RwSep.Execution RwSep.Packing

/-! Runs of several objects that draw their regions from one system.

Each call names the object it is made on; the calls of different objects may
come in any order.
-/

variable {κ : Type}

def familyStep [DecidableEq κ] (growth : κ → Fastalloc → Fill) (state : (κ → Fastalloc) × Os)
    (call : κ × Request) :
    Except Stop (Word × (κ → Fastalloc) × Os) :=
  match (state.1 call.1).allocWith (growth call.1) state.2 call.2.size call.2.onNvm with
  | .error reason => .error reason
  | .ok (pointer, after, os) => .ok (pointer, Function.update state.1 call.1 after, os)

def handed (calls : List (κ × Request)) (pointers : List Word) : List (κ × Block) :=
  List.zipWith (fun call pointer => (call.1, call.2.block pointer)) calls pointers

def familyItems (calls : List (κ × Request)) : List ((κ × Bool) × Nat) :=
  calls.map fun call => ((call.1, call.2.onNvm), (roundUp call.2.size).toNat)

structure PlacedIn (first : κ → Word) (objects : κ → Fastalloc) (block : κ × Block)
    (slot : (κ × Bool) × Slot) : Prop where
  pool : slot.1 = (block.1, block.2.onNvm)
  placed : Placed (first block.1) (objects block.1) block.2 (block.2.onNvm, slot.2)

variable [DecidableEq κ] {growth : κ → Fastalloc → Fill} {first : κ → Word}
variable {objects objects' : κ → Fastalloc} {os os' : Os} {depot : Depot (κ × Bool)}
variable {calls : List (κ × Request)} {pointers : List Word} {call : κ × Request} {pointer : Word}

theorem familyStep_served (stepped : familyStep growth (objects, os) call = .ok (pointer, (objects', os'))) :
    ∃ after, Served (growth call.1) (objects call.1) os (roundUp call.2.size) call.2.onNvm pointer after os' ∧
      objects' = Function.update objects call.1 after := by
  rw [familyStep] at stepped
  split at stepped
  · contradiction
  · rename_i called
    cases stepped
    exact ⟨_, Fastalloc.allocWith_served called, rfl⟩

/-- A placed block stays placed, whichever object is called. -/
theorem Locates.familyStep {owner : κ} {onNvm : Bool} {other : Word} {slot : Slot}
    (located : Locates (first owner) (objects owner) onNvm other slot)
    (stepped : familyStep growth (objects, os) call = .ok (pointer, (objects', os'))) :
    Locates (first owner) (objects' owner) onNvm other slot := by
  obtain ⟨after, outcome, rfl⟩ := familyStep_served stepped
  by_cases same : owner = call.1
  · subst same
    rw [Function.update_self]
    exact located.served outcome
  · rw [Function.update_of_ne same]
    exact located

theorem Represents.familyStep
    (related : ∀ owner pool, Represents (first owner) ((objects owner).pool pool) (depot (owner, pool)))
    (small : call.2.Small) (stepped : familyStep growth (objects, os) call = .ok (pointer, (objects', os'))) :
    let placed := depot.place ALLOC_SIZE.toNat (call.1, call.2.onNvm) (roundUp call.2.size).toNat
    (∀ owner pool, Represents (first owner) ((objects' owner).pool pool) (placed.2 (owner, pool))) ∧
    Locates (first call.1) (objects' call.1) call.2.onNvm pointer placed.1 := by
  obtain ⟨after, outcome, rfl⟩ := familyStep_served stepped
  let ownDepot : Depot Bool := fun pool => depot (call.1, pool)
  have own := outcome.simulates (show ∀ pool, Represents (first call.1) _ (ownDepot pool) from related call.1)
    (by rw [small.roundUp_toNat]; exact small)
  refine ⟨fun owner pool => ?_, ?_⟩
  · by_cases same : owner = call.1
    · subst same
      rw [Function.update_self]
      have here := own.1 pool
      by_cases samePool : pool = call.2.onNvm
      · rw [samePool] at here ⊢
        rw [Depot.place_same] at here ⊢
        exact here
      · rw [Depot.place_other samePool] at here
        rwa [Depot.place_other fun same => samePool (congrArg Prod.snd same)]
    · rw [Function.update_of_ne same, Depot.place_other fun equal => same (congrArg Prod.fst equal)]
      exact related owner pool
  · rw [Function.update_self]
    exact own.2

theorem family_placed
    (related : ∀ owner pool, Represents (first owner) ((objects owner).pool pool) (depot (owner, pool)))
    (small : ∀ call ∈ calls, call.2.Small)
    (ran : run (familyStep growth) (objects, os) calls = .ok (pointers, (objects', os'))) :
    List.Forall₂ (PlacedIn first objects') (handed calls pointers)
      (depot.pack ALLOC_SIZE.toNat (familyItems calls)).1 := by
  induction calls generalizing objects os depot pointers with
  | nil => simp [handed, familyItems, Depot.pack]
  | cons call rest ih =>
      obtain ⟨pointer, ⟨after, osAfter⟩, tail, stepped, remaining, rfl⟩ := run_cons.mp ran
      have callSmall := small call List.mem_cons_self
      obtain ⟨relatedAfter, located⟩ := Represents.familyStep related callSmall stepped
      have kept := run_preserves (fun state => Locates (first call.1) (state.1 call.1) call.2.onNvm pointer
        (depot.place ALLOC_SIZE.toNat (call.1, call.2.onNvm) (roundUp call.2.size).toNat).1)
        (fun located stepped => located.familyStep stepped) located remaining
      apply List.Forall₂.cons
      · exact ⟨rfl, callSmall.placed kept (by rw [Depot.place_slot, Packer.place_length])⟩
      · exact ih relatedAfter (fun other member => small other (List.mem_cons_of_mem _ member)) remaining

theorem family_log (ran : run (familyStep growth) (objects, os) calls = .ok (pointers, (objects', os'))) :
    ∃ events, os'.log = os.log ++ events := by
  apply run_preserves (fun state => ∃ events, state.2.log = os.log ++ events) _ ⟨[], by simp⟩ ran
  intro state call pointer next grown stepped
  obtain ⟨events, grown⟩ := grown
  obtain ⟨after, outcome, _⟩ := familyStep_served stepped
  obtain ⟨more, appended⟩ := outcome.log
  exact ⟨events ++ more, by rw [appended, grown, List.append_assoc]⟩

theorem family_owned (lengths : ∀ owner a, (growth owner a).kept.length = ALLOC_SIZE)
    (owned : Owned first objects os.log) (started : ∀ owner pool, 0 < ((objects owner).pool pool).cnt.toNat)
    (ran : run (familyStep growth) (objects, os) calls = .ok (pointers, (objects', os')))
    (granted : Granted os'.log) : Owned first objects' os'.log := by
  induction calls generalizing objects os pointers with
  | nil =>
      cases (run_nil.mp ran).2
      exact owned
  | cons call rest ih =>
      obtain ⟨pointer, ⟨after, osAfter⟩, tail, stepped, remaining, rfl⟩ := run_cons.mp ran
      obtain ⟨member, outcome, rfl⟩ := familyStep_served stepped
      obtain ⟨events, grown⟩ := family_log remaining
      apply ih _ _ remaining
      · exact owned.served call.1 rfl (lengths call.1) (Nat.ne_of_gt (started call.1 call.2.onNvm)) outcome
          (Granted.of_append (grown ▸ granted))
      · intro owner pool
        by_cases same : owner = call.1
        · subst same
          rw [Function.update_self]
          exact Nat.lt_of_lt_of_le (started call.1 pool) (outcome.entries pool).1
        · rw [Function.update_of_ne same]
          exact started owner pool

/-- Blocks in separate slots are apart: within a region by their offsets, and
otherwise because their regions are. -/
theorem PlacedIn.apart {left right : κ × Block} {leftSlot rightSlot : (κ × Bool) × Slot} {log : List Event}
    (owned : Owned first objects log) (fits : ∀ owner, (first owner).toNat ≤ ALLOC_SIZE.toNat)
    (leftPlaced : PlacedIn first objects left leftSlot) (rightPlaced : PlacedIn first objects right rightSlot)
    (separate : leftSlot.1 = rightSlot.1 → leftSlot.2.bin = rightSlot.2.bin →
      leftSlot.2.offset + leftSlot.2.length ≤ rightSlot.2.offset) :
    left.2.range.Disjoint right.2.range := by
  obtain ⟨leftInside, leftOffset⟩ := leftPlaced.placed.inside (fits left.1)
  obtain ⟨rightInside, rightOffset⟩ := rightPlaced.placed.inside (fits right.1)
  have short : ∀ owner index, regionLength (first owner) index ≤ 2 ^ 64 :=
    fun owner index => Nat.le_trans (regionLength_le (fits owner) index) (by decide)
  by_cases same : (⟨left.1, left.2.onNvm, leftSlot.2.bin⟩ : Entry κ) = ⟨right.1, right.2.onNvm, rightSlot.2.bin⟩
  · simp only [Entry.mk.injEq] at same
    have samePool : leftSlot.1 = rightSlot.1 := by
      rw [leftPlaced.pool, rightPlaced.pool, same.1, same.2.1]
    have before := separate samePool same.2.2
    rw [← same.1, ← same.2.1, ← same.2.2] at rightInside rightOffset
    apply Range.disjoint_of_offsets leftInside rightInside (short _ _)
    rw [leftOffset, rightOffset]
    have enough : left.2.range.length ≤ leftSlot.2.length := leftPlaced.placed.enough
    exact Nat.le_trans (Nat.add_le_add_left enough _) before
  · have regions := owned.apart ⟨left.1, left.2.onNvm, leftSlot.2.bin⟩ ⟨right.1, right.2.onNvm, rightSlot.2.bin⟩
      leftPlaced.placed.located.live rightPlaced.placed.located.live same
    exact regions.of_inside leftInside rightInside (short _ _) (short _ _)

/-- Each block lies in a region of its own object at a multiple of 64, and no
two blocks of the family overlap. -/
theorem family_isolated (lengths : ∀ owner a, (growth owner a).kept.length = ALLOC_SIZE)
    (fits : ∀ owner, (first owner).toNat ≤ ALLOC_SIZE.toNat)
    (opened : ∀ owner pool,
      Represents (first owner) ((objects owner).pool pool) (.opened 0 (first owner).toNat))
    (owned : Owned first objects os.log) (small : ∀ call ∈ calls, call.2.Small)
    (ran : run (familyStep growth) (objects, os) calls = .ok (pointers, (objects', os')))
    (granted : Granted os'.log) :
    (∀ block ∈ handed calls pointers,
      ∃ index < ((objects' block.1).pool block.2.onNvm).cnt.toNat, ∃ region ∈ regions os'.log,
        region.range = ((objects' block.1).pool block.2.onNvm).region (first block.1) index ∧
        block.2.range.Inside region.range ∧ 64 ∣ block.2.range.offsetIn region.range) ∧
    (handed calls pointers).Pairwise fun left right => left.2.range.Disjoint right.2.range := by
  let empty : Depot (κ × Bool) := fun index => .opened 0 (first index.1).toNat
  have related : ∀ owner pool, Represents (first owner) ((objects owner).pool pool) (empty (owner, pool)) := opened
  have placed := family_placed related small ran
  have started : ∀ owner pool, 0 < ((objects owner).pool pool).cnt.toNat := by
    intro owner pool
    rw [(opened owner pool).bin]
    exact Nat.succ_pos _
  have owned' := family_owned lengths owned started ran granted
  apply And.intro
  · intro block member
    obtain ⟨slot, slotMember, place⟩ := exists_of_forall₂ placed member
    obtain ⟨inside, offset⟩ := place.placed.inside (fits block.1)
    obtain ⟨region, inLog, range⟩ :=
      owned'.recorded ⟨block.1, block.2.onNvm, slot.2.bin⟩ place.placed.located.live
    refine ⟨slot.2.bin, place.placed.located.live, region, inLog, range, ?_, ?_⟩
    · rw [range]
      exact inside
    · rw [range]
      simp only [Entry.region, offset]
      apply Depot.pack_aligned (fun _ => Nat.dvd_zero 64) _ slot slotMember
      intro item itemMember
      obtain ⟨call, callMember, rfl⟩ := List.mem_map.mp itemMember
      rw [(small call callMember).roundUp_toNat]
      exact Nat.dvd_mul_left 64 _
  · apply pairwise_of_forall₂ placed _ Depot.pack_apart
    intro left right leftSlot rightSlot leftPlaced rightPlaced separate
    exact leftPlaced.apart owned' fits rightPlaced separate

/-! # One object -/

section Single

variable {growth : Fastalloc → Fill} {a b : Fastalloc} {os os' : Os} {requests : List Request} {pointers : List Word}

theorem run_family (ran : run (step growth) (a, os) requests = .ok (pointers, (b, os'))) :
    run (familyStep fun _ : Unit => growth) (fun _ => a, os) (requests.map (Prod.mk ())) =
      .ok (pointers, (fun _ => b, os')) := by
  induction requests generalizing a os pointers with
  | nil =>
      cases (run_nil.mp ran).2
      rw [(run_nil.mp ran).1]
      rfl
  | cons request rest ih =>
      obtain ⟨pointer, ⟨after, osAfter⟩, tail, called, remaining, rfl⟩ := run_cons.mp ran
      apply run_cons.mpr
      refine ⟨pointer, (fun _ => after, osAfter), tail, ?_, ih remaining, rfl⟩
      change a.allocWith growth os request.size request.onNvm = _ at called
      simp only [familyStep, called, Function.update_eq_const_of_subsingleton]
      rfl

theorem handed_single (requests : List Request) (pointers : List Word) :
    handed (requests.map (Prod.mk ())) pointers = (blocks requests pointers).map (Prod.mk ()) := by
  rw [handed, blocks, List.zipWith_map_left, List.map_zipWith]

end Single

end RwSep.Allocator
