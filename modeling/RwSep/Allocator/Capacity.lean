import RwSep.Allocator.Placement

namespace RwSep.Allocator

open RwSep.Data RwSep.Execution RwSep.Packing

/-! Which calls the object can serve: the sizes it checks for and does not
check for, and the room in its region tables. -/

/-- The start of the newest region. -/
def Pool.base (pool : Pool) : Word := pool.entry (pool.cnt.toNat - 1)

def Pool.current (first : Word) (pool : Pool) : Range := pool.region first (pool.cnt.toNat - 1)

def Pool.Exact (first : Word) (pool : Pool) : Prop :=
  (pool.curr - (pool.current first).base).toNat + pool.left.toNat = (pool.current first).length

def HasEntry (state : Fastalloc × Os) (request : Request) : Prop :=
  roundUp request.size ≤ (state.1.pool request.onNvm).left ∨
    (state.1.pool request.onNvm).cnt.toNat < 100

theorem Represents.exact {first : Word} {pool : Pool} {packer : Packer}
    (represents : Represents first pool packer) (fits : first.toNat ≤ ALLOC_SIZE.toNat) :
    pool.Exact first := by
  have limit : ALLOC_SIZE.toNat = 4294967296 := rfl
  have taken := packer.fits
  have capacity := represents.capacity
  have short := regionLength_le fits packer.bin
  unfold Pool.Exact Pool.current Pool.region
  rw [represents.bin, Nat.add_sub_cancel, represents.curr, BitVec.add_comm, BitVec.add_sub_cancel,
    BitVec.toNat_ofNat, Nat.mod_eq_of_lt (by omega), represents.left, ← capacity]
  exact Nat.add_sub_cancel' taken

section Call

variable {growth : Fastalloc → Fill} {state next : Fastalloc × Os} {request : Request} {pointer : Word}

theorem step_exists_iff (growth : Fastalloc → Fill) :
    (∃ pointer next, step growth state request = .ok (pointer, next)) ↔ HasEntry state request := by
  apply Iff.intro
  · intro found
    obtain ⟨pointer, ⟨after, os'⟩, called⟩ := found
    cases Fastalloc.allocWith_served called with
    | fit room served other channel => exact .inl room
    | grow full bound served other channel => exact .inr bound
  · intro entry
    obtain ⟨pointer, after, os', called⟩ := Fastalloc.allocWith_exists growth state.2 entry
    exact ⟨pointer, (after, os'), called⟩

/-- The bytes of a small request lie in the region that is the newest after the call. -/
theorem Served.inside_current {a after : Fastalloc} {os os' : Os} {first : Word} {packer : Packer}
    (outcome : Served growth a os (roundUp request.size) request.onNvm pointer after os')
    (represents : Represents first (a.pool request.onNvm) packer) (fits : first.toNat ≤ ALLOC_SIZE.toNat)
    (small : request.Small) :
    (request.block pointer).range.Inside ((after.pool request.onNvm).current first) := by
  obtain ⟨latest, located⟩ := outcome.places represents (by rw [small.roundUp_toNat]; exact small)
  have placed : Placed first after (request.block pointer)
      (request.onNvm, (packer.place ALLOC_SIZE.toNat (roundUp request.size).toNat).1) :=
    small.placed located Packer.place_length
  have newest : (after.pool request.onNvm).cnt.toNat - 1 =
      (packer.place ALLOC_SIZE.toNat (roundUp request.size).toNat).1.bin := by
    rw [latest.bin, Packer.place_bin, Nat.add_sub_cancel]
  rw [Pool.current, newest]
  exact (placed.inside fits).1

end Call

/-! # Sizes -/

/-- What a caller expects of one call, whatever size it passed: neither the
rounding nor the subtraction wraps, the bytes lie in the region they were taken
from, and `left` stays exact. -/
structure Safe (first : Word) (_ : Fastalloc × Os) (request : Request) (pointer : Word)
    (next : Fastalloc × Os) : Prop where
  rounded : (roundUp request.size).toNat = (request.size.toNat + 63) / 64 * 64
  subtracted : (next.1.pool request.onNvm).left.toNat + (roundUp request.size).toNat ≤
    ((next.1.pool request.onNvm).current first).length
  inside : (request.block pointer).range.Inside ((next.1.pool request.onNvm).current first)
  exact : ∀ pool, (next.1.pool pool).Exact first

def Affordable (state : Fastalloc × Os) (request : Request) : Prop :=
  request.size ≤ ALLOC_SIZE ∧ HasEntry state request

theorem Safe.size_le {first : Word} {state next : Fastalloc × Os} {request : Request} {pointer : Word}
    (safe : Safe first state request pointer next) (fits : first.toNat ≤ ALLOC_SIZE.toNat) :
    request.size ≤ ALLOC_SIZE := by
  have inside := safe.inside
  have short := regionLength_le fits ((next.1.pool request.onNvm).cnt.toNat - 1)
  simp only [Range.Inside, Request.block, Pool.current, Pool.region] at inside
  exact BitVec.le_def.mpr (by omega)

theorem safe_of_affordable {growth : Fastalloc → Fill} {state : Fastalloc × Os} {request : Request}
    {first : Word} {depot : Depot Bool} (fits : first.toNat ≤ ALLOC_SIZE.toNat)
    (related : ∀ pool, Represents first (state.1.pool pool) (depot pool))
    (affordable : Affordable state request) :
    ∃ pointer next, step growth state request = .ok (pointer, next) ∧
      Safe first state request pointer next ∧
      ∃ depot' : Depot Bool, ∀ pool, Represents first (next.1.pool pool) (depot' pool) := by
  obtain ⟨short, entry⟩ := affordable
  have small := Request.small_of_le short
  obtain ⟨pointer, ⟨after, os'⟩, called⟩ := (step_exists_iff growth).mpr entry
  obtain ⟨relatedAfter, located⟩ := (Fastalloc.allocWith_served called).simulates related
    (by rw [small.roundUp_toNat]; exact small)
  have latest := relatedAfter request.onNvm
  rw [Depot.place_same] at latest
  refine ⟨pointer, (after, os'), called, ⟨small.roundUp_toNat, ?_,
    (Fastalloc.allocWith_served called).inside_current (related request.onNvm) fits small,
    fun pool => (relatedAfter pool).exact fits⟩, _, relatedAfter⟩
  have left := latest.left
  have taken := Packer.place_left ALLOC_SIZE.toNat (roundUp request.size).toNat (depot request.onNvm)
  have length : ((after.pool request.onNvm).current first).length =
      ((depot request.onNvm).place ALLOC_SIZE.toNat (roundUp request.size).toNat).2.capacity := by
    rw [latest.capacity, Pool.current, Pool.region, latest.bin, Nat.add_sub_cancel]
  change (after.pool request.onNvm).left.toNat + _ ≤ ((after.pool request.onNvm).current first).length
  omega

/-- Every call of a run is safe exactly when every size is at most `ALLOC_SIZE`
and no call needs a region its table has no entry for. -/
theorem size_safe_iff (setup : Setup) {dram nvm : Table} {channel : Int} {os os₁ : Os} {a : Fastalloc}
    {requests : List Request} (started : setup.init (.new dram nvm channel) os = .ok (a, os₁)) :
    Every setup.step (Safe setup.firstLength) (a, os₁) requests ↔
      Guarded setup.step Affordable (a, os₁) requests := by
  have fits := setup.firstLength_le
  rw [setup.step_eq]
  refine every_iff_guarded (fun state => ∃ depot : Depot Bool,
    ∀ pool, Represents setup.firstLength (state.1.pool pool) (depot pool)) ?_ ?_
    ⟨_, (setup.init_started started).represents⟩
  · intro state request found affordable
    obtain ⟨depot, related⟩ := found
    exact safe_of_affordable fits related affordable
  · intro state request pointer next _ called safe
    exact ⟨safe.size_le fits, (step_exists_iff _).mp ⟨pointer, next, called⟩⟩

theorem size_safe_iff_largest : ∃ a os₁,
    Setup.init ⟨.optaneStudy, .plain, true, 2, 0⟩
      (.new (Vector.replicate 100 0) (Vector.replicate 100 0) 0) spacedOs = .ok (a, os₁) ∧
    (Every (Setup.step ⟨.optaneStudy, .plain, true, 2, 0⟩) (Safe ALLOC_SIZE) (a, os₁)
        [⟨ALLOC_SIZE, true⟩, ⟨1, true⟩] ↔
      Guarded (Setup.step ⟨.optaneStudy, .plain, true, 2, 0⟩) Affordable (a, os₁)
        [⟨ALLOC_SIZE, true⟩, ⟨1, true⟩]) :=
  ⟨_, _, rfl, size_safe_iff ⟨.optaneStudy, .plain, true, 2, 0⟩ rfl⟩

/-- One byte more than a region: `alloc` opens a region, `nvm_left` wraps, and
the next 2^63 bytes are handed out although the region holds 2^32. -/
theorem size_unsafe_past_region : ∃ a os₁,
    Setup.init ⟨.optaneStudy, .plain, true, 2, 0⟩
      (.new (Vector.replicate 100 0) (Vector.replicate 100 0) 0) spacedOs = .ok (a, os₁) ∧
    (∃ pointers b os₂,
      run (Setup.step ⟨.optaneStudy, .plain, true, 2, 0⟩) (a, os₁)
          [⟨ALLOC_SIZE + 1, true⟩, ⟨1 <<< 63, true⟩] = .ok (pointers, (b, os₂)) ∧
        b.nvmCnt = 2 ∧ b.nvmLeft = (1 <<< 63) - 64) ∧
    ¬ Every (Setup.step ⟨.optaneStudy, .plain, true, 2, 0⟩) (Safe ALLOC_SIZE) (a, os₁)
      [⟨ALLOC_SIZE + 1, true⟩] := by
  refine ⟨_, _, rfl, ⟨_, _, _, rfl, rfl, rfl⟩, ?_⟩
  intro found
  obtain ⟨pointer, next, _, safe, _⟩ := found
  exact absurd (safe.size_le (Nat.le_refl _)) (by decide)

/-! # Table entries -/

/-- What one call does to the tables and to the fields it has no business with. -/
structure Bounded (state : Fastalloc × Os) (request : Request) (_ : Word) (next : Fastalloc × Os) :
    Prop where
  stored : (next.1.pool request.onNvm).cnt ≠ (state.1.pool request.onNvm).cnt →
    (state.1.pool request.onNvm).cnt.toNat < 100
  counted : ∀ pool, (next.1.pool pool).cnt.toNat ≤ 100
  entries : ∀ pool, ∀ index < (state.1.pool pool).cnt.toNat,
    (next.1.pool pool).entry index = (state.1.pool pool).entry index
  other : next.1.pool (!request.onNvm) = state.1.pool (!request.onNvm)
  channel : next.1.channel = state.1.channel

theorem bounded_of_step {growth : Fastalloc → Fill} {state next : Fastalloc × Os} {request : Request}
    {pointer : Word} (counted : ∀ pool, (state.1.pool pool).cnt.toNat ≤ 100)
    (called : step growth state request = .ok (pointer, next)) :
    Bounded state request pointer next := by
  obtain ⟨after, os'⟩ := next
  have outcome := Fastalloc.allocWith_served called
  have entries pool := (outcome.entries pool).2
  have requested : (after.pool request.onNvm).cnt = (state.1.pool request.onNvm).cnt ∨
      ((state.1.pool request.onNvm).cnt.toNat < 100 ∧
        (after.pool request.onNvm).cnt.toNat = (state.1.pool request.onNvm).cnt.toNat + 1) := by
    cases outcome with
    | fit room served other channel => exact .inl (by rw [served, Pool.take_cnt])
    | grow full bound served other channel =>
        exact .inr ⟨bound, by rw [served, Pool.take_cnt, Pool.opened_cnt]⟩
  refine ⟨fun changed => (requested.resolve_left changed).1, fun pool => ?_, entries,
    outcome.other_eq (by simp), outcome.channel_eq⟩
  by_cases same : pool = request.onNvm
  · subst same
    rcases requested with kept | ⟨bound, grown⟩
    · rw [kept]
      exact counted _
    · change (after.pool request.onNvm).cnt.toNat ≤ 100
      omega
  · rw [outcome.other_eq same]
    exact counted pool

/-- Every store of a run stays in the tables exactly when no call needs a
region its table has no entry for. -/
theorem tables_bounded_iff (setup : Setup) {dram nvm : Table} {channel : Int} {os os₁ : Os}
    {a : Fastalloc} {requests : List Request}
    (started : setup.init (.new dram nvm channel) os = .ok (a, os₁)) :
    Every setup.step Bounded (a, os₁) requests ↔ Guarded setup.step HasEntry (a, os₁) requests := by
  rw [setup.step_eq]
  refine every_iff_guarded (fun state => ∀ pool, (state.1.pool pool).cnt.toNat ≤ 100) ?_ ?_ ?_
  · intro state request counted entry
    obtain ⟨pointer, next, called⟩ := (step_exists_iff _).mpr entry
    have bounded := bounded_of_step counted called
    exact ⟨pointer, next, called, bounded, bounded.counted⟩
  · intro state request pointer next _ called _
    exact (step_exists_iff _).mp ⟨pointer, next, called⟩
  · intro pool
    rw [(setup.init_started started).cnt]
    decide

theorem tables_bounded_iff_wholeRegions : ∃ a os₁,
    Setup.init ⟨.fastallocate, .concurrency, true, 0, 7⟩
      (.new (Vector.replicate 100 0) (Vector.replicate 100 0) 0) spacedOs = .ok (a, os₁) ∧
    (Every (Setup.step ⟨.fastallocate, .concurrency, true, 0, 7⟩) Bounded (a, os₁)
        (List.replicate 99 ⟨ALLOC_SIZE, true⟩) ↔
      Guarded (Setup.step ⟨.fastallocate, .concurrency, true, 0, 7⟩) HasEntry (a, os₁)
        (List.replicate 99 ⟨ALLOC_SIZE, true⟩)) :=
  ⟨_, _, rfl, tables_bounded_iff ⟨.fastallocate, .concurrency, true, 0, 7⟩ rfl⟩

set_option maxRecDepth 100000 in
/-- A hundred whole regions fill `dram`; the next one is stored past its end. -/
theorem tables_overrun : ∃ a os₁,
    Setup.init ⟨.optaneStudy, .plain, true, 0, 0⟩
      (.new (Vector.replicate 100 0) (Vector.replicate 100 0) 0) spacedOs = .ok (a, os₁) ∧
    ¬ Every (Setup.step ⟨.optaneStudy, .plain, true, 0, 0⟩) Bounded (a, os₁)
      (List.replicate 101 ⟨ALLOC_SIZE, false⟩) := by
  refine ⟨_, _, rfl, fun every => ?_⟩
  obtain ⟨pointers, final, ran⟩ := every.exists_run
  have stopped := ran.symm.trans (show _ = Except.error Stop.tableOverrun from rfl)
  contradiction

end RwSep.Allocator
