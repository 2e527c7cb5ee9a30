import RwSep.Allocator.Persistence
import RwSep.Allocator.Capacity

namespace RwSep.Allocator

open RwSep.Data RwSep.Execution RwSep.Packing

/-! OptaneStudy's allocator when `open`, `posix_fallocate` and `mmap` fail.

The answers of the system are arbitrary, so `mmap` may return `MAP_FAILED`,
with any descriptor and any result of `posix_fallocate`; the object records
the address in `nvm` and `nvm_curr` either way.
-/

/-- The newest NVM region is one that `mmap` returned. -/
def Mapped (first : Word) (a : Fastalloc) (log : List Event) : Prop :=
  ∃ path, (⟨(a.pool true).current first, .file path⟩ : Region) ∈ regions log

/-- A call that needed a region, got none, says so, and leaves the pool alone. -/
structure Refused (state : Fastalloc × Os) (request : Request) (pointer : Word) (next : Fastalloc × Os) :
    Prop where
  needed : ¬ FitsNvm state request
  null : pointer = 0
  curr : next.1.nvmCurr = state.1.nvmCurr
  left : next.1.nvmLeft = state.1.nvmLeft
  cnt : next.1.nvmCnt = state.1.nvmCnt

/-- What a caller expects of an NVM request, whatever the system answered. -/
def Honest (first : Word) (state : Fastalloc × Os) (request : Request) (pointer : Word)
    (next : Fastalloc × Os) : Prop :=
  request.onNvm = true →
    ((request.block pointer).range.Inside ((next.1.pool true).current first) ∧
      Mapped first next.1 next.2.log) ∨ Refused state request pointer next

/-- The region that serves the request, old or new, is mapped. -/
def Backed (state : Fastalloc × Os) (request : Request) : Prop :=
  HasEntry state request ∧
    (request.onNvm = true → request.size ≤ ALLOC_SIZE ∧
      if roundUp request.size ≤ state.1.nvmLeft then (state.1.pool true).base ≠ MAP_FAILED
      else state.2.nextMapping ≠ MAP_FAILED)

/-- The pool stands for a packer, and its newest region is mapped unless it is `MAP_FAILED`. -/
def Recorded (first : Word) (state : Fastalloc × Os) : Prop :=
  (∃ packer, Represents first (state.1.pool true) packer) ∧
    ((state.1.pool true).base ≠ MAP_FAILED → Mapped first state.1 state.2.log)

section Call

variable {state next : Fastalloc × Os} {request : Request} {first pointer : Word}

theorem Mapped.base {a : Fastalloc} {log : List Event} (mapped : Mapped first a log) :
    (a.pool true).base ≠ MAP_FAILED := by
  obtain ⟨path, member⟩ := mapped
  exact file_region_base member

theorem Mapped.keep {a after : Fastalloc} {log events : List Event} (mapped : Mapped first a log)
    (same : (after.pool true).current first = (a.pool true).current first) :
    Mapped first after (log ++ events) := by
  obtain ⟨path, member⟩ := mapped
  exact ⟨path, by rw [same, regions_append]; exact List.mem_append_left _ member⟩

section Growth

variable {a after : Fastalloc} {os : Os} {size : Word} (bound : (a.pool true).cnt.toNat < 100)
variable (served : after.pool true =
  ((a.pool true).opened (os.fill (OptaneStudy.growth true a)).1 ALLOC_SIZE bound).take size)

include served

theorem growth_base : (after.pool true).base = os.nextMapping := by
  have newest := Pool.opened_entry_new (a.pool true) (os.fill (OptaneStudy.growth true a)).1 ALLOC_SIZE bound
  rw [Pool.base, served, Pool.take_cnt, Pool.take_entry, Pool.opened_cnt, Nat.add_sub_cancel, newest]
  exact mappedFill_address

theorem growth_mapped (started : 0 < (a.pool true).cnt.toNat) (mapped : os.nextMapping ≠ MAP_FAILED) :
    Mapped first after (os.fill (OptaneStudy.growth true a)).2.log := by
  refine ⟨OptaneStudy.nvmFilename a.channel "" a.nvmCnt, ?_⟩
  have current : (after.pool true).current first = ⟨os.nextMapping, ALLOC_SIZE.toNat⟩ := by
    have later : ¬ (after.pool true).cnt.toNat - 1 = 0 := by
      rw [served, Pool.take_cnt, Pool.opened_cnt]
      omega
    rw [Pool.current, Pool.region, regionLength, if_neg later]
    exact congrArg (Range.mk · _) (growth_base bound served)
  rw [current]
  exact mappedFill_region mapped

end Growth

/-- What one call does to the record of the NVM pool, and whether it is honest. -/
theorem Recorded.step (recorded : Recorded first state) (fits : first.toNat ≤ ALLOC_SIZE.toNat)
    (backed : Backed state request) :
    ∃ pointer next, step (OptaneStudy.growth true) state request = .ok (pointer, next) ∧
      Honest first state request pointer next ∧ Recorded first next := by
  obtain ⟨⟨packer, represents⟩, newest⟩ := recorded
  obtain ⟨entry, own⟩ := backed
  obtain ⟨pointer, ⟨after, os'⟩, called⟩ := (step_exists_iff (OptaneStudy.growth true)).mpr entry
  have outcome := Fastalloc.allocWith_served called
  refine ⟨pointer, (after, os'), called, ?_⟩
  cases requested : request.onNvm with
  | false =>
      obtain ⟨events, grown⟩ := outcome.log
      have kept : after.pool true = state.1.pool true := outcome.other_eq (by simp [requested])
      refine ⟨fun nvm => by simp [requested] at nvm, ⟨packer, by rwa [kept]⟩, fun mapped => ?_⟩
      simp only [kept] at mapped
      simp only [grown]
      exact (newest mapped).keep (by rw [kept])
  | true =>
      obtain ⟨short, region⟩ := own requested
      have small := Request.small_of_le short
      have inside := outcome.inside_current (by rw [requested]; exact represents) fits small
      have placed := (outcome.places (by rw [requested]; exact represents)
        (by rw [small.roundUp_toNat]; exact small)).1
      rw [requested] at outcome inside placed
      have mapped : Mapped first after os'.log := by
        cases outcome with
        | fit room served other channel =>
            have room' : roundUp request.size ≤ state.1.nvmLeft := room
            rw [if_pos room'] at region
            have same : (after.pool true).current first = (state.1.pool true).current first := by
              rw [served]
              rfl
            have kept : Mapped first after (state.2.log ++ []) := (newest region).keep same
            rwa [List.append_nil] at kept
        | grow full bound served other channel =>
            have full' : ¬ roundUp request.size ≤ state.1.nvmLeft := BitVec.not_le.mpr full
            rw [if_neg full'] at region
            have started : 0 < (state.1.pool true).cnt.toNat := by
              rw [represents.bin]
              exact Nat.succ_pos _
            exact growth_mapped bound served started region
      exact ⟨fun _ => .inl ⟨inside, mapped⟩, ⟨_, placed⟩, fun _ => mapped⟩

theorem Honest.backed (recorded : Recorded first state) (fits : first.toNat ≤ ALLOC_SIZE.toNat)
    (called : step (OptaneStudy.growth true) state request = .ok (pointer, next))
    (honest : Honest first state request pointer next) : Backed state request := by
  obtain ⟨⟨packer, represents⟩, _⟩ := recorded
  obtain ⟨after, os'⟩ := next
  refine ⟨(step_exists_iff _).mp ⟨pointer, _, called⟩, fun nvm => ?_⟩
  have outcome := Fastalloc.allocWith_served called
  have opens := outcome.opens_iff
  rcases honest nvm with ⟨inside, mapped⟩ | refused
  · have short := regionLength_le fits ((after.pool true).cnt.toNat - 1)
    simp only [Range.Inside, Request.block, Pool.current, Pool.region] at inside
    refine ⟨BitVec.le_def.mpr (by omega), ?_⟩
    rw [nvm] at outcome
    cases outcome with
    | fit room served other channel =>
        have room' : roundUp request.size ≤ state.1.nvmLeft := room
        rw [if_pos room']
        have base := mapped.base
        rwa [served] at base
    | grow full bound served other channel =>
        have full' : ¬ roundUp request.size ≤ state.1.nvmLeft := BitVec.not_le.mpr full
        rw [if_neg full', ← growth_base bound served]
        exact mapped.base
  · exact absurd (opens.mp refused.cnt) refused.needed

end Call

theorem Setup.Started.recorded {setup : Setup} {dram nvm : Table} {channel : Int} {os os' : Os}
    {a : Fastalloc} (started : setup.Started dram nvm channel os a os') (linux : setup.linux = true) :
    Recorded setup.firstLength (a, os') := by
  refine ⟨⟨_, started.represents true⟩, fun mapped => ?_⟩
  have newest := Pool.opened_entry_new _ ((setup.afterDram os).fill setup.firstFill).1 setup.firstLength
    (Pool.unused_bound nvm)
  rw [← started.nvm, Pool.unused_cnt] at newest
  have base : (a.pool true).base = (setup.afterDram os).nextMapping := by
    rw [Pool.base, started.cnt]
    rw [Setup.firstFill, linux, mappedFill_address] at newest
    exact newest
  have current : (a.pool true).current setup.firstLength =
      ⟨(setup.afterDram os).nextMapping, setup.firstLength.toNat⟩ := by
    rw [Pool.current, started.cnt, Pool.region, regionLength, if_pos rfl]
    rw [Pool.base, started.cnt] at base
    exact congrArg (Range.mk · _) base
  rw [base] at mapped
  refine ⟨setup.firstPath 0, ?_⟩
  rw [current, started.system, Setup.firstFill, linux]
  exact mappedFill_region mapped

/-- NVM calls of a run stay inside mapped regions exactly when every region
they are served from was mapped and large enough; `alloc` never refuses. -/
theorem mapping_honest_iff (setup : Setup) (copy : setup.copy = .optaneStudy) (linux : setup.linux = true)
    {dram nvm : Table} {channel : Int} {os os₁ : Os} {a : Fastalloc} {requests : List Request}
    (started : setup.init (.new dram nvm channel) os = .ok (a, os₁)) :
    Every setup.step (Honest setup.firstLength) (a, os₁) requests ↔
      Guarded setup.step Backed (a, os₁) requests := by
  have fits := setup.firstLength_le
  have growth : setup.growth = OptaneStudy.growth true := by
    rw [Setup.growth, copy, linux]
  rw [setup.step_eq, growth]
  refine every_iff_guarded (Recorded setup.firstLength) ?_ ?_ ((setup.init_started started).recorded linux)
  · intro state request recorded backed
    exact recorded.step fits backed
  · intro state request pointer next recorded called honest
    exact honest.backed recorded fits called

/-- The system of `spacedOs` with a disk that holds one region only. -/
def fullOs : Os :=
  { spacedOs with mapAnswer := fun k => if k < 3 then spacedOs.mapAnswer k else ⟨3, 28, MAP_FAILED⟩ }

theorem mapping_honest_iff_full : ∃ a os₁,
    Setup.init ⟨.optaneStudy, .plain, true, 2, 0⟩
      (.new (Vector.replicate 100 0) (Vector.replicate 100 0) 0) fullOs = .ok (a, os₁) ∧
    (Every (Setup.step ⟨.optaneStudy, .plain, true, 2, 0⟩) (Honest ALLOC_SIZE) (a, os₁)
        [⟨5, true⟩, ⟨100, false⟩] ↔
      Guarded (Setup.step ⟨.optaneStudy, .plain, true, 2, 0⟩) Backed (a, os₁) [⟨5, true⟩, ⟨100, false⟩]) :=
  ⟨_, _, rfl, mapping_honest_iff ⟨.optaneStudy, .plain, true, 2, 0⟩ rfl rfl
    (show Setup.init _ (.new (Vector.replicate 100 0) (Vector.replicate 100 0) 0) fullOs = .ok (_, _) from rfl)⟩

/-- `posix_fallocate` returns `ENOSPC`, which is positive, and `mmap` returns
`MAP_FAILED`: the second call hands that address out. -/
theorem mapping_dishonest : ∃ a os₁,
    Setup.init ⟨.optaneStudy, .plain, true, 2, 0⟩
      (.new (Vector.replicate 100 0) (Vector.replicate 100 0) 0) fullOs = .ok (a, os₁) ∧
    ¬ Every (Setup.step ⟨.optaneStudy, .plain, true, 2, 0⟩) (Honest ALLOC_SIZE) (a, os₁)
      [⟨ALLOC_SIZE, true⟩, ⟨64, true⟩] := by
  refine ⟨_, _, rfl, fun every => ?_⟩
  have honest := (show Every _ _ _ ([_] ++ [_]) from every).last
    (show run _ _ _ = .ok (_, _) from rfl) (show Setup.step _ _ _ = .ok (_, _) from rfl) rfl
  rcases honest with ⟨_, mapped⟩ | refused
  · exact mapped.base rfl
  · have null := refused.null
    contradiction

end RwSep.Allocator
