import RwSep.Allocator.Placement
import RwSep.Data.Decimal

namespace RwSep.Allocator

open RwSep.Data RwSep.Execution RwSep.Packing

/-! What kind of memory stands behind the entries of `nvm`. -/

def Backing.Under (front : String) : Backing → Prop
  | .heap => False
  | .file path => StartsWith path front

instance (front : String) (backing : Backing) : Decidable (backing.Under front) :=
  match backing with
  | .heap => inferInstanceAs (Decidable False)
  | .file path => inferInstanceAs (Decidable (StartsWith path front))

/-- What `mmap` answers when the system next fills an NVM entry, after the `new char` there. -/
def Os.nextMapping (os : Os) : Word := (os.mapAnswer (os.log.length + 1)).address

theorem file_region_base {log : List Event} {range : Range} {path : String}
    (member : (⟨range, .file path⟩ : Region) ∈ regions log) : range.base ≠ MAP_FAILED := by
  obtain ⟨event, _, found⟩ := List.mem_filterMap.mp member
  cases event with
  | newChar length address => simp [Event.region?] at found
  | mapFile path length answer =>
      simp only [Event.region?] at found
      split at found
      · contradiction
      · rename_i mapped
        simp only [Option.some.injEq, Region.mk.injEq] at found
        rw [← found.1]
        exact mapped

theorem region_base {log : List Event} {region : Region} {front : String} (member : region ∈ regions log)
    (under : region.backing.Under front) : region.range.base ≠ MAP_FAILED := by
  obtain ⟨range, backing⟩ := region
  cases backing with
  | heap => exact under.elim
  | file path => exact file_region_base member

section Fill

variable {os : Os} {path : String} {length : Word}

theorem mappedFill_address : (os.fill (mappedFill true path length)).1 = os.nextMapping := by
  simp [mappedFill, Os.fill, Os.obtainAll, Os.obtain, Os.respond, Event.address, Os.nextMapping]

theorem mappedFill_region (mapped : os.nextMapping ≠ MAP_FAILED) :
    (⟨⟨os.nextMapping, length.toNat⟩, .file path⟩ : Region) ∈
      regions (os.fill (mappedFill true path length)).2.log := by
  have last : ((os.obtainAll (mappedFill true path length).overwritten).respond
      (mappedFill true path length).kept).region? = some ⟨⟨os.nextMapping, length.toNat⟩, .file path⟩ := by
    simp only [mappedFill, if_true, Os.obtainAll, Os.obtain, Os.respond, Event.region?, List.length_append,
      List.length_singleton]
    exact if_neg mapped
  obtain ⟨events, grown⟩ := os.fill_log (mappedFill true path length)
  rw [grown, regions_append]
  apply List.mem_append_right
  simp [regions, last]

end Fill

def FitsNvm (state : Fastalloc × Os) (request : Request) : Prop :=
  request.onNvm = true → roundUp request.size ≤ state.1.nvmLeft

/-- Each `nvm` entry in use is a region of the log, of a kind its number allows. -/
def Traced (first : Word) (kind : Nat → Backing → Prop) (a : Fastalloc) (log : List Event) : Prop :=
  ∀ index < (a.pool true).cnt.toNat, ∃ region ∈ regions log,
    region.range = (a.pool true).region first index ∧ kind index region.backing

section Run

variable {growth : Fastalloc → Fill} {a b after : Fastalloc} {os os' : Os} {first size pointer : Word}
variable {requests : List Request} {pointers : List Word} {onNvm : Bool} {kind : Nat → Backing → Prop}

theorem Traced.served (traced : Traced first kind a os.log)
    (lengths : ∀ a, (growth a).kept.length = ALLOC_SIZE) (started : 0 < (a.pool true).cnt.toNat)
    (kinds : kind (a.pool true).cnt.toNat (growth a).kept.backing)
    (outcome : Served growth a os size onNvm pointer after os')
    (obtained : os' = (os.fill (growth a)).2 →
      (⟨⟨(os.fill (growth a)).1, (growth a).kept.length.toNat⟩, (growth a).kept.backing⟩ : Region) ∈ regions os'.log) :
    Traced first kind after os'.log := by
  intro index live
  by_cases old : index < (a.pool true).cnt.toNat
  · obtain ⟨region, member, range, allowed⟩ := traced index old
    obtain ⟨events, grown⟩ := outcome.log
    refine ⟨region, by rw [grown]; simp [member], ?_, allowed⟩
    rw [range]
    simp only [Pool.region, (outcome.entries true).2 index old]
  · cases outcome with
    | fit room served other channel =>
        cases onNvm with
        | true => simp [served, old] at live
        | false =>
            change after.pool true = a.pool true at other
            rw [other] at live
            exact absurd live old
    | grow full bound served other channel =>
        cases onNvm with
        | true =>
            have newest : index = (a.pool true).cnt.toNat := by
              simp only [served, Pool.take_cnt, Pool.opened_cnt] at live
              omega
            subst newest
            refine ⟨_, obtained rfl, ?_, kinds⟩
            have whole : regionLength first (a.pool true).cnt.toNat = ALLOC_SIZE.toNat := by
              rw [regionLength, if_neg (by omega)]
            simp [served, Pool.region, whole, Fastalloc.fill, lengths]
        | false =>
            change after.pool true = a.pool true at other
            rw [other] at live
            exact absurd live old

theorem Traced.run {channel : Int} (traced : Traced first kind a os.log)
    (lengths : ∀ a, (growth a).kept.length = ALLOC_SIZE) (started : 0 < (a.pool true).cnt.toNat)
    (set : a.channel = channel)
    (kinds : ∀ a : Fastalloc, a.channel = channel → 0 < (a.pool true).cnt.toNat →
      kind (a.pool true).cnt.toNat (growth a).kept.backing)
    (ran : run (step growth) (a, os) requests = .ok (pointers, (b, os'))) (granted : Granted os'.log) :
    Traced first kind b os'.log := by
  refine (run_granted (fun state => Traced first kind state.1 state.2.log ∧
    0 < (state.1.pool true).cnt.toNat ∧ state.1.channel = channel) ?_ ⟨traced, started, set⟩ ran granted).1
  intro state request pointer found given called granted
  obtain ⟨after, osAfter⟩ := found
  obtain ⟨traced, started, set⟩ := given
  have outcome := Fastalloc.allocWith_served called
  refine ⟨traced.served lengths started (kinds state.1 set started) outcome fun same => ?_,
    Nat.lt_of_lt_of_le started (outcome.entries true).1, outcome.channel_eq.trans set⟩
  obtain rfl : osAfter = (state.2.fill (growth state.1)).2 := same
  exact granted.fill_region.1

/-- Growth with `new` alone needs no mapping. -/
theorem Traced.run_heap (traced : Traced first kind a os.log) (lengths : ∀ a, (growth a).kept.length = ALLOC_SIZE)
    (heap : ∀ a, (growth a).kept.backing = .heap) (started : 0 < (a.pool true).cnt.toNat)
    (kinds : ∀ index, 0 < index → kind index .heap)
    (ran : Execution.run (step growth) (a, os) requests = .ok (pointers, (b, os'))) : Traced first kind b os'.log := by
  refine (run_preserves (fun state => Traced first kind state.1 state.2.log ∧ 0 < (state.1.pool true).cnt.toNat)
    ?_ ⟨traced, started⟩ ran).1
  intro state request pointer found given called
  obtain ⟨after, osAfter⟩ := found
  obtain ⟨traced, started⟩ := given
  have outcome := Fastalloc.allocWith_served called
  have allowed : kind (state.1.pool true).cnt.toNat (growth state.1).kept.backing := by
    rw [heap]
    exact kinds _ started
  refine ⟨traced.served lengths started allowed outcome fun same => ?_,
    Nat.lt_of_lt_of_le started (outcome.entries true).1⟩
  obtain rfl : osAfter = (state.2.fill (growth state.1)).2 := same
  exact fill_region_heap (heap state.1)

theorem run_first_entry (started : 0 < (a.pool true).cnt.toNat)
    (ran : run (step growth) (a, os) requests = .ok (pointers, (b, os'))) :
    (b.pool true).entry 0 = (a.pool true).entry 0 ∧ 0 < (b.pool true).cnt.toNat := by
  refine run_preserves (fun state => (state.1.pool true).entry 0 = (a.pool true).entry 0 ∧
    0 < (state.1.pool true).cnt.toNat) ?_ ⟨rfl, started⟩ ran
  intro state request pointer next given called
  obtain ⟨same, used⟩ := given
  obtain ⟨more, kept⟩ := (Fastalloc.allocWith_served called).entries true
  exact ⟨(kept 0 used).trans same, Nat.lt_of_lt_of_le used more⟩

theorem Served.opens_iff {request : Request}
    (outcome : Served growth a os (roundUp request.size) request.onNvm pointer after os') :
    (after.pool true).cnt = (a.pool true).cnt ↔ FitsNvm (a, os) request := by
  unfold FitsNvm
  cases requested : request.onNvm with
  | true =>
      rw [requested] at outcome
      cases outcome with
      | fit room served other channel => exact iff_of_true (by rw [served, Pool.take_cnt]) fun _ => room
      | grow full bound served other channel =>
          refine iff_of_false (fun same => ?_) fun fits => absurd (fits rfl) (BitVec.not_le.mpr full)
          have grown := congrArg (fun pool => pool.cnt.toNat) served
          simp only [Pool.take_cnt, Pool.opened_cnt, same] at grown
          omega
  | false =>
      rw [requested] at outcome
      refine iff_of_true ?_ (by simp)
      cases outcome with
      | fit room served other channel => exact congrArg Pool.cnt other
      | grow full bound served other channel => exact congrArg Pool.cnt other

/-- A run opens no NVM region exactly when every NVM request fits. -/
theorem nvm_unopened_iff (ran : run (step growth) (a, os) requests = .ok (pointers, (b, os'))) :
    (b.pool true).cnt = (a.pool true).cnt ↔ Guarded (step growth) FitsNvm (a, os) requests := by
  refine good_iff_guarded (fun state => (a.pool true).cnt ≤ (state.1.pool true).cnt)
    (fun state => (state.1.pool true).cnt = (a.pool true).cnt) ?_ ?_ ?_
    (BitVec.le_refl _) rfl ran
  · intro state request pointer next started called
    exact BitVec.le_trans started ((Fastalloc.allocWith_served called).entries true).1
  · intro state request pointer next started called same
    have grown := ((Fastalloc.allocWith_served called).entries true).1
    have above := BitVec.le_def.mp started
    refine BitVec.eq_of_toNat_eq ?_
    rw [same] at grown
    omega
  · intro state request pointer next started same called
    rw [← same]
    exact (Fastalloc.allocWith_served called).opens_iff

end Run

theorem Setup.Started.first_entry {setup : Setup} {dram nvm : Table} {channel : Int} {os os' : Os} {a : Fastalloc}
    (started : setup.Started dram nvm channel os a os') :
    (a.pool true).entry 0 = ((setup.afterDram os).fill setup.firstFill).1 := by
  rw [started.nvm]
  exact Pool.opened_entry_new _ _ _ (Pool.unused_bound nvm)

/-! # Blocks and entries under one path -/

def BlocksUnder (front : String) (log : List Event) (blocks : List Block) : Prop :=
  ∀ block ∈ blocks, block.onNvm = true →
    ∃ region ∈ regions log, block.range.Inside region.range ∧ region.backing.Under front

instance (front : String) (log : List Event) (handed : List Block) :
    Decidable (BlocksUnder front log handed) :=
  inferInstanceAs (Decidable (∀ block ∈ handed, block.onNvm = true →
    ∃ region ∈ regions log, block.range.Inside region.range ∧ region.backing.Under front))

def EntriesUnder (front : String) (first : Word) (a : Fastalloc) (log : List Event) : Prop :=
  Traced first (fun _ backing => backing.Under front) a log

section Blocks

variable {front : String} {first : Word} {a : Fastalloc} {log : List Event} {handed : List Block}
variable {slots : List (Bool × Slot)}

theorem EntriesUnder.blocks (entries : EntriesUnder front first a log)
    (placed : List.Forall₂ (Placed first a) handed slots) (fits : first.toNat ≤ ALLOC_SIZE.toNat) :
    BlocksUnder front log handed := by
  intro block member nvm
  obtain ⟨slot, _, place⟩ := exists_of_forall₂ placed member
  have live := place.located.live
  have inside := (place.inside fits).1
  rw [nvm] at live inside
  obtain ⟨region, inLog, range, under⟩ := entries slot.2.bin live
  exact ⟨region, inLog, range ▸ inside, under⟩

/-- The kinds of the two copies whose `alloc` opens NVM regions with `new`. -/
def HeapAfterFirst (front : String) (index : Nat) (backing : Backing) : Prop :=
  if index = 0 then backing.Under front else backing = .heap

theorem Traced.entries_of_single (kind : Nat → Backing → Prop) (traced : Traced first kind a log)
    (mapped : ∀ backing, kind 0 backing → backing.Under front) (single : (a.pool true).cnt.toNat = 1) :
    EntriesUnder front first a log := by
  intro index live
  obtain ⟨region, member, range, allowed⟩ := traced index live
  obtain rfl : index = 0 := by omega
  exact ⟨region, member, range, mapped _ allowed⟩

variable (traced : Traced first (HeapAfterFirst front) a log)

include traced

/-- An address of a later region is in no mapped file. -/
theorem Traced.not_under {index : Nat} (later : index ≠ 0) (live : index < (a.pool true).cnt.toNat)
    (apart : (regions log).Pairwise fun earlier later => earlier.range.Disjoint later.range) {region : Region}
    (inLog : region ∈ regions log) {address : Word} (inEntry : address ∈ (a.pool true).region first index)
    (inRegion : address ∈ region.range) : ¬ region.backing.Under front := by
  obtain ⟨entry, member, range, kind⟩ := traced index live
  rw [HeapAfterFirst, if_neg later] at kind
  obtain rfl := regions_unique apart member inLog (range ▸ inEntry) inRegion
  rw [kind]
  exact id

theorem Traced.single_of_entries
    (apart : (regions log).Pairwise fun earlier later => earlier.range.Disjoint later.range)
    (entries : EntriesUnder front first a log) : (a.pool true).cnt.toNat ≤ 1 := by
  by_contra several
  obtain ⟨region, member, range, under⟩ := entries 1 (by omega)
  have start : ((a.pool true).region first 1).base ∈ (a.pool true).region first 1 := by
    rw [Range.mem_iff, BitVec.sub_self]
    exact (by decide : 0 < ALLOC_SIZE.toNat)
  exact traced.not_under (by decide) (by omega) apart member start (range ▸ start) under

end Blocks

namespace Setup

variable {setup : Setup} {dram nvm : Table} {channel : Int} {os os₁ os₂ : Os} {a b : Fastalloc}

theorem Started.traced (started : setup.Started dram nvm channel os a os₁)
    (obtained : (⟨⟨((setup.afterDram os).fill setup.firstFill).1, setup.firstFill.kept.length.toNat⟩,
      setup.firstFill.kept.backing⟩ : Region) ∈ regions os₁.log)
    {kind : Nat → Backing → Prop} (first : kind 0 setup.firstFill.kept.backing) :
    Traced setup.firstLength kind a os₁.log := by
  intro index live
  rw [started.cnt] at live
  obtain rfl : index = 0 := by omega
  refine ⟨_, obtained, ?_, first⟩
  simp only [Pool.region, firstFill, mappedFill_length, regionLength, if_true]
  exact congrArg (Range.mk · _) started.first_entry.symm

theorem Started.traced_granted (started : setup.Started dram nvm channel os a os₁) (granted : Granted os₁.log)
    {kind : Nat → Backing → Prop} (first : kind 0 setup.firstFill.kept.backing) :
    Traced setup.firstLength kind a os₁.log := by
  apply started.traced _ first
  rw [started.system] at granted ⊢
  exact granted.fill_region.1

theorem firstPath_startsWith (nvmCnt : Word) : StartsWith (setup.firstPath nvmCnt) "/mnt/aep" := by
  obtain ⟨copy, kind, linux, channel, thread⟩ := setup
  unfold StartsWith
  cases copy <;> cases kind <;>
    simp [firstPath, OptaneStudy.nvmFilename, Fastallocate.nvmFilename, List.prefix_iff_eq_take]

theorem growth_heap (copy : setup.copy ≠ .optaneStudy) (a : Fastalloc) :
    (setup.growth a).kept.backing = .heap := by
  unfold growth
  cases which : setup.copy with
  | optaneStudy => exact absurd which copy
  | fastallocate => rfl
  | pmStudy => rfl

theorem Started.run_traced (opened : setup.Started dram nvm channel os a os₁)
    (copy : setup.copy ≠ .optaneStudy) (linux : setup.linux = true)
    (mapped : (setup.afterDram os).nextMapping ≠ MAP_FAILED) {requests : List Request} {pointers : List Word}
    (ran : run (Allocator.step setup.growth) (a, os₁) requests = .ok (pointers, (b, os₂))) :
    Traced setup.firstLength (HeapAfterFirst "/mnt/aep") b os₂.log := by
  refine (opened.traced ?_ ?_).run_heap setup.growth_length (setup.growth_heap copy) (by rw [opened.cnt]; decide)
    (fun index later => ?_) ran
  · rw [opened.system, firstFill, linux, mappedFill_address]
    exact mappedFill_region mapped
  · rw [HeapAfterFirst, if_pos rfl, firstFill, mappedFill, if_pos linux]
    exact setup.firstPath_startsWith 0
  · rw [HeapAfterFirst, if_neg (Nat.ne_of_gt later)]

end Setup

/-- In the copies whose growth statements are commented out, NVM entries are
persistent memory exactly as long as `init` gets its mapping and its region
suffices.  NVM blocks are so, once it has got it, exactly as long as the region
suffices.  The system hands out regions that do not overlap. -/
theorem nvm_persistent_iff (setup : Setup) (copy : setup.copy ≠ .optaneStudy) (linux : setup.linux = true)
    {dram nvm : Table} {channel : Int} {os os₁ os₂ : Os} {a b : Fastalloc} {requests : List Request}
    {pointers : List Word} (started : setup.init (.new dram nvm channel) os = .ok (a, os₁))
    (short : ∀ request ∈ requests, request.size ≤ ALLOC_SIZE)
    (ran : run setup.step (a, os₁) requests = .ok (pointers, (b, os₂)))
    (apart : (regions os₂.log).Pairwise fun earlier later => earlier.range.Disjoint later.range) :
    (EntriesUnder "/mnt/aep" setup.firstLength b os₂.log ↔ (setup.afterDram os).nextMapping ≠ MAP_FAILED ∧
      Guarded setup.step FitsNvm (a, os₁) requests) ∧
    ((setup.afterDram os).nextMapping ≠ MAP_FAILED →
      (BlocksUnder "/mnt/aep" os₂.log (blocks requests pointers) ↔
        Guarded setup.step FitsNvm (a, os₁) requests)) := by
  have opened := setup.init_started started
  have fits := setup.firstLength_le
  rw [setup.step_eq] at ran ⊢
  obtain ⟨placed, related⟩ := run_placed opened.represents
    (fun request member => Request.small_of_le (short request member)) ran
  have unopened := nvm_unopened_iff ran
  have single : (b.pool true).cnt.toNat = 1 ↔ (b.pool true).cnt = (a.pool true).cnt := by
    rw [← BitVec.toNat_inj, opened.cnt]
  rw [← unopened, ← single]
  have entries (mapped : (setup.afterDram os).nextMapping ≠ MAP_FAILED) (alone : (b.pool true).cnt.toNat = 1) :
      EntriesUnder "/mnt/aep" setup.firstLength b os₂.log := by
    apply (opened.run_traced copy linux mapped ran).entries_of_single _ _ alone
    exact fun backing kind => by rwa [HeapAfterFirst, if_pos rfl] at kind
  apply And.intro
  · apply Iff.intro
    · intro under
      obtain ⟨same, used⟩ := run_first_entry (by rw [opened.cnt]; decide) ran
      have mapped : (setup.afterDram os).nextMapping ≠ MAP_FAILED := by
        obtain ⟨region, member, range, underPath⟩ := under 0 used
        have base := region_base member underPath
        rw [range] at base
        change (b.pool true).entry 0 ≠ _ at base
        rwa [same, opened.first_entry, Setup.firstFill, linux, mappedFill_address] at base
      have few := (opened.run_traced copy linux mapped ran).single_of_entries apart under
      exact ⟨mapped, by omega⟩
    · exact fun both => entries both.1 both.2
  · intro mapped
    apply Iff.intro
    · intro under
      by_contra several
      have bin := (related true).bin
      obtain ⟨slot, member, nvm, later, long⟩ := Depot.pack_opens ALLOC_SIZE.toNat
        (fun _ => .opened 0 setup.firstLength.toNat) (items requests) true (by change 0 < _; omega)
      obtain ⟨block, handed, place⟩ := exists_of_forall₂ placed.flip member
      have onNvm : block.onNvm = true := place.pool.symm.trans nvm
      have live := place.located.live
      have inside := (place.inside fits).1
      rw [onNvm] at live inside
      have positive : 0 < block.range.length := by
        have := place.rounded
        omega
      obtain ⟨region, inLog, inRegion, underPath⟩ := under block handed onNvm
      exact (opened.run_traced copy linux mapped ran).not_under (Nat.ne_of_gt later) live apart inLog
        (inside.base_mem positive) (inRegion.base_mem positive) underPath
    · exact fun alone => (entries mapped alone).blocks placed fits

theorem nvm_persistent_iff_small : ∃ a os₁ b os₂ pointers,
    Setup.init ⟨.pmStudy, .concurrency, true, 0, 7⟩
      (.new (Vector.replicate 100 0) (Vector.replicate 100 0) 0) spacedOs = .ok (a, os₁) ∧
    run (Setup.step ⟨.pmStudy, .concurrency, true, 0, 7⟩) (a, os₁) [⟨100, true⟩, ⟨5, false⟩] =
      .ok (pointers, (b, os₂)) ∧
    (EntriesUnder "/mnt/aep" CONCURRENCY_ALLOC_SIZE b os₂.log ↔
      (Setup.afterDram ⟨.pmStudy, .concurrency, true, 0, 7⟩ spacedOs).nextMapping ≠ MAP_FAILED ∧
        Guarded (Setup.step ⟨.pmStudy, .concurrency, true, 0, 7⟩) FitsNvm (a, os₁) [⟨100, true⟩, ⟨5, false⟩]) ∧
    (BlocksUnder "/mnt/aep" os₂.log (blocks [⟨100, true⟩, ⟨5, false⟩] pointers) ↔
      Guarded (Setup.step ⟨.pmStudy, .concurrency, true, 0, 7⟩) FitsNvm (a, os₁)
        [⟨100, true⟩, ⟨5, false⟩]) := by
  have persistent := nvm_persistent_iff ⟨.pmStudy, .concurrency, true, 0, 7⟩ (by decide) rfl
    (show Setup.init _ (.new (Vector.replicate 100 0) (Vector.replicate 100 0) 0) spacedOs = .ok (_, _) from rfl)
    (by decide) (show run _ _ [⟨100, true⟩, ⟨5, false⟩] = .ok (_, (_, _)) from rfl)
    ((show List.Pairwise _ _ by decide).imp Range.Separate.disjoint)
  exact ⟨_, _, _, _, _, rfl, rfl, persistent.1, persistent.2 (by decide)⟩

/-- One whole region, then one line: the line is in a region from `new`. -/
theorem nvm_volatile_after_growth : ∃ a os₁ b os₂ pointers,
    Setup.init ⟨.fastallocate, .plain, true, 0, 0⟩
      (.new (Vector.replicate 100 0) (Vector.replicate 100 0) 0) spacedOs = .ok (a, os₁) ∧
    run (Setup.step ⟨.fastallocate, .plain, true, 0, 0⟩) (a, os₁) [⟨ALLOC_SIZE, true⟩, ⟨64, true⟩] =
      .ok (pointers, (b, os₂)) ∧
    Granted os₂.log ∧
    ¬ BlocksUnder "/mnt/aep" os₂.log (blocks [⟨ALLOC_SIZE, true⟩, ⟨64, true⟩] pointers) ∧
    ¬ EntriesUnder "/mnt/aep" ALLOC_SIZE b os₂.log := by
  refine ⟨_, _, _, _, _, rfl, rfl,
    ⟨by decide, (show List.Pairwise _ _ by decide).imp Range.Separate.disjoint⟩, ?_, ?_⟩
  · decide
  · intro entries
    obtain ⟨region, member, range, under⟩ := entries 1 (by decide)
    revert region
    decide

end RwSep.Allocator
