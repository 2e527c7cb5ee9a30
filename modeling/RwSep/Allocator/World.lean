import Mathlib.Data.List.Nodup
import RwSep.Allocator.Files

namespace RwSep.Allocator

open RwSep.Data RwSep.Execution

/-! Several OptaneStudy allocators side by side.

They share the system and nothing else; every region they map is a file of
the same file systems.
-/

structure Member where
  kind : Kind
  channel : Int
  thread : BitVec 32
  object : Fastalloc

def Member.setup (member : Member) : Setup :=
  ⟨.optaneStudy, member.kind, true, member.channel, member.thread⟩

structure World where
  members : List Member
  os : Os

/-- A call from outside: `new` and `init` of an object whose memory holds the
given garbage, or `alloc` of the member at an index. -/
inductive Action where
  | init (kind : Kind) (channel : Int) (thread : BitVec 32) (dram nvm : Table) (garbage : Int)
  | alloc (index : Nat) (request : Request)

def World.initial (newAnswer : Nat → Word) (mapAnswer : Nat → MapAnswer) : World :=
  ⟨[], ⟨newAnswer, mapAnswer, []⟩⟩

/-- One call; `alloc` at an index without an object is no call at all. -/
def World.step (world : World) : Action → Except Stop (Option Word × World)
  | .init kind channel thread dram nvm garbage =>
      match Setup.init ⟨.optaneStudy, kind, true, channel, thread⟩ (.new dram nvm garbage) world.os with
      | .error reason => .error reason
      | .ok (object, os) => .ok (none, ⟨world.members ++ [⟨kind, channel, thread, object⟩], os⟩)
  | .alloc index request =>
      match world.members[index]? with
      | none => .ok (none, world)
      | some member =>
          match member.setup.step (member.object, world.os) request with
          | .error reason => .error reason
          | .ok (pointer, object, os) =>
              .ok (some pointer, ⟨world.members.set index { member with object }, os⟩)

/-- The numbers of the calls do not meet: what a call needs so that the file it
opens, if any, is none of the files opened before. -/
def World.Clear (world : World) : Action → Prop
  | .init .plain channel _ _ _ _ =>
      ∀ member ∈ world.members, member.kind = .plain → member.channel ≠ channel
  | .init .concurrency channel thread _ _ _ =>
      ∀ member ∈ world.members,
        (member.kind = .concurrency → member.channel = channel → member.thread ≠ thread) ∧
        (member.object.channel = channel → thread ≠ 0 →
          member.object.nvmCnt.toNat ≤ 10 * thread.toNat)
  | .alloc index request =>
      ∀ grower, world.members[index]? = some grower → ¬ FitsNvm (grower.object, world.os) request →
        ∀ other member, world.members[other]? = some member →
          (other ≠ index → member.object.channel = grower.object.channel →
            member.object.nvmCnt ≤ grower.object.nvmCnt) ∧
          (member.kind = .concurrency → member.channel = grower.object.channel → member.thread ≠ 0 →
            grower.object.nvmCnt.toNat ≠ 10 * member.thread.toNat)

def Member.Opened (member : Member) (path : String) : Prop :=
  path = member.setup.firstPath 0 ∨
    ∃ number, 1 ≤ number ∧ number < member.object.nvmCnt.toNat ∧
      path = OptaneStudy.regionPath member.object.channel "" number

structure Member.Valid (member : Member) : Prop where
  used : 0 < member.object.nvmCnt.toNat
  placed : member.kind = .plain → member.object.channel = member.channel

structure World.Valid (world : World) : Prop where
  members : ∀ member ∈ world.members, member.Valid
  opened : ∀ path, path ∈ paths world.os.log ↔ ∃ member ∈ world.members, member.Opened path

/-! # Names against names -/

namespace Member

variable {member : Member} {channel : Int} {thread : BitVec 32} {number : Nat}

theorem firstPath_plain (kind : member.kind = .plain) :
    member.setup.firstPath 0 = OptaneStudy.regionPath member.channel "" 0 := by
  rw [setup, kind]
  rfl

theorem firstPath_concurrency (kind : member.kind = .concurrency) :
    member.setup.firstPath 0 =
      OptaneStudy.regionPath member.channel (toString member.thread.toNat) 0 := by
  rw [setup, kind]
  rfl

theorem opened_grown_iff : member.Opened (OptaneStudy.regionPath channel "" number) ↔
    (member.kind = .plain ∧ member.channel = channel ∧ number = 0) ∨
    (member.kind = .concurrency ∧ member.channel = channel ∧ member.thread ≠ 0 ∧
      number = 10 * member.thread.toNat) ∨
    (member.object.channel = channel ∧ 1 ≤ number ∧ number < member.object.nvmCnt.toNat) := by
  have grown : (∃ other, 1 ≤ other ∧ other < member.object.nvmCnt.toNat ∧
      OptaneStudy.regionPath channel "" number = OptaneStudy.regionPath member.object.channel "" other) ↔
      member.object.channel = channel ∧ 1 ≤ number ∧ number < member.object.nvmCnt.toNat := by
    apply Iff.intro
    · intro found
      obtain ⟨other, positive, below, same⟩ := found
      obtain ⟨rfl, rfl⟩ := OptaneStudy.grown_eq_grown_iff.mp same
      exact ⟨rfl, positive, below⟩
    · intro found
      obtain ⟨rfl, positive, below⟩ := found
      exact ⟨number, positive, below, rfl⟩
  unfold Opened
  rw [grown]
  cases kind : member.kind with
  | plain =>
      rw [firstPath_plain kind, OptaneStudy.grown_eq_grown_iff, eq_comm (a := channel)]
      simp
  | concurrency =>
      rw [firstPath_concurrency kind, eq_comm, OptaneStudy.threaded_eq_grown_iff]
      simp

theorem opened_threaded_iff : member.Opened (OptaneStudy.regionPath channel (toString thread.toNat) 0) ↔
    (member.kind = .concurrency ∧ member.channel = channel ∧ member.thread = thread) ∨
    (member.object.channel = channel ∧ thread ≠ 0 ∧
      10 * thread.toNat < member.object.nvmCnt.toNat) := by
  have grown : (∃ other, 1 ≤ other ∧ other < member.object.nvmCnt.toNat ∧
      OptaneStudy.regionPath channel (toString thread.toNat) 0 =
        OptaneStudy.regionPath member.object.channel "" other) ↔
      member.object.channel = channel ∧ thread ≠ 0 ∧ 10 * thread.toNat < member.object.nvmCnt.toNat := by
    apply Iff.intro
    · intro found
      obtain ⟨other, positive, below, same⟩ := found
      obtain ⟨rfl, nonzero, rfl⟩ := OptaneStudy.threaded_eq_grown_iff.mp same
      exact ⟨rfl, nonzero, below⟩
    · intro found
      obtain ⟨rfl, nonzero, below⟩ := found
      refine ⟨10 * thread.toNat, ?_, below, OptaneStudy.threaded_eq_grown_iff.mpr ⟨rfl, nonzero, rfl⟩⟩
      have : thread.toNat ≠ 0 := fun zero => nonzero (BitVec.eq_of_toNat_eq zero)
      omega
  unfold Opened
  rw [grown]
  cases kind : member.kind with
  | plain =>
      rw [firstPath_plain kind, OptaneStudy.threaded_eq_grown_iff]
      have noZero : ¬ (thread ≠ 0 ∧ 0 = 10 * thread.toNat) := by
        intro found
        obtain ⟨nonzero, zero⟩ := found
        exact nonzero (BitVec.eq_of_toNat_eq (by simpa using zero.symm))
      rw [or_iff_right fun same => noZero same.2]
      simp
  | concurrency =>
      rw [firstPath_concurrency kind, eq_comm, OptaneStudy.threaded_eq_threaded_iff]
      simp

end Member

namespace World

/-! # What one call does -/

inductive Stepped (world : World) : Action → World → Prop where
  | opened {kind : Kind} {channel garbage : Int} {thread : BitVec 32} {dram nvm : Table}
      {object : Fastalloc} {os : Os}
      (valid : (Member.mk kind channel thread object).Valid) (single : object.nvmCnt.toNat = 1)
      (logged : paths os.log =
        paths world.os.log ++ [(Member.mk kind channel thread object).setup.firstPath 0]) :
      Stepped world (.init kind channel thread dram nvm garbage)
        ⟨world.members ++ [⟨kind, channel, thread, object⟩], os⟩
  | absent {index : Nat} {request : Request} (missing : world.members[index]? = none) :
      Stepped world (.alloc index request) world
  | kept {index : Nat} {request : Request} {member : Member} {object : Fastalloc} {os : Os}
      (found : world.members[index]? = some member)
      (channel : object.channel = member.object.channel) (same : object.nvmCnt = member.object.nvmCnt)
      (fits : FitsNvm (member.object, world.os) request) (logged : paths os.log = paths world.os.log) :
      Stepped world (.alloc index request) ⟨world.members.set index { member with object }, os⟩
  | grown {index : Nat} {request : Request} {member : Member} {object : Fastalloc} {os : Os}
      (found : world.members[index]? = some member)
      (channel : object.channel = member.object.channel)
      (more : object.nvmCnt.toNat = member.object.nvmCnt.toNat + 1)
      (full : ¬ FitsNvm (member.object, world.os) request)
      (logged : paths os.log = paths world.os.log ++
        [OptaneStudy.regionPath member.object.channel "" member.object.nvmCnt.toNat]) :
      Stepped world (.alloc index request) ⟨world.members.set index { member with object }, os⟩

variable {world next : World} {action : Action} {output : Option Word}

theorem step_stepped (called : world.step action = .ok (output, next)) : world.Stepped action next := by
  cases action with
  | init kind channel thread dram nvm garbage =>
      simp only [step] at called
      split at called
      · contradiction
      · rename_i object os started
        cases called
        have opened := Setup.init_started started
        have single : object.nvmCnt.toNat = 1 := opened.cnt true
        refine .opened ⟨by rw [single]; decide, fun plain => ?_⟩ single (opened.paths rfl)
        exact (opened.channel_eq rfl).mpr (.inl plain)
  | alloc index request =>
      simp only [step] at called
      split at called
      · rename_i missing
        cases called
        exact .absent missing
      · rename_i member found
        split at called
        · contradiction
        · rename_i pointer object os stepped
          cases called
          rw [Setup.step_eq, Setup.growth_optaneStudy rfl rfl] at stepped
          have outcome : Served (OptaneStudy.growth true) member.object world.os _ _ pointer object os :=
            Fastalloc.allocWith_served stepped
          have opens := outcome.opens_iff
          rcases outcome.paths with ⟨same, logged⟩ | ⟨more, logged⟩
          · exact .kept found outcome.channel_eq same (opens.mp same) logged
          · refine .grown found outcome.channel_eq more (fun fits => ?_) logged
            rw [opens.mpr fits] at more
            omega

theorem opened_keep {member : Member} {object : Fastalloc} (channel : object.channel = member.object.channel)
    (same : object.nvmCnt = member.object.nvmCnt) (path : String) :
    ({ member with object } : Member).Opened path ↔ member.Opened path := by
  simp only [Member.Opened, channel, same]
  rfl

theorem opened_grow {member : Member} {object : Fastalloc} (channel : object.channel = member.object.channel)
    (used : 0 < member.object.nvmCnt.toNat)
    (more : object.nvmCnt.toNat = member.object.nvmCnt.toNat + 1) (path : String) :
    ({ member with object } : Member).Opened path ↔ member.Opened path ∨
      path = OptaneStudy.regionPath member.object.channel "" member.object.nvmCnt.toNat := by
  simp only [Member.Opened, channel, more]
  apply Iff.intro
  · intro found
    rcases found with first | ⟨number, positive, below, rfl⟩
    · exact .inl (.inl first)
    · by_cases newest : number = member.object.nvmCnt.toNat
      · exact .inr (by rw [newest])
      · exact .inl (.inr ⟨number, positive, by omega, rfl⟩)
  · intro found
    rcases found with (first | ⟨number, positive, below, rfl⟩) | rfl
    · exact .inl first
    · exact .inr ⟨number, positive, by omega, rfl⟩
    · exact .inr ⟨_, used, by omega, rfl⟩

theorem Stepped.valid (stepped : world.Stepped action next) (valid : world.Valid) : next.Valid := by
  cases stepped with
  | @opened kind channel garbage thread dram nvm object os new single logged =>
      constructor
      · intro member inNext
        rcases List.mem_append.mp inNext with old | last
        · exact valid.members member old
        · rw [List.mem_singleton.mp last]
          exact new
      · intro path
        have newOpened : (Member.mk kind channel thread object).Opened path ↔
            path = (Member.mk kind channel thread object).setup.firstPath 0 := by
          refine or_iff_left ?_
          intro found
          obtain ⟨number, positive, below, _⟩ := found
          simp only [single] at below
          omega
        simp only [logged, List.mem_append, valid.opened, List.mem_singleton, or_and_right, exists_or,
          exists_eq_left, newOpened]
  | absent missing => exact valid
  | @kept index request member object os found channel same fits logged =>
      have old := valid.members member (List.mem_of_getElem? found)
      constructor
      · intro changed inNext
        rcases List.mem_or_eq_of_mem_set inNext with unchanged | rfl
        · exact valid.members changed unchanged
        · exact ⟨by rw [same]; exact old.used, fun plain => channel.trans (old.placed plain)⟩
      · intro path
        rw [logged, valid.opened, exists_mem_iff found, exists_mem_set_iff found, opened_keep channel same]
  | @grown index request member object os found channel more full logged =>
      have old := valid.members member (List.mem_of_getElem? found)
      constructor
      · intro changed inNext
        rcases List.mem_or_eq_of_mem_set inNext with unchanged | rfl
        · exact valid.members changed unchanged
        · exact ⟨by rw [more]; omega, fun plain => channel.trans (old.placed plain)⟩
      · intro path
        rw [logged, List.mem_append, valid.opened, exists_mem_iff found, exists_mem_set_iff found,
          opened_grow channel old.used more, List.mem_singleton, or_right_comm]

theorem Stepped.paths_grow (stepped : world.Stepped action next) :
    ∃ more, paths next.os.log = paths world.os.log ++ more := by
  cases stepped with
  | opened valid single logged => exact ⟨_, logged⟩
  | absent missing => exact ⟨[], by simp⟩
  | kept found channel same fits logged => exact ⟨[], by simp [logged]⟩
  | grown found channel more full logged => exact ⟨_, logged⟩

theorem not_opened_plain_iff {member : Member} {channel : Int} :
    ¬ member.Opened (OptaneStudy.regionPath channel "" 0) ↔
      (member.kind = .plain → member.channel ≠ channel) := by
  have noZero : ¬ (member.thread ≠ 0 ∧ 0 = 10 * member.thread.toNat) := by
    intro found
    obtain ⟨nonzero, zero⟩ := found
    exact nonzero (BitVec.eq_of_toNat_eq (by simpa using zero.symm))
  rw [Member.opened_grown_iff]
  apply Iff.intro
  · exact fun closed plain same => closed (.inl ⟨plain, same, rfl⟩)
  · intro closed found
    rcases found with ⟨plain, same, _⟩ | ⟨_, _, zero⟩ | ⟨_, positive, _⟩
    · exact closed plain same
    · exact noZero zero
    · omega

theorem not_opened_threaded_iff {member : Member} {channel : Int} {thread : BitVec 32} :
    ¬ member.Opened (OptaneStudy.regionPath channel (toString thread.toNat) 0) ↔
      (member.kind = .concurrency → member.channel = channel → member.thread ≠ thread) ∧
      (member.object.channel = channel → thread ≠ 0 →
        member.object.nvmCnt.toNat ≤ 10 * thread.toNat) := by
  rw [Member.opened_threaded_iff, not_or, not_and, not_and, not_and, not_and]
  simp only [Nat.not_lt]

theorem not_opened_grown_iff {member grower : Member} (used : 0 < grower.object.nvmCnt.toNat) :
    ¬ member.Opened (OptaneStudy.regionPath grower.object.channel "" grower.object.nvmCnt.toNat) ↔
      (member.object.channel = grower.object.channel → member.object.nvmCnt ≤ grower.object.nvmCnt) ∧
      (member.kind = .concurrency → member.channel = grower.object.channel → member.thread ≠ 0 →
        grower.object.nvmCnt.toNat ≠ 10 * member.thread.toNat) := by
  rw [Member.opened_grown_iff]
  apply Iff.intro
  · intro closed
    refine ⟨fun same => ?_, fun kind same nonzero number => ?_⟩
    · by_contra more
      exact closed (.inr (.inr ⟨same, used, BitVec.not_le.mp more⟩))
    · exact closed (.inr (.inl ⟨kind, same, nonzero, number⟩))
  · intro clear opened
    obtain ⟨fewer, unthreaded⟩ := clear
    rcases opened with ⟨_, _, zero⟩ | ⟨kind, same, nonzero, number⟩ | ⟨same, _, below⟩
    · omega
    · exact unthreaded kind same nonzero number
    · exact absurd (fewer same) (BitVec.not_le.mpr below)

/-- A valid world's names stay apart exactly when the call is clear of them. -/
theorem Stepped.distinct_iff (stepped : world.Stepped action next) (valid : world.Valid)
    (distinct : (paths world.os.log).Nodup) : (paths next.os.log).Nodup ↔ world.Clear action := by
  have extended : ∀ path, (paths world.os.log ++ [path]).Nodup ↔
      ∀ member ∈ world.members, ¬ member.Opened path := by
    intro path
    rw [← List.concat_eq_append, List.nodup_concat]
    rw [valid.opened]
    simp [distinct]
  cases stepped with
  | @opened kind channel garbage thread dram nvm object os new single logged =>
      rw [logged, extended]
      cases kind with
      | plain =>
          rw [Member.firstPath_plain rfl]
          exact forall_congr' fun member => imp_congr_right fun _ => not_opened_plain_iff
      | concurrency =>
          rw [Member.firstPath_concurrency rfl]
          exact forall_congr' fun member => imp_congr_right fun _ => not_opened_threaded_iff
  | absent missing =>
      refine iff_of_true distinct fun grower found => ?_
      rw [missing] at found
      contradiction
  | @kept index request member object os found channel same fits logged =>
      rw [logged]
      refine iff_of_true distinct fun grower foundGrower full => ?_
      cases found.symm.trans foundGrower
      exact absurd fits full
  | @grown index request grower object os found channel more full logged =>
      have used := (valid.members grower (List.mem_of_getElem? found)).used
      rw [logged, extended]
      apply Iff.intro
      · intro closed grower' foundGrower _ other member at_
        cases found.symm.trans foundGrower
        obtain ⟨fewer, unthreaded⟩ := (not_opened_grown_iff used).mp (closed member (List.mem_of_getElem? at_))
        exact ⟨fun _ => fewer, unthreaded⟩
      · intro clear member inWorld
        obtain ⟨other, at_⟩ := List.mem_iff_getElem?.mp inWorld
        obtain ⟨fewer, unthreaded⟩ := clear grower found full other member at_
        refine (not_opened_grown_iff used).mpr ⟨fun same => ?_, unthreaded⟩
        by_cases own : other = index
        · subst own
          cases found.symm.trans at_
          exact BitVec.le_refl _
        · exact fewer own same

end World

/-- In any run of any number of OptaneStudy objects, no two NVM regions share a
file exactly when every call of the run is clear of the names in use. -/
theorem paths_distinct_iff {newAnswer : Nat → Word} {mapAnswer : Nat → MapAnswer} {actions : List Action}
    {outputs : List (Option Word)} {world : World}
    (ran : run World.step (.initial newAnswer mapAnswer) actions = .ok (outputs, world)) :
    (paths world.os.log).Nodup ↔
      Guarded World.step World.Clear (.initial newAnswer mapAnswer) actions := by
  refine good_iff_guarded World.Valid (fun world => (paths world.os.log).Nodup) ?_ ?_ ?_ ?_ .nil ran
  · exact fun valid called => (World.step_stepped called).valid valid
  · intro world action output next _ called distinct
    obtain ⟨more, logged⟩ := (World.step_stepped called).paths_grow
    rw [logged] at distinct
    exact (List.nodup_append.mp distinct).1
  · exact fun valid distinct called => (World.step_stepped called).distinct_iff valid distinct
  · exact ⟨by simp [World.initial], by simp [World.initial, paths]⟩

theorem paths_distinct_iff_two : ∃ outputs world,
    run World.step (.initial spacedOs.newAnswer spacedOs.mapAnswer)
      [.init .plain 0 0 (Vector.replicate 100 0) (Vector.replicate 100 0) 0,
        .init .plain 1 0 (Vector.replicate 100 0) (Vector.replicate 100 0) 0,
        .alloc 0 ⟨ALLOC_SIZE, true⟩, .alloc 0 ⟨64, true⟩] = .ok (outputs, world) ∧
    ((paths world.os.log).Nodup ↔
      Guarded World.step World.Clear (.initial spacedOs.newAnswer spacedOs.mapAnswer)
        [.init .plain 0 0 (Vector.replicate 100 0) (Vector.replicate 100 0) 0,
          .init .plain 1 0 (Vector.replicate 100 0) (Vector.replicate 100 0) 0,
          .alloc 0 ⟨ALLOC_SIZE, true⟩, .alloc 0 ⟨64, true⟩]) :=
  ⟨_, _, rfl, paths_distinct_iff rfl⟩

/-- Two plain objects on one channel map one file; so do two concurrency
objects, initialised by different threads, once both have grown. -/
theorem paths_shared :
    (∃ outputs world, run World.step (.initial spacedOs.newAnswer spacedOs.mapAnswer)
        [.init .plain 0 0 (Vector.replicate 100 0) (Vector.replicate 100 0) 0,
          .init .plain 0 0 (Vector.replicate 100 0) (Vector.replicate 100 0) 0] = .ok (outputs, world) ∧
      ¬ (paths world.os.log).Nodup) ∧
    ∃ outputs world, run World.step (.initial spacedOs.newAnswer spacedOs.mapAnswer)
        [.init .concurrency 2 7 (Vector.replicate 100 0) (Vector.replicate 100 0) 2,
          .init .concurrency 2 8 (Vector.replicate 100 0) (Vector.replicate 100 0) 2,
          .alloc 0 ⟨ALLOC_SIZE, true⟩, .alloc 1 ⟨ALLOC_SIZE, true⟩] = .ok (outputs, world) ∧
      ¬ (paths world.os.log).Nodup :=
  ⟨⟨_, _, rfl, by decide⟩, _, _, rfl, by decide⟩

end RwSep.Allocator
