import RwSep.Allocator.Session

namespace RwSep.Allocator

open RwSep.Data RwSep.Execution

/-! `init_fast_allocator`, `fast_alloc` and `fast_free` of the two copies whose
allocators are the globals `myallocator` and `concurrency_myallocator`.

An object is known by the number of the `new` that made it, and keeps its
fields when it is deleted.  A DRAM block is known by its object and its entry
in `dram`, which is set once.  A stale pointer may reach both again; the deeds
of a run tell whether one did.
-/

inductive Deed where
  | used (object : Nat)
  | deletedBlock (object index : Nat) (pointer : Word)
  | deleted (object : Nat)
deriving DecidableEq, Repr

def Deed.object : Deed → Nat
  | .used object => object
  | .deletedBlock object _ _ => object
  | .deleted object => object

/-- The deed deletes again, or uses, what an earlier one deleted. -/
def Deed.Violates (later earlier : Deed) : Prop :=
  match earlier, later with
  | .deletedBlock object index _, .deletedBlock object' index' _ => object = object' ∧ index = index'
  | .deleted object, .deleted object' => object = object'
  | .deleted object, .used object' => object = object'
  | _, _ => False

instance (later earlier : Deed) : Decidable (later.Violates earlier) :=
  match earlier, later with
  | .deletedBlock object index _, .deletedBlock object' index' _ =>
      inferInstanceAs (Decidable (object = object' ∧ index = index'))
  | .deleted object, .deleted object' => inferInstanceAs (Decidable (object = object'))
  | .deleted object, .used object' => inferInstanceAs (Decidable (object = object'))
  | .used _, .used _ => isFalse id
  | .used _, .deletedBlock _ _ _ => isFalse id
  | .used _, .deleted _ => isFalse id
  | .deletedBlock _ _ _, .used _ => isFalse id
  | .deletedBlock _ _ _, .deleted _ => isFalse id
  | .deleted _, .deletedBlock _ _ _ => isFalse id

def Sound (deeds : List Deed) : Prop := deeds.Pairwise fun earlier later => ¬ later.Violates earlier

instance (deeds : List Deed) : Decidable (Sound deeds) :=
  inferInstanceAs (Decidable (deeds.Pairwise fun earlier later => ¬ later.Violates earlier))

/-! # The globals -/

inductive Fault where
  | stopped (reason : Stop)
  | nullPointer
deriving DecidableEq, Repr

structure Program where
  objects : List Fastalloc
  os : Os
  myallocator : Option Nat
  concurrencyMyallocator : Option Nat
  deeds : List Deed

/-- What a `new` object's memory holds before `init`, and the caller's thread id. -/
structure Surroundings where
  dram : Table
  nvm : Table
  thread : BitVec 32

/-- The loop of `fastalloc::free`: the entries that go to `delete[]`. -/
def Fastalloc.freeDram (a : Fastalloc) : List Nat → Except Stop (List (Nat × Word))
  | [] => .ok []
  | i :: rest => do
      let pointer ← a.dram.load (BitVec.ofNat 64 i)
      let deleted ← a.freeDram rest
      return (i, pointer) :: deleted

/-- `dram != NULL` holds of every object, `dram` being an array; `dram_cnt` stays. -/
def Fastalloc.free (a : Fastalloc) : Except Stop (List (Nat × Word) × Fastalloc) := do
  let a := { a with dramLeft := 0 }
  let deleted ← a.freeDram (List.range a.dramCnt.toNat)
  return (deleted, { a with dramCurr := 0 })

namespace Program

def initial (os : Os) : Program := ⟨[], os, none, none, []⟩

/-- `myallocator` and `concurrency_myallocator` by the class they point to. -/
def global (program : Program) : Kind → Option Nat
  | .plain => program.myallocator
  | .concurrency => program.concurrencyMyallocator

def point (program : Program) (kind : Kind) (object : Nat) : Program :=
  match kind with
  | .plain => { program with myallocator := some object }
  | .concurrency => { program with concurrencyMyallocator := some object }

/-- `p = new C; p->init();` for the global `p` of the class. -/
def create (program : Program) (copy : Copy) (linux : Bool) (kind : Kind) (surroundings : Surroundings) :
    Except Fault Program :=
  match Setup.init ⟨copy, kind, linux, 0, surroundings.thread⟩
      (.new surroundings.dram surroundings.nvm 0) program.os with
  | .error reason => .error (.stopped reason)
  | .ok (object, os) =>
      .ok ({ program with
        objects := program.objects ++ [object]
        os
        deeds := program.deeds ++ [Deed.used program.objects.length] }.point kind program.objects.length)

/-- `p->alloc(size, _on_nvm)` -/
def allocate (program : Program) (copy : Copy) (linux : Bool) (kind : Kind) (request : Request) :
    Except Fault (Word × Program) :=
  match program.global kind with
  | none => .error .nullPointer
  | some k =>
      match program.objects[k]? with
      | none => .error .nullPointer
      | some object =>
          match Setup.step ⟨copy, kind, linux, 0, 0⟩ (object, program.os) request with
          | .error reason => .error (.stopped reason)
          | .ok (pointer, object, os) =>
              .ok (pointer, { program with
                objects := program.objects.set k object, os, deeds := program.deeds ++ [.used k] })

def releaseDeeds (k : Nat) (deleted : List (Nat × Word)) : List Deed :=
  .used k :: (deleted.map fun entry => .deletedBlock k entry.1 entry.2) ++ [.deleted k]

/-- `if(p!=NULL){ p->free(); delete p; }` -/
def release (program : Program) (kind : Kind) : Except Fault Program :=
  match program.global kind with
  | none => .ok program
  | some k =>
      match program.objects[k]? with
      | none => .error .nullPointer
      | some object =>
          match object.free with
          | .error reason => .error (.stopped reason)
          | .ok (deleted, object) =>
              .ok { program with
                objects := program.objects.set k object
                deeds := program.deeds ++ releaseDeeds k deleted }

def fastFree (program : Program) : Except Fault Program := do
  let program ← program.release .plain
  program.release .concurrency

end Program

def Fastallocate.initFastAllocator (linux isMultiThread : Bool) (plain concurrency : Surroundings)
    (program : Program) : Except Fault Program :=
  if isMultiThread then program.create .fastallocate linux .concurrency concurrency
  else program.create .fastallocate linux .plain plain

/-- The parameter and the tests of it are commented out here. -/
def PmStudy.initFastAllocator (linux : Bool) (plain concurrency : Surroundings)
    (program : Program) : Except Fault Program := do
  let program ← program.create .pmStudy linux .concurrency concurrency
  program.create .pmStudy linux .plain plain

/-- The copies with global allocators. -/
inductive Edition where
  | fastallocate
  | pmStudy
deriving DecidableEq, Repr

inductive Call where
  | initFastAllocator (isMultiThread : Bool) (plain concurrency : Surroundings)
  | fastAlloc (request : Request)
  | concurrencyFastAlloc (request : Request)
  | fastFree

def Edition.copy : Edition → Copy
  | .fastallocate => .fastallocate
  | .pmStudy => .pmStudy

def Edition.initFastAllocator (edition : Edition) (linux isMultiThread : Bool) (plain concurrency : Surroundings) :
    Program → Except Fault Program :=
  match edition with
  | .fastallocate => Fastallocate.initFastAllocator linux isMultiThread plain concurrency
  | .pmStudy => PmStudy.initFastAllocator linux plain concurrency

def Edition.step (edition : Edition) (linux : Bool) (program : Program) :
    Call → Except Fault (Option Word × Program)
  | .initFastAllocator isMultiThread plain concurrency => do
      let program ← edition.initFastAllocator linux isMultiThread plain concurrency program
      return (none, program)
  | .fastAlloc request => do
      let (pointer, program) ← program.allocate edition.copy linux .plain request
      return (some pointer, program)
  | .concurrencyFastAlloc request => do
      let (pointer, program) ← program.allocate edition.copy linux .concurrency request
      return (some pointer, program)
  | .fastFree => do
      let program ← program.fastFree
      return (none, program)

/-! # What a caller knows of the globals -/

/-- A global was never set, was set since the last `fast_free`, or was not. -/
inductive Standing where
  | unset
  | current
  | released
deriving DecidableEq, Repr

def Standing.afterFree : Standing → Standing
  | .unset => .unset
  | .current => .released
  | .released => .released

abbrev Standings := Kind → Standing

def Call.allocates : Call → Kind → Prop
  | .fastAlloc _, .plain => True
  | .concurrencyFastAlloc _, .concurrency => True
  | _, _ => False

def Standings.next (edition : Edition) (standings : Standings) : Call → Standings
  | .initFastAllocator isMultiThread _ _ =>
      match edition with
      | .fastallocate =>
          Function.update standings (if isMultiThread then .concurrency else .plain) .current
      | .pmStudy => fun _ => .current
  | .fastFree => fun kind => (standings kind).afterFree
  | _ => standings

/-- The check holds before each call of the sequence. -/
def Along (edition : Edition) (Check : Standings → Call → Prop) : Standings → List Call → Prop
  | _, [] => True
  | standings, call :: rest => Check standings call ∧ Along edition Check (standings.next edition call) rest

def Standings.Serves (standings : Standings) (call : Call) : Prop :=
  ∀ kind, call.allocates kind → standings kind = .current

def Standings.Freeable (standings : Standings) (call : Call) : Prop :=
  call = .fastFree → ∀ kind, standings kind ≠ .released

/-! # Deeds -/

theorem Deed.Violates.object {earlier later : Deed} (violates : later.Violates earlier) :
    earlier.object = later.object := by
  cases earlier <;> cases later <;> first | contradiction | exact violates | exact violates.1

/-- Deeds on one object that nothing was done to but using it. -/
theorem sound_extend_iff {before events : List Deed} {k : Nat} (own : Sound events)
    (object : ∀ deed ∈ events, deed.object = k)
    (untouched : ∀ deed ∈ before, deed.object = k → deed = .used k) :
    Sound (before ++ events) ↔ Sound before := by
  apply Iff.trans List.pairwise_append
  refine ⟨fun found => found.1, fun sound => ⟨sound, own, fun earlier old later new violates => ?_⟩⟩
  have same := violates.object.trans (object later new)
  rw [untouched earlier old same] at violates
  cases later <;> exact violates

section Free

variable {a after : Fastalloc} {k : Nat} {indices : List Nat} {deleted : List (Nat × Word)}

theorem Fastalloc.freeDram_indices (freed : a.freeDram indices = .ok deleted) :
    deleted.map Prod.fst = indices := by
  induction indices generalizing deleted with
  | nil =>
      cases freed
      rfl
  | cons i rest ih =>
      obtain ⟨pointer, _, freed⟩ := bind_ok.mp freed
      obtain ⟨others, remaining, returned⟩ := bind_ok.mp freed
      cases returned
      rw [List.map_cons, ih remaining]

theorem Fastalloc.free_indices (freed : a.free = .ok (deleted, after)) : (deleted.map Prod.fst).Nodup := by
  obtain ⟨others, looped, returned⟩ := bind_ok.mp freed
  cases returned
  rw [freeDram_indices looped]
  exact List.nodup_range

theorem releaseDeeds_object : ∀ deed ∈ Program.releaseDeeds k deleted, deed.object = k := by
  intro deed member
  simp only [Program.releaseDeeds, List.cons_append, List.mem_cons, List.mem_append, List.mem_map,
    List.not_mem_nil, or_false] at member
  rcases member with rfl | ⟨entry, _, rfl⟩ | rfl <;> rfl

theorem releaseDeeds_sound (distinct : (deleted.map Prod.fst).Nodup) :
    Sound (Program.releaseDeeds k deleted) := by
  have blocks : Sound (deleted.map fun entry => .deletedBlock k entry.1 entry.2) :=
    List.pairwise_map.mpr ((List.pairwise_map.mp distinct).imp fun different violates => different violates.2)
  refine List.pairwise_cons.mpr ⟨fun later _ violates => by cases later <;> exact violates, ?_⟩
  refine List.pairwise_append.mpr ⟨blocks, List.pairwise_singleton _ _, fun earlier old later new violates => ?_⟩
  obtain ⟨entry, _, rfl⟩ := List.mem_map.mp old
  rw [List.mem_singleton.mp new] at violates
  exact violates

end Free

/-! # Standings and deeds -/

/-- What the deeds say of the object a global points to. -/
def Standing.Holds (standing : Standing) (deeds : List Deed) : Option Nat → Prop
  | none => standing = .unset
  | some k =>
      match standing with
      | .unset => False
      | .current => ∀ deed ∈ deeds, deed.object = k → deed = .used k
      | .released => Deed.deleted k ∈ deeds

structure Standings.Describe (standings : Standings) (program : Program) : Prop where
  holds : ∀ kind, (standings kind).Holds program.deeds (program.global kind)
  bound : ∀ kind k, program.global kind = some k → k < program.objects.length
  apart : ∀ k, program.global .plain = some k → program.global .concurrency ≠ some k
  known : ∀ deed ∈ program.deeds, deed.object < program.objects.length

theorem Standing.Holds.keep {standing : Standing} {deeds events : List Deed} {held : Option Nat}
    (holds : standing.Holds deeds held) (other : ∀ deed ∈ events, held ≠ some deed.object) :
    standing.Holds (deeds ++ events) held := by
  cases held with
  | none => exact holds
  | some k =>
      cases standing with
      | unset => exact holds
      | released => exact List.mem_append_left _ holds
      | current =>
          intro deed member same
          rcases List.mem_append.mp member with old | new
          · exact holds deed old same
          · exact absurd (congrArg some same.symm) (other deed new)

section Step

variable {program next : Program} {standings : Standings} {kind : Kind} {copy : Copy} {linux : Bool}
variable {surroundings : Surroundings} {request : Request} {pointer : Word} {calls : List Call}

theorem Program.point_global {k : Nat} {other : Kind} :
    (program.point kind k).global other = if other = kind then some k else program.global other := by
  cases kind <;> cases other <;> rfl

theorem Program.create_spec (created : program.create copy linux kind surroundings = .ok next) :
    (∀ other, next.global other = if other = kind then some program.objects.length else program.global other) ∧
      next.objects.length = program.objects.length + 1 ∧
      next.deeds = program.deeds ++ [.used program.objects.length] := by
  unfold create at created
  split at created
  · contradiction
  · cases created
    refine ⟨fun other => Program.point_global, ?_, ?_⟩
    · cases kind <;> exact List.length_append
    · cases kind <;> rfl

theorem Program.allocate_spec (allocated : program.allocate copy linux kind request = .ok (pointer, next)) :
    ∃ k, program.global kind = some k ∧ next.global = program.global ∧
      next.objects.length = program.objects.length ∧ next.deeds = program.deeds ++ [.used k] := by
  unfold allocate at allocated
  split at allocated
  · contradiction
  · rename_i k held
    split at allocated
    · contradiction
    · split at allocated
      · contradiction
      · cases allocated
        refine ⟨k, held, ?_, List.length_set, rfl⟩
        funext other
        cases other <;> rfl

theorem Program.release_spec (released : program.release kind = .ok next) :
    (program.global kind = none ∧ next = program) ∨
      ∃ k deleted, program.global kind = some k ∧ (deleted.map Prod.fst).Nodup ∧
        next.global = program.global ∧ next.objects.length = program.objects.length ∧
        next.deeds = program.deeds ++ releaseDeeds k deleted := by
  unfold release at released
  split at released
  · rename_i unset
    cases released
    exact .inl ⟨unset, rfl⟩
  · rename_i k held
    split at released
    · contradiction
    · split at released
      · contradiction
      · rename_i deleted after freed
        cases released
        refine .inr ⟨k, deleted, held, Fastalloc.free_indices freed, ?_, List.length_set, rfl⟩
        funext other
        cases other <;> rfl

theorem Standings.Describe.create (describe : standings.Describe program)
    (created : program.create copy linux kind surroundings = .ok next) :
    (Standings.Describe (Function.update standings kind .current) next) ∧
      (Sound next.deeds ↔ Sound program.deeds) := by
  obtain ⟨globals, length, deeds⟩ := Program.create_spec created
  have old : ∀ deed ∈ program.deeds, deed.object ≠ program.objects.length := fun deed member =>
    Nat.ne_of_lt (describe.known deed member)
  refine ⟨⟨fun other => ?_, fun other k held => ?_, fun k plain concurrency => ?_, fun deed member => ?_⟩, ?_⟩
  · rw [globals, deeds]
    by_cases same : other = kind
    · subst same
      rw [Function.update_self, if_pos rfl]
      intro deed member touched
      rcases List.mem_append.mp member with before | new
      · exact absurd touched (old deed before)
      · exact List.mem_singleton.mp new
    · rw [Function.update_of_ne same, if_neg same]
      apply (describe.holds other).keep
      intro deed member held
      rw [List.mem_singleton.mp member] at held
      exact Nat.lt_irrefl _ (describe.bound other _ held)
  · rw [globals] at held
    rw [length]
    split at held
    · cases held
      exact Nat.lt_succ_self _
    · exact Nat.lt_succ_of_lt (describe.bound other k held)
  · rw [globals] at plain concurrency
    cases kind with
    | plain =>
        cases plain
        exact Nat.lt_irrefl _ (describe.bound .concurrency _ concurrency)
    | concurrency =>
        cases concurrency
        exact Nat.lt_irrefl _ (describe.bound .plain _ plain)
  · rw [deeds] at member
    rw [length]
    rcases List.mem_append.mp member with before | new
    · exact Nat.lt_succ_of_lt (describe.known deed before)
    · rw [List.mem_singleton.mp new]
      exact Nat.lt_succ_self _
  · rw [deeds]
    apply sound_extend_iff (k := program.objects.length) (List.pairwise_singleton _ _)
    · intro deed member
      rw [List.mem_singleton.mp member]
      rfl
    · intro deed member touched
      exact absurd touched (old deed member)

/-- Deeds on the object of one global change what holds of that global only. -/
theorem Standings.Describe.touch (describe : standings.Describe program) {k : Nat} {events : List Deed}
    {standing : Standing} (held : program.global kind = some k) (globals : next.global = program.global)
    (length : next.objects.length = program.objects.length) (deeds : next.deeds = program.deeds ++ events)
    (object : ∀ deed ∈ events, deed.object = k) (holds : standing.Holds next.deeds (some k)) :
    Standings.Describe (Function.update standings kind standing) next := by
  refine ⟨fun other => ?_, fun other j points => ?_, fun j plain => ?_, fun deed member => ?_⟩
  · rw [globals]
    by_cases same : other = kind
    · subst same
      rwa [Function.update_self, held]
    · rw [Function.update_of_ne same, deeds]
      apply (describe.holds other).keep
      intro deed member points
      rw [object deed member] at points
      cases kind <;> cases other
      · exact same rfl
      · exact describe.apart k held points
      · exact describe.apart k points held
      · exact same rfl
  · rw [globals] at points
    rw [length]
    exact describe.bound other j points
  · rw [globals] at plain ⊢
    exact describe.apart j plain
  · rw [deeds] at member
    rw [length]
    rcases List.mem_append.mp member with before | new
    · exact describe.known deed before
    · rw [object deed new]
      exact describe.bound kind k held

theorem Standings.Describe.allocate (describe : standings.Describe program)
    (current : standings kind = .current)
    (allocated : program.allocate copy linux kind request = .ok (pointer, next)) :
    standings.Describe next ∧ (Sound next.deeds ↔ Sound program.deeds) := by
  obtain ⟨k, held, globals, length, deeds⟩ := Program.allocate_spec allocated
  have untouched := describe.holds kind
  rw [held, current] at untouched
  have object : ∀ deed ∈ [Deed.used k], deed.object = k := by
    intro deed member
    rw [List.mem_singleton.mp member]
    rfl
  have holds : Standing.current.Holds next.deeds (some k) := by
    intro deed member touched
    rw [deeds] at member
    rcases List.mem_append.mp member with before | new
    · exact untouched deed before touched
    · exact List.mem_singleton.mp new
  have described := describe.touch held globals length deeds object holds
  rw [← current, Function.update_eq_self] at described
  refine ⟨described, ?_⟩
  rw [deeds]
  exact sound_extend_iff (List.pairwise_singleton _ _) object untouched

theorem Standings.Describe.release (describe : standings.Describe program)
    (released : program.release kind = .ok next) :
    (Standings.Describe (Function.update standings kind (standings kind).afterFree) next) ∧
      (Sound next.deeds ↔ Sound program.deeds ∧ standings kind ≠ .released) := by
  have standing := describe.holds kind
  rcases Program.release_spec released with ⟨unset, rfl⟩ | found
  · rw [unset] at standing
    have same : (standings kind).afterFree = standings kind := by
      rw [show standings kind = .unset from standing]
      rfl
    rw [same, Function.update_eq_self, show standings kind = .unset from standing]
    exact ⟨describe, by simp⟩
  · obtain ⟨k, deleted, held, distinct, globals, length, deeds⟩ := found
    rw [held] at standing
    have gone : Deed.deleted k ∈ next.deeds := by
      rw [deeds]
      simp [Program.releaseDeeds]
    cases was : standings kind with
    | unset =>
        rw [was] at standing
        exact standing.elim
    | current =>
        rw [was] at standing
        refine ⟨describe.touch held globals length deeds releaseDeeds_object gone, ?_⟩
        rw [deeds, sound_extend_iff (releaseDeeds_sound distinct) releaseDeeds_object standing]
        simp
    | released =>
        rw [was] at standing
        refine ⟨describe.touch held globals length deeds releaseDeeds_object gone, ?_⟩
        have broken : ¬ Sound next.deeds := by
          intro sound
          rw [deeds] at sound
          exact (List.pairwise_append.mp sound).2.2 (.deleted k) standing (.used k) List.mem_cons_self rfl
        simp [broken]

theorem Standings.Describe.fastFree (describe : standings.Describe program)
    (freed : program.fastFree = .ok next) :
    (Standings.Describe (fun kind => (standings kind).afterFree) next) ∧
      (Sound next.deeds ↔ Sound program.deeds ∧ ∀ kind, standings kind ≠ .released) := by
  obtain ⟨middle, plain, concurrency⟩ := bind_ok.mp freed
  obtain ⟨describe, first⟩ := describe.release plain
  obtain ⟨describe, second⟩ := describe.release concurrency
  have both : (Function.update (Function.update standings .plain (standings .plain).afterFree) .concurrency
      (standings .concurrency).afterFree) = fun kind => (standings kind).afterFree := by
    funext kind
    cases kind <;> rfl
  have kinds : (∀ kind, standings kind ≠ .released) ↔
      standings .plain ≠ .released ∧ standings .concurrency ≠ .released := by
    refine ⟨fun all => ⟨all _, all _⟩, fun found kind => ?_⟩
    cases kind with
    | plain => exact found.1
    | concurrency => exact found.2
  rw [← both, second, first, kinds, and_assoc]
  exact ⟨describe, Iff.rfl⟩

/-- What one call does to the standings, and when it keeps the deeds sound. -/
theorem Standings.Describe.step (describe : standings.Describe program) {edition : Edition} {call : Call}
    {output : Option Word} (serves : standings.Serves call)
    (called : edition.step linux program call = .ok (output, next)) :
    (standings.next edition call).Describe next ∧
      (Sound next.deeds ↔ Sound program.deeds ∧ standings.Freeable call) := by
  cases call with
  | initFastAllocator isMultiThread plain concurrency =>
      obtain ⟨after, created, returned⟩ := bind_ok.mp called
      cases returned
      have freeable : standings.Freeable (.initFastAllocator isMultiThread plain concurrency) := by
        intro same
        contradiction
      cases edition with
      | fastallocate =>
          cases isMultiThread <;> exact (describe.create created).imp_right fun sound => by simp [sound, freeable]
      | pmStudy =>
          obtain ⟨middle, first, second⟩ := bind_ok.mp created
          obtain ⟨describe, soundFirst⟩ := describe.create first
          obtain ⟨describe, soundSecond⟩ := describe.create second
          have both : (Function.update (Function.update standings .concurrency .current) .plain .current) =
              fun _ => .current := by
            funext kind
            cases kind <;> rfl
          rw [both] at describe
          exact ⟨describe, by simp [soundFirst, soundSecond, freeable]⟩
  | fastAlloc request =>
      obtain ⟨⟨pointer, after⟩, allocated, returned⟩ := bind_ok.mp called
      cases returned
      obtain ⟨describe, sound⟩ := describe.allocate (serves .plain trivial) allocated
      exact ⟨describe, by simp [sound, Standings.Freeable]⟩
  | concurrencyFastAlloc request =>
      obtain ⟨⟨pointer, after⟩, allocated, returned⟩ := bind_ok.mp called
      cases returned
      obtain ⟨describe, sound⟩ := describe.allocate (serves .concurrency trivial) allocated
      exact ⟨describe, by simp [sound, Standings.Freeable]⟩
  | fastFree =>
      obtain ⟨after, freed, returned⟩ := bind_ok.mp called
      cases returned
      obtain ⟨describe, sound⟩ := describe.fastFree freed
      exact ⟨describe, by simp [sound, Standings.Freeable]⟩

theorem Standings.Describe.run (describe : standings.Describe program) {edition : Edition}
    {outputs : List (Option Word)} {final : Program} (allowed : Along edition Serves standings calls)
    (ran : Execution.run (edition.step linux) program calls = .ok (outputs, final)) :
    Sound final.deeds ↔ Sound program.deeds ∧ Along edition Freeable standings calls := by
  induction calls generalizing standings program outputs with
  | nil =>
      rw [(run_nil.mp ran).2]
      simp [Along]
  | cons call rest ih =>
      obtain ⟨serves, later⟩ := allowed
      obtain ⟨output, after, tail, called, remaining, rfl⟩ := run_cons.mp ran
      obtain ⟨describe, sound⟩ := describe.step serves called
      rw [ih describe later remaining, sound, and_assoc]
      rfl

end Step

/-- No call of a run deletes twice, or uses what was deleted, exactly when at
each `fast_free` no global points to an object that an earlier one deleted. -/
theorem released_once_iff (edition : Edition) (linux : Bool) {os : Os} {calls : List Call}
    {outputs : List (Option Word)} {final : Program}
    (allowed : Along edition Standings.Serves (fun _ => .unset) calls)
    (ran : run (edition.step linux) (.initial os) calls = .ok (outputs, final)) :
    Sound final.deeds ↔ Along edition Standings.Freeable (fun _ => .unset) calls := by
  have describe : Standings.Describe (fun _ => .unset) (.initial os) := by
    refine ⟨fun kind => ?_, fun kind k held => ?_, fun k held => ?_, fun deed member => ?_⟩
    · cases kind <;> rfl
    · cases kind <;> contradiction
    · contradiction
    · contradiction
  have start : Sound (Program.initial os).deeds := List.Pairwise.nil
  rw [describe.run allowed ran]
  simp [start]

def blankSurroundings : Surroundings := ⟨Vector.replicate 100 0, Vector.replicate 100 0, 7⟩

theorem released_once_iff_fresh : ∃ outputs final,
    run (Edition.step .fastallocate true) (.initial spacedOs)
      [.initFastAllocator true blankSurroundings blankSurroundings, .concurrencyFastAlloc ⟨100, true⟩, .fastFree,
        .initFastAllocator true blankSurroundings blankSurroundings, .fastFree] = .ok (outputs, final) ∧
    (Sound final.deeds ↔ Along .fastallocate Standings.Freeable (fun _ => .unset)
      [.initFastAllocator true blankSurroundings blankSurroundings, .concurrencyFastAlloc ⟨100, true⟩, .fastFree,
        .initFastAllocator true blankSurroundings blankSurroundings, .fastFree]) := by
  have allowed : Along .fastallocate Standings.Serves (fun _ => .unset)
      [.initFastAllocator true blankSurroundings blankSurroundings, .concurrencyFastAlloc ⟨100, true⟩, .fastFree,
        .initFastAllocator true blankSurroundings blankSurroundings, .fastFree] := by
    refine ⟨?_, ?_, ?_, ?_, ?_, trivial⟩ <;> intro kind allocates <;> cases kind <;> first | contradiction | rfl
  exact ⟨_, _, rfl, released_once_iff .fastallocate true allowed
    (show run _ (Program.initial spacedOs) _ = .ok (_, _) from rfl)⟩

/-- The single-threaded allocator is freed, then the multi-threaded one is
created and freed: `myallocator` is not NULL and is freed again. -/
theorem released_twice : ∃ outputs final,
    run (Edition.step .fastallocate true) (.initial spacedOs)
      [.initFastAllocator false blankSurroundings blankSurroundings, .fastFree,
        .initFastAllocator true blankSurroundings blankSurroundings, .fastFree] = .ok (outputs, final) ∧
    ¬ Sound final.deeds := by
  refine ⟨_, _, rfl, ?_⟩
  decide

end RwSep.Allocator
