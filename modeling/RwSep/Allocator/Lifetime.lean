import RwSep.Allocator.Release
import Mathlib.Data.List.Perm.Basic

namespace RwSep.Allocator

open RwSep.Data RwSep.Execution

/-! What one use of OptaneStudy's allocator gives back.

`fast_free` deletes the blocks that `dram` lists.  The table `nvm` is not
walked, and the statements that would unmap its regions are commented out;
under `__linux__` its entries have lost their blocks of `new char[]` before.
-/

/-- What goes back to the system. -/
inductive Returned where
  | deleted (pointer : Word)
  | unmapped (address length : Word)
deriving DecidableEq, Repr

def Returned.block? : Returned → Option Word
  | .deleted pointer => some pointer
  | .unmapped _ _ => none

def Returned.mapping? : Returned → Option (Word × Word)
  | .deleted _ => none
  | .unmapped address length => some (address, length)

def Event.block? : Event → Option Word
  | .newChar _ address => some address
  | .mapFile _ _ _ => none

def Event.mapping? : Event → Option (Word × Word)
  | .newChar _ _ => none
  | .mapFile _ length answer => if answer.address = MAP_FAILED then none else some (answer.address, length)

/-- Every block deleted exactly once, and every mapping unmapped. -/
structure Balanced (log : List Event) (returned : List Returned) : Prop where
  blocks : (log.filterMap Event.block?).Perm (returned.filterMap Returned.block?)
  mappings : (log.filterMap Event.mapping?).Perm (returned.filterMap Returned.mapping?)

namespace OptaneStudy

/-- The body of `fastalloc::free` is that of the other copies, and comments. -/
def fastFree (allocator : Fastalloc) : Except Stop (List Returned) := do
  let (deleted, _) ← allocator.free
  return deleted.map fun entry => .deleted entry.2

/-- A use of an allocator: what the memory of the new object holds, and the calls. -/
structure Task where
  dram : Table
  nvm : Table
  garbage : Int
  channel : Int
  requests : List Request

/-- `init_fast_allocator(channel)`, calls of `alloc`, `fast_free`. -/
def lifetime (linux : Bool) (os : Os) (task : Task) : Except Stop (List Returned × Os) := do
  let (allocator, os) ← init linux (.new task.dram task.nvm task.garbage) os task.channel
  let (_, allocator, os) ← run (step (growth linux)) (allocator, os) task.requests
  let returned ← fastFree allocator
  return (returned, os)

end OptaneStudy

/-! # Blocks -/

/-- One block each time, which under `__linux__` the table entry does not keep. -/
theorem Os.mappedFill_blocks (os : Os) (linux : Bool) (path : String) (length : Word) :
    ∃ events pointer, (os.fill (mappedFill linux path length)).2.log = os.log ++ events ∧
      events.filterMap Event.block? = [pointer] := by
  cases linux with
  | true =>
      let discarded : Event := .newChar ALLOC_SIZE (os.newAnswer os.log.length)
      let kept : Event := .mapFile path length (os.mapAnswer (os.log ++ [discarded]).length)
      exact ⟨[discarded, kept], _, List.append_assoc os.log [discarded] [kept], rfl⟩
  | false => exact ⟨[_], _, rfl, rfl⟩

/-- The blocks obtained since `start` are those that `dram` lists and one for each entry of `nvm`. -/
structure Held (start : List Event) (a : Fastalloc) (log events : List Event) (lost : List Word) : Prop where
  since : log = start ++ events
  blocks : (events.filterMap Event.block?).Perm
    ((List.range (a.pool false).cnt.toNat).map (a.pool false).entry ++ lost)
  counted : lost.length = (a.pool true).cnt.toNat

section Held

variable {start log more events : List Event} {a after : Fastalloc} {lost : List Word} {os os' : Os}
variable {linux : Bool} {size pointer base length : Word} {onNvm : Bool}

theorem Held.openedDram (held : Held start a log events lost) (bound : (a.pool false).cnt.toNat < 100)
    (opened : after.pool false = ((a.pool false).opened base length bound).take size)
    (other : after.pool true = a.pool true) :
    Held start after (log ++ [.newChar length base]) (events ++ [.newChar length base]) lost where
  since := by rw [held.since, List.append_assoc]
  blocks := by
    have entries : (List.range (after.pool false).cnt.toNat).map (after.pool false).entry =
        (List.range (a.pool false).cnt.toNat).map (a.pool false).entry ++ [base] := by
      rw [opened, Pool.take_cnt, Pool.opened_cnt, List.range_succ, List.map_append, List.map_singleton,
        Pool.take_entry, Pool.opened_entry_new]
      congr 1
      apply List.map_congr_left
      intro index inRange
      rw [Pool.take_entry, Pool.opened_entry_old (List.mem_range.mp inRange)]
    rw [entries, List.filterMap_append, List.append_assoc]
    refine (held.blocks.append_right [base]).trans ?_
    rw [List.append_assoc]
    exact List.perm_append_comm.append_left _
  counted := by rw [other, held.counted]

theorem Held.openedNvm (held : Held start a log events lost) (bound : (a.pool true).cnt.toNat < 100)
    (opened : after.pool true = ((a.pool true).opened base length bound).take size)
    (other : after.pool false = a.pool false) (obtained : more.filterMap Event.block? = [pointer]) :
    Held start after (log ++ more) (events ++ more) (lost ++ [pointer]) where
  since := by rw [held.since, List.append_assoc]
  blocks := by
    rw [other, List.filterMap_append, obtained, ← List.append_assoc]
    exact held.blocks.append_right [pointer]
  counted := by rw [opened, Pool.take_cnt, Pool.opened_cnt, List.length_append, held.counted]; rfl

theorem Held.served (held : Held start a os.log events lost)
    (outcome : Served (OptaneStudy.growth linux) a os size onNvm pointer after os') :
    ∃ events' lost', Held start after os'.log events' lost' ∧ lost.length ≤ lost'.length := by
  cases outcome with
  | fit room served other channel =>
      refine ⟨events, lost, ⟨held.since, ?_, ?_⟩, Nat.le_refl _⟩
      · cases onNvm with
        | true => rw [show after.pool false = a.pool false from other]; exact held.blocks
        | false => rw [served]; exact held.blocks
      · cases onNvm with
        | true => rw [served]; exact held.counted
        | false => rw [show after.pool true = a.pool true from other]; exact held.counted
  | grow full bound served other channel =>
      cases onNvm with
      | false =>
          exact ⟨_, lost, held.openedDram bound served other, Nat.le_refl _⟩
      | true =>
          obtain ⟨more, block, grown, obtained⟩ := os.mappedFill_blocks linux
            (OptaneStudy.nvmFilename a.channel "" a.nvmCnt) ALLOC_SIZE
          refine ⟨events ++ more, lost ++ [block], ?_, ?_⟩
          · have opened := held.openedNvm bound served other obtained
            rwa [← grown] at opened
          · rw [List.length_append]
            exact Nat.le_add_right _ _

theorem Held.ran {requests : List Request} {pointers : List Word} (held : Held start a os.log events lost)
    (ran : run (step (OptaneStudy.growth linux)) (a, os) requests = .ok (pointers, (after, os'))) :
    ∃ events' lost', Held start after os'.log events' lost' ∧ lost.length ≤ lost'.length := by
  refine run_preserves (fun state => ∃ events' lost', Held start state.1 state.2.log events' lost' ∧
    lost.length ≤ lost'.length) ?_ ⟨events, lost, held, Nat.le_refl _⟩ ran
  intro state request pointer next invariant called
  obtain ⟨events', lost', held', more⟩ := invariant
  obtain ⟨events'', lost'', held'', more'⟩ := held'.served (Fastalloc.allocWith_served called)
  exact ⟨events'', lost'', held'', Nat.le_trans more more'⟩

/-- `init` loses its first block of `nvm` at once. -/
theorem Held.started {dram nvm : Table} {garbage channel : Int}
    (opened : OptaneStudy.init linux (.new dram nvm garbage) os channel = .ok (a, os')) :
    ∃ events lost, Held os.log a os'.log events lost ∧ lost.length = 1 := by
  let setup : Setup := ⟨.optaneStudy, .plain, linux, channel, 0⟩
  have started : setup.Started dram nvm garbage os a os' := Setup.init_started opened
  have fresh : Held os.log (.new dram nvm garbage) os.log [] [] := ⟨(List.append_nil _).symm, .refl _, rfl⟩
  let middle : Fastalloc := { a with nvm := nvm, nvmCurr := 0, nvmLeft := 0, nvmCnt := 0 }
  have inDram : middle.pool false = ((Pool.unused dram).opened (os.obtain (.newChar setup.firstLength)).1
      setup.firstLength (Pool.unused_bound dram)).take 0 := by
    rw [Pool.take_zero]
    exact started.dram
  have first : Held os.log middle (setup.afterDram os).log _ [] := fresh.openedDram (Pool.unused_bound dram) inDram rfl
  obtain ⟨more, block, grown, obtained⟩ :=
    (setup.afterDram os).mappedFill_blocks linux (setup.firstPath 0) setup.firstLength
  have inNvm : a.pool true = ((Pool.unused nvm).opened ((setup.afterDram os).fill setup.firstFill).1
      setup.firstLength (Pool.unused_bound nvm)).take 0 := by
    rw [Pool.take_zero]
    exact started.nvm
  have second := first.openedNvm (Pool.unused_bound nvm) inNvm rfl obtained
  rw [← grown] at second
  have system : ((setup.afterDram os).fill setup.firstFill).2 = os' := started.system.symm
  exact ⟨_, _, system ▸ second, rfl⟩

end Held

/-! # Lifetimes -/

theorem Fastalloc.freeDram_entries {a : Fastalloc} {indices : List Nat} {deleted : List (Nat × Word)}
    (short : ∀ index ∈ indices, index < 2 ^ 64) (freed : a.freeDram indices = .ok deleted) :
    deleted.map Prod.snd = indices.map (a.pool false).entry := by
  induction indices generalizing deleted with
  | nil =>
      cases freed
      rfl
  | cons index rest ih =>
      obtain ⟨pointer, loaded, freed⟩ := bind_ok.mp freed
      obtain ⟨others, remaining, returned⟩ := bind_ok.mp freed
      cases returned
      have value : (BitVec.ofNat 64 index).toNat = index := by
        rw [BitVec.toNat_ofNat, Nat.mod_eq_of_lt (short index List.mem_cons_self)]
      have entry : pointer = (a.pool false).entry index := by
        unfold Table.load at loaded
        split at loaded
        · rename_i bound
          cases loaded
          rw [value] at bound
          simp only [value, Pool.entry, Fastalloc.pool, Vector.getElem?_eq_getElem bound, Option.getD_some]
        · contradiction
      rw [List.map_cons, List.map_cons, ih (fun other member => short other (List.mem_cons_of_mem _ member)) remaining,
        entry]

theorem Fastalloc.free_entries {a after : Fastalloc} {deleted : List (Nat × Word)}
    (freed : a.free = .ok (deleted, after)) :
    deleted.map Prod.snd = (List.range (a.pool false).cnt.toNat).map (a.pool false).entry := by
  obtain ⟨looped, entries, kept⟩ := bind_ok.mp freed
  cases kept
  have short : ∀ index ∈ List.range a.dramCnt.toNat, index < 2 ^ 64 := by
    intro index inRange
    exact Nat.lt_trans (List.mem_range.mp inRange) a.dramCnt.isLt
  exact @freeDram_entries { a with dramLeft := 0 } _ _ short entries

theorem deleted_blocks (deleted : List (Nat × Word)) :
    (deleted.map fun entry => Returned.deleted entry.2).filterMap Returned.block? = deleted.map Prod.snd := by
  induction deleted with
  | nil => rfl
  | cons entry rest ih => exact congrArg (entry.2 :: ·) ih

theorem deleted_mappings (deleted : List (Nat × Word)) :
    (deleted.map fun entry => Returned.deleted entry.2).filterMap Returned.mapping? = [] := by
  apply List.filterMap_eq_nil_iff.mpr
  intro given member
  obtain ⟨entry, _, rfl⟩ := List.mem_map.mp member
  rfl

/-- The blocks of `dram` are deleted once each, those of `nvm` and the mappings stay. -/
structure Leaks (events : List Event) (returned : List Returned) (lifetimes : Nat) : Prop where
  blocks : ∃ lost, (events.filterMap Event.block?).Perm (returned.filterMap Returned.block? ++ lost) ∧
    lifetimes ≤ lost.length
  mappings : returned.filterMap Returned.mapping? = []

theorem lifetime_leaks {linux : Bool} {os os' : Os} {task : OptaneStudy.Task} {returned : List Returned}
    (lived : OptaneStudy.lifetime linux os task = .ok (returned, os')) :
    ∃ events, os'.log = os.log ++ events ∧ Leaks events returned 1 := by
  obtain ⟨⟨a, osOpened⟩, opened, lived⟩ := bind_ok.mp lived
  obtain ⟨⟨pointers, b, osServed⟩, ran, lived⟩ := bind_ok.mp lived
  obtain ⟨_, released, ended⟩ := bind_ok.mp lived
  cases ended
  obtain ⟨⟨deleted, c⟩, freed, given⟩ := bind_ok.mp released
  cases given
  obtain ⟨events, lost, held, one⟩ := Held.started opened
  obtain ⟨events', lost', held', more⟩ := held.ran ran
  refine ⟨events', held'.since, ⟨lost', ?_, one ▸ more⟩, deleted_mappings deleted⟩
  rw [deleted_blocks, Fastalloc.free_entries freed]
  exact held'.blocks

theorem Leaks.append {events events' : List Event} {returned returned' : List Returned} {lifetimes lifetimes' : Nat}
    (earlier : Leaks events returned lifetimes) (later : Leaks events' returned' lifetimes') :
    Leaks (events ++ events') (returned ++ returned') (lifetimes + lifetimes') where
  blocks := by
    obtain ⟨lost, perm, count⟩ := earlier.blocks
    obtain ⟨lost', perm', count'⟩ := later.blocks
    refine ⟨lost ++ lost', ?_, ?_⟩
    · rw [List.filterMap_append, List.filterMap_append]
      refine (perm.append perm').trans ?_
      rw [List.append_assoc, List.append_assoc]
      refine List.Perm.append_left _ ?_
      rw [← List.append_assoc, ← List.append_assoc]
      exact List.perm_append_comm.append_right _
    · rw [List.length_append]
      exact Nat.add_le_add count count'
  mappings := by rw [List.filterMap_append, earlier.mappings, later.mappings]; rfl

theorem lifetimes_leak {linux : Bool} {os os' : Os} {tasks : List OptaneStudy.Task} {returned : List (List Returned)}
    (ran : run (OptaneStudy.lifetime linux) os tasks = .ok (returned, os')) :
    ∃ events, os'.log = os.log ++ events ∧ Leaks events returned.flatten tasks.length := by
  induction tasks generalizing os returned with
  | nil =>
      obtain ⟨rfl, rfl⟩ := run_nil.mp ran
      exact ⟨[], (List.append_nil _).symm, ⟨[], .nil, Nat.le_refl _⟩, rfl⟩
  | cons task rest ih =>
      obtain ⟨given, osNext, more, lived, remaining, rfl⟩ := run_cons.mp ran
      obtain ⟨events, since, leaks⟩ := lifetime_leaks lived
      obtain ⟨events', since', leaks'⟩ := ih remaining
      refine ⟨events ++ events', ?_, ?_⟩
      · rw [since', since, List.append_assoc]
      · rw [List.flatten_cons, List.length_cons, Nat.add_comm]
        exact leaks.append leaks'

theorem Leaks.unbalanced {events : List Event} {returned : List Returned} {lifetimes : Nat}
    (leaks : Leaks events returned lifetimes) (some_lifetime : 0 < lifetimes) : ¬ Balanced events returned := by
  intro balanced
  obtain ⟨lost, perm, count⟩ := leaks.blocks
  have obtained := perm.length_eq
  rw [balanced.blocks.length_eq, List.length_append] at obtained
  omega

/-- Whatever is requested, each lifetime leaves a block at least that is never
deleted, and all its mappings: no number of lifetimes is balanced. -/
theorem lifetimes_unbalanced (linux : Bool) (os os' : Os) (task : OptaneStudy.Task) (more : List OptaneStudy.Task)
    (returned : List (List Returned)) (ran : run (OptaneStudy.lifetime linux) os (task :: more) = .ok (returned, os')) :
    ∃ events, os'.log = os.log ++ events ∧ ¬ Balanced events returned.flatten ∧
      Leaks events returned.flatten (task :: more).length := by
  obtain ⟨events, since, leaks⟩ := lifetimes_leak ran
  exact ⟨events, since, leaks.unbalanced (Nat.succ_pos _), leaks⟩

def blankTask (channel : Int) (requests : List Request) : OptaneStudy.Task :=
  ⟨Vector.replicate 100 0, Vector.replicate 100 0, 0, channel, requests⟩

theorem lifetimes_unbalanced_two : ∃ returned os' events,
    run (OptaneStudy.lifetime false) spacedOs [blankTask 1 [⟨100, false⟩], blankTask 2 [⟨ALLOC_SIZE, true⟩]] =
      .ok (returned, os') ∧ os'.log = spacedOs.log ++ events ∧ ¬ Balanced events returned.flatten := by
  have ran : run (OptaneStudy.lifetime false) spacedOs
      [blankTask 1 [⟨100, false⟩], blankTask 2 [⟨ALLOC_SIZE, true⟩]] = .ok (_, _) := rfl
  obtain ⟨events, since, unbalanced, _⟩ := lifetimes_unbalanced _ _ _ _ _ _ ran
  exact ⟨_, _, events, ran, since, unbalanced⟩

/-- Created on channel 0 and freed: of two blocks one is deleted, and the mapping stays. -/
theorem lifetime_unbalanced : ∃ returned os', OptaneStudy.lifetime true spacedOs (blankTask 0 []) = .ok (returned, os') ∧
    ¬ Balanced os'.log returned ∧ (os'.log.filterMap Event.block?).length = 2 ∧
      (returned.filterMap Returned.block?).length = 1 ∧ (os'.log.filterMap Event.mapping?).length = 1 ∧
      returned.filterMap Returned.mapping? = [] := by
  refine ⟨_, _, rfl, ?_, rfl, rfl, rfl, rfl⟩
  intro balanced
  exact absurd balanced.blocks.length_eq (by decide)

end RwSep.Allocator
