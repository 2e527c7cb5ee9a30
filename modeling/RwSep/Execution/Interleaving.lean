import Mathlib.Data.List.Count
import Mathlib.Data.Fintype.Basic
import Mathlib.Algebra.BigOperators.Group.Finset.Piecewise
import Mathlib.Logic.Function.Basic

namespace RwSep.Execution

/-! Threads that share a store, with their steps in any order.

A step depends on the thread's own state and on the store.  It writes some
places, reports events, and may not exist: the thread has ended.
-/

structure Action (σ α β ε : Type) where
  own : σ
  writes : α → Option β
  events : List ε

abbrev Stepper (σ α β ε : Type) := σ → (α → β) → Option (Action σ α β ε)

variable {ι σ α β ε : Type}

def overwrite (store : α → β) (writes : α → Option β) : α → β := fun place => (writes place).getD (store place)

def Action.followed (earlier later : Action σ α β ε) : Action σ α β ε where
  own := later.own
  writes place := (later.writes place).or (earlier.writes place)
  events := earlier.events ++ later.events

theorem Action.followed_writes (earlier later : Action σ α β ε) (place : α) :
    (earlier.followed later).writes place = (later.writes place).or (earlier.writes place) := rfl

/-- What a thread has become, written and reported after that many steps with no other thread. -/
def alone (step : Stepper σ α β ε) (own : σ) (store : α → β) : Nat → Option (Action σ α β ε)
  | 0 => some ⟨own, fun _ => none, []⟩
  | count + 1 => do
      let earlier ← alone step own store count
      let later ← step earlier.own (overwrite store earlier.writes)
      return earlier.followed later

structure Pool (ι σ α β ε : Type) where
  own : ι → σ
  store : α → β
  log : List (ι × ε)

def eventsOf [DecidableEq ι] (thread : ι) (log : List (ι × ε)) : List ε :=
  log.filterMap fun entry => if entry.1 = thread then some entry.2 else none

namespace Pool

variable [DecidableEq ι]

def acted (pool : Pool ι σ α β ε) (thread : ι) (action : Action σ α β ε) : Pool ι σ α β ε where
  own := Function.update pool.own thread action.own
  store := overwrite pool.store action.writes
  log := pool.log ++ action.events.map fun event => (thread, event)

def step (steps : ι → Stepper σ α β ε) (pool : Pool ι σ α β ε) (thread : ι) : Option (Pool ι σ α β ε) :=
  (steps thread (pool.own thread) pool.store).map (pool.acted thread)

/-- The threads of a schedule step one after the other. -/
def interleave (steps : ι → Stepper σ α β ε) (pool : Pool ι σ α β ε) (schedule : List ι) : Option (Pool ι σ α β ε) :=
  schedule.foldlM (step steps) pool

def alone (steps : ι → Stepper σ α β ε) (pool : Pool ι σ α β ε) (thread : ι) : Nat → Option (Action σ α β ε) :=
  Execution.alone (steps thread) (pool.own thread) pool.store

def Ended (steps : ι → Stepper σ α β ε) (pool : Pool ι σ α β ε) (thread : ι) : Prop :=
  steps thread (pool.own thread) pool.store = none

end Pool

/-! # Threads alone -/

section Alone

variable {step : Stepper σ α β ε} {own : σ} {store : α → β} {count more : Nat} {action : Action σ α β ε}

theorem overwrite_followed (store : α → β) (earlier later : Action σ α β ε) :
    overwrite store (earlier.followed later).writes = overwrite (overwrite store earlier.writes) later.writes := by
  funext place
  simp only [overwrite, Action.followed]
  cases later.writes place <;> rfl

theorem overwrite_untouched {writes : α → Option β} {place : α} (untouched : writes place = none) :
    overwrite store writes place = store place := by
  rw [overwrite, untouched, Option.getD_none]

theorem overwrite_touched {writes : α → Option β} {place : α} {value : β} (touched : writes place = some value) :
    overwrite store writes place = value := by
  rw [overwrite, touched, Option.getD_some]

theorem alone_succ : alone step own store (count + 1) = some action ↔
    ∃ earlier later, alone step own store count = some earlier ∧
      step earlier.own (overwrite store earlier.writes) = some later ∧ action = earlier.followed later := by
  simp only [alone, Option.bind_eq_bind, Option.bind_eq_some_iff, Option.pure_def, Option.some.injEq]
  apply Iff.intro
  · intro found
    obtain ⟨earlier, ran, later, stepped, rfl⟩ := found
    exact ⟨earlier, later, ran, stepped, rfl⟩
  · intro found
    obtain ⟨earlier, later, ran, stepped, rfl⟩ := found
    exact ⟨earlier, ran, later, stepped, rfl⟩

theorem alone_shorter (ran : alone step own store (count + more) = some action) :
    ∃ earlier, alone step own store count = some earlier := by
  induction more generalizing action with
  | zero => exact ⟨action, ran⟩
  | succ more ih =>
      obtain ⟨earlier, _, ran', _, _⟩ := alone_succ.mp ran
      exact ih ran'

/-- A thread that has ended after `count` steps has taken no more. -/
theorem alone_le (ran : alone step own store count = some action)
    (ended : step action.own (overwrite store action.writes) = none) {taken : Nat} {other : Action σ α β ε}
    (ran' : alone step own store taken = some other) : taken ≤ count := by
  by_contra beyond
  obtain ⟨more, rfl⟩ := Nat.exists_eq_add_of_lt (Nat.lt_of_not_le beyond)
  rw [Nat.add_right_comm] at ran'
  obtain ⟨past, ranPast⟩ := alone_shorter ran'
  obtain ⟨earlier, later, ranEarlier, stepped, _⟩ := alone_succ.mp ranPast
  cases ranEarlier.symm.trans ran
  rw [ended] at stepped
  contradiction

end Alone

/-! # Any order -/

variable [DecidableEq ι] {steps : ι → Stepper σ α β ε} {pool now next : Pool ι σ α β ε} {schedule rest : List ι}
variable {thread other : ι} {place : α} {reads : ι → α → Prop}

theorem eventsOf_append (thread : ι) (log more : List (ι × ε)) :
    eventsOf thread (log ++ more) = eventsOf thread log ++ eventsOf thread more :=
  List.filterMap_append

namespace Pool

section Acted

variable {action : Action σ α β ε}

@[simp] theorem acted_own : (pool.acted thread action).own thread = action.own := Function.update_self ..

theorem acted_store : (pool.acted thread action).store = overwrite pool.store action.writes := rfl

theorem acted_own_other (different : other ≠ thread) : (pool.acted thread action).own other = pool.own other :=
  Function.update_of_ne different ..

theorem acted_events : eventsOf thread (pool.acted thread action).log = eventsOf thread pool.log ++ action.events := by
  rw [acted, eventsOf_append]
  simp [eventsOf, List.filterMap_map]

theorem acted_events_other (different : other ≠ thread) :
    eventsOf other (pool.acted thread action).log = eventsOf other pool.log := by
  rw [acted, eventsOf_append]
  simp [eventsOf, List.filterMap_map, Ne.symm different]

end Acted

theorem step_some : step steps pool thread = some next ↔
    ∃ action, steps thread (pool.own thread) pool.store = some action ∧ pool.acted thread action = next :=
  Option.map_eq_some_iff

theorem interleave_append : interleave steps pool (schedule ++ rest) =
    (interleave steps pool schedule).bind fun middle => interleave steps middle rest :=
  List.foldlM_append

theorem interleave_concat : interleave steps pool (schedule ++ [thread]) = some next ↔
    ∃ middle, interleave steps pool schedule = some middle ∧ step steps middle thread = some next := by
  rw [interleave_append, Option.bind_eq_some_iff]
  simp [interleave]

/-- The steps of a thread depend on the places it reads only, and no other
thread writes these. -/
structure Independent (steps : ι → Stepper σ α β ε) (reads : ι → α → Prop) (pool : Pool ι σ α β ε) : Prop where
  depends : ∀ {thread count action}, pool.alone steps thread count = some action → ∀ store : α → β,
    (∀ place, reads thread place → store place = overwrite pool.store action.writes place) →
      steps thread action.own store = steps thread action.own (overwrite pool.store action.writes)
  unwritten : ∀ {thread other}, thread ≠ other → ∀ {count action}, pool.alone steps other count = some action →
    ∀ {place}, reads thread place → action.writes place = none

/-- Each thread is where it would be alone after its share of the schedule.  A
place that one thread alone writes holds what that thread has written there;
any place holds what some thread had once written last, if one has written it. -/
structure Follows (steps : ι → Stepper σ α β ε) (pool : Pool ι σ α β ε) (schedule : List ι) (now : Pool ι σ α β ε)
    (actions : ι → Action σ α β ε) : Prop where
  ran : ∀ thread, pool.alone steps thread (schedule.count thread) = some (actions thread)
  own : ∀ thread, now.own thread = (actions thread).own
  events : ∀ thread, eventsOf thread now.log = eventsOf thread pool.log ++ (actions thread).events
  kept : ∀ thread place, (∀ other, other ≠ thread → (actions other).writes place = none) →
    now.store place = overwrite pool.store (actions thread).writes place
  last : ∀ place thread, (actions thread).writes place ≠ none →
    ∃ writer count action, pool.alone steps writer count = some action ∧
      action.writes place = some (now.store place)

variable {actions : ι → Action σ α β ε}

theorem Follows.sees (independent : Independent steps reads pool) (follows : Follows steps pool schedule now actions)
    (thread : ι) (place : α) (read : reads thread place) :
    now.store place = overwrite pool.store (actions thread).writes place :=
  follows.kept thread place fun _ different =>
    independent.unwritten (Ne.symm different) (follows.ran _) read

/-- In the pool a thread steps as it does alone. -/
theorem Follows.steps_eq (independent : Independent steps reads pool)
    (follows : Follows steps pool schedule now actions) (thread : ι) :
    steps thread (now.own thread) now.store =
      steps thread (actions thread).own (overwrite pool.store (actions thread).writes) := by
  rw [follows.own]
  exact independent.depends (follows.ran thread) _ (follows.sees independent thread)

theorem follows_start (pool : Pool ι σ α β ε) :
    Follows steps pool [] pool fun thread => ⟨pool.own thread, fun _ => none, []⟩ where
  ran _ := rfl
  own _ := rfl
  events _ := (List.append_nil _).symm
  kept _ _ _ := rfl
  last _ _ written := absurd rfl written

/-- The same actions, with one more by a thread. -/
def extend (actions : ι → Action σ α β ε) (thread : ι) (later : Action σ α β ε) : ι → Action σ α β ε :=
  Function.update actions thread ((actions thread).followed later)

section Extend

variable {later : Action σ α β ε}

@[simp] theorem extend_self : extend actions thread later thread = (actions thread).followed later :=
  Function.update_self ..

theorem extend_other (different : other ≠ thread) : extend actions thread later other = actions other :=
  Function.update_of_ne different ..

theorem count_concat (thread : ι) (schedule : List ι) :
    (schedule ++ [thread]).count thread = schedule.count thread + 1 := by
  rw [List.count_append, List.count_singleton_self]

theorem count_concat_other (different : other ≠ thread) (schedule : List ι) :
    (schedule ++ [thread]).count other = schedule.count other := by
  rw [List.count_append, List.count_singleton, if_neg (by simpa using Ne.symm different), Nat.add_zero]

/-- A place the others have left alone is left alone by them before the last action. -/
theorem untouched_before (single : ∀ third, third ≠ other → (extend actions thread later third).writes place = none) :
    ∀ third, third ≠ other → (actions third).writes place = none := by
  intro third different
  have untouched := single third different
  by_cases acting : third = thread
  · rw [acting, extend_self] at untouched
    rw [acting]
    exact (Option.or_eq_none_iff.mp untouched).2
  · rwa [extend_other acting] at untouched

theorem Follows.kept_step (follows : Follows steps pool schedule now actions)
    (single : ∀ third, third ≠ other → (extend actions thread later third).writes place = none) :
    (now.acted thread later).store place = overwrite pool.store (extend actions thread later other).writes place := by
  have before := follows.kept other place (untouched_before single)
  by_cases acting : other = thread
  · rw [acting] at before ⊢
    rw [extend_self, overwrite_followed, acted_store, overwrite, before]
    rfl
  · have untouched := single thread (Ne.symm acting)
    rw [extend_self] at untouched
    rw [extend_other acting, ← before]
    exact overwrite_untouched (Option.or_eq_none_iff.mp untouched).1

theorem Follows.last_step (follows : Follows steps pool schedule now actions)
    (ran : pool.alone steps thread (schedule.count thread + 1) = some ((actions thread).followed later))
    (written : (extend actions thread later other).writes place ≠ none) :
    ∃ writer count action, pool.alone steps writer count = some action ∧
      action.writes place = some ((now.acted thread later).store place) := by
  cases wrote : later.writes place with
  | some value =>
      refine ⟨thread, _, _, ran, ?_⟩
      rw [acted_store, overwrite_touched wrote, Action.followed_writes, wrote, Option.some_or]
  | none =>
      have before : ∃ third, (actions third).writes place ≠ none := by
        by_cases acting : other = thread
        · rw [acting, extend_self, Action.followed_writes, wrote, Option.none_or] at written
          exact ⟨thread, written⟩
        · rw [extend_other acting] at written
          exact ⟨other, written⟩
      obtain ⟨third, written⟩ := before
      rw [acted_store, overwrite_untouched wrote]
      exact follows.last place third written

theorem Follows.act (follows : Follows steps pool schedule now actions)
    (ran : pool.alone steps thread (schedule.count thread + 1) = some ((actions thread).followed later)) :
    Follows steps pool (schedule ++ [thread]) (now.acted thread later) (extend actions thread later) where
  ran other := by
    by_cases acting : other = thread
    · rw [acting, count_concat, extend_self]
      exact ran
    · rw [count_concat_other acting, extend_other acting]
      exact follows.ran other
  own other := by
    by_cases acting : other = thread
    · rw [acting, extend_self, acted_own]
      rfl
    · rw [extend_other acting, acted_own_other acting]
      exact follows.own other
  events other := by
    by_cases acting : other = thread
    · rw [acting, extend_self, acted_events, follows.events, List.append_assoc]
      rfl
    · rw [extend_other acting, acted_events_other acting]
      exact follows.events other
  kept _ _ single := follows.kept_step single
  last _ _ written := follows.last_step ran written

end Extend

theorem Follows.step (independent : Independent steps reads pool) (follows : Follows steps pool schedule now actions)
    (stepped : step steps now thread = some next) : ∃ actions, Follows steps pool (schedule ++ [thread]) next actions := by
  obtain ⟨later, ran, rfl⟩ := step_some.mp stepped
  rw [follows.steps_eq independent] at ran
  have counted : pool.alone steps thread (schedule.count thread + 1) = some ((actions thread).followed later) :=
    alone_succ.mpr ⟨_, later, follows.ran thread, ran, rfl⟩
  exact ⟨_, follows.act counted⟩

theorem interleave_follows (independent : Independent steps reads pool)
    (ran : interleave steps pool schedule = some now) : ∃ actions, Follows steps pool schedule now actions := by
  induction schedule using List.reverseRecOn generalizing now with
  | nil =>
      cases ran
      exact ⟨_, follows_start pool⟩
  | append_singleton schedule thread ih =>
      obtain ⟨middle, ranMiddle, stepped⟩ := interleave_concat.mp ran
      obtain ⟨actions, follows⟩ := ih ranMiddle
      exact follows.step independent stepped

/-- A schedule runs when no thread's share of it is longer than the thread. -/
theorem interleave_exists (independent : Independent steps reads pool)
    (enough : ∀ thread, ∃ action, pool.alone steps thread (schedule.count thread) = some action) :
    ∃ now, interleave steps pool schedule = some now := by
  induction schedule using List.reverseRecOn with
  | nil => exact ⟨pool, rfl⟩
  | append_singleton schedule thread ih =>
      have shorter : ∀ other, ∃ action, pool.alone steps other (schedule.count other) = some action := by
        intro other
        obtain ⟨action, ran⟩ := enough other
        rw [List.count_append] at ran
        exact alone_shorter ran
      obtain ⟨middle, ran⟩ := ih shorter
      obtain ⟨actions, follows⟩ := interleave_follows independent ran
      obtain ⟨action, ranThread⟩ := enough thread
      rw [count_concat] at ranThread
      obtain ⟨earlier, later, ranEarlier, stepped, _⟩ := alone_succ.mp ranThread
      cases ranEarlier.symm.trans (follows.ran thread)
      rw [← follows.steps_eq independent] at stepped
      exact ⟨_, interleave_concat.mpr ⟨middle, ran, step_some.mpr ⟨later, stepped, rfl⟩⟩⟩

/-! # Threads that end -/

structure Ends (steps : ι → Stepper σ α β ε) (pool : Pool ι σ α β ε) (lengths : ι → Nat)
    (finals : ι → Action σ α β ε) : Prop where
  ran : ∀ thread, pool.alone steps thread (lengths thread) = some (finals thread)
  ended : ∀ thread, steps thread (finals thread).own (overwrite pool.store (finals thread).writes) = none

/-- A schedule after which all threads have ended. -/
structure Complete (steps : ι → Stepper σ α β ε) (pool : Pool ι σ α β ε) (schedule : List ι) (done : Pool ι σ α β ε) :
    Prop where
  ran : interleave steps pool schedule = some done
  ended : ∀ thread, done.Ended steps thread

/-- No order keeps the threads from ending, and all complete ones take as long. -/
def EveryOrderEnds (steps : ι → Stepper σ α β ε) (pool : Pool ι σ α β ε) : Prop :=
  ∃ length, (∀ schedule now, interleave steps pool schedule = some now →
      ∃ rest done, Complete steps pool (schedule ++ rest) done) ∧
    ∀ schedule done, Complete steps pool schedule done → schedule.length = length

variable {lengths : ι → Nat} {finals : ι → Action σ α β ε} {done : Pool ι σ α β ε}

theorem Ends.count_le (ends : Ends steps pool lengths finals) (follows : Follows steps pool schedule now actions)
    (thread : ι) : schedule.count thread ≤ lengths thread :=
  alone_le (ends.ran thread) (ends.ended thread) (follows.ran thread)

theorem Ends.ended_iff (ends : Ends steps pool lengths finals) (independent : Independent steps reads pool)
    (follows : Follows steps pool schedule now actions) :
    now.Ended steps thread ↔ schedule.count thread = lengths thread := by
  rw [Ended, follows.steps_eq independent]
  apply Iff.intro
  · intro stuck
    apply Nat.le_antisymm (ends.count_le follows thread)
    exact alone_le (follows.ran thread) stuck (ends.ran thread)
  · intro same
    have ran := follows.ran thread
    rw [same] at ran
    rw [Option.some.inj (ran.symm.trans (ends.ran thread))]
    exact ends.ended thread

/-- When all have ended, all have become what they become alone. -/
theorem Ends.finished (ends : Ends steps pool lengths finals) (independent : Independent steps reads pool)
    (complete : Complete steps pool schedule done) : Follows steps pool schedule done finals := by
  obtain ⟨actions, follows⟩ := interleave_follows independent complete.ran
  have same : actions = finals := by
    funext thread
    have ranThread := follows.ran thread
    rw [(ends.ended_iff independent follows).mp (complete.ended thread)] at ranThread
    exact Option.some.inj (ranThread.symm.trans (ends.ran thread))
  rwa [same] at follows

variable [Fintype ι]

/-- All complete schedules are of one length. -/
theorem Ends.length_eq (ends : Ends steps pool lengths finals) (independent : Independent steps reads pool)
    (complete : Complete steps pool schedule done) : schedule.length = ∑ thread, lengths thread := by
  obtain ⟨actions, follows⟩ := interleave_follows independent complete.ran
  rw [← List.sum_toFinset_count_eq_length, Finset.sum_subset (Finset.subset_univ _)]
  · apply Finset.sum_congr rfl
    intro thread _
    exact (ends.ended_iff independent follows).mp (complete.ended thread)
  · intro thread _ absent
    rw [List.mem_toFinset] at absent
    exact List.count_eq_zero.mpr absent

theorem exists_counts (counts : ι → Nat) : ∃ schedule : List ι, ∀ thread, schedule.count thread = counts thread := by
  refine ⟨(∑ thread, Multiset.replicate (counts thread) thread).toList, fun thread => ?_⟩
  rw [← Multiset.coe_count, Multiset.coe_toList, Multiset.count_sum']
  simp [Multiset.count_replicate]

/-- Whatever order the threads have been in so far, they can go on until all have ended. -/
theorem Ends.completes (ends : Ends steps pool lengths finals) (independent : Independent steps reads pool)
    (ran : interleave steps pool schedule = some now) :
    ∃ rest done, Complete steps pool (schedule ++ rest) done := by
  obtain ⟨actions, follows⟩ := interleave_follows independent ran
  obtain ⟨rest, counts⟩ := exists_counts fun thread => lengths thread - schedule.count thread
  have counted : ∀ thread, (schedule ++ rest).count thread = lengths thread := by
    intro thread
    rw [List.count_append, counts]
    exact Nat.add_sub_cancel' (ends.count_le follows thread)
  have enough : ∀ thread, ∃ action, pool.alone steps thread ((schedule ++ rest).count thread) = some action := by
    intro thread
    rw [counted]
    exact ⟨_, ends.ran thread⟩
  obtain ⟨done, whole⟩ := interleave_exists independent enough
  obtain ⟨_, follows'⟩ := interleave_follows independent whole
  exact ⟨rest, done, whole, fun thread => (ends.ended_iff independent follows').mpr (counted thread)⟩

theorem Ends.everyOrderEnds (ends : Ends steps pool lengths finals) (independent : Independent steps reads pool) :
    EveryOrderEnds steps pool :=
  ⟨_, fun _ _ => ends.completes independent, fun _ _ => ends.length_eq independent⟩

end Pool

end RwSep.Execution
