import RwSep.Allocator.Refinement

namespace RwSep.Allocator

open RwSep.Data RwSep.Execution RwSep.Packing

/-! A whole session of one object: `init` on a new object, then any calls. -/

namespace Setup

def firstFill (setup : Setup) : Fill :=
  mappedFill setup.linux (setup.firstPath 0) setup.firstLength

def afterDram (setup : Setup) (os : Os) : Os := (os.obtain (.newChar setup.firstLength)).2

structure Started (setup : Setup) (dram nvm : Table) (channel : Int) (os : Os)
    (a : Fastalloc) (os' : Os) : Prop where
  valid : setup.setsChannel → 0 ≤ setup.channel ∧ setup.channel ≤ 3
  channel : a.channel = if setup.setsChannel then setup.channel else channel
  dram : a.pool false = (Pool.unused dram).opened (os.obtain (.newChar setup.firstLength)).1
    setup.firstLength (Pool.unused_bound _)
  nvm : a.pool true = (Pool.unused nvm).opened ((setup.afterDram os).fill setup.firstFill).1
    setup.firstLength (Pool.unused_bound _)
  system : os' = ((setup.afterDram os).fill setup.firstFill).2

variable {setup : Setup} {dram nvm : Table} {channel : Int} {os os' : Os} {a : Fastalloc}

theorem init_valid (started : setup.init (.new dram nvm channel) os = .ok (a, os')) :
    setup.setsChannel → 0 ≤ setup.channel ∧ setup.channel ≤ 3 := by
  intro sets
  rw [init_eq] at started
  split at started
  · contradiction
  · next accepted =>
      simp only [sets, true_and] at accepted
      omega

/-- On a valid channel `init` returns, and what it returns is known. -/
theorem init_opens (valid : setup.setsChannel → 0 ≤ setup.channel ∧ setup.channel ≤ 3) :
    ∃ a os', setup.init (.new dram nvm channel) os = .ok (a, os') ∧
      setup.Started dram nvm channel os a os' := by
  have accepted : ¬ (setup.setsChannel ∧ (setup.channel < 0 ∨ setup.channel > 3)) := by
    intro found
    obtain ⟨sets, outside⟩ := found
    have := valid sets
    omega
  obtain ⟨after, opened, inDram, inNvm, kept⟩ := Fastalloc.openPools_ok
    (.new dram nvm (if setup.setsChannel then setup.channel else channel)) os setup.firstLength
    (Pool.unused_bound dram) (Pool.unused_bound nvm)
    fun nvmCnt => mappedFill setup.linux (setup.firstPath nvmCnt) setup.firstLength
  refine ⟨after, _, ?_, valid, kept, inDram, inNvm, rfl⟩
  rw [init_eq, if_neg accepted]
  exact opened

theorem init_started (started : setup.init (.new dram nvm channel) os = .ok (a, os')) :
    setup.Started dram nvm channel os a os' := by
  obtain ⟨after, osAfter, returned, known⟩ := init_opens (init_valid started)
  cases returned.symm.trans started
  exact known

theorem mappedFill_length (linux : Bool) (path : String) (length : Word) :
    (mappedFill linux path length).kept.length = length := by
  cases linux <;> rfl

theorem growth_length (setup : Setup) (a : Fastalloc) :
    (setup.growth a).kept.length = ALLOC_SIZE := by
  unfold growth
  cases setup.copy with
  | optaneStudy => exact mappedFill_length ..
  | fastallocate => rfl
  | pmStudy => rfl

theorem firstLength_le (setup : Setup) : setup.firstLength.toNat ≤ ALLOC_SIZE.toNat := by
  unfold firstLength
  cases setup.kind <;> decide

namespace Started

variable (started : setup.Started dram nvm channel os a os')

include started

theorem cnt (pool : Bool) : (a.pool pool).cnt.toNat = 1 := by
  cases pool with
  | true => rw [started.nvm, Pool.opened_cnt]; rfl
  | false => rw [started.dram, Pool.opened_cnt]; rfl

/-- After `init` each pool stands for an untouched first bin. -/
theorem represents (pool : Bool) :
    Represents setup.firstLength (a.pool pool) (.opened 0 setup.firstLength.toNat) := by
  have opened : ∃ table base, a.pool pool =
      (Pool.unused table).opened base setup.firstLength (Pool.unused_bound _) := by
    cases pool with
    | true => exact ⟨_, _, started.nvm⟩
    | false => exact ⟨_, _, started.dram⟩
  obtain ⟨table, base, opened⟩ := opened
  have newest := Pool.opened_entry_new _ base setup.firstLength (Pool.unused_bound table)
  rw [← opened, Pool.unused_cnt] at newest
  constructor
  · exact started.cnt pool
  · simp [Packer.opened, regionLength]
  · have curr : (a.pool pool).curr = base := by rw [opened, Pool.opened_curr]
    simpa [Packer.opened, curr] using newest.symm
  · simp [Packer.opened, opened]

theorem log : ∃ events, os'.log = os.log ++ events := by
  obtain ⟨events, grown⟩ := (setup.afterDram os).fill_log setup.firstFill
  rw [started.system, grown]
  simp [afterDram, Os.obtain]

theorem owned {κ : Type} [DecidableEq κ] {first : κ → Word} {objects : κ → Fastalloc} (owner : κ)
    (family : Owned first objects os.log) (new : objects owner = .new dram nvm channel)
    (length : first owner = setup.firstLength) (granted : Granted os'.log) :
    Owned first (Function.update objects owner a) os'.log := by
  have system := started.system
  subst system
  let middle : Fastalloc := { a with nvm := nvm, nvmCurr := 0, nvmLeft := 0, nvmCnt := 0 }
  have grantedDram : Granted (setup.afterDram os).log := by
    obtain ⟨events, grown⟩ := (setup.afterDram os).fill_log setup.firstFill
    rw [grown, List.append_assoc] at granted
    exact granted.of_append
  have oldPools : ∀ pool, ((objects owner).pool pool).cnt = 0 := by
    intro pool
    rw [new]
    cases pool <;> rfl
  have first₁ : Owned first (Function.update objects owner middle) (setup.afterDram os).log := by
    refine family.filled owner false middle ⟨[], .newChar setup.firstLength⟩ setup.firstLength 0 rfl
      grantedDram (by rw [oldPools]; decide) ?_ ?_ ?_
    · simp only [Pool.take_zero, new]
      exact started.dram
    · rw [new]
      rfl
    · simp [oldPools, regionLength, length, Acquire.length]
  have second := first₁.filled owner true a setup.firstFill setup.firstLength 0 rfl granted
    (by rw [Function.update_self]; exact Pool.unused_bound nvm) ?_ ?_ ?_
  · rwa [Function.update_idem] at second
  · simp only [Pool.take_zero, Function.update_self]
    exact started.nvm
  · rw [Function.update_self]
    rfl
  · rw [firstFill, mappedFill_length, Function.update_self, length]
    rfl

end Started

end Setup

end RwSep.Allocator
